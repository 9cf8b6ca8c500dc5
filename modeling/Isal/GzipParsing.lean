import Isal.GzipHeader

/-! Reading a gzip header in pieces. Between two calls the state says how much of which field
has been read; every continuation of the parser takes it from there to the end of the header,
of the input or of a buffer. -/
namespace Isal.Inflate

open Isal.Bits Isal.Checksum Rfc1952

section Input

structure InBuffer (s : InStream) : Prop where
  start : 0 ≤ s.nextIn
  end_ : s.nextIn.toNat + s.availIn = s.buf.length

variable {s : InflateState} {k n : Nat}

theorem InBuffer.pending {s : InStream} (h : InBuffer s) : s.pending = s.buf.drop s.nextIn.toNat := by
  have := h.end_
  rw [InStream.pending, List.take_of_length_le]
  simp
  omega

theorem InBuffer.length {s : InStream} (h : InBuffer s) : s.pending.length = s.availIn := by
  have := h.end_
  rw [h.pending, List.length_drop]
  omega

theorem InBuffer.feed (s : InflateState) (input : List UInt8) : InBuffer (s.feed input).toInStream where
  start := Int.le_refl _
  end_ := Nat.zero_add _

theorem feed_pending (s : InflateState) (input : List UInt8) : (s.feed input).pending = input :=
  (InBuffer.feed s input).pending

theorem InBuffer.skip (h : InBuffer s.toInStream) (le : k ≤ s.availIn) : InBuffer (s.skip k).toInStream where
  start := Int.add_nonneg h.start (Int.natCast_nonneg k)
  end_ := by
    have := h.start
    have := h.end_
    simp only [InflateState.skip]
    omega

theorem InBuffer.skip_pending (h : InBuffer s.toInStream) (le : k ≤ s.availIn) : (s.skip k).pending = s.pending.drop k := by
  have := h.start
  have next : (s.nextIn + k).toNat = s.nextIn.toNat + k := by omega
  rw [(h.skip le).pending, h.pending, List.drop_drop]
  change s.buf.drop (s.nextIn + k).toNat = _
  rw [next]

theorem skip_skip (s : InflateState) (k n : Nat) : (s.skip k).skip n = s.skip (k + n) := by
  simp only [InflateState.skip, InflateState.mk.injEq, InStream.mk.injEq, and_true, true_and]
  omega

/-- How a field of fixed size is read. -/
inductive FieldRead (field later rest : List UInt8) (s : InflateState) : Option (List UInt8) × InflateState → Prop
  | read (k : Nat) (le : k ≤ s.availIn) (left : (s.skip k).pending ++ later = rest) :
      FieldRead field later rest s (some field, { s.skip k with tmpIn := [] })
  | short (few : (s.tmpIn ++ s.pending).length < field.length) :
      FieldRead field later rest s (none, { s.skip s.availIn with tmpIn := s.tmpIn ++ s.pending })

theorem fixedSizeRead_spec {field later rest : List UInt8} (inside : InBuffer s.toInStream)
    (stream : s.tmpIn ++ (s.pending ++ later) = field ++ rest) (few : s.tmpIn.length ≤ field.length) :
    FieldRead field later rest s (fixedSizeRead field.length s) := by
  have length := inside.length
  rw [fixedSizeRead]
  by_cases short : s.availIn + s.tmpIn.length < field.length
  · rw [if_pos short]
    refine .short ?_
    rw [List.length_append]
    omega
  · rw [if_neg short]
    have le : field.length - s.tmpIn.length ≤ s.availIn := by omega
    have taken := congrArg (List.take field.length) stream
    have dropped := congrArg (List.drop field.length) stream
    rw [List.take_left' rfl, List.take_append, List.take_of_length_le few,
      List.take_append_of_le_length (by omega)] at taken
    rw [List.drop_left' rfl, List.drop_append, List.drop_eq_nil_of_le few, List.nil_append,
      List.drop_append_of_le_length (by omega)] at dropped
    dsimp only
    rw [taken]
    refine .read _ le ?_
    rw [inside.skip_pending le, dropped]

end Input

section Buffers

theorem storeBytes_get (buf : Arr UInt8) (offset : Nat) (bytes : List UInt8) (i : Nat) :
    storeBytes buf offset bytes i = if offset ≤ i then bytes[i - offset]?.getD (buf i) else buf i := rfl

/-- More bytes of a field, written behind the ones that are there. -/
theorem Stored.extend {buf : Option (Arr UInt8)} {bufLen m k : Nat} {bytes : List UInt8}
    (h : Stored buf bufLen (bytes.take m)) (upTo : m ≤ bytes.length) (room : buf.isSome → m + k ≤ bufLen) :
    Stored (buf.map (storeBytes · m ((bytes.drop m).take k))) bufLen (bytes.take (m + k)) := by
  intro b new
  obtain ⟨old, there, rfl⟩ := Option.map_eq_some_iff.mp new
  obtain ⟨fits, same⟩ := h old there
  have room := room (Option.isSome_iff_exists.mpr ⟨old, there⟩)
  refine ⟨by rw [List.length_take]; omega, fun i within => ?_⟩
  rw [List.length_take] at within
  rw [storeBytes_get, List.getElem_take]
  by_cases new : m ≤ i
  · have here : i - m < ((bytes.drop m).take k).length := by simp; omega
    rw [if_pos new, List.getElem?_eq_getElem here, Option.getD_some, List.getElem_take, List.getElem_drop]
    congr 1
    omega
  · have here : i < (bytes.take m).length := by simp; omega
    rw [if_neg new, same i here, List.getElem_take]

theorem Stored.nil (buf : Option (Arr UInt8)) (bufLen : Nat) : Stored buf bufLen [] :=
  fun _ _ => ⟨Nat.zero_le _, fun _ inside => absurd inside (Nat.not_lt_zero _)⟩

/-- How a field that goes to a buffer is read; `count` is what `state->count` says when `m` bytes have
been read. -/
inductive PieceRead (error : ReturnCode) (bytes later rest : List UInt8) (buf : Option (Arr UInt8)) (bufLen : Nat)
    (count : Nat → Nat) (s : InflateState) : ReturnCode × Option (Arr UInt8) × InflateState → Prop
  | whole (k : Nat) (buf' : Option (Arr UInt8)) (le : k ≤ s.availIn) (same : buf'.isSome = buf.isSome)
      (stored : Stored buf' bufLen bytes) (left : (s.skip k).pending ++ later = rest) :
      PieceRead error bytes later rest buf bufLen count s (.decompOk, buf', { s.skip k with count := 0 })
  | cut (m : Nat) (buf' : Option (Arr UInt8)) (upTo : m < bytes.length) (same : buf'.isSome = buf.isSome)
      (stored : Stored buf' bufLen (bytes.take m)) (left : later = bytes.drop m ++ rest) :
      PieceRead error bytes later rest buf bufLen count s (.endInput, buf', { s.skip s.availIn with count := count m })
  | full (m k : Nat) (buf' : Option (Arr UInt8)) (le : k ≤ s.availIn) (upTo : m < bytes.length)
      (there : buf.isSome) (same : buf'.isSome = buf.isSome) (lacks : bufLen < bytes.length)
      (stored : Stored buf' bufLen (bytes.take m)) (left : (s.skip k).pending ++ later = bytes.drop m ++ rest) :
      PieceRead error bytes later rest buf bufLen count s (error, buf', { s.skip k with count := count m })

variable {s : InflateState} {later rest : List UInt8} {buf : Option (Arr UInt8)} {bufLen m : Nat} {error : ReturnCode}

/-- What is left of the input when `k` more bytes of a field have been read. -/
theorem InBuffer.advance {bytes : List UInt8} (inside : InBuffer s.toInStream) {k : Nat} (le : k ≤ s.availIn)
    (within : m + k ≤ bytes.length) (stream : s.pending ++ later = bytes.drop m ++ rest) :
    (s.skip k).pending ++ later = bytes.drop (m + k) ++ rest := by
  have dropped := congrArg (List.drop k) stream
  rwa [List.drop_append_of_le_length (by rw [inside.length]; exact le), List.drop_append_of_le_length (by simp; omega),
    List.drop_drop, ← inside.skip_pending le] at dropped

theorem InBuffer.take_pending {bytes : List UInt8} (inside : InBuffer s.toInStream) {k : Nat} (le : k ≤ s.availIn)
    (within : m + k ≤ bytes.length) (stream : s.pending ++ later = bytes.drop m ++ rest) :
    s.pending.take k = (bytes.drop m).take k := by
  have taken := congrArg (List.take k) stream
  rwa [List.take_append_of_le_length (by rw [inside.length]; exact le), List.take_append_of_le_length (by simp; omega)]
    at taken

theorem InBuffer.used (inside : InBuffer s.toInStream) : (s.skip s.availIn).pending = [] := by
  rw [inside.skip_pending (Nat.le_refl _), List.drop_eq_nil_of_le (Nat.le_of_eq inside.length)]

theorem bufferHeaderCopy_spec (error : ReturnCode) {field : List UInt8} (inside : InBuffer s.toInStream) (upTo : m ≤ field.length)
    (stored : Stored buf bufLen (field.take m)) (stream : s.pending ++ later = field.drop m ++ rest) :
    PieceRead error field later rest buf bufLen (field.length - ·) s
      (bufferHeaderCopy (field.length - m) buf bufLen m error s) := by
  have filled : buf.isSome → m ≤ bufLen := by
    intro there
    obtain ⟨old, there⟩ := Option.isSome_iff_exists.mp there
    have fits := (stored old there).1
    rw [List.length_take] at fits
    omega
  simp only [bufferHeaderCopy]
  by_cases small : buf.isSome = true ∧ bufLen - m < min (field.length - m) s.availIn
  · rw [if_pos small, inside.take_pending (k := bufLen - m) (by omega) (by omega) stream]
    have here := filled small.1
    have extended := stored.extend upTo (k := bufLen - m) (fun _ => by omega)
    have left := inside.advance (k := bufLen - m) (by omega) (by omega) stream
    rw [Nat.sub_sub]
    exact .full (m + (bufLen - m)) _ _ (by omega) (by omega) small.1 (by simp) (by omega) extended left
  · rw [if_neg small, inside.take_pending (k := min (field.length - m) s.availIn) (by omega) (by omega) stream]
    have extended := stored.extend upTo (k := min (field.length - m) s.availIn) (fun there => by
      have := filled there
      have := Nat.not_lt.mp fun less => small ⟨there, less⟩
      omega)
    have left := inside.advance (k := min (field.length - m) s.availIn) (by omega) (by omega) stream
    by_cases whole : field.length - m ≤ s.availIn
    · have len : min (field.length - m) s.availIn = field.length - m := Nat.min_eq_left whole
      rw [len] at extended left ⊢
      rw [Nat.add_sub_cancel' upTo] at extended left
      rw [List.take_length] at extended
      rw [List.drop_length, List.nil_append] at left
      rw [if_pos rfl, Nat.sub_self]
      exact .whole _ _ whole (by simp) extended left
    · have len : min (field.length - m) s.availIn = s.availIn := Nat.min_eq_right (by omega)
      rw [len] at extended left ⊢
      rw [inside.used, List.nil_append] at left
      rw [if_neg (by omega), Nat.sub_sub]
      exact .cut _ _ (by omega) (by simp) extended left

/-- The text at the front of the input ends at its zero byte, at the end of the input or at the end of the
buffer, whichever comes first. -/
theorem takeWhile_text {text rest : List UInt8} (plain : 0 ∉ text) (k : Nat) :
    ((text ++ 0 :: rest).take k).takeWhile (· ≠ 0) = text.take k := by
  induction text generalizing k with
  | nil => cases k <;> simp
  | cons byte text ih =>
    cases k with
    | zero => rfl
    | succ k =>
      have here : byte ≠ 0 := fun zero => plain (zero ▸ List.mem_cons_self)
      rw [List.cons_append, List.take_succ_cons, List.takeWhile_cons_of_pos (by simpa using here), List.take_succ_cons,
        ih (fun there => plain (List.mem_cons_of_mem _ there))]

theorem Stored.terminate {text : List UInt8} (h : Stored buf bufLen text) (room : buf.isSome → text.length < bufLen) :
    Stored (buf.map (·.set text.length 0)) bufLen (text ++ [0]) := by
  intro b new
  obtain ⟨old, there, rfl⟩ := Option.map_eq_some_iff.mp new
  obtain ⟨fits, same⟩ := h old there
  have room := room (Option.isSome_iff_exists.mpr ⟨old, there⟩)
  refine ⟨by simpa using room, fun i within => ?_⟩
  rw [List.length_append, List.length_singleton] at within
  rw [Arr.set_get]
  by_cases last : i = text.length
  · subst last
    simp
  · have here : i < text.length := by omega
    rw [if_neg last, same i here, List.getElem_append_left here]

theorem stringHeaderCopy_spec (error : ReturnCode) {text : List UInt8} (inside : InBuffer s.toInStream) (plain : 0 ∉ text)
    (upTo : m ≤ text.length) (count : s.count = m) (stored : Stored buf bufLen ((text ++ [0]).take m))
    (stream : s.pending ++ later = (text ++ [0]).drop m ++ rest) :
    PieceRead error (text ++ [0]) later rest buf bufLen id s (stringHeaderCopy buf bufLen m error s) := by
  have size : (text ++ [0]).length = text.length + 1 := List.length_append
  have filled : buf.isSome → m ≤ bufLen := by
    intro there
    obtain ⟨old, there⟩ := Option.isSome_iff_exists.mp there
    have fits := (stored old there).1
    rw [List.length_take, size] at fits
    omega
  obtain ⟨maxLen, isMax⟩ : ∃ maxLen, maxLen = if s.availIn < bufLen - m ∨ buf = none then s.availIn else bufLen - m := ⟨_, rfl⟩
  have atMost : maxLen ≤ s.availIn := by
    rw [isMax]
    split <;> omega
  obtain ⟨len, isLen⟩ : ∃ len, len = min (text.length - m) maxLen := ⟨_, rfl⟩
  have front : s.pending.take maxLen = (text.drop m ++ 0 :: rest).take maxLen := by
    have taken := congrArg (List.take maxLen) stream
    rwa [List.take_append_of_le_length (by rw [inside.length]; exact atMost), List.drop_append_of_le_length upTo,
      List.append_assoc] at taken
  have found : (s.pending.take maxLen).takeWhile (· ≠ 0) = ((text ++ [0]).drop m).take len := by
    rw [front, takeWhile_text (fun there => plain (List.mem_of_mem_drop there)), List.drop_append_of_le_length upTo,
      List.take_append_of_le_length (by simp; omega), isLen, ← List.length_drop, ← List.take_take]
    exact (List.take_of_length_le (by simp)).symm
  have taken : (((text ++ [0]).drop m).take len).length = len := by
    rw [List.length_take, List.length_drop, size]
    omega
  have extended := stored.extend (by omega) (k := len) fun there => by
    have := filled there
    have notNull : buf ≠ none := Option.isSome_iff_ne_none.mp there
    simp only [notNull, or_false] at isMax
    split at isMax <;> omega
  have left := inside.advance (k := len) (by omega) (by omega) stream
  simp only [stringHeaderCopy]
  rw [← isMax, found, taken, count]
  by_cases full : buf.isSome = true ∧ len = bufLen - m
  · rw [if_pos (by simpa using full)]
    have := filled full.1
    exact .full (m + len) len _ (by omega) (by omega) full.1 (by simp) (by omega) extended left
  rw [if_neg (by simpa using full)]
  by_cases empty : s.availIn - len = 0
  · rw [if_pos (show (s.skip len).availIn = 0 from empty)]
    obtain rfl : len = s.availIn := by omega
    rw [inside.used, List.nil_append] at left
    exact .cut (m + s.availIn) _ (by omega) (by simp) extended left
  · rw [if_neg (show ¬(s.skip len).availIn = 0 from empty)]
    have ended : len = text.length - m := by
      by_cases short : s.availIn < bufLen - m ∨ buf = none
      · rw [if_pos short] at isMax
        omega
      · rw [if_neg short] at isMax
        have there : buf.isSome = true := Option.isSome_iff_ne_none.mpr fun none => short (Or.inr none)
        have differs : len ≠ bufLen - m := fun same => full ⟨there, same⟩
        omega
    have room : buf.isSome = true → text.length < bufLen := fun there => by
      have := filled there
      have differs : len ≠ bufLen - m := fun same => full ⟨there, same⟩
      have notNull : buf ≠ none := Option.isSome_iff_ne_none.mp there
      simp only [notNull, or_false] at isMax
      split at isMax <;> omega
    have step : ({ ({ s.skip len with count := m + len } : InflateState).skip 1 with count := 0 } : InflateState) =
        { s.skip (len + 1) with count := 0 } := by
      rw [← skip_skip]
      rfl
    rw [step]
    rw [ended, Nat.add_sub_cancel' upTo] at extended left ⊢
    rw [List.take_append_of_le_length (Nat.le_refl _), List.take_length] at extended
    rw [List.drop_left] at left
    have done : (s.skip (text.length - m + 1)).pending ++ later = rest := by
      have here := inside.skip (k := text.length - m) (by omega)
      have dropped : _ = rest := congrArg (List.drop 1) left
      rwa [List.drop_append_of_le_length (by rw [here.length]; change 1 ≤ s.availIn - _; omega),
        ← here.skip_pending (by change 1 ≤ s.availIn - _; omega), skip_skip] at dropped
    refine .whole (text.length - m + 1) _ (by omega) ?_ (extended.terminate ?_) done
    · simp
    · simpa using room

end Buffers

section Stages

/-- The fields of fixed size have been read. -/
structure BaseDone (h : Header) (hdr : GzipHeader) : Prop where
  time : hdr.time = h.time.toNat
  xflags : hdr.xflags = h.xflags.toNat
  os : hdr.os = h.os.toNat
  text : hdr.text = h.text.toNat
  flags : hdr.flags = h.flags

structure ExtraDone (h : Header) (hdr : GzipHeader) : Prop extends BaseDone h hdr where
  extraLen : hdr.extraLen = (h.extra.getD []).length
  extra : Stored hdr.extra hdr.extraBufLen (h.extra.getD [])

structure NameDone (h : Header) (hdr : GzipHeader) : Prop extends ExtraDone h hdr where
  name : Stored hdr.name hdr.nameBufLen (stringBytes h.name)

structure CommentDone (h : Header) (hdr : GzipHeader) : Prop extends NameDone h hdr where
  comment : Stored hdr.comment hdr.commentBufLen (stringBytes h.comment)

theorem CommentDone.holds {h : Header} {hdr : GzipHeader} (done : CommentDone h hdr) : Holds h hdr :=
  ⟨done.time, done.xflags, done.os, done.text, done.extraLen, done.extra, done.name, done.comment⟩

variable (h : Header) (trailing : List UInt8)

def afterComment : List UInt8 := hcrcBytes h.hcrc ++ trailing
def afterName : List UInt8 := stringBytes h.comment ++ afterComment h trailing
def afterExtra : List UInt8 := stringBytes h.name ++ afterName h trailing

theorem bytes_base : h.bytes ++ trailing = h.base ++ (extraBytes h.extra ++ afterExtra h trailing) := by
  simp only [Header.bytes, Header.covered, afterExtra, afterName, afterComment, List.append_assoc]

theorem bytes_covered : h.bytes ++ trailing = h.covered ++ afterComment h trailing := List.append_assoc ..

/-- The running checksum is that of the bytes before the rest of the input. -/
def Summed (hdr : GzipHeader) (rest : List UInt8) : Prop :=
  ∃ before, before ++ rest = h.bytes ++ trailing ∧ (h.hcrc.isSome → hdr.hcrc = crc32GzipRefl 0 before)

/-- Where the parse stands between two calls; `rest` is the input that has not been taken. -/
inductive Pause (hdr : GzipHeader) (s : InflateState) (rest : List UInt8) : Prop
  | base (state : s.blockState = .newHdr) (few : s.tmpIn.length < 10) (stream : s.tmpIn ++ rest = h.bytes ++ trailing)
      (sum : h.hcrc.isSome → s.tmpIn ≠ [] → hdr.hcrc = crc32GzipRefl 0 s.tmpIn) : Pause hdr s rest
  | extraLen (field : List UInt8) (is_ : h.extra = some field) (state : s.blockState = .gzipExtraLen)
      (few : s.tmpIn.length < 2)
      (stream : s.tmpIn ++ rest = toLeBytes field.length 2 ++ (field ++ afterExtra h trailing)) (done : BaseDone h hdr)
      (sum : Summed h trailing hdr rest) : Pause hdr s rest
  | extra (field : List UInt8) (m : Nat) (is_ : h.extra = some field) (state : s.blockState = .gzipExtra)
      (tmp : s.tmpIn = []) (upTo : m < field.length) (count : s.count = field.length - m)
      (len : hdr.extraLen = field.length) (stored : Stored hdr.extra hdr.extraBufLen (field.take m))
      (stream : rest = field.drop m ++ afterExtra h trailing) (done : BaseDone h hdr) (sum : Summed h trailing hdr rest) :
      Pause hdr s rest
  | name (text : List UInt8) (m : Nat) (is_ : h.name = some text) (state : s.blockState = .gzipName)
      (tmp : s.tmpIn = []) (upTo : m ≤ text.length) (count : s.count = m)
      (stored : Stored hdr.name hdr.nameBufLen ((text ++ [0]).take m))
      (stream : rest = (text ++ [0]).drop m ++ afterName h trailing) (done : ExtraDone h hdr)
      (sum : Summed h trailing hdr rest) : Pause hdr s rest
  | comment (text : List UInt8) (m : Nat) (is_ : h.comment = some text) (state : s.blockState = .gzipComment)
      (tmp : s.tmpIn = []) (upTo : m ≤ text.length) (count : s.count = m)
      (stored : Stored hdr.comment hdr.commentBufLen ((text ++ [0]).take m))
      (stream : rest = (text ++ [0]).drop m ++ afterComment h trailing) (done : NameDone h hdr)
      (sum : Summed h trailing hdr rest) : Pause hdr s rest
  | hcrc (sum : UInt16) (is_ : h.hcrc = some sum) (state : s.blockState = .gzipHcrc) (few : s.tmpIn.length < 2)
      (stream : s.tmpIn ++ rest = toLeBytes sum.toNat 2 ++ trailing) (done : CommentDone h hdr)
      (check : hdr.hcrc = crc32GzipRefl 0 h.covered) : Pause hdr s rest

/-- The buffers that the caller has given. -/
structure SameBuffers (hdr hdr' : GzipHeader) : Prop where
  extra : hdr'.extra.isSome = hdr.extra.isSome
  extraBufLen : hdr'.extraBufLen = hdr.extraBufLen
  name : hdr'.name.isSome = hdr.name.isSome
  nameBufLen : hdr'.nameBufLen = hdr.nameBufLen
  comment : hdr'.comment.isSome = hdr.comment.isSome
  commentBufLen : hdr'.commentBufLen = hdr.commentBufLen

/-- A buffer is too small for its field. -/
inductive Lacks (hdr : GzipHeader) : ReturnCode → Prop
  | extra (there : hdr.extra.isSome) (less : hdr.extraBufLen < (h.extra.getD []).length) : Lacks hdr .extraOverflow
  | name (there : hdr.name.isSome) (less : hdr.nameBufLen < (stringBytes h.name).length) : Lacks hdr .nameOverflow
  | comment (there : hdr.comment.isSome) (less : hdr.commentBufLen < (stringBytes h.comment).length) :
      Lacks hdr .commentOverflow

/-- How a call ends. -/
inductive Parsed (later : List UInt8) (hdr₀ : GzipHeader) : ReturnCode × GzipHeader × InflateState → Prop
  | done (ret : ReturnCode) (hdr : GzipHeader) (s : InflateState)
      (verdict : ret = if h.Intact then .decompOk else .incorrectChecksum) (holds : Holds h hdr)
      (left : s.pending ++ later = trailing) (same : SameBuffers hdr₀ hdr) : Parsed later hdr₀ (ret, hdr, s)
  | more (hdr : GzipHeader) (s : InflateState) (pause : Pause h trailing hdr s later) (same : SameBuffers hdr₀ hdr)
      (used : s.availIn = 0) : Parsed later hdr₀ (.endInput, hdr, s)
  | full (code : ReturnCode) (hdr : GzipHeader) (s : InflateState) (pause : Pause h trailing hdr s (s.pending ++ later))
      (same : SameBuffers hdr₀ hdr) (lacks : Lacks h hdr code) (inside : InBuffer s.toInStream) :
      Parsed later hdr₀ (code, hdr, s)

end Stages

section Parse

variable {h : Header} {trailing later before : List UInt8} {hdr₀ : GzipHeader} {g : GzipRead}

/-- In the middle of a call: `before` has been taken by the calls before it. -/
structure Running (h : Header) (trailing later before : List UInt8) (g : GzipRead) : Prop where
  inside : InBuffer g.state.toInStream
  start : 0 ≤ g.startIn
  order : g.startIn ≤ g.state.nextIn
  whole : before ++ g.state.buf.drop g.startIn.toNat ++ later = h.bytes ++ trailing
  flags : g.flags = h.flags
  sum : h.hcrc.isSome → g.hcrc = crc32GzipRefl 0 before

theorem consumed_pending {g : GzipRead} (inside : InBuffer g.state.toInStream) (start : 0 ≤ g.startIn)
    (order : g.startIn ≤ g.state.nextIn) : g.consumed ++ g.state.pending = g.state.buf.drop g.startIn.toNat := by
  have there : g.state.nextIn.toNat = g.startIn.toNat + (g.state.nextIn - g.startIn).toNat := by omega
  rw [GzipRead.consumed, inside.pending, there, ← List.drop_drop, List.take_append_drop]

theorem Running.consumed (run : Running h trailing later before g) :
    before ++ g.consumed ++ (g.state.pending ++ later) = h.bytes ++ trailing := by
  rw [← run.whole, ← consumed_pending run.inside run.start run.order]
  simp only [List.append_assoc]

theorem Running.skip {g' : GzipRead} (run : Running h trailing later before g) {k : Nat} (le : k ≤ g.state.availIn)
    (stream : g'.state.toInStream = (g.state.skip k).toInStream) (start : g'.startIn = g.startIn)
    (flags : g'.flags = g.flags) (hcrc : g'.hcrc = g.hcrc) : Running h trailing later before g' where
  inside := stream ▸ run.inside.skip le
  start := start ▸ run.start
  order := by
    have := run.order
    rw [start, stream]
    change g.startIn ≤ g.state.nextIn + k
    omega
  whole := by
    rw [start, stream]
    exact run.whole
  flags := flags.trans run.flags
  sum := hcrc ▸ run.sum

theorem flags_bits (h : Header) :
    h.flags.testBit hcrcFlag = h.hcrc.isSome ∧ h.flags.testBit extraFlag = h.extra.isSome ∧
      h.flags.testBit nameFlag = h.name.isSome ∧ h.flags.testBit commentFlag = h.comment.isSome ∧
      h.flags % 2 = h.text.toNat ∧ h.flags < 256 := by
  rw [Header.flags]
  cases h.text <;> cases h.hcrc.isSome <;> cases h.extra.isSome <;> cases h.name.isSome <;> cases h.comment.isSome <;> decide

/-- A call that stops in the middle leaves the checksum of all that has been taken. -/
theorem Running.stop (run : Running h trailing later before g) (ret : ReturnCode) :
    ∃ hcrc, g.stop ret = (ret, { g.gzHdr with hcrc }, g.state) ∧
      Summed h trailing { g.gzHdr with hcrc } (g.state.pending ++ later) := by
  rw [GzipRead.stop, run.flags, (flags_bits h).1]
  by_cases check : h.hcrc.isSome = true
  · refine ⟨_, by rw [if_pos check], before ++ g.consumed, run.consumed, fun _ => ?_⟩
    rw [run.sum check, crc32GzipRefl_append]
  · exact ⟨g.gzHdr.hcrc, by rw [if_neg check], before ++ g.consumed, run.consumed, fun some_ => absurd some_ check⟩

theorem Running.more (run : Running h trailing later before g) (used : g.state.availIn = 0)
    (pause : ∀ hcrc, Summed h trailing { g.gzHdr with hcrc } later → Pause h trailing { g.gzHdr with hcrc } g.state later)
    (same : SameBuffers hdr₀ g.gzHdr) : Parsed h trailing later hdr₀ (g.stop .endInput) := by
  obtain ⟨hcrc, stops, sum⟩ := run.stop .endInput
  have nothing : g.state.pending = [] := List.length_eq_zero_iff.mp (run.inside.length.trans used)
  rw [nothing, List.nil_append] at sum
  rw [stops]
  exact .more _ _ (pause hcrc sum)
    ⟨same.extra, same.extraBufLen, same.name, same.nameBufLen, same.comment, same.commentBufLen⟩ used

theorem Running.full (code : ReturnCode) (run : Running h trailing later before g) (lacks : Lacks h g.gzHdr code)
    (pause : ∀ hcrc, Summed h trailing { g.gzHdr with hcrc } (g.state.pending ++ later) →
      Pause h trailing { g.gzHdr with hcrc } g.state (g.state.pending ++ later))
    (same : SameBuffers hdr₀ g.gzHdr) : Parsed h trailing later hdr₀ (g.stop code) := by
  obtain ⟨hcrc, stops, sum⟩ := run.stop code
  have lacks : Lacks h { g.gzHdr with hcrc } code := by
    cases lacks with
    | extra there less => exact .extra there less
    | name there less => exact .name there less
    | comment there less => exact .comment there less
  rw [stops]
  exact .full code _ _ (pause hcrc sum)
    ⟨same.extra, same.extraBufLen, same.name, same.nameBufLen, same.comment, same.commentBufLen⟩ lacks run.inside

/-- The ends of the header are told apart by its checksum alone. -/
theorem Parsed.checked {s : InflateState} {hdr : GzipHeader} {sum : UInt16} (is_ : h.hcrc = some sum)
    (holds : Holds h hdr) (left : s.pending ++ later = trailing) (same : SameBuffers hdr₀ hdr) :
    Parsed h trailing later hdr₀
      (if crc32GzipRefl 0 h.covered % 2 ^ 16 = sum.toNat then .decompOk else .incorrectChecksum, hdr, s) := by
  have intact : h.Intact ↔ crc32GzipRefl 0 h.covered % 2 ^ 16 = sum.toNat := by
    rw [crc32GzipRefl_eq, Header.Intact, is_]
    simp
  simp only [← intact]
  exact .done _ hdr s rfl holds left same

theorem readHcrc_spec {sum : UInt16} (is_ : h.hcrc = some sum) (inside : InBuffer g.state.toInStream)
    (stream : g.state.tmpIn ++ (g.state.pending ++ later) = toLeBytes sum.toNat 2 ++ trailing)
    (few : g.state.tmpIn.length ≤ 2) (done : CommentDone h g.gzHdr) (check : g.hcrc = crc32GzipRefl 0 h.covered)
    (kept : g.gzHdr.hcrc = g.hcrc) (same : SameBuffers hdr₀ g.gzHdr) : Parsed h trailing later hdr₀ (readHcrc g) := by
  have read := fixedSizeRead_spec inside stream (by simpa using few)
  rw [toLeBytes_length] at read
  rw [readHcrc]
  generalize fixedSizeRead 2 g.state = result at read
  cases read with
  | short few =>
    rw [toLeBytes_length] at few
    exact .more _ _ (.hcrc sum is_ rfl few (by rw [← stream, ← List.append_assoc]) done (kept.trans check)) same
      (Nat.sub_self _)
  | read k le left =>
    have value : bytesVal (toLeBytes sum.toNat 2) = sum.toNat := by
      rw [bytesVal_toLeBytes]
      exact Nat.mod_eq_of_lt sum.toNat_lt
    have ended := Parsed.checked (s := { g.state.skip k with tmpIn := [], wrapperFlag := true, blockState := .newHdr }) is_
      done.holds left same
    have failed := Parsed.checked (s := { g.state.skip k with tmpIn := [] }) is_ done.holds left same
    dsimp only
    rw [value, check]
    by_cases right : crc32GzipRefl 0 h.covered % 2 ^ 16 = sum.toNat
    · rw [if_pos right] at ended
      rwa [if_neg (not_not.mpr right)]
    · rw [if_neg right] at failed
      rwa [if_pos right]

theorem readAfterComment_spec (run : Running h trailing later before g) (tmp : g.state.tmpIn = [])
    (stream : g.state.pending ++ later = afterComment h trailing) (done : CommentDone h g.gzHdr)
    (same : SameBuffers hdr₀ g.gzHdr) : Parsed h trailing later hdr₀ (readAfterComment g) := by
  rw [readAfterComment, run.flags, (flags_bits h).1]
  cases is_ : h.hcrc with
  | none =>
    rw [afterComment, is_] at stream
    have intact : h.Intact := by
      rw [Header.Intact, is_]
      simp
    exact .done _ _ _ (if_pos intact).symm done.holds stream same
  | some sum =>
    rw [afterComment, is_] at stream
    have covered : before ++ g.consumed = h.covered := by
      have whole := run.consumed
      rw [stream, bytes_covered, afterComment, is_] at whole
      exact List.append_cancel_right whole
    have check : crc32GzipRefl g.hcrc g.consumed = crc32GzipRefl 0 h.covered := by
      rw [run.sum (by rw [is_]; rfl), crc32GzipRefl_append, covered]
    rw [Option.isSome_some, if_pos rfl]
    refine readHcrc_spec is_ run.inside ?_ ?_ ?_ check rfl ?_
    · rw [tmp]
      exact stream
    · rw [tmp]
      decide
    · exact ⟨⟨⟨⟨done.time, done.xflags, done.os, done.text, done.flags⟩, done.extraLen, done.extra⟩, done.name⟩, done.comment⟩
    · exact ⟨same.extra, same.extraBufLen, same.name, same.nameBufLen, same.comment, same.commentBufLen⟩

theorem readComment_spec {text : List UInt8} {m : Nat} (is_ : h.comment = some text)
    (run : Running h trailing later before g) (tmp : g.state.tmpIn = []) (upTo : m ≤ text.length)
    (count : g.state.count = m) (stored : Stored g.gzHdr.comment g.gzHdr.commentBufLen ((text ++ [0]).take m))
    (stream : g.state.pending ++ later = (text ++ [0]).drop m ++ afterComment h trailing) (done : NameDone h g.gzHdr)
    (same : SameBuffers hdr₀ g.gzHdr) : Parsed h trailing later hdr₀ (readComment g) := by
  have read := stringHeaderCopy_spec .commentOverflow run.inside (h.comment_text text is_) upTo count stored stream
  have bytes : stringBytes h.comment = text ++ [0] := by rw [is_]; rfl
  rw [readComment, count]
  generalize stringHeaderCopy g.gzHdr.comment g.gzHdr.commentBufLen m .commentOverflow g.state = result at read
  cases read with
  | whole k buf le kept stored left =>
    dsimp only
    rw [if_neg (by simp)]
    refine readAfterComment_spec (run.skip le rfl rfl rfl rfl) tmp left ?_ ?_
    · exact ⟨⟨⟨⟨done.time, done.xflags, done.os, done.text, done.flags⟩, done.extraLen, done.extra⟩, done.name⟩, bytes ▸ stored⟩
    · exact ⟨same.extra, same.extraBufLen, same.name, same.nameBufLen, kept.trans same.comment, same.commentBufLen⟩
  | cut m buf upTo kept stored left =>
    dsimp only
    rw [if_pos (by simp)]
    rw [List.length_append, List.length_singleton] at upTo
    refine Running.more (run.skip (Nat.le_refl _) rfl rfl rfl rfl) (Nat.sub_self _) (fun hcrc sum => ?_) ?_
    · exact .comment text m is_ rfl tmp (by omega) rfl stored left
        ⟨⟨⟨done.time, done.xflags, done.os, done.text, done.flags⟩, done.extraLen, done.extra⟩, done.name⟩ sum
    · exact ⟨same.extra, same.extraBufLen, same.name, same.nameBufLen, kept.trans same.comment, same.commentBufLen⟩
  | full m k buf le upTo there kept lacks stored left =>
    dsimp only
    rw [if_pos (by simp)]
    rw [List.length_append, List.length_singleton] at upTo
    refine Running.full _ (run.skip le rfl rfl rfl rfl) ?_ (fun hcrc sum => ?_) ?_
    · exact .comment (kept.trans there) (by rw [bytes]; exact lacks)
    · exact .comment text m is_ rfl tmp (by omega) rfl stored left
        ⟨⟨⟨done.time, done.xflags, done.os, done.text, done.flags⟩, done.extraLen, done.extra⟩, done.name⟩ sum
    · exact ⟨same.extra, same.extraBufLen, same.name, same.nameBufLen, kept.trans same.comment, same.commentBufLen⟩

theorem readAfterName_spec (run : Running h trailing later before g) (tmp : g.state.tmpIn = []) (count : g.state.count = 0)
    (stream : g.state.pending ++ later = afterName h trailing) (done : NameDone h g.gzHdr)
    (same : SameBuffers hdr₀ g.gzHdr) : Parsed h trailing later hdr₀ (readAfterName g) := by
  rw [readAfterName, run.flags, (flags_bits h).2.2.2.1]
  rw [afterName] at stream
  cases is_ : h.comment with
  | none =>
    rw [is_] at stream
    have comment : Stored g.gzHdr.comment g.gzHdr.commentBufLen (stringBytes h.comment) := by
      rw [is_]
      exact .nil _ _
    exact readAfterComment_spec run tmp stream ⟨done, comment⟩ same
  | some text =>
    rw [is_] at stream
    rw [Option.isSome_some, if_pos rfl]
    exact readComment_spec is_ run tmp (Nat.zero_le _) count (.nil _ _) stream done same

theorem readName_spec {text : List UInt8} {m : Nat} (is_ : h.name = some text)
    (run : Running h trailing later before g) (tmp : g.state.tmpIn = []) (upTo : m ≤ text.length)
    (count : g.state.count = m) (stored : Stored g.gzHdr.name g.gzHdr.nameBufLen ((text ++ [0]).take m))
    (stream : g.state.pending ++ later = (text ++ [0]).drop m ++ afterName h trailing) (done : ExtraDone h g.gzHdr)
    (same : SameBuffers hdr₀ g.gzHdr) : Parsed h trailing later hdr₀ (readName g) := by
  have read := stringHeaderCopy_spec .nameOverflow run.inside (h.name_text text is_) upTo count stored stream
  have bytes : stringBytes h.name = text ++ [0] := by rw [is_]; rfl
  rw [readName, count]
  generalize stringHeaderCopy g.gzHdr.name g.gzHdr.nameBufLen m .nameOverflow g.state = result at read
  cases read with
  | whole k buf le kept stored left =>
    dsimp only
    rw [if_neg (by simp)]
    refine readAfterName_spec (run.skip le rfl rfl rfl rfl) tmp rfl left ?_ ?_
    · exact ⟨⟨⟨done.time, done.xflags, done.os, done.text, done.flags⟩, done.extraLen, done.extra⟩, bytes ▸ stored⟩
    · exact ⟨same.extra, same.extraBufLen, kept.trans same.name, same.nameBufLen, same.comment, same.commentBufLen⟩
  | cut m buf upTo kept stored left =>
    dsimp only
    rw [if_pos (by simp)]
    rw [List.length_append, List.length_singleton] at upTo
    refine Running.more (run.skip (Nat.le_refl _) rfl rfl rfl rfl) (Nat.sub_self _) (fun hcrc sum => ?_) ?_
    · exact .name text m is_ rfl tmp (by omega) rfl stored left
        ⟨⟨done.time, done.xflags, done.os, done.text, done.flags⟩, done.extraLen, done.extra⟩ sum
    · exact ⟨same.extra, same.extraBufLen, kept.trans same.name, same.nameBufLen, same.comment, same.commentBufLen⟩
  | full m k buf le upTo there kept lacks stored left =>
    dsimp only
    rw [if_pos (by simp)]
    rw [List.length_append, List.length_singleton] at upTo
    refine Running.full _ (run.skip le rfl rfl rfl rfl) ?_ (fun hcrc sum => ?_) ?_
    · exact .name (kept.trans there) (by rw [bytes]; exact lacks)
    · exact .name text m is_ rfl tmp (by omega) rfl stored left
        ⟨⟨done.time, done.xflags, done.os, done.text, done.flags⟩, done.extraLen, done.extra⟩ sum
    · exact ⟨same.extra, same.extraBufLen, kept.trans same.name, same.nameBufLen, same.comment, same.commentBufLen⟩

theorem readAfterExtra_spec (run : Running h trailing later before g) (tmp : g.state.tmpIn = [])
    (count : g.state.count = 0) (stream : g.state.pending ++ later = afterExtra h trailing) (done : ExtraDone h g.gzHdr)
    (same : SameBuffers hdr₀ g.gzHdr) : Parsed h trailing later hdr₀ (readAfterExtra g) := by
  rw [readAfterExtra, run.flags, (flags_bits h).2.2.1]
  rw [afterExtra] at stream
  cases is_ : h.name with
  | none =>
    rw [is_] at stream
    have name : Stored g.gzHdr.name g.gzHdr.nameBufLen (stringBytes h.name) := by
      rw [is_]
      exact .nil _ _
    exact readAfterName_spec run tmp count stream ⟨done, name⟩ same
  | some text =>
    rw [is_] at stream
    rw [Option.isSome_some, if_pos rfl]
    exact readName_spec is_ run tmp (Nat.zero_le _) count (.nil _ _) stream done same

theorem readExtra_spec {field : List UInt8} {m : Nat} (is_ : h.extra = some field)
    (run : Running h trailing later before g) (tmp : g.state.tmpIn = []) (upTo : m ≤ field.length)
    (len : g.gzHdr.extraLen = field.length) (stored : Stored g.gzHdr.extra g.gzHdr.extraBufLen (field.take m))
    (stream : g.state.pending ++ later = field.drop m ++ afterExtra h trailing) (done : BaseDone h g.gzHdr)
    (same : SameBuffers hdr₀ g.gzHdr) : Parsed h trailing later hdr₀ (readExtra (field.length - m) g) := by
  have read := bufferHeaderCopy_spec .extraOverflow run.inside upTo stored stream
  have bytes : h.extra.getD [] = field := by rw [is_]; rfl
  rw [readExtra, len, Nat.sub_sub_self upTo]
  generalize bufferHeaderCopy (field.length - m) g.gzHdr.extra g.gzHdr.extraBufLen m .extraOverflow g.state = result at read
  cases read with
  | whole k buf le kept stored left =>
    dsimp only
    rw [if_neg (by simp)]
    refine readAfterExtra_spec (run.skip le rfl rfl rfl rfl) tmp rfl left ?_ ?_
    · exact ⟨⟨done.time, done.xflags, done.os, done.text, done.flags⟩, by rw [bytes]; exact len, bytes ▸ stored⟩
    · exact ⟨kept.trans same.extra, same.extraBufLen, same.name, same.nameBufLen, same.comment, same.commentBufLen⟩
  | cut m buf upTo kept stored left =>
    dsimp only
    rw [if_pos (by simp)]
    refine Running.more (run.skip (Nat.le_refl _) rfl rfl rfl rfl) (Nat.sub_self _) (fun hcrc sum => ?_) ?_
    · exact .extra field m is_ rfl tmp upTo rfl len stored left
        ⟨done.time, done.xflags, done.os, done.text, done.flags⟩ sum
    · exact ⟨kept.trans same.extra, same.extraBufLen, same.name, same.nameBufLen, same.comment, same.commentBufLen⟩
  | full m k buf le upTo there kept lacks stored left =>
    dsimp only
    rw [if_pos (by simp)]
    refine Running.full _ (run.skip le rfl rfl rfl rfl) ?_ (fun hcrc sum => ?_) ?_
    · exact .extra (kept.trans there) (by rw [bytes]; exact lacks)
    · exact .extra field m is_ rfl tmp upTo rfl len stored left
        ⟨done.time, done.xflags, done.os, done.text, done.flags⟩ sum
    · exact ⟨kept.trans same.extra, same.extraBufLen, same.name, same.nameBufLen, same.comment, same.commentBufLen⟩

theorem readExtraLen_spec {field : List UInt8} (is_ : h.extra = some field) (run : Running h trailing later before g)
    (stream : g.state.tmpIn ++ (g.state.pending ++ later) = toLeBytes field.length 2 ++ (field ++ afterExtra h trailing))
    (few : g.state.tmpIn.length ≤ 2) (done : BaseDone h g.gzHdr) (same : SameBuffers hdr₀ g.gzHdr) :
    Parsed h trailing later hdr₀ (readExtraLen g) := by
  have read := fixedSizeRead_spec run.inside stream (by simpa using few)
  rw [toLeBytes_length] at read
  rw [readExtraLen]
  generalize fixedSizeRead 2 g.state = result at read
  cases read with
  | short few =>
    rw [toLeBytes_length] at few
    dsimp only
    refine Running.more (run.skip (Nat.le_refl _) rfl rfl rfl rfl) (Nat.sub_self _) (fun hcrc sum => ?_) same
    exact .extraLen field is_ rfl few (by rw [← stream, ← List.append_assoc])
      ⟨done.time, done.xflags, done.os, done.text, done.flags⟩ sum
  | read k le left =>
    have value : bytesVal (toLeBytes field.length 2) = field.length := by
      rw [bytesVal_toLeBytes]
      exact Nat.mod_eq_of_lt (h.extra_short field is_)
    dsimp only
    rw [value]
    refine readExtra_spec is_ (m := 0) (run.skip le rfl rfl rfl rfl) rfl (Nat.zero_le _) rfl (.nil _ _) left ?_ ?_
    · exact ⟨done.time, done.xflags, done.os, done.text, done.flags⟩
    · exact ⟨same.extra, same.extraBufLen, same.name, same.nameBufLen, same.comment, same.commentBufLen⟩

theorem base_length (h : Header) : h.base.length = 10 := by simp [Header.base]

/-- What the parser makes of the fixed part. -/
theorem base_fields (h : Header) :
    (h.base[0]?.getD 0).toNat = 0x1f ∧ (h.base[1]?.getD 0).toNat = 0x8b ∧ (h.base[2]?.getD 0).toNat = 8 ∧
      (h.base[3]?.getD 0).toNat = h.flags ∧ bytesVal ((h.base.drop 4).take 4) = h.time.toNat ∧
      (h.base[8]?.getD 0).toNat = h.xflags.toNat ∧ (h.base[9]?.getD 0).toNat = h.os.toNat := by
  have flags : (UInt8.ofNat h.flags).toNat = h.flags := by
    rw [UInt8.toNat_ofNat']
    exact Nat.mod_eq_of_lt (flags_bits h).2.2.2.2.2
  have time : bytesVal (toLeBytes h.time.toNat 4) = h.time.toNat := by
    rw [bytesVal_toLeBytes]
    exact Nat.mod_eq_of_lt h.time.toNat_lt
  exact ⟨rfl, rfl, rfl, flags, time, rfl, rfl⟩

theorem readGzipBase_spec {hdr : GzipHeader} {s : InflateState} {flags : Nat} (inside : InBuffer s.toInStream)
    (few : s.tmpIn.length < 10) (state : s.blockState = .newHdr)
    (stream : s.tmpIn ++ (s.pending ++ later) = h.bytes ++ trailing)
    (sum : h.hcrc.isSome → s.tmpIn ≠ [] → hdr.hcrc = crc32GzipRefl 0 s.tmpIn) :
    Parsed h trailing later hdr (readGzipBase ⟨s, hdr, flags, hdr.hcrc, s.nextIn⟩) := by
  rw [bytes_base] at stream
  have read : FieldRead h.base later (extraBytes h.extra ++ afterExtra h trailing) { s with count := 0 } (fixedSizeRead h.base.length { s with count := 0 }) :=
    fixedSizeRead_spec inside stream (by rw [base_length]; exact Nat.le_of_lt few)
  rw [base_length] at read
  have first : h.hcrc.isSome → (if s.tmpIn.length = 0 then 0 else hdr.hcrc) = crc32GzipRefl 0 s.tmpIn := by
    intro check
    by_cases none : s.tmpIn = []
    · rw [none]
      exact (crc32GzipRefl_nil 0).symm
    · rw [if_neg (by simpa using none), sum check none]
  simp only [readGzipBase]
  generalize fixedSizeRead 10 { s with count := 0 } = result at read
  cases read with
  | short few =>
    rw [base_length] at few
    have next := consumed_pending
      (g := ⟨{ ({ s with count := 0 } : InflateState).skip s.availIn with tmpIn := s.tmpIn ++ s.pending }, hdr, 2 ^ 32 - 1,
        if s.tmpIn.length = 0 then 0 else hdr.hcrc, s.nextIn⟩)
      (inside.skip (Nat.le_refl _)) inside.start (Int.le_add_of_nonneg_right (Int.natCast_nonneg _))
    have used := InBuffer.used (s := { s with count := 0 }) inside
    have taken := (List.append_nil _).symm.trans ((congrArg _ used.symm).trans (next.trans inside.pending.symm))
    dsimp only [GzipRead.stop]
    rw [if_pos (by decide), taken]
    refine .more _ _ (.base state few ?_ fun check _ => ?_) ⟨rfl, rfl, rfl, rfl, rfl, rfl⟩ (Nat.sub_self _)
    · rw [bytes_base, ← stream]
      exact List.append_assoc ..
    · rw [first check, crc32GzipRefl_append]
  | read k le left =>
    obtain ⟨id1, id2, cm, flagBits, time, xflags, os⟩ := base_fields h
    dsimp only
    rw [id1, id2, cm, flagBits, time, xflags, os, if_neg (by decide), if_neg (by decide)]
    have run : ∀ gzHdr : GzipHeader, Running h trailing later s.tmpIn
        ⟨{ ({ s with count := 0 } : InflateState).skip k with tmpIn := [] }, gzHdr, h.flags,
          if s.tmpIn.length = 0 then 0 else hdr.hcrc, s.nextIn⟩ := by
      intro gzHdr
      refine ⟨inside.skip le, inside.start, Int.le_add_of_nonneg_right (Int.natCast_nonneg _), ?_, rfl, first⟩
      rw [bytes_base, ← stream, List.append_assoc]
      change s.tmpIn ++ (s.buf.drop s.nextIn.toNat ++ later) = _
      rw [← inside.pending]
    rw [(flags_bits h).2.1]
    have done : ∀ gzHdr : GzipHeader, gzHdr.time = h.time.toNat → gzHdr.xflags = h.xflags.toNat → gzHdr.os = h.os.toNat →
        gzHdr.text = h.flags % 2 → gzHdr.flags = h.flags → BaseDone h gzHdr :=
      fun gzHdr time xflags os text flags => ⟨time, xflags, os, text.trans (flags_bits h).2.2.2.2.1, flags⟩
    cases is_ : h.extra with
    | none =>
      rw [is_] at left
      have none : h.extra.getD [] = [] := by rw [is_]; rfl
      refine readAfterExtra_spec (run _) rfl rfl left ⟨done _ rfl rfl rfl rfl rfl, ?_, ?_⟩ ⟨rfl, rfl, rfl, rfl, rfl, rfl⟩
      · rw [none]
        rfl
      · rw [none]
        exact .nil _ _
    | some field =>
      rw [is_] at left
      rw [Option.isSome_some, if_pos rfl]
      refine readExtraLen_spec is_ (run _) ?_ (Nat.zero_le _) (done _ rfl rfl rfl rfl rfl) ⟨rfl, rfl, rfl, rfl, rfl, rfl⟩
      rw [← List.append_assoc (toLeBytes _ _)]
      exact left

/-- A call takes the parse from where it stands to the end of something. -/
theorem isalReadGzipHeader_spec {hdr : GzipHeader} {s : InflateState} (inside : InBuffer s.toInStream)
    (pause : Pause h trailing hdr s (s.pending ++ later)) :
    Parsed h trailing later hdr (isalReadGzipHeader hdr s) := by
  have run : ∀ {flags : Nat}, flags = h.flags → Summed h trailing hdr (s.pending ++ later) →
      ∃ before, Running h trailing later before ⟨s, hdr, flags, hdr.hcrc, s.nextIn⟩ := by
    rintro _ rfl ⟨before, whole, sum⟩
    refine ⟨before, inside, inside.start, Int.le_refl _, ?_, rfl, sum⟩
    rw [← whole, inside.pending, List.append_assoc]
  have same : SameBuffers hdr hdr := ⟨rfl, rfl, rfl, rfl, rfl, rfl⟩
  rw [isalReadGzipHeader]
  cases pause with
  | base state few stream sum =>
    rw [state]
    exact readGzipBase_spec inside few state stream sum
  | extraLen field is_ state few stream done sum =>
    rw [state]
    obtain ⟨before, run⟩ := run done.flags sum
    exact readExtraLen_spec is_ run stream (Nat.le_of_lt few) done same
  | extra field m is_ state tmp upTo count len stored stream done sum =>
    rw [state]
    obtain ⟨before, run⟩ := run done.flags sum
    dsimp only
    rw [count]
    exact readExtra_spec is_ run tmp (Nat.le_of_lt upTo) len stored stream done same
  | name text m is_ state tmp upTo count stored stream done sum =>
    rw [state]
    obtain ⟨before, run⟩ := run done.flags sum
    exact readName_spec is_ run tmp upTo count stored stream done same
  | comment text m is_ state tmp upTo count stored stream done sum =>
    rw [state]
    obtain ⟨before, run⟩ := run done.flags sum
    exact readComment_spec is_ run tmp upTo count stored stream done same
  | hcrc sum is_ state few stream done check =>
    rw [state]
    exact readHcrc_spec is_ inside stream (Nat.le_of_lt few) done check rfl same

end Parse

section Session

variable {h : Header} {trailing : List UInt8}

/-- The header cannot end before its last byte has been given. -/
theorem Pause.more {hdr : GzipHeader} {s : InflateState} {rest : List UInt8} (pause : Pause h trailing hdr s rest) :
    rest ≠ [] := by
  rintro rfl
  cases pause with
  | base state few stream sum =>
    have size := congrArg List.length stream
    rw [bytes_base, List.append_nil, List.length_append, base_length] at size
    omega
  | extraLen field is_ state few stream done sum =>
    have size := congrArg List.length stream
    rw [List.append_nil, List.length_append, toLeBytes_length] at size
    omega
  | extra field m is_ state tmp upTo count len stored stream done sum =>
    have size := congrArg List.length stream
    rw [List.length_append, List.length_drop, List.length_nil] at size
    omega
  | name text m is_ state tmp upTo count stored stream done sum =>
    have size := congrArg List.length stream
    rw [List.length_append, List.length_drop, List.length_append, List.length_singleton, List.length_nil] at size
    omega
  | comment text m is_ state tmp upTo count stored stream done sum =>
    have size := congrArg List.length stream
    rw [List.length_append, List.length_drop, List.length_append, List.length_singleton, List.length_nil] at size
    omega
  | hcrc sum is_ state few stream done check =>
    have size := congrArg List.length stream
    rw [List.append_nil, List.length_append, toLeBytes_length] at size
    omega

theorem Stored.enlarged {old buf : Arr UInt8} {len len' : Nat} {bytes : List UInt8} (stored : Stored (some old) len bytes)
    (larger : len < len') (kept : ∀ i < len, buf i = old i) : Stored (some buf) len' bytes := by
  rintro b ⟨⟩
  obtain ⟨fits, same⟩ := stored old rfl
  exact ⟨by omega, fun i within => (kept i (by omega)).trans (same i within)⟩

/-- With larger buffers of the same contents all that has been read is still there. -/
structure Wider (hdr hdr' : GzipHeader) : Prop where
  base : ∀ h, BaseDone h hdr → BaseDone h hdr'
  extraLen : hdr'.extraLen = hdr.extraLen
  hcrc : hdr'.hcrc = hdr.hcrc
  extra : ∀ bytes, Stored hdr.extra hdr.extraBufLen bytes → Stored hdr'.extra hdr'.extraBufLen bytes
  name : ∀ bytes, Stored hdr.name hdr.nameBufLen bytes → Stored hdr'.name hdr'.nameBufLen bytes
  comment : ∀ bytes, Stored hdr.comment hdr.commentBufLen bytes → Stored hdr'.comment hdr'.commentBufLen bytes

theorem Enlarged.wider {code : ReturnCode} {hdr hdr' : GzipHeader} (grown : Enlarged code hdr hdr') : Wider hdr hdr' := by
  cases grown with
  | extra buf len there larger kept =>
    refine ⟨fun h done => ⟨done.time, done.xflags, done.os, done.text, done.flags⟩, rfl, rfl, fun bytes stored => ?_,
      fun _ => id, fun _ => id⟩
    rw [there] at stored
    exact stored.enlarged larger kept
  | name buf len there larger kept =>
    refine ⟨fun h done => ⟨done.time, done.xflags, done.os, done.text, done.flags⟩, rfl, rfl, fun _ => id,
      fun bytes stored => ?_, fun _ => id⟩
    rw [there] at stored
    exact stored.enlarged larger kept
  | comment buf len there larger kept =>
    refine ⟨fun h done => ⟨done.time, done.xflags, done.os, done.text, done.flags⟩, rfl, rfl, fun _ => id, fun _ => id,
      fun bytes stored => ?_⟩
    rw [there] at stored
    exact stored.enlarged larger kept

theorem Wider.extraDone {hdr hdr' : GzipHeader} (wider : Wider hdr hdr') (done : ExtraDone h hdr) : ExtraDone h hdr' :=
  ⟨wider.base h done.toBaseDone, wider.extraLen.trans done.extraLen, wider.extra _ done.extra⟩

theorem Wider.nameDone {hdr hdr' : GzipHeader} (wider : Wider hdr hdr') (done : NameDone h hdr) : NameDone h hdr' :=
  ⟨wider.extraDone done.toExtraDone, wider.name _ done.name⟩

theorem Wider.pause {hdr hdr' : GzipHeader} {s : InflateState} {rest : List UInt8} (wider : Wider hdr hdr')
    (pause : Pause h trailing hdr s rest) : Pause h trailing hdr' s rest := by
  have summed : Summed h trailing hdr rest → Summed h trailing hdr' rest := by
    rintro ⟨before, whole, sum⟩
    exact ⟨before, whole, wider.hcrc ▸ sum⟩
  cases pause with
  | base state few stream sum => exact .base state few stream (wider.hcrc ▸ sum)
  | extraLen field is_ state few stream done sum =>
    exact .extraLen field is_ state few stream (wider.base h done) (summed sum)
  | extra field m is_ state tmp upTo count len stored stream done sum =>
    exact .extra field m is_ state tmp upTo count (wider.extraLen.trans len) (wider.extra _ stored) stream
      (wider.base h done) (summed sum)
  | name text m is_ state tmp upTo count stored stream done sum =>
    exact .name text m is_ state tmp upTo count (wider.name _ stored) stream (wider.extraDone done) (summed sum)
  | comment text m is_ state tmp upTo count stored stream done sum =>
    exact .comment text m is_ state tmp upTo count (wider.comment _ stored) stream (wider.nameDone done) (summed sum)
  | hcrc sum is_ state few stream done check =>
    exact .hcrc sum is_ state few stream ⟨wider.nameDone done.toNameDone, wider.comment _ done.comment⟩
      (wider.hcrc.trans check)

/-- New input changes nothing about where the parse stands. -/
theorem Pause.feed {hdr : GzipHeader} {s : InflateState} {rest : List UInt8} (pause : Pause h trailing hdr s rest)
    (piece : List UInt8) : Pause h trailing hdr (s.feed piece) rest := by
  cases pause with
  | base state few stream sum => exact .base state few stream sum
  | extraLen field is_ state few stream done sum => exact .extraLen field is_ state few stream done sum
  | extra field m is_ state tmp upTo count len stored stream done sum =>
    exact .extra field m is_ state tmp upTo count len stored stream done sum
  | name text m is_ state tmp upTo count stored stream done sum =>
    exact .name text m is_ state tmp upTo count stored stream done sum
  | comment text m is_ state tmp upTo count stored stream done sum =>
    exact .comment text m is_ state tmp upTo count stored stream done sum
  | hcrc sum is_ state few stream done check => exact .hcrc sum is_ state few stream done check

theorem SameBuffers.lacking {hdr hdr' : GzipHeader} (same : SameBuffers hdr hdr') : lacking h hdr' = lacking h hdr := by
  rw [Inflate.lacking, Inflate.lacking, same.extraBufLen, same.nameBufLen, same.commentBufLen]

theorem Lacks.less {code : ReturnCode} {hdr hdr' : GzipHeader} (lacks : Lacks h hdr code) (grown : Enlarged code hdr hdr') :
    lacking h hdr' < lacking h hdr := by
  simp only [lacking]
  cases grown with
  | extra buf len there larger kept =>
    cases lacks with
    | extra there less => dsimp only; omega
  | name buf len there larger kept =>
    cases lacks with
    | name there less => dsimp only; omega
  | comment buf len there larger kept =>
    cases lacks with
    | comment there less => dsimp only; omega

/-- The caller can go on with the parse. -/
structure Resumes (h : Header) (trailing : List UInt8) (c : Reading) : Prop where
  inside : InBuffer c.state.toInStream
  pause : Pause h trailing c.hdr c.state (c.state.pending ++ c.later.flatten)

/-- Which buffers the caller has given, apart from their lengths. -/
def Given (hdr hdr' : GzipHeader) : Prop :=
  hdr'.extra.isSome = hdr.extra.isSome ∧ hdr'.name.isSome = hdr.name.isSome ∧ hdr'.comment.isSome = hdr.comment.isSome

theorem SameBuffers.given {hdr hdr' : GzipHeader} (same : SameBuffers hdr hdr') : Given hdr hdr' :=
  ⟨same.extra, same.name, same.comment⟩

theorem Given.trans {a b c : GzipHeader} (first : Given a b) (second : Given b c) : Given a c :=
  ⟨second.1.trans first.1, second.2.1.trans first.2.1, second.2.2.trans first.2.2⟩

theorem Enlarged.given {code : ReturnCode} {hdr hdr' : GzipHeader} (grown : Enlarged code hdr hdr') : Given hdr hdr' := by
  cases grown with
  | extra buf len there larger kept => exact ⟨by rw [there]; rfl, rfl, rfl⟩
  | name buf len there larger kept => exact ⟨rfl, by rw [there]; rfl, rfl⟩
  | comment buf len there larger kept => exact ⟨rfl, rfl, by rw [there]; rfl⟩

theorem Parsed.not_done {later : List UInt8} {hdr₀ hdr : GzipHeader} {s : InflateState} {ret : ReturnCode}
    (parsed : Parsed h trailing later hdr₀ (ret, hdr, s)) (goesOn : ret ≠ .decompOk ∧ ret ≠ .incorrectChecksum) :
    (ret = .endInput ∧ Pause h trailing hdr s later ∧ SameBuffers hdr₀ hdr) ∨
      (Lacks h hdr ret ∧ Pause h trailing hdr s (s.pending ++ later) ∧ SameBuffers hdr₀ hdr ∧ InBuffer s.toInStream) := by
  cases parsed with
  | done _ _ _ verdict holds left same =>
    split at verdict
    · exact absurd verdict goesOn.1
    · exact absurd verdict goesOn.2
  | more _ _ pause same used => exact Or.inl ⟨rfl, pause, same⟩
  | full _ _ _ pause same lacks inside => exact Or.inr ⟨lacks, pause, same, inside⟩

/-- A step of the session. -/
theorem Call.resumes {c c' : Reading} (call : Call c c') (ready : Resumes h trailing c) :
    Resumes h trailing c' ∧ c'.later.length + lacking h c'.hdr < c.later.length + lacking h c.hdr ∧ Given c.hdr c'.hdr := by
  have parsed := isalReadGzipHeader_spec ready.inside ready.pause
  cases call with
  | @more hdr hdr' s s' piece later ret =>
    rw [ret] at parsed
    rcases parsed.not_done (by simp) with ⟨-, pause, same⟩ | ⟨lacks, -⟩
    · refine ⟨⟨.feed s' piece, ?_⟩, ?_, same.given⟩
      · rw [feed_pending]
        exact pause.feed piece
      · have size : lacking h hdr' = lacking h hdr := same.lacking
        change later.length + lacking h hdr' < (piece :: later).length + lacking h hdr
        rw [List.length_cons]
        omega
    · cases lacks
  | @full hdr hdr' larger s s' later code ret grown =>
    rw [ret] at parsed
    rcases parsed.not_done (by cases grown <;> simp) with ⟨rfl, -⟩ | ⟨lacks, pause, same, inside⟩
    · cases grown
    · have less := lacks.less grown
      rw [same.lacking] at less
      exact ⟨⟨inside, grown.wider.pause pause⟩, Nat.add_lt_add_left less _, same.given.trans grown.given⟩
  | @fullMore hdr hdr' larger s s' piece later code ret grown used =>
    rw [ret] at parsed
    rcases parsed.not_done (by cases grown <;> simp) with ⟨rfl, -⟩ | ⟨lacks, pause, same, inside⟩
    · cases grown
    · have less : lacking h larger < lacking h hdr := same.lacking ▸ lacks.less grown
      have nothing : s'.pending = [] := List.length_eq_zero_iff.mp (inside.length.trans used)
      rw [nothing, List.nil_append] at pause
      refine ⟨⟨.feed s' piece, ?_⟩, ?_, same.given.trans grown.given⟩
      · rw [feed_pending]
        exact (grown.wider.pause pause).feed piece
      · change later.length + lacking h larger < (piece :: later).length + lacking h hdr
        rw [List.length_cons]
        omega

/-- The parse is over or the caller can make a further call. -/
theorem Resumes.next {c : Reading} (ready : Resumes h trailing c) :
    (∃ c', Call c c') ∨
      ∃ hdr s, isalReadGzipHeader c.hdr c.state = (if h.Intact then .decompOk else .incorrectChecksum, hdr, s) ∧
        Holds h hdr ∧ s.pending ++ c.later.flatten = trailing ∧ Given c.hdr hdr := by
  have parsed := isalReadGzipHeader_spec ready.inside ready.pause
  obtain ⟨result, ret⟩ : ∃ result, isalReadGzipHeader c.hdr c.state = result := ⟨_, rfl⟩
  rw [ret] at parsed
  obtain ⟨hdr, s, later⟩ := c
  cases parsed with
  | done ret' hdr' s' verdict holds left same =>
    exact Or.inr ⟨hdr', s', ret.trans (by rw [verdict]), holds, left, same.given⟩
  | more hdr' s' pause same used =>
    cases later with
    | nil => exact absurd rfl pause.more
    | cons piece later => exact Or.inl ⟨_, .more ret⟩
  | full code hdr' s' pause same lacks inside =>
    refine Or.inl ?_
    cases lacks with
    | extra there less =>
      obtain ⟨old, there⟩ := Option.isSome_iff_exists.mp there
      exact ⟨_, .full ret (.extra old _ there (Nat.lt_succ_self _) fun _ _ => rfl)⟩
    | name there less =>
      obtain ⟨old, there⟩ := Option.isSome_iff_exists.mp there
      exact ⟨_, .full ret (.name old _ there (Nat.lt_succ_self _) fun _ _ => rfl)⟩
    | comment there less =>
      obtain ⟨old, there⟩ := Option.isSome_iff_exists.mp there
      exact ⟨_, .full ret (.comment old _ there (Nat.lt_succ_self _) fun _ _ => rfl)⟩

theorem Calls.resumes {n : Nat} {c c' : Reading} (run : Calls n c c') (ready : Resumes h trailing c) :
    Resumes h trailing c' ∧ n + (c'.later.length + lacking h c'.hdr) ≤ c.later.length + lacking h c.hdr ∧
      Given c.hdr c'.hdr := by
  induction run with
  | refl => exact ⟨ready, by omega, rfl, rfl, rfl⟩
  | tail _ last ih =>
    obtain ⟨ready, bound, given⟩ := ih ready
    obtain ⟨ready, less, given'⟩ := last.resumes ready
    exact ⟨ready, by omega, given.trans given'⟩

/-- However the input is cut into pieces and however the buffers grow, the header is read in a
bounded number of calls: after each the caller can go on or the parse is over, with all fields
in the structure and the input behind the header left. -/
theorem isalReadGzipHeader_session (s : InflateState) (hdr₀ : GzipHeader) {first : List UInt8} {later : List (List UInt8)}
    (split : first ++ later.flatten = h.bytes ++ trailing) {n : Nat} {c : Reading}
    (run : Calls n ⟨hdr₀, (isalInflateInit s).feed first, later⟩ c) :
    n ≤ later.length + lacking h hdr₀ ∧
      ((∃ c', Call c c') ∨
        ∃ hdr s', isalReadGzipHeader c.hdr c.state = (if h.Intact then .decompOk else .incorrectChecksum, hdr, s') ∧
          Holds h hdr ∧ s'.pending ++ c.later.flatten = trailing ∧ Given hdr₀ hdr) := by
  have ready : Resumes h trailing ⟨hdr₀, (isalInflateInit s).feed first, later⟩ := by
    refine ⟨.feed _ _, .base rfl (Nat.zero_lt_succ 9) ?_ fun _ some_ => absurd rfl some_⟩
    rw [feed_pending]
    exact split
  obtain ⟨ready, bound, given⟩ := run.resumes ready
  refine ⟨by dsimp only at bound; omega, ready.next.imp id ?_⟩
  rintro ⟨hdr, s', ret, holds, left, given'⟩
  exact ⟨hdr, s', ret, holds, left, given.trans given'⟩

/-- A header with a name only. -/
def namedHeader : Header where
  text := false
  time := 0
  xflags := 0
  os := 3
  extra := none
  name := some [97, 98]
  comment := none
  hcrc := none
  extra_short := by simp
  name_text := by simp
  comment_text := by simp

theorem isalReadGzipHeader_session_named :
    namedHeader.bytes.take 11 ++ [namedHeader.bytes.drop 11].flatten = namedHeader.bytes ++ [] ∧
      0 ≤ [namedHeader.bytes.drop 11].length + lacking namedHeader isalGzipHeaderInit ∧
      ((∃ c', Call ⟨isalGzipHeaderInit, (isalInflateInit {}).feed (namedHeader.bytes.take 11), [namedHeader.bytes.drop 11]⟩ c') ∨
        ∃ hdr s', isalReadGzipHeader isalGzipHeaderInit ((isalInflateInit {}).feed (namedHeader.bytes.take 11)) =
            (if namedHeader.Intact then .decompOk else .incorrectChecksum, hdr, s') ∧
          Holds namedHeader hdr ∧ s'.pending ++ [namedHeader.bytes.drop 11].flatten = [] ∧ Given isalGzipHeaderInit hdr) := by
  have split : namedHeader.bytes.take 11 ++ [namedHeader.bytes.drop 11].flatten = namedHeader.bytes ++ [] := by decide
  exact ⟨split, isalReadGzipHeader_session {} isalGzipHeaderInit split (.refl _)⟩

end Session

end Isal.Inflate
