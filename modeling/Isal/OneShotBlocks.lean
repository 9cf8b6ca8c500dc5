import Isal.DeflateStates
import Isal.StreamTrailers

/-! What level 0 puts out in a call without state: blocks that a decoder reads the input from. -/
namespace Isal.Deflate
open Inflate Bits Checksum HuffCodes Rfc1951 Lz77

/-- The stream but for what its calls change -/
def DeflateStream.given (s : DeflateStream) : DeflateStream :=
  { s.settled with blockEnd := 0, hasEobHdr := 0, count := 0, crc := 0, hasWrapHdr := 0 }

/-- `n` bytes of the input have been taken, and bits have been put out. -/
structure Sent (s t : DeflateStream) (n : Nat) (sent : List Bool) : Prop where
  emits : Emits s.toZstream t.toZstream sent
  nextIn : t.nextIn = s.nextIn + n
  availIn : s.availIn = t.availIn + n
  totalIn : t.totalIn ≡ s.totalIn + n [MOD 2 ^ 32]
  same : t.given = s.given

section

variable {b : HashBuild} {needed : Nat → Prop} {s t u : DeflateStream} {n k back kept : Nat} {bits bits' behind : List Bool} {items : List (Item UInt8)}

theorem given_fields (same : t.given = s.given) : t.input = s.input ∧ t.hufftables = s.hufftables ∧ t.distMask = s.distMask ∧
    t.hashMask = s.hashMask ∧ t.endOfStream = s.endOfStream ∧ t.flush = s.flush ∧ t.gzipFlag = s.gzipFlag := by
  simp only [DeflateStream.given, DeflateStream.settled, DeflateStream.mk.injEq, StatelessStream.mk.injEq, Zstream.mk.injEq] at same
  tauto

theorem Sent.refl (clean : s.Clean) : Sent s s 0 [] := ⟨.refl clean, rfl, rfl, rfl, rfl⟩

theorem Sent.trans (first : Sent s t n bits) (second : Sent t u k bits') : Sent s u (n + k) (bits ++ bits') where
  emits := first.emits.trans second.emits
  nextIn := by rw [second.nextIn, first.nextIn, Nat.add_assoc]
  availIn := by
    have taken := first.availIn
    have taken' := second.availIn
    omega
  totalIn := by
    have total := first.totalIn.add_right k
    rw [Nat.add_assoc] at total
    exact second.totalIn.trans total
  same := second.same.trans first.same

theorem Took.sent (h : Took b needed s t back kept n items behind) :
    Sent s t n (items.flatMap (s.hufftables.itemBits b.toBuild) ++ behind) where
  emits := h.emits
  nextIn := h.nextIn
  availIn := h.availIn
  totalIn := h.totalIn
  same := by
    have same := congrArg DeflateStream.given h.same
    exact same

theorem HeaderSent.sent {h : Hufftables} (header : HeaderSent s t h) : Sent s t 0 (h.blockHeader (decide (s.endOfStream ≠ 0))) where
  emits := header.emits
  nextIn := by rw [header.frame]; rfl
  availIn := by rw [header.frame]; rfl
  totalIn := by rw [header.frame]; rfl
  same := (congrArg DeflateStream.given header.frame).trans rfl

/-- The bits that wait are those of the last byte. -/
theorem Emits.bitCount {s t : Zstream} (h : Emits s t bits) (aligned : s.bitCount = 0) : t.bitCount = bits.length % 8 := by
  obtain ⟨⟨few, -⟩, bytes, -, split⟩ := h
  have length := congrArg List.length split
  simp only [List.length_append, Zstream.waiting, lowBits_length, bytesBits_length] at length
  omega

end

section

variable {c : UInt8} {n : Nat}

/-- The bits that wait behind the block of a run are clean. -/
theorem writeConstantCompressedStateless_clean (s : Zstream) (char : c = 0 ∨ c = 255)
    (room : ¬ s.availOut < headerLength + maxFixupCodeLength + (n - 1) / 258 * 2 / 8 + 8) :
    (writeConstantCompressedStateless s n).Clean := by
  rw [writeConstantCompressedStateless]
  dsimp only
  rw [if_neg room]
  have few : (n - 1) / 258 * 2 % 8 ≤ 6 := by omega
  generalize (n - 1) / 258 * 2 % 8 = k at few
  generalize Zstream.put _ _ = z
  have zeros : Fixup z.memory { z.bitbuf with bits := 0, bitCount := k } z.nextOut (List.replicate k false) := by
    refine ⟨⟨rfl, Nat.le_refl _, ?_, Nat.lt_of_le_of_lt few (by decide), ?_⟩, fun _ _ => rfl⟩
    · simp [Zstream.bitbuf]
    · simp [Zstream.bitbuf, bitsVal_zeros, bytesAt]
  obtain ⟨more, fixup, -, length⟩ := writeRepExtra_fixup char (Nat.mod_lt (n - 1) (by decide : 258 > 0)) zeros (by simp; omega)
  have done := fixup.writeBits (by simp; omega) (by decide : endOfBlockCode < 2 ^ endOfBlockLen) (by decide)
  exact ⟨done.few, done.bits_lt⟩

/-- What the block of a run leaves alone -/
theorem writeConstantCompressedStateless_frame {s : Zstream} (begins : s.state = .newHdr) : ∃ t : Zstream, writeConstantCompressedStateless s n =
    { s with
      toOutStream := t.toOutStream, bits := t.bits, bitCount := t.bitCount, nextIn := t.nextIn, availIn := t.availIn
      totalIn := t.totalIn, blockEnd := t.blockEnd, state := t.state, hasEob := t.hasEob
      hasEobHdr := if t.state = .trl then 1 else s.hasEobHdr } := by
  refine ⟨writeConstantCompressedStateless s n, ?_⟩
  rw [writeConstantCompressedStateless]
  dsimp only
  cases s
  split_ifs <;> simp_all [Zstream.setBitbuf, Zstream.put]

theorem DeflateStream.updateChecksum_ite (s : DeflateStream) (data : List UInt8) : (if s.gzipFlag ≠ 0 then s.updateChecksum data else s) =
    { s with crc := (Deflate.updateChecksum s.toStatelessStream data).crc } := by
  have sum := Deflate.updateChecksum_ite s.toStatelessStream data
  rw [updateChecksum_frame] at sum
  by_cases wrapped : s.gzipFlag ≠ 0
  · rw [if_pos wrapped] at sum ⊢
    rw [DeflateStream.updateChecksum, updateChecksum_frame]
  · rw [if_neg wrapped] at sum ⊢
    rw [← congrArg StatelessStream.crc sum]

/-- A run that has room for its block becomes one, which is the last one if nothing is behind the run. -/
structure RunSent (s t : DeflateStream) (n : Nat) (bits : List Bool) (last : Bool) : Prop extends Sent s t n bits where
  reaches : ∀ dict, Reaches dict bits (boundary last) (dict ++ bytesAt s.input s.nextIn n)
  state : t.state = if last then .trl else .newHdr
  hasEobHdr : t.hasEobHdr = if last then 1 else s.hasEobHdr
  crc : t.crc = (Deflate.updateChecksum s.toStatelessStream (bytesAt s.input s.nextIn n)).crc

theorem bytesAt_run {memory : Arr UInt8} {p n : Nat} {c : UInt8} (run : ∀ i < n, memory (p + i) = c) :
    bytesAt memory p n = List.replicate n c := by
  rw [List.eq_replicate_iff]
  refine ⟨by simp, ?_⟩
  intro byte member
  obtain ⟨i, below, rfl⟩ := List.mem_map.mp member
  exact run i (List.mem_range.mp below)

theorem writeConstantCompressed_spec {s : DeflateStream} (begins : s.state = .newHdr) (aligned : s.bitCount = 0)
    (char : c = 0 ∨ c = 255) (some_ : 0 < n) (inside : n ≤ s.availIn) (run : ∀ i < n, s.input (s.nextIn + i) = c) :
    writeConstantCompressed s n = s ∨
      ∃ bits, RunSent s (writeConstantCompressed s n) n bits (decide (s.availIn = n ∧ 0 < s.endOfStream)) := by
  rw [writeConstantCompressed]
  by_cases room : s.availOut < headerLength + maxFixupCodeLength + (n - 1) / 258 * 2 / 8 + 8
  · exact .inl (if_pos room)
  right
  rw [if_neg room]
  dsimp only
  obtain ⟨⟨bytes, appends, steps⟩, state, nextIn, availIn, totalIn, -⟩ := writeConstantCompressedStateless_spec s.toZstream char
    (by simpa using run 0 some_) some_ rfl (Nat.not_lt.mp room) rfl
  have clean' := writeConstantCompressedStateless_clean s.toZstream char room
  obtain ⟨t, frame⟩ := writeConstantCompressedStateless_frame (n := n) begins
  generalize writeConstantCompressedStateless s.toZstream n = z at *
  have sum := DeflateStream.updateChecksum_ite { s with toZstream := z } (bytesAt s.input s.nextIn n)
  have crc : (Deflate.updateChecksum { s.toStatelessStream with toZstream := z } (bytesAt s.input s.nextIn n)).crc =
      (Deflate.updateChecksum s.toStatelessStream (bytesAt s.input s.nextIn n)).crc := by
    rw [Deflate.updateChecksum, Deflate.updateChecksum]
    split_ifs <;> rfl
  rw [crc] at sum
  dsimp only at sum
  rw [sum]
  refine ⟨bytesBits bytes ++ z.waiting, ⟨⟨clean', bytes, appends, ?_⟩, nextIn, ?_, ?_, ?_⟩, ?_, state.trans ?_, ?_, rfl⟩
  · have none_ : s.toZstream.waiting = [] := List.length_eq_zero_iff.mp (by simpa [Zstream.waiting] using aligned)
    rw [none_]
    rfl
  · have left : z.availIn = s.availIn - n := availIn
    dsimp only
    omega
  · rw [totalIn]
    exact Nat.mod_modEq _ _
  · rw [frame]
    rfl
  · intro dict rest aligned'
    rw [bytesAt_run run, List.append_assoc]
    refine steps dict rest ?_
    simp only [List.length_append, bytesBits_length, Zstream.waiting, lowBits_length] at aligned'
    omega
  · simp
  · have isState : t.state = _ := (congrArg Zstream.state frame).symm.trans state
    rw [frame]
    dsimp only
    rw [isState]
    by_cases last : s.availIn = n ∧ 0 < s.endOfStream <;> simp [last]

end

section

variable {b : HashBuild} {needed : Nat → Prop} {codes : Codes} {s₀ s t : DeflateStream} {n k : Nat} {bits : List Bool}
  {items : List (Item UInt8)} {mode : Mode}

/-- What has been sent since `s₀` leads a decoder to `mode`, with the bytes that have been taken. -/
structure Leads (s₀ s : DeflateStream) (n : Nat) (bits : List Bool) (mode : Mode) : Prop extends Sent s₀ s n bits where
  reaches : ∀ dict, Reaches dict bits mode (dict ++ bytesAt s₀.input s₀.nextIn n)

theorem Leads.header {h : Hufftables} (leads : Leads s₀ s n bits .header) (tables : Consistent b.toBuild needed h codes)
    (header : HeaderSent s t h) : Leads s₀ t n (bits ++ h.blockHeader (decide (s.endOfStream ≠ 0)))
      (.coded codes (decide (s.endOfStream ≠ 0))) where
  toSent := leads.toSent.trans header.sent
  reaches := fun dict => (leads.reaches dict).header tables _

/-- Items and the end of their block -/
theorem Leads.took {final : Bool} (leads : Leads s₀ s n bits (.coded codes final)) (tables : Consistent b.toBuild needed s.hufftables codes)
    (took : Took b needed s t 0 0 k items (codeBits (s.hufftables.getLitCode 256))) : ∃ bits', Leads s₀ t (n + k) bits' (boundary final) := by
  refine ⟨_, leads.toSent.trans took.sent, fun dict => ?_⟩
  obtain ⟨input, -⟩ := given_fields leads.same
  have factors := took.factors (dict ++ bytesAt s₀.input s₀.nextIn n) (by simp [bytesAt])
  rw [input, leads.nextIn, List.append_assoc, ← bytesAt_add] at factors
  rw [← List.append_assoc]
  exact ((leads.reaches dict).factors tables factors took.allowed).endOfBlock tables

/-- A flush behind the last block so far -/
theorem Leads.flush (aligned : s₀.bitCount = 0) (leads : Leads s₀ s n bits .header) :
    (syncFlush s = s ∨ (syncFlush s).state = .newHdr ∧ (syncFlush s).hasEobHdr = s.hasEobHdr ∧ (syncFlush s).crc = s.crc ∧
      ∃ bits', 8 ∣ bits'.length ∧ Leads s₀ (syncFlush s) n bits' .header) := by
  rcases syncFlush_spec leads.emits.clean with ⟨-, same⟩ | ⟨emits, -, frame⟩
  · exact .inl same
  · right
    refine ⟨by rw [frame], by rw [frame], by rw [frame], bits ++ flushBits (bits.length % 8), flushBits_length bits, ?_⟩
    have count := leads.emits.bitCount aligned
    rw [count] at emits
    have next : Sent s (syncFlush s) 0 (flushBits (bits.length % 8)) :=
      ⟨emits, by rw [frame]; rfl, by rw [frame]; rfl, by rw [frame]; rfl, (congrArg DeflateStream.given frame).trans rfl⟩
    exact ⟨leads.toSent.trans next, fun dict => (leads.reaches dict).flush⟩

/-- How the states that write blocks end when they began in a body: the room is used up, or all of the input is in
blocks, of which the last one is final or followed by a flush. -/
inductive BlockEnds (s₀ t : DeflateStream) : Prop where
  | full (n : Nat) (bits : List Bool) (sent : Sent s₀ t n bits)
      (state : t.state = .body ∨ t.state = .flushReadBuffer ∨ t.state = .syncFlush) : BlockEnds s₀ t
  | last (n : Nat) (bits : List Bool) (leads : Leads s₀ t n bits .done) (state : t.state = .trl) (all : t.availIn = 0)
      (final : s₀.endOfStream ≠ 0) : BlockEnds s₀ t
  | flushed (n : Nat) (bits : List Bool) (leads : Leads s₀ t n bits .header) (state : t.state = .newHdr) (all : t.availIn = 0)
      (whole : 8 ∣ bits.length) (goesOn : s₀.endOfStream = 0) : BlockEnds s₀ t

theorem writeStates_body (aligned : s₀.bitCount = 0) (leads : Leads s₀ s n bits (.coded codes (decide (s.endOfStream ≠ 0))))
    (body : s.state = .body) (ready : Searchable b needed s 0 0) (tables : Consistent b.toBuild needed s.hufftables codes)
    (one : s.endOfStream ≤ 1) : BlockEnds s₀ (writeStates b s) ∧
      (writeStates b s).hasEobHdr = s.hasEobHdr ∧ (writeStates b s).crc = s.crc ∧ s.nextIn ≤ (writeStates b s).nextIn := by
  obtain ⟨-, -, -, -, eos₀, -, -⟩ := given_fields leads.same
  rw [writeStates]
  simp only [body, reduceCtorEq, or_self, if_false, if_true]
  obtain ⟨n₁, items₁, took₁, state₁⟩ := isalDeflateBodyBase_took ready
  generalize isalDeflateBodyBase b s = s₁ at took₁ state₁ ⊢
  obtain ⟨-, tables₁, -, -, eos₁, -, hasEobHdr₁, -, -, crc₁, -⟩ := settled_fields took₁.same
  rcases state₁ with ⟨state₁, -⟩ | ⟨state₁, -⟩
  · rw [body] at state₁
    simp only [state₁, reduceCtorEq, if_false]
    exact ⟨.full _ _ (leads.toSent.trans took₁.sent) (.inl state₁), hasEobHdr₁, crc₁, by rw [took₁.nextIn]; omega⟩
  simp only [state₁, if_true]
  obtain ⟨n₂, items₂, behind, took₂, state₂⟩ := isalDeflateFinishBase_took (took₁.searchable ready)
  have took := took₁.trans ready took₂
  obtain ⟨-, -, -, -, eos, -, hasEobHdr, -, -, crc, -⟩ := settled_fields took.same
  have before : s.nextIn ≤ (isalDeflateFinishBase b s₁).nextIn := by
    rw [took.nextIn]
    omega
  generalize isalDeflateFinishBase b s₁ = s₂ at took₂ state₂ took eos hasEobHdr crc before ⊢
  rcases state₂ with ⟨-, state₂, -⟩ | ⟨rfl, all, state₂⟩
  · rw [state₁] at state₂
    simp only [state₂, reduceCtorEq, if_false]
    exact ⟨.full _ _ (leads.toSent.trans took.sent) (.inr (.inl state₂)), hasEobHdr, crc, before⟩
  rw [tables₁] at took
  obtain ⟨bits', leads'⟩ := leads.took tables took
  rw [eos₁] at state₂
  by_cases final : s.endOfStream = 1
  · rw [if_pos final] at state₂
    simp only [state₂, reduceCtorEq, if_false]
    simp only [final, ne_eq, one_ne_zero, not_false_eq_true, decide_true, boundary] at leads'
    exact ⟨.last _ _ leads' state₂ all (by omega), hasEobHdr, crc, before⟩
  · have goesOn : s.endOfStream = 0 := by omega
    rw [if_neg final] at state₂
    simp only [state₂, if_true]
    simp only [goesOn, ne_eq, not_true, decide_false, boundary] at leads'
    rcases leads'.flush aligned with stuck | ⟨state₃, hasEobHdr₃, crc₃, bits'', whole, leads''⟩
    · rw [stuck]
      simp only [state₂, reduceCtorEq, if_false]
      exact ⟨.full _ _ leads'.toSent (.inr (.inr state₂)), hasEobHdr, crc, before⟩
    · simp only [state₃, reduceCtorEq, if_false]
      have empty : (syncFlush s₂).availIn = 0 := by
        have before := leads'.availIn
        have behind := leads''.availIn
        omega
      refine ⟨.flushed _ _ leads'' state₃ empty whole (by omega), hasEobHdr₃.trans hasEobHdr, crc₃.trans crc, ?_⟩
      have here := leads'.nextIn
      have there := leads''.nextIn
      omega

/-- The bytes are blocks that add `data` to what a decoder has put out. Only a final one may end before its last byte
does. -/
def Decodes (bytes : List UInt8) (final : Bool) (data : List UInt8) : Prop :=
  ∃ pad : List Bool, pad.length < 8 ∧ (final = false → pad = []) ∧ ∀ dict rest, 8 ∣ rest.length →
    Steps ⟨.header, bytesBits bytes ++ rest, dict⟩ ⟨boundary final, pad ++ rest, dict ++ data⟩

/-- The trailer for the input of a call, if the stream ends with it -/
def callTrailer (s : StatelessStream) : List UInt8 :=
  if s.endOfStream ≠ 0 then trailerFor s.gzipFlag (bytesAt s.input s.nextIn s.availIn) (s.totalIn + s.availIn) else []

theorem loadLeU64_run {memory : Arr UInt8} {p : Nat} (word : loadLeU64 memory p = 0 ∨ loadLeU64 memory p = 2 ^ 64 - 1) :
    ∃ c : UInt8, (c = 0 ∨ c = 255) ∧ ∀ i < 8, memory (p + i) = c := by
  have bytes : ∀ c : UInt8, loadLeU64 memory p = bytesVal (List.replicate 8 c) → ∀ i < 8, memory (p + i) = c := by
    intro c same i below
    have run := bytesVal_inj (by simp) same
    have member : memory (p + i) ∈ bytesAt memory p 8 := List.mem_map.mpr ⟨i, List.mem_range.mpr below, rfl⟩
    rw [run] at member
    exact List.eq_of_mem_replicate member
  rcases word with word | word
  · exact ⟨0, .inl rfl, bytes 0 (word.trans (by decide))⟩
  · exact ⟨255, .inr rfl, bytes 255 (word.trans (by decide))⟩

/-- A run at the start of the input has been written, or there was none that is worth a block. -/
structure RunDone (s t : DeflateStream) (n : Nat) (bits : List Bool) (last : Bool) : Prop extends Leads s t n bits (boundary last) where
  state : t.state = if last then .trl else .newHdr
  marked : last → t.hasEobHdr = 1 ∧ t.availIn = 0 ∧ s.endOfStream ≠ 0
  sum : Totals t.gzipFlag t.crc (bytesAt s.input s.nextIn n)

theorem runDone (begins : s.state = .newHdr) (aligned : s.bitCount = 0) (clean : s.Clean) (fresh : s.crc = 0) :
    ∃ n bits last, RunDone s (if 8 ≤ s.availIn ∧ (loadLeU64 s.input s.nextIn = 0 ∨ loadLeU64 s.input s.nextIn = 2 ^ 64 - 1) then
      if s.availIn = detectRepeatedCharLength s.input s.nextIn s.availIn ∨
          minRepeatLen ≤ detectRepeatedCharLength s.input s.nextIn s.availIn then
        writeConstantCompressed s (detectRepeatedCharLength s.input s.nextIn s.availIn) else s
      else s) n bits last := by
  have none_ : RunDone s s 0 [] false := by
    refine ⟨⟨.refl clean, fun dict => ?_⟩, begins, by simp, ?_⟩
    · simpa [bytesAt, boundary] using Reaches.nil dict
    · rw [fresh]
      exact .start _
  by_cases word : 8 ≤ s.availIn ∧ (loadLeU64 s.input s.nextIn = 0 ∨ loadLeU64 s.input s.nextIn = 2 ^ 64 - 1)
  swap
  · rw [if_neg word]
    exact ⟨_, _, _, none_⟩
  rw [if_pos word]
  split
  swap
  · exact ⟨_, _, _, none_⟩
  obtain ⟨long, word⟩ := word
  obtain ⟨c, char, run⟩ := loadLeU64_run word
  obtain ⟨least, most, all, -⟩ := detectRepeatedCharLength_spec run long
  generalize detectRepeatedCharLength s.input s.nextIn s.availIn = n at *
  rcases writeConstantCompressed_spec begins aligned char (by omega) most all with same | ⟨bits, sent⟩
  · rw [same]
    exact ⟨_, _, _, none_⟩
  · refine ⟨n, bits, _, ⟨sent.toSent, sent.reaches⟩, sent.state, fun last => ?_, ?_⟩
    · rw [decide_eq_true_iff] at last
      have left := sent.availIn
      exact ⟨by rw [sent.hasEobHdr]; simp [last], by omega, by omega⟩
    · obtain ⟨-, -, -, -, -, -, flag⟩ := given_fields sent.same
      have start := Totals.start s.gzipFlag
      rw [← fresh] at start
      rw [flag, sent.crc]
      exact start.append _

/-- The end of whole bytes is whole bytes. -/
theorem bytesBits_split {front : List Bool} {trailer bytes : List UInt8} (h : front ++ bytesBits trailer = bytesBits bytes) :
    ∃ blocks, bytes = blocks ++ trailer ∧ front = bytesBits blocks := by
  have length := congrArg List.length h
  simp only [List.length_append, bytesBits_length] at length
  obtain ⟨blocks, rest, rfl, size⟩ : ∃ blocks rest, bytes = blocks ++ rest ∧ rest.length = trailer.length :=
    ⟨bytes.take (bytes.length - trailer.length), bytes.drop (bytes.length - trailer.length), (List.take_append_drop _ _).symm,
      by simp; omega⟩
  rw [bytesBits_append] at h
  obtain ⟨rfl, same⟩ := List.append_inj' h (by simp [size])
  have value := congrArg bitsVal same
  rw [bitsVal_bytesBits, bitsVal_bytesBits] at value
  exact ⟨blocks, by rw [bytesVal_inj size.symm value], rfl⟩

/-- Bits that end with a byte -/
theorem Emits.bytes {s t : Zstream} {bits : List Bool} (h : Emits s t bits) (aligned : s.bitCount = 0) (aligned' : t.bitCount = 0) :
    ∃ bytes, Appends s.toOutStream t.toOutStream bytes ∧ bits = bytesBits bytes := by
  obtain ⟨-, bytes, appends, split⟩ := h
  have none_ : s.waiting = [] := List.length_eq_zero_iff.mp (by simpa [Zstream.waiting] using aligned)
  have none_' : t.waiting = [] := List.length_eq_zero_iff.mp (by simpa [Zstream.waiting] using aligned')
  rw [none_, none_', List.nil_append, List.append_nil] at split
  exact ⟨bytes, appends, split⟩

/-- What a call has put out when it is content with it -/
def OneShot (s t : StatelessStream) : Prop :=
  ∃ bytes, Appends s.toOutStream t.toOutStream (bytes ++ callTrailer s) ∧
    Decodes bytes (decide (s.endOfStream ≠ 0)) (bytesAt s.input s.nextIn s.availIn)

theorem isalDeflatePass_ends (aligned : s.bitCount = 0) (blocks : BlockEnds s (writeStates b t))
    (marked : (writeStates b t).hasEobHdr ≠ 0 ∨ s.endOfStream = 0) (place : t.nextIn = s.nextIn + n)
    (sum : Totals s.gzipFlag (writeStates b t).crc (bytesAt s.input s.nextIn n)) (onward : t.nextIn ≤ (writeStates b t).nextIn) :
    (∃ bytes, Appends s.toOutStream (isalDeflatePass b t).toOutStream bytes) ∧
      ((isalDeflatePass b t).state = .end_ ∨ (isalDeflatePass b t).state = .newHdr →
        OneShot s.toStatelessStream (isalDeflatePass b t).toStatelessStream) := by
  rw [isalDeflatePass]
  dsimp only
  generalize writeStates b t = w at *
  rw [DeflateStream.updateChecksum_ite]
  have summed : ∀ {k bits}, Sent s w k bits → Totals s.gzipFlag (Deflate.updateChecksum w.toStatelessStream
      (bytesAt w.input t.nextIn (w.nextIn - t.nextIn))).crc (bytesAt s.input s.nextIn k) := by
    intro k bits sent
    obtain ⟨input, -, -, -, -, -, flag⟩ := given_fields sent.same
    have nextIn := sent.nextIn
    have more : k = n + (w.nextIn - t.nextIn) := by omega
    rw [← flag] at sum ⊢
    rw [input, place, more, bytesAt_add, ← place]
    have further : w.nextIn - t.nextIn = n + (w.nextIn - t.nextIn) - n := by omega
    exact sum.append _
  generalize Deflate.updateChecksum w.toStatelessStream (bytesAt w.input t.nextIn (w.nextIn - t.nextIn)) = c at summed
  cases blocks with
  | full k bits sent state =>
    have trl : w.state ≠ .trl := by rcases state with state | state | state <;> rw [state] <;> decide
    have open_ : w.state ≠ .end_ ∧ w.state ≠ .newHdr := by
      rcases state with state | state | state <;> rw [state] <;> decide
    rw [if_neg trl]
    obtain ⟨bytes, appends, -⟩ := sent.emits.appends
    exact ⟨⟨bytes, appends⟩, fun done => absurd done (by tauto)⟩
  | flushed k bits leads state all whole goesOn =>
    have trl : w.state ≠ .trl := by rw [state]; decide
    rw [if_neg trl]
    have aligned' : w.bitCount = 0 := by
      rw [leads.emits.bitCount aligned]
      omega
    obtain ⟨bytes, appends, rfl⟩ := leads.emits.bytes aligned aligned'
    refine ⟨⟨bytes, appends⟩, fun _ => ⟨bytes, ?_, [], by decide, fun _ => rfl, ?_⟩⟩
    · have none_ : callTrailer s.toStatelessStream = [] := if_neg (by simp [goesOn])
      rw [none_, List.append_nil]
      exact appends
    · intro dict rest whole'
      have taken := leads.availIn
      have same : k = s.availIn := by omega
      simp only [goesOn, ne_eq, not_true, decide_false, boundary, ← same, List.nil_append]
      exact leads.reaches dict rest (by simp; omega)
  | last k bits leads state all final =>
    rw [if_pos state]
    obtain ⟨input, -, -, -, eos, -, flag⟩ := given_fields leads.same
    have marked := marked.resolve_right final
    have taken := leads.availIn
    have same : k = s.availIn := by omega
    have sum := summed leads.toSent
    obtain ⟨z, isZ⟩ : ∃ z : StatelessStream, z = { w.toStatelessStream with crc := c.crc } := ⟨_, rfl⟩
    have emits : Emits s.toZstream z.toZstream bits := leads.emits.congr (by rw [isZ]) (by rw [isZ]) (by rw [isZ])
    have trailer : streamTrailer z = callTrailer s.toStatelessStream := by
      rw [callTrailer, if_pos final, ← same, ← flag]
      rw [← flag] at sum
      rw [isZ]
      exact streamTrailer_eq (s := { w.toStatelessStream with crc := c.crc }) sum leads.totalIn
    have noBlock : lastBlockBits z.toZstream = [] := by
      rw [isZ]
      exact if_neg marked
    have state' : z.state = .trl := by
      rw [isZ]
      exact state
    have step := writeTrailer_spec emits.clean
    rw [← isZ]
    dsimp only
    generalize writeTrailer z = u at step
    cases step with
    | stay =>
      obtain ⟨bytes, appends, -⟩ := emits.appends
      exact ⟨⟨bytes, appends⟩, by simp [state']⟩
    | block t missing =>
      rw [isZ] at missing
      exact absurd missing marked
    | flushed t more aligned' frame =>
      obtain ⟨bytes, appends, -⟩ := (emits.trans more).appends
      have stays : u.state = .trl := by
        rw [frame]
        exact state'
      exact ⟨⟨bytes, appends⟩, by simp [stays]⟩
    | ended t more aligned' frame =>
      rw [noBlock, List.nil_append, trailer] at more
      obtain ⟨bytes, appends, whole⟩ := (emits.trans more).bytes aligned aligned'
      rw [← List.append_assoc] at whole
      obtain ⟨blocks, rfl, split⟩ := bytesBits_split whole
      refine ⟨⟨_, appends⟩, fun _ => ⟨blocks, appends, toByte (z.bitCount + ([] : List Bool).length), ?_, ?_, ?_⟩⟩
      · simp only [toByte, List.length_replicate]
        omega
      · simp [final]
      · intro dict rest aligned''
        have reaches := leads.reaches dict (toByte (z.bitCount + ([] : List Bool).length) ++ rest) (by
          rw [← List.append_assoc, split]
          simp
          omega)
        rw [← List.append_assoc, split, same] at reaches
        simpa [final, boundary] using reaches

end

end Isal.Deflate
