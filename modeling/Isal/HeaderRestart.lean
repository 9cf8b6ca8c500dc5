import Isal.BlockBody
import Isal.HeaderVerdict
import Isal.InflateStream

/-! A block header that the decompressor reads again with more input behind it. -/
namespace Isal.Inflate

open Isal.Bits Isal.PrefixCode Isal.Rfc1951

section Verdict

variable {s t : InflateState} {bits : List Bool}

/-- The bits that tell the kind of a block -/
def fieldKind (bits : List Bool) : Nat := bitsVal (bits.drop 1) % 2 ^ 2

/-- The header is cut off within its first three bits, or these have been read. -/
theorem readHeader_kind (views : Views s.toInStream (bitsVal bits) bits.length) :
    bits.length < 3 ∧ (readHeader s).1 = .endInput ∨
      3 ≤ bits.length ∧ ∃ t : InflateState, Views t.toInStream (bitsVal (bits.drop 3)) (bits.drop 3).length ∧
        readHeader s = if fieldKind bits = 0 then readStoredHeader t
          else if fieldKind bits = 1 then setupStaticHeader t
          else if fieldKind bits = 2 then setupDynamicHeader t
          else (.invalidBlock, t) := by
  rcases readBits_num views (show 1 ≤ 57 by decide) with ⟨first, views⟩ | ⟨short, excess⟩
  · have one := num_shrinks first
    rcases readBits_num views (show 2 ≤ 57 by decide) with ⟨second, views⟩ | ⟨short, excess⟩
    · have two := num_shrinks second
      right
      rw [num_ok (by omega)] at second
      have kind := (Parse.ok.inj second).1
      rw [List.drop_drop] at views
      simp only [List.length_drop] at one two
      refine ⟨by omega, { s.withIn (inflateInReadBits 2 (inflateInReadBits 1 s.toInStream).2).2 with
        bfinal := (inflateInReadBits 1 s.toInStream).1 }, views, ?_⟩
      have nonneg : ¬(inflateInReadBits 2 (inflateInReadBits 1 s.toInStream).2).2.readInLength < 0 := by
        rw [views.negative]
        omega
      rw [fieldKind, kind]
      exact if_neg nonneg
    · left
      have few : (bits.drop 1).length < 2 := by
        by_contra enough
        rw [num_ok (by omega)] at short
        cases short
      refine ⟨by rw [List.length_drop] at few; omega, ?_⟩
      have read : readHeader s = (.endInput, _) := if_pos excess.negative
      rw [read]
  · left
    have few : bits.length < 1 := by
      by_contra enough
      rw [num_ok (by omega)] at short
      cases short
    have below : (inflateInReadBits 2 (inflateInReadBits 1 s.toInStream).2).2.readInLength < 0 := by
      obtain ⟨v, n, views, negative⟩ := excess
      rw [(readBits_views views (show 2 ≤ 57 by decide)).2.negative]
      omega
    refine ⟨by omega, ?_⟩
    have read : readHeader s = (.endInput, _) := if_pos below
    rw [read]

/-- The lengths of a stored block are there if four bytes are. -/
theorem readStoredHeader_ret (views : Views s.toInStream (bitsVal bits) bits.length) :
    (readStoredHeader s).1 = .endInput ↔ bits.length < 32 := by
  obtain ⟨views, loaded⟩ := views.load
  rw [Loaded] at loaded
  have count := views.count
  have drained := views.drained
  rw [readStoredHeader]
  dsimp only
  by_cases few : ((inflateInLoad s.toInStream).readInLength / 8).toNat < 4
  · rw [if_pos (show ((s.withIn (inflateInLoad s.toInStream)).readInLength / 8).toNat < 4 from few)]
    exact ⟨fun _ => by omega, fun _ => rfl⟩
  · rw [if_neg (show ¬((s.withIn (inflateInLoad s.toInStream)).readInLength / 8).toNat < 4 from few)]
    refine ⟨fun ends => ?_, fun short => by omega⟩
    split at ends <;> cases ends

theorem readStored_decides (long : 32 ≤ bits.length) : readStored bits ≠ .more := by
  rw [readStored, bind_ok (align_eq bits)]
  have aligned : 32 ≤ (bits.drop (bits.length % 8)).length := by
    rw [List.length_drop]
    omega
  rw [bind_ok (num_ok (by omega)), bind_ok (num_ok (by rw [List.length_drop]; omega))]
  split
  · simp
  · simp [fail]

/-- The return value is that the header is read where the reference decoder reads it, and otherwise it is
one of two others. -/
theorem readHeader_ok (views : Views s.toInStream (bitsVal bits) bits.length) :
    ((readHeader s).1 = .decompOk ∧ ∃ block rest, readBlock bits = .ok block rest) ∨
      ((readHeader s).1 = .endInput ∨ (readHeader s).1 = .invalidBlock) ∧ Parse.Fails (readBlock bits) := by
  have read := readHeader_spec views
  generalize readHeader s = result at read
  cases read with
  | coded final codes rest s ok => exact Or.inl ⟨rfl, _, _, ok⟩
  | stored final length rest s ok => exact Or.inl ⟨rfl, _, _, ok⟩
  | failed s ret fails kind => exact Or.inr ⟨kind, fails⟩

/-- A dynamic header is read, or it is the library's own. -/
theorem setupDynamicHeader_ret (views : Views s.toInStream (bitsVal bits) bits.length) :
    (∃ multisym, DynamicRead multisym bits (setupDynamicHeader s).1) ∨
      (setupDynamicHeader s).1 = .decompOk ∧ ∃ codes rest, readDynamic bits = .ok codes rest := by
  rw [setupDynamicHeader]
  dsimp only
  cases known : (if deflateHdrCount + 8 < s.availIn then headerMatchesPregen s.toInStream else none) with
  | none => exact Or.inl ⟨_, readDynamicHeader_read _ views⟩
  | some inp =>
    split at known
    · rename_i plenty
      obtain ⟨rest, rfl, -⟩ := headerMatchesPregen_spec views plenty known
      exact Or.inr ⟨rfl, _, _, reader_readDynamic.ok (one_dvd _) hdrBits_parsed⟩
    · cases known

theorem setupDynamicHeader_append {ext : List Bool} (views : Views s.toInStream (bitsVal bits) bits.length)
    (views' : Views t.toInStream (bitsVal (bits ++ ext)) (bits ++ ext).length)
    (invalid : (setupDynamicHeader s).1 = .invalidBlock) : (setupDynamicHeader t).1 = .invalidBlock := by
  rcases setupDynamicHeader_ret views with ⟨multisym, short⟩ | ⟨ok, -⟩
  · rcases setupDynamicHeader_ret views' with ⟨multisym', long⟩ | ⟨-, codes, rest, parsed⟩
    · exact short.rejects invalid long
    · have refused := short.rejects invalid (readDynamicHeader_read 0 views')
      have read := readDynamicHeader_spec 0 views'
      rw [bind_ok parsed, pure_eq] at read
      generalize readDynamicHeader 0 t = result at refused read
      cases read with
      | coded => cases refused
      | stored => cases refused
      | failed _ _ fails => exact absurd rfl (fails _ _)
  · rw [ok] at invalid
    cases invalid

/-- A header that has been found invalid is invalid with more bytes behind it. -/
theorem readHeader_append {ext : List Bool} (bytes : 8 ∣ ext.length) (views : Views s.toInStream (bitsVal bits) bits.length)
    (views' : Views t.toInStream (bitsVal (bits ++ ext)) (bits ++ ext).length) (invalid : (readHeader s).1 = .invalidBlock) :
    (readHeader t).1 = .invalidBlock := by
  rcases readHeader_kind views with ⟨-, ends⟩ | ⟨long, u, viewsU, read⟩
  · rw [ends] at invalid
    cases invalid
  rcases readHeader_kind views' with ⟨short, -⟩ | ⟨-, u', viewsU', read'⟩
  · rw [List.length_append] at short
    omega
  have kind : fieldKind (bits ++ ext) = fieldKind bits := by
    rw [fieldKind, fieldKind, List.drop_append_of_le_length (by omega)]
    exact field_eq _ ext (by rw [List.length_drop]; omega)
  rw [List.drop_append_of_le_length long] at viewsU'
  rw [kind] at read'
  rw [read] at invalid
  rw [read']
  by_cases stored : fieldKind bits = 0
  · rw [if_pos stored] at invalid ⊢
    have enough : 32 ≤ (bits.drop 3).length := by
      by_contra few
      rw [(readStoredHeader_ret viewsU).mpr (by omega)] at invalid
      cases invalid
    have bad : readStored (bits.drop 3) = .bad := by
      have spec := readStoredHeader_spec viewsU 0
      generalize readStoredHeader u = result at invalid spec
      cases spec with
      | coded => cases invalid
      | stored => cases invalid
      | failed _ _ fails =>
        cases parsed : readStored (bits.drop 3) with
        | ok block rest => exact absurd parsed (fails block rest)
        | more => exact absurd parsed (readStored_decides enough)
        | bad => rfl
    have refused := reader_readStored.bad bytes bad
    have goesOn : (readStoredHeader u').1 ≠ .endInput := by
      rw [Ne, readStoredHeader_ret viewsU', List.length_append]
      omega
    have spec := readStoredHeader_spec viewsU' 0
    rw [refused] at spec
    generalize readStoredHeader u' = result at goesOn spec
    cases spec with
    | coded _ _ _ ok => cases ok
    | stored _ _ _ ok => cases ok
    | failed _ _ _ kind => exact kind.resolve_left goesOn
  rw [if_neg stored] at invalid ⊢
  by_cases static : fieldKind bits = 1
  · rw [if_pos static] at invalid
    cases invalid
  rw [if_neg static] at invalid ⊢
  by_cases dynamic : fieldKind bits = 2
  · rw [if_pos dynamic] at invalid ⊢
    exact setupDynamicHeader_append viewsU viewsU' invalid
  · rw [if_neg dynamic]

/-- The longest header that is still cut off -/
def maxHeaderBits : Nat := 2292

theorem readHeader_cut (views : Views s.toInStream (bitsVal bits) bits.length) (ends : (readHeader s).1 = .endInput) :
    bits.length ≤ maxHeaderBits := by
  rw [maxHeaderBits]
  rcases readHeader_kind views with ⟨short, -⟩ | ⟨-, u, viewsU, read⟩
  · omega
  have left : (bits.drop 3).length = bits.length - 3 := List.length_drop
  rw [read] at ends
  split at ends
  · have short := (readStoredHeader_ret viewsU).mp ends
    omega
  split at ends
  · cases ends
  split at ends
  · rcases setupDynamicHeader_ret viewsU with ⟨multisym, dynamic⟩ | ⟨ok, -⟩
    · by_contra long
      exact dynamic.plenty (by omega) ends
    · rw [ok] at ends
      cases ends
  · cases ends

end Verdict

section Pieces

/-- The bits decide on the return value. -/
theorem readHeader_ret {s : InflateState} {bits : List Bool} {ret : ReturnCode} (known : HeaderRet bits ret)
    (views : Views s.toInStream (bitsVal bits) bits.length) : (readHeader s).1 = ret := by
  obtain ⟨t, viewsT, rfl⟩ := known
  have same : ∀ {s t : InflateState}, Views s.toInStream (bitsVal bits) bits.length → Views t.toInStream (bitsVal bits) bits.length →
      (readHeader s).1 = .invalidBlock → (readHeader t).1 = .invalidBlock := by
    intro s t views views' invalid
    exact readHeader_append (by simp : 8 ∣ ([] : List Bool).length) views (by rw [List.append_nil]; exact views') invalid
  rcases readHeader_ok views with ⟨ok, block, rest, parsed⟩ | ⟨kind, fails⟩
  · rcases readHeader_ok viewsT with ⟨okT, -⟩ | ⟨-, fails⟩
    · rw [ok, okT]
    · exact absurd parsed (fails block rest)
  · rcases readHeader_ok viewsT with ⟨-, block, rest, parsed⟩ | ⟨kindT, -⟩
    · exact absurd parsed (fails block rest)
    · rcases kind with ends | invalid
      · rcases kindT with endsT | invalidT
        · rw [ends, endsT]
        · rw [same viewsT views invalidT, invalidT]
      · rw [invalid, same views viewsT invalid]

theorem HeaderRet.unique {bits : List Bool} {ret ret' : ReturnCode} (known : HeaderRet bits ret) (known' : HeaderRet bits ret') :
    ret = ret' := by
  obtain ⟨s, views, rfl⟩ := known
  exact readHeader_ret known' views

/-- Bytes that are added to the end of the input -/
theorem Views.extend {s t : InStream} {bits : List Bool} (views : Views s (bitsVal bits) bits.length) {more : List UInt8}
    (readIn : t.readIn = s.readIn) (readInLength : t.readInLength = s.readInLength) (start : 0 ≤ t.nextIn)
    (inside : t.nextIn.toNat + t.availIn = t.buf.length) (pending : t.pending = s.pending ++ more) :
    Views t (bitsVal (bits ++ bytesBits more)) (bits ++ bytesBits more).length := by
  have count := views.count
  have nonneg := views.nonneg
  obtain ⟨m, low, high, buffered⟩ := views.buffered
  have length : t.availIn = s.availIn + more.length := by
    have sizes := congrArg List.length pending
    have here : t.pending.length = t.availIn := by
      rw [InStream.pending, List.length_take, List.length_drop]
      omega
    rw [here, List.length_append, pending_length views] at sizes
    exact sizes
  refine ⟨start, inside, readInLength ▸ views.small, ?_, fun below => by omega, ?_, ?_⟩
  · rw [List.length_append, bytesBits_length, readInLength, length]
    omega
  · have whole : bits.length = s.readInLength.toNat + 8 * s.availIn := by omega
    have small := bitsVal_lt bits
    rw [readInLength, pending, bytesVal_append, pending_length views, ← views.value, bitsVal_append, bitsVal_bytesBits]
    rw [whole, Nat.pow_add, Nat.mul_assoc, Nat.add_mul_div_left _ _ (Nat.two_pow_pos _)]
  · refine ⟨min m bits.length, by omega, by omega, ?_⟩
    have small := bitsVal_lt bits
    rw [readIn, buffered, bitsVal_append]
    rcases Nat.le_total m bits.length with le | le
    · rw [Nat.min_eq_left le]
      obtain ⟨k, longer⟩ := Nat.exists_eq_add_of_le le
      rw [longer, Nat.pow_add, Nat.mul_assoc, Nat.add_mul_mod_self_left]
    · rw [Nat.min_eq_right le, Nat.add_mul_mod_self_left, Nat.mod_eq_of_lt small,
        Nat.mod_eq_of_lt (Nat.lt_of_lt_of_le small (Nat.pow_le_pow_right (by decide) le))]

/-- The bits and bytes that have been put aside -/
def InflateState.aside (s : InflateState) : InStream :=
  { s.toInStream with buf := s.tmpIn, nextIn := 0, availIn := s.tmpIn.length }

/-- The pointer into the buffer of the caller is within it. -/
structure Within (s : InStream) : Prop where
  start : 0 ≤ s.nextIn
  inside : s.nextIn.toNat + s.availIn = s.buf.length

theorem Views.within {s : InStream} {v : Nat} {n : Int} (views : Views s v n) : Within s := ⟨views.start, views.inside⟩

theorem Within.pending_length {s : InStream} (within : Within s) : s.pending.length = s.availIn := by
  have inside := within.inside
  rw [InStream.pending, List.length_take, List.length_drop]
  omega

/-- The decompressor has put aside the beginning of a header, which is cut off behind it. -/
structure AtRestart (s : InflateState) (bits : List Bool) : Prop where
  state : s.blockState = .hdr
  within : Within s.toInStream
  split : ∃ saved, bits = saved ++ bytesBits s.pending ∧ Views s.aside (bitsVal saved) saved.length ∧ HeaderRet saved .endInput

/-- The decompressor is before a header. -/
structure AtStart (s : InflateState) (bits : List Bool) : Prop where
  state : s.blockState = .newHdr
  none_ : s.tmpIn = []
  views : Views s.toInStream (bitsVal bits) bits.length

/-- What is put aside is never more than the buffer for it holds. -/
theorem AtRestart.fits {s : InflateState} {bits : List Bool} (at_ : AtRestart s bits) : 8 * s.tmpIn.length ≤ maxHeaderBits := by
  obtain ⟨saved, -, views, cut⟩ := at_.split
  have short : saved.length ≤ maxHeaderBits := by
    obtain ⟨t, viewsT, ends⟩ := cut
    exact readHeader_cut viewsT ends
  have count := views.count
  have nonneg := views.nonneg
  have size : s.aside.availIn = s.tmpIn.length := rfl
  omega

/-- All but the input that has been put aside -/
def InflateState.cleared (s : InflateState) : InflateState := { s with tmpIn := [] }

/-- The state after an attempt that has found the input too short -/
def InflateState.putAside (s t : InflateState) : InflateState :=
  { t with
    readIn := s.readIn
    readInLength := s.readInLength
    tmpIn := s.tmpIn ++ s.pending
    nextIn := s.nextIn + s.availIn
    availIn := 0
    blockState := .hdr }

theorem AtStart.putAside {s t : InflateState} {bits : List Bool} (at_ : AtStart s bits) (buf : t.buf = s.buf)
    (cut : HeaderRet bits .endInput) : AtRestart (s.putAside t) bits := by
  have views := at_.views
  have start := views.start
  have inside := views.inside
  have nothing : (s.putAside t).pending = [] := List.take_zero
  refine ⟨rfl, ⟨?_, ?_⟩, bits, ?_, ?_, cut⟩
  · change 0 ≤ s.nextIn + (s.availIn : Int)
    omega
  · change (s.nextIn + (s.availIn : Int)).toNat + 0 = t.buf.length
    rw [buf]
    omega
  · rw [nothing, bytesBits_nil, List.append_nil]
  · have same : Views (s.putAside t).aside (bitsVal (bits ++ bytesBits [])) (bits ++ bytesBits []).length := by
      refine views.extend rfl rfl (Int.le_refl 0) (Nat.zero_add _) ?_
      have whole : (s.putAside t).tmpIn = s.pending := by
        change s.tmpIn ++ s.pending = _
        rw [at_.none_, List.nil_append]
      rw [List.append_nil, InStream.pending]
      change ((s.putAside t).tmpIn.drop 0).take (s.putAside t).tmpIn.length = _
      rw [List.drop_zero, List.take_length, whole]
    simpa using same

theorem aside_pending (s : InflateState) : s.aside.pending = s.tmpIn := by
  change (s.tmpIn.drop 0).take s.tmpIn.length = _
  rw [List.drop_zero, List.take_length]

/-- The state in which the whole of the header is tried again -/
theorem AtRestart.whole {s : InflateState} {bits : List Bool} (at_ : AtRestart s bits) (t : InflateState) :
    Views (s.putAside t).aside (bitsVal bits) bits.length := by
  obtain ⟨saved, split, views, -⟩ := at_.split
  rw [split]
  refine views.extend rfl rfl (Int.le_refl 0) (Nat.zero_add _) ?_
  rw [aside_pending, aside_pending]
  rfl

theorem AtRestart.putAside {s t : InflateState} {bits : List Bool} (at_ : AtRestart s bits) (buf : t.buf = s.buf)
    (cut : HeaderRet bits .endInput) : AtRestart (s.putAside t) bits := by
  have nothing : (s.putAside t).pending = [] := List.take_zero
  have start := at_.within.start
  have inside := at_.within.inside
  refine ⟨rfl, ⟨?_, ?_⟩, bits, ?_, at_.whole t, cut⟩
  · change 0 ≤ s.nextIn + (s.availIn : Int)
    omega
  · change (s.nextIn + (s.availIn : Int)).toNat + 0 = t.buf.length
    rw [buf]
    omega
  · rw [nothing, bytesBits_nil, List.append_nil]

/-- How many bytes are copied to `tmp_in_buffer` -/
def InflateState.copySize (s : InflateState) : Nat := min (maxHdrSize - s.tmpIn.length) s.availIn

/-- In `tmp_in_buffer` the header is continued as far as the buffer holds it, and so far that it is not cut off
where the buffer ends. -/
theorem AtRestart.enter {s : InflateState} {bits saved : List Bool} (at_ : AtRestart s bits)
    (views : Views s.aside (bitsVal saved) saved.length) :
    Views s.enterTmpIn.toInStream (bitsVal (saved ++ bytesBits (s.pending.take s.copySize)))
        (saved ++ bytesBits (s.pending.take s.copySize)).length ∧
      (s.copySize = s.availIn ∨ maxHeaderBits < (saved ++ bytesBits (s.pending.take s.copySize)).length) := by
  have size := at_.within.pending_length
  have least : s.copySize ≤ s.availIn := Nat.min_le_right _ _
  have taken : (s.pending.take s.copySize).length = s.copySize := by
    rw [List.length_take, size]
    omega
  refine ⟨views.extend rfl rfl (Int.le_refl 0) ?_ ?_, ?_⟩
  · change 0 + (s.tmpIn.length + s.copySize) = (s.tmpIn ++ s.pending.take s.copySize).length
    rw [List.length_append, taken, Nat.zero_add]
  · rw [aside_pending]
    change ((s.tmpIn ++ s.pending.take s.copySize).drop 0).take (s.tmpIn.length + s.copySize) = _
    rw [List.drop_zero, List.take_of_length_le]
    rw [List.length_append, taken]
  · have count := views.count
    have nonneg := views.nonneg
    have held : s.aside.availIn = s.tmpIn.length := rfl
    have fits := at_.fits
    have size : s.copySize = min (328 - s.tmpIn.length) s.availIn := rfl
    rw [List.length_append, bytesBits_length, taken]
    rw [maxHeaderBits] at fits ⊢
    omega

/-- Where the header is read the position in `tmp_in_buffer` is behind what had been put aside, and the place in
the buffer of the caller is the one that corresponds. -/
theorem AtRestart.leave {s t : InflateState} {bits rest : List Bool} (at_ : AtRestart s bits) (buf : t.buf = s.enterTmpIn.buf)
    (views : Views t.toInStream (bitsVal rest) rest.length) (behind : rest.length ≤ 8 * s.copySize) :
    Views (s.leaveTmpIn t).toInStream (bitsVal (rest ++ bytesBits (s.pending.drop s.copySize)))
      (rest ++ bytesBits (s.pending.drop s.copySize)).length := by
  obtain ⟨start, inside⟩ := at_.within
  have size := at_.within.pending_length
  have least : s.copySize ≤ s.availIn := Nat.min_le_right _ _
  have count := views.count
  have nonneg := views.nonneg
  have start' := views.start
  have inside' := views.inside
  have taken : (s.pending.take s.copySize).length = s.copySize := by
    rw [List.length_take, size]
    omega
  have held : t.buf = s.tmpIn ++ s.pending.take s.copySize := buf
  rw [held, List.length_append, taken] at inside'
  obtain ⟨read, isRead⟩ : ∃ read, read = (t.nextIn - s.tmpIn.length).toNat := ⟨_, rfl⟩
  have place : t.nextIn.toNat = s.tmpIn.length + read := by omega
  have upTo : read + t.availIn = s.copySize := by omega
  have left : (s.leaveTmpIn t).toInStream =
      { t.toInStream with buf := s.buf, nextIn := s.nextIn + read, availIn := s.availIn - read } := by
    rw [isRead]
    rfl
  rw [left]
  refine views.extend rfl rfl ?_ ?_ ?_
  · change 0 ≤ s.nextIn + (read : Int)
    omega
  · change (s.nextIn + (read : Int)).toNat + (s.availIn - read) = s.buf.length
    omega
  · have here : t.pending = (s.pending.take s.copySize).drop read := by
      rw [InStream.pending, held, place, List.drop_append, List.take_of_length_le]
      · simp
      · simp only [List.length_append, List.length_drop, taken]
        omega
    rw [here, ← List.drop_append_of_le_length (by omega), List.take_append_drop]
    change (s.buf.drop (s.nextIn + (read : Int)).toNat).take (s.availIn - read) = _
    rw [InStream.pending, List.drop_take, List.drop_drop, show (s.nextIn + (read : Int)).toNat = s.nextIn.toNat + read by omega]

end Pieces

end Isal.Inflate
