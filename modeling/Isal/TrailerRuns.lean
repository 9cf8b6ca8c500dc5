import Isal.BetweenCalls
import Isal.Adler32
import Isal.CrcBase
import Isal.BitWriter

/-! The check of the trailer behind a stream, over calls that may end within it. -/
namespace Isal.Inflate

open Isal.Bits Isal.PrefixCode Isal.Rfc1951 Isal.Checksum

section Trailer

variable {s t : InflateState} {rest : List UInt8} {n : Nat}

/-- The whole bytes in the read-ahead -/
def InStream.ahead (s : InStream) : List UInt8 := toLeBytes (s.readIn >>> (s.readInLength % 8).toNat) (s.readInLength / 8).toNat

/-- `rest` is the input from the end of the stream on: put aside, read ahead and still in the buffer. -/
structure Trailing (s : InflateState) (rest : List UInt8) : Prop where
  within : Within s.toInStream
  nonneg : 0 ≤ s.readInLength
  small : s.readInLength ≤ 64
  content : rest = s.tmpIn ++ s.ahead ++ s.pending
  either : s.tmpIn = [] ∨ s.readInLength < 8

theorem within_length {s : InStream} (within : Within s) : s.pending.length = s.availIn := by
  have inside := within.inside
  rw [InStream.pending, List.length_take, List.length_drop]
  omega

theorem ahead_length (s : InStream) : s.ahead.length = (s.readInLength / 8).toNat := toLeBytes_length _ _

theorem ahead_nil {s : InStream} (few : s.readInLength < 8) : s.ahead = [] := by
  have none_ : (s.readInLength / 8).toNat = 0 := by omega
  rw [InStream.ahead, none_, toLeBytes]

theorem Trailing.length (h : Trailing s rest) : rest.length = s.tmpIn.length + (s.readInLength / 8).toNat + s.availIn := by
  rw [h.content, List.length_append, List.length_append, ahead_length, within_length h.within]

theorem Trailing.settled (h : Trailing s rest) (few : s.readInLength < 8) : rest = s.tmpIn ++ s.pending := by
  rw [h.content, ahead_nil few, List.append_nil]

/-- Behind the last block the bits up to the next whole byte are left out. -/
theorem Trailing.ofViews {bits : List Bool} (views : Views s.toInStream (bitsVal bits) bits.length) (none_ : s.tmpIn = [])
    (aligned : bits.drop (bits.length % 8) = bytesBits rest) : Trailing s rest := by
  have nonneg : 0 ≤ s.readInLength := by
    by_contra negative
    have below := views.negative.mp (by omega)
    omega
  refine ⟨views.within, nonneg, views.small, ?_, Or.inl none_⟩
  have count := views.count
  have size := congrArg List.length aligned
  rw [List.length_drop, bytesBits_length] at size
  have value := congrArg bitsVal aligned
  rw [bitsVal_drop, bitsVal_bytesBits] at value
  obtain ⟨m, low, high, buffered⟩ := views.buffered
  obtain ⟨len, isLen⟩ : ∃ len : Nat, s.readInLength = len := ⟨s.readInLength.toNat, by omega⟩
  have isPad : (s.readInLength % 8).toNat = bits.length % 8 := by omega
  have isFew : (s.readInLength / 8).toNat = len / 8 := by omega
  have first : s.ahead = rest.take (len / 8) := by
    refine bytesVal_inj ?_ ?_
    · rw [ahead_length, List.length_take]
      omega
    · rw [InStream.ahead, bytesVal_toLeBytes, bytesVal_take, ← value, isPad, isFew, buffered, Nat.shiftRight_eq_div_pow]
      have room : bits.length % 8 + 8 * (len / 8) ≤ m := by omega
      rw [← Nat.mod_mul_right_div_self, ← Nat.mod_mul_right_div_self, ← Nat.pow_add, mod_mod_two_pow, Nat.min_eq_right room]
  have second : s.pending = rest.drop (len / 8) := by
    refine bytesVal_inj ?_ ?_
    · rw [within_length views.within, List.length_drop]
      omega
    · have after := views.value
      rw [bytesVal_drop, ← value, Nat.div_div_eq_div_mul, ← Nat.pow_add, ← after]
      congr 2
      omega
  rw [none_, List.nil_append, first, second, List.take_append_drop]

/-- The state after the read-ahead has been put aside, where there are whole bytes in it. -/
theorem stashReadIn_spec (h : Trailing s rest) :
    Trailing (stashReadIn s) rest ∧ (stashReadIn s).readInLength < 8 ∧
      (stashReadIn s).tmpIn.length = s.tmpIn.length + (s.readInLength / 8).toNat ∧
      ∃ readIn readInLength tmpIn, stashReadIn s = { s with readIn, readInLength, tmpIn } := by
  have nonneg := h.nonneg
  rw [stashReadIn]
  split
  · rename_i long
    have none_ := h.either.resolve_right (by omega)
    have whole : { s with
        tmpIn := s.tmpIn ++ toLeBytes (s.readIn >>> (s.readInLength % 8).toNat) (s.readInLength / 8).toNat
        readIn := 0
        readInLength := 0 } = ({ s with tmpIn := s.tmpIn ++ s.ahead, readIn := 0, readInLength := 0 } : InflateState) := rfl
    rw [whole]
    refine ⟨⟨⟨h.within.start, h.within.inside⟩, by simp, by simp, ?_, Or.inr (by simp)⟩, by simp, ?_, 0, 0, _, rfl⟩
    · have nothing : InStream.ahead { s.toInStream with readIn := 0, readInLength := 0 } = [] := ahead_nil (by simp)
      have same : ({ s with tmpIn := s.tmpIn ++ s.ahead, readIn := 0, readInLength := 0 } : InflateState).ahead = [] := nothing
      rw [same, List.append_nil]
      exact h.content
    · exact (List.length_append ..).trans (by rw [ahead_length])
  · rename_i few
    have none_ : (s.readInLength / 8).toNat = 0 := by omega
    exact ⟨h, by omega, by rw [none_, Nat.add_zero], _, _, _, rfl⟩

/-- What is read of a field of `n` bytes: all that there is, or the field. -/
inductive TrailerField (n : Nat) (s : InflateState) (rest : List UInt8) : Option (List UInt8) × InflateState → Prop
  | short (t : InflateState) (few : rest.length < n) (trailing : Trailing t rest) (empty : t.availIn = 0) (aside : t.readInLength < 8)
      (frame : ∃ inp tmpIn, inp.buf = s.buf ∧ t = { s with toInStream := inp, tmpIn }) : TrailerField n s rest (none, t)
  | whole (t : InflateState) (enough : n ≤ rest.length) (nextIn : t.unread.nextIn = s.buf.length - (rest.length - n : Nat))
      (availIn : t.unread.availIn = (rest.length - n) % 2 ^ 32) (aside : s.readInLength < 8 → 0 ≤ t.readInLength ∧ t.readInLength < 8)
      (frame : ∃ inp tmpIn, inp.buf = s.buf ∧ t = { s with toInStream := inp, tmpIn }) : TrailerField n s rest (some (rest.take n), t)

theorem unread_few {s : InStream} (nonneg : 0 ≤ s.readInLength) (few : s.readInLength < 8) :
    s.unread.nextIn = s.nextIn ∧ s.unread.availIn = s.availIn % 2 ^ 32 := by
  have none_ : s.readInLength.tdiv 8 = 0 := by
    rw [Int.tdiv_eq_ediv_of_nonneg nonneg]
    omega
  rw [InStream.unread, none_]
  dsimp only
  omega

theorem fixedSizeRead_trailer (h : Trailing s rest) (few : s.readInLength < 8) (short : s.tmpIn.length ≤ n) :
    TrailerField n s rest (fixedSizeRead n s) := by
  have content := h.settled few
  have start := h.within.start
  have inside := h.within.inside
  have size := congrArg List.length content
  rw [List.length_append, within_length h.within] at size
  by_cases less : s.availIn + s.tmpIn.length < n
  · have aside : fixedSizeRead n s = (none, { s.skip s.availIn with tmpIn := s.tmpIn ++ s.pending }) := if_pos less
    rw [aside]
    refine .short _ (by omega) ⟨⟨?_, ?_⟩, h.nonneg, h.small, ?_, Or.inr few⟩ (Nat.sub_self _) few
      ⟨(s.skip s.availIn).toInStream, s.tmpIn ++ s.pending, rfl, rfl⟩
    · change 0 ≤ s.nextIn + (s.availIn : Int)
      omega
    · change (s.nextIn + (s.availIn : Int)).toNat + (s.availIn - s.availIn) = s.buf.length
      omega
    · have nothing : InStream.pending { s.skip s.availIn with tmpIn := s.tmpIn ++ s.pending }.toInStream = [] := by
        rw [InStream.pending, show ({ s.skip s.availIn with tmpIn := s.tmpIn ++ s.pending } : InflateState).availIn = 0 from Nat.sub_self _,
          List.take_zero]
      have ahead : InStream.ahead { s.skip s.availIn with tmpIn := s.tmpIn ++ s.pending }.toInStream = [] := ahead_nil few
      rw [nothing, ahead, List.append_nil, List.append_nil]
      exact content
  · have taken : fixedSizeRead n s =
        (some (s.tmpIn ++ s.pending.take (n - s.tmpIn.length)), { s.skip (n - s.tmpIn.length) with tmpIn := [] }) := if_neg less
    have whole : s.tmpIn ++ s.pending.take (n - s.tmpIn.length) = rest.take n := by
      rw [content, List.take_append, List.take_of_length_le short]
    rw [taken, whole]
    obtain ⟨nextIn, availIn⟩ := unread_few (s := { s.skip (n - s.tmpIn.length) with tmpIn := [] }.toInStream) h.nonneg few
    refine .whole _ (by omega) (nextIn.trans ?_) (availIn.trans ?_) (fun _ => ⟨h.nonneg, few⟩)
      ⟨(s.skip (n - s.tmpIn.length)).toInStream, [], rfl, rfl⟩
    · change s.nextIn + ((n - s.tmpIn.length : Nat) : Int) = _
      omega
    · change (s.availIn - (n - s.tmpIn.length)) % 2 ^ 32 = _
      congr 1
      omega

/-- The field after the read-ahead has been put aside -/
theorem TrailerField.ofStash (h : Trailing s rest) (short : s.tmpIn.length + (s.readInLength / 8).toNat ≤ n) :
    TrailerField n s rest (fixedSizeRead n (stashReadIn s)) := by
  obtain ⟨trailing, few, size, readIn, readInLength, tmpIn, isStash⟩ := stashReadIn_spec h
  have read := fixedSizeRead_trailer trailing few (size ▸ short)
  have buf : (stashReadIn s).buf = s.buf := by rw [isStash]
  have within : ∀ {t : InflateState}, (∃ inp tmpIn, inp.buf = (stashReadIn s).buf ∧ t = { stashReadIn s with toInStream := inp, tmpIn }) →
      ∃ inp tmpIn, inp.buf = s.buf ∧ t = { s with toInStream := inp, tmpIn } := by
    rintro t ⟨inp, tmpIn', sameBuf, isT⟩
    refine ⟨inp, tmpIn', sameBuf.trans buf, ?_⟩
    rw [isT, isStash]
  generalize fixedSizeRead n (stashReadIn s) = result at read
  cases read with
  | short t few trailing empty aside frame => exact .short t few trailing empty aside (within frame)
  | whole t enough nextIn availIn aside frame => exact .whole t enough (buf ▸ nextIn) availIn (fun _ => aside few) (within frame)

/-- How the check of a trailer of `n` bytes ends, which is right where `good` holds. -/
inductive TrailerRead (n : Nat) (s : InflateState) (rest : List UInt8) (good : Prop) : ReturnCode × InflateState → Prop
  | short (t : InflateState) (few : rest.length < n) (trailing : Trailing t rest) (empty : t.availIn = 0) (aside : t.readInLength < 8)
      (frame : ∃ inp tmpIn, inp.buf = s.buf ∧ t = { s with toInStream := inp, tmpIn, blockState := .checksumCheck }) :
      TrailerRead n s rest good (.endInput, t)
  | right (t : InflateState) (enough : n ≤ rest.length) (holds : good) (nextIn : t.unread.nextIn = s.buf.length - (rest.length - n : Nat))
      (availIn : t.unread.availIn = (rest.length - n) % 2 ^ 32) (aside : s.readInLength < 8 → 0 ≤ t.readInLength ∧ t.readInLength < 8)
      (frame : ∃ inp tmpIn, inp.buf = s.buf ∧ t = { s with toInStream := inp, tmpIn, blockState := .finish }) :
      TrailerRead n s rest good (.decompOk, t)
  | wrong (t : InflateState) (enough : n ≤ rest.length) (bad : ¬good) (nextIn : t.unread.nextIn = s.buf.length - (rest.length - n : Nat))
      (availIn : t.unread.availIn = (rest.length - n) % 2 ^ 32) (aside : s.readInLength < 8 → 0 ≤ t.readInLength ∧ t.readInLength < 8)
      (frame : ∃ inp tmpIn, inp.buf = s.buf ∧ t = { s with toInStream := inp, tmpIn, blockState := .finish }) :
      TrailerRead n s rest good (.incorrectChecksum, t)

theorem TrailerRead.imp {good good' : Prop} {result : ReturnCode × InflateState} (h : TrailerRead n s rest good result)
    (same : n ≤ rest.length → (good ↔ good')) : TrailerRead n s rest good' result := by
  cases h with
  | short t few trailing empty aside frame => exact .short t few trailing empty aside frame
  | right t enough holds nextIn availIn aside frame => exact .right t enough ((same enough).mp holds) nextIn availIn aside frame
  | wrong t enough bad nextIn availIn aside frame => exact .wrong t enough (mt (same enough).mpr bad) nextIn availIn aside frame

theorem TrailerField.aside (h : TrailerField n s rest (none, t)) (good : Prop) :
    TrailerRead n s rest good (.endInput, { t with blockState := .checksumCheck }) := by
  cases h with
  | short _ few trailing empty aside frame =>
    obtain ⟨inp, tmpIn, buf, rfl⟩ := frame
    exact .short _ few ⟨trailing.within, trailing.nonneg, trailing.small, trailing.content, trailing.either⟩ empty aside ⟨inp, tmpIn, buf, rfl⟩

theorem TrailerField.settled {bytes : List UInt8} (h : TrailerField n s rest (some bytes, t)) (good : Prop) [Decidable good] :
    bytes = rest.take n ∧ TrailerRead n s rest good (if good then .decompOk else .incorrectChecksum, { t with blockState := .finish }) := by
  cases h with
  | whole _ enough nextIn availIn aside frame =>
    obtain ⟨inp, tmpIn, buf, rfl⟩ := frame
    refine ⟨rfl, ?_⟩
    by_cases right : good
    · rw [if_pos right]
      exact .right _ enough right nextIn availIn aside ⟨inp, tmpIn, buf, rfl⟩
    · rw [if_neg right]
      exact .wrong _ enough right nextIn availIn aside ⟨inp, tmpIn, buf, rfl⟩

theorem TrailerField.keeps {bytes : Option (List UInt8)} (h : TrailerField n s rest (bytes, t)) : t.crc = s.crc ∧ t.totalOut = s.totalOut := by
  cases h with
  | short _ _ _ _ _ frame =>
    obtain ⟨inp, tmpIn, -, rfl⟩ := frame
    exact ⟨rfl, rfl⟩
  | whole _ _ _ _ _ frame =>
    obtain ⟨inp, tmpIn, -, rfl⟩ := frame
    exact ⟨rfl, rfl⟩

/-- The field is all in the read-ahead. -/
theorem Trailing.buffered (h : Trailing s rest) (long : (8 * n : Nat) ≤ s.readInLength) (some_ : 0 < n) :
    s.tmpIn = [] ∧ toLeBytes (s.readIn >>> (s.readInLength % 8).toNat) n = rest.take n := by
  have none_ := h.either.resolve_right (by omega)
  refine ⟨none_, ?_⟩
  have inside : n ≤ (s.readInLength / 8).toNat := by omega
  rw [h.content, none_, List.nil_append, List.take_append_of_le_length (by rw [ahead_length]; exact inside), InStream.ahead, toLeBytes_take _ inside]

theorem checkGzipChecksum_spec (h : Trailing s rest) (short : s.tmpIn.length < 8) :
    TrailerRead 8 s rest (bytesVal (rest.take 8) = s.crc ||| s.totalOut.toNat <<< 32) (checkGzipChecksum s) := by
  have size := h.length
  have small := h.small
  have nonneg := h.nonneg
  have start := h.within.start
  have inside := h.within.inside
  rw [checkGzipChecksum]
  by_cases long : 64 ≤ s.readInLength
  · obtain ⟨none_, same⟩ := h.buffered (n := 8) (by omega) (by decide)
    have noPad : (s.readInLength % 8).toNat = 0 := by omega
    have value : s.readIn % 2 ^ 64 = bytesVal (rest.take 8) := by
      rw [← same, bytesVal_toLeBytes, noPad]
      rfl
    have field : TrailerField 8 s rest (some (rest.take 8), { s with readIn := 0, readInLength := 0 }) := by
      refine .whole _ (by omega) ?_ ?_ (fun few => by omega) ⟨{ s.toInStream with readIn := 0, readInLength := 0 }, s.tmpIn, rfl, rfl⟩
      · have back := (unread_few (s := { s.toInStream with readIn := 0, readInLength := 0 }) (by simp) (by simp)).1
        refine back.trans ?_
        change s.nextIn = _
        rw [none_, List.length_nil] at size
        omega
      · have left := (unread_few (s := { s.toInStream with readIn := 0, readInLength := 0 }) (by simp) (by simp)).2
        refine left.trans ?_
        change s.availIn % 2 ^ 32 = _
        rw [none_, List.length_nil] at size
        congr 1
        omega
    simp only [if_pos long, value]
    exact (field.settled _).2
  · have field := TrailerField.ofStash (n := 8) h (by rcases h.either with none_ | few <;> simp_all <;> omega)
    simp only [if_neg long]
    generalize fixedSizeRead 8 (stashReadIn s) = result at field
    obtain ⟨bytes, t⟩ := result
    obtain ⟨crc, totalOut⟩ := field.keeps
    cases bytes with
    | none => exact field.aside _
    | some bytes =>
      obtain ⟨rfl, settled⟩ := field.settled (bytesVal (rest.take 8) = t.crc ||| t.totalOut.toNat <<< 32)
      exact settled.imp fun _ => by rw [crc, totalOut]

theorem checkZlibChecksum_spec (h : Trailing s rest) (short : s.tmpIn.length < 4) :
    TrailerRead 4 s rest (bytesVal (rest.take 4).reverse = s.crc) (checkZlibChecksum s) := by
  have size := h.length
  have small := h.small
  have nonneg := h.nonneg
  have start := h.within.start
  have inside := h.within.inside
  rw [checkZlibChecksum]
  by_cases long : 32 ≤ s.readInLength
  · obtain ⟨none_, same⟩ := h.buffered (n := 4) (by omega) (by decide)
    rw [none_, List.length_nil] at size
    obtain ⟨inp, isInp⟩ : ∃ inp, inp = (s.toInStream.consume (s.readInLength % 8).toNat).consume 32 := ⟨_, rfl⟩
    have left : inp.readInLength = s.readInLength - (s.readInLength % 8).toNat - 32 := by
      rw [isInp, consume_readInLength, consume_readInLength]
      rfl
    have back : inp.readInLength.tdiv 8 = s.readInLength / 8 - 4 := by
      rw [Int.tdiv_eq_ediv_of_nonneg (by omega)]
      omega
    have field : TrailerField 4 s rest (some (rest.take 4), s.withIn inp) := by
      refine .whole _ (by omega) ?_ ?_ (fun few => by omega) ⟨inp, _, by rw [isInp]; rfl, rfl⟩
      · change inp.nextIn - inp.readInLength.tdiv 8 = _
        rw [back, isInp, consume_nextIn, consume_nextIn]
        omega
      · change ((inp.availIn + inp.readInLength.tdiv 8) % 2 ^ 32).toNat = _
        rw [back, isInp, consume_availIn, consume_availIn]
        omega
    have bytes : toLeBytes (s.toInStream.consume (s.readInLength % 8).toNat).readIn 4 = rest.take 4 := by
      rw [consume_readIn]
      exact same
    simp only [if_pos long, bytes]
    rw [isInp] at field
    exact (field.settled _).2
  · have field := TrailerField.ofStash (n := 4) h (by rcases h.either with none_ | few <;> simp_all <;> omega)
    simp only [if_neg long]
    generalize fixedSizeRead 4 (stashReadIn s) = result at field
    obtain ⟨bytes, t⟩ := result
    obtain ⟨crc, -⟩ := field.keeps
    cases bytes with
    | none => exact field.aside _
    | some bytes =>
      obtain ⟨rfl, settled⟩ := field.settled (bytesVal (rest.take 4).reverse = t.crc)
      exact settled.imp fun _ => by rw [crc]

end Trailer

section Sums

/-- The formats with a trailer that is checked, and no header of their own -/
inductive CrcFlag.Verified : CrcFlag → Prop
  | gzip : Verified .gzipNoHdrVer
  | zlib : Verified .zlibNoHdrVer

def CrcFlag.trailerSize : CrcFlag → Nat
  | .gzip | .gzipNoHdrVer => 8
  | .zlib | .zlibNoHdrVer => 4
  | _ => 0

/-- The trailer of some output: its CRC-32 and its length with the low bytes first, or its Adler-32 with the high byte first -/
def CrcFlag.trailer (out : List UInt8) : CrcFlag → List UInt8
  | .gzip | .gzipNoHdrVer => toLeBytes (crc32 out) 4 ++ toLeBytes out.length 4
  | .zlib | .zlibNoHdrVer => (toLeBytes (Rfc1950.adler32 1 0 out) 4).reverse
  | _ => []

/-- The checksum while the stream goes on -/
def CrcFlag.Summed (crc : Nat) (out : List UInt8) : CrcFlag → Prop
  | .gzipNoHdrVer => crc = crc32 out
  | .zlibNoHdrVer => plain crc = adler32 1 out ∧ crc % 2 ^ 16 < 65521
  | _ => False

/-- The checksum once the stream has ended -/
def CrcFlag.Final (crc : Nat) (out : List UInt8) : CrcFlag → Prop
  | .gzipNoHdrVer => crc = crc32 out
  | .zlibNoHdrVer => crc = Rfc1950.adler32 1 0 out
  | _ => False

variable {flag : CrcFlag} {s : InflateState} {out bytes rest : List UInt8} {crc : Nat}

theorem crc32_lt (buf : List UInt8) : crc32 buf < 2 ^ 32 := by
  rw [← crc32GzipRefl_eq]
  have bits := crc32GzipRefl_toNat 0 buf
  exact bits ▸ BitVec.isLt _

theorem adler32_lt (buf : List UInt8) : Rfc1950.adler32 1 0 buf < 2 ^ 32 := by
  have low : Rfc1950.s1 1 buf < 65521 := Nat.mod_lt _ (by decide)
  have high : Rfc1950.s2 1 0 buf < 65521 := Nat.mod_lt _ (by decide)
  rw [Rfc1950.adler32]
  omega

theorem CrcFlag.Summed.start (verified : flag.Verified) : flag.Summed 0 [] := by
  cases verified with
  | gzip => rfl
  | zlib => exact ⟨by rw [adler32_eq]; rfl, by decide⟩

theorem CrcFlag.Summed.append (verified : flag.Verified) (isFlag : s.crcFlag = flag) (sum : flag.Summed s.crc out) :
    flag.Summed (updateChecksum bytes s).crc (out ++ bytes) := by
  cases verified with
  | gzip =>
    have sum : s.crc = crc32 out := sum
    have next : (updateChecksum bytes s).crc = crc32 (out ++ bytes) := by
      simp only [updateChecksum, isFlag]
      rw [sum, ← crc32GzipRefl_eq, crc32GzipRefl_append, crc32GzipRefl_eq]
    exact next
  | zlib =>
    obtain ⟨same, stored⟩ : plain s.crc = adler32 1 out ∧ s.crc % 2 ^ 16 < 65521 := sum
    obtain ⟨next, stored'⟩ := isalAdler32Bam1_plain stored bytes
    have after : (updateChecksum bytes s).crc = isalAdler32Bam1 s.crc bytes := by
      simp only [updateChecksum, isFlag]
    rw [after]
    exact ⟨by rw [next, same, adler32_append], stored'⟩

theorem finalizeAdler32_plain (s : InflateState) : finalizeAdler32 s = { s with crc := plain s.crc } := by
  have low : (s.crc % 2 ^ 16 + 1) % 65521 < 2 ^ 16 := Nat.lt_trans (Nat.mod_lt _ (by decide)) (by decide)
  rw [finalizeAdler32, adlerMod, ← Nat.shiftLeft_eq, ← Nat.shiftLeft_add_eq_or_of_lt low, Nat.shiftLeft_eq]
  rfl

/-- The fields of a trailer are its number. -/
theorem gzipTrailer_iff (out : List UInt8) (whole : bytes.length = 8) :
    bytesVal bytes = crc32 out ||| (UInt32.ofNat out.length).toNat <<< 32 ↔ bytes = toLeBytes (crc32 out) 4 ++ toLeBytes out.length 4 := by
  have small := crc32_lt out
  have value : bytesVal (toLeBytes (crc32 out) 4 ++ toLeBytes out.length 4) = crc32 out ||| (UInt32.ofNat out.length).toNat <<< 32 := by
    rw [bytesVal_append, bytesVal_toLeBytes, bytesVal_toLeBytes, toLeBytes_length, Nat.or_comm, ← Nat.shiftLeft_add_eq_or_of_lt small,
      Nat.shiftLeft_eq, UInt32.toNat_ofNat']
    omega
  rw [← value]
  exact ⟨fun same => bytesVal_inj (by rw [whole, List.length_append, toLeBytes_length, toLeBytes_length]) same, fun same => congrArg bytesVal same⟩

theorem zlibTrailer_iff (out : List UInt8) (whole : bytes.length = 4) :
    bytesVal bytes.reverse = Rfc1950.adler32 1 0 out ↔ bytes = (toLeBytes (Rfc1950.adler32 1 0 out) 4).reverse := by
  have small := adler32_lt out
  have value : bytesVal (toLeBytes (Rfc1950.adler32 1 0 out) 4) = Rfc1950.adler32 1 0 out := by
    rw [bytesVal_toLeBytes, Nat.mod_eq_of_lt small]
  constructor
  · intro same
    have reversed := bytesVal_inj (by rw [List.length_reverse, whole, toLeBytes_length]) (same.trans value.symm)
    rw [← reversed, List.reverse_reverse]
  · rintro rfl
    rw [List.reverse_reverse, value]

theorem TrailerRead.few {n : Nat} {good : Prop} {result : ReturnCode × InflateState} (h : TrailerRead n s rest good result) :
    result.2.crcFlag = s.crcFlag ∧ result.2.crc = s.crc := by
  cases h with
  | short _ _ _ _ _ frame =>
    obtain ⟨inp, tmpIn, -, rfl⟩ := frame
    exact ⟨rfl, rfl⟩
  | right _ _ _ _ _ _ frame =>
    obtain ⟨inp, tmpIn, -, rfl⟩ := frame
    exact ⟨rfl, rfl⟩
  | wrong _ _ _ _ _ _ frame =>
    obtain ⟨inp, tmpIn, -, rfl⟩ := frame
    exact ⟨rfl, rfl⟩

/-- The check goes on where a call has ended within the trailer. -/
theorem resumeTrailer_spec (verified : flag.Verified) (isFlag : s.crcFlag = flag) (trailing : Trailing s rest)
    (short : s.tmpIn.length < flag.trailerSize) (final : flag.Final s.crc out) (total : s.totalOut = .ofNat out.length) :
    TrailerRead flag.trailerSize s rest (rest.take flag.trailerSize = flag.trailer out) (resumeTrailer s) := by
  rw [resumeTrailer, isFlag]
  cases verified with
  | gzip =>
    have sum : s.crc = crc32 out := final
    have read := checkGzipChecksum_spec trailing short
    rw [sum, total] at read
    exact read.imp fun enough => gzipTrailer_iff out (by rw [List.length_take, Nat.min_eq_left enough])
  | zlib =>
    have sum : s.crc = Rfc1950.adler32 1 0 out := final
    have read := checkZlibChecksum_spec trailing short
    rw [sum] at read
    exact read.imp fun enough => zlibTrailer_iff out (by rw [List.length_take, Nat.min_eq_left enough])

/-- The check at the end of the stream -/
theorem checkTrailer_spec (verified : flag.Verified) (isFlag : s.crcFlag = flag) (trailing : Trailing s rest) (none_ : s.tmpIn = [])
    (sum : flag.Summed s.crc out) (total : s.totalOut = .ofNat out.length) :
    ∃ crc, flag.Final crc out ∧
      TrailerRead flag.trailerSize { s with crc } rest (rest.take flag.trailerSize = flag.trailer out) (checkTrailer s) := by
  cases verified with
  | gzip =>
    have checked : checkTrailer s = resumeTrailer s := by simp only [checkTrailer, resumeTrailer, isFlag]
    rw [checked]
    exact ⟨s.crc, sum, resumeTrailer_spec .gzip isFlag trailing (by rw [none_]; decide) sum total⟩
  | zlib =>
    obtain ⟨same, -⟩ : plain s.crc = adler32 1 out ∧ s.crc % 2 ^ 16 < 65521 := sum
    have final : plain s.crc = Rfc1950.adler32 1 0 out := same.trans (adler32_eq 1 out)
    have trailing' : Trailing { s with crc := plain s.crc } rest :=
      ⟨trailing.within, trailing.nonneg, trailing.small, trailing.content, trailing.either⟩
    have checked : checkTrailer s = resumeTrailer { s with crc := plain s.crc } := by
      simp only [checkTrailer, resumeTrailer, isFlag, finalizeAdler32_plain]
    rw [checked]
    exact ⟨plain s.crc, final, resumeTrailer_spec .zlib isFlag trailing' (by rw [none_]; decide) final total⟩

end Sums

end Isal.Inflate
