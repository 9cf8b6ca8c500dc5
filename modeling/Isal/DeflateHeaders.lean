import Isal.BodyCalls
import Isal.DeflatePass
import Isal.SentBits

/-! The header of a block, as a stream puts it out at the start of a byte or within one. -/
namespace Isal.Deflate
open Inflate Bits HuffCodes Rfc1951

variable {me : BitBuf2} {code n k : Nat}

/-- Bits above those that are counted are written once more by the code that follows, so they do no harm. -/
theorem BitBuf2.writeBits_twice (few : me.bitCount < 8) (low : me.bits < 2 ^ me.bitCount) (short : n ≤ 56) (k : Nat) :
    (me.writeBits code n).writeBits (code >>> n) k = (me.writeBits (code % 2 ^ n) n).writeBits (code >>> n) k := by
  obtain ⟨bits, bitCount, memory, outBuf, outStart⟩ := me
  dsimp only at few low
  have clean : ∀ i, bitCount ≤ i → bits.testBit i = false := by
    intro i above
    exact Nat.testBit_lt_two_pow (Nat.lt_of_lt_of_le low (Nat.pow_le_pow_right (by decide) above))
  -- the whole bytes that go out first
  obtain ⟨whole, isWhole⟩ : ∃ whole, whole = (bitCount + n) / 8 * 8 := ⟨_, rfl⟩
  have agree : ∀ i < whole, (bits ||| code <<< bitCount).testBit i = (bits ||| (code % 2 ^ n) <<< bitCount).testBit i := by
    intro i below
    simp only [Nat.testBit_or, Nat.testBit_shiftLeft, Nat.testBit_mod_two_pow]
    by_cases here : bitCount ≤ i
    · have inside : i - bitCount < n := by omega
      simp [inside]
    · simp [here]
  have value : (((bits ||| code <<< bitCount) % 2 ^ 64) >>> whole ||| (code >>> n) <<< (bitCount + n - whole)) % 2 ^ 64 =
      (((bits ||| (code % 2 ^ n) <<< bitCount) % 2 ^ 64) >>> whole ||| (code >>> n) <<< (bitCount + n - whole)) % 2 ^ 64 := by
    apply Nat.eq_of_testBit_eq
    intro i
    simp only [Nat.testBit_mod_two_pow, Nat.testBit_or, Nat.testBit_shiftLeft, Nat.testBit_shiftRight]
    by_cases behind : bitCount + n - whole ≤ i
    · have same : n + (i - (bitCount + n - whole)) = whole + i - bitCount := by omega
      have past : ¬ whole + i - bitCount < n := by omega
      rw [same, clean (whole + i) (by omega)]
      cases code.testBit (whole + i - bitCount) <;> simp [past, behind]
    · have inside : whole + i - bitCount < n ∨ whole + i < bitCount := by omega
      rcases inside with inside | inside
      · simp [inside, behind]
      · simp [Nat.not_le.mpr inside, behind]
  have stored : ∀ w, storeLeU64 (storeLeU64 memory outBuf ((bits ||| code <<< bitCount) % 2 ^ 64)) (outBuf + whole / 8) w =
      storeLeU64 (storeLeU64 memory outBuf ((bits ||| (code % 2 ^ n) <<< bitCount) % 2 ^ 64)) (outBuf + whole / 8) w := by
    intro w
    simp only [storeLeU64, Arr.mk.injEq]
    funext i
    by_cases later : outBuf + whole / 8 ≤ i ∧ i < outBuf + whole / 8 + 8
    · rw [if_pos later, if_pos later]
    · rw [if_neg later, if_neg later]
      by_cases here : outBuf ≤ i ∧ i < outBuf + 8
      · rw [if_pos here, if_pos here]
        apply UInt8.toNat_inj.mp
        rw [UInt8.toNat_ofNat', UInt8.toNat_ofNat']
        apply Nat.eq_of_testBit_eq
        intro j
        simp only [Nat.testBit_mod_two_pow, Nat.testBit_shiftRight]
        by_cases byte : j < 8
        · rw [agree _ (by omega)]
        · simp [byte]
      · rw [if_neg here, if_neg here]
  simp only [BitBuf2.writeBits, BitBuf2.flushBits, ← isWhole]
  rw [value]
  simp only [stored]
section

variable {s : Zstream} {bits : List Bool}

/-- Room for a word behind the bits that have been written -/
theorem Zstream.Wrote.free (h : s.Wrote me bits) (room : (s.bitCount + bits.length) / 8 + 8 ≤ s.availOut) : ¬ s.isFull me := by
  have count := h.written.count
  have ahead := h.written.ahead
  rw [List.length_append, Zstream.waiting, lowBits_length] at count
  rw [Zstream.isFull]
  omega

/-- A word is written in halves. -/
theorem Zstream.Wrote.writeWord (h : s.Wrote me bits) (room : (s.bitCount + bits.length) / 8 + 16 ≤ s.availOut) {word : Nat}
    (small : word < 2 ^ 64) :
    s.Wrote ((me.writeBits word 32).writeBits (word >>> 32) 32) (bits ++ lowBits 64 word) := by
  have split : lowBits 64 word = lowBits 32 (word % 2 ^ 32) ++ lowBits 32 (word >>> 32) := by
    have joined : lowBits (32 + 32) (word % 2 ^ 32 + 2 ^ 32 * (word >>> 32)) = _ := lowBits_add 32 (Nat.mod_lt word (Nat.two_pow_pos 32)) 32
    rwa [Nat.shiftRight_eq_div_pow, Nat.mod_add_div, ← Nat.shiftRight_eq_div_pow] at joined
  rw [BitBuf2.writeBits_twice h.written.few h.written.bits_lt (by decide), split, ← List.append_assoc]
  have first := h.writeBits (h.free (by omega)) (Nat.mod_lt word (Nat.two_pow_pos 32)) (by decide)
  refine first.writeBits (first.free ?_) ?_ (by decide)
  · rw [List.length_append, lowBits_length]
    omega
  · rw [Nat.shiftRight_eq_div_pow]
    omega

/-- What waits may be stored once more. -/
theorem Zstream.Wrote.flushBits (h : s.Wrote me bits) (free : ¬ s.isFull me) : s.Wrote me.flushBits bits := by
  have few := h.written.few
  have ahead := h.written.ahead
  rw [Zstream.isFull] at free
  refine ⟨?_, ?_, ?_⟩
  · exact BitBuf2.flushBits_written h.written.origin ahead h.written.count (by omega) h.written.value
  · simp only [BitBuf2.flushBits]
    omega
  · intro i outside
    have same : me.flushBits.memory i = me.memory i := if_neg (by omega)
    rw [same, h.kept i outside]

end

section

variable {b : Build} {needed : Nat → Prop} {h : Hufftables} {codes : Codes} {s : DeflateStream} {width value : Nat} {tail : List Bool}

theorem lowBits_succ (width value : Nat) : lowBits (width + 1) value = decide (value % 2 = 1) :: lowBits width (value / 2) := by
  simp [lowBits, List.range_succ_eq_map, Function.comp_def, Nat.testBit_succ]

/-- The first bit is cleared. -/
theorem lowBits_cleared (odd : lowBits width value = true :: tail) :
    value % 2 = 1 ∧ lowBits width (value - 1) = false :: tail := by
  cases width with
  | zero => simp [lowBits] at odd
  | succ width =>
    rw [lowBits_succ, List.cons.injEq, decide_eq_true_iff] at odd
    obtain ⟨odd, rfl⟩ := odd
    have even : (value - 1) % 2 = 0 := by omega
    have half : (value - 1) / 2 = value / 2 := by omega
    rw [lowBits_succ, even, half]
    exact ⟨odd, rfl⟩

theorem byteBits_cleared {byte : UInt8} (odd : byteBits byte = true :: tail) :
    byteBits (byte - 1) = false :: tail ∧ byteBits (byte ^^^ 1) = false :: tail := by
  have small := byte.toNat_lt
  obtain ⟨low, cleared⟩ := lowBits_cleared (show lowBits 8 byte.toNat = true :: tail from odd)
  have less : (byte - 1).toNat = byte.toNat - 1 := by
    rw [UInt8.toNat_sub]
    simp
    omega
  have flipped : (byte ^^^ 1).toNat = byte.toNat - 1 := by
    rw [UInt8.toNat_xor]
    exact Nat.xor_one_of_odd (Nat.odd_iff.mpr low)
  constructor
  · rw [byteBits, less]
    exact cleared
  · rw [byteBits, flipped]
    exact cleared

/-- The stored header is whole bytes and the bits of one more. -/
theorem headerBits_split (short : h.deflateHdrCount < 328) (few : h.deflateHdrExtraBits < 8) : h.headerBits =
    bytesBits (bytesAt h.deflateHdr 0 h.deflateHdrCount) ++ lowBits h.deflateHdrExtraBits (h.deflateHdr h.deflateHdrCount).toNat := by
  have whole : 328 = h.deflateHdrCount + (1 + (327 - h.deflateHdrCount)) := by omega
  have byte : bytesAt h.deflateHdr h.deflateHdrCount 1 = [h.deflateHdr h.deflateHdrCount] := by simp [bytesAt]
  rw [Hufftables.headerBits, whole, bytesAt_add, bytesAt_add, Nat.zero_add, byte, bytesBits_append, List.take_append,
    bytesBits_length, bytesAt_length, List.take_of_length_le (by simp), Nat.add_sub_cancel_left]
  congr 1
  apply bitsVal_inj
  · simp
    omega
  · rw [bytesBits_append, List.take_append_of_le_length (by simp; omega), bitsVal_take, bitsVal_lowBits]
    simp [bitsVal_byteBits]

/-- The header with its first bit cleared: the bit is in the first byte, or in the bits behind the last one. -/
theorem header_cleared (tables : Consistent b needed h codes) (writable : Writable b needed h) (flip : UInt8 → UInt8)
    (clears : ∀ {byte : UInt8} {tail : List Bool}, byteBits byte = true :: tail → byteBits (flip byte) = false :: tail) :
    bytesBits ((bytesAt h.deflateHdr 0 h.deflateHdrCount).modifyHead flip) ++ lowBits h.deflateHdrExtraBits
      (if h.deflateHdrCount = 0 then (h.deflateHdr h.deflateHdrCount).toNat - 1 else (h.deflateHdr h.deflateHdrCount).toNat) =
        h.blockHeader false := by
  have split := headerBits_split writable.header tables.extraBits
  rw [tables.headerBits_eq] at split
  rw [Hufftables.blockHeader]
  rw [Hufftables.blockHeader] at split
  cases count : h.deflateHdrCount with
  | zero =>
    rw [count] at split
    simpa [bytesAt] using (lowBits_cleared (by simpa [bytesAt] using split.symm)).2
  | succ count' =>
    have first : bytesAt h.deflateHdr 0 (count' + 1) = h.deflateHdr 0 :: bytesAt h.deflateHdr 1 count' := by
      rw [Nat.add_comm, bytesAt_add]
      simp [bytesAt]
    rw [count, first, bytesBits_cons] at split
    rw [first, List.modifyHead_cons, bytesBits_cons, if_neg (by omega)]
    cases bits : byteBits (h.deflateHdr 0) with
    | nil =>
      have length := byteBits_length (h.deflateHdr 0)
      simp [bits] at length
    | cons odd tail =>
      rw [bits, List.cons_append, List.cons_append, List.cons.injEq] at split
      obtain ⟨rfl, rest⟩ := split
      rw [clears bits, rest]
      simp

/-- A header has been put out, or there was no room for it. -/
structure HeaderSent (s t : DeflateStream) (h : Hufftables) : Prop where
  emits : Emits s.toZstream t.toZstream (h.blockHeader (decide (s.endOfStream ≠ 0)))
  frame : t = { s with
    toOutStream := t.toOutStream
    bits := t.bits
    bitCount := t.bitCount
    state := .body
    hasEobHdr := if s.endOfStream ≠ 0 then 1 else s.hasEobHdr }

theorem writeDeflateHeaderStateless_spec (tables : Consistent b needed s.hufftables codes) (writable : Writable b needed s.hufftables)
    (clean : s.Clean) (aligned : s.bitCount = 0) : writeDeflateHeaderStateless s = s ∨
      HeaderSent s (writeDeflateHeaderStateless s) s.hufftables := by
  rw [writeDeflateHeaderStateless]
  dsimp only
  by_cases room : s.availOut ≤ s.hufftables.deflateHdrCount + 8
  · exact .inl (if_pos room)
  · right
    rw [if_neg room]
    obtain ⟨bytes, isBytes⟩ : ∃ bytes, bytes = if s.endOfStream ≠ 0 then bytesAt s.hufftables.deflateHdr 0 s.hufftables.deflateHdrCount
      else (bytesAt s.hufftables.deflateHdr 0 s.hufftables.deflateHdrCount).modifyHead (· - 1) := ⟨_, rfl⟩
    obtain ⟨extra, isExtra⟩ : ∃ extra, extra = if ¬s.endOfStream ≠ 0 ∧ s.hufftables.deflateHdrCount = 0 then
      (s.hufftables.deflateHdr s.hufftables.deflateHdrCount).toNat - 1
        else (s.hufftables.deflateHdr s.hufftables.deflateHdrCount).toNat := ⟨_, rfl⟩
    have length : bytes.length = s.hufftables.deflateHdrCount := by
      rw [isBytes]
      split <;> simp
    have small : extra < 2 ^ s.hufftables.deflateHdrExtraBits := by
      have bound := writable.extraBits
      rw [isExtra]
      split <;> omega
    have header : bytesBits bytes ++ lowBits s.hufftables.deflateHdrExtraBits extra =
        s.hufftables.blockHeader (decide (s.endOfStream ≠ 0)) := by
      rw [isBytes, isExtra]
      by_cases last : s.endOfStream ≠ 0
      · rw [if_pos last, if_neg (by tauto), decide_eq_true last, ← tables.headerBits_eq,
          headerBits_split writable.header tables.extraBits]
      · rw [if_neg last, decide_eq_false last, ← header_cleared tables writable (· - 1) fun odd => (byteBits_cleared odd).1]
        simp only [last, not_false_eq_true, true_and]
    rw [← isBytes, ← isExtra]
    have sent := Emits.ofPut clean aligned (by omega : bytes.length ≤ s.availOut)
    have left : (s.toZstream.put bytes).availOut = s.availOut - bytes.length := rfl
    have few := tables.extraBits
    have start := Zstream.Wrote.start sent.clean
    have free : ¬ (s.toZstream.put bytes).isFull (s.toZstream.put bytes).bitbuf := by
      refine start.free ?_
      have none_ : (s.toZstream.put bytes).bitCount = 0 := aligned
      rw [none_, left, length]
      simp only [List.length_nil]
      omega
    have wrote := start.writeBits free small (by omega)
    have emits := sent.trans wrote.emits
    rw [List.nil_append, header] at emits
    exact ⟨emits.congr rfl rfl rfl, rfl⟩

theorem lowBits_loadLeU64 (memory : Arr UInt8) (p : Nat) : lowBits 64 (loadLeU64 memory p) = bytesBits (bytesAt memory p 8) := by
  apply bitsVal_inj
  · simp
  · rw [bitsVal_lowBits, loadLeU64, bitsVal_bytesBits]
    have bound := bytesVal_lt (bytesAt memory p 8)
    rw [bytesAt_length] at bound
    exact Nat.mod_eq_of_lt bound

theorem loadLeU64_lt (memory : Arr UInt8) (p : Nat) : loadLeU64 memory p < 2 ^ 64 := by
  have bound := bytesVal_lt (bytesAt memory p 8)
  rwa [bytesAt_length] at bound

/-- The words that have been written and the one that comes next are those of the header. -/
theorem writeHeaderWords_wrote {z : Zstream} (deflateHdr : Arr UInt8) (left headerNext : Nat) {headerBits : Nat} {me : BitBuf2}
    {bits : List Bool} (h : z.Wrote me bits) (small : headerBits < 2 ^ 64)
    (room : (z.bitCount + bits.length + 64 * left) / 8 + 8 ≤ z.availOut) : ∃ written,
      z.Wrote (writeHeaderWords deflateHdr left headerNext headerBits me).2 (bits ++ written) ∧ written.length = 64 * left ∧
        written ++ lowBits 64 (writeHeaderWords deflateHdr left headerNext headerBits me).1 =
          lowBits 64 headerBits ++ bytesBits (bytesAt deflateHdr headerNext (8 * left)) ∧
        (writeHeaderWords deflateHdr left headerNext headerBits me).1 < 2 ^ 64 := by
  induction left generalizing headerNext headerBits me bits with
  | zero => exact ⟨[], by simpa [writeHeaderWords] using h, rfl, by simp [writeHeaderWords, bytesAt], small⟩
  | succ left ih =>
    have word := h.writeWord (by omega) small
    obtain ⟨written, wrote, length, split, bound⟩ := ih (headerNext + 8) word (loadLeU64_lt deflateHdr headerNext)
      (by simp only [List.length_append, lowBits_length]; omega)
    refine ⟨lowBits 64 headerBits ++ written, by simpa [writeHeaderWords] using wrote, by simp [length]; omega, ?_, bound⟩
    have more : 8 * (left + 1) = 8 + 8 * left := by omega
    rw [writeHeaderWords, List.append_assoc, split, lowBits_loadLeU64, more, bytesAt_add, bytesBits_append]

/-- Up to a whole word is written, if need be in two parts. -/
theorem Zstream.Wrote.writeLong {z : Zstream} {me : BitBuf2} {bits : List Bool} {headerBits bitCount : Nat} (h : z.Wrote me bits)
    (small : headerBits < 2 ^ bitCount) (few : bitCount ≤ 64) (room : (z.bitCount + bits.length + 56) / 8 + 8 ≤ z.availOut) :
    z.Wrote (if maxBitbufBitWrite < bitCount then (me.writeBits headerBits 56).writeBits (headerBits >>> 56) (bitCount - 56)
      else me.writeBits headerBits bitCount) (bits ++ lowBits bitCount headerBits) := by
  have free := h.free (by omega)
  rw [maxBitbufBitWrite]
  by_cases long : 56 < bitCount
  · have split : lowBits (56 + (bitCount - 56)) (headerBits % 2 ^ 56 + 2 ^ 56 * (headerBits >>> 56)) = _ :=
      lowBits_add 56 (Nat.mod_lt headerBits (Nat.two_pow_pos 56)) (bitCount - 56)
    rw [Nat.shiftRight_eq_div_pow, Nat.mod_add_div, ← Nat.shiftRight_eq_div_pow, Nat.add_sub_cancel' (by omega)] at split
    rw [if_pos long, BitBuf2.writeBits_twice h.written.few h.written.bits_lt (by decide), split, ← List.append_assoc]
    have first := h.writeBits free (Nat.mod_lt headerBits (Nat.two_pow_pos 56)) (by decide)
    refine first.writeBits (first.free ?_) ?_ (by omega)
    · rw [List.length_append, lowBits_length]
      omega
    · rw [Nat.shiftRight_eq_div_pow, Nat.div_lt_iff_lt_mul (Nat.two_pow_pos 56), ← Nat.pow_add, Nat.sub_add_cancel (by omega)]
      exact small
  · rw [if_neg long]
    exact h.writeBits free small (by omega)

/-- The words of the header are its bits, and zeros behind them. -/
theorem header_words (tables : Consistent b needed h codes) (writable : Writable b needed h) :
    lowBits 64 (loadLeU64 h.deflateHdr 0) ++ bytesBits (bytesAt h.deflateHdr 8 (8 * (h.deflateHdrCount / 8))) =
      h.blockHeader true ++ List.replicate (64 + 64 * (h.deflateHdrCount / 8) - (8 * h.deflateHdrCount + h.deflateHdrExtraBits)) false := by
  have split := headerBits_split writable.header tables.extraBits
  have few := tables.extraBits
  have low := writable.extraBits
  have small := (h.deflateHdr h.deflateHdrCount).toNat_lt
  obtain ⟨more, isMore⟩ : ∃ more, 8 + 8 * (h.deflateHdrCount / 8) = h.deflateHdrCount + (1 + more) :=
    ⟨8 + 8 * (h.deflateHdrCount / 8) - (h.deflateHdrCount + 1), by omega⟩
  have zeros : bytesAt h.deflateHdr (h.deflateHdrCount + 1) more = List.replicate more 0 := by
    apply List.ext_getElem
    · simp
    · intro i inside inside'
      simp only [bytesAt, List.getElem_map, List.getElem_range, List.getElem_replicate]
      rw [bytesAt_length] at inside
      exact writable.behind _ (by omega) (by omega)
  have byte : bytesAt h.deflateHdr h.deflateHdrCount 1 = [h.deflateHdr h.deflateHdrCount] := by simp [bytesAt]
  have rest : 64 + 64 * (h.deflateHdrCount / 8) - (8 * h.deflateHdrCount + h.deflateHdrExtraBits) =
      8 - h.deflateHdrExtraBits + 8 * more := by omega
  have last : byteBits (h.deflateHdr h.deflateHdrCount) =
      lowBits h.deflateHdrExtraBits (h.deflateHdr h.deflateHdrCount).toNat ++ List.replicate (8 - h.deflateHdrExtraBits) false := by
    apply bitsVal_inj
    · simp
      omega
    · rw [bitsVal_byteBits, bitsVal_append, bitsVal_zeros, bitsVal_lowBits_of_lt low, Nat.mul_zero, Nat.add_zero]
  rw [lowBits_loadLeU64, ← bytesBits_append, ← tables.headerBits_eq, split, rest]
  have whole := bytesAt_add h.deflateHdr 0 8 (8 * (h.deflateHdrCount / 8))
  rw [Nat.zero_add] at whole
  rw [← whole, isMore, bytesAt_add, bytesAt_add, Nat.zero_add, byte, zeros, bytesBits_append, bytesBits_append, bytesBits_zeros,
    bytesBits_cons, bytesBits_nil, List.append_nil, last]
  rw [List.replicate_add, List.append_assoc, List.append_assoc]

/-- The words of the header of a block that is the last one or not -/
theorem header_words_toggled (tables : Consistent b needed h codes) (writable : Writable b needed h) (last : Bool) :
    lowBits 64 (if last then loadLeU64 h.deflateHdr 0 else (loadLeU64 h.deflateHdr 0 + 2 ^ 64 - 1) % 2 ^ 64) ++
      bytesBits (bytesAt h.deflateHdr 8 (8 * (h.deflateHdrCount / 8))) = h.blockHeader last ++
        List.replicate (64 + 64 * (h.deflateHdrCount / 8) - (8 * h.deflateHdrCount + h.deflateHdrExtraBits)) false := by
  have words := header_words tables writable
  cases last with
  | true => exact words
  | false =>
    have small := loadLeU64_lt h.deflateHdr 0
    cases bits : lowBits 64 (loadLeU64 h.deflateHdr 0) with
    | nil =>
      have length := lowBits_length 64 (loadLeU64 h.deflateHdr 0)
      simp [bits] at length
    | cons first tail =>
      rw [bits, Hufftables.blockHeader, List.cons_append, List.cons_append, List.cons.injEq] at words
      obtain ⟨rfl, rest⟩ := words
      obtain ⟨odd, cleared⟩ := lowBits_cleared bits
      have less : (loadLeU64 h.deflateHdr 0 + 2 ^ 64 - 1) % 2 ^ 64 = loadLeU64 h.deflateHdr 0 - 1 := by omega
      rw [if_neg (by simp), less, cleared, Hufftables.blockHeader, List.cons_append, List.cons_append, rest]

/-- Words that hold the bits `front` and zeros behind them: what is left for the last one -/
theorem lastWord_bits {written front : List Bool} {word n k : Nat} (split : written ++ lowBits 64 word = front ++ List.replicate n false)
    (length : front.length = written.length + k) (small : word < 2 ^ 64) :
    word < 2 ^ k ∧ written ++ lowBits k word = front := by
  obtain ⟨first, rest, rfl, size⟩ : ∃ first rest, front = first ++ rest ∧ first.length = written.length :=
    ⟨front.take written.length, front.drop written.length, (List.take_append_drop _ _).symm, by simp; omega⟩
  rw [List.append_assoc] at split
  obtain ⟨rfl, last⟩ := List.append_inj split size.symm
  have width : rest.length = k := by
    rw [List.length_append] at length
    omega
  have value := congrArg bitsVal last
  rw [bitsVal_lowBits_of_lt small, bitsVal_append, bitsVal_zeros, Nat.mul_zero, Nat.add_zero] at value
  rw [value, ← width, lowBits_bitsVal]
  exact ⟨bitsVal_lt rest, rfl⟩

theorem blockHeader_length (tables : Consistent b needed h codes) (writable : Writable b needed h) (last : Bool) :
    (h.blockHeader last).length = 8 * h.deflateHdrCount + h.deflateHdrExtraBits := by
  have split := headerBits_split writable.header tables.extraBits
  rw [tables.headerBits_eq] at split
  have same : (h.blockHeader last).length = (h.blockHeader true).length := rfl
  rw [same, split]
  simp

/-- The header goes out wherever the bits before it have ended, if there is room. -/
theorem writeDeflateHeaderUnalignedStateless_spec (tables : Consistent b needed s.hufftables codes)
    (writable : Writable b needed s.hufftables) (clean : s.Clean) : writeDeflateHeaderUnalignedStateless s = s ∨
      HeaderSent s (writeDeflateHeaderUnalignedStateless s) s.hufftables := by
  rw [writeDeflateHeaderUnalignedStateless]
  dsimp only
  by_cases aligned : s.bitCount = 0
  · rw [if_pos aligned]
    exact writeDeflateHeaderStateless_spec tables writable clean aligned
  rw [if_neg aligned]
  by_cases room : s.availOut ≤ s.hufftables.deflateHdrCount + 16
  · exact .inl (if_pos room)
  right
  rw [if_neg room]
  have few := clean.few
  have extra := tables.extraBits
  have total := blockHeader_length tables writable (decide (s.endOfStream ≠ 0))
  have words := header_words_toggled tables writable (decide (s.endOfStream ≠ 0))
  have first : (if decide (s.endOfStream ≠ 0) = true then loadLeU64 s.hufftables.deflateHdr 0
      else (loadLeU64 s.hufftables.deflateHdr 0 + 2 ^ 64 - 1) % 2 ^ 64) < 2 ^ 64 := by
    split
    · exact loadLeU64_lt _ _
    · exact Nat.mod_lt _ (Nat.two_pow_pos 64)
  simp only [decide_eq_true_iff] at words first
  obtain ⟨written, wrote, length, split, small⟩ := writeHeaderWords_wrote s.hufftables.deflateHdr (s.hufftables.deflateHdrCount / 8)
    8 (Zstream.Wrote.start clean) first (by simp only [List.length_nil]; omega)
  rw [words] at split
  generalize writeHeaderWords s.hufftables.deflateHdr (s.hufftables.deflateHdrCount / 8) 8 _ s.bitbuf = result at wrote split small
  obtain ⟨headerBits, me⟩ := result
  obtain ⟨low, whole⟩ := lastWord_bits (k := s.hufftables.deflateHdrCount % 8 * 8 + s.hufftables.deflateHdrExtraBits) split
    (by omega) small
  rw [List.nil_append] at wrote
  have last := wrote.writeLong low (by omega) (by omega)
  rw [whole] at last
  have stored := last.flushBits (last.free (by omega))
  have spaced : ∀ me' : BitBuf2, me'.bitCount < 8 → me'.checkSpace forceFlush = me'.flushBits := by
    intro me' few'
    rw [BitBuf2.checkSpace, forceFlush, if_pos (by omega)]
  rw [← spaced _ last.written.few] at stored
  have sent : HeaderSent s { s.setBitbuf ((if maxBitbufBitWrite < s.hufftables.deflateHdrCount % 8 * 8 + s.hufftables.deflateHdrExtraBits then
      (me.writeBits headerBits 56).writeBits (headerBits >>> 56) (s.hufftables.deflateHdrCount % 8 * 8 + s.hufftables.deflateHdrExtraBits - 56)
        else me.writeBits headerBits (s.hufftables.deflateHdrCount % 8 * 8 + s.hufftables.deflateHdrExtraBits)).checkSpace forceFlush) with
      hasEobHdr := if s.endOfStream ≠ 0 then 1 else s.hasEobHdr
      state := .body } s.hufftables := ⟨stored.emits.congr rfl rfl rfl, rfl⟩
  by_cases long : maxBitbufBitWrite < s.hufftables.deflateHdrCount % 8 * 8 + s.hufftables.deflateHdrExtraBits
  · simp only [long, if_true] at sent ⊢
    exact sent
  · simp only [long, if_false] at sent ⊢
    exact sent

end

end Isal.Deflate
