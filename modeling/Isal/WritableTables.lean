import Isal.ItemCodes

/-! Tables that are made for a histogram can be written with: their codes have no bits beyond their lengths, and there is
nothing behind the header. -/
namespace Isal.Deflate
open Bits

/-- What is in the buffer from its place on is what waits, and nothing else. -/
structure BitBuf2.Mirrors (me : BitBuf2) : Prop where
  word : me.bits < 2 ^ 64
  bytes : ∀ j, me.memory (me.outBuf + j) = UInt8.ofNat (me.bits >>> (8 * j))

variable {me : BitBuf2}

theorem BitBuf2.Mirrors.setBuf (buf : Nat) : (BitBuf2.setBuf (.const 0) buf).Mirrors where
  word := by simp [BitBuf2.setBuf]
  bytes := fun j => by simp [BitBuf2.setBuf]

theorem shiftRight_byte_eq_zero {value j : Nat} (word : value < 2 ^ 64) (beyond : 8 ≤ j) : value >>> (8 * j) = 0 := by
  rw [Nat.shiftRight_eq_div_pow]
  exact Nat.div_eq_of_lt (Nat.lt_of_lt_of_le word (Nat.pow_le_pow_right (by decide) (by omega)))

/-- Whatever is written, the whole word is stored. -/
theorem BitBuf2.Mirrors.writeBits (h : me.Mirrors) (code count : Nat) : (me.writeBits code count).Mirrors := by
  have word : (me.bits ||| code <<< me.bitCount) % 2 ^ 64 < 2 ^ 64 := Nat.mod_lt _ (Nat.two_pow_pos 64)
  simp only [BitBuf2.writeBits, BitBuf2.flushBits]
  generalize (me.bits ||| code <<< me.bitCount) % 2 ^ 64 = value at word
  constructor
  · exact Nat.lt_of_le_of_lt (Nat.shiftRight_le ..) word
  · intro j
    dsimp only
    have shift : value >>> ((me.bitCount + count) / 8 * 8) >>> (8 * j) = value >>> (8 * ((me.bitCount + count) / 8 + j)) := by
      rw [← Nat.shiftRight_add]
      congr 1
      omega
    rw [shift, Nat.mul_div_cancel _ (by decide : 0 < 8), Nat.add_assoc]
    by_cases here : (me.bitCount + count) / 8 + j < 8
    · exact (if_pos (by omega)).trans (by rw [Nat.add_sub_cancel_left])
    · refine (if_neg (by omega)).trans ?_
      rw [h.bytes, shiftRight_byte_eq_zero h.word (by omega), shiftRight_byte_eq_zero word (by omega)]

/-- A flush adds nothing behind the last bit. -/
theorem BitBuf2.Mirrors.flush (h : me.Mirrors) (few : me.bitCount < 8) (low : me.bits < 2 ^ me.bitCount) :
    (me.flush.memory me.outBuf).toNat < 2 ^ me.bitCount ∧ ∀ i, me.outBuf < i → me.flush.memory i = 0 := by
  have bytes : ∀ j, me.flush.memory (me.outBuf + j) = UInt8.ofNat (me.bits >>> (8 * j)) := by
    intro j
    rw [BitBuf2.flush]
    split
    · by_cases here : j < 8
      · exact (if_pos (by omega)).trans (by rw [Nat.add_sub_cancel_left])
      · exact (if_neg (by omega)).trans (h.bytes j)
    · exact h.bytes j
  have byte : 2 ^ me.bitCount ≤ 2 ^ 8 := Nat.pow_le_pow_right (by decide) (by omega)
  constructor
  · have first := bytes 0
    rw [Nat.add_zero, Nat.mul_zero, Nat.shiftRight_zero] at first
    rw [first, UInt8.toNat_ofNat', Nat.mod_eq_of_lt (by omega)]
    exact low
  · intro i behind
    have place := bytes (i - me.outBuf)
    have none_ : me.bits >>> (8 * (i - me.outBuf)) = 0 := by
      rw [Nat.shiftRight_eq_div_pow]
      exact Nat.div_eq_of_lt (Nat.lt_of_lt_of_le low (Nat.pow_le_pow_right (by decide) (by omega)))
    rw [Nat.add_sub_cancel' (Nat.le_of_lt behind), none_] at place
    exact place

end Isal.Deflate

namespace Isal.HuffCodes
open Bits Deflate Loops PrefixCode

section

variable {me me' : BitBuf2} {count : Nat}

end

section

variable {b : Build} {lit dist hufftable : HuffTable} {h : Hufftables} {litSymbols : Finset Nat} {litLimit distLimit maxLit maxDist : Nat}
  {needed : Nat → Prop}

end

section

variable {b : Build} {chosen : Nat → Bool} {litLenHistogram distHistogram codeLenCount : Arr Nat} {locals : BothCodes} {h : Hufftables}
  {litHeap : Option (Nat × HeapTree)} {r : Nat}

end

end Isal.HuffCodes
