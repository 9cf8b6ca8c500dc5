import Isal.ErasureCode

/-! The tables of a coding matrix: thirty-two products of each coefficient, of which the base
functions read the second, the coefficient itself. -/
namespace Isal.Erasure
open Loops

theorem storeWord_get (tbl : Arr UInt8) (at_ : Nat) (w : UInt64) (p : Nat) :
    (storeWord tbl at_ w) p =
      if at_ ≤ p ∧ p < at_ + 8 then (w >>> (8 * (p - at_)).toUInt64).toUInt8 else tbl p := by
  rw [storeWord]
  apply forRange_invariant (fun i (t : Arr UInt8) => t p =
    if at_ ≤ p ∧ p < at_ + i then (w >>> (8 * (p - at_)).toUInt64).toUInt8 else tbl p) (Nat.zero_le 8)
  · rw [if_neg (by omega)]
  · intro i t _ _ before
    rw [Arr.set_get]
    split
    · rename_i here
      rw [if_pos (by omega), show p - at_ = i by omega]
    · rename_i other
      rw [before]
      by_cases low : at_ ≤ p ∧ p < at_ + i
      · rw [if_pos low, if_pos (by omega)]
      · rw [if_neg low, if_neg (by omega)]

/-- The byte of `c` times a word of zero and one bytes. -/
theorem spread_byte (c : UInt8) : ∀ i < 8,
    ((c.toUInt64 * 0x0100010001000100) >>> (8 * i).toUInt64).toUInt8 = (if i.testBit 0 then c else 0) ∧
    ((c.toUInt64 * 0x0101000001010000) >>> (8 * i).toUInt64).toUInt8 = (if i.testBit 1 then c else 0) ∧
    ((c.toUInt64 * 0x0101010100000000) >>> (8 * i).toUInt64).toUInt8 = (if i.testBit 2 then c else 0) ∧
    ((c.toUInt64 * 0x0101010101010101) >>> (8 * i).toUInt64).toUInt8 = c := by
  revert c
  exact every_byte (by decide +kernel)

/-- The sum of `c`, `2c`, `4c` and `8c` that the bits of `i` select. -/
def selected (c : UInt8) (i : Nat) : UInt8 :=
  (if i.testBit 0 then c else 0) ^^^ (if i.testBit 1 then gfDouble c else 0) ^^^
    (if i.testBit 2 then gfDouble (gfDouble c) else 0) ^^^
    (if i.testBit 3 then gfDouble (gfDouble (gfDouble c)) else 0)

theorem lowWord_byte (c : UInt8) {i : Nat} (within : i < 8) :
    ((c.toUInt64 * 0x0100010001000100 ^^^ (gfDouble c).toUInt64 * 0x0101000001010000 ^^^
      (gfDouble (gfDouble c)).toUInt64 * 0x0101010100000000) >>> (8 * i).toUInt64).toUInt8 =
      selected c i := by
  have clear : i.testBit 3 = false := Nat.testBit_lt_two_pow within
  simp only [UInt64.shiftRight_xor, UInt64.toUInt8_xor, (spread_byte c i within).1,
    (spread_byte (gfDouble c) i within).2.1, (spread_byte (gfDouble (gfDouble c)) i within).2.2.1,
    selected, clear]
  simp

theorem highWord_byte (c : UInt8) {i : Nat} (within : i < 8) :
    (((gfDouble (gfDouble (gfDouble c))).toUInt64 * 0x0101010101010101 ^^^
      (c.toUInt64 * 0x0100010001000100 ^^^ (gfDouble c).toUInt64 * 0x0101000001010000 ^^^
        (gfDouble (gfDouble c)).toUInt64 * 0x0101010100000000)) >>> (8 * i).toUInt64).toUInt8 =
      selected c (i + 8) := by
  rw [UInt64.shiftRight_xor, UInt64.toUInt8_xor, lowWord_byte c within,
    (spread_byte (gfDouble (gfDouble (gfDouble c))) i within).2.2.2, UInt8.xor_comm]
  have bits : (i + 8).testBit 0 = i.testBit 0 ∧ (i + 8).testBit 1 = i.testBit 1 ∧
      (i + 8).testBit 2 = i.testBit 2 ∧ (i + 8).testBit 3 = true ∧ i.testBit 3 = false := by
    revert i
    decide
  simp only [selected, bits.1, bits.2.1, bits.2.2.1, bits.2.2.2.1, bits.2.2.2.2]
  simp

/-- What is written for one coefficient, and that nothing else is. -/
theorem gfVectMulInitBase_get (c : UInt8) (tbl : Arr UInt8) (at_ p : Nat) :
    (gfVectMulInitBase c tbl at_) p =
      if at_ ≤ p ∧ p < at_ + 16 then selected c (p - at_)
      else if at_ + 16 ≤ p ∧ p < at_ + 32 then
        selected (gfDouble (gfDouble (gfDouble (gfDouble c)))) (p - (at_ + 16))
      else tbl p := by
  simp only [gfVectMulInitBase, storeWord_get]
  rcases Nat.lt_or_ge p at_ with low | low
  · rw [if_neg (by omega), if_neg (by omega), if_neg (by omega), if_neg (by omega),
      if_neg (by omega), if_neg (by omega)]
  rcases Nat.lt_or_ge p (at_ + 8) with first | first
  · rw [if_neg (by omega), if_neg (by omega), if_neg (by omega), if_pos (by omega), if_pos (by omega)]
    exact lowWord_byte c (by omega)
  rcases Nat.lt_or_ge p (at_ + 16) with second | second
  · rw [if_neg (by omega), if_neg (by omega), if_pos (by omega), if_pos (by omega),
      highWord_byte c (by omega)]
    congr 1
    omega
  rcases Nat.lt_or_ge p (at_ + 24) with third | third
  · rw [if_neg (by omega), if_pos (by omega), if_neg (by omega), if_pos (by omega)]
    exact lowWord_byte _ (by omega)
  rcases Nat.lt_or_ge p (at_ + 32) with fourth | fourth
  · rw [if_pos (by omega), if_neg (by omega), if_pos (by omega), highWord_byte _ (by omega)]
    congr 1
    omega
  · rw [if_neg (by omega), if_neg (by omega), if_neg (by omega), if_neg (by omega),
      if_neg (by omega), if_neg (by omega)]

/-- Doubling is the product with two. -/
theorem gfDouble_eq (c : UInt8) : gfDouble c = gfMul c 2 := by
  have product := congrArg Gf.byte (Gf.powersOfTwo.mul_power ⟨c⟩ 1)
  exact product.symm.trans (Gf.mul_byte ⟨c⟩ ⟨2⟩)

theorem selected_eq (c : UInt8) : ∀ i < 16, selected c i = gfMul c (UInt8.ofNat i) := by
  have sum (x y z w : Gf) : gfMul c (x + y + z + w).byte =
      gfMul c x.byte ^^^ gfMul c y.byte ^^^ gfMul c z.byte ^^^ gfMul c w.byte := by
    have distributes := congrArg Gf.byte
      (show (⟨c⟩ : Gf) * (x + y + z + w) = ⟨c⟩ * x + ⟨c⟩ * y + ⟨c⟩ * z + ⟨c⟩ * w by ring)
    simpa only [Gf.mul_byte, Gf.add_byte] using distributes
  have two : gfDouble c = gfMul c 2 := gfDouble_eq c
  have four : gfDouble (gfDouble c) = gfMul c 4 := by
    have product := congrArg Gf.byte (Gf.powersOfTwo.mul_power ⟨c⟩ 2)
    exact product.symm.trans (Gf.mul_byte ⟨c⟩ ⟨4⟩)
  have eight : gfDouble (gfDouble (gfDouble c)) = gfMul c 8 := by
    have product := congrArg Gf.byte (Gf.powersOfTwo.mul_power ⟨c⟩ 3)
    exact product.symm.trans (Gf.mul_byte ⟨c⟩ ⟨8⟩)
  have one : gfMul c 1 = c := by
    have product := congrArg Gf.byte (mul_one (⟨c⟩ : Gf))
    exact (Gf.mul_byte ⟨c⟩ 1).symm.trans product
  have zero : gfMul c 0 = 0 := by simp [gfMul]
  intro i within
  have parts : (⟨UInt8.ofNat i⟩ : Gf) = ⟨if i.testBit 0 then 1 else 0⟩ + ⟨if i.testBit 1 then 2 else 0⟩ +
      ⟨if i.testBit 2 then 4 else 0⟩ + ⟨if i.testBit 3 then 8 else 0⟩ := by
    revert i
    decide
  have product := sum ⟨if i.testBit 0 then 1 else 0⟩ ⟨if i.testBit 1 then 2 else 0⟩
    ⟨if i.testBit 2 then 4 else 0⟩ ⟨if i.testBit 3 then 8 else 0⟩
  rw [← parts] at product
  rw [product, selected, eight, four, two]
  simp only [apply_ite (gfMul c), one, zero]

end Isal.Erasure
