import Isal.InflateTables
import Isal.PrefixCode

/-! The code assignment of the decompressor gives every symbol its canonical codeword, bit
reversed, and fails exactly on oversubscribed lengths. -/
namespace Isal.Inflate

open Isal.Bits Isal.Loops Isal.PrefixCode

theorem bitrevTable_eq : ∀ b < 2 ^ 8, bitrevTable[b]?.getD 0 = revBits 8 b := by decide +kernel

theorem bitReverse2_eq {bits length : Nat} (small : bits < 2 ^ 16) (h : length ≤ 16) :
    bitReverse2 bits length = revBits length bits := by
  rw [bitReverse2, bitrevTable_eq _ (by rw [Nat.shiftRight_eq_div_pow]; omega), bitrevTable_eq _ (by omega)]
  apply Nat.eq_of_testBit_eq
  intro i
  simp only [Nat.testBit_shiftRight, Nat.testBit_or, Nat.testBit_shiftLeft, testBit_revBits,
    Nat.testBit_mod_two_pow]
  by_cases inside : i < length
  · by_cases low : 16 - length + i < 8
    · simp [inside, low, show ¬8 ≤ 16 - length + i by omega, show 8 + (8 - 1 - (16 - length + i)) = length - 1 - i by omega]
    · simp [inside, low, show 8 ≤ 16 - length + i by omega, show 16 - length + i - 8 < 8 by omega,
        show 8 - 1 - (16 - length + i - 8) = length - 1 - i by omega, show length - 1 - i < 8 by omega]
  · simp [inside, show ¬16 - length + i < 8 by omega, show ¬16 - length + i - 8 < 8 by omega]

/-- The histogram of the lengths of a code. -/
def Counts (count : Arr Nat) (lens : List Nat) : Prop := ∀ n, 1 ≤ n → n ≤ 15 → count n = lens.count n

theorem firstCodes_eq {count : Arr Nat} {lens : List Nat} (counts : Counts count lens) {n : Nat}
    (high : n ≤ 15) : firstCodes count n = start lens n := by
  have run := forRange_invariant (a := 2) (b := maxHuffTreeDepth + 1)
    (f := fun i (next : Arr Nat) => next.set i ((next (i - 1) + count (i - 1)) <<< 1)) (s := .const 0)
    (fun i next => ∀ n, n < i → next n = start lens n) (by decide)
    (by
      intro n small
      rcases (by omega : n = 0 ∨ n = 1) with rfl | rfl <;> simp [start, PrefixCode.count])
    (by
      intro i next low upper known n small
      simp only [maxHuffTreeDepth] at upper
      rw [Arr.set_get]
      split
      · rename_i same
        subst same
        obtain ⟨m, rfl⟩ : ∃ m, n = m + 1 := ⟨n - 1, by omega⟩
        rw [Nat.add_sub_cancel, known m (by omega), counts m (by omega) (by omega), start, Nat.shiftLeft_eq]
        simp [PrefixCode.count, show m ≠ 0 by omega]
        omega
      · exact known n (by omega))
  exact run n (by simp only [maxHuffTreeDepth]; omega)

/-- The table entries of the symbols have the lengths of the code. -/
def HasLengths (table : Arr HuffCode) (tableLength : Nat) (lens : List Nat) : Prop :=
  ∀ i, i < tableLength → (table i).length = lengthOf lens i

/-- Symbol `i` has its canonical codeword. -/
def Canonical (table : Arr HuffCode) (lens : List Nat) (i : Nat) : Prop :=
  (table i).length = lengthOf lens i ∧
    (lengthOf lens i ≠ 0 → (table i).codeAndExtra = revBits (lengthOf lens i) (codeOf lens i))

variable {lens : List Nat} {table : Arr HuffCode} {count : Arr Nat} {tableLength : Nat}

/-- What the assignment loop knows after `i` symbols. -/
structure Assigning (lens : List Nat) (table : Arr HuffCode) (i : Nat) (s : Assigned) : Prop where
  done : ∀ j, j < i → Canonical s.table lens j
  rest : ∀ j, i ≤ j → s.table j = table j
  next : ∀ n, 1 ≤ n → n ≤ 15 → s.nextCode n = start lens n + (lens.take i).count n

theorem codeOf_lt_16 (valid : Valid lens 15) {i : Nat} (used : lengthOf lens i ≠ 0) : codeOf lens i < 2 ^ 16 :=
  Nat.lt_trans (valid.codeOf_lt_pow used)
    (Nat.pow_lt_pow_right (by omega) (Nat.lt_succ_of_le (valid.length_le i)))

theorem Assigning.step {i : Nat} {s : Assigned} (h : Assigning lens table i s) (valid : Valid lens 15)
    (length : (table i).length = lengthOf lens i) : Assigning lens table (i + 1) (assignCode i s) := by
  have here : (s.table i).length = lengthOf lens i := by rw [h.rest i (Nat.le_refl _), length]
  have bounded := valid.length_le i
  rw [assignCode]
  simp only [here]
  by_cases unused : lengthOf lens i = 0
  · rw [if_pos unused]
    constructor
    · intro j upto
      rcases Nat.lt_succ_iff_lt_or_eq.mp upto with old | rfl
      · exact h.done j old
      · exact ⟨here, fun used => absurd unused used⟩
    · exact fun j later => h.rest j (by omega)
    · intro n low high
      rw [h.next n low high, count_take_succ lens i n low, if_neg (by omega), Nat.add_zero]
  · rw [if_neg unused]
    have code : s.nextCode (lengthOf lens i) = codeOf lens i := by rw [h.next _ (by omega) bounded, codeOf]
    have small := codeOf_lt_16 valid unused
    rw [code]
    constructor
    · intro j upto
      by_cases same : j = i
      · subst same
        have fits : revBits (lengthOf lens j) (codeOf lens j) < 2 ^ 24 :=
          Nat.lt_of_lt_of_le (revBits_lt _ _) (Nat.pow_le_pow_right (by omega) (by omega))
        simp only [Canonical, Arr.set_self, writeHuffCode, bitReverse2_eq small (by omega : lengthOf lens j ≤ 16),
          Nat.mod_eq_of_lt fits, implies_true, and_self]
      · have := h.done j (by omega)
        simpa [Canonical, Arr.set_other same] using this
    · intro j later
      rw [Arr.set_other (by omega), h.rest j (by omega)]
    · intro n low high
      rw [Arr.set_get, count_take_succ lens i n low]
      by_cases same : n = lengthOf lens i
      · rw [if_pos same, if_pos same.symm, same, codeOf]; omega
      · rw [if_neg same, if_neg (Ne.symm same), h.next n low high, Nat.add_zero]

theorem setCodes_spec (lengths : HasLengths table tableLength lens)
    (bounded : ∀ n ∈ lens, n ≤ 15) (counts : Counts count lens) :
    (setCodes table tableLength count = none ∧ 2 ^ 15 < kraft lens 15) ∨
      ∃ t, setCodes table tableLength count = some t ∧ Valid lens 15 ∧
        ∀ i, i < tableLength → Canonical t lens i := by
  have total : firstCodes count maxHuffTreeDepth + count maxHuffTreeDepth = kraft lens 15 := by
    rw [← start_add_count bounded, firstCodes_eq counts (by decide), counts _ (by decide) (by decide)]
    rfl
  simp only [setCodes, total]
  by_cases excess : 2 ^ 15 < kraft lens 15
  · left
    rw [if_pos (by simpa [maxHuffTreeDepth] using excess)]
    exact ⟨rfl, excess⟩
  · right
    have valid : Valid lens 15 := ⟨bounded, by omega⟩
    rw [if_neg (by simpa [maxHuffTreeDepth] using excess)]
    refine ⟨_, rfl, valid, ?_⟩
    have run := forRange_invariant (a := 0) (b := tableLength) (f := assignCode)
      (s := ⟨table, firstCodes count⟩) (Assigning lens table) (Nat.zero_le _)
      ⟨by simp, fun _ _ => rfl, fun n _ high => by simp [firstCodes_eq counts high]⟩
      (fun i s _ small h => h.step valid (lengths i small))
    exact fun i small => run.done i small

end Isal.Inflate
