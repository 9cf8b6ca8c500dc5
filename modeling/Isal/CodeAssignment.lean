import Isal.CanonicalCodes

/-! The codes that the compressor assigns to code lengths, by `set_huff_codes` in `huff_codes.c`, are
the canonical ones. -/
namespace Isal.HuffCodes
open Bits Loops PrefixCode

def maxHuffTreeDepth : Nat := 15

/-- An array of `struct huff_code`, one array for each of the fields -/
structure HuffTable where
  code : Arr Nat
  length : Arr Nat

/-- The bytes of the table are those of the decompressor's. -/
def bitrev8 : List Nat := Inflate.bitrevTable

def bitReverse (code length : Nat) : Nat :=
  ((bitrev8[code % 2 ^ 8]?.getD 0) <<< 8 ||| bitrev8[code >>> 8]?.getD 0) >>> (16 - length)

/-- The 16-bit first codes of the lengths -/
def firstCodes (count : Arr Nat) : Arr Nat :=
  forRange 1 (maxHuffTreeDepth + 1)
    (fun i nextCode => nextCode.set i ((nextCode (i - 1) + count (i - 1)) <<< 1 % 2 ^ 16)) (.const 0)

structure SetCodes where
  code : Arr Nat
  nextCode : Arr Nat
  maxCode : Nat := 0

/-- One round of the loop over the table -/
def setHuffCode (length : Arr Nat) (i : Nat) (s : SetCodes) : SetCodes :=
  if length i ≠ 0 then
    { code := s.code.set i (bitReverse (s.nextCode (length i)) (length i))
      nextCode := s.nextCode.set (length i) ((s.nextCode (length i) + 1) % 2 ^ 16)
      maxCode := i }
  else s

/-- `set_huff_codes` gives the last symbol with a code. -/
def setHuffCodes (table : HuffTable) (tableLength : Nat) (count : Arr Nat) : Nat × HuffTable :=
  let s := forRange 0 tableLength (setHuffCode table.length) { code := table.code, nextCode := firstCodes count }
  (s.maxCode, { table with code := s.code })

theorem bitReverse_eq {code length : Nat} (small : code < 2 ^ 16) (short : length ≤ 16) :
    bitReverse code length = revBits length code := by
  rw [← Inflate.bitReverse2_eq small short, bitReverse, Inflate.bitReverse2, Nat.lor_comm]
  rfl

/-- The lengths that occur are counted. -/
structure Tallied (count : Arr Nat) (lens : List Nat) (limit : Nat) : Prop where
  zero : count 0 = 0
  counts : ∀ n, 1 ≤ n → n ≤ limit → count n = lens.count n

section

variable {lens : List Nat} {limit tableLength : Nat} {count : Arr Nat} {table : HuffTable}

theorem start_le (valid : Valid lens limit) {n : Nat} (upTo : n ≤ limit) :
    start lens n + PrefixCode.count lens n ≤ 2 ^ n := by
  have space := Nat.le_trans (valid.space_le upTo) valid.kraft_le
  have split : 2 ^ limit = 2 ^ n * 2 ^ (limit - n) := by
    rw [← Nat.pow_add, Nat.add_sub_cancel' upTo]
  rw [split] at space
  exact Nat.le_of_mul_le_mul_right space (Nat.two_pow_pos _)

theorem firstCodes_eq (valid : Valid lens limit) (few : limit ≤ 15) (tallied : Tallied count lens limit) {n : Nat}
    (upTo : n ≤ limit) : firstCodes count n = start lens n := by
  have run := forRange_invariant
    (fun i (nextCode : Arr Nat) => ∀ n, n < i → n ≤ limit → nextCode n = start lens n)
    (a := 1) (b := maxHuffTreeDepth + 1)
    (f := fun i nextCode => nextCode.set i ((nextCode (i - 1) + count (i - 1)) <<< 1 % 2 ^ 16)) (s := .const 0) (by decide)
    (by
      intro n small _
      obtain rfl : n = 0 := by omega
      rfl)
    (by
      intro i nextCode low high known n below upTo
      rcases Nat.lt_succ_iff_lt_or_eq.mp below with before | rfl
      · rw [Arr.set_other (by omega)]
        exact known n before upTo
      · obtain ⟨m, rfl⟩ : ∃ m, n = m + 1 := ⟨n - 1, by omega⟩
        have bound := start_le valid upTo
        have power : 2 ^ (m + 1) ≤ 2 ^ 15 := Nat.pow_le_pow_right (by omega) (by omega)
        have counted : count m = PrefixCode.count lens m := by
          rw [PrefixCode.count]
          split
          · rename_i zero
            rw [zero, tallied.zero]
          · exact tallied.counts m (by omega) (by omega)
        rw [start] at bound
        rw [Arr.set_self, Nat.add_sub_cancel, known m (by omega) (by omega), counted, start, Nat.shiftLeft_eq, Nat.pow_one,
          Nat.mul_comm, Nat.mod_eq_of_lt (by omega)])
  have last : maxHuffTreeDepth = 15 := rfl
  exact run n (by omega) upTo

/-- The table holds the canonical codes for the lengths, bit reversed. -/
structure Canonical (lens : List Nat) (table : HuffTable) (tableLength : Nat) : Prop where
  length : ∀ i, i < tableLength → table.length i = lengthOf lens i
  code : ∀ i, i < tableLength → lengthOf lens i ≠ 0 → table.code i = revBits (lengthOf lens i) (codeOf lens i)

/-- What is known after `i` rounds. -/
structure Setting (lens : List Nat) (limit : Nat) (code : Arr Nat) (i : Nat) (s : SetCodes) : Prop where
  done : ∀ j, j < i → lengthOf lens j ≠ 0 → s.code j = revBits (lengthOf lens j) (codeOf lens j)
  others : ∀ j, lengthOf lens j = 0 → s.code j = code j
  next : ∀ n, 1 ≤ n → n ≤ limit → s.nextCode n = start lens n + (lens.take i).count n
  last : ∀ j, j < i → lengthOf lens j ≠ 0 → j ≤ s.maxCode
  reached : s.maxCode = 0 ∨ s.maxCode < i ∧ lengthOf lens s.maxCode ≠ 0

theorem Setting.step {code : Arr Nat} {i : Nat} {s : SetCodes} (setting : Setting lens limit code i s)
    (valid : Valid lens limit) (few : limit ≤ 15) {length : Arr Nat} (same : length i = lengthOf lens i) :
    Setting lens limit code (i + 1) (setHuffCode length i s) := by
  have upTo := valid.length_le i
  rw [setHuffCode, same]
  by_cases used : lengthOf lens i ≠ 0
  · rw [if_pos used]
    have next : s.nextCode (lengthOf lens i) = codeOf lens i := setting.next _ (by omega) upTo
    have power : 2 ^ lengthOf lens i ≤ 2 ^ 15 := Nat.pow_le_pow_right (by omega) (by omega)
    have small := valid.codeOf_lt_pow used
    constructor
    · intro j before used'
      rcases Nat.lt_succ_iff_lt_or_eq.mp before with earlier | rfl
      · rw [Arr.set_other (by omega)]
        exact setting.done j earlier used'
      · rw [Arr.set_self, next, bitReverse_eq (by omega) (by omega)]
    · intro j unused
      rw [Arr.set_other]
      · exact setting.others j unused
      · rintro rfl
        exact used unused
    · intro n low high
      rw [Arr.set_get, count_take_succ lens i n low]
      by_cases here : n = lengthOf lens i
      · subst here
        rw [if_pos rfl, if_pos rfl, next, Nat.mod_eq_of_lt (by omega), codeOf, Nat.add_assoc]
      · rw [if_neg here, if_neg (Ne.symm here), setting.next n low high, Nat.add_zero]
    · intro j before _
      exact Nat.lt_succ_iff.mp before
    · exact Or.inr ⟨Nat.lt_succ_self i, used⟩
  · rw [if_neg used]
    have unused : lengthOf lens i = 0 := not_not.mp used
    constructor
    · intro j before used'
      rcases Nat.lt_succ_iff_lt_or_eq.mp before with earlier | rfl
      · exact setting.done j earlier used'
      · exact absurd unused used'
    · exact setting.others
    · intro n low high
      rw [count_take_succ lens i n low, if_neg (by omega), Nat.add_zero]
      exact setting.next n low high
    · intro j before used'
      rcases Nat.lt_succ_iff_lt_or_eq.mp before with earlier | rfl
      · exact setting.last j earlier used'
      · exact absurd unused used'
    · rcases setting.reached with none_ | ⟨before, used'⟩
      · exact Or.inl none_
      · exact Or.inr ⟨by omega, used'⟩

theorem setHuffCodes_setting (valid : Valid lens limit) (few : limit ≤ 15) (tallied : Tallied count lens limit)
    (lengths : ∀ i, i < tableLength → table.length i = lengthOf lens i) :
    Setting lens limit table.code tableLength
      (forRange 0 tableLength (setHuffCode table.length) { code := table.code, nextCode := firstCodes count }) := by
  apply forRange_invariant (fun i s => Setting lens limit table.code i s) (Nat.zero_le _)
  · constructor
    · intro j before
      omega
    · intro j _
      rfl
    · intro n _ upTo
      rw [List.take_zero, List.count_nil, Nat.add_zero]
      exact firstCodes_eq valid few tallied upTo
    · intro j before
      omega
    · exact Or.inl rfl
  · intro i s _ inside setting
    exact setting.step valid few (lengths i inside)

theorem setHuffCodes_canonical (valid : Valid lens limit) (few : limit ≤ 15) (tallied : Tallied count lens limit)
    (lengths : ∀ i, i < tableLength → table.length i = lengthOf lens i) :
    Canonical lens (setHuffCodes table tableLength count).2 tableLength := by
  have setting := setHuffCodes_setting valid few tallied lengths
  exact ⟨lengths, setting.done⟩

/-- A symbol without a code keeps the field. -/
theorem setHuffCodes_others (valid : Valid lens limit) (few : limit ≤ 15) (tallied : Tallied count lens limit)
    (lengths : ∀ i, i < tableLength → table.length i = lengthOf lens i) {j : Nat} (unused : lengthOf lens j = 0) :
    (setHuffCodes table tableLength count).2.code j = table.code j :=
  (setHuffCodes_setting valid few tallied lengths).others j unused

end
end Isal.HuffCodes
