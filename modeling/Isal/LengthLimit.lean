import Isal.CodeShortening

/-! The lengths that `fix_code_lens` leaves in the tree: the depths of the leaves, or the repaired
counts dealt out again from the shortest length on. -/
namespace Isal.HuffCodes

open Huffman

theorem firstCount_some (m : HeapTree) {w : Nat} (inside : w < 2 * heapTreeSize) (found : m w ≠ 0) (rounds : Nat)
    {k : Nat} (upTo : k ≤ w) (enough : w - k < rounds) :
    ∃ k', firstCount m rounds k = some k' ∧ k ≤ k' ∧ k' ≤ w ∧ m k' ≠ 0 ∧ ∀ l, k ≤ l → l < k' → m l = 0 := by
  induction rounds generalizing k with
  | zero => omega
  | succ rounds ih =>
    rw [firstCount, readWord_some (by omega)]
    simp only [Option.bind_eq_bind, Option.bind_some]
    by_cases empty : m k = 0
    · rw [if_pos empty]
      have before : k ≠ w := by
        rintro rfl
        exact found empty
      obtain ⟨k', result, low, high, count, skipped⟩ := ih (k := k + 1) (by omega) (by omega)
      refine ⟨k', result, by omega, high, count, ?_⟩
      intro l above below
      rcases Nat.eq_or_lt_of_le above with rfl | later
      · exact empty
      · exact skipped l later below
    · rw [if_neg empty]
      exact ⟨k, rfl, le_refl k, upTo, empty, by omega⟩

/-- The state before the `given.length`-th leaf gets its length. The counts were those of `c`. -/
structure Dealing (root K : Nat) (c : HeapTree) (k : Nat) (m : HeapTree) (given : List Nat) : Prop where
  place : 1 ≤ k ∧ k ≤ K + 1
  current : m k ≠ 0
  guard : m (K + 1) ≠ 0
  counts : ∀ l, 1 ≤ l → l ≤ K → given.count l + m l = c l
  empty : ∀ l, 1 ≤ l → l < k → m l = 0
  sorted : given.Pairwise (· ≤ ·)
  within : ∀ l ∈ given, 1 ≤ l ∧ l ≤ k ∧ l ≤ K
  dealt : ∀ y l, given[y]? = some l → m (2 * (root + y) + 1) = l
  children : ∀ y, m (2 * (root + y)) = c (2 * (root + y))

section

variable {root K n k : Nat} {c m : HeapTree} {given : List Nat}

theorem sum_counts {M : Type*} [AddCommMonoid M] {lens : List Nat} (within : ∀ l ∈ lens, 1 ≤ l ∧ l ≤ K) (f : Nat → M) :
    (lens.map f).sum = ∑ l ∈ Finset.Icc 1 K, lens.count l • f l := by
  have counted := Finset.sum_multiset_map_count (lens : Multiset Nat) f
  rw [Multiset.map_coe, Multiset.sum_coe] at counted
  simp only [Multiset.coe_count] at counted
  rw [counted]
  apply Finset.sum_subset
  · intro l member
    have inside : l ∈ lens := by simpa using member
    exact Finset.mem_Icc.mpr (within l inside)
  · intro l _ outside
    have none_ : l ∉ lens := by simpa using outside
    rw [List.count_eq_zero.mpr none_, zero_smul]

/-- While codes remain there is a length for them. -/
theorem Dealing.more (dealing : Dealing root K c k m given) (total : tally K (fun _ => 1) c = n) (left : given.length < n) :
    k ≤ K := by
  by_contra beyond
  have last : k = K + 1 := by
    have := dealing.place
    omega
  have all : tally K (fun _ => 1) c = given.length := by
    have counted := sum_counts (K := K) (fun l member => ⟨(dealing.within l member).1, (dealing.within l member).2.2⟩)
      (fun _ => 1)
    rw [List.map_const', List.sum_replicate, smul_eq_mul, Nat.mul_one] at counted
    rw [counted, tally]
    apply Finset.sum_congr rfl
    intro l inside
    have range := Finset.mem_Icc.mp inside
    rw [← dealing.counts l range.1 range.2, dealing.empty l range.1 (by omega), Nat.one_mul, smul_eq_mul, Nat.mul_one,
      Nat.add_zero]
  omega

/-- One leaf gets the current length. -/
theorem Dealing.step (dealing : Dealing root K c k m given) (more : k ≤ K) (low : K + 1 < 2 * root) {k' : Nat}
    (ahead : k ≤ k' ∧ k' ≤ K + 1) (found : ((m.set (2 * (root + given.length) + 1) k).set k (m k - 1)) k' ≠ 0)
    (skipped : ∀ l, k ≤ l → l < k' → ((m.set (2 * (root + given.length) + 1) k).set k (m k - 1)) l = 0) :
    Dealing root K c k' ((m.set (2 * (root + given.length) + 1) k).set k (m k - 1)) (given ++ [k]) := by
  set m' := (m.set (2 * (root + given.length) + 1) k).set k (m k - 1) with m'_eq
  have place := dealing.place
  have own : m' k = m k - 1 := Arr.set_self ..
  have others : ∀ w, w ≠ k → w ≠ 2 * (root + given.length) + 1 → m' w = m w := by
    intro w first second
    rw [m'_eq, Arr.set_other first, Arr.set_other second]
  constructor
  · omega
  · exact found
  · rw [others _ (by omega) (by omega)]
    exact dealing.guard
  · intro l low' high
    have before := dealing.counts l low' high
    rw [List.count_append]
    by_cases here : l = k
    · subst here
      have := dealing.current
      rw [own, List.count_singleton_self]
      omega
    · have other : List.count l [k] = 0 := List.count_eq_zero.mpr fun member => here (List.mem_singleton.mp member)
      rw [others l here (by omega), other]
      omega
  · intro l low' below
    rcases Nat.lt_or_ge l k with before | after
    · rw [others l (by omega) (by omega)]
      exact dealing.empty l low' before
    · exact skipped l after below
  · rw [List.pairwise_append]
    refine ⟨dealing.sorted, List.pairwise_singleton _ _, ?_⟩
    intro l member l' member'
    rw [List.mem_singleton.mp member']
    exact (dealing.within l member).2.1
  · intro l member
    rcases List.mem_append.mp member with old | new
    · have := dealing.within l old
      omega
    · rw [List.mem_singleton.mp new]
      omega
  · intro y l at_
    rcases Nat.lt_or_ge y given.length with old | new
    · rw [List.getElem?_append_left old] at at_
      rw [others _ (by omega) (by omega)]
      exact dealing.dealt y l at_
    · rw [List.getElem?_append_right new] at at_
      have bound := (List.getElem?_eq_some_iff.mp at_).1
      rw [List.length_singleton] at bound
      have here : y = given.length := by omega
      subst here
      rw [Nat.sub_self, List.getElem?_cons_zero, Option.some.injEq] at at_
      subst at_
      rw [m'_eq, Arr.set_other (by omega), Arr.set_self]
  · intro y
    rw [others _ (by omega) (by omega)]
    exact dealing.children y

/-- All codes get their lengths. -/
theorem dealLengths_run (total : tally K (fun _ => 1) c = n) (low : K + 1 < 2 * root)
    (inside : root + n ≤ heapTreeSize) (words : ∀ l, 1 ≤ l → l ≤ K → c l < 2 ^ 32) (left : Nat) {i k : Nat} {m : HeapTree}
    {given : List Nat} (place : i = root + given.length) (rest : given.length + left = n)
    (dealing : Dealing root K c k m given) :
    ∃ k' m' given', dealLengths left i k m = some m' ∧ given'.length = n ∧ Dealing root K c k' m' given' := by
  induction left generalizing i k m given with
  | zero => exact ⟨k, m, given, rfl, rest, dealing⟩
  | succ left ih =>
    have total_ : heapTreeSize = 859 := rfl
    have more := dealing.more total (by omega)
    have ahead := dealing.place
    have small : m k < 2 ^ 32 := by
      have := dealing.counts k ahead.1 more
      have := words k ahead.1 more
      omega
    have kept : (m.set (2 * i + 1) k) k = m k := Arr.set_other (by omega)
    have guard : ((m.set (2 * i + 1) k).set k (m k - 1)) (K + 1) ≠ 0 := by
      rw [Arr.set_other (by omega), Arr.set_other (by omega)]
      exact dealing.guard
    obtain ⟨k', found, low', high', count, skipped⟩ :=
      firstCount_some _ (by omega) guard (2 * heapTreeSize) (k := k) (by omega) (by omega)
    rw [place] at count skipped
    have next := dealing.step more low ⟨low', high'⟩ count skipped
    rw [← place] at next
    obtain ⟨k'', m', given', result, length, final⟩ := ih (i := i + 1) (by rw [List.length_append, List.length_singleton]; omega)
      (by rw [List.length_append, List.length_singleton]; omega) next
    refine ⟨k'', m', given', ?_, length, final⟩
    rw [dealLengths, writeDepth, writeWord_some (by omega) (by omega)]
    simp only [Option.bind_eq_bind, Option.bind_some]
    rw [readWord_some (by omega), Option.bind_some, kept, writeWord_some (by omega) (by omega), Option.bind_some, found,
      Option.bind_some]
    exact result

/-- In the end no count is left over. -/
theorem Dealing.all_dealt (dealing : Dealing root K c k m given) (total : tally K (fun _ => 1) c = n)
    (length : given.length = n) : ∀ l, 1 ≤ l → l ≤ K → c l = given.count l := by
  have counted := sum_counts (K := K) (fun l member => ⟨(dealing.within l member).1, (dealing.within l member).2.2⟩)
    (fun _ => 1)
  rw [List.map_const', List.sum_replicate, smul_eq_mul, Nat.mul_one] at counted
  have split : tally K (fun _ => 1) c = ∑ l ∈ Finset.Icc 1 K, given.count l • 1 + ∑ l ∈ Finset.Icc 1 K, m l := by
    rw [tally, ← Finset.sum_add_distrib]
    apply Finset.sum_congr rfl
    intro l inside
    have range := Finset.mem_Icc.mp inside
    rw [← dealing.counts l range.1 range.2, Nat.one_mul, smul_eq_mul, Nat.mul_one]
  have none_ : ∑ l ∈ Finset.Icc 1 K, m l = 0 := by omega
  intro l low high
  have := dealing.counts l low high
  have := Finset.sum_eq_zero_iff.mp none_ l (Finset.mem_Icc.mpr ⟨low, high⟩)
  omega

end
end Isal.HuffCodes
