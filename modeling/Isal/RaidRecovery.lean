import Isal.RaidParity
import Isal.CodingRows

/-! Two parities tell any two failures: arrays that pass the check and differ in two vectors
at most are equal. -/
namespace Isal.Erasure

/-- The differences of two arrays at one byte position: the data, then P, then Q. -/
structure Syndrome (n : Nat) (d : Nat → Gf) : Prop where
  p : d n = ∑ j ∈ Finset.range n, d j
  q : d (n + 1) = ∑ j ∈ Finset.range n, ⟨2⟩ ^ j * d j

namespace Syndrome
variable {n x y : Nat} {d : Nat → Gf}

/-- With one data vector left both parities speak of it alone. -/
theorem one (syndrome : Syndrome n d) (inside : x < n) (others : ∀ j < n, j ≠ x → d j = 0) :
    d n = d x ∧ d (n + 1) = ⟨2⟩ ^ x * d x := by
  have member : x ∈ Finset.range n := Finset.mem_range.mpr inside
  constructor
  · rw [syndrome.p]
    exact Finset.sum_eq_single_of_mem x member fun j low other => others j (Finset.mem_range.mp low) other
  · rw [syndrome.q]
    apply Finset.sum_eq_single_of_mem x member
    intro j low other
    rw [others j (Finset.mem_range.mp low) other, mul_zero]

theorem two (syndrome : Syndrome n d) (different : x ≠ y) (first : x < n) (second : y < n)
    (others : ∀ j < n, j ≠ x → j ≠ y → d j = 0) :
    d n = d x + d y ∧ d (n + 1) = ⟨2⟩ ^ x * d x + ⟨2⟩ ^ y * d y := by
  have pair : ({x, y} : Finset Nat) ⊆ Finset.range n := by
    intro j member
    rcases Finset.mem_insert.mp member with rfl | last
    · exact Finset.mem_range.mpr first
    · rw [Finset.mem_singleton.mp last]
      exact Finset.mem_range.mpr second
  have zero {j : Nat} (low : j ∈ Finset.range n) (out : j ∉ ({x, y} : Finset Nat)) : d j = 0 := by
    apply others j (Finset.mem_range.mp low)
    · rintro rfl
      exact out (Finset.mem_insert_self _ _)
    · rintro rfl
      exact out (Finset.mem_insert_of_mem (Finset.mem_singleton_self _))
  constructor
  · rw [syndrome.p, ← Finset.sum_subset pair fun j low out => zero low out, Finset.sum_pair different]
  · rw [syndrome.q, ← Finset.sum_subset pair, Finset.sum_pair different]
    intro j low out
    rw [zero low out, mul_zero]

theorem none (syndrome : Syndrome n d) (all : ∀ j < n, d j = 0) : d n = 0 ∧ d (n + 1) = 0 := by
  constructor
  · rw [syndrome.p]
    exact Finset.sum_eq_zero fun j low => all j (Finset.mem_range.mp low)
  · rw [syndrome.q]
    apply Finset.sum_eq_zero
    intro j low
    rw [all j (Finset.mem_range.mp low), mul_zero]

/-- One data difference beside one parity that agrees is no difference. -/
theorem one_zero (syndrome : Syndrome n d) (inside : x < n) (others : ∀ j < n, j ≠ x → d j = 0)
    (parity : d n = 0 ∨ d (n + 1) = 0) : d x = 0 := by
  obtain ⟨p, q⟩ := syndrome.one inside others
  rcases parity with zero | zero
  · rw [← p, zero]
  · rw [zero] at q
    exact (mul_eq_zero.mp q.symm).resolve_left (Gf.two_pow_ne x)

/-- Two data differences that both parities miss cancel only when they are none. -/
theorem two_zero (syndrome : Syndrome n d) (few : n ≤ 255) (different : x ≠ y) (first : x < n)
    (second : y < n) (others : ∀ j < n, j ≠ x → j ≠ y → d j = 0) (p : d n = 0) (q : d (n + 1) = 0) :
    d x = 0 := by
  obtain ⟨sum, weighted⟩ := syndrome.two different first second others
  rw [p] at sum
  rw [q, eq_neg_of_add_eq_zero_right sum.symm] at weighted
  have product : (⟨2⟩ ^ x - ⟨2⟩ ^ y) * d x = 0 := by
    rw [weighted]
    ring
  apply (mul_eq_zero.mp product).resolve_left
  intro same
  exact different (Gf.two_pow_inj (by omega) (by omega) (sub_eq_zero.mp same))

/-- At most two differences that satisfy both equations are all zero. -/
theorem vanishes (syndrome : Syndrome n d) (few : n ≤ 255)
    (others : ∀ v < n + 2, v ≠ x → v ≠ y → d v = 0) : ∀ v < n + 2, d v = 0 := by
  have data : ∀ j < n, d j = 0 := by
    intro j inside
    by_cases atFirst : j = x
    · subst atFirst
      by_cases second : y < n ∧ y ≠ j
      · exact syndrome.two_zero few (Ne.symm second.2) inside second.1
          (fun i low => others i (by omega)) (others n (by omega) (by omega) (by omega))
          (others (n + 1) (by omega) (by omega) (by omega))
      · apply syndrome.one_zero inside fun i low other => others i (by omega) other (by omega)
        by_cases atP : y = n
        · exact Or.inr (others (n + 1) (by omega) (by omega) (by omega))
        · exact Or.inl (others n (by omega) (by omega) (by omega))
    by_cases atSecond : j = y
    · subst atSecond
      by_cases first : x < n
      · exact syndrome.two_zero few atFirst inside first
          (fun i low here there => others i (by omega) there here)
          (others n (by omega) (by omega) (by omega)) (others (n + 1) (by omega) (by omega) (by omega))
      · apply syndrome.one_zero inside fun i low other => others i (by omega) (by omega) other
        by_cases atP : x = n
        · exact Or.inr (others (n + 1) (by omega) (by omega) (by omega))
        · exact Or.inl (others n (by omega) (by omega) (by omega))
    exact others j (by omega) atFirst atSecond
  obtain ⟨p, q⟩ := syndrome.none data
  intro v low
  rcases Nat.lt_or_ge v n with inside | outside
  · exact data v inside
  rcases Nat.eq_or_lt_of_le outside with rfl | last
  · exact p
  · rw [show v = n + 1 by omega]
    exact q

end Syndrome

/-- The parity vectors of an array at one byte position. -/
def ParityRight (vects : Nat) (array : Buffers) (i : Nat) : Prop :=
  (⟨(array (vects - 2)) i⟩ : Gf) = ∑ j ∈ Finset.range (vects - 2), ⟨(array j) i⟩ ∧
  (⟨(array (vects - 1)) i⟩ : Gf) = ∑ j ∈ Finset.range (vects - 2), ⟨2⟩ ^ j * ⟨(array j) i⟩

theorem pqCheckBase_zero_iff_sums {vects : Nat} (enough : 4 ≤ vects) (len : Nat) (array : Buffers) :
    pqCheckBase vects len array = 0 ↔ ∀ i < len, ParityRight vects array i := by
  rw [pqCheckBase_zero_iff enough]
  apply forall₂_congr
  intro i _
  obtain ⟨p, q⟩ := pqBytes_sums enough array i
  rw [ParityRight, ← p, ← q, Gf.mk.injEq, Gf.mk.injEq]

theorem parityRight_syndrome {vects : Nat} (enough : 4 ≤ vects) {a b : Buffers} {i : Nat}
    (rightA : ParityRight vects a i) (rightB : ParityRight vects b i) :
    Syndrome (vects - 2) fun v => (⟨(a v) i⟩ : Gf) - ⟨(b v) i⟩ := by
  constructor
  · rw [rightA.1, rightB.1, Finset.sum_sub_distrib]
  · rw [show vects - 2 + 1 = vects - 1 by omega, rightA.2, rightB.2, ← Finset.sum_sub_distrib]
    simp only [mul_sub]

/-- The generator satisfies the check, the check says that P and Q are the two sums of the
data, and with at most 255 data vectors it tells arrays that differ in two vectors apart. -/
theorem pq_parity {vects : Nat} (enough : 4 ≤ vects) (len : Nat) :
    (8 ∣ len → ∀ array, pqCheckBase vects len (pqGenBase vects len array).2 = 0) ∧
    (∀ array, pqCheckBase vects len array = 0 ↔ ∀ i < len, ParityRight vects array i) ∧
    (vects - 2 ≤ 255 → ∀ a b : Buffers, pqCheckBase vects len a = 0 → pqCheckBase vects len b = 0 →
      ∀ x y, (∀ v < vects, v ≠ x → v ≠ y → ∀ i < len, (a v) i = (b v) i) →
        ∀ v < vects, ∀ i < len, (a v) i = (b v) i) := by
  refine ⟨?_, pqCheckBase_zero_iff_sums enough len, ?_⟩
  · intro whole array
    obtain ⟨data, written⟩ := @pqGenBase_written vects len enough array
    rw [pqCheckBase_zero_iff enough]
    intro i low
    rw [pqBytes_data enough i fun j inside => congrArg (Arr.get · i) (data j inside)]
    exact written i (by omega)
  · intro few a b passA passB x y same v below i inside
    have rightA := (pqCheckBase_zero_iff_sums enough len a).mp passA i inside
    have rightB := (pqCheckBase_zero_iff_sums enough len b).mp passB i inside
    have zero := (parityRight_syndrome enough rightA rightB).vanishes few (x := x) (y := y)
      (fun w low first second => sub_eq_zero.mpr (congrArg Gf.mk (same w (by omega) first second i inside)))
      v (by omega)
    exact congrArg Gf.byte (sub_eq_zero.mp zero)

theorem pq_parity_two_words :
    pqCheckBase 5 16 (pqGenBase 5 16 ⟨fun j => ⟨fun i => (3 * j + i).toUInt8⟩⟩).2 = 0 :=
  (@pq_parity 5 (by decide) 16).1 (by decide) _

end Isal.Erasure
