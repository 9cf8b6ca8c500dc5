import Mathlib

/-! Systematic coding matrices over a field: rows of the identity together with parity rows.
All choices of rows are regular when all square parts of the parity rows are, as in a matrix
of Cauchy's form and, for three rows or columns, in one of powers. -/
namespace Isal
open Matrix Polynomial

variable {K : Type*} [Field K]

/-- A regular matrix has no null vector. -/
theorem vector_zero {n : ℕ} {a : Matrix (Fin n) (Fin n) K} (regular : a.det ≠ 0) {v : Fin n → K}
    (null : a *ᵥ v = 0) : v = 0 := by
  by_contra nonzero
  exact regular (exists_mulVec_eq_zero_iff.mp ⟨v, nonzero, null⟩)

theorem regular_of_vectors {n : ℕ} {a : Matrix (Fin n) (Fin n) K}
    (only : ∀ v, a *ᵥ v = 0 → v = 0) : a.det ≠ 0 := by
  intro singular
  obtain ⟨v, nonzero, null⟩ := exists_mulVec_eq_zero_iff.mpr singular
  exact nonzero (only v null)

/-- The parity rows of a choice and the columns that no identity row of it covers are as many. -/
theorem uncovered_card {k : ℕ} {rows : Fin k → ℕ} (distinct : Function.Injective rows) :
    (Finset.univ.filter fun c : Fin k => ∀ r, rows r ≠ c).card =
      (Finset.univ.filter fun r : Fin k => k ≤ rows r).card := by
  have covered : (Finset.univ.filter fun c : Fin k => ∃ r, rows r = c).card =
      (Finset.univ.filter fun r : Fin k => rows r < k).card := by
    symm
    apply Finset.card_bij (fun r member => ⟨rows r, (Finset.mem_filter.mp member).2⟩)
    · intro r _
      exact Finset.mem_filter.mpr ⟨Finset.mem_univ _, r, rfl⟩
    · intro r _ r' _ same
      exact distinct (congrArg Fin.val same)
    · intro c member
      obtain ⟨r, here⟩ := (Finset.mem_filter.mp member).2
      exact ⟨r, Finset.mem_filter.mpr ⟨Finset.mem_univ _, by rw [here]; exact c.isLt⟩, Fin.ext here⟩
  have columns := Finset.card_filter_add_card_filter_not (s := Finset.univ)
    (fun c : Fin k => ∃ r, rows r = c)
  have lines := Finset.card_filter_add_card_filter_not (s := Finset.univ)
    (fun r : Fin k => rows r < k)
  simp only [not_exists] at columns
  simp only [not_lt] at lines
  rw [covered] at columns
  exact Nat.add_left_cancel (columns.trans lines.symm)

/-- A sum over a set is one over its enumeration. -/
theorem sum_enumerated {k t : ℕ} (columns : Finset (Fin k)) (card : columns.card = t) (f : Fin k → K) :
    ∑ u, f (columns.orderEmbOfFin card u) = ∑ c ∈ columns, f c := by
  rw [← Finset.sum_coe_sort columns f]
  exact Equiv.sum_comp (columns.orderIsoOfFin card).toEquiv fun c => f c

/-- Identity rows fix their own coordinates; the parity rows then see only the others. -/
theorem systematic_regular {k : ℕ} {rows : Fin k → ℕ} (distinct : Function.Injective rows)
    {b : Matrix (Fin k) (Fin k) K}
    (unit : ∀ r c, rows r < k → b r c = if rows r = c then 1 else 0)
    (parity : ∀ (t : ℕ) (r c : Fin t → Fin k), Function.Injective r → Function.Injective c →
      (∀ s, k ≤ rows (r s)) → (b.submatrix r c).det ≠ 0) : b.det ≠ 0 := by
  apply regular_of_vectors
  intro v null
  have covered : ∀ c : Fin k, (∃ r, rows r = c) → v c = 0 := by
    rintro c ⟨r, here⟩
    have entry := congrFun null r
    rw [mulVec, dotProduct, Finset.sum_eq_single c] at entry
    · rw [unit r c (by rw [here]; exact c.isLt), if_pos here, one_mul] at entry
      exact entry
    · intro c' _ other
      rw [unit r c' (by rw [here]; exact c.isLt), if_neg, zero_mul]
      exact fun there => other (Fin.ext (there.symm.trans here))
    · intro missing
      exact absurd (Finset.mem_univ c) missing
  let columns := Finset.univ.filter fun c : Fin k => ∀ r, rows r ≠ c
  let lines := Finset.univ.filter fun r : Fin k => k ≤ rows r
  have sameCard : columns.card = lines.card := uncovered_card distinct
  have square : (b.submatrix (lines.orderEmbOfFin rfl) (columns.orderEmbOfFin sameCard)).det ≠ 0 := by
    apply parity
    · exact (lines.orderEmbOfFin rfl).injective
    · exact (columns.orderEmbOfFin sameCard).injective
    · intro s
      exact (Finset.mem_filter.mp (Finset.orderEmbOfFin_mem lines rfl s)).2
  have inner : (fun u => v (columns.orderEmbOfFin sameCard u)) = 0 := by
    apply vector_zero square
    funext s
    have entry := congrFun null (lines.orderEmbOfFin rfl s)
    rw [mulVec, dotProduct, Pi.zero_apply] at entry ⊢
    rw [← entry]
    have part : ∑ c, b (lines.orderEmbOfFin rfl s) c * v c =
        ∑ c ∈ columns, b (lines.orderEmbOfFin rfl s) c * v c := by
      symm
      apply Finset.sum_subset (Finset.subset_univ _)
      intro c _ outside
      rw [covered c, mul_zero]
      by_contra never
      exact outside (Finset.mem_filter.mpr ⟨Finset.mem_univ c, fun r here => never ⟨r, here⟩⟩)
    rw [part]
    exact sum_enumerated columns sameCard fun c => b (lines.orderEmbOfFin rfl s) c * v c
  funext c
  by_cases known : ∃ r, rows r = c
  · exact covered c known
  · have member : c ∈ columns :=
      Finset.mem_filter.mpr ⟨Finset.mem_univ c, fun r here => known ⟨r, here⟩⟩
    have range : c ∈ Set.range (columns.orderEmbOfFin sameCard) := by
      rw [Finset.range_orderEmbOfFin]
      exact member
    obtain ⟨u, rfl⟩ := range
    exact congrFun inner u

/-- A null vector of Cauchy's matrix makes a polynomial of too many roots. -/
theorem cauchy_regular {t : ℕ} {x y : Fin t → K} (distinctX : Function.Injective x)
    (distinctY : Function.Injective y) (apart : ∀ r s, x r ≠ y s) :
    (Matrix.of fun r s => (x r - y s)⁻¹).det ≠ 0 := by
  apply regular_of_vectors
  intro v null
  let others (s : Fin t) : K[X] := ∏ u ∈ Finset.univ.erase s, (X - C (y u))
  let p : K[X] := ∑ s, C (v s) * others s
  have evalOthers (s : Fin t) (z : K) : (others s).eval z = ∏ u ∈ Finset.univ.erase s, (z - y u) := by
    simp only [others, eval_prod, eval_sub, eval_X, eval_C]
  have evalP (z : K) : p.eval z = ∑ s, v s * ∏ u ∈ Finset.univ.erase s, (z - y u) := by
    simp only [p, eval_finsetSum, eval_mul, eval_C, evalOthers]
  funext s
  have small : p.natDegree < t := by
    have each : ∀ u ∈ Finset.univ, (C (v u) * others u).natDegree ≤ t - 1 := by
      intro u _
      apply (natDegree_C_mul_le _ _).trans
      apply (natDegree_prod_le _ _).trans
      apply (Finset.sum_le_card_nsmul _ _ 1 fun w _ => natDegree_X_sub_C_le _).trans
      rw [Finset.card_erase_of_mem (Finset.mem_univ _), Finset.card_univ, Fintype.card_fin, smul_eq_mul,
        mul_one]
    have positive := s.pos
    exact Nat.lt_of_le_of_lt (natDegree_sum_le_of_forall_le _ _ each) (by omega)
  have roots : ∀ r, p.eval (x r) = 0 := by
    intro r
    have entry := congrFun null r
    rw [mulVec, dotProduct, Pi.zero_apply] at entry
    have factor : p.eval (x r) = (∏ u, (x r - y u)) * ∑ u, (x r - y u)⁻¹ * v u := by
      rw [evalP, Finset.mul_sum]
      apply Finset.sum_congr rfl
      intro u _
      rw [← Finset.mul_prod_erase _ _ (Finset.mem_univ u), ← mul_assoc, mul_right_comm _ _ (x r - y u)⁻¹,
        mul_inv_cancel₀ (sub_ne_zero.mpr (apart r u)), one_mul, mul_comm]
    rw [factor]
    exact mul_eq_zero_of_right _ entry
  have vanishes : p = 0 := eq_zero_of_natDegree_lt_card_of_eval_eq_zero p distinctX roots (by simpa using small)
  have value : p.eval (y s) = 0 := by rw [vanishes, eval_zero]
  rw [evalP, Finset.sum_eq_single s] at value
  · apply (mul_eq_zero.mp value).resolve_right
    apply Finset.prod_ne_zero_iff.mpr
    intro u member
    exact sub_ne_zero.mpr fun same => (Finset.ne_of_mem_erase member) (distinctY same.symm)
  · intro u _ other
    apply mul_eq_zero_of_right
    apply Finset.prod_eq_zero (Finset.mem_erase.mpr ⟨Ne.symm other, Finset.mem_univ s⟩)
    exact sub_self _
  · intro missing
    exact absurd (Finset.mem_univ s) missing

/-- Columns of the powers zero, one and two, no more of them than rows. -/
theorem powers_regular {t : ℕ} {x : Fin t → K} {e : Fin t → ℕ} (distinct : Function.Injective x)
    (nonzero : ∀ r, x r ≠ 0) (squares : ∀ r s, x r ^ 2 = x s ^ 2 → x r = x s)
    (exponents : Function.Injective e) (small : ∀ s, e s < 3) :
    (Matrix.of fun r s => x r ^ e s).det ≠ 0 := by
  have few : t ≤ 3 := by
    simpa using Fintype.card_le_of_injective (fun s => (⟨e s, small s⟩ : Fin 3))
      fun s s' same => exponents (congrArg Fin.val same)
  match t, few with
  | 0, _ => simp
  | 1, _ => simpa [det_unique] using fun zero => absurd zero (nonzero 0)
  | 2, _ =>
    have apart : x 1 - x 0 ≠ 0 := sub_ne_zero.mpr fun same => by simpa using distinct same
    have squaresApart : x 1 ^ 2 - x 0 ^ 2 ≠ 0 :=
      sub_ne_zero.mpr fun same => by simpa using distinct (squares _ _ same)
    have different : e 0 ≠ e 1 := fun same => by simpa using exponents same
    have first := small 0
    have second := small 1
    rw [det_fin_two]
    simp only [of_apply]
    interval_cases e 0 <;> interval_cases e 1
    all_goals first | exact absurd rfl different | skip
    · simpa using apart
    · simpa using squaresApart
    · intro zero
      apply apart
      linear_combination -zero
    · intro zero
      apply mul_ne_zero (mul_ne_zero (nonzero 0) (nonzero 1)) apart
      linear_combination zero
    · intro zero
      apply squaresApart
      linear_combination -zero
    · intro zero
      apply mul_ne_zero (mul_ne_zero (nonzero 0) (nonzero 1)) apart
      linear_combination -zero
  | 3, _ =>
    let order : Fin 3 ≃ Fin 3 := Equiv.ofBijective (fun s => ⟨e s, small s⟩)
      (Finite.injective_iff_bijective.mp fun s s' same => exponents (congrArg Fin.val same))
    have permuted : (Matrix.of fun r s => x r ^ e s) = (vandermonde x).submatrix id order := rfl
    rw [permuted, det_permute']
    apply mul_ne_zero
    · rcases Int.units_eq_one_or (Equiv.Perm.sign order) with even | odd
      · simp [even]
      · simp [odd]
    · exact det_vandermonde_ne_zero_iff.mpr distinct

end Isal
