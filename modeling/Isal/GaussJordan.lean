import Mathlib

/-! Gauss-Jordan elimination over a field: row operations applied alike to a matrix and to the
identity, and what the columns cleared so far say of the matrix they started from. -/
namespace Isal
open Matrix

variable {K : Type*} [Field K] {n : ℕ} {a m b : Matrix (Fin n) (Fin n) K}

/-- `m` is `a` after row operations, which `b` collects. -/
structure RowsOf (a m b : Matrix (Fin n) (Fin n) K) : Prop where
  product : b * a = m
  regular : b.det ≠ 0

/-- The first `i` columns are those of the identity. -/
def Cleared (i : ℕ) (m : Matrix (Fin n) (Fin n) K) : Prop :=
  ∀ c : Fin n, c < i → ∀ r, m r c = if r = c then 1 else 0

namespace RowsOf

theorem start : RowsOf a a 1 := ⟨one_mul a, by simp⟩

theorem apply (rows : RowsOf a m b) (e : Matrix (Fin n) (Fin n) K) (regular : e.det ≠ 0) :
    RowsOf a (e * m) (e * b) := by
  constructor
  · rw [Matrix.mul_assoc, rows.product]
  · rw [det_mul]
    exact mul_ne_zero regular rows.regular

theorem swap (rows : RowsOf a m b) (r s : Fin n) :
    RowsOf a (Matrix.swap K r s * m) (Matrix.swap K r s * b) := by
  apply rows.apply
  intro zero
  have square := congrArg det (swap_mul_self (R := K) r s)
  rw [det_mul, zero, zero_mul, det_one] at square
  exact zero_ne_one square

theorem scale (rows : RowsOf a m b) (d : Fin n → K) (nonzero : ∀ r, d r ≠ 0) :
    RowsOf a (diagonal d * m) (diagonal d * b) := by
  apply rows.apply
  rw [det_diagonal]
  exact Finset.prod_ne_zero_iff.mpr fun r _ => nonzero r

theorem add (rows : RowsOf a m b) {r s : Fin n} (different : r ≠ s) (x : K) :
    RowsOf a (transvection r s x * m) (transvection r s x * b) := by
  apply rows.apply
  rw [det_transvection_of_ne _ _ different]
  exact one_ne_zero

end RowsOf

namespace Cleared
variable {i : ℕ}

theorem start : Cleared 0 m := fun _ low => absurd low (Nat.not_lt_zero _)

/-- Below the cleared columns' own rows these columns are zero. -/
theorem below (cleared : Cleared i m) {r c : Fin n} (low : c < i) (high : i ≤ r) : m r c = 0 := by
  rw [cleared c low r, if_neg]
  rintro rfl
  omega

theorem swap (cleared : Cleared i m) {r s : Fin n} (first : i ≤ r) (second : i ≤ s) :
    Cleared i (Matrix.swap K r s * m) := by
  intro c low t
  by_cases atFirst : t = r
  · subst atFirst
    rw [swap_mul_apply_left, cleared.below low second, if_neg (by rintro rfl; omega)]
  by_cases atSecond : t = s
  · subst atSecond
    rw [swap_mul_apply_right, cleared.below low first, if_neg (by rintro rfl; omega)]
  rw [swap_mul_of_ne atFirst atSecond, cleared c low t]

theorem scale (cleared : Cleared i m) {d : Fin n → K} (kept : ∀ r : Fin n, r < i → d r = 1) :
    Cleared i (diagonal d * m) := by
  intro c low r
  rw [diagonal_mul]
  by_cases high : i ≤ r
  · rw [cleared.below low high, mul_zero, if_neg (by rintro rfl; omega)]
  · rw [kept r (by omega), one_mul, cleared c low r]

theorem add (cleared : Cleared i m) {r s : Fin n} (high : i ≤ s) (x : K) :
    Cleared i (transvection r s x * m) := by
  intro c low t
  by_cases same : t = r
  · subst same
    rw [transvection_mul_apply_same, cleared.below low high, mul_zero, add_zero, cleared c low]
  · rw [transvection_mul_apply_of_ne _ _ _ _ same, cleared c low]

theorem next (cleared : Cleared i m) (unit : ∀ c : Fin n, c = i → ∀ r, m r c = if r = c then 1 else 0) :
    Cleared (i + 1) m := by
  intro c low
  rcases Nat.lt_succ_iff_lt_or_eq.mp low with before | here
  · exact cleared c before
  · exact unit c here

/-- A column that is zero from its own row on is a combination of the columns before it. -/
theorem singular (cleared : Cleared i m) (rows : RowsOf a m b) (p : Fin n) (column : p = i)
    (zero : ∀ r : Fin n, i ≤ r → m r p = 0) : a.det = 0 := by
  have null : ∃ v ≠ 0, m *ᵥ v = 0 := by
    refine ⟨fun c => if c = p then -1 else if c < p then m c p else 0, ?_, ?_⟩
    · intro vanishes
      have last := congrFun vanishes p
      simp at last
    · funext r
      rw [mulVec, dotProduct, Pi.zero_apply]
      have terms (c : Fin n) : m r c * (if c = p then -1 else if c < p then m c p else 0) =
          (if c = p then -m r p else 0) + (if c = r then (if r < p then m r p else 0) else 0) := by
        by_cases last : c = p
        · subst last
          by_cases same : c = r
          · subst same; simp
          · simp [same]
        · by_cases before : c < p
          · rw [cleared c (by omega) r]
            by_cases same : c = r
            · subst same; simp [last, before]
            · simp [last, same, Ne.symm same]
          · by_cases same : c = r
            · subst same; simp [last, before]
            · simp [last, before, same]
      rw [Finset.sum_congr rfl fun c _ => terms c, Finset.sum_add_distrib]
      simp only [Finset.sum_ite_eq', Finset.mem_univ, if_true]
      by_cases before : r < p
      · simp [before]
      · rw [zero r (by omega)]
        simp
  have product := exists_mulVec_eq_zero_iff.mp null
  rw [← rows.product, det_mul] at product
  exact (mul_eq_zero.mp product).resolve_left rows.regular

/-- With all columns cleared the collected operations are the inverse. -/
theorem inverse (cleared : Cleared n m) (rows : RowsOf a m b) : b * a = 1 := by
  rw [rows.product]
  ext r c
  rw [cleared c c.isLt r, one_apply]

end Cleared
end Isal
