import Isal.ErasureCode
import Isal.GaussJordan

/-! `gf_invert_matrix` is Gauss-Jordan elimination: it returns 0 and leaves the inverse exactly
when the determinant is not zero. -/
namespace Isal.Erasure
open Loops Matrix

/-- The square matrix that an array holds row after row. -/
def toMatrix (n : Nat) (a : Arr UInt8) : Matrix (Fin n) (Fin n) Gf := fun r c => ⟨a (r * n + c)⟩

theorem cell_eq {n r c r' c' : Nat} (inRow : c < n) (inRow' : c' < n) :
    r * n + c = r' * n + c' ↔ r = r' ∧ c = c' := by
  constructor
  · intro same
    have rows := congrArg (· / n) same
    have columns := congrArg (· % n) same
    have positive : 0 < n := by omega
    simp only [Nat.mul_comm _ n, Nat.mul_add_div positive, Nat.div_eq_of_lt inRow,
      Nat.div_eq_of_lt inRow', Nat.mul_add_mod, Nat.mod_eq_of_lt inRow,
      Nat.mod_eq_of_lt inRow'] at rows columns
    omega
  · rintro ⟨rfl, rfl⟩
    rfl

/-- A loop over the columns whose rounds each rewrite one column from itself. -/
theorem columnwise {n : Nat} {f : Nat → Arr UInt8 → Arr UInt8} (g : (Nat → UInt8) → Nat → UInt8)
    (round : ∀ k < n, ∀ a : Arr UInt8, ∀ r c, c < n →
      (f k a) (r * n + c) = if c = k then g (fun r => a (r * n + c)) r else a (r * n + c))
    (a : Arr UInt8) {r c : Nat} (inRow : c < n) :
    (forRange 0 n f a) (r * n + c) = g (fun r => a (r * n + c)) r := by
  have loop : ∀ r c, c < n → (forRange 0 n f a) (r * n + c) =
      if c < n then g (fun r => a (r * n + c)) r else a (r * n + c) := by
    apply forRange_invariant (fun k (b : Arr UInt8) => ∀ r c, c < n →
      b (r * n + c) = if c < k then g (fun r => a (r * n + c)) r else a (r * n + c)) (Nat.zero_le n)
    · intro r c _
      rw [if_neg (Nat.not_lt_zero _)]
    · intro k b _ within before r c inRow
      rw [round k within b r c inRow]
      by_cases here : c = k
      · subst here
        rw [if_pos rfl, if_pos (Nat.lt_succ_self _)]
        congr 1
        funext r
        rw [before r c inRow, if_neg (Nat.lt_irrefl _)]
      · rw [if_neg here, before r c inRow]
        by_cases low : c < k
        · rw [if_pos low, if_pos (by omega)]
        · rw [if_neg low, if_neg (by omega)]
  rw [loop r c inRow, if_pos inRow]

/-- A loop over both matrices is a loop over each. -/
theorem forRange_mats (lo hi : Nat) (f g : Nat → Arr UInt8 → Arr UInt8) (s : Mats) :
    forRange lo hi (fun k s => (⟨f k s.inMat, g k s.outMat⟩ : Mats)) s =
      ⟨forRange lo hi f s.inMat, forRange lo hi g s.outMat⟩ := by
  rcases Nat.le_total lo hi with le | le
  · induction hi, le using Nat.le_induction with
    | base => simp only [forRange_done (Nat.le_refl _)]
    | succ hi le ih => simp only [forRange_last le, ih]
  · simp only [forRange_done le]

variable {n : Nat}

theorem toMatrix_swap (a : Arr UInt8) (i j : Fin n) :
    toMatrix n (forRange 0 n (swapEntry n i j) a) = Matrix.swap Gf i j * toMatrix n a := by
  have loop (r c : Fin n) : (forRange 0 n (swapEntry n i j) a) (r * n + c) =
      if (r : Nat) = j then a (i * n + c) else if (r : Nat) = i then a (j * n + c) else a (r * n + c) := by
    apply columnwise (fun column r => if r = j then column i else if r = i then column j else column r)
      ?_ a c.isLt
    intro k within a r c inRow
    simp only [swapEntry, Arr.set_get, cell_eq inRow within]
    by_cases here : c = k
    · subst here; simp
    · simp [here]
  apply Matrix.ext
  intro r c
  by_cases atFirst : r = i
  · subst atFirst
    rw [swap_mul_apply_left, toMatrix, loop]
    by_cases same : r = j
    · subst same; simp [toMatrix]
    · simp [toMatrix, Fin.val_inj, same]
  by_cases atSecond : r = j
  · subst atSecond
    rw [swap_mul_apply_right, toMatrix, loop]
    simp [toMatrix]
  · rw [swap_mul_of_ne atFirst atSecond, toMatrix, loop]
    simp [toMatrix, Fin.val_inj, atFirst, atSecond]

theorem toMatrix_scale (a : Arr UInt8) (i : Fin n) (x : Gf) :
    toMatrix n (forRange 0 n (scaleEntry n i x.byte) a) =
      diagonal (fun r => if r = i then x else 1) * toMatrix n a := by
  have loop (r c : Fin n) : (forRange 0 n (scaleEntry n i x.byte) a) (r * n + c) =
      if (r : Nat) = i then gfMul (a (r * n + c)) x.byte else a (r * n + c) := by
    apply columnwise (fun column r => if r = i then gfMul (column r) x.byte else column r) ?_ a c.isLt
    intro k within a r c inRow
    simp only [scaleEntry, Arr.set_get, cell_eq inRow within]
    by_cases here : c = k
    · subst here
      by_cases same : r = i
      · subst same; simp
      · simp [same]
    · simp [here]
  apply Matrix.ext
  intro r c
  rw [diagonal_mul, toMatrix, loop]
  by_cases same : r = i
  · subst same
    rw [if_pos rfl, if_pos rfl, mul_comm x]
    exact Gf.ext (Gf.mul_byte _ _).symm
  · rw [if_neg (fun h => same (Fin.ext h)), if_neg same, one_mul]
    rfl

theorem toMatrix_add (a : Arr UInt8) {i j : Fin n} (different : j ≠ i) (x : Gf) :
    toMatrix n (forRange 0 n (addEntry n i j x.byte) a) = transvection j i x * toMatrix n a := by
  have apart : (i : Nat) ≠ j := fun h => different (Fin.ext h.symm)
  have loop (r c : Fin n) : (forRange 0 n (addEntry n i j x.byte) a) (r * n + c) =
      if (r : Nat) = j then a (r * n + c) ^^^ gfMul x.byte (a (i * n + c)) else a (r * n + c) := by
    apply columnwise (fun column r => if r = j then column r ^^^ gfMul x.byte (column i) else column r)
      ?_ a c.isLt
    intro k within a r c inRow
    simp only [addEntry, Arr.set_get, cell_eq inRow within]
    by_cases here : c = k
    · subst here
      by_cases same : r = j
      · subst same; simp
      · simp [same]
    · simp [here]
  apply Matrix.ext
  intro r c
  by_cases same : r = j
  · subst same
    rw [transvection_mul_apply_same, toMatrix, loop, if_pos rfl]
    apply Gf.ext
    rw [Gf.add_byte, Gf.mul_byte]
    rfl
  · rw [transvection_mul_apply_of_ne _ _ _ _ same, toMatrix, loop,
      if_neg (fun h => same (Fin.ext h))]
    rfl

/-- Both matrices after the same row operations on `m` and on the identity. -/
structure Reducing (m : Matrix (Fin n) (Fin n) Gf) (i : Nat) (s : Mats) : Prop where
  rows : RowsOf m (toMatrix n s.inMat) (toMatrix n s.outMat)
  cleared : Cleared i (toMatrix n s.inMat)

variable {m : Matrix (Fin n) (Fin n) Gf} {s : Mats} {i : Fin n}

theorem swapRows_reducing {j : Fin n} (later : i ≤ j) (reducing : Reducing m i s) :
    Reducing m i (swapRows n i j s) := by
  rw [swapRows, forRange_mats]
  constructor
  · simp only [toMatrix_swap]
    exact reducing.rows.swap i j
  · simp only [toMatrix_swap]
    exact reducing.cleared.swap (Nat.le_refl _) later

theorem swapRows_pivot {j : Fin n} :
    (swapRows n i j s).inMat (i * n + i) = s.inMat (j * n + i) := by
  rw [swapRows, forRange_mats]
  have entry := congrFun (congrFun (toMatrix_swap s.inMat i j) i) i
  rw [swap_mul_apply_left] at entry
  exact congrArg Gf.byte entry

/-- After the scaling the pivot is one. -/
theorem scaleRow_reducing (pivot : s.inMat (i * n + i) ≠ 0) (reducing : Reducing m i s) :
    Reducing m i (scaleRow n i s) ∧ toMatrix n (scaleRow n i s).inMat i i = 1 := by
  have nonzero : toMatrix n s.inMat i i ≠ 0 := fun zero => pivot (congrArg Gf.byte zero)
  have factor : gfInv (s.inMat (i * n + i)) = ((toMatrix n s.inMat i i)⁻¹).byte := by
    rw [Gf.inv_byte]; rfl
  rw [scaleRow, factor, forRange_mats]
  refine ⟨⟨?_, ?_⟩, ?_⟩
  · simp only [toMatrix_scale]
    apply reducing.rows.scale
    intro r
    split
    · exact inv_ne_zero nonzero
    · exact one_ne_zero
  · simp only [toMatrix_scale]
    apply reducing.cleared.scale
    intro r low
    rw [if_neg (by rintro rfl; omega)]
  · simp only [toMatrix_scale]
    rw [diagonal_mul, if_pos rfl, inv_mul_cancel₀ nonzero]

/-- Adding the pivot row clears one entry of the pivot's column and keeps the others. -/
theorem addRow_reducing {j : Fin n} (different : j ≠ i) (reducing : Reducing m i s)
    (one : toMatrix n s.inMat i i = 1) :
    Reducing m i (addRow n i j s) ∧ ∀ r, toMatrix n (addRow n i j s).inMat r i =
      if r = j then 0 else toMatrix n s.inMat r i := by
  have factor : s.inMat (j * n + i) = (toMatrix n s.inMat j i).byte := rfl
  rw [addRow, factor, forRange_mats]
  refine ⟨⟨?_, ?_⟩, ?_⟩
  · simp only [toMatrix_add _ different]
    exact reducing.rows.add different _
  · simp only [toMatrix_add _ different]
    exact reducing.cleared.add (Nat.le_refl _) _
  · intro r
    simp only [toMatrix_add _ different]
    split
    · rename_i same
      subst same
      rw [transvection_mul_apply_same, one, mul_one]
      exact neg_add_cancel (toMatrix n s.inMat r i)
    · rename_i apart
      rw [transvection_mul_apply_of_ne _ _ _ _ apart]

theorem clearColumn_reducing (pivot : s.inMat (i * n + i) ≠ 0) (reducing : Reducing m i s) :
    Reducing m (i + 1) (clearColumn n i s) := by
  have loop : Reducing m i (clearColumn n i s) ∧ ∀ r : Fin n,
      (r = i → toMatrix n (clearColumn n i s).inMat r i = 1) ∧
        (r < n → r ≠ i → toMatrix n (clearColumn n i s).inMat r i = 0) := by
    rw [clearColumn]
    apply forRange_invariant (fun (j : Nat) (t : Mats) => Reducing m i t ∧ ∀ r : Fin n,
      (r = i → toMatrix n t.inMat r i = 1) ∧ (r < j → r ≠ i → toMatrix n t.inMat r i = 0))
      (Nat.zero_le n)
    · obtain ⟨scaled, one⟩ := scaleRow_reducing pivot reducing
      refine ⟨scaled, fun r => ⟨?_, ?_⟩⟩
      · rintro rfl
        exact one
      · intro low
        exact absurd low (Nat.not_lt_zero _)
    · intro j t _ within ⟨before, column⟩
      by_cases same : j = i
      · rw [if_pos same]
        refine ⟨before, fun r => ⟨(column r).1, fun low apart => (column r).2 ?_ apart⟩⟩
        have other : (r : Nat) ≠ i := fun h => apart (Fin.ext h)
        omega
      · rw [if_neg same]
        have different : (⟨j, within⟩ : Fin n) ≠ i := fun h => same (congrArg Fin.val h)
        obtain ⟨kept, entry⟩ := addRow_reducing different before ((column i).1 rfl)
        refine ⟨kept, fun r => ⟨?_, ?_⟩⟩
        · rintro rfl
          rw [entry, if_neg (Ne.symm different)]
          exact (column r).1 rfl
        · intro low apart
          rw [entry]
          split
          · rfl
          · rename_i later
            have other : (r : Nat) ≠ j := fun h => later (Fin.ext h)
            exact (column r).2 (by omega) apart
  refine ⟨loop.1.rows, loop.1.cleared.next ?_⟩
  intro c here r
  obtain rfl : c = i := Fin.ext here
  split
  · rename_i same
    exact (loop.2 r).1 same
  · rename_i apart
    exact (loop.2 r).2 r.isLt apart

/-- The search finds a later row with a pivot unless the column is zero from there on. -/
theorem findPivot_cases (n i : Nat) (inMat : Arr UInt8) :
    (findPivot n i inMat = n ∧ ∀ j, i < j → j < n → inMat (j * n + i) = 0) ∨
    (i < findPivot n i inMat ∧ findPivot n i inMat < n ∧ inMat (findPivot n i inMat * n + i) ≠ 0) := by
  rw [findPivot]
  cases found : (List.range' (i + 1) (n - (i + 1))).find? fun j => inMat (j * n + i) ≠ 0 with
  | none =>
    refine Or.inl ⟨rfl, fun j low high => ?_⟩
    have none := List.find?_eq_none.mp found j (List.mem_range'_1.mpr (by omega))
    simpa using none
  | some j =>
    have member := List.mem_range'_1.mp (List.mem_of_find?_eq_some found)
    have pivot := List.find?_some found
    refine Or.inr ⟨?_, ?_, ?_⟩
    · simp only [Option.getD_some]; omega
    · simp only [Option.getD_some]; omega
    · simpa using pivot

/-- One round clears one column more, or shows that the matrix has no inverse. -/
theorem invertColumn_reducing (reducing : Reducing m i s) :
    ((invertColumn n i s).1 = 0 ∧ Reducing m (i + 1) (invertColumn n i s).2) ∨
    ((invertColumn n i s).1 = -1 ∧ m.det = 0) := by
  rw [invertColumn]
  split
  · rename_i zero
    rcases findPivot_cases n i s.inMat with ⟨none, below⟩ | ⟨later, within, pivot⟩
    · rw [if_pos none]
      refine Or.inr ⟨rfl, reducing.cleared.singular reducing.rows i rfl ?_⟩
      intro r high
      apply Gf.ext
      rcases Nat.lt_or_eq_of_le high with after | same
      · exact below r after r.isLt
      · obtain rfl : i = r := Fin.ext same
        exact zero
    · rw [if_neg (Nat.ne_of_lt within)]
      refine Or.inl ⟨rfl, clearColumn_reducing ?_ ?_⟩
      · rw [swapRows_pivot (j := ⟨_, within⟩)]
        exact pivot
      · exact swapRows_reducing (j := ⟨_, within⟩) (Nat.le_of_lt later) reducing
  · rename_i pivot
    exact Or.inl ⟨rfl, clearColumn_reducing pivot reducing⟩

theorem identity_toMatrix (out : Arr UInt8) :
    toMatrix n (forRange 0 n (fun i out => out.set (i * n + i) 1)
      (forRange 0 (n * n) (fun i out => out.set i 0) out)) = 1 := by
  have zeros : ∀ p, p < n * n → (forRange 0 (n * n) (fun i out => out.set i 0) out) p = 0 := by
    apply forRange_invariant (fun i (out : Arr UInt8) => ∀ p, p < i → out p = 0) (Nat.zero_le _)
    · intro p low
      exact absurd low (Nat.not_lt_zero _)
    · intro i out _ _ before p low
      rw [Arr.set_get]
      split
      · rfl
      · exact before p (by omega)
  have ones : ∀ r c : Fin n, (forRange 0 n (fun i out => out.set (i * n + i) 1)
      (forRange 0 (n * n) (fun i out => out.set i 0) out)) (r * n + c) =
      if r = c ∧ r < n then 1 else 0 := by
    apply forRange_invariant (fun i (out : Arr UInt8) => ∀ r c : Fin n,
      out (r * n + c) = if r = c ∧ r < i then 1 else 0) (Nat.zero_le _)
    · intro r c
      rw [if_neg (fun h => Nat.not_lt_zero _ h.2)]
      apply zeros
      have row : r * n + n ≤ n * n := by
        rw [← Nat.succ_mul]
        exact Nat.mul_le_mul_right _ r.isLt
      omega
    · intro i out _ within before r c
      simp only [Arr.set_get, cell_eq c.isLt within, before r c]
      by_cases here : (r : Nat) = i ∧ (c : Nat) = i
      · rw [if_pos here, if_pos ⟨Fin.ext (here.1.trans here.2.symm), by omega⟩]
      · rw [if_neg here]
        by_cases same : r = c
        · subst same
          have other : (r : Nat) ≠ i := by simpa using here
          have shift : (r : Nat) < i ↔ (r : Nat) < i + 1 := by omega
          simp only [true_and, shift]
        · simp only [same, false_and, if_false]
  apply Matrix.ext
  intro r c
  rw [toMatrix, ones r c, one_apply]
  by_cases same : r = c
  · subst same
    rw [if_pos ⟨rfl, r.isLt⟩, if_pos rfl]
    rfl
  · rw [if_neg (fun h => same h.1), if_neg same]
    rfl

/-- The rounds run through all columns, or one of them finds the matrix singular. -/
theorem gfInvertMatrix_reducing (inMat outMat : Arr UInt8) (n : Nat) :
    ((gfInvertMatrix inMat outMat n).1 = 0 ∧
      Reducing (toMatrix n inMat) n (gfInvertMatrix inMat outMat n).2) ∨
    ((gfInvertMatrix inMat outMat n).1 = -1 ∧ (toMatrix n inMat).det = 0) := by
  rw [gfInvertMatrix]
  apply forRange_invariant (fun i (r : Int × Mats) =>
    (r.1 = 0 ∧ Reducing (toMatrix n inMat) i r.2) ∨ (r.1 = -1 ∧ (toMatrix n inMat).det = 0))
    (Nat.zero_le n)
  · refine Or.inl ⟨rfl, ?_, Cleared.start⟩
    rw [identity_toMatrix]
    exact RowsOf.start
  · rintro i r _ within (⟨running, reducing⟩ | ⟨stopped, singular⟩)
    · rw [if_pos running]
      exact invertColumn_reducing (i := ⟨i, within⟩) reducing
    · rw [if_neg (by rw [stopped]; decide)]
      exact Or.inr ⟨stopped, singular⟩

/-- The inversion succeeds on the regular matrices and on no others. -/
theorem gfInvertMatrix_cases (inMat outMat : Arr UInt8) (n : Nat) :
    ((gfInvertMatrix inMat outMat n).1 = 0 ∧
      toMatrix n (gfInvertMatrix inMat outMat n).2.outMat * toMatrix n inMat = 1) ∨
    ((gfInvertMatrix inMat outMat n).1 = -1 ∧ (toMatrix n inMat).det = 0) := by
  rcases gfInvertMatrix_reducing inMat outMat n with ⟨done, reduced⟩ | stopped
  · exact Or.inl ⟨done, reduced.cleared.inverse reduced.rows⟩
  · exact Or.inr stopped

theorem gfInvertMatrix_regular {inMat : Arr UInt8} {n : Nat} (outMat : Arr UInt8)
    (regular : (toMatrix n inMat).det ≠ 0) :
    (gfInvertMatrix inMat outMat n).1 = 0 ∧
      toMatrix n (gfInvertMatrix inMat outMat n).2.outMat * toMatrix n inMat = 1 := by
  rcases gfInvertMatrix_cases inMat outMat n with done | ⟨_, singular⟩
  · exact done
  · exact absurd singular regular

theorem gfInvertMatrix_zero_iff (inMat outMat : Arr UInt8) (n : Nat) :
    (gfInvertMatrix inMat outMat n).1 = 0 ↔ (toMatrix n inMat).det ≠ 0 := by
  constructor
  · intro done singular
    rcases gfInvertMatrix_cases inMat outMat n with ⟨_, inverse⟩ | ⟨stopped, _⟩
    · have product := congrArg det inverse
      rw [det_mul, singular, mul_zero, det_one] at product
      exact zero_ne_one product
    · rw [done] at stopped
      exact absurd stopped (by decide)
  · intro regular
    exact (gfInvertMatrix_regular outMat regular).1

/-- A regular matrix becomes the identity and leaves its inverse on both sides; a singular one
is refused. -/
theorem gfInvertMatrix_computes (inMat outMat : Arr UInt8) (n : Nat) :
    ((toMatrix n inMat).det ≠ 0 ∧ (gfInvertMatrix inMat outMat n).1 = 0 ∧
      toMatrix n (gfInvertMatrix inMat outMat n).2.outMat * toMatrix n inMat = 1 ∧
      toMatrix n inMat * toMatrix n (gfInvertMatrix inMat outMat n).2.outMat = 1 ∧
      toMatrix n (gfInvertMatrix inMat outMat n).2.inMat = 1) ∨
    ((toMatrix n inMat).det = 0 ∧ (gfInvertMatrix inMat outMat n).1 = -1) := by
  rcases gfInvertMatrix_reducing inMat outMat n with ⟨done, reduced⟩ | ⟨stopped, singular⟩
  · have inverse := reduced.cleared.inverse reduced.rows
    refine Or.inl ⟨(gfInvertMatrix_zero_iff inMat outMat n).mp done, done, inverse,
      mul_eq_one_comm.mp inverse, ?_⟩
    apply Matrix.ext
    intro r c
    rw [reduced.cleared c c.isLt r, one_apply]
  · exact Or.inr ⟨singular, stopped⟩

end Isal.Erasure
