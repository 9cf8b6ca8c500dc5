import Isal.CodingTables
import Isal.MatrixInversion

/-! Encoding multiplies the data by the coding matrix, and encoding the survivors with the
decode rows gives the lost fragments back. -/
namespace Isal.Erasure
open Loops Matrix

/-- The data followed by the parity made from the rows below the identity. -/
def encodeFragments (len k m : Nat) (encodeMatrix gTbls : Arr UInt8) (data parity : Buffers) :
    Buffers :=
  let gTbls := ecInitTablesBase k (m - k) (encodeMatrix.from_ (k * k)) gTbls
  let parity := ecEncodeDataBase len k (m - k) gTbls data parity
  ⟨fun i => if i < k then data i else parity (i - k)⟩

/-- The arrays a recovery writes, with whatever they hold before. -/
structure Scratch where
  b : Arr UInt8
  invertMatrix : Arr UInt8
  decodeMatrix : Arr UInt8
  gTbls : Arr UInt8
  dest : Buffers

/-- The result of the inversion and the recovered fragments. -/
def recoverFragments (len k nerrs : Nat) (encodeMatrix : Arr UInt8) (srcErrList decodeIndex : Arr Nat)
    (buffs : Buffers) (w : Scratch) : Int × Buffers :=
  let b := survivingRows k encodeMatrix decodeIndex w.b
  let inversion := gfInvertMatrix b w.invertMatrix k
  let decodeMatrix := decodeRows k nerrs encodeMatrix inversion.2.outMat srcErrList w.decodeMatrix
  let recov : Buffers := ⟨fun i => buffs (decodeIndex i)⟩
  let gTbls := ecInitTablesBase k nerrs decodeMatrix w.gTbls
  (inversion.1, ecEncodeDataBase len k nerrs gTbls recov w.dest)

/-- The first `count` factors are in the tables. -/
structure Written (a : Arr UInt8) (count : Nat) (w : TableWriter) : Prop where
  read : w.a = count
  write : w.gTbls = 32 * count
  factors : ∀ x < count, w.tables (32 * x + 1) = a x

theorem selected_one (c : UInt8) : selected c 1 = c := by
  simp [selected, show Nat.testBit 1 0 = true from rfl, show Nat.testBit 1 1 = false from rfl,
    show Nat.testBit 1 2 = false from rfl, show Nat.testBit 1 3 = false from rfl]

theorem Written.next {a : Arr UInt8} {count : Nat} {w : TableWriter} (written : Written a count w) :
    Written a (count + 1)
      ⟨w.a + 1, w.gTbls + 32, gfVectMulInitBase (a w.a) w.tables w.gTbls⟩ := by
  obtain ⟨read, write, factors⟩ := written
  refine ⟨by simp [read], by simp only [write]; omega, ?_⟩
  intro x low
  simp only [gfVectMulInitBase_get, read, write]
  by_cases last : x = count
  · subst last
    rw [if_pos (by omega), show 32 * x + 1 - 32 * x = 1 by omega, selected_one]
  · rw [if_neg (by omega), if_neg (by omega)]
    exact factors x (by omega)

/-- The second byte of each table is the coefficient it was made from. -/
theorem ecInitTablesBase_factor (k rows : Nat) (a gTbls : Arr UInt8) {l j : Nat} (row : l < rows)
    (column : j < k) : (ecInitTablesBase k rows a gTbls) (j * 32 + l * k * 32 + 1) = a (l * k + j) := by
  have all : Written a (rows * k) (forRange 0 rows (fun _ w =>
      forRange 0 k (fun _ w =>
        ⟨w.a + 1, w.gTbls + 32, gfVectMulInitBase (a w.a) w.tables w.gTbls⟩) w)
      (⟨0, 0, gTbls⟩ : TableWriter)) := by
    apply forRange_invariant (fun l w => Written a (l * k) w) (Nat.zero_le rows)
    · rw [Nat.zero_mul]
      exact ⟨rfl, rfl, fun x low => absurd low (Nat.not_lt_zero _)⟩
    · intro l w _ _ before
      rw [Nat.succ_mul]
      apply forRange_invariant (fun j w => Written a (l * k + j) w) (Nat.zero_le k)
      · exact before
      · intro j w _ _ before
        exact before.next
  have inside : l * k + j < rows * k := by
    have step : l * k + k ≤ rows * k := by
      rw [← Nat.succ_mul]
      exact Nat.mul_le_mul_right _ row
    omega
  have entry := all.factors (l * k + j) inside
  rw [ecInitTablesBase, ← entry]
  congr 1
  ring

/-- The inner loop is a dot product in the field. -/
theorem dot_sum (n : Nat) (x y : Nat → UInt8) :
    (⟨forRange 0 n (fun j s => s ^^^ gfMul (x j) (y j)) 0⟩ : Gf) =
      ∑ j : Fin n, (⟨x j⟩ : Gf) * ⟨y j⟩ := by
  induction n with
  | zero => rfl
  | succ n ih =>
    rw [Fin.sum_univ_castSucc, forRange_last (Nat.zero_le n)]
    simp only [Fin.val_castSucc, Fin.val_last, ← ih]
    apply Gf.ext
    rw [Gf.add_byte, Gf.mul_byte]

/-- Every destination byte is the dot product of its coefficients with the source bytes. -/
theorem ecEncodeDataBase_get (len srcs dests : Nat) (v : Arr UInt8) (src dest : Buffers) {l i : Nat}
    (row : l < dests) (inside : i < len) :
    (⟨((ecEncodeDataBase len srcs dests v src dest) l) i⟩ : Gf) =
      ∑ j : Fin srcs, (⟨(src j) i⟩ : Gf) * ⟨v (j * 32 + l * srcs * 32 + 1)⟩ := by
  let dot (l i : Nat) : UInt8 := forRange 0 srcs (fun j s =>
    s ^^^ gfMul ((src j) i) (v (j * 32 + l * srcs * 32 + 1))) 0
  have oneRow (l : Nat) (dest : Buffers) : ∀ l' i, ((forRange 0 len (fun i dest =>
      dest.set l ((dest l).set i (dot l i))) dest) l') i =
      if l' = l ∧ i < len then dot l' i else (dest l') i := by
    apply forRange_invariant (fun x (d : Buffers) => ∀ l' i, (d l') i =
      if l' = l ∧ i < x then dot l' i else (dest l') i) (Nat.zero_le len)
    · intro l' i
      rw [if_neg (by omega)]
    · intro x d _ _ before l' i
      rw [Arr.set_get]
      by_cases same : l' = l
      · subst same
        rw [if_pos rfl, Arr.set_get]
        by_cases here : i = x
        · subst here
          rw [if_pos rfl, if_pos ⟨rfl, Nat.lt_succ_self _⟩]
        · rw [if_neg here, before]
          have shift : i < x ↔ i < x + 1 := by omega
          simp only [true_and, shift]
      · rw [if_neg same, before, if_neg (by omega), if_neg (by omega)]
  have rows : ∀ l' < dests, ∀ i < len,
      ((ecEncodeDataBase len srcs dests v src dest) l') i = dot l' i := by
    rw [ecEncodeDataBase]
    apply forRange_invariant (fun x (d : Buffers) => ∀ l' < x, ∀ i < len, (d l') i = dot l' i)
      (Nat.zero_le dests)
    · intro l' low
      exact absurd low (Nat.not_lt_zero _)
    · intro x d _ _ before l' low i inside
      rw [oneRow x d l' i]
      split
      · rfl
      · exact before l' (by omega) i inside
  rw [rows l row i inside]
  exact dot_sum srcs (fun j => (src j) i) (fun j => v (j * 32 + l * srcs * 32 + 1))

/-- Writes to every entry of a matrix of `k` columns, row after row. -/
theorem matrix_written {k rows : Nat} (entry : Nat → Nat → UInt8) (a : Arr UInt8) {i j : Nat}
    (row : i < rows) (column : j < k) :
    (forRange 0 rows (fun i a => forRange 0 k (fun j a => a.set (k * i + j) (entry i j)) a) a)
      (k * i + j) = entry i j := by
  have oneRow (i : Nat) (a : Arr UInt8) : ∀ i' j', j' < k →
      (forRange 0 k (fun j a => a.set (k * i + j) (entry i j)) a) (k * i' + j') =
        if i' = i ∧ j' < k then entry i' j' else a (k * i' + j') := by
    apply forRange_invariant (fun x (b : Arr UInt8) => ∀ i' j', j' < k → b (k * i' + j') =
      if i' = i ∧ j' < x then entry i' j' else a (k * i' + j')) (Nat.zero_le k)
    · intro i' j' _
      rw [if_neg (by omega)]
    · intro x b _ within before i' j' column
      simp only [Arr.set_get, Nat.mul_comm k, cell_eq column within]
      by_cases here : i' = i ∧ j' = x
      · rw [if_pos here, if_pos ⟨here.1, by omega⟩, here.1, here.2]
      · rw [if_neg here, Nat.mul_comm i', before i' j' column]
        have shift : (i' = i ∧ j' < x) ↔ (i' = i ∧ j' < x + 1) := by omega
        simp only [shift]
  have all : ∀ i' < rows, ∀ j' < k, (forRange 0 rows (fun i a =>
      forRange 0 k (fun j a => a.set (k * i + j) (entry i j)) a) a) (k * i' + j') = entry i' j' := by
    apply forRange_invariant (fun x (b : Arr UInt8) => ∀ i' < x, ∀ j' < k,
      b (k * i' + j') = entry i' j') (Nat.zero_le rows)
    · intro i' low
      exact absurd low (Nat.not_lt_zero _)
    · intro x b _ _ before i' low j' column
      rw [oneRow x b i' j' column]
      split
      · rfl
      · exact before i' (by omega) j' column
  exact all i row j column

/-- Row `e` of a coding matrix and byte `x` of every data buffer. -/
def codingRow (k : Nat) (a : Arr UInt8) (e : Nat) : Fin k → Gf := fun j => ⟨a (k * e + j)⟩
def dataColumn (k : Nat) (buffs : Buffers) (x : Nat) : Fin k → Gf := fun j => ⟨(buffs j) x⟩

/-- The first `k` rows are the identity. -/
def Systematic (k : Nat) (a : Arr UInt8) : Prop :=
  ∀ i < k, ∀ j < k, a (k * i + j) = if i = j then 1 else 0

variable {len k m : Nat} {encodeMatrix : Arr UInt8}

theorem codingRow_unit (identity : Systematic k encodeMatrix) (e : Fin k) :
    codingRow k encodeMatrix e = Pi.single e 1 := by
  funext j
  rw [codingRow, identity e e.isLt j j.isLt, Pi.single_apply]
  by_cases same : j = e
  · subst same
    rw [if_pos rfl, if_pos rfl]
    rfl
  · rw [if_neg (fun h => same (Fin.ext h.symm)), if_neg same]
    rfl

/-- Every fragment, data or parity, is its coding row times the data. -/
theorem encodeFragments_eq (identity : Systematic k encodeMatrix) (gTbls : Arr UInt8)
    (data parity : Buffers) {e x : Nat} (below : e < m) (inside : x < len) :
    (⟨((encodeFragments len k m encodeMatrix gTbls data parity) e) x⟩ : Gf) =
      codingRow k encodeMatrix e ⬝ᵥ dataColumn k data x := by
  simp only [encodeFragments]
  split
  · rename_i isData
    have unit := codingRow_unit identity ⟨e, isData⟩
    simp only at unit
    rw [unit, single_one_dotProduct]
    rfl
  · rename_i isParity
    rw [ecEncodeDataBase_get len k (m - k) _ data parity (by omega) inside, dotProduct]
    apply Finset.sum_congr rfl
    intro j _
    rw [ecInitTablesBase_factor k (m - k) _ gTbls (by omega) j.isLt, mul_comm, Arr.from_get]
    have place : k * k + ((e - k) * k + j) = k * e + j := by
      have split : (e - k) * k + k * k = e * k := by
        rw [← Nat.add_mul, Nat.sub_add_cancel (by omega)]
      rw [Nat.mul_comm k e]
      omega
    rw [place]
    rfl

/-- A row of the decode matrix is the lost fragment's coding row times the inverse. -/
theorem decodeRows_eq (identity : Systematic k encodeMatrix) (inverse : Arr UInt8) {nerrs : Nat}
    (srcErrList : Arr Nat) (decodeMatrix : Arr UInt8) {p : Nat} (lost : p < nerrs) :
    codingRow k (decodeRows k nerrs encodeMatrix inverse srcErrList decodeMatrix) p =
      codingRow k encodeMatrix (srcErrList p) ᵥ* toMatrix k inverse := by
  funext i
  rw [codingRow, decodeRows, matrix_written (fun p i =>
    if srcErrList p < k then inverse (k * srcErrList p + i)
    else forRange 0 k (fun j s =>
      s ^^^ gfMul (inverse (j * k + i)) (encodeMatrix (k * srcErrList p + j))) 0) _ lost i.isLt]
  split
  · rename_i isData
    have unit := codingRow_unit identity ⟨srcErrList p, isData⟩
    simp only at unit
    rw [unit, single_one_vecMul, Matrix.row_apply, toMatrix, Nat.mul_comm]
  · rw [dot_sum k (fun j => inverse (j * k + i)) (fun j => encodeMatrix (k * srcErrList p + j)),
      vecMul, dotProduct]
    apply Finset.sum_congr rfl
    intro j _
    exact mul_comm _ _

theorem survivingRows_eq (decodeIndex : Arr Nat) (b : Arr UInt8) (i : Fin k) :
    toMatrix k (survivingRows k encodeMatrix decodeIndex b) i =
      codingRow k encodeMatrix (decodeIndex i) := by
  funext j
  rw [toMatrix, survivingRows, Nat.mul_comm, matrix_written
    (fun i j => encodeMatrix (k * decodeIndex i + j)) b i.isLt j.isLt]
  rfl

/-- Whatever survives of the encoded fragments gives every lost fragment back, data or parity,
when the rows of the chosen survivors are regular. -/
theorem recoverFragments_lost (identity : Systematic k encodeMatrix) (gTbls : Arr UInt8)
    (data parity received : Buffers) {nerrs : Nat} (srcErrList decodeIndex : Arr Nat) (w : Scratch)
    (fragment : ∀ p < nerrs, srcErrList p < m)
    (intact : ∀ e < m, (∀ p < nerrs, srcErrList p ≠ e) → ∀ x < len,
      (received e) x = ((encodeFragments len k m encodeMatrix gTbls data parity) e) x)
    (survivor : ∀ i < k, decodeIndex i < m ∧ ∀ p < nerrs, srcErrList p ≠ decodeIndex i)
    (regular : (toMatrix k (survivingRows k encodeMatrix decodeIndex w.b)).det ≠ 0) :
    (recoverFragments len k nerrs encodeMatrix srcErrList decodeIndex received w).1 = 0 ∧
    ∀ p < nerrs, ∀ x < len,
      ((recoverFragments len k nerrs encodeMatrix srcErrList decodeIndex received w).2 p) x =
        ((encodeFragments len k m encodeMatrix gTbls data parity) (srcErrList p)) x := by
  obtain ⟨done, inverse⟩ := gfInvertMatrix_regular w.invertMatrix regular
  refine ⟨done, fun p lost x inside => ?_⟩
  have sources : (fun j : Fin k => (⟨(received (decodeIndex j)) x⟩ : Gf)) =
      toMatrix k (survivingRows k encodeMatrix decodeIndex w.b) *ᵥ dataColumn k data x := by
    funext j
    obtain ⟨below, kept⟩ := survivor j j.isLt
    rw [intact _ below kept x inside, encodeFragments_eq identity gTbls data parity below inside,
      mulVec, survivingRows_eq]
  have encoded : (⟨((recoverFragments len k nerrs encodeMatrix srcErrList decodeIndex received w).2 p)
      x⟩ : Gf) = codingRow k (decodeRows k nerrs encodeMatrix
        (gfInvertMatrix (survivingRows k encodeMatrix decodeIndex w.b) w.invertMatrix k).2.outMat
        srcErrList w.decodeMatrix) p ⬝ᵥ fun j : Fin k => (⟨(received (decodeIndex j)) x⟩ : Gf) := by
    simp only [recoverFragments]
    rw [ecEncodeDataBase_get len k nerrs _ _ w.dest lost inside, dotProduct]
    apply Finset.sum_congr rfl
    intro j _
    rw [ecInitTablesBase_factor k nerrs _ w.gTbls lost j.isLt, mul_comm, codingRow, Nat.mul_comm p k]
  have fragmentBack : (⟨((recoverFragments len k nerrs encodeMatrix srcErrList decodeIndex received
      w).2 p) x⟩ : Gf) =
      ⟨((encodeFragments len k m encodeMatrix gTbls data parity) (srcErrList p)) x⟩ := by
    rw [encoded, decodeRows_eq identity _ srcErrList _ lost, sources, dotProduct_mulVec, vecMul_vecMul,
      inverse, vecMul_one, encodeFragments_eq identity gTbls data parity (fragment p lost) inside]
  exact congrArg Gf.byte fragmentBack

/-- Two data rows and their sum. -/
def parityCode : Arr UInt8 := ⟨fun i => if i = 1 ∨ i = 2 then 0 else 1⟩

/-- Out of two buffers and their parity the first is lost and comes back from the others. -/
theorem recoverFragments_lost_first :
    let data : Buffers := ⟨fun j => ⟨fun x => (7 * j + x).toUInt8⟩⟩
    let fragments := encodeFragments 5 2 3 parityCode (Arr.const 0) data data
    ((recoverFragments 5 2 1 parityCode (Arr.const 0) ⟨fun i => i + 1⟩ (fragments.set 0 (Arr.const 0))
      ⟨Arr.const 0, Arr.const 0, Arr.const 0, Arr.const 0, data⟩).2 0) 4 = (fragments 0) 4 := by
  intro data fragments
  apply (@recoverFragments_lost 5 2 3 parityCode ?_ (Arr.const 0) data data
    (fragments.set 0 (Arr.const 0)) 1 (Arr.const 0) _ _ ?_ ?_ ?_ ?_).2 0 (by decide) 4 (by decide)
  · intro i first j second
    interval_cases i <;> interval_cases j <;> rfl
  · intro p _
    exact Nat.succ_pos 2
  · intro e _ kept x _
    have other : e ≠ 0 := Ne.symm (kept 0 (by decide))
    rw [Arr.set_other other]
  · intro i first
    refine ⟨Nat.succ_lt_succ first, fun p _ => ?_⟩
    exact (Nat.succ_ne_zero i).symm
  · rw [det_fin_two]
    decide +kernel

end Isal.Erasure
