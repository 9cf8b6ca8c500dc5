import Isal.IncrementalEncoding

/-! The dispatchers of the encoders: the rows are peeled off in groups for the widest kernel, and
one call of a narrower kernel computes what is left. The memory is a parameter, so that one
definition gives the outputs and, over the lists of rows, the order in which they are written. -/
namespace Isal.Erasure
open Loops

/-- Groups of `group` rows, as long as `least` are left. -/
structure Peeling where
  group : Nat
  least : Nat
  positive : 0 < group
  enough : group ≤ least
  next : least ≤ group + 1

namespace Peeling

/-- `while (rows >= group)` -/
def whole (group : Nat) (positive : 0 < group) : Peeling :=
  ⟨group, group, positive, Nat.le_refl _, Nat.le_succ _⟩

/-- `while (rows > group)` -/
def butLast (group : Nat) (positive : 0 < group) : Peeling :=
  ⟨group, group + 1, positive, Nat.le_succ _, Nat.le_refl _⟩

/-- The loop, which moves both pointers on, and the `switch` on the rows it leaves. -/
def run (p : Peeling) (kernel : (vects gTbls coding : Nat) → μ → μ) (k rows gTbls coding : Nat)
    (memory : μ) : μ :=
  if p.least ≤ rows then
    p.run kernel k (rows - p.group) (gTbls + p.group * k * 32) (coding + p.group)
      (kernel p.group gTbls coding memory)
  else if rows = 0 then memory
  else kernel rows gTbls coding memory
termination_by rows
decreasing_by
  have := p.positive
  have := p.enough
  omega

end Peeling

/-- What an encoder calls: the base function for short buffers, and a kernel for each number of
rows. The arguments that are pointers are offsets into the tables and into the outputs. -/
structure Encoders (μ : Type) where
  base : (len k rows : Nat) → μ → μ
  dotProd : (vects len k gTbls coding : Nat) → μ → μ

structure Updaters (μ : Type) where
  base : (len k rows vecI : Nat) → μ → μ
  mad : (vects len k vecI gTbls coding : Nat) → μ → μ

/-- Buffers shorter than `short` go to the base function. -/
def Encoders.dispatch (e : Encoders μ) (short : Nat) (p : Peeling) (len k rows : Nat) (memory : μ) : μ :=
  if len < short then e.base len k rows memory
  else p.run (fun vects => e.dotProd vects len k) k rows 0 0 memory

def Updaters.dispatch (u : Updaters μ) (short : Nat) (p : Peeling) (len k rows vecI : Nat)
    (memory : μ) : μ :=
  if len < short then u.base len k rows vecI memory
  else p.run (fun vects => u.mad vects len k vecI) k rows 0 0 memory

def ecEncodeDataSse (e : Encoders μ) : (len k rows : Nat) → μ → μ :=
  e.dispatch 16 (.whole 6 (by decide))

def ecEncodeDataAvx (e : Encoders μ) : (len k rows : Nat) → μ → μ :=
  e.dispatch 16 (.whole 6 (by decide))

def ecEncodeDataAvx2 (e : Encoders μ) : (len k rows : Nat) → μ → μ :=
  e.dispatch 32 (.whole 6 (by decide))

def ecEncodeDataAvx512 (e : Encoders μ) : (len k rows : Nat) → μ → μ :=
  e.dispatch 64 (.whole 6 (by decide))

def ecEncodeDataAvx512Gfni (e : Encoders μ) : (len k rows : Nat) → μ → μ :=
  e.dispatch 0 (.whole 6 (by decide))

def ecEncodeDataAvx2Gfni (e : Encoders μ) : (len k rows : Nat) → μ → μ :=
  e.dispatch 0 (.whole 3 (by decide))

def ecEncodeDataUpdateSse (u : Updaters μ) : (len k rows vecI : Nat) → μ → μ :=
  u.dispatch 16 (.butLast 6 (by decide))

def ecEncodeDataUpdateAvx (u : Updaters μ) : (len k rows vecI : Nat) → μ → μ :=
  u.dispatch 16 (.butLast 6 (by decide))

def ecEncodeDataUpdateAvx2 (u : Updaters μ) : (len k rows vecI : Nat) → μ → μ :=
  u.dispatch 32 (.butLast 6 (by decide))

def ecEncodeDataUpdateAvx512 (u : Updaters μ) : (len k rows vecI : Nat) → μ → μ :=
  u.dispatch 64 (.whole 6 (by decide))

def ecEncodeDataUpdateAvx512Gfni (u : Updaters μ) : (len k rows vecI : Nat) → μ → μ :=
  u.dispatch 0 (.whole 6 (by decide))

def ecEncodeDataUpdateAvx2Gfni (u : Updaters μ) : (len k rows vecI : Nat) → μ → μ :=
  u.dispatch 0 (.whole 5 (by decide))

/-- A loop that goes on where another stopped. -/
theorem forRange_shift (n m : Nat) (f : Nat → μ → μ) (s : μ) :
    forRange 0 (n + m) f s = forRange 0 m (fun l => f (n + l)) (forRange 0 n f s) := by
  induction m with
  | zero => rw [Nat.add_zero, forRange_done (Nat.le_refl 0)]
  | succ m ih => rw [← Nat.add_assoc, forRange_last (Nat.zero_le _), ih, forRange_last (Nat.zero_le m)]

/-- When each kernel works row by row, so does the dispatcher, whatever the groups are. -/
theorem Peeling.run_rows (p : Peeling) {kernel : (vects gTbls coding : Nat) → μ → μ}
    (row : (gTbls coding : Nat) → μ → μ) {k : Nat}
    (rowwise : ∀ vects gTbls coding memory, 0 < vects → vects ≤ p.group →
      kernel vects gTbls coding memory =
        forRange 0 vects (fun l => row (gTbls + l * k * 32) (coding + l)) memory)
    (rows gTbls coding : Nat) (memory : μ) :
    p.run kernel k rows gTbls coding memory =
      forRange 0 rows (fun l => row (gTbls + l * k * 32) (coding + l)) memory := by
  induction rows using Nat.strong_induction_on generalizing gTbls coding memory with
  | _ rows ih =>
    have positive := p.positive
    have enough := p.enough
    have next := p.next
    rw [run]
    split
    · rename_i more
      rw [ih (rows - p.group) (by omega), rowwise p.group _ _ _ positive (Nat.le_refl _)]
      have split : rows = p.group + (rows - p.group) := by omega
      conv_rhs => rw [split, forRange_shift]
      congr 1
      funext l
      have table : gTbls + p.group * k * 32 + l * k * 32 = gTbls + (p.group + l) * k * 32 := by ring
      rw [table, Nat.add_assoc]
    · split
      · rename_i none
        rw [none, forRange_done (Nat.le_refl 0)]
      · exact rowwise rows _ _ _ (by omega) (by omega)

/-- The kernels for up to `most` rows compute consecutive rows as the base function does, for the
lengths they are called with. -/
def DotProdKernels (short most : Nat) (v : Arr UInt8) (data : Buffers)
    (kernel : (vects len k gTbls coding : Nat) → Buffers → Buffers) : Prop :=
  ∀ vects len k gTbls coding dest, 0 < vects → vects ≤ most → short ≤ len →
    kernel vects len k gTbls coding dest =
      forRange 0 vects (fun l dest => dest.set (coding + l)
        (gfVectDotProdBase len k (v.from_ (gTbls + l * k * 32)) data (dest (coding + l)))) dest

def MadKernels (short most : Nat) (v data : Arr UInt8)
    (kernel : (vects len k vecI gTbls coding : Nat) → Buffers → Buffers) : Prop :=
  ∀ vects len k vecI gTbls coding dest, 0 < vects → vects ≤ most → short ≤ len →
    kernel vects len k vecI gTbls coding dest =
      forRange 0 vects (fun l dest => dest.set (coding + l)
        (gfVectMadBase len vecI (v.from_ (gTbls + l * k * 32)) data (dest (coding + l)))) dest

/-- The rows that the calls write, in order. -/
def encoderRows : Encoders (List Nat) where
  base _ _ rows log := log ++ List.range' 0 rows
  dotProd vects _ _ _ coding log := log ++ List.range' coding vects

def updaterRows : Updaters (List Nat) where
  base _ _ rows _ log := log ++ List.range' 0 rows
  mad vects _ _ _ _ coding log := log ++ List.range' coding vects

/-- An encoder whose outputs are those of the base function, each written once. -/
structure EncodesRows (short most : Nat)
    (dispatch : {μ : Type} → Encoders μ → (len k rows : Nat) → μ → μ) : Prop where
  outputs : ∀ v data kernel, DotProdKernels short most v data kernel → ∀ len k rows dest,
    dispatch ⟨fun len k rows => ecEncodeDataBase len k rows v data, kernel⟩ len k rows dest =
      ecEncodeDataBase len k rows v data dest
  once : ∀ len k rows, dispatch encoderRows len k rows [] = List.range rows

structure UpdatesRows (short most : Nat)
    (dispatch : {μ : Type} → Updaters μ → (len k rows vecI : Nat) → μ → μ) : Prop where
  outputs : ∀ v data kernel, MadKernels short most v data kernel → ∀ len k rows vecI dest,
    dispatch ⟨fun len k rows vecI => ecEncodeDataUpdateBase len k rows vecI v data, kernel⟩
        len k rows vecI dest =
      ecEncodeDataUpdateBase len k rows vecI v data dest
  once : ∀ len k rows vecI, dispatch updaterRows len k rows vecI [] = List.range rows

theorem range_rows (log : List Nat) (coding vects : Nat) :
    forRange 0 vects (fun l log => log ++ [coding + l]) log = log ++ List.range' coding vects := by
  induction vects with
  | zero => rw [forRange_done (Nat.le_refl 0), List.range'_zero, List.append_nil]
  | succ vects ih =>
    rw [forRange_last (Nat.zero_le vects), ih, List.range'_concat, Nat.one_mul, List.append_assoc]

theorem Encoders.dispatch_rows (short : Nat) (p : Peeling) :
    EncodesRows short p.group fun e => e.dispatch short p := by
  constructor
  · intro v data kernel rowwise len k rows dest
    rw [dispatch]
    split
    · rfl
    · rename_i long
      rw [p.run_rows (fun gTbls l dest => dest.set l
          (gfVectDotProdBase len k (v.from_ gTbls) data (dest l)))
        (fun vects gTbls coding dest positive most =>
          rowwise vects len k gTbls coding dest positive most (Nat.le_of_not_lt long)),
        ecEncodeDataBase_rows]
      simp only [Nat.zero_add]
  · intro len k rows
    rw [dispatch]
    split
    · exact List.range_eq_range'.symm
    · refine (p.run_rows (fun _ l log => log ++ [l]) ?_ rows 0 0 []).trans ?_
      · intro vects _ coding log _ _
        exact (range_rows log coding vects).symm
      · rw [range_rows [] 0 rows]
        exact List.range_eq_range'.symm

theorem Updaters.dispatch_rows (short : Nat) (p : Peeling) :
    UpdatesRows short p.group fun u => u.dispatch short p := by
  constructor
  · intro v data kernel rowwise len k rows vecI dest
    rw [dispatch]
    split
    · rfl
    · rename_i long
      rw [p.run_rows (fun gTbls l dest => dest.set l
          (gfVectMadBase len vecI (v.from_ gTbls) data (dest l)))
        (fun vects gTbls coding dest positive most =>
          rowwise vects len k vecI gTbls coding dest positive most (Nat.le_of_not_lt long)),
        ecEncodeDataUpdateBase_rows]
      simp only [Nat.zero_add]
  · intro len k rows vecI
    rw [dispatch]
    split
    · exact List.range_eq_range'.symm
    · refine (p.run_rows (fun _ l log => log ++ [l]) ?_ rows 0 0 []).trans ?_
      · intro vects _ coding log _ _
        exact (range_rows log coding vects).symm
      · rw [range_rows [] 0 rows]
        exact List.range_eq_range'.symm

/-- Every dispatcher computes what the base function computes and writes each row once. -/
theorem vectorDispatch_rows :
    EncodesRows 16 6 ecEncodeDataSse ∧ EncodesRows 16 6 ecEncodeDataAvx ∧
    EncodesRows 32 6 ecEncodeDataAvx2 ∧ EncodesRows 64 6 ecEncodeDataAvx512 ∧
    EncodesRows 0 6 ecEncodeDataAvx512Gfni ∧ EncodesRows 0 3 ecEncodeDataAvx2Gfni ∧
    UpdatesRows 16 6 ecEncodeDataUpdateSse ∧ UpdatesRows 16 6 ecEncodeDataUpdateAvx ∧
    UpdatesRows 32 6 ecEncodeDataUpdateAvx2 ∧ UpdatesRows 64 6 ecEncodeDataUpdateAvx512 ∧
    UpdatesRows 0 6 ecEncodeDataUpdateAvx512Gfni ∧ UpdatesRows 0 5 ecEncodeDataUpdateAvx2Gfni :=
  ⟨Encoders.dispatch_rows 16 (.whole 6 _), Encoders.dispatch_rows 16 (.whole 6 _),
    Encoders.dispatch_rows 32 (.whole 6 _), Encoders.dispatch_rows 64 (.whole 6 _),
    Encoders.dispatch_rows 0 (.whole 6 _), Encoders.dispatch_rows 0 (.whole 3 _),
    Updaters.dispatch_rows 16 (.butLast 6 _), Updaters.dispatch_rows 16 (.butLast 6 _),
    Updaters.dispatch_rows 32 (.butLast 6 _), Updaters.dispatch_rows 64 (.whole 6 _),
    Updaters.dispatch_rows 0 (.whole 6 _), Updaters.dispatch_rows 0 (.whole 5 _)⟩

/-- Seven rows are one group of six and a single row. -/
theorem vectorDispatch_rows_seven :
    let data : Buffers := ⟨fun j => ⟨fun i => (5 * j + i).toUInt8⟩⟩
    let v : Arr UInt8 := ecInitTablesBase 2 7 ⟨fun x => x.toUInt8 + 1⟩ (Arr.const 0)
    ecEncodeDataSse ⟨fun len k rows => ecEncodeDataBase len k rows v data,
        fun vects len k gTbls coding => forRange 0 vects fun l dest => dest.set (coding + l)
          (gfVectDotProdBase len k (v.from_ (gTbls + l * k * 32)) data (dest (coding + l)))⟩
        16 2 7 data = ecEncodeDataBase 16 2 7 v data data := by
  intro data v
  apply vectorDispatch_rows.1.outputs v data
  intro vects len k gTbls coding dest _ _ _
  rfl

end Isal.Erasure
