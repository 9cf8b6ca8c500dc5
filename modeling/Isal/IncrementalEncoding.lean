import Isal.ErasureRecovery

/-! Encoding one source at a time. Each row of the parities is a sum over the sources, so the
updates may come in any order, and the difference of two buffers corrects the parities of one
into those of the other. -/
namespace Isal.Erasure
open Loops

/-- The factor of source `j` in row `l`, as both encoders address it. -/
def factor (k : Nat) (v : Arr UInt8) (l j : Nat) : UInt8 := v (j * 32 + l * k * 32 + 1)

/-- A loop that writes a row byte by byte from what the row holds there. -/
theorem bytewise {len : Nat} (byte : Nat → UInt8 → UInt8) (row : Arr UInt8) (i : Nat) :
    (forRange 0 len (fun i row => row.set i (byte i (row i))) row) i =
      if i < len then byte i (row i) else row i := by
  apply forRange_invariant (fun x (r : Arr UInt8) => r i = if i < x then byte i (row i) else row i)
    (Nat.zero_le len)
  · rw [if_neg (Nat.not_lt_zero _)]
  · intro x r _ _ before
    rw [Arr.set_get]
    by_cases here : i = x
    · subst here
      rw [if_neg (Nat.lt_irrefl _)] at before
      rw [if_pos rfl, if_pos (Nat.lt_succ_self _), before]
    · have shift : i < x ↔ i < x + 1 := by omega
      rw [if_neg here, before]
      simp only [shift]

/-- A loop that works on one buffer of several is that loop on the buffer. -/
theorem forRange_row (len l : Nat) (f : Nat → Arr UInt8 → Arr UInt8) (dest : Buffers) :
    forRange 0 len (fun i dest => dest.set l (f i (dest l))) dest =
      dest.set l (forRange 0 len f (dest l)) := by
  apply forRange_invariant (fun x (d : Buffers) => d = dest.set l (forRange 0 x f (dest l)))
    (Nat.zero_le len)
  · rw [forRange_done (Nat.le_refl _), Arr.set_same]
  · intro x d _ _ before
    rw [before, Arr.set_self, Arr.set_set, forRange_last (Nat.zero_le x)]

/-- A loop that treats the buffers one after the other. -/
theorem forRange_rows (rows : Nat) (f : Nat → Arr UInt8 → Arr UInt8) (dest : Buffers) (l : Nat) :
    (forRange 0 rows (fun l dest => dest.set l (f l (dest l))) dest) l =
      if l < rows then f l (dest l) else dest l := by
  apply forRange_invariant (fun x (d : Buffers) => d l = if l < x then f l (dest l) else dest l)
    (Nat.zero_le rows)
  · rw [if_neg (Nat.not_lt_zero _)]
  · intro x d _ _ before
    rw [Arr.set_get]
    by_cases here : l = x
    · subst here
      rw [if_neg (Nat.lt_irrefl _)] at before
      rw [if_pos rfl, if_pos (Nat.lt_succ_self _), before]
    · have shift : l < x ↔ l < x + 1 := by omega
      rw [if_neg here, before]
      simp only [shift]

/-- The encoder computes its rows one by one, each from its own part of the tables. -/
theorem ecEncodeDataBase_rows (len srcs dests : Nat) (v : Arr UInt8) (src dest : Buffers) :
    ecEncodeDataBase len srcs dests v src dest =
      forRange 0 dests (fun l dest =>
        dest.set l (gfVectDotProdBase len srcs (v.from_ (l * srcs * 32)) src (dest l))) dest := by
  rw [ecEncodeDataBase]
  congr 1
  funext l dest
  rw [gfVectDotProdBase, ← forRange_row]
  congr 1
  funext i dest
  have place (j : Nat) : l * srcs * 32 + (j * 32 + 1) = j * 32 + l * srcs * 32 + 1 := by omega
  simp only [Arr.from_get, place]

theorem ecEncodeDataUpdateBase_rows (len k rows vecI : Nat) (v data : Arr UInt8) (dest : Buffers) :
    ecEncodeDataUpdateBase len k rows vecI v data dest =
      forRange 0 rows (fun l dest =>
        dest.set l (gfVectMadBase len vecI (v.from_ (l * k * 32)) data (dest l))) dest := by
  rw [ecEncodeDataUpdateBase]
  congr 1
  funext l dest
  rw [gfVectMadBase, ← forRange_row]
  congr 1
  funext i dest
  have place : l * k * 32 + (vecI * 32 + 1) = vecI * 32 + l * k * 32 + 1 := by omega
  simp only [Arr.from_get, place]

variable {len k rows : Nat} {v : Arr UInt8}

/-- The bytes of the parities: the sums of the products with the sources. -/
theorem ecEncodeDataBase_byte (src dest : Buffers) (l i : Nat) :
    ((ecEncodeDataBase len k rows v src dest) l) i =
      if l < rows ∧ i < len then
        forRange 0 k (fun j s => s ^^^ gfMul ((src j) i) (factor k v l j)) 0
      else (dest l) i := by
  have place (j : Nat) : l * k * 32 + (j * 32 + 1) = j * 32 + l * k * 32 + 1 := by omega
  rw [ecEncodeDataBase_rows, forRange_rows rows
    (fun l => gfVectDotProdBase len k (v.from_ (l * k * 32)) src) dest l]
  by_cases row : l < rows
  · rw [if_pos row, gfVectDotProdBase, bytewise (fun i _ =>
      forRange 0 k (fun j s => s ^^^ gfMul ((src j) i) ((v.from_ (l * k * 32)) (j * 32 + 1))) 0)]
    simp only [row, true_and, Arr.from_get, place, factor]
  · rw [if_neg row, if_neg (fun both => row both.1)]

/-- An update adds the products with its one source. -/
theorem ecEncodeDataUpdateBase_byte (vecI : Nat) (data : Arr UInt8) (dest : Buffers) (l i : Nat) :
    ((ecEncodeDataUpdateBase len k rows vecI v data dest) l) i =
      if l < rows ∧ i < len then (dest l) i ^^^ gfMul (data i) (factor k v l vecI)
      else (dest l) i := by
  have place : l * k * 32 + (vecI * 32 + 1) = vecI * 32 + l * k * 32 + 1 := by omega
  rw [ecEncodeDataUpdateBase_rows, forRange_rows rows
    (fun l => gfVectMadBase len vecI (v.from_ (l * k * 32)) data) dest l]
  by_cases row : l < rows
  · rw [if_pos row, gfVectMadBase, bytewise (fun i byte =>
      byte ^^^ gfMul (data i) ((v.from_ (l * k * 32)) (vecI * 32 + 1)))]
    simp only [row, true_and, Arr.from_get, place, factor]
  · rw [if_neg row, if_neg (fun both => row both.1)]

/-- The product of one source byte with its factor in a row. -/
def share (k : Nat) (v : Arr UInt8) (src : Buffers) (l i j : Nat) : Gf :=
  ⟨(src j) i⟩ * ⟨factor k v l j⟩

theorem ecEncodeDataBase_sum (src dest : Buffers) {l i : Nat} (row : l < rows) (inside : i < len) :
    (⟨((ecEncodeDataBase len k rows v src dest) l) i⟩ : Gf) =
      ∑ j ∈ Finset.range k, share k v src l i j := by
  rw [ecEncodeDataBase_byte, if_pos ⟨row, inside⟩, dot_sum k (fun j => (src j) i), Finset.sum_range]
  rfl

theorem ecEncodeDataUpdateBase_sum (vecI : Nat) (data : Arr UInt8) (dest : Buffers) {l i : Nat}
    (row : l < rows) (inside : i < len) :
    (⟨((ecEncodeDataUpdateBase len k rows vecI v data dest) l) i⟩ : Gf) =
      ⟨(dest l) i⟩ + ⟨data i⟩ * ⟨factor k v l vecI⟩ := by
  rw [ecEncodeDataUpdateBase_byte, if_pos ⟨row, inside⟩]
  apply Gf.ext
  rw [Gf.add_byte, Gf.mul_byte]

/-- Updates with several sources add the shares of all of them. -/
theorem updates_sum (src : Buffers) (order : List Nat) (dest : Buffers) {l i : Nat} (row : l < rows)
    (inside : i < len) :
    (⟨((order.foldl (fun d j => ecEncodeDataUpdateBase len k rows j v (src j) d) dest) l) i⟩ : Gf) =
      ⟨(dest l) i⟩ + (order.map (share k v src l i)).sum := by
  induction order generalizing dest with
  | nil => rw [List.foldl_nil, List.map_nil, List.sum_nil, add_zero]
  | cons j order ih =>
    rw [List.foldl_cons, ih, ecEncodeDataUpdateBase_sum j (src j) dest row inside, List.map_cons,
      List.sum_cons, add_assoc]
    rfl

theorem updates_outside (src : Buffers) (order : List Nat) (dest : Buffers) {l i : Nat}
    (outside : ¬(l < rows ∧ i < len)) :
    ((order.foldl (fun d j => ecEncodeDataUpdateBase len k rows j v (src j) d) dest) l) i =
      (dest l) i := by
  induction order generalizing dest with
  | nil => rfl
  | cons j order ih => rw [List.foldl_cons, ih, ecEncodeDataUpdateBase_byte, if_neg outside]

theorem buffers_ext {a b : Buffers} (bytes : ∀ l i, (a l) i = (b l) i) : a = b := by
  obtain ⟨a⟩ := a
  obtain ⟨b⟩ := b
  congr 1
  funext l
  exact congrArg Arr.mk (funext (bytes l))

/-- The change that turns one buffer into another. -/
def difference (old new : Arr UInt8) : Arr UInt8 := ⟨fun i => old i ^^^ new i⟩

/-- From zeroed parities the updates with all sources, in any order, encode them all; a further
update with the change of one source gives the parities of the changed data. -/
theorem ecEncodeDataUpdateBase_incremental (len k rows : Nat) (v : Arr UInt8) (src : Buffers) :
    (∀ order : List Nat, order.Perm (List.range k) → ∀ dest : Buffers,
      (∀ l < rows, ∀ i < len, (dest l) i = 0) →
      order.foldl (fun d j => ecEncodeDataUpdateBase len k rows j v (src j) d) dest =
        ecEncodeDataBase len k rows v src dest) ∧
    (∀ vecI < k, ∀ (new : Arr UInt8) (dest : Buffers),
      ecEncodeDataUpdateBase len k rows vecI v (difference (src vecI) new)
          (ecEncodeDataBase len k rows v src dest) =
        ecEncodeDataBase len k rows v (src.set vecI new) dest) := by
  constructor
  · intro order all dest zeroed
    apply buffers_ext
    intro l i
    by_cases inside : l < rows ∧ i < len
    · have sums := (all.map (share k v src l i)).sum_eq
      have listed : ((List.range k).map (share k v src l i)).sum =
          ∑ j ∈ Finset.range k, share k v src l i j := rfl
      have zero : (⟨(dest l) i⟩ : Gf) = 0 := Gf.ext (zeroed l inside.1 i inside.2)
      have both := updates_sum (v := v) src order dest inside.1 inside.2 (k := k)
      rw [sums, listed, zero, zero_add, ← ecEncodeDataBase_sum src dest inside.1 inside.2] at both
      exact congrArg Gf.byte both
    · rw [updates_outside src order dest inside, ecEncodeDataBase_byte, if_neg inside]
  · intro vecI source new dest
    apply buffers_ext
    intro l i
    by_cases inside : l < rows ∧ i < len
    · have changed (j : Nat) : share k v (src.set vecI new) l i j = share k v src l i j +
          if j = vecI then ⟨(difference (src vecI) new) i⟩ * ⟨factor k v l vecI⟩ else 0 := by
        rw [share, share, Arr.set_get]
        split
        · rename_i here
          subst here
          rw [← add_mul]
          congr 1
          apply Gf.ext
          rw [Gf.add_byte]
          rw [difference, ← UInt8.xor_assoc, UInt8.xor_self, UInt8.zero_xor]
        · rw [add_zero]
      have bytes : (⟨((ecEncodeDataUpdateBase len k rows vecI v (difference (src vecI) new)
          (ecEncodeDataBase len k rows v src dest)) l) i⟩ : Gf) =
          ⟨((ecEncodeDataBase len k rows v (src.set vecI new) dest) l) i⟩ := by
        rw [ecEncodeDataUpdateBase_sum vecI _ _ inside.1 inside.2,
          ecEncodeDataBase_sum src dest inside.1 inside.2,
          ecEncodeDataBase_sum (src.set vecI new) dest inside.1 inside.2,
          Finset.sum_congr rfl fun j _ => changed j, Finset.sum_add_distrib, Finset.sum_ite_eq',
          if_pos (Finset.mem_range.mpr source)]
      exact congrArg Gf.byte bytes
    · rw [ecEncodeDataUpdateBase_byte, if_neg inside, ecEncodeDataBase_byte, if_neg inside,
        ecEncodeDataBase_byte, if_neg inside]

/-- Three sources, the last first, into two parities. -/
theorem ecEncodeDataUpdateBase_incremental_three :
    let src : Buffers := ⟨fun j => ⟨fun i => (5 * j + i).toUInt8⟩⟩
    let v : Arr UInt8 := ecInitTablesBase 3 2 ⟨fun x => x.toUInt8 + 1⟩ (Arr.const 0)
    [2, 0, 1].foldl (fun d j => ecEncodeDataUpdateBase 4 3 2 j v (src j) d) (Arr.const (Arr.const 0)) =
      ecEncodeDataBase 4 3 2 v src (Arr.const (Arr.const 0)) := by
  intro src v
  exact (ecEncodeDataUpdateBase_incremental 4 3 2 v src).1 [2, 0, 1] (by decide) _ fun _ _ _ _ => rfl

end Isal.Erasure
