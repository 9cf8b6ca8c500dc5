import Mathlib

/-! Arrays without bounds: a value for every index, changed one index at a time. They stand
for buffers whose size plays no part in what is computed from them. -/
namespace Isal

structure Arr (α : Type u) where
  get : Nat → α

namespace Arr

instance : CoeFun (Arr α) (fun _ => Nat → α) := ⟨Arr.get⟩

def const (a : α) : Arr α := ⟨fun _ => a⟩

def set (t : Arr α) (i : Nat) (a : α) : Arr α := ⟨fun j => if j = i then a else t j⟩

/-- The array from index `i` on. -/
def from_ (t : Arr α) (i : Nat) : Arr α := ⟨fun j => t (i + j)⟩

/-- `memset(t + lo, a, size)` -/
def fill (t : Arr α) (lo size : Nat) (a : α) : Arr α :=
  ⟨fun j => if lo ≤ j ∧ j < lo + size then a else t j⟩

variable {t : Arr α} {i j : Nat} {a : α}

@[simp] theorem const_get : (const a) i = a := rfl

theorem set_get : (t.set i a) j = if j = i then a else t j := rfl

@[simp] theorem set_self : (t.set i a) i = a := by simp [set_get]

theorem set_other (different : j ≠ i) : (t.set i a) j = t j := by simp [set_get, different]

theorem set_set {b : α} : (t.set i a).set i b = t.set i b := by
  simp only [set, mk.injEq]
  funext j
  split <;> rfl

theorem set_comm {b : α} (different : i ≠ j) : (t.set i a).set j b = (t.set j b).set i a := by
  simp only [set, mk.injEq]
  funext k
  split <;> split <;> first | rfl | omega

theorem set_same : t.set i (t i) = t := by
  obtain ⟨get⟩ := t
  simp only [set, mk.injEq]
  funext j
  split
  · rename_i same; rw [same]
  · rfl

@[simp] theorem from_get : (t.from_ i) j = t (i + j) := rfl

theorem fill_get {lo size : Nat} : (t.fill lo size a) j = if lo ≤ j ∧ j < lo + size then a else t j := rfl

end Arr
end Isal
