import Mathlib

/-! Fields whose product is computed by logarithms: every nonzero element is a power of one
additive map applied to the unit, and a product adds the exponents of its factors. -/
namespace Isal

/-- `step` is multiplication by a generator, `unit` its zeroth power and `log` an exponent
that leads to each nonzero element. -/
structure Powers (α : Type*) [AddCommGroup α] where
  step : α →+ α
  unit : α
  log : α → ℕ
  period : ℕ
  reaches : ∀ x, x ≠ 0 → step^[log x] unit = x
  nonzero : ∀ i, step^[i] unit ≠ 0
  returns : step^[period] unit = unit
  within : ∀ x, x ≠ 0 → log x ≤ period

namespace Powers
variable {α : Type*} [group : AddCommGroup α] [DecidableEq α] (g : Powers α) (x y z : α) (i j : ℕ)

def power : α := g.step^[i] g.unit

def mul : α := if x = 0 ∨ y = 0 then 0 else g.power (g.log x + g.log y)

def inv : α := if x = 0 then 0 else g.power (g.period - g.log x)

omit [DecidableEq α] in
theorem steps_zero : g.step^[i] 0 = 0 := iterate_map_zero g.step i

omit [DecidableEq α] in
theorem steps_add : g.step^[i] (x + y) = g.step^[i] x + g.step^[i] y := iterate_map_add g.step i x y

omit [DecidableEq α] in
theorem power_add : g.power (i + j) = g.step^[i] (g.power j) := Function.iterate_add_apply _ _ _ _

omit [DecidableEq α] in
theorem power_ne : g.power i ≠ 0 := g.nonzero i

variable {x y z}

omit [DecidableEq α] in
theorem power_log (different : x ≠ 0) : g.power (g.log x) = x := g.reaches x different

variable (x y z)

/-- A factor that is a power steps the other factor as often. -/
theorem mul_power : g.mul x (g.power i) = g.step^[i] x := by
  by_cases zero : x = 0
  · rw [mul, if_pos (Or.inl zero), zero, steps_zero]
  · rw [mul, if_neg (by simp [zero, power_ne])]
    rw [power_add, power_log g (power_ne g i), ← power_add, Nat.add_comm, power_add, power_log g zero]

theorem mul_zero' : g.mul x 0 = 0 := if_pos (Or.inr rfl)

theorem mul_comm' : g.mul x y = g.mul y x := by
  simp only [mul, or_comm (a := x = 0), Nat.add_comm (g.log x)]

theorem zero_mul' : g.mul 0 x = 0 := if_pos (Or.inl rfl)

/-- Every element is zero or a power, so a law is checked on these two forms. -/
theorem zero_or_power : x = 0 ∨ ∃ i, x = g.power i := by
  by_cases zero : x = 0
  · exact Or.inl zero
  · exact Or.inr ⟨g.log x, (power_log g zero).symm⟩

theorem mul_assoc' : g.mul (g.mul x y) z = g.mul x (g.mul y z) := by
  obtain rfl | ⟨j, rfl⟩ := g.zero_or_power z
  · simp only [mul_zero']
  obtain rfl | ⟨i, rfl⟩ := g.zero_or_power y
  · rw [mul_zero', zero_mul', mul_zero']
  · rw [mul_power, mul_power, mul_power, ← power_add, mul_power, Function.iterate_add_apply]

theorem add_mul' : g.mul (x + y) z = g.mul x z + g.mul y z := by
  obtain rfl | ⟨i, rfl⟩ := g.zero_or_power z
  · simp only [mul_zero', add_zero]
  · simp only [mul_power, steps_add]

theorem mul_unit : g.mul x g.unit = x := mul_power g x 0

theorem mul_inv' (different : x ≠ 0) : g.mul x (g.inv x) = g.unit := by
  rw [inv, if_neg different, mul_power]
  nth_rewrite 2 [← power_log g different]
  rw [← power_add, Nat.sub_add_cancel (g.within x different)]
  exact g.returns

theorem inv_zero' : g.inv 0 = 0 := if_pos rfl

/-- The field laws follow from those of the step. -/
abbrev field : Field α where
  __ := group
  mul := g.mul
  one := g.unit
  inv := g.inv
  mul_assoc := mul_assoc' g
  one_mul x := (mul_comm' g _ _).trans (mul_unit g x)
  mul_one := mul_unit g
  left_distrib x y z := by
    change g.mul x (y + z) = g.mul x y + g.mul x z
    rw [mul_comm', add_mul', mul_comm' g y, mul_comm' g z]
  right_distrib := add_mul' g
  zero_mul := zero_mul' g
  mul_zero := mul_zero' g
  mul_comm := mul_comm' g
  exists_pair_ne := ⟨g.unit, 0, power_ne g 0⟩
  mul_inv_cancel := mul_inv' g
  inv_zero := inv_zero' g
  nnqsmul := _
  nnqsmul_def _ _ := rfl
  qsmul := _
  qsmul_def _ _ := rfl

end Powers
end Isal
