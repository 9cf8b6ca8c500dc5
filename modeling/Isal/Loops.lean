import Mathlib

/-! Counted loops over an explicit state and their invariant rules. -/
namespace Isal.Loops

/-- `for (i = lo; i < hi; i++) s = body(i, s)` -/
def forRange (lo hi : Nat) (body : Nat → σ → σ) (s : σ) : σ :=
  (List.range' lo (hi - lo)).foldl (fun s i => body i s) s

/-- A loop whose body also chooses the next index; one that always moves forward needs
`hi - i` rounds at most. -/
def forNext (hi : Nat) (body : Nat → σ → Nat × σ) : (rounds i : Nat) → σ → σ
  | 0, _, s => s
  | rounds + 1, i, s =>
    if i < hi then forNext hi body rounds (body i s).1 (body i s).2 else s

/-- `for (i = count - 1; i >= 0; i--) s = body(i, s)` -/
def forDown (body : Nat → σ → σ) : (count : Nat) → σ → σ
  | 0, s => s
  | count + 1, s => forDown body count (body count s)

variable {a b : Nat} {f : Nat → σ → σ} {s : σ}

theorem forRange_done (h : b ≤ a) : forRange a b f s = s := by
  simp [forRange, Nat.sub_eq_zero_of_le h]

theorem forRange_first (h : a < b) :
    forRange a b f s = forRange (a + 1) b f (f a s) := by
  rw [forRange, show b - a = b - (a + 1) + 1 by omega, List.range'_succ, List.foldl_cons]
  rfl

theorem forRange_last (h : a ≤ b) :
    forRange a (b + 1) f s = f b (forRange a b f s) := by
  rw [forRange, show b + 1 - a = b - a + 1 by omega, List.range'_concat, List.foldl_append]
  simp [forRange, Nat.add_sub_cancel' h]

/-- What holds before the loop and is kept by every round holds after it. -/
theorem forRange_invariant (P : Nat → σ → Prop) (le : a ≤ b) (start : P a s)
    (round : ∀ i s, a ≤ i → i < b → P i s → P (i + 1) (f i s)) : P b (forRange a b f s) := by
  induction b, le using Nat.le_induction with
  | base => rwa [forRange_done (Nat.le_refl _)]
  | succ b le ih =>
    rw [forRange_last le]
    exact round _ _ le (Nat.lt_succ_self _) (ih fun i s low high => round i s low (by omega))

/-- The rule for an invariant that does not speak of the index. -/
theorem forRange_keeps (P : σ → Prop) (start : P s)
    (round : ∀ i s, a ≤ i → i < b → P s → P (f i s)) : P (forRange a b f s) := by
  rcases Nat.le_total a b with le | le
  · exact forRange_invariant (fun _ => P) le start round
  · rwa [forRange_done le]

theorem forNext_keeps {g : Nat → σ → Nat × σ} (P : σ → Prop) (rounds i : Nat) (low : a ≤ i)
    (start : P s) (round : ∀ i s, a ≤ i → i < b → P s → i ≤ (g i s).1 ∧ P (g i s).2) :
    P (forNext b g rounds i s) := by
  induction rounds generalizing i s with
  | zero => exact start
  | succ rounds ih =>
    rw [forNext]
    split
    · rename_i more
      obtain ⟨forward, keeps⟩ := round i s low more start
      exact ih _ (Nat.le_trans low forward) keeps
    · exact start

theorem forNext_invariant {g : Nat → σ → Nat × σ} (P : Nat → σ → Prop) (rounds i : Nat)
    (enough : b ≤ i + rounds) (start : P i s)
    (round : ∀ i s, i < b → P i s → i < (g i s).1 ∧ P (g i s).1 (g i s).2) :
    ∃ j, b ≤ j ∧ P j (forNext b g rounds i s) := by
  induction rounds generalizing i s with
  | zero => exact ⟨i, enough, start⟩
  | succ rounds ih =>
    rw [forNext]
    split
    · rename_i more
      obtain ⟨forward, keeps⟩ := round i s more start
      exact ih _ (by omega) keeps
    · exact ⟨i, by omega, start⟩

/-- Two loops down run alike when every round keeps a relation of their states. -/
theorem forDown_related {g : Nat → τ → τ} (R : σ → τ → Prop) (count : Nat) {t : τ} (start : R s t)
    (round : ∀ i < count, ∀ s t, R s t → R (f i s) (g i t)) : R (forDown f count s) (forDown g count t) := by
  induction count generalizing s t with
  | zero => exact start
  | succ count ih =>
    exact ih (round count (Nat.lt_succ_self _) s t start) fun i low => round i (by omega)

end Isal.Loops
