import Mathlib

/-! Texts as literals and copies of what came before, and the copies that lie in a window of a memory. -/
namespace Isal.Lz77

inductive Item (α : Type u) where
  | literal (symbol : α)
  | copy (length dist : Nat)
  deriving DecidableEq, Repr

/-- A text goes on with an item. A copy may reach into what it adds itself. -/
inductive Adds {α : Type u} : Item α → List α → List α → Prop where
  | literal (a : α) (text : List α) : Adds (.literal a) text (text ++ [a])
  | copy {length dist : Nat} {text more : List α} (some_ : 0 < dist) (inside : dist ≤ text.length) (size : more.length = length)
      (back : ∀ i < length, (text ++ more)[text.length + i]? = (text ++ more)[text.length + i - dist]?) :
      Adds (.copy length dist) text (text ++ more)

/-- A text goes on with one item after the other. -/
inductive Factors {α : Type u} : List (Item α) → List α → List α → Prop where
  | nil (text : List α) : Factors [] text text
  | cons {item : Item α} {items : List (Item α)} {text text' text'' : List α} (first : Adds item text text') (rest : Factors items text' text'') : Factors (item :: items) text text''

variable {α : Type u} {item : Item α} {items items' : List (Item α)} {text text' text'' more : List α} {length dist : Nat} {a : α}

theorem Factors.single (h : Adds item text text') : Factors [item] text text' := .cons h (.nil _)

theorem Factors.append (first : Factors items text text') (second : Factors items' text' text'') :
    Factors (items ++ items') text text'' := by
  induction first with
  | nil => exact second
  | cons head _ ih => exact .cons head (ih second)

theorem Adds.extends (h : Adds item text text') : text <+: text' := by
  cases h <;> exact List.prefix_append _ _

/-- A copy is its first symbol and the copy of the others. -/
theorem Adds.copy_cons (h : Adds (.copy (length + 1) dist) text text') : ∃ a, text[text.length - dist]? = some a ∧
    Adds (.copy length dist) (text ++ [a]) text' := by
  cases h with
  | @copy _ _ _ more some_ inside size back =>
    cases more with
    | nil => simp at size
    | cons a more =>
      have first := back 0 (by simp)
      rw [Nat.add_zero, List.getElem?_append_right (Nat.le_refl _), Nat.sub_self, List.getElem?_append_left (by omega)] at first
      have split : text ++ a :: more = text ++ [a] ++ more := by simp
      refine ⟨a, by simpa using first.symm, ?_⟩
      rw [split]
      refine .copy some_ (by simp; omega) (by simpa using size) ?_
      intro i below
      have further := back (i + 1) (by omega)
      rw [split] at further
      rw [List.length_append, List.length_singleton, Nat.add_assoc, Nat.add_comm 1 i]
      exact further

theorem Adds.copy_zero (h : Adds (.copy 0 dist) text text') : text' = text := by
  cases h with
  | copy some_ inside size back => simp [List.length_eq_zero_iff.mp size]

/-- The `n` symbols of a memory from `p` on -/
def window (memory : Nat → α) (p n : Nat) : List α := (List.range n).map fun i => memory (p + i)

section Window

variable {memory : Nat → α} {p n k : Nat}

@[simp] theorem window_length : (window memory p n).length = n := by simp [window]

theorem window_add : window memory p (n + k) = window memory p n ++ window memory (p + n) k := by
  simp [window, List.range_add, Nat.add_assoc, Function.comp_def]

theorem window_get {i : Nat} (inside : i < n) : (window memory p n)[i]? = some (memory (p + i)) := by
  simp [window, inside]

theorem window_one : window memory p 1 = [memory p] := by simp [window]

/-- The text behind which a window is put ends in the window before it. -/
theorem get_behind {i : Nat} (ends : window memory p n <:+ text) (inside : i < n + k) :
    (text ++ window memory (p + n) k)[text.length - n + i]? = some (memory (p + i)) := by
  obtain ⟨front, rfl⟩ := ends
  rw [List.append_assoc, ← window_add, List.length_append, window_length, Nat.add_sub_cancel,
    List.getElem?_append_right (by omega), Nat.add_sub_cancel_left, window_get inside]

/-- Symbols of the window that are found again `dist` back are a copy. -/
theorem Adds.ofWindow (ends : window memory p n <:+ text) (some_ : 0 < dist) (inside : dist ≤ n)
    (same : ∀ i < k, memory (p + n - dist + i) = memory (p + n + i)) :
    Adds (.copy k dist) text (text ++ window memory (p + n) k) := by
  have long := ends.length_le
  rw [window_length] at long
  refine .copy some_ (by omega) window_length ?_
  intro i below
  have here := get_behind (i := n + i) ends (show n + i < n + k by omega)
  have there := get_behind (i := n + i - dist) ends (show n + i - dist < n + k by omega)
  have place : text.length - n + (n + i) = text.length + i := by omega
  have place' : text.length - n + (n + i - dist) = text.length + i - dist := by omega
  have index : p + (n + i - dist) = p + n - dist + i := by omega
  rw [place] at here
  rw [place', index, same i below] at there
  rw [here, there, Nat.add_assoc]

end Window

/-- A symbol that the text before does not have is a literal where it comes first. -/
theorem Factors.literal_mem (h : Factors items text text') (occurs : a ∈ text') (new : a ∉ text) : .literal a ∈ items := by
  induction h with
  | nil => exact absurd occurs new
  | @cons item items text text' text'' first rest ih =>
    by_cases early : a ∈ text'
    · cases first with
      | literal b =>
        rcases List.mem_append.mp early with before | here
        · exact absurd before new
        · simp [List.mem_singleton.mp here]
      | @copy length _ _ more some_ inside size back =>
        -- the first place of the symbol cannot be one that is copied
        exfalso
        obtain ⟨i, place, least⟩ : ∃ i, (text ++ more)[i]? = some a ∧ ∀ j < i, (text ++ more)[j]? ≠ some a := by
          have found := List.mem_iff_getElem?.mp early
          classical exact ⟨Nat.find found, Nat.find_spec found, fun j below => Nat.find_min found below⟩
        by_cases inText : i < text.length
        · rw [List.getElem?_append_left inText] at place
          exact new (List.mem_of_getElem? place)
        · have short := (List.getElem?_eq_some_iff.mp place).1
          rw [List.length_append] at short
          have copied := back (i - text.length) (by omega)
          rw [Nat.add_sub_cancel' (Nat.not_lt.mp inText), place] at copied
          exact least _ (by omega) copied.symm
    · exact List.mem_cons_of_mem _ (ih occurs early)

end Isal.Lz77
