import Isal.Arr

/-! Counting sort: items with a key are written, in their order, at a cursor for each key.
With cursors that start where the counts of the smaller keys add up to, no item is
overwritten and every key's items end up side by side. -/
namespace Isal.CountingSort

variable {α : Type u}

/-- The items with key `k`, in order. -/
def keyed (items : List (α × Nat)) (k : Nat) : List α := (items.filter (·.2 == k)).map (·.1)

/-- Every key has room for all its items before the next one that occurs. -/
def Room (base : Nat → Nat) (items : List (α × Nat)) : Prop :=
  ∀ k k', k < k' → keyed items k ≠ [] → keyed items k' ≠ [] → base k + (keyed items k).length ≤ base k'

structure Placed (base : Nat → Nat) (items : List (α × Nat)) (cursor : Arr Nat) (list : Arr α) : Prop where
  cursor_eq : ∀ k, cursor k = base k + (keyed items k).length
  placed : ∀ k r a, (keyed items k)[r]? = some a → list (base k + r) = a

@[simp] theorem keyed_nil (k : Nat) : keyed ([] : List (α × Nat)) k = [] := rfl

theorem keyed_append (xs ys : List (α × Nat)) (k : Nat) : keyed (xs ++ ys) k = keyed xs k ++ keyed ys k := by
  simp [keyed]

theorem keyed_single (a : α) (key k : Nat) : keyed [(a, key)] k = if key = k then [a] else [] := by
  by_cases h : key = k <;> simp [keyed, h]

theorem keyed_cons (a : α) (key : Nat) (items : List (α × Nat)) (k : Nat) :
    keyed ((a, key) :: items) k = (if key = k then [a] else []) ++ keyed items k := by
  rw [← keyed_single, ← keyed_append, List.singleton_append]

theorem mem_keyed {items : List (α × Nat)} {k : Nat} {a : α} : a ∈ keyed items k ↔ (a, k) ∈ items := by
  simp [keyed]

theorem Placed.empty (cursor : Arr Nat) (list : Arr α) : Placed cursor.get [] cursor list where
  cursor_eq := by simp
  placed := by simp

variable {base : Nat → Nat} {items l : List (α × Nat)} {cursor : Arr Nat} {list : Arr α}

theorem Placed.push (h : Placed base items cursor list) (a : α) (key : Nat)
    (part : items ++ [(a, key)] <+: l) (room : Room base l) :
    Placed base (items ++ [(a, key)]) (cursor.set key (cursor key + 1)) (list.set (cursor key) a) := by
  obtain ⟨later, rfl⟩ := part
  have split : ∀ k, keyed (items ++ [(a, key)] ++ later) k =
      keyed items k ++ (if key = k then [a] else []) ++ keyed later k := by
    intro k; rw [keyed_append, keyed_append, keyed_single]
  constructor
  · intro k
    rw [Arr.set_get, keyed_append, keyed_single, h.cursor_eq]
    by_cases same : key = k
    · subst same; simp; omega
    · simp [same, Ne.symm same, h.cursor_eq]
  · intro k r b item
    rw [keyed_append, keyed_single] at item
    rw [Arr.set_get, h.cursor_eq]
    by_cases old : r < (keyed items k).length
    · -- the cursor of `key` is outside of what has been placed for `k`
      rw [List.getElem?_append_left old] at item
      rw [if_neg, h.placed k r b item]
      have occurs : keyed (items ++ [(a, key)] ++ later) k ≠ [] := by
        rw [split]; intro none; simp at none; simp [none] at old
      rcases Nat.lt_trichotomy k key with less | same | greater
      · have := room k key less occurs (by rw [split]; simp)
        rw [split] at this
        simp at this
        omega
      · subst same; omega
      · have := room key k greater (by rw [split]; simp) occurs
        rw [split] at this
        simp at this
        omega
    · rw [List.getElem?_append_right (by omega)] at item
      by_cases same : key = k
      · subst same
        have last : r - (keyed items key).length = 0 := by
          by_contra more
          rw [if_pos rfl, List.getElem?_eq_none (by simp; omega)] at item
          simp at item
        rw [if_pos (by omega)]
        simpa [last] using item
      · simp [same] at item

/-- The next item goes where the list has room for all items of its key. -/
theorem Placed.cursor_lt (h : Placed base items cursor list) {a : α} {key n : Nat}
    (part : items ++ [(a, key)] <+: l) (ends : ∀ k, keyed l k ≠ [] → base k + (keyed l k).length ≤ n) :
    cursor key < n := by
  obtain ⟨later, rfl⟩ := part
  have whole : (keyed (items ++ [(a, key)] ++ later) key).length =
      (keyed items key).length + 1 + (keyed later key).length := by
    rw [keyed_append, keyed_append, keyed_single, if_pos rfl, List.length_append, List.length_append,
      List.length_singleton]
  have := ends key (List.ne_nil_of_length_pos (by omega))
  rw [h.cursor_eq]
  omega

theorem Placed.found (h : Placed base items cursor list) {a : α} {k : Nat} (item : (a, k) ∈ items) :
    ∃ p, base k ≤ p ∧ p < base k + (keyed items k).length ∧ list p = a := by
  obtain ⟨r, inside, at_⟩ := List.getElem_of_mem (mem_keyed.mpr item)
  exact ⟨base k + r, by omega, by omega, h.placed k r a (by simp [inside, at_])⟩

theorem Placed.listed (h : Placed base items cursor list) {k p : Nat} (low : base k ≤ p)
    (high : p < base k + (keyed items k).length) : (list p, k) ∈ items := by
  have inside : p - base k < (keyed items k).length := by omega
  have at_ := h.placed k (p - base k) _ (List.getElem?_eq_getElem inside)
  rw [Nat.add_sub_cancel' low] at at_
  rw [at_, ← mem_keyed]
  exact List.getElem_mem inside

end Isal.CountingSort
