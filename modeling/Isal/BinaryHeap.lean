import Isal.Arr

/-! Binary heaps in an array from index one on, with the least value on top. A value behind
the last place that is no less than any in the heap spares the test for a second child. -/
namespace Isal.BinaryHeap

variable {α : Type*}

/-- The values at the first `size` places. -/
def contents (size : Nat) (h : Arr α) : Multiset α := (Finset.Icc 1 size).val.map h.get

def swap (h : Arr α) (i c : Nat) : Arr α := (h.set i (h c)).set c (h i)

theorem swap_get (h : Arr α) (i c j : Nat) : (swap h i c) j = h (Equiv.swap i c j) := by
  rw [swap, Arr.set_get, Arr.set_get]
  by_cases atSecond : j = c
  · subst atSecond
    rw [if_pos rfl, Equiv.swap_apply_right]
  rw [if_neg atSecond]
  by_cases atFirst : j = i
  · subst atFirst
    rw [if_pos rfl, Equiv.swap_apply_left]
  · rw [if_neg atFirst, Equiv.swap_apply_of_ne_of_ne atFirst atSecond]

theorem contents_swap {size i c : Nat} (h : Arr α) (first : 1 ≤ i ∧ i ≤ size) (second : 1 ≤ c ∧ c ≤ size) :
    contents size (swap h i c) = contents size h := by
  have moved : (Finset.Icc 1 size).map (Equiv.swap i c).toEmbedding = Finset.Icc 1 size := by
    apply Finset.map_perm
    intro j different
    by_cases atFirst : j = i
    · subst atFirst
      exact Finset.mem_coe.mpr (Finset.mem_Icc.mpr first)
    by_cases atSecond : j = c
    · subst atSecond
      exact Finset.mem_coe.mpr (Finset.mem_Icc.mpr second)
    · exact absurd (Equiv.swap_apply_of_ne_of_ne atFirst atSecond) different
  have values : (swap h i c).get = h.get ∘ Equiv.swap i c := funext (swap_get h i c)
  rw [contents, contents, values, ← Multiset.map_map]
  conv_rhs => rw [← moved, Finset.map_val]
  rfl

theorem contents_succ (size : Nat) (h : Arr α) :
    contents (size + 1) h = h (size + 1) ::ₘ contents size h := by
  have grown : Finset.Icc 1 (size + 1) = Finset.cons (size + 1) (Finset.Icc 1 size) (by simp) := by
    ext i
    simp only [Finset.mem_Icc, Finset.mem_cons]
    omega
  rw [contents, grown, Finset.cons_val, Multiset.map_cons]
  rfl

theorem contents_congr {size : Nat} {h h' : Arr α} (same : ∀ i, 1 ≤ i → i ≤ size → h i = h' i) :
    contents size h = contents size h' := by
  apply Multiset.map_congr rfl
  intro i member
  have inside := Finset.mem_Icc.mp (Finset.mem_val.mp member)
  exact same i inside.1 inside.2

theorem mem_contents {size : Nat} {h : Arr α} {x : α} :
    x ∈ contents size h ↔ ∃ i, 1 ≤ i ∧ i ≤ size ∧ h i = x := by
  simp only [contents, Multiset.mem_map, Finset.mem_val, Finset.mem_Icc, and_assoc]

/-- Another value on top. -/
theorem contents_set {size : Nat} (positive : 1 ≤ size) (h : Arr α) (x : α) :
    h 1 ::ₘ contents size (h.set 1 x) = x ::ₘ contents size h := by
  have split : Finset.Icc 1 size = Finset.cons 1 (Finset.Icc 2 size) (by simp) := by
    ext i
    simp only [Finset.mem_Icc, Finset.mem_cons]
    omega
  have rest : (Finset.Icc 2 size).val.map (h.set 1 x).get = (Finset.Icc 2 size).val.map h.get := by
    apply Multiset.map_congr rfl
    intro i member
    have inside := Finset.mem_Icc.mp (Finset.mem_val.mp member)
    exact Arr.set_other (by omega)
  rw [contents, contents, split, Finset.cons_val, Multiset.map_cons, Multiset.map_cons, rest, Arr.set_self,
    Multiset.cons_swap]

variable [LinearOrder α]

/-- No value from index `first` on is greater than one of its children. -/
def Ordered (first size : Nat) (h : Arr α) : Prop :=
  ∀ i, first ≤ i → ∀ c, c / 2 = i → c ≤ size → h i ≤ h c

/-- Where the least child of `i` is, or the child that there is. -/
def leastChild (h : Arr α) (i : Nat) : Nat :=
  if h (2 * i) ≤ h (2 * i + 1) then 2 * i else 2 * i + 1

/-- A value sinks until no child is less. -/
def siftDown (size : Nat) : (rounds i : Nat) → Arr α → Arr α
  | 0, _, h => h
  | rounds + 1, i, h =>
    if 2 * i ≤ size ∧ h (leastChild h i) < h i then
      siftDown size rounds (leastChild h i) (swap h i (leastChild h i))
    else h

/-- The least value is on top. -/
theorem Ordered.least {size : Nat} {h : Arr α} (ordered : Ordered 1 size h) :
    ∀ x ∈ contents size h, h 1 ≤ x := by
  have place : ∀ i, 1 ≤ i → i ≤ size → h 1 ≤ h i := by
    intro i
    induction i using Nat.strong_induction_on with
    | _ i ih =>
      intro low high
      by_cases top : i = 1
      · rw [top]
      · exact le_trans (ih (i / 2) (by omega) (by omega) (by omega)) (ordered (i / 2) (by omega) i rfl high)
  intro x member
  obtain ⟨i, low, high, rfl⟩ := mem_contents.mp member
  exact place i low high

section Sift

variable {size first i : Nat} {h : Arr α}

/-- All is in order but for the value at `i`, which may be too great for its place. -/
structure Sinking (first size i : Nat) (h : Arr α) : Prop where
  others : ∀ p, first ≤ p → p ≠ i → ∀ c, c / 2 = p → c ≤ size → h p ≤ h c
  above : first ≤ i / 2 → ∀ c, c / 2 = i → c ≤ size → h (i / 2) ≤ h c
  guard : ∀ j, 1 ≤ j → j ≤ size → h j ≤ h (size + 1)

theorem leastChild_half (h : Arr α) (i : Nat) : leastChild h i / 2 = i := by
  rw [leastChild]
  split <;> omega

theorem leastChild_le (h : Arr α) {c : Nat} (child : c / 2 = i) : h (leastChild h i) ≤ h c := by
  have sides : c = 2 * i ∨ c = 2 * i + 1 := by omega
  rw [leastChild]
  split
  · rename_i left
    rcases sides with rfl | rfl
    · exact le_refl _
    · exact left
  · rename_i right
    rcases sides with rfl | rfl
    · exact le_of_lt (lt_of_not_ge right)
    · exact le_refl _

/-- A child that is less is inside of the heap. -/
theorem Sinking.inside (sinking : Sinking first size i h) (positive : 1 ≤ i) (more : 2 * i ≤ size)
    (less : h (leastChild h i) < h i) : leastChild h i ≤ size := by
  by_contra outside
  have last : leastChild h i = size + 1 := by
    have half := leastChild_half h i
    omega
  rw [last] at less
  exact absurd (sinking.guard i positive (by omega)) (not_le_of_gt less)

theorem Sinking.swap (sinking : Sinking first size i h) (positive : 1 ≤ i) (from_ : first ≤ i)
    (more : 2 * i ≤ size) (less : h (leastChild h i) < h i) :
    Sinking first size (leastChild h i) (swap h i (leastChild h i)) := by
  have half := leastChild_half h i
  have inside := sinking.inside positive more less
  have least : ∀ c, c / 2 = i → h (leastChild h i) ≤ h c := fun c child => leastChild_le h child
  generalize leastChild h i = d at half inside less least
  have different : d ≠ i := by omega
  have atParent : (BinaryHeap.swap h i d) i = h d := by rw [swap_get, Equiv.swap_apply_left]
  have atChild : (BinaryHeap.swap h i d) d = h i := by rw [swap_get, Equiv.swap_apply_right]
  have elsewhere : ∀ j, j ≠ i → j ≠ d → (BinaryHeap.swap h i d) j = h j := by
    intro j apart apart'
    rw [swap_get, Equiv.swap_apply_of_ne_of_ne apart apart']
  constructor
  · intro p low apart c child high
    by_cases atHole : p = i
    · subst atHole
      rw [atParent]
      by_cases same : c = d
      · subst same
        rw [atChild]
        exact le_of_lt less
      · rw [elsewhere c (by omega) same]
        exact least c child
    · rw [elsewhere p atHole apart]
      by_cases hole : c = i
      · subst hole
        rw [atParent]
        subst child
        exact sinking.above low d half inside
      · rw [elsewhere c hole (by omega)]
        exact sinking.others p low atHole c child high
  · intro _ c child high
    rw [half, atParent, elsewhere c (by omega) (by omega)]
    exact sinking.others d (by omega) different c child high
  · intro j low high
    rw [elsewhere (size + 1) (by omega) (by omega), swap_get]
    by_cases atHole : j = i
    · rw [atHole, Equiv.swap_apply_left]
      exact sinking.guard d (by omega) inside
    by_cases same : j = d
    · rw [same, Equiv.swap_apply_right]
      exact sinking.guard i positive (by omega)
    · rw [Equiv.swap_apply_of_ne_of_ne atHole same]
      exact sinking.guard j low high

theorem Sinking.stop (sinking : Sinking first size i h) (stops : ¬(2 * i ≤ size ∧ h (leastChild h i) < h i)) :
    Ordered first size h := by
  intro p low c child high
  by_cases here : p = i
  · subst here
    have none := fun more => not_lt.mp (not_and.mp stops more)
    exact le_trans (none (by omega)) (leastChild_le h child)
  · exact sinking.others p low here c child high

/-- A heap in which one value is out of order is put in order, and nothing else changes. -/
theorem siftDown_spec (rounds : Nat) (sinking : Sinking first size i h) (positive : 1 ≤ i) (from_ : first ≤ i)
    (enough : size < i + rounds) :
    Ordered first size (siftDown size rounds i h) ∧
      contents size (siftDown size rounds i h) = contents size h ∧
      ∀ j, j = 0 ∨ size < j → (siftDown size rounds i h) j = h j := by
  induction rounds generalizing i h with
  | zero =>
    refine ⟨sinking.stop ?_, rfl, fun _ _ => rfl⟩
    rintro ⟨more, -⟩
    omega
  | succ rounds ih =>
    rw [siftDown]
    by_cases goes : 2 * i ≤ size ∧ h (leastChild h i) < h i
    · rw [if_pos goes]
      have half := leastChild_half h i
      have inside := sinking.inside positive goes.1 goes.2
      obtain ⟨ordered, same, outside⟩ :=
        ih (sinking.swap positive from_ goes.1 goes.2) (by omega) (by omega) (by omega)
      refine ⟨ordered, ?_, ?_⟩
      · rw [same, contents_swap h ⟨positive, by omega⟩ ⟨by omega, inside⟩]
      · intro j far
        rw [outside j far, swap_get, Equiv.swap_apply_of_ne_of_ne (by omega) (by omega)]
    · rw [if_neg goes]
      exact ⟨sinking.stop goes, rfl, fun _ _ => rfl⟩

/-- One more value at the front may be out of order. -/
theorem Ordered.sinking_front (ordered : Ordered (i + 1) size h) (positive : 1 ≤ i)
    (guard : ∀ j, 1 ≤ j → j ≤ size → h j ≤ h (size + 1)) : Sinking i size i h := by
  constructor
  · intro p low apart c child high
    exact ordered p (by omega) c child high
  · intro above
    omega
  · exact guard

/-- Only the value on top may be out of order after it is replaced. -/
theorem Ordered.sinking (ordered : Ordered 1 size h) (guard : ∀ j, 1 ≤ j → j ≤ size → h j ≤ h (size + 1))
    {x : α} (positive : 1 ≤ size) (bound : x ≤ h (size + 1)) : Sinking 1 size 1 (h.set 1 x) := by
  constructor
  · intro p low apart c child high
    rw [Arr.set_other apart, Arr.set_other (by omega)]
    exact ordered p low c child high
  · intro above
    omega
  · intro j low high
    rw [Arr.set_other (by omega : size + 1 ≠ 1), Arr.set_get]
    split
    · exact bound
    · exact guard j low high

end Sift
end Isal.BinaryHeap
