import Isal.HeapTree
import Isal.BinaryHeap
import Isal.HuffmanSlots

/-! The heap in the union is a binary heap, and the slots that `build_huff_tree` fills hold a
tree of merges. -/
namespace Isal.HuffCodes

open BinaryHeap Huffman

/-- The union as 64-bit keys -/
def cells (m : HeapTree) : Arr Nat := ⟨fun i => m (2 * i) + 2 ^ 32 * m (2 * i + 1)⟩

/-- A key's weight and number -/
def entry (x : Nat) : Nat × Nat := (x / 2 ^ 16, x % 2 ^ 16)

theorem entry_key (w i : Nat) (number : i < 2 ^ 16) : entry (w * 2 ^ 16 ||| i) = (w, i) := by
  rw [Nat.mul_comm, ← Nat.two_pow_add_eq_or_of_lt number, entry]
  ext <;> dsimp only <;> omega

theorem readHeap_cells (m : HeapTree) {i : Nat} (inside : i < heapTreeSize) :
    readHeap m i = some (cells m i) := by
  rw [readHeap, readWord, readWord, if_pos (by omega), if_pos (by omega)]
  rfl

theorem writeHeap_cells (m : HeapTree) (i : Nat) {v : Nat} (inside : i < heapTreeSize) (small : v < 2 ^ 64) :
    ∃ m', writeHeap m i v = some m' ∧ cells m' = (cells m).set i v := by
  refine ⟨(m.set (2 * i) (v % 2 ^ 32)).set (2 * i + 1) (v / 2 ^ 32 % 2 ^ 32), ?_, ?_⟩
  · rw [writeHeap, writeWord, if_pos (by omega)]
    change writeWord _ _ _ = _
    rw [writeWord, if_pos (by omega)]
  · apply congrArg Arr.mk
    funext j
    simp only [Arr.set_get]
    by_cases same : j = i
    · subst same
      rw [if_neg (by omega), if_pos rfl, if_pos rfl, if_pos rfl]
      omega
    · rw [if_neg (by omega), if_neg (by omega), if_neg (by omega), if_neg (by omega), if_neg same]
      rfl

theorem storeU16_cells (m : HeapTree) (i v : Nat) (inside : i < heapTreeSize) (empty : cells m i = 0) :
    ∃ m', storeU16 m i v = some m' ∧ cells m' = (cells m).set i (v % 2 ^ 16) := by
  have zero : m (2 * i) + 2 ^ 32 * m (2 * i + 1) = 0 := empty
  refine ⟨m.set (2 * i) ((m (2 * i) / 2 ^ 16 * 2 ^ 16 + v % 2 ^ 16) % 2 ^ 32), ?_, ?_⟩
  · rw [storeU16, readWord, if_pos (by omega)]
    change writeWord _ _ _ = _
    rw [writeWord, if_pos (by omega)]
  · apply congrArg Arr.mk
    funext j
    simp only [Arr.set_get]
    by_cases same : j = i
    · subst same
      rw [if_pos rfl, if_neg (by omega), if_pos rfl]
      omega
    · rw [if_neg (by omega), if_neg (by omega), if_neg same]
      rfl

/-- `heapify` sifts a key down. -/
theorem heapify_siftDown {heapSize : Nat} (inside : heapSize + 1 < heapTreeSize) (rounds index : Nat)
    (m : HeapTree) (small : ∀ j, 1 ≤ j → j ≤ heapSize + 1 → cells m j < 2 ^ 64) (positive : 1 ≤ index)
    (enough : heapSize < index + rounds) :
    ∃ m', heapify heapSize (rounds + 1) index m = some m' ∧ cells m' = siftDown heapSize rounds index (cells m) := by
  induction rounds generalizing index m with
  | zero =>
    refine ⟨m, ?_, rfl⟩
    rw [heapify, if_neg (by omega)]
  | succ rounds ih =>
    rw [heapify, siftDown]
    by_cases more : 2 * index ≤ heapSize
    · rw [if_pos more, readHeap_cells m (by omega), readHeap_cells m (by omega)]
      have half := leastChild_half (cells m) index
      simp only [Option.bind_eq_bind, Option.bind_some]
      rw [← leastChild]
      generalize leastChild (cells m) index = child at half ⊢
      rw [readHeap_cells m (by omega), Option.bind_some, readHeap_cells m (by omega), Option.bind_some]
      by_cases less : cells m child < cells m index
      · obtain ⟨m₁, wrote₁, cells₁⟩ := writeHeap_cells m index (by omega) (small child (by omega) (by omega))
        obtain ⟨m₂, wrote₂, cells₂⟩ := writeHeap_cells m₁ child (by omega) (small index positive (by omega))
        have swapped : cells m₂ = swap (cells m) index child := by
          rw [cells₂, cells₁]
          rfl
        obtain ⟨m', result, same⟩ := ih child m₂ (by
          intro j low high
          rw [swapped, swap_get]
          by_cases atIndex : j = index
          · rw [atIndex, Equiv.swap_apply_left]
            exact small child (by omega) (by omega)
          by_cases atChild : j = child
          · rw [atChild, Equiv.swap_apply_right]
            exact small index positive (by omega)
          · rw [Equiv.swap_apply_of_ne_of_ne atIndex atChild]
            exact small j low high) (by omega) (by omega)
        rw [if_pos less, if_pos ⟨more, less⟩, wrote₁, Option.bind_some, wrote₂, Option.bind_some]
        exact ⟨m', result, by rw [same, swapped]⟩
      · rw [if_neg less, if_neg (fun both => less both.2)]
        exact ⟨m, rfl, rfl⟩
    · rw [if_neg more, if_neg (by omega)]
      exact ⟨m, rfl, rfl⟩

/-- A heap in the union, in order from place `first` on, with a key behind it that is above all others. -/
structure IsHeap (first heapSize : Nat) (m : HeapTree) : Prop where
  ordered : Ordered first heapSize (cells m)
  sentinel : cells m (heapSize + 1) = 2 ^ 64 - 1
  small : ∀ x ∈ contents heapSize (cells m), x < 2 ^ 64

theorem keys_small {heapSize : Nat} {m : HeapTree} (small : ∀ x ∈ contents heapSize (cells m), x < 2 ^ 64) {j : Nat}
    (low : 1 ≤ j) (high : j ≤ heapSize) : cells m j < 2 ^ 64 :=
  small _ (mem_contents.mpr ⟨j, low, high, rfl⟩)

theorem IsHeap.guard {first heapSize : Nat} {m : HeapTree} (heap : IsHeap first heapSize m) :
    ∀ j, 1 ≤ j → j ≤ heapSize → cells m j ≤ cells m (heapSize + 1) := by
  intro j low high
  have := keys_small heap.small low high
  rw [heap.sentinel]
  omega

theorem IsHeap.congr {heapSize : Nat} {m m' : HeapTree} (heap : IsHeap 1 heapSize m)
    (same : ∀ j, j ≤ heapSize + 1 → cells m' j = cells m j) : IsHeap 1 heapSize m' := by
  constructor
  · intro p low c child high
    rw [same p (by omega), same c (by omega)]
    exact heap.ordered p low c child high
  · rw [same _ (le_refl _), heap.sentinel]
  · rw [contents_congr fun i _ high => same i (by omega)]
    exact heap.small

/-- `heapify` repairs a heap with one key out of order. -/
theorem heapify_heap {first heapSize index : Nat} {m : HeapTree} (inside : heapSize + 1 < heapTreeSize)
    (positive : 1 ≤ index) (from_ : first ≤ index) (sinking : Sinking first heapSize index (cells m))
    (sentinel : cells m (heapSize + 1) = 2 ^ 64 - 1) (small : ∀ x ∈ contents heapSize (cells m), x < 2 ^ 64) :
    ∃ m', heapify heapSize (heapSize + 1) index m = some m' ∧ IsHeap first heapSize m' ∧
      contents heapSize (cells m') = contents heapSize (cells m) ∧ ∀ j, heapSize < j → cells m' j = cells m j := by
  obtain ⟨m', result, sifted⟩ := heapify_siftDown inside heapSize index m (by
    intro j low high
    rcases Nat.lt_or_ge heapSize j with beyond | within
    · rw [show j = heapSize + 1 by omega, sentinel]
      norm_num
    · exact keys_small small low within) positive (by omega)
  obtain ⟨ordered, same, outside⟩ := siftDown_spec heapSize sinking positive from_ (by omega)
  rw [← sifted] at ordered same outside
  refine ⟨m', result, ⟨ordered, ?_, ?_⟩, same, ?_⟩
  · rw [outside _ (by omega), sentinel]
  · rw [same]
    exact small
  · intro j beyond
    exact outside j (Or.inr beyond)

theorem heapifyFrom_heap {heapSize : Nat} (inside : heapSize + 1 < heapTreeSize) (i : Nat) {m : HeapTree}
    (heap : IsHeap (i + 1) heapSize m) :
    ∃ m', heapifyFrom heapSize i m = some m' ∧ IsHeap 1 heapSize m' ∧
      contents heapSize (cells m') = contents heapSize (cells m) ∧ ∀ j, heapSize < j → cells m' j = cells m j := by
  induction i generalizing m with
  | zero => exact ⟨m, rfl, heap, rfl, fun _ _ => rfl⟩
  | succ i ih =>
    obtain ⟨m₁, sifted, heap₁, same₁, outside₁⟩ := heapify_heap inside (Nat.le_add_left 1 i) (le_refl _)
      (heap.ordered.sinking_front (Nat.le_add_left 1 i) heap.guard) heap.sentinel heap.small
    obtain ⟨m', result, heap', same', outside'⟩ := ih heap₁
    refine ⟨m', ?_, heap', same'.trans same₁, ?_⟩
    · rw [heapifyFrom, sifted]
      exact result
    · intro j beyond
      rw [outside' j beyond, outside₁ j beyond]

/-- `build_heap` puts keys in order, and nothing else changes but for the sentinel. -/
theorem buildHeap_heap {heapSize : Nat} {m : HeapTree} (inside : heapSize + 1 < heapTreeSize)
    (small : ∀ x ∈ contents heapSize (cells m), x < 2 ^ 64) :
    ∃ m', buildHeap m heapSize = some m' ∧ IsHeap 1 heapSize m' ∧
      contents heapSize (cells m') = contents heapSize (cells m) ∧ ∀ j, heapSize + 1 < j → cells m' j = cells m j := by
  obtain ⟨m₁, wrote, cells₁⟩ := writeHeap_cells m (heapSize + 1) inside (v := 2 ^ 64 - 1) (by norm_num)
  have same₁ : contents heapSize (cells m₁) = contents heapSize (cells m) := by
    apply contents_congr
    intro i _ high
    rw [cells₁, Arr.set_other (by omega)]
  have heap₁ : IsHeap (heapSize / 2 + 1) heapSize m₁ := by
    constructor
    · intro p low c child high
      omega
    · rw [cells₁, Arr.set_self]
    · rw [same₁]
      exact small
  obtain ⟨m', result, heap', same', outside'⟩ := heapifyFrom_heap inside (heapSize / 2) heap₁
  refine ⟨m', ?_, heap', same'.trans same₁, ?_⟩
  · rw [buildHeap, wrote]
    exact result
  · intro j beyond
    rw [outside' j (by omega), cells₁, Arr.set_other (by omega)]

/-- Another key instead of the one on top, put in its place. -/
theorem heapify_top {heapSize x : Nat} {m m₁ : HeapTree} (inside : heapSize + 1 < heapTreeSize)
    (positive : 1 ≤ heapSize) (heap : IsHeap 1 heapSize m) (small : x < 2 ^ 64) (set : cells m₁ = (cells m).set 1 x) :
    ∃ m', heapify heapSize (heapSize + 1) 1 m₁ = some m' ∧ IsHeap 1 heapSize m' ∧
      cells m 1 ::ₘ contents heapSize (cells m') = x ::ₘ contents heapSize (cells m) ∧
      ∀ j, heapSize < j → cells m' j = cells m j := by
  have replaced := contents_set positive (cells m) x
  have sinking : Sinking 1 heapSize 1 (cells m₁) := by
    rw [set]
    apply heap.ordered.sinking heap.guard positive
    rw [heap.sentinel]
    omega
  obtain ⟨m', result, heap', same, outside⟩ := heapify_heap inside (le_refl 1) (le_refl 1) sinking
    (by rw [set, Arr.set_other (by omega), heap.sentinel]) (by
      intro y member
      rw [set] at member
      have within : y ∈ x ::ₘ contents heapSize (cells m) := replaced ▸ Multiset.mem_cons_of_mem member
      rcases Multiset.mem_cons.mp within with rfl | other
      · exact small
      · exact heap.small y other)
  refine ⟨m', result, heap', ?_, ?_⟩
  · rw [same, set]
    exact replaced
  · intro j beyond
    rw [outside j beyond, set, Arr.set_other (by omega)]

/-- The least key is taken off the heap. -/
theorem heap_pop {s : Nat} {m : HeapTree} (inside : s + 3 < heapTreeSize) (heap : IsHeap 1 (s + 2) m) :
    ∃ m₁ m₂ m', writeHeap m 1 (cells m (s + 2)) = some m₁ ∧ writeHeap m₁ (s + 2) (2 ^ 64 - 1) = some m₂ ∧
      heapify (s + 1) (s + 2) 1 m₂ = some m' ∧ IsHeap 1 (s + 1) m' ∧
      cells m 1 ::ₘ contents (s + 1) (cells m') = contents (s + 2) (cells m) ∧
      ∀ j, s + 2 < j → cells m' j = cells m j := by
  have small : cells m (s + 2) < 2 ^ 64 := keys_small heap.small (by omega) (le_refl _)
  obtain ⟨m₁, wrote₁, cells₁⟩ := writeHeap_cells m 1 (by omega) small
  obtain ⟨m₂, wrote₂, cells₂⟩ := writeHeap_cells m₁ (s + 2) (by omega) (v := 2 ^ 64 - 1) (by norm_num)
  -- the last key is dropped first, which makes no difference
  obtain ⟨m₀, -, cells₀⟩ := writeHeap_cells m (s + 2) (by omega) (v := 2 ^ 64 - 1) (by norm_num)
  have same₀ : contents (s + 1) (cells m₀) = contents (s + 1) (cells m) := by
    apply contents_congr
    intro i _ high
    rw [cells₀, Arr.set_other (by omega)]
  have heap₀ : IsHeap 1 (s + 1) m₀ := by
    constructor
    · intro p low c child high
      rw [cells₀, Arr.set_other (by omega), Arr.set_other (by omega)]
      exact heap.ordered p low c child (by omega)
    · rw [cells₀, Arr.set_self]
    · intro x member
      rw [same₀] at member
      apply heap.small
      rw [contents_succ]
      exact Multiset.mem_cons_of_mem member
  have set₂ : cells m₂ = (cells m₀).set 1 (cells m (s + 2)) := by
    rw [cells₂, cells₁, cells₀, Arr.set_comm (by omega)]
  obtain ⟨m', result, heap', moved, outside⟩ := heapify_top (by omega) (by omega) heap₀ small set₂
  refine ⟨m₁, m₂, m', wrote₁, wrote₂, result, heap', ?_, ?_⟩
  · rw [cells₀, Arr.set_other (by omega), ← cells₀, same₀] at moved
    rw [moved]
    exact (contents_succ (s + 1) _).symm
  · intro j beyond
    rw [outside j (by omega), cells₀, Arr.set_other (by omega)]

/-- The keys of the heap as weights and numbers -/
def entries (heapSize : Nat) (m : HeapTree) : Multiset (Nat × Nat) := (contents heapSize (cells m)).map entry

/-- The state of `build_huff_tree` after `merged` rounds. With weights that fit, the slots are filled by
merges, but for the root's weight, which may be too great for its key. -/
structure MergeState (n merged heapSize nodePtr : Nat) (start : Multiset (Nat × Nat)) (m : HeapTree)
    (slot : Nat → Nat × Nat) : Prop where
  heap : IsHeap 1 heapSize m
  placing : Placing maxHistheapSize nodePtr merged (start.map Prod.snd) ((entries heapSize m).map Prod.snd)
    fun t => (slot t).2
  weighted : (start.map Prod.fst).sum ≤ 2 ^ 48 → ∃ live, Merging nodePtr merged start live slot ∧
    (entries heapSize m = live ∨ heapSize = 1 ∧ (entries heapSize m).map Prod.snd = live.map Prod.snd)
  place : nodePtr + 2 * merged = heapTreeNodeStart
  size : heapSize + merged = n
  filled : ∀ t, nodePtr < t → t ≤ heapTreeNodeStart → cells m t = (slot t).2
  empty : ∀ t, n + 1 < t → t ≤ nodePtr → cells m t = 0
  used : ∀ t, heapSize < t → t ≤ n + 1 → cells m t = 2 ^ 64 - 1

/-- The node's key has the sum of the weights. The sum of the numbers stays below them. -/
theorem entry_joined (h1 h2 : Nat) {nodePtr : Nat} (light : h1 / 2 ^ 16 + h2 / 2 ^ 16 < 2 ^ 48)
    (numbers : h1 % 2 ^ 16 + h2 % 2 ^ 16 < 2 ^ 16) (number : nodePtr < 2 ^ 16) :
    entry ((h1 + h2) % 2 ^ 64 / 2 ^ 16 * 2 ^ 16 ||| nodePtr) = ((entry h1).1 + (entry h2).1, nodePtr) := by
  have weight : (h1 + h2) % 2 ^ 64 / 2 ^ 16 = h1 / 2 ^ 16 + h2 / 2 ^ 16 := by omega
  rw [weight]
  exact entry_key _ _ number

theorem key_small (h : Nat) {nodePtr : Nat} (number : nodePtr < 2 ^ 16) :
    h % 2 ^ 64 / 2 ^ 16 * 2 ^ 16 ||| nodePtr < 2 ^ 64 := by
  rw [Nat.mul_comm, ← Nat.two_pow_add_eq_or_of_lt number]
  omega

section Merge

variable {n merged : Nat} {start : Multiset (Nat × Nat)}

/-- One round of `build_huff_tree` -/
theorem mergeNodes_step (symbols : ∀ x ∈ start, x.2 ≤ maxHistheapSize) (few : n ≤ maxHistheapSize) {s nodePtr : Nat}
    {m : HeapTree} {slot : Nat → Nat × Nat} (state : MergeState n merged (s + 2) nodePtr start m slot) :
    ∃ m' slot', mergeNodes (s + 2) nodePtr m = mergeNodes (s + 1) (nodePtr - 2) m' ∧
      MergeState n (merged + 1) (s + 1) (nodePtr - 2) start m' slot' := by
  obtain ⟨heap, placing, weighted, place, size, filled, empty, used⟩ := state
  have last : heapTreeNodeStart = 858 := rfl
  have total : heapTreeSize = 859 := rfl
  have most : maxHistheapSize = 286 := rfl
  have room : n + 3 < nodePtr ∧ nodePtr < heapTreeSize := by omega
  obtain ⟨p, rfl⟩ : ∃ p, nodePtr = p + 2 := ⟨nodePtr - 2, by omega⟩
  obtain ⟨m₁, m₂, m₃, wrote₁, wrote₂, sifted₃, heap₃, popped, outside₃⟩ := heap_pop (by omega) heap
  set h1 := cells m 1
  set h2 := cells m₃ 1 with h2_eq
  obtain ⟨rest, others⟩ : ∃ rest, contents (s + 1) (cells m₃) = h2 ::ₘ rest :=
    Multiset.exists_cons_of_mem (mem_contents.mpr ⟨1, le_refl _, by omega, rfl⟩)
  have live : entries (s + 2) m = entry h1 ::ₘ entry h2 ::ₘ rest.map entry := by
    rw [entries, ← popped, others, Multiset.map_cons, Multiset.map_cons]
  have order : h1 ≤ h2 := by
    apply heap.ordered.least
    rw [← popped, others]
    exact Multiset.mem_cons_of_mem (Multiset.mem_cons_self ..)
  have least : ∀ x ∈ rest, h2 ≤ x := by
    intro x member
    apply heap₃.ordered.least
    rw [others]
    exact Multiset.mem_cons_of_mem member
  have small := key_small (h1 + h2) (by omega : p + 2 < 2 ^ 16)
  obtain ⟨m₄, wrote₄, cells₄⟩ := writeHeap_cells m₃ 1 (by omega) small
  obtain ⟨m₅, sifted₅, heap₅, moved, outside₅⟩ := heapify_top (by omega) (by omega) heap₃ small cells₄
  have contents₅ : contents (s + 1) (cells m₅) =
      ((h1 + h2) % 2 ^ 64 / 2 ^ 16 * 2 ^ 16 ||| (p + 2)) ::ₘ rest := by
    rw [← h2_eq, others, Multiset.cons_swap] at moved
    exact (Multiset.cons_inj_right h2).mp moved
  have outside : ∀ j, s + 2 < j → cells m₅ j = cells m j := by
    intro j beyond
    rw [outside₅ j (by omega), outside₃ j beyond]
  obtain ⟨m₆, wrote₆, cells₆⟩ := storeU16_cells m₅ (p + 2) h1 (by omega)
    (by rw [outside _ (by omega), empty _ (by omega) (le_refl _)])
  obtain ⟨m₇, wrote₇, cells₇⟩ := storeU16_cells m₆ (p + 1) h2 (by omega)
    (by rw [cells₆, Arr.set_other (by omega), outside _ (by omega), empty _ (by omega) (by omega)])
  have stored : ∀ j, j ≠ p + 1 → j ≠ p + 2 → cells m₇ j = cells m₅ j := by
    intro j lower upper
    rw [cells₇, Arr.set_other lower, cells₆, Arr.set_other upper]
  have entries₇ : entries (s + 1) m₇ =
      entry ((h1 + h2) % 2 ^ 64 / 2 ^ 16 * 2 ^ 16 ||| (p + 2)) ::ₘ rest.map entry := by
    rw [entries, contents_congr fun i _ high => stored i (by omega) (by omega), contents₅, Multiset.map_cons]
  have number := congrArg Prod.snd (entry_key ((h1 + h2) % 2 ^ 64 / 2 ^ 16) (p + 2) (by omega))
  refine ⟨m₇, fillPair slot p (entry h1) (entry h2), ?_, ?_⟩
  · rw [mergeNodes, readHeap_cells m (by omega), readHeap_cells m (by omega)]
    simp only [Option.bind_eq_bind, Option.bind_some]
    rw [wrote₁, Option.bind_some, wrote₂, Option.bind_some, sifted₃, Option.bind_some, readHeap_cells m₃ (by omega),
      Option.bind_some, wrote₄, Option.bind_some, sifted₅, Option.bind_some, wrote₆, Option.bind_some]
    change (storeU16 m₆ (p + 1) h2).bind _ = _
    rw [wrote₇, Option.bind_some]
  · constructor
    · exact heap₅.congr fun j low => stored j (by omega) (by omega)
    · rw [live, Multiset.map_cons, Multiset.map_cons] at placing
      have next := placing.step
      rw [fillPair_snd] at next
      rw [entries₇, Multiset.map_cons, number]
      exact next
    · intro light
      obtain ⟨live', merging, keys⟩ := weighted light
      have same : live' = entry h1 ::ₘ entry h2 ::ₘ rest.map entry := by
        rcases keys with same | ⟨one, -⟩
        · rw [← same, live]
        · omega
      rw [same] at merging
      have lighter : (entry h1).1 ≤ (entry h2).1 := Nat.div_le_div_right order
      refine ⟨((entry h1).1 + (entry h2).1, p + 2) ::ₘ rest.map entry, ?_, ?_⟩
      · apply merging.step lighter
        intro x member
        obtain ⟨y, inside, rfl⟩ := Multiset.mem_map.mp member
        exact Nat.div_le_div_right (least y inside)
      · have whole := merging.weights
        rw [Multiset.map_cons, Multiset.map_cons, Multiset.sum_cons, Multiset.sum_cons] at whole
        rcases Nat.lt_or_ge ((entry h1).1 + (entry h2).1) (2 ^ 48) with below | full
        · left
          have numbers := fun x (member : x ∈ (entries (s + 2) m).map Prod.snd) => Placing.number_le placing (by
            intro y inside
            obtain ⟨z, source, rfl⟩ := Multiset.mem_map.mp inside
            exact symbols z source) member
          rw [live, Multiset.map_cons, Multiset.map_cons] at numbers
          have number1 : h1 % 2 ^ 16 ≤ max maxHistheapSize (p + 2 + 2 * merged) := numbers (entry h1).2 (by simp)
          have number2 : h2 % 2 ^ 16 ≤ max maxHistheapSize (p + 2 + 2 * merged) := numbers (entry h2).2 (by simp)
          rw [entries₇, entry_joined h1 h2 below (by omega) (by omega)]
        · -- nothing but the root can weigh that much
          right
          have alone : rest = 0 := by
            apply Multiset.eq_zero_of_forall_notMem
            intro y member
            have heavier : (entry h2).1 ≤ (entry y).1 := Nat.div_le_div_right (least y member)
            have part := Multiset.single_le_sum (fun _ _ => Nat.zero_le _) _
              (Multiset.mem_map_of_mem Prod.fst (Multiset.mem_map_of_mem entry member))
            omega
          have cards := congrArg Multiset.card others
          rw [contents, Multiset.card_map, Finset.card_val, Nat.card_Icc, alone, Multiset.card_cons, Multiset.card_zero]
            at cards
          refine ⟨by omega, ?_⟩
          rw [entries₇, alone, Multiset.map_zero, Multiset.map_cons, Multiset.map_cons, number]
    · omega
    · omega
    · intro t above upTo
      rcases (by omega : t = p + 1 ∨ t = p + 2 ∨ p + 2 < t) with rfl | rfl | old
      · rw [cells₇, Arr.set_self, fillPair_lower]
        rfl
      · rw [cells₇, Arr.set_other (by omega), cells₆, Arr.set_self, fillPair_upper]
        rfl
      · rw [stored t (by omega) (by omega), outside t (by omega), fillPair_above slot _ _ old]
        exact filled t old upTo
    · intro t above upTo
      rw [stored t (by omega) (by omega), outside t (by omega)]
      exact empty t above (by omega)
    · intro t above upTo
      rw [stored t (by omega) (by omega)]
      rcases Nat.eq_or_lt_of_le (Nat.succ_le_of_lt above) with rfl | beyond
      · exact heap₅.sentinel
      · rw [outside t (by omega)]
        exact used t (by omega) upTo

theorem mergeNodes_run (symbols : ∀ x ∈ start, x.2 ≤ maxHistheapSize) (few : n ≤ maxHistheapSize) (s : Nat)
    {nodePtr merged : Nat} {m : HeapTree} {slot : Nat → Nat × Nat}
    (state : MergeState n merged (s + 1) nodePtr start m slot) :
    ∃ nodePtr' m' slot', mergeNodes (s + 1) nodePtr m = some (nodePtr', m') ∧
      MergeState n (merged + s) 1 nodePtr' start m' slot' := by
  induction s generalizing nodePtr merged m slot with
  | zero => exact ⟨nodePtr, m, slot, rfl, state⟩
  | succ s ih =>
    obtain ⟨m₁, slot₁, round, state₁⟩ := mergeNodes_step symbols few state
    obtain ⟨nodePtr', m', slot', result, state'⟩ := ih state₁
    rw [Nat.add_assoc, Nat.add_comm 1 s] at state'
    exact ⟨nodePtr', m', slot', round.trans result, state'⟩

/-- `build_huff_tree` fills the slots with a tree and leaves ones in the heap. With weights that fit,
it is a tree of merges. -/
theorem buildHuffTree_tree {m : HeapTree} (symbols : ∀ x ∈ start, x.2 ≤ maxHistheapSize)
    (few : n + 1 ≤ maxHistheapSize) (heap : IsHeap 1 (n + 1) m) (keys : entries (n + 1) m = start)
    (empty : ∀ t, n + 2 < t → t ≤ heapTreeNodeStart → cells m t = 0) :
    ∃ root m' child, buildHuffTree m (n + 1) heapTreeNodeStart = some (root, m') ∧
      root + 2 * n = heapTreeNodeStart ∧ SlotTree maxHistheapSize root n (start.map Prod.snd) child ∧
      (∀ t, root ≤ t → t ≤ heapTreeNodeStart → cells m' t = child t) ∧
      (∀ t, 2 ≤ t → t ≤ n + 2 → cells m' t = 2 ^ 64 - 1) ∧
      ((start.map Prod.fst).sum ≤ 2 ^ 48 → ∃ slot, Weighted root n start slot ∧ ∀ t, (slot t).2 = child t) := by
  have numbers : ∀ x ∈ start.map Prod.snd, x ≤ maxHistheapSize := by
    intro x member
    obtain ⟨y, source, rfl⟩ := Multiset.mem_map.mp member
    exact symbols y source
  have initial : MergeState (n + 1) 0 (n + 1) heapTreeNodeStart start m (fun _ => 0) := by
    constructor
    · exact heap
    · rw [keys]
      exact Placing.initial numbers
    · intro _
      exact ⟨start, Merging.initial, Or.inl keys⟩
    · rfl
    · rfl
    · intro t above upTo
      omega
    · exact empty
    · intro t above upTo
      rw [show t = n + 1 + 1 by omega]
      exact heap.sentinel
  obtain ⟨root, m', slot, result, state⟩ := mergeNodes_run symbols few n initial
  rw [Nat.zero_add] at state
  have place := state.place
  have last : heapTreeNodeStart = 858 := rfl
  have total : heapTreeSize = 859 := rfl
  have most : maxHistheapSize = 286 := rfl
  obtain ⟨m'', wrote, cells''⟩ := storeU16_cells m' root (cells m' 1) (by omega)
    (state.empty root (by omega) (le_refl _))
  have single : entries 1 m' = {entry (cells m' 1)} := by
    rw [entries, contents_succ]
    rfl
  refine ⟨root, m'', Function.update (fun t => (slot t).2) root (entry (cells m' 1)).2, ?_, place, ?_, ?_, ?_, ?_⟩
  · rw [buildHuffTree, result]
    simp only [Option.bind_eq_bind, Option.bind_some]
    rw [readHeap_cells m' (by omega), Option.bind_some, wrote]
    rfl
  · have placing := state.placing
    rw [single, Multiset.map_singleton] at placing
    exact placing.finish numbers (by omega)
  · intro t from_ upTo
    rcases Nat.eq_or_lt_of_le from_ with rfl | above
    · rw [cells'', Arr.set_self, Function.update_self]
      rfl
    · rw [cells'', Arr.set_other (by omega), Function.update_of_ne (by omega)]
      exact state.filled t above upTo
  · intro t low high
    rw [cells'', Arr.set_other (by omega)]
    exact state.used t low (by omega)
  · intro light
    obtain ⟨live, merging, keys⟩ := state.weighted light
    obtain ⟨x, one, number⟩ : ∃ x, live = {x} ∧ (entry (cells m' 1)).2 = x.2 := by
      rcases keys with same | ⟨-, same⟩
      · exact ⟨entry (cells m' 1), same.symm.trans single, rfl⟩
      · rw [single, Multiset.map_singleton] at same
        obtain ⟨x, one, number⟩ := Multiset.map_eq_singleton.mp same.symm
        exact ⟨x, one, number.symm⟩
    rw [one] at merging
    refine ⟨_, merging.finish, ?_⟩
    intro t
    rw [number]
    by_cases top : t = root
    · rw [top, Function.update_self, Function.update_self]
    · rw [Function.update_of_ne top, Function.update_of_ne top]

end Merge

/-- What is written fits into the words. -/
def Words (m : HeapTree) : Prop := ∀ w, m w < 2 ^ 32

section Words

variable {m m' : HeapTree}

theorem Words.writeWord {w v : Nat} (words : Words m) (wrote : writeWord m w v = some m') : Words m' := by
  rw [HuffCodes.writeWord] at wrote
  split at wrote
  · rw [← Option.some.inj wrote]
    intro w'
    rw [Arr.set_get]
    split
    · exact Nat.mod_lt _ (by norm_num)
    · exact words w'
  · cases wrote

theorem Words.writeHeap {i v : Nat} (words : Words m) (wrote : writeHeap m i v = some m') : Words m' := by
  obtain ⟨m₁, low, high⟩ := Option.bind_eq_some_iff.mp wrote
  exact (words.writeWord low).writeWord high

theorem Words.storeU16 {i v : Nat} (words : Words m) (wrote : storeU16 m i v = some m') : Words m' := by
  obtain ⟨_, -, low⟩ := Option.bind_eq_some_iff.mp wrote
  exact words.writeWord low

theorem Words.heapify {heapSize : Nat} (rounds : Nat) {index : Nat} {m : HeapTree} (words : Words m)
    (result : heapify heapSize rounds index m = some m') : Words m' := by
  induction rounds generalizing index m with
  | zero => cases result
  | succ rounds ih =>
    rw [HuffCodes.heapify] at result
    split at result
    · obtain ⟨_, -, result⟩ := Option.bind_eq_some_iff.mp result
      obtain ⟨_, -, result⟩ := Option.bind_eq_some_iff.mp result
      obtain ⟨_, -, result⟩ := Option.bind_eq_some_iff.mp result
      obtain ⟨_, -, result⟩ := Option.bind_eq_some_iff.mp result
      split at result
      · obtain ⟨m₁, wrote₁, result⟩ := Option.bind_eq_some_iff.mp result
        obtain ⟨m₂, wrote₂, result⟩ := Option.bind_eq_some_iff.mp result
        exact ih ((words.writeHeap wrote₁).writeHeap wrote₂) result
      · rw [← Option.some.inj result]
        exact words
    · rw [← Option.some.inj result]
      exact words

theorem Words.heapifyFrom {heapSize : Nat} (i : Nat) {m : HeapTree} (words : Words m)
    (result : heapifyFrom heapSize i m = some m') : Words m' := by
  induction i generalizing m with
  | zero =>
    rw [← Option.some.inj result]
    exact words
  | succ i ih =>
    obtain ⟨m₁, sifted, result⟩ := Option.bind_eq_some_iff.mp result
    exact ih (words.heapify _ sifted) result

theorem Words.buildHeap {heapSize : Nat} (words : Words m) (result : buildHeap m heapSize = some m') : Words m' := by
  obtain ⟨m₁, wrote, result⟩ := Option.bind_eq_some_iff.mp result
  exact (words.writeHeap wrote).heapifyFrom _ result

theorem Words.mergeNodes (heapSize : Nat) {nodePtr root : Nat} {m : HeapTree} (words : Words m)
    (result : mergeNodes heapSize nodePtr m = some (root, m')) : Words m' := by
  induction heapSize using Nat.strong_induction_on generalizing nodePtr m with
  | _ heapSize ih =>
    match heapSize with
    | 0 | 1 =>
      rw [← (Prod.mk.inj (Option.some.inj result)).2]
      exact words
    | s + 2 =>
      rw [HuffCodes.mergeNodes] at result
      obtain ⟨_, -, result⟩ := Option.bind_eq_some_iff.mp result
      obtain ⟨_, -, result⟩ := Option.bind_eq_some_iff.mp result
      obtain ⟨m₁, wrote₁, result⟩ := Option.bind_eq_some_iff.mp result
      obtain ⟨m₂, wrote₂, result⟩ := Option.bind_eq_some_iff.mp result
      obtain ⟨m₃, sifted₃, result⟩ := Option.bind_eq_some_iff.mp result
      obtain ⟨_, -, result⟩ := Option.bind_eq_some_iff.mp result
      obtain ⟨m₄, wrote₄, result⟩ := Option.bind_eq_some_iff.mp result
      obtain ⟨m₅, sifted₅, result⟩ := Option.bind_eq_some_iff.mp result
      obtain ⟨m₆, wrote₆, result⟩ := Option.bind_eq_some_iff.mp result
      obtain ⟨m₇, wrote₇, result⟩ := Option.bind_eq_some_iff.mp result
      have words₃ := ((words.writeHeap wrote₁).writeHeap wrote₂).heapify _ sifted₃
      have words₅ := (words₃.writeHeap wrote₄).heapify _ sifted₅
      exact ih (s + 1) (Nat.lt_succ_self _) ((words₅.storeU16 wrote₆).storeU16 wrote₇) result

theorem Words.buildHuffTree {heapSize nodePtr root : Nat} (words : Words m)
    (result : buildHuffTree m heapSize nodePtr = some (root, m')) : Words m' := by
  obtain ⟨⟨_, m₁⟩, merged, result⟩ := Option.bind_eq_some_iff.mp result
  obtain ⟨_, -, result⟩ := Option.bind_eq_some_iff.mp result
  obtain ⟨m₂, wrote, result⟩ := Option.bind_eq_some_iff.mp result
  rw [← (Prod.mk.inj (Option.some.inj result)).2]
  exact (words.mergeNodes _ merged).storeU16 wrote

end Words
end Isal.HuffCodes
