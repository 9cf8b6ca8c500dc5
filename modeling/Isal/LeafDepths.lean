import Isal.HeapBuild

/-! The first loop of `fix_code_lens`: depths go down the tree from slot to slot, and the leaves
are moved to its front and counted by depth. -/
namespace Isal.HuffCodes

open Huffman

theorem readWord_some {m : HeapTree} {w : Nat} (inside : w < 2 * heapTreeSize) : readWord m w = some (m w) := by
  rw [readWord, if_pos inside]

theorem writeWord_some {m : HeapTree} {w v : Nat} (inside : w < 2 * heapTreeSize) (small : v < 2 ^ 32) :
    writeWord m w v = some (m.set w v) := by
  rw [writeWord, if_pos inside, Nat.mod_eq_of_lt small]

theorem clearCounts_some (rounds codeLen : Nat) (m : HeapTree) (inside : codeLen + rounds < 2 * heapTreeSize) :
    ∃ m', clearCounts rounds codeLen m = some m' ∧
      ∀ w, m' w = if codeLen < w ∧ w ≤ codeLen + rounds then 0 else m w := by
  induction rounds generalizing codeLen m with
  | zero =>
    refine ⟨m, rfl, ?_⟩
    intro w
    rw [if_neg (by omega)]
  | succ rounds ih =>
    obtain ⟨m', result, cleared⟩ := ih (codeLen + 1) (m.set (codeLen + 1) 0) (by omega)
    refine ⟨m', ?_, ?_⟩
    · rw [clearCounts, writeWord_some (by omega) (by norm_num)]
      exact result
    · intro w
      rw [cleared, Arr.set_get]
      split_ifs <;> first | rfl | omega

section

variable {root merged : Nat} {child : Nat → Nat} {depth : Nat → Nat}

/-- The leaves among `left` slots from `i` on -/
def leavesFrom (child : Nat → Nat) (i left : Nat) : List Nat :=
  (List.range' i left).filter fun t => child t ≤ maxHistheapSize

/-- The state of the loop before slot `i`, with the leaves `ls` moved. The words that are left alone
are those of `m₀`. -/
structure Moving (root : Nat) (child : Nat → Nat) (depth : Nat → Nat) (m₀ : HeapTree) (merged i codeLen : Nat)
    (m : HeapTree) (ls : List Nat) : Prop where
  behind : root + ls.length ≤ i
  moved : ∀ x t, ls[x]? = some t → m (2 * (root + x)) = child t ∧ m (2 * (root + x) + 1) = depth t
  children : ∀ t, i ≤ t → t ≤ heapTreeNodeStart → m (2 * t) = child t
  depths : ∀ t, i ≤ t → t ≤ heapTreeNodeStart →
    (t = root ∨ ∃ s ∈ nodeSlots maxHistheapSize root merged child, s < i ∧ (t = child s ∨ t = child s - 1)) →
    m (2 * t + 1) = depth t
  counts : ∀ l, 1 ≤ l → l ≤ codeLen → m l = (ls.map depth).count l
  within : ∀ t ∈ ls, 1 ≤ depth t ∧ depth t ≤ codeLen
  reached : codeLen = 0 ∨ ∃ t ∈ ls, depth t = codeLen
  rest : ∀ w, codeLen < w → w < 2 * root → m w = m₀ w

theorem leavesFrom_succ (i left : Nat) :
    leavesFrom child i (left + 1) =
      if child i ≤ maxHistheapSize then i :: leavesFrom child (i + 1) left else leavesFrom child (i + 1) left := by
  rw [leavesFrom, List.range'_succ, List.filter_cons]
  simp only [decide_eq_true_eq]
  rfl

section Step

variable {m₀ m : HeapTree} {i codeLen : Nat} {ls : List Nat}

/-- Both children of a node get their depth. -/
theorem Moving.node (depths : Depths maxHistheapSize root merged child depth)
    (moving : Moving root child depth m₀ merged i codeLen m ls) (from_ : root ≤ i) (short : codeLen < 2 * root)
    (inside : i ∈ nodeSlots maxHistheapSize root merged child) {q : Nat} (number : child i = q) (order : i + 2 ≤ q) :
    Moving root child depth m₀ merged (i + 1) codeLen
      ((m.set (2 * q + 1) (1 + depth i)).set (2 * (q - 1) + 1) (1 + depth i)) ls := by
  have same : ∀ w, w ≠ 2 * q + 1 → w ≠ 2 * (q - 1) + 1 →
      ((m.set (2 * q + 1) (1 + depth i)).set (2 * (q - 1) + 1) (1 + depth i)) w = m w := by
    intro w upper lower
    rw [Arr.set_other lower, Arr.set_other upper]
  have child := depths.children i inside
  rw [number] at child
  have behind := moving.behind
  constructor
  · omega
  · intro x t at_
    have := (List.getElem?_eq_some_iff.mp at_).1
    rw [same _ (by omega) (by omega), same _ (by omega) (by omega)]
    exact moving.moved x t at_
  · intro t low high
    rw [same _ (by omega) (by omega)]
    exact moving.children t (by omega) high
  · intro t low high which
    by_cases upper : t = q
    · subst upper
      rw [Arr.set_other (by omega), Arr.set_self, child.1, Nat.add_comm]
    by_cases lower : t = q - 1
    · rw [lower, Arr.set_self, child.2, Nat.add_comm]
    · rw [same _ (by omega) (by omega)]
      apply moving.depths t (by omega) high
      rcases which with top | ⟨s, node, below, child'⟩
      · exact Or.inl top
      · right
        refine ⟨s, node, ?_, child'⟩
        rcases Nat.eq_or_lt_of_le (Nat.le_of_lt_succ below) with here | before
        · rw [here, number] at child'
          omega
        · exact before
  · intro l low high
    rw [same _ (by omega) (by omega)]
    exact moving.counts l low high
  · exact moving.within
  · exact moving.reached
  · intro w above below
    rw [same _ (by omega) (by omega)]
    exact moving.rest w above below

/-- A leaf is moved down and counted. -/
theorem Moving.leaf (moving : Moving root child depth m₀ merged i codeLen m ls) (m' : HeapTree)
    (positive : 1 ≤ depth i) (short : max codeLen (depth i) < 2 * root)
    (leaf : ¬i ∈ nodeSlots maxHistheapSize root merged child)
    (words : ∀ w, m' w = if w = depth i then (if codeLen < depth i then 0 else m w) + 1
      else if codeLen < w ∧ w ≤ depth i then 0
      else if w = 2 * (root + ls.length) + 1 then depth i
      else if w = 2 * (root + ls.length) then child i else m w) :
    Moving root child depth m₀ merged (i + 1) (max codeLen (depth i)) m' (ls ++ [i]) := by
  have behind := moving.behind
  have tail : ∀ w, 2 * root ≤ w → m' w = if w = 2 * (root + ls.length) + 1 then depth i
      else if w = 2 * (root + ls.length) then child i else m w := by
    intro w above
    rw [words, if_neg (by omega), if_neg (by omega)]
  constructor
  · rw [List.length_append, List.length_singleton]
    omega
  · intro x t at_
    rcases Nat.lt_or_ge x ls.length with old | new
    · rw [List.getElem?_append_left old] at at_
      rw [tail _ (by omega), tail _ (by omega), if_neg (by omega), if_neg (by omega), if_neg (by omega),
        if_neg (by omega)]
      exact moving.moved x t at_
    · rw [List.getElem?_append_right new] at at_
      have bound := (List.getElem?_eq_some_iff.mp at_).1
      rw [List.length_singleton] at bound
      have here : x = ls.length := by omega
      subst here
      rw [Nat.sub_self, List.getElem?_cons_zero, Option.some.injEq] at at_
      subst at_
      rw [tail _ (by omega), tail _ (by omega), if_neg (by omega), if_pos rfl, if_pos rfl]
      exact ⟨rfl, rfl⟩
  · intro t low upTo
    rw [tail _ (by omega), if_neg (by omega), if_neg (by omega)]
    exact moving.children t (by omega) upTo
  · intro t low upTo which
    rw [tail _ (by omega), if_neg (by omega), if_neg (by omega)]
    apply moving.depths t (by omega) upTo
    rcases which with top | ⟨s, node, below, child⟩
    · exact Or.inl top
    · right
      refine ⟨s, node, ?_, child⟩
      rcases Nat.eq_or_lt_of_le (Nat.le_of_lt_succ below) with rfl | before
      · exact absurd node leaf
      · exact before
  · intro l low upTo
    rw [words, List.map_append, List.count_append, List.map_singleton]
    have none_ : codeLen < l → (ls.map depth).count l = 0 := by
      intro beyond
      rw [List.count_eq_zero]
      intro member
      obtain ⟨t, inside, equal⟩ := List.mem_map.mp member
      have := (moving.within t inside).2
      omega
    by_cases here : l = depth i
    · subst here
      rw [if_pos rfl, List.count_singleton_self]
      by_cases new : codeLen < depth i
      · rw [if_pos new, none_ new]
      · rw [if_neg new, moving.counts _ low (by omega)]
    · have other : List.count l [depth i] = 0 := List.count_eq_zero.mpr fun member => here (List.mem_singleton.mp member)
      rw [if_neg here, other, Nat.add_zero]
      by_cases new : codeLen < l
      · rw [if_pos ⟨new, by omega⟩, none_ new]
      · rw [if_neg (by omega), if_neg (by omega), if_neg (by omega)]
        exact moving.counts l low (by omega)
  · intro t member
    rcases List.mem_append.mp member with old | new
    · have := moving.within t old
      omega
    · rw [List.mem_singleton.mp new]
      omega
  · right
    rcases Nat.le_total codeLen (depth i) with new | old
    · refine ⟨i, List.mem_append_right _ (List.mem_singleton_self i), ?_⟩
      omega
    · rcases moving.reached with zero | ⟨t, member, equal⟩
      · omega
      · refine ⟨t, List.mem_append_left _ member, ?_⟩
        omega
  · intro w above below
    rw [words, if_neg (by omega), if_neg (by omega), if_neg (by omega), if_neg (by omega)]
    exact moving.rest w (by omega) below

end Step

theorem moveLeaves_run {symbols : Multiset Nat} {m₀ : HeapTree}
    (tree : SlotTree maxHistheapSize root merged symbols child)
    (depths : Depths maxHistheapSize root merged child depth) (place : root + 2 * merged = heapTreeNodeStart)
    (pairs : 1 ≤ merged) (left : Nat) {i j codeLen : Nat} {m : HeapTree} {ls : List Nat}
    (rest : i + left = heapTreeNodeStart + 1) (from_ : root ≤ i) (next : j = root + ls.length)
    (short : codeLen < 2 * root) (moving : Moving root child depth m₀ merged i codeLen m ls) :
    ∃ codeLen' m', moveLeaves left i j codeLen m =
        some (root + (ls ++ leavesFrom child i left).length, codeLen', m') ∧
      Moving root child depth m₀ merged (i + left) codeLen' m' (ls ++ leavesFrom child i left) := by
  have high := tree.high
  have last : heapTreeNodeStart = 858 := rfl
  have total : heapTreeSize = 859 := rfl
  have most : maxHistheapSize = 286 := rfl
  induction left generalizing i j codeLen m ls with
  | zero =>
    refine ⟨codeLen, m, ?_, ?_⟩
    · rw [leavesFrom, List.range'_zero, List.filter_nil, List.append_nil, moveLeaves, next]
    · rw [leavesFrom, List.range'_zero, List.filter_nil, List.append_nil]
      exact moving
  | succ left ih =>
    have known : m (2 * i + 1) = depth i := by
      apply moving.depths i (le_refl _) (by omega)
      rcases Nat.eq_or_lt_of_le from_ with top | above
      · exact Or.inl top.symm
      · obtain ⟨s, node, which, below, -⟩ := tree.exists_parent above (by omega)
        exact Or.inr ⟨s, node, below, which⟩
    have shallow := tree.depth_le depths i from_ (by omega)
    rw [moveLeaves, readChild, readWord_some (by omega), moving.children i (le_refl _) (by omega)]
    simp only [Option.bind_eq_bind, Option.bind_some]
    rw [leavesFrom_succ]
    by_cases node : maxHistheapSize < child i
    · have inside : i ∈ nodeSlots maxHistheapSize root merged child := SlotTree.mem_nodeSlots.mpr ⟨⟨from_, by omega⟩, node⟩
      obtain ⟨x, few, number, order⟩ := tree.node_spec inside
      have next' := moving.node depths from_ short inside number order
      rw [if_pos node, if_neg (by omega), readDepth, readWord_some (by omega), known, Option.bind_some, number,
        writeDepth, writeWord_some (by omega) (by omega), Option.bind_some, writeDepth,
        writeWord_some (by omega) (by omega), Option.bind_some]
      obtain ⟨codeLen', m', result, final⟩ := ih (by omega) (by omega) next short next'
      rw [show i + 1 + left = i + (left + 1) by omega] at final
      exact ⟨codeLen', m', result, final⟩
    · have leaf : ¬i ∈ nodeSlots maxHistheapSize root merged child := fun member =>
        node (SlotTree.mem_nodeSlots.mp member).2
      have above : root < i := by
        by_contra top
        obtain ⟨s, inside, -, order⟩ := tree.exists_node (i := 0) (by omega)
        have := (SlotTree.mem_nodeSlots.mp inside).1
        rw [show s = i by omega] at inside
        exact leaf inside
      have positive := tree.depth_pos depths above (by omega)
      have behind := moving.behind
      have length : root + ls.length = j := next.symm
      rw [if_neg node, if_pos (by omega), readDepth, readWord_some (by omega), known, Option.bind_some, writeChild,
        writeWord_some (by omega) (by omega), Option.bind_some, writeDepth,
        writeWord_some (by omega) (by omega), Option.bind_some]
      obtain ⟨m₁, cleared, words₁⟩ := clearCounts_some (depth i - codeLen) codeLen
        ((m.set (2 * j) (child i)).set (2 * j + 1) (depth i)) (by omega)
      rw [cleared, Option.bind_some, readWord_some (by omega), Option.bind_some]
      have count : m₁ (depth i) = if codeLen < depth i then 0 else m (depth i) := by
        rw [words₁, Arr.set_other (by omega), Arr.set_other (by omega)]
        split_ifs <;> first | rfl | omega
      have small : m₁ (depth i) + 1 < 2 ^ 32 := by
        rw [count]
        split_ifs
        · norm_num
        · rw [moving.counts _ positive (by omega)]
          have := List.count_le_length (a := depth i) (l := ls.map depth)
          rw [List.length_map] at this
          omega
      rw [writeWord_some (by omega) small, Option.bind_some]
      have next' := moving.leaf (m₁.set (depth i) (m₁ (depth i) + 1)) positive (by omega) leaf (by
        intro w
        by_cases here : w = depth i
        · subst here
          rw [Arr.set_self, count, if_pos rfl]
        · rw [Arr.set_other here, words₁, Arr.set_get, Arr.set_get, length]
          split_ifs <;> first | rfl | omega)
      obtain ⟨codeLen', m', result, final⟩ := ih (j := j + 1) (by omega) (by omega)
        (by rw [List.length_append, List.length_singleton]; omega) (by omega) next'
      rw [List.append_assoc, List.singleton_append] at result final
      rw [show i + 1 + left = i + (left + 1) by omega] at final
      exact ⟨codeLen', m', result, final⟩

theorem leavesFrom_coe (root merged : Nat) (child : Nat → Nat) :
    (leavesFrom child root (2 * merged + 1) : Multiset Nat) = (leafSlots maxHistheapSize root merged child).val := by
  rw [leafSlots, Finset.filter_val, leavesFrom, ← Multiset.filter_coe]
  congr 1
  change _ = (List.range' root (root + 2 * merged + 1 - root) : Multiset Nat)
  congr 2
  omega

/-- What the loop makes of a tree -/
theorem moveLeaves_tree {symbols : Multiset Nat} {m : HeapTree}
    (tree : SlotTree maxHistheapSize root merged symbols child) (depths : Depths maxHistheapSize root merged child depth)
    (place : root + 2 * merged = heapTreeNodeStart) (pairs : 1 ≤ merged)
    (filled : ∀ t, root ≤ t → t ≤ heapTreeNodeStart → cells m t = child t) :
    ∃ codeLen m', moveLeaves (heapTreeNodeStart + 1 - root) root root 0 m =
        some (root + (leavesFrom child root (2 * merged + 1)).length, codeLen, m') ∧
      Moving root child depth m merged (heapTreeNodeStart + 1) codeLen m' (leavesFrom child root (2 * merged + 1)) := by
  have high := tree.high
  have most : maxHistheapSize = 286 := rfl
  have last : heapTreeNodeStart = 858 := rfl
  have split : ∀ t, root ≤ t → t ≤ heapTreeNodeStart → m (2 * t) = child t ∧ m (2 * t + 1) = 0 := by
    intro t from_ upTo
    have small := tree.child_le from_ (by omega : t ≤ root + 2 * merged)
    have cell : m (2 * t) + 2 ^ 32 * m (2 * t + 1) = child t := filled t from_ upTo
    omega
  have initial : Moving root child depth m merged root 0 m [] := by
    constructor
    · exact le_refl root
    · intro x t at_
      simp at at_
    · intro t from_ upTo
      exact (split t from_ upTo).1
    · intro t from_ upTo which
      rcases which with top | ⟨s, node, below, -⟩
      · rw [(split t from_ upTo).2, top, depths.top]
      · have := (SlotTree.mem_nodeSlots.mp node).1
        omega
    · intro l low upTo
      omega
    · intro t member
      simp at member
    · exact Or.inl rfl
    · intro w _ _
      rfl
  have run := moveLeaves_run tree depths place pairs (2 * merged + 1) (j := root) (by omega) (le_refl root) rfl (by omega)
    initial
  rw [List.nil_append, show root + (2 * merged + 1) = heapTreeNodeStart + 1 by omega] at run
  rw [show heapTreeNodeStart + 1 - root = 2 * merged + 1 by omega]
  exact run

end
end Isal.HuffCodes
