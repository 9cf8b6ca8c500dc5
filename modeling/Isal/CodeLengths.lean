import Isal.LengthLimit

/-! The code lengths for a histogram: complete, within the limit, no longer for a more frequent symbol,
and of least cost where the tree itself is within the limit. -/
namespace Isal.HuffCodes

open Huffman

theorem copyCounts_some (m : HeapTree) (left i : Nat) (inside : i + left ≤ 2 * heapTreeSize) (blCount : Arr Nat) :
    ∃ blCount', copyCounts m left i blCount = some blCount' ∧
      ∀ l, blCount' l = if i ≤ l ∧ l < i + left then m l else blCount l := by
  induction left generalizing i blCount with
  | zero =>
    refine ⟨blCount, rfl, ?_⟩
    intro l
    rw [if_neg (by omega)]
  | succ left ih =>
    obtain ⟨blCount', result, copied⟩ := ih (i + 1) (by omega) (blCount.set i (m i))
    refine ⟨blCount', ?_, ?_⟩
    · rw [copyCounts, readWord_some (by omega)]
      exact result
    · intro l
      rw [copied, Arr.set_get]
      by_cases here : l = i
      · subst here
        rw [if_neg (by omega), if_pos rfl, if_pos (by omega)]
      · rw [if_neg here]
        split_ifs <;> first | rfl | omega

theorem storeCounts_some {m : HeapTree} {codeLen limit : Nat} (upTo : codeLen ≤ limit) (inside : codeLen < 2 * heapTreeSize)
    (blCount : Arr Nat) :
    ∃ blCount', storeCounts m codeLen limit blCount = some blCount' ∧ blCount' 0 = 0 ∧
      ∀ l, 1 ≤ l → l ≤ limit → blCount' l = if l ≤ codeLen then m l else 0 := by
  obtain ⟨copied, result, counts⟩ := copyCounts_some m codeLen 1 (by omega) (blCount.set 0 0)
  refine ⟨copied.fill (codeLen + 1) (limit - codeLen) 0, ?_, ?_, ?_⟩
  · rw [storeCounts, result]
    rfl
  · rw [Arr.fill_get, if_neg (by omega), counts, if_neg (by omega), Arr.set_self]
  · intro l low high
    rw [Arr.fill_get, counts]
    split_ifs <;> first | rfl | omega

/-- What `fix_code_lens` leaves: the leaves and their lengths side by side -/
structure Limited (root limit : Nat) (child : Nat → Nat) (depth : Nat → Nat) (ls lens : List Nat) (m : HeapTree)
    (blCount : Arr Nat) : Prop where
  length : lens.length = ls.length
  children : ∀ x t, ls[x]? = some t → m (2 * (root + x)) = child t
  depths : ∀ x l, lens[x]? = some l → m (2 * (root + x) + 1) = l
  within : ∀ l ∈ lens, 1 ≤ l ∧ l ≤ limit
  kraft : (lens.map fun l => (1 / 2 : ℚ) ^ l).sum = 1
  zero : blCount 0 = 0
  counts : ∀ l, 1 ≤ l → l ≤ limit → blCount l = lens.count l
  order : lens = ls.map depth ∨ lens.Pairwise (· ≤ ·)
  kept : (∀ t ∈ ls, depth t ≤ limit) → lens = ls.map depth

theorem tally_kraft {K : Nat} {m : HeapTree} {lens : List Nat} (within : ∀ l ∈ lens, 1 ≤ l ∧ l ≤ K)
    (counts : ∀ l, 1 ≤ l → l ≤ K → m l = lens.count l) :
    (tally K (fun l => 2 ^ (K - l)) m : ℚ) = 2 ^ K * (lens.map fun l => (1 / 2 : ℚ) ^ l).sum := by
  rw [sum_counts within, Finset.mul_sum, tally]
  push_cast
  apply Finset.sum_congr rfl
  intro l inside
  have range := Finset.mem_Icc.mp inside
  have scaled : (2 : ℚ) ^ K * (1 / 2) ^ l = 2 ^ (K - l) := by
    conv_lhs => rw [← Nat.sub_add_cancel range.2, pow_add, mul_assoc, ← mul_pow]
    norm_num
  rw [counts l range.1 range.2, nsmul_eq_mul, mul_left_comm, scaled, mul_comm]

theorem tally_length {K : Nat} {m : HeapTree} {lens : List Nat} (within : ∀ l ∈ lens, 1 ≤ l ∧ l ≤ K)
    (counts : ∀ l, 1 ≤ l → l ≤ K → m l = lens.count l) : tally K (fun _ => 1) m = lens.length := by
  have counted := sum_counts within fun _ => 1
  rw [List.map_const', List.sum_replicate, smul_eq_mul, Nat.mul_one] at counted
  rw [counted, tally]
  apply Finset.sum_congr rfl
  intro l inside
  have range := Finset.mem_Icc.mp inside
  rw [counts l range.1 range.2, Nat.one_mul, smul_eq_mul, Nat.mul_one]

section

variable {root merged limit : Nat} {child : Nat → Nat} {depth : Nat → Nat} {symbols : Multiset Nat}
  {m : HeapTree}

theorem leavesFrom_length (tree : SlotTree maxHistheapSize root merged symbols child) :
    (leavesFrom child root (2 * merged + 1)).length = symbols.card := by
  have leaves := congrArg Multiset.card (leavesFrom_coe root merged child)
  rw [Multiset.coe_card] at leaves
  rw [leaves, ← tree.leaf_entries, Multiset.card_map]

theorem card_start (tree : SlotTree maxHistheapSize root merged symbols child) : symbols.card = merged + 1 := by
  have cards := congrArg Multiset.card tree.entries
  rw [Multiset.card_map, Finset.card_val, Nat.card_Icc, Multiset.card_add, numbersAbove, Multiset.card_map,
    Multiset.card_range] at cards
  omega

theorem leaves_kraft (tree : SlotTree maxHistheapSize root merged symbols child)
    (depths : Depths maxHistheapSize root merged child depth) :
    (((leavesFrom child root (2 * merged + 1)).map depth).map fun l => (1 / 2 : ℚ) ^ l).sum = 1 := by
  have kraft := tree.depths_kraft depths
  rw [Finset.sum_eq_multiset_sum, ← leavesFrom_coe, Multiset.map_coe, Multiset.sum_coe] at kraft
  rw [List.map_map]
  exact kraft

/-- `fix_code_lens` on a tree of merges -/
theorem fixCodeLens_limited (tree : SlotTree maxHistheapSize root merged symbols child)
    (depths : Depths maxHistheapSize root merged child depth) (place : root + 2 * merged = heapTreeNodeStart)
    (pairs : 1 ≤ merged) (filled : ∀ t, root ≤ t → t ≤ heapTreeNodeStart → cells m t = child t)
    (ones : ∀ t, 2 ≤ t → t ≤ merged + 2 → cells m t = 2 ^ 64 - 1) (words : Words m)
    (fits : merged + 1 ≤ 2 ^ limit) (blCount : Arr Nat) :
    ∃ m' blCount' lens, fixCodeLens m root limit blCount = some (root + (merged + 1), m', blCount') ∧
      Limited root limit child depth (leavesFrom child root (2 * merged + 1)) lens m' blCount' := by
  have high := tree.high
  have most : maxHistheapSize = 286 := rfl
  have last : heapTreeNodeStart = 858 := rfl
  have total : heapTreeSize = 859 := rfl
  obtain ⟨codeLen, m₁, moved, moving⟩ := moveLeaves_tree tree depths place pairs filled
  have length := (leavesFrom_length tree).trans (card_start tree)
  set ls := leavesFrom child root (2 * merged + 1) with ls_eq
  rw [length] at moved
  have nonempty : ls ≠ [] := by
    intro none_
    rw [none_, List.length_nil] at length
    omega
  have shallow : codeLen ≤ merged := by
    rcases moving.reached with zero | ⟨t, member, equal⟩
    · omega
    · have inside := SlotTree.mem_leafSlots.mp (Finset.mem_val.mp
        ((leavesFrom_coe root merged child) ▸ Multiset.mem_coe.mpr member))
      have := tree.depth_le depths t inside.1.1 inside.1.2
      omega
  have within : ∀ l ∈ ls.map depth, 1 ≤ l ∧ l ≤ codeLen := by
    intro l member
    obtain ⟨t, inside, rfl⟩ := List.mem_map.mp member
    exact moving.within t inside
  have kraft := leaves_kraft tree depths
  rw [← ls_eq] at kraft
  rw [fixCodeLens, moved]
  simp only [Option.bind_eq_bind, Option.bind_some]
  by_cases long : limit < codeLen
  · rw [if_pos long]
    have counts₁ : Shortening codeLen limit (merged + 1) codeLen m₁ := by
      constructor
      · have scaled := tally_kraft within moving.counts
        rw [kraft, mul_one] at scaled
        exact_mod_cast scaled
      · rw [tally_length within moving.counts, List.length_map, length]
      · exact le_refl codeLen
      · intro l above upTo
        omega
      · intro _
        rw [moving.counts codeLen (by omega) (le_refl _)]
        rcases moving.reached with zero | ⟨t, member, equal⟩
        · omega
        · exact (List.count_pos_iff.mpr (equal ▸ List.mem_map_of_mem member)).ne'
    have overlong₁ := overlong_le limit counts₁
    obtain ⟨codeLen', m₂, shortened₂, counts₂, short₂, outside₂⟩ :=
      shortenCodes_some fits (by omega) (by omega) heapTreeSize counts₁ (by omega)
    have two : 2 ≤ limit := by
      by_contra small
      rcases (by omega : limit = 0 ∨ limit = 1) with rfl | rfl
      · rw [pow_zero] at fits
        omega
      · rw [pow_one] at fits
        omega
    -- the counts end before a word that is not zero
    have guard : m₂ (codeLen + 1) ≠ 0 := by
      rw [outside₂ _ (Or.inr (by omega)), moving.rest (codeLen + 1) (by omega) (by omega)]
      have cell : m (2 * ((codeLen + 1) / 2)) + 2 ^ 32 * m (2 * ((codeLen + 1) / 2) + 1) = 2 ^ 64 - 1 :=
        ones ((codeLen + 1) / 2) (by omega) (by omega)
      have low := words (2 * ((codeLen + 1) / 2))
      have high := words (2 * ((codeLen + 1) / 2) + 1)
      rcases (by omega : codeLen + 1 = 2 * ((codeLen + 1) / 2) ∨ codeLen + 1 = 2 * ((codeLen + 1) / 2) + 1) with at_ | at_
      · rw [at_]
        omega
      · rw [at_]
        omega
    obtain ⟨blCount', stored, zero, counted⟩ := storeCounts_some (m := m₂) short₂ (by omega) blCount
    obtain ⟨k, found, positive, upTo, count, skipped⟩ :=
      firstCount_some m₂ (by omega) guard (2 * heapTreeSize) (k := 1) (by omega) (by omega)
    have dealing : Dealing root codeLen m₂ k m₂ [] := by
      constructor
      · exact ⟨positive, upTo⟩
      · exact count
      · exact guard
      · intro l _ _
        rw [List.count_nil, Nat.zero_add]
      · exact skipped
      · exact List.Pairwise.nil
      · intro l member
        cases member
      · intro y l at_
        rw [List.getElem?_nil] at at_
        cases at_
      · intro y
        rfl
    obtain ⟨k', m₃, lens, dealt, length₃, dealing₃⟩ := dealLengths_run counts₂.total (by omega) (by omega) (by
      intro l low upTo
      have := counts₂.count_le low upTo
      omega) (merged + 1) (i := root) rfl (by rw [List.length_nil, Nat.zero_add]) dealing
    have within₃ : ∀ l ∈ lens, 1 ≤ l ∧ l ≤ codeLen := fun l member =>
      ⟨(dealing₃.within l member).1, (dealing₃.within l member).2.2⟩
    have counts₃ := dealing₃.all_dealt counts₂.total length₃
    refine ⟨m₃, blCount', lens, ?_, ?_⟩
    · rw [shortened₂, Option.bind_some, stored, Option.bind_some, found, Option.bind_some, Nat.add_sub_cancel_left, dealt]
      rfl
    · constructor
      · rw [length₃, length]
      · intro x t at_
        rw [dealing₃.children, outside₂ _ (Or.inr (by omega))]
        exact (moving.moved x t at_).1
      · exact dealing₃.dealt
      · intro l member
        have range := within₃ l member
        refine ⟨range.1, ?_⟩
        by_contra beyond
        have none_ := counts₂.none_ l (by omega) range.2
        rw [counts₃ l range.1 range.2] at none_
        exact (List.count_pos_iff.mpr member).ne' none_
      · have scaled := tally_kraft within₃ counts₃
        rw [counts₂.kraft, Nat.cast_pow, Nat.cast_ofNat] at scaled
        have power : (2 : ℚ) ^ codeLen ≠ 0 := by positivity
        exact (mul_eq_left₀ power).mp scaled.symm
      · exact zero
      · intro l low high
        rw [counted l low high]
        split
        · exact counts₃ l low (by omega)
        · rw [← counts₃ l low (by omega), counts₂.none_ l (by omega) (by omega)]
      · exact Or.inr dealing₃.sorted
      · intro shallow
        rcases moving.reached with none_ | ⟨t, member, equal⟩
        · omega
        · have := shallow t member
          omega
  · rw [if_neg long]
    obtain ⟨blCount', stored, zero, counts⟩ := storeCounts_some (m := m₁) (Nat.le_of_not_lt long) (by omega) blCount
    refine ⟨m₁, blCount', ls.map depth, ?_, ?_⟩
    · rw [stored]
      rfl
    · constructor
      · rw [List.length_map]
      · intro x t at_
        exact (moving.moved x t at_).1
      · intro x l at_
        rw [List.getElem?_map, Option.map_eq_some_iff] at at_
        obtain ⟨t, at_, rfl⟩ := at_
        exact (moving.moved x t at_).2
      · intro l member
        have := within l member
        omega
      · exact kraft
      · exact zero
      · intro l low upTo
        rw [counts l low upTo]
        split
        · rename_i inside
          exact moving.counts l low inside
        · rename_i beyond
          rw [eq_comm, List.count_eq_zero]
          intro member
          exact beyond (within l member).2
      · exact Or.inl rfl
      · intro _
        rfl

/-- Each leaf's symbol gets the leaf's length. -/
theorem setLengths_some {ls lens : List Nat} {blCount : Arr Nat} (limited : Limited root limit child depth ls lens m blCount)
    (byte : limit < 2 ^ 8) (inside : root + ls.length ≤ heapTreeSize) (distinct : (ls.map child).Nodup) (left : Nat) {x : Nat}
    (rest : x + left = ls.length) (codes : Arr Nat) :
    ∃ codes', setLengths m left (root + x) codes = some codes' ∧
      (∀ y t l, x ≤ y → ls[y]? = some t → lens[y]? = some l → codes' (child t) = l) ∧
      ∀ s, (∀ y t, x ≤ y → ls[y]? = some t → child t ≠ s) → codes' s = codes s := by
  have length := limited.length
  induction left generalizing x codes with
  | zero =>
    refine ⟨codes, rfl, ?_, fun _ _ => rfl⟩
    intro y t l from_ at_ _
    have := (List.getElem?_eq_some_iff.mp at_).1
    omega
  | succ left ih =>
    have here : x < ls.length := by omega
    have here' : x < lens.length := by omega
    have at_ : ls[x]? = some ls[x] := List.getElem?_eq_getElem here
    have at_' : lens[x]? = some lens[x] := List.getElem?_eq_getElem here'
    have small := limited.within lens[x] (List.getElem_mem here')
    obtain ⟨codes', result, sets, others⟩ := ih (x := x + 1) (by omega) (codes.set (child ls[x]) lens[x])
    refine ⟨codes', ?_, ?_, ?_⟩
    · rw [setLengths, readChild, readWord_some (by omega), limited.children x _ at_]
      simp only [Option.bind_eq_bind, Option.bind_some]
      rw [readDepth, readWord_some (by omega), limited.depths x _ at_', Option.bind_some, Nat.mod_eq_of_lt (by omega)]
      exact result
    · intro y t l from_ first second
      rcases Nat.eq_or_lt_of_le from_ with rfl | later
      · rw [at_, Option.some.injEq] at first
        rw [at_', Option.some.injEq] at second
        subst first second
        rw [others, Arr.set_self]
        intro y t' later first'
        obtain ⟨bound, rfl⟩ := List.getElem?_eq_some_iff.mp first'
        have apart := List.pairwise_iff_getElem.mp distinct x y (by rw [List.length_map]; exact here)
          (by rw [List.length_map]; exact bound) later
        rw [List.getElem_map, List.getElem_map] at apart
        exact Ne.symm apart
      · exact sets y t l later first second
    · intro s outside
      rw [others s (fun y t later first => outside y t (by omega) first), Arr.set_other (Ne.symm (outside x _ (le_refl x) at_))]

/-- The lengths of a complete code for some of `count` symbols, and the count of each length -/
structure CompleteCode (symbols : Finset Nat) (limit count : Nat) (codes blCount : Arr Nat) : Prop where
  within : ∀ s ∈ symbols, 1 ≤ codes s ∧ codes s ≤ limit
  others : ∀ s, s < count → s ∉ symbols → codes s = 0
  kraft : ∑ s ∈ symbols, (1 / 2 : ℚ) ^ codes s = 1
  zero : blCount 0 = 0
  counts : ∀ l, 1 ≤ l → l ≤ limit → blCount l = (symbols.filter fun s => codes s = l).card

/-- No symbol has a longer code than a less frequent one. -/
def Monotone (symbols : Finset Nat) (weight codes : Nat → Nat) : Prop :=
  ∀ s ∈ symbols, ∀ t ∈ symbols, weight s < weight t → codes t ≤ codes s

/-- No lengths under Kraft's inequality have a lower total. -/
def Optimal (symbols : Finset Nat) (weight codes : Nat → Nat) : Prop :=
  ∀ lengths : Nat → Nat, ∑ s ∈ symbols, (1 / 2 : ℚ) ^ lengths s ≤ 1 →
    ∑ s ∈ symbols, weight s * codes s ≤ ∑ s ∈ symbols, weight s * lengths s

/-- Otherwise their lengths would be exchanged. -/
theorem Optimal.monotone {symbols : Finset Nat} {weight codes : Nat → Nat} (optimal : Optimal symbols weight codes)
    (fits : ∑ s ∈ symbols, (1 / 2 : ℚ) ^ codes s ≤ 1) : Monotone symbols weight codes := by
  intro s first t second less
  by_contra longer
  have shorter : codes s < codes t := Nat.lt_of_not_le longer
  have different : t ≠ s := by
    rintro rfl
    omega
  have member : t ∈ symbols.erase s := Finset.mem_erase.mpr ⟨different, second⟩
  have exchanged : ∀ F : Nat → Nat → ℚ, ∑ x ∈ symbols, F x (codes (Equiv.swap s t x)) =
      F s (codes t) + (F t (codes s) + ∑ x ∈ (symbols.erase s).erase t, F x (codes x)) := by
    intro F
    rw [← Finset.add_sum_erase _ _ first, ← Finset.add_sum_erase _ _ member, Equiv.swap_apply_left, Equiv.swap_apply_right]
    congr 2
    apply Finset.sum_congr rfl
    intro x inside
    have apart := Finset.mem_erase.mp inside
    rw [Equiv.swap_apply_of_ne_of_ne (Finset.mem_erase.mp apart.2).1 apart.1]
  have straight : ∀ F : Nat → Nat → ℚ, ∑ x ∈ symbols, F x (codes x) =
      F s (codes s) + (F t (codes t) + ∑ x ∈ (symbols.erase s).erase t, F x (codes x)) := by
    intro F
    rw [← Finset.add_sum_erase _ _ first, ← Finset.add_sum_erase _ _ member]
  have fits' : ∑ x ∈ symbols, (1 / 2 : ℚ) ^ codes (Equiv.swap s t x) ≤ 1 := by
    have swapped := exchanged fun _ l => (1 / 2 : ℚ) ^ l
    have plain := straight fun _ l => (1 / 2 : ℚ) ^ l
    beta_reduce at swapped plain
    linarith
  have least := optimal (fun x => codes (Equiv.swap s t x)) fits'
  have swapped := exchanged fun x l => (weight x : ℚ) * l
  have plain := straight fun x l => (weight x : ℚ) * l
  beta_reduce at swapped plain least
  have least' : (∑ x ∈ symbols, (weight x : ℚ) * codes x) ≤ ∑ x ∈ symbols, (weight x : ℚ) * codes (Equiv.swap s t x) := by
    exact_mod_cast least
  have gain : ((weight t : ℚ) - weight s) * (codes t - codes s) > 0 := by
    have heavier : (weight s : ℚ) < weight t := by exact_mod_cast less
    have shorter' : (codes s : ℚ) < codes t := by exact_mod_cast shorter
    exact mul_pos (by linarith) (by linarith)
  linarith

end

/-- Depths of the nodes in the tree that is laid out from slot `root` on -/
inductive NodeDepth (m : HeapTree) (root : Nat) : Nat → Nat → Prop
  | top : NodeDepth m root root 0
  | upper {t d : Nat} (node : NodeDepth m root t d) (inner : maxHistheapSize < m (2 * t)) :
      NodeDepth m root (m (2 * t)) (d + 1)
  | lower {t d : Nat} (node : NodeDepth m root t d) (inner : maxHistheapSize < m (2 * t)) :
      NodeDepth m root (m (2 * t) - 1) (d + 1)

section Generated

variable {root merged limit count : Nat} {child depth : Nat → Nat} {slot : Nat → Nat × Nat} {m : HeapTree}
  {symbols : Finset Nat} {weight : Nat → Nat} {codes blCount : Arr Nat} {ls lens : List Nat}

theorem nodeDepth_depth {symbols : Multiset Nat} (tree : SlotTree maxHistheapSize root merged symbols child)
    (depths : Depths maxHistheapSize root merged child depth)
    (children : ∀ t, root ≤ t → t ≤ root + 2 * merged → m (2 * t) = child t) (t : Nat) (from_ : root ≤ t)
    (upTo : t ≤ root + 2 * merged) : NodeDepth m root t (depth t) := by
  induction t using Nat.strong_induction_on with
  | _ t ih =>
    rcases Nat.eq_or_lt_of_le from_ with rfl | above
    · rw [depths.top]
      exact NodeDepth.top
    · obtain ⟨s, node, which, below, -⟩ := tree.exists_parent above upTo
      have place := SlotTree.mem_nodeSlots.mp node
      have parent := ih s below place.1.1 place.1.2
      have number := children s place.1.1 place.1.2
      have inner : maxHistheapSize < m (2 * s) := by
        rw [number]
        exact place.2
      rcases which with rfl | rfl
      · rw [(depths.children s node).1, ← number]
        exact NodeDepth.upper parent inner
      · rw [(depths.children s node).2, ← number]
        exact NodeDepth.lower parent inner

/-- Sums over the symbols are sums over the leaves. -/
theorem sum_leaves {M : Type*} [AddCommMonoid M] (leaves : (ls.map child : Multiset Nat) = symbols.val) (F : Nat → M) :
    ∑ s ∈ symbols, F s = (ls.map fun t => F (child t)).sum := by
  rw [Finset.sum_eq_multiset_sum, ← leaves, Multiset.map_coe, Multiset.sum_coe, List.map_map]
  rfl

theorem exists_leaf (leaves : (ls.map child : Multiset Nat) = symbols.val) {s : Nat} (member : s ∈ symbols) :
    ∃ y, ∃ inside : y < ls.length, child ls[y] = s := by
  rw [← Finset.mem_val, ← leaves, Multiset.mem_coe] at member
  obtain ⟨t, inside, number⟩ := List.mem_map.mp member
  obtain ⟨y, bound, rfl⟩ := List.getElem_of_mem inside
  exact ⟨y, bound, number⟩

/-- The lengths of the symbols, given as those of the leaves -/
theorem completeCode_of_leaves (leaves : (ls.map child : Multiset Nat) = symbols.val)
    (limited : Limited root limit child depth ls lens m blCount) (given : ls.map (fun t => codes (child t)) = lens)
    (others : ∀ s, s < count → s ∉ symbols → codes s = 0) : CompleteCode symbols limit count codes blCount := by
  have all : symbols.val.map codes.get = (lens : Multiset Nat) := by
    rw [← given, ← leaves, Multiset.map_coe, List.map_map]
    rfl
  have kraft : ∑ s ∈ symbols, (1 / 2 : ℚ) ^ codes s = 1 := by
    have sum := limited.kraft
    rw [← given, List.map_map] at sum
    rw [sum_leaves leaves fun s => (1 / 2 : ℚ) ^ codes s]
    exact sum
  constructor
  · intro s member
    apply limited.within
    rw [← Multiset.mem_coe, ← all]
    exact Multiset.mem_map_of_mem _ member
  · exact others
  · exact kraft
  · exact limited.zero
  · intro l low high
    rw [limited.counts l low high, ← Multiset.coe_count, ← all, Multiset.count_map]
    rw [Finset.card_def, Finset.filter_val]
    congr 1
    apply Multiset.filter_congr
    intro s _
    exact eq_comm

/-- Lengths that grow with the slots grow as the weights fall. -/
theorem monotone_of_sorted (leaves : (ls.map child : Multiset Nat) = symbols.val)
    (given : ls.map (fun t => codes (child t)) = lens) (sorted : lens.Pairwise (· ≤ ·))
    (descending : ∀ y y' (_ : y ≤ y') (bound : y' < ls.length), weight (child ls[y']) ≤ weight (child ls[y])) :
    Monotone symbols weight codes := by
  intro s first t second less
  obtain ⟨y, bound, rfl⟩ := exists_leaf leaves first
  obtain ⟨y', bound', rfl⟩ := exists_leaf leaves second
  have before : y' < y := by
    by_contra after
    exact absurd (descending y y' (Nat.le_of_not_lt after) bound') (Nat.not_le_of_lt less)
  subst given
  have order := List.pairwise_iff_getElem.mp sorted y' y (by rw [List.length_map]; exact bound')
    (by rw [List.length_map]; exact bound) before
  rw [List.getElem_map, List.getElem_map] at order
  exact order

/-- A leaf's weight is that of its symbol. -/
theorem leaf_weight (weighted : Weighted root merged (symbols.val.map fun s => (weight s, s)) slot)
    (tree : SlotTree maxHistheapSize root merged ((symbols.val.map fun s => (weight s, s)).map Prod.snd) child)
    (same : ∀ t, (slot t).2 = child t) {t : Nat} (leaf : t ∈ leafSlots maxHistheapSize root merged child) :
    (slot t).1 = weight (child t) := by
  have member : slot t ∈ (leafSlots maxHistheapSize root merged child).val.map slot := Multiset.mem_map_of_mem slot leaf
  rw [weighted.leaf_entries tree same] at member
  obtain ⟨s, -, entry⟩ := Multiset.mem_map.mp member
  rw [← same, ← entry]

/-- Depths as lengths are the best ones. -/
theorem optimal_of_depths (weighted : Weighted root merged (symbols.val.map fun s => (weight s, s)) slot)
    (tree : SlotTree maxHistheapSize root merged ((symbols.val.map fun s => (weight s, s)).map Prod.snd) child)
    (same : ∀ t, (slot t).2 = child t) (depths : Depths maxHistheapSize root merged child depth)
    (leaves : ((leavesFrom child root (2 * merged + 1)).map child : Multiset Nat) = symbols.val)
    (given : (leavesFrom child root (2 * merged + 1)).map (fun t => codes (child t)) =
      (leavesFrom child root (2 * merged + 1)).map depth) : Optimal symbols weight codes := by
  intro lengths fits
  have least := weighted.depths_least tree same depths (symbols.val.map fun s => (weight s, lengths s))
    (by rw [Multiset.map_map, Multiset.map_map]; rfl) (by rw [kraftSum, Multiset.map_map]; exact fits)
  have own : ∑ t ∈ leafSlots maxHistheapSize root merged child, (slot t).1 * depth t =
      ∑ s ∈ symbols, weight s * codes s := by
    rw [sum_leaves leaves fun s => weight s * codes s, Finset.sum_eq_multiset_sum, ← leavesFrom_coe, Multiset.map_coe,
      Multiset.sum_coe]
    congr 1
    apply List.map_congr_left
    intro t member
    have length := List.map_inj_left.mp given t member
    have leaf : t ∈ leafSlots maxHistheapSize root merged child := by
      rw [← Finset.mem_val, ← leavesFrom_coe]
      exact member
    rw [length, leaf_weight weighted tree same leaf]
  rw [own, cost, Multiset.map_map] at least
  exact least

/-- The depths of the leaves as lengths of their symbols -/
theorem exists_symbol_depths (distinct : (ls.map child).Nodup) (depth : Nat → Nat) :
    ∃ depths : Arr Nat, ls.map (fun t => depths (child t)) = ls.map depth := by
  classical
  refine ⟨⟨fun s => if found : ∃ t, t ∈ ls ∧ child t = s then depth found.choose else 0⟩, ?_⟩
  apply List.map_congr_left
  intro t member
  have found : ∃ u, u ∈ ls ∧ child u = child t := ⟨t, member, rfl⟩
  have own : found.choose = t := List.inj_on_of_nodup_map distinct found.choose_spec.1 member found.choose_spec.2
  dsimp only
  rw [dif_pos found, own]

/-- Lengths without a limit, which the code has if they are within it -/
structure Unlimited (symbols : Finset Nat) (weight : Nat → Nat) (limit : Nat) (codes depths : Nat → Nat) : Prop where
  kraft : ∑ s ∈ symbols, (1 / 2 : ℚ) ^ depths s = 1
  optimal : Optimal symbols weight depths
  kept : (∀ s ∈ symbols, depths s ≤ limit) → ∀ s ∈ symbols, codes s = depths s

/-- No more leaves than a full tree of their depth has -/
theorem card_le_of_depths {symbols : Multiset Nat} (tree : SlotTree maxHistheapSize root merged symbols child)
    (depths : Depths maxHistheapSize root merged child depth)
    (shallow : ∀ t ∈ leavesFrom child root (2 * merged + 1), depth t ≤ limit) : merged + 1 ≤ 2 ^ limit := by
  have length := (leavesFrom_length tree).trans (card_start tree)
  have kraft := leaves_kraft tree depths
  have least : ((leavesFrom child root (2 * merged + 1)).length : ℚ) * (1 / 2) ^ limit ≤ 1 := by
    rw [List.map_map] at kraft
    refine le_of_le_of_eq ?_ kraft
    rw [← nsmul_eq_mul, ← List.length_map (f := fun t => (1 / 2 : ℚ) ^ depth t)]
    apply List.card_nsmul_le_sum
    intro x member
    obtain ⟨t, inside, rfl⟩ := List.mem_map.mp member
    exact pow_le_pow_of_le_one (show (0 : ℚ) ≤ 1 / 2 by norm_num) (by norm_num) (shallow t inside)
  rw [length] at least
  have scaled := mul_le_mul_of_nonneg_right least (show (0 : ℚ) ≤ 2 ^ limit by positivity)
  rw [mul_assoc, ← mul_pow, one_mul, show (1 / 2 : ℚ) * 2 = 1 by norm_num, one_pow, mul_one] at scaled
  exact_mod_cast scaled

/-- The lengths for the symbols of a heap, whose keys hold their weights -/
theorem genHuffCodeLens_code (numbers : ∀ s ∈ symbols, s < maxHistheapSize) (two : 2 ≤ symbols.card)
    (heap : IsHeap 1 symbols.card m) (keys : entries symbols.card m = symbols.val.map fun s => (weight s, s))
    (empty : ∀ t, symbols.card + 1 < t → t ≤ heapTreeNodeStart → cells m t = 0) (words : Words m)
    (byte : limit < 2 ^ 8) (blCount codes : Arr Nat) (count : Nat) :
    ∃ root m', buildHuffTree m symbols.card heapTreeNodeStart = some (root, m') ∧
      ((∀ t d, NodeDepth m' root t d → d ≤ limit) → symbols.card ≤ 2 ^ limit) ∧
      (symbols.card ≤ 2 ^ limit → ∃ codes' blCount',
        genHuffCodeLens m symbols.card blCount codes count limit = some (codes', blCount') ∧
        CompleteCode symbols limit count codes' blCount' ∧
        (∑ s ∈ symbols, weight s ≤ 2 ^ 48 → Monotone symbols weight codes' ∧
          ((∀ t d, NodeDepth m' root t d → d ≤ limit) → Optimal symbols weight codes') ∧
          ∃ depths, Unlimited symbols weight limit codes' depths)) := by
  have most : maxHistheapSize = 286 := rfl
  have total : heapTreeSize = 859 := rfl
  have last : heapTreeNodeStart = 858 := rfl
  have few : symbols.card ≤ maxHistheapSize := by
    have inside : symbols ⊆ Finset.range maxHistheapSize := fun s member => Finset.mem_range.mpr (numbers s member)
    have := Finset.card_le_card inside
    rwa [Finset.card_range] at this
  obtain ⟨merged, size⟩ : ∃ merged, symbols.card = merged + 1 := ⟨symbols.card - 1, by omega⟩
  rw [size] at heap keys empty few ⊢
  obtain ⟨root, m₁, child, built, place, tree, filled, ones, weights⟩ := buildHuffTree_tree (by
    intro x member
    obtain ⟨s, inside, rfl⟩ := Multiset.mem_map.mp member
    exact Nat.le_of_lt (numbers s inside)) few heap keys empty
  obtain ⟨depth, depths⟩ := tree.exists_depths
  have words₁ := words.buildHuffTree built
  have own : (symbols.val.map fun s => (weight s, s)).map Prod.snd = symbols.val := by
    rw [Multiset.map_map]
    exact Multiset.map_id' _
  have leaves : ((leavesFrom child root (2 * merged + 1)).map child : Multiset Nat) = symbols.val := by
    rw [← Multiset.map_coe, leavesFrom_coe, tree.leaf_entries, own]
  have length := (leavesFrom_length tree).trans (card_start tree)
  have inside : ∀ t ∈ leavesFrom child root (2 * merged + 1), t ∈ leafSlots maxHistheapSize root merged child := by
    intro t member
    rw [← Finset.mem_val, ← leavesFrom_coe]
    exact member
  have shallow_ : (∀ t d, NodeDepth m₁ root t d → d ≤ limit) →
      ∀ t ∈ leavesFrom child root (2 * merged + 1), depth t ≤ limit := by
    intro shallow t member
    have range := (SlotTree.mem_leafSlots.mp (inside t member)).1
    apply shallow t
    apply nodeDepth_depth tree depths _ t range.1 range.2
    intro u from_ upTo
    have cell : m₁ (2 * u) + 2 ^ 32 * m₁ (2 * u + 1) = child u := filled u from_ (by omega)
    have small := tree.child_le from_ upTo
    omega
  refine ⟨root, m₁, built, fun shallow => card_le_of_depths tree depths (shallow_ shallow), ?_⟩
  intro fits
  obtain ⟨m₂, blCount', lens, fixed, limited⟩ := fixCodeLens_limited tree depths place (by omega) filled ones words₁ fits blCount
  set ls := leavesFrom child root (2 * merged + 1) with ls_eq
  have distinct : (ls.map child).Nodup := by
    rw [← Multiset.coe_nodup, leaves]
    exact symbols.nodup
  obtain ⟨codes', set, given, others⟩ := setLengths_some limited byte (by omega) distinct (merged + 1) (x := 0) (by omega)
    (codes.fill 0 count 0)
  have given : ls.map (fun t => codes' (child t)) = lens := by
    apply List.ext_getElem
    · rw [List.length_map, limited.length]
    · intro y bound bound'
      rw [List.length_map] at bound
      rw [List.getElem_map]
      exact given y _ _ (Nat.zero_le y) (List.getElem?_eq_getElem bound) (List.getElem?_eq_getElem bound')
  refine ⟨codes', blCount', ?_, ?_, ?_⟩
  · rw [genHuffCodeLens, built]
    simp only [Option.bind_eq_bind, Option.bind_some]
    rw [fixed, Option.bind_some, Nat.add_sub_cancel_left]
    change (setLengths m₂ (merged + 1) (root + 0) (codes.fill 0 count 0)).bind _ = _
    rw [set]
    rfl
  · apply completeCode_of_leaves leaves limited given
    intro s low outside
    rw [others s, Arr.fill_get, if_pos (by omega)]
    intro y t _ at_ same
    apply outside
    rw [← same, ← Finset.mem_val, ← leaves]
    exact Multiset.mem_coe.mpr (List.mem_map_of_mem (List.mem_of_getElem? at_))
  · intro light
    obtain ⟨slot, weighted, same⟩ := weights (by rw [Multiset.map_map]; exact light)
    have optimal : lens = ls.map depth → Optimal symbols weight codes' := fun kept =>
      optimal_of_depths weighted tree same depths leaves (given.trans kept)
    refine ⟨?_, fun shallow => optimal (limited.kept (shallow_ shallow)), ?_⟩
    rotate_left
    · obtain ⟨own, given'⟩ := exists_symbol_depths distinct depth
      refine ⟨own, ?_, optimal_of_depths weighted tree same depths leaves given', ?_⟩
      · have sum := leaves_kraft tree depths
        rw [← ls_eq, ← given', List.map_map] at sum
        rw [sum_leaves leaves fun s => (1 / 2 : ℚ) ^ own s]
        exact sum
      · intro shallow s member
        obtain ⟨y, bound, rfl⟩ := exists_leaf leaves member
        have depth_ : ∀ t ∈ ls, own (child t) = depth t := List.map_inj_left.mp given'
        have kept := limited.kept fun t member => by
          rw [← depth_ t member]
          apply shallow
          rw [← Finset.mem_val, ← leaves]
          exact Multiset.mem_coe.mpr (List.mem_map_of_mem member)
        have length := List.map_inj_left.mp (given.trans kept) _ (List.getElem_mem bound)
        rw [length, depth_ _ (List.getElem_mem bound)]
    rcases limited.order with kept | sorted
    · apply (optimal kept).monotone
      apply le_of_eq
      have sum := limited.kraft
      rw [← given, List.map_map] at sum
      rw [sum_leaves leaves fun s => (1 / 2 : ℚ) ^ codes' s]
      exact sum
    · apply monotone_of_sorted leaves given sorted
      intro y y' order bound
      have first := inside _ (List.getElem_mem (show y < ls.length by omega))
      have second := inside _ (List.getElem_mem bound)
      rw [← leaf_weight weighted tree same first, ← leaf_weight weighted tree same second]
      apply weighted.descending _ _ (SlotTree.mem_leafSlots.mp first).1.1 _ (SlotTree.mem_leafSlots.mp second).1.2
      rcases Nat.eq_or_lt_of_le order with rfl | before
      · exact le_refl _
      · have sorted : ls.Pairwise (· < ·) := List.Pairwise.filter _ List.pairwise_lt_range'
        exact Nat.le_of_lt (List.pairwise_iff_getElem.mp sorted y y' (by omega) bound before)

end Generated
end Isal.HuffCodes
