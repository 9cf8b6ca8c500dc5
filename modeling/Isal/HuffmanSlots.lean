import Isal.HuffmanCost

/-! A tree laid out in numbered slots, two for the children of each node. A node bears the number
of the upper one of its children's slots, and its own slot lies further down. -/
namespace Isal.Huffman

/-- The entry for the node whose children are at `q` and below it. An entry is a weight and a number. -/
def joined (slot : ℕ → ℕ × ℕ) (q : ℕ) : ℕ × ℕ := ((slot q).1 + (slot (q - 1)).1, q)

/-- The nodes of the slots above `p`. -/
def nodesAbove (slot : ℕ → ℕ × ℕ) (p merged : ℕ) : Multiset (ℕ × ℕ) :=
  (Multiset.range merged).map fun i => joined slot (p + 2 * (i + 1))

/-- The numbers of the nodes of the slots above `p` -/
def numbersAbove (p merged : ℕ) : Multiset ℕ := (Multiset.range merged).map fun i => p + 2 * (i + 1)

/-- The slots above `p` are filled with the numbers of symbols and nodes by `merged` merges, and the
numbers of `live` are left. Numbers up to `bound` are those of symbols. -/
structure Placing (bound p merged : ℕ) (symbols live : Multiset ℕ) (child : ℕ → ℕ) : Prop where
  entries : live + (Finset.Ioc p (p + 2 * merged)).val.map child = symbols + numbersAbove p merged
  earlier : ∀ t, p < t → t ≤ p + 2 * merged → bound < child t → t + 2 ≤ child t
  waiting : ∀ x ∈ live, bound < x → p + 2 ≤ x

/-- What remains to be merged, with weights. The slots are filled from the lightest on. -/
structure Merging (p merged : ℕ) (start live : Multiset (ℕ × ℕ)) (slot : ℕ → ℕ × ℕ) : Prop where
  entries : live + (Finset.Ioc p (p + 2 * merged)).val.map slot = start + nodesAbove slot p merged
  descending : ∀ t t', p < t → t ≤ t' → t' ≤ p + 2 * merged → (slot t').1 ≤ (slot t).1
  heavier : ∀ x ∈ live, ∀ t, p < t → t ≤ p + 2 * merged → (slot t).1 ≤ x.1
  weights : (live.map Prod.fst).sum = (start.map Prod.fst).sum
  merges : ∀ total, Merges (live.map Prod.fst) total →
    Merges (start.map Prod.fst) (total + ((nodesAbove slot p merged).map Prod.fst).sum)

theorem numbersAbove_succ (p merged : ℕ) :
    numbersAbove p (merged + 1) = (p + 2) ::ₘ numbersAbove (p + 2) merged := by
  have first : Multiset.range (merged + 1) = 0 ::ₘ (Multiset.range merged).map (· + 1) := by
    rw [← Multiset.coe_range, List.range_succ_eq_map]
    rfl
  rw [numbersAbove, first, Multiset.map_cons, Multiset.map_map]
  congr 1
  apply Multiset.map_congr rfl
  intro i _
  change p + 2 * (i + 1 + 1) = p + 2 + 2 * (i + 1)
  omega

/-- The slots up to the top, with the two lowest ones apart -/
theorem Ioc_split (p merged : ℕ) :
    (Finset.Ioc p (p + 2 * (merged + 1))).val =
      (p + 2) ::ₘ (p + 1) ::ₘ (Finset.Ioc (p + 2) (p + 2 + 2 * merged)).val := by
  have split : Finset.Ioc p (p + 2 * (merged + 1)) =
      Finset.cons (p + 2) (Finset.cons (p + 1) (Finset.Ioc (p + 2) (p + 2 + 2 * merged)) (by simp)) (by simp) := by
    ext t
    simp only [Finset.mem_Ioc, Finset.mem_cons]
    omega
  rw [split, Finset.cons_val, Finset.cons_val]

section Fill

variable {α : Type*} {p : ℕ}

/-- Two slots filled below `p + 2` -/
def fillPair (f : ℕ → α) (p : ℕ) (a b : α) : ℕ → α := Function.update (Function.update f (p + 2) a) (p + 1) b

theorem fillPair_lower (f : ℕ → α) (p : ℕ) (a b : α) : fillPair f p a b (p + 1) = b := Function.update_self ..

theorem fillPair_upper (f : ℕ → α) (p : ℕ) (a b : α) : fillPair f p a b (p + 2) = a := by
  rw [fillPair, Function.update_of_ne (by omega), Function.update_self]

theorem fillPair_above (f : ℕ → α) (a b : α) {t : ℕ} (above : p + 2 < t) : fillPair f p a b t = f t := by
  rw [fillPair, Function.update_of_ne (by omega), Function.update_of_ne (by omega)]

theorem fillPair_snd {β : Type*} (f : ℕ → β × α) (p : ℕ) (a b : β × α) :
    fillPair (fun t => (f t).2) p a.2 b.2 = fun t => (fillPair f p a b t).2 := by
  funext t
  rcases (by omega : t = p + 1 ∨ t = p + 2 ∨ t ≠ p + 1 ∧ t ≠ p + 2) with rfl | rfl | other
  · rw [fillPair_lower, fillPair_lower]
  · rw [fillPair_upper, fillPair_upper]
  · rw [fillPair, fillPair, Function.update_of_ne other.1, Function.update_of_ne other.2, Function.update_of_ne other.1,
      Function.update_of_ne other.2]

theorem fillPair_map (f : ℕ → α) (a b : α) (p merged : ℕ) :
    (Finset.Ioc p (p + 2 * (merged + 1))).val.map (fillPair f p a b) =
      a ::ₘ b ::ₘ (Finset.Ioc (p + 2) (p + 2 + 2 * merged)).val.map f := by
  have others : (Finset.Ioc (p + 2) (p + 2 + 2 * merged)).val.map (fillPair f p a b) =
      (Finset.Ioc (p + 2) (p + 2 + 2 * merged)).val.map f := by
    apply Multiset.map_congr rfl
    intro t member
    exact fillPair_above f a b (Finset.mem_Ioc.mp (Finset.mem_val.mp member)).1
  rw [Ioc_split, Multiset.map_cons, Multiset.map_cons, fillPair_lower, fillPair_upper, others]

/-- The slots with the lowest one apart -/
theorem update_map (f : ℕ → α) (x : α) (p merged : ℕ) :
    (Finset.Icc p (p + 2 * merged)).val.map (Function.update f p x) =
      x ::ₘ (Finset.Ioc p (p + 2 * merged)).val.map f := by
  have split : Finset.Icc p (p + 2 * merged) = Finset.cons p (Finset.Ioc p (p + 2 * merged)) (by simp) := by
    ext t
    simp only [Finset.mem_Icc, Finset.mem_cons, Finset.mem_Ioc]
    omega
  have others : (Finset.Ioc p (p + 2 * merged)).val.map (Function.update f p x) =
      (Finset.Ioc p (p + 2 * merged)).val.map f := by
    apply Multiset.map_congr rfl
    intro t member
    have above := (Finset.mem_Ioc.mp (Finset.mem_val.mp member)).1
    exact Function.update_of_ne (by omega) ..
  rw [split, Finset.cons_val, Multiset.map_cons, Function.update_self, others]

end Fill

namespace Placing

variable {bound p merged : ℕ} {symbols live rest : Multiset ℕ} {child : ℕ → ℕ}

theorem initial (small : ∀ x ∈ symbols, x ≤ bound) : Placing bound p 0 symbols symbols child := by
  constructor
  · rw [numbersAbove, Nat.mul_zero, Nat.add_zero, Finset.Ioc_self]
    rfl
  · intro t above upTo
    omega
  · intro x member number
    exact absurd (small x member) (Nat.not_le_of_lt number)

/-- The numbers `a` and `b` go to the two slots below, and their node joins the others. -/
theorem step {a b : ℕ} (state : Placing bound (p + 2) merged symbols (a ::ₘ b ::ₘ rest) child) :
    Placing bound p (merged + 1) symbols ((p + 2) ::ₘ rest) (fillPair child p a b) := by
  have members : a ∈ a ::ₘ b ::ₘ rest ∧ b ∈ a ::ₘ b ::ₘ rest := by simp
  constructor
  · have before := state.entries
    rw [Multiset.cons_add, Multiset.cons_add] at before
    rw [fillPair_map, numbersAbove_succ, Multiset.cons_add, Multiset.add_cons, Multiset.add_cons, before, Multiset.add_cons]
  · intro t above upTo number
    rcases (by omega : t = p + 1 ∨ t = p + 2 ∨ p + 2 < t) with rfl | rfl | old
    · rw [fillPair_lower] at number ⊢
      have := state.waiting b members.2 number
      omega
    · rw [fillPair_upper] at number ⊢
      exact state.waiting a members.1 number
    · rw [fillPair_above child a b old] at number ⊢
      exact state.earlier t old (by omega) number
  · intro x member number
    rcases Multiset.mem_cons.mp member with rfl | other
    · exact le_refl _
    · have := state.waiting x (Multiset.mem_cons_of_mem (Multiset.mem_cons_of_mem other)) number
      omega

/-- Every number is that of a symbol or of a node above. -/
theorem number_le (state : Placing bound p merged symbols live child) (small : ∀ x ∈ symbols, x ≤ bound) {x : ℕ}
    (member : x ∈ live) : x ≤ max bound (p + 2 * merged) := by
  have within : x ∈ symbols + numbersAbove p merged := by
    rw [← state.entries]
    exact Multiset.mem_add.mpr (Or.inl member)
  rcases Multiset.mem_add.mp within with symbol | node
  · have := small x symbol
    omega
  · obtain ⟨i, range, rfl⟩ := Multiset.mem_map.mp node
    have := Multiset.mem_range.mp range
    omega

end Placing

namespace Merging

variable {p merged : ℕ} {start live rest : Multiset (ℕ × ℕ)} {slot : ℕ → ℕ × ℕ}

theorem initial : Merging p 0 start start slot := by
  constructor
  · rw [nodesAbove, Nat.mul_zero, Nat.add_zero, Finset.Ioc_self]
    rfl
  · intro t t' above order upTo
    omega
  · intro x _ t above upTo
    omega
  · rfl
  · intro total merges
    exact merges

theorem nodesAbove_congr {slot' : ℕ → ℕ × ℕ} (same : ∀ t, p < t → slot' t = slot t) :
    nodesAbove slot' p merged = nodesAbove slot p merged := by
  apply Multiset.map_congr rfl
  intro i _
  rw [joined, joined, same _ (by omega), same _ (by omega)]

theorem nodesAbove_succ (slot : ℕ → ℕ × ℕ) (p merged : ℕ) :
    nodesAbove slot p (merged + 1) = joined slot (p + 2) ::ₘ nodesAbove slot (p + 2) merged := by
  have first : Multiset.range (merged + 1) = 0 ::ₘ (Multiset.range merged).map (· + 1) := by
    rw [← Multiset.coe_range, List.range_succ_eq_map]
    rfl
  rw [nodesAbove, first, Multiset.map_cons, Multiset.map_map]
  congr 1
  apply Multiset.map_congr rfl
  intro i _
  change joined slot (p + 2 * (i + 1 + 1)) = joined slot (p + 2 + 2 * (i + 1))
  congr 1
  omega

/-- The entries `a` and `b` go to the two slots below, and their node joins the others. -/
theorem step {a b : ℕ × ℕ} (state : Merging (p + 2) merged start (a ::ₘ b ::ₘ rest) slot)
    (order : a.1 ≤ b.1) (least : ∀ x ∈ rest, b.1 ≤ x.1) :
    Merging p (merged + 1) start ((a.1 + b.1, p + 2) ::ₘ rest) (fillPair slot p a b) := by
  have others : ∀ t, p + 2 < t → fillPair slot p a b t = slot t := fun t above => fillPair_above slot a b above
  have node : joined (fillPair slot p a b) (p + 2) = (a.1 + b.1, p + 2) := by
    rw [joined, fillPair_upper, show p + 2 - 1 = p + 1 from rfl, fillPair_lower]
  have members : a ∈ a ::ₘ b ::ₘ rest ∧ b ∈ a ::ₘ b ::ₘ rest := by simp
  constructor
  · have before := state.entries
    rw [Multiset.cons_add, Multiset.cons_add] at before
    rw [fillPair_map, nodesAbove_succ, node, nodesAbove_congr others, Multiset.cons_add, Multiset.add_cons,
      Multiset.add_cons, before, Multiset.add_cons]
  · intro t t' above ordered upTo
    rcases Nat.lt_or_ge (p + 2) t with old | new
    · rw [others t old, others t' (by omega)]
      exact state.descending t t' old ordered (by omega)
    · rcases Nat.lt_or_ge (p + 2) t' with old' | new'
      · rw [others t' old']
        rcases (by omega : t = p + 1 ∨ t = p + 2) with rfl | rfl
        · rw [fillPair_lower]
          exact state.heavier b members.2 t' old' (by omega)
        · rw [fillPair_upper]
          exact state.heavier a members.1 t' old' (by omega)
      · rcases (by omega : t = t' ∨ t = p + 1 ∧ t' = p + 2) with rfl | ⟨rfl, rfl⟩
        · exact le_refl _
        · rw [fillPair_upper, fillPair_lower]
          exact order
  · intro x member t above upTo
    have weight : ∀ y, y = a ∨ y = b → y.1 ≤ x.1 := by
      intro y which
      rcases Multiset.mem_cons.mp member with rfl | other
      · rcases which with rfl | rfl
        · exact Nat.le_add_right _ _
        · exact Nat.le_add_left _ _
      · rcases which with rfl | rfl
        · exact le_trans order (least x other)
        · exact least x other
    rcases (by omega : t = p + 1 ∨ t = p + 2 ∨ p + 2 < t) with rfl | rfl | old
    · rw [fillPair_lower]
      exact weight b (Or.inr rfl)
    · rw [fillPair_upper]
      exact weight a (Or.inl rfl)
    · rw [others t old]
      exact le_trans (state.heavier a members.1 t old (by omega)) (weight a (Or.inl rfl))
  · have before := state.weights
    rw [Multiset.map_cons, Multiset.map_cons, Multiset.sum_cons, Multiset.sum_cons] at before
    rw [Multiset.map_cons, Multiset.sum_cons, ← before, Nat.add_assoc]
  · intro total merges
    have joinedMerges : Merges ((a ::ₘ b ::ₘ rest).map Prod.fst) (total + (a.1 + b.1)) := by
      rw [Multiset.map_cons, Multiset.map_cons]
      apply Merges.merge order
      · intro w member
        obtain ⟨x, inside, rfl⟩ := Multiset.mem_map.mp member
        exact least x inside
      · rw [Multiset.map_cons] at merges
        exact merges
    have whole := state.merges _ joinedMerges
    rw [nodesAbove_succ, node, nodesAbove_congr others, Multiset.map_cons, Multiset.sum_cons, ← Nat.add_assoc]
    exact whole

end Merging

/-- All slots filled, with the root in the lowest one -/
structure SlotTree (bound root merged : ℕ) (symbols : Multiset ℕ) (child : ℕ → ℕ) : Prop where
  entries : (Finset.Icc root (root + 2 * merged)).val.map child = symbols + numbersAbove root merged
  small : ∀ x ∈ symbols, x ≤ bound
  high : bound < root
  earlier : ∀ t, root ≤ t → t ≤ root + 2 * merged → bound < child t → t + 2 ≤ child t

/-- The weights of a tree of merges -/
structure Weighted (root merged : ℕ) (start : Multiset (ℕ × ℕ)) (slot : ℕ → ℕ × ℕ) : Prop where
  entries : (Finset.Icc root (root + 2 * merged)).val.map slot = start + nodesAbove slot root merged
  descending : ∀ t t', root ≤ t → t ≤ t' → t' ≤ root + 2 * merged → (slot t').1 ≤ (slot t).1
  merges : Merges (start.map Prod.fst) ((nodesAbove slot root merged).map Prod.fst).sum

theorem Placing.finish {bound p merged : ℕ} {symbols : Multiset ℕ} {child : ℕ → ℕ} {x : ℕ}
    (state : Placing bound p merged symbols {x} child) (small : ∀ x ∈ symbols, x ≤ bound) (high : bound < p) :
    SlotTree bound p merged symbols (Function.update child p x) := by
  constructor
  · rw [update_map, ← state.entries, Multiset.singleton_add]
  · exact small
  · exact high
  · intro t from_ upTo number
    rcases Nat.eq_or_lt_of_le from_ with rfl | above
    · rw [Function.update_self] at number ⊢
      exact state.waiting x (Multiset.mem_singleton_self x) number
    · rw [Function.update_of_ne (by omega)] at number ⊢
      exact state.earlier t above upTo number

theorem Merging.finish {p merged : ℕ} {start : Multiset (ℕ × ℕ)} {slot : ℕ → ℕ × ℕ} {x : ℕ × ℕ}
    (state : Merging p merged start {x} slot) : Weighted p merged start (Function.update slot p x) := by
  have others : ∀ t, p < t → Function.update slot p x t = slot t := fun t above => Function.update_of_ne (by omega) ..
  constructor
  · rw [update_map, Merging.nodesAbove_congr others, ← state.entries, Multiset.singleton_add]
  · intro t t' from_ order upTo
    rcases Nat.eq_or_lt_of_le from_ with rfl | above
    · rcases Nat.eq_or_lt_of_le order with rfl | above'
      · exact le_refl _
      · rw [Function.update_self, others t' above']
        exact state.heavier x (Multiset.mem_singleton_self x) t' above' upTo
    · rw [others t above, others t' (by omega)]
      exact state.descending t t' above order upTo
  · have whole := state.merges 0 (Merges.single x.1)
    rw [Nat.zero_add] at whole
    rw [Merging.nodesAbove_congr others]
    exact whole

/-- Slots that hold symbols. -/
def leafSlots (bound root merged : ℕ) (child : ℕ → ℕ) : Finset ℕ :=
  (Finset.Icc root (root + 2 * merged)).filter fun t => child t ≤ bound

/-- Slots that hold nodes. -/
def nodeSlots (bound root merged : ℕ) (child : ℕ → ℕ) : Finset ℕ :=
  (Finset.Icc root (root + 2 * merged)).filter fun t => ¬child t ≤ bound

/-- The children are one level below their node. -/
structure Depths (bound root merged : ℕ) (child : ℕ → ℕ) (depth : ℕ → ℕ) : Prop where
  top : depth root = 0
  children : ∀ t ∈ nodeSlots bound root merged child,
    depth (child t) = depth t + 1 ∧ depth (child t - 1) = depth t + 1

theorem sum_slots {M : Type*} [AddCommMonoid M] (root merged : ℕ) (f : ℕ → M) :
    ∑ t ∈ Finset.Icc root (root + 2 * merged), f t =
      f root + ∑ i ∈ Finset.range merged, (f (root + 2 * (i + 1)) + f (root + 2 * (i + 1) - 1)) := by
  induction merged with
  | zero => simp
  | succ merged ih =>
    have upper : root + 2 * (merged + 1) = root + 2 * merged + 1 + 1 := by omega
    rw [upper, Finset.sum_Icc_succ_top (by omega), Finset.sum_Icc_succ_top (by omega), ih, Finset.sum_range_succ, upper,
      Nat.add_sub_cancel, add_assoc, add_assoc, add_comm (f (root + 2 * merged + 1))]

namespace SlotTree

variable {bound root merged : ℕ} {symbols : Multiset ℕ} {child : ℕ → ℕ}

theorem number_above {x : ℕ} (member : x ∈ numbersAbove root merged) : root < x := by
  obtain ⟨i, -, rfl⟩ := Multiset.mem_map.mp member
  omega

theorem leaf_entries (tree : SlotTree bound root merged symbols child) :
    (leafSlots bound root merged child).val.map child = symbols := by
  have filtered := congrArg (Multiset.filter fun x => x ≤ bound) tree.entries
  have leaves : symbols.filter (fun x => x ≤ bound) = symbols := Multiset.filter_eq_self.mpr tree.small
  have nodes : (numbersAbove root merged).filter (fun x => x ≤ bound) = 0 := by
    apply Multiset.filter_eq_nil.mpr
    intro x member
    have := number_above member
    have := tree.high
    omega
  rw [Multiset.filter_add, leaves, nodes, add_zero, Multiset.filter_map] at filtered
  exact filtered

theorem node_entries (tree : SlotTree bound root merged symbols child) :
    (nodeSlots bound root merged child).val.map child = numbersAbove root merged := by
  have filtered := congrArg (Multiset.filter fun x => ¬x ≤ bound) tree.entries
  have leaves : symbols.filter (fun x => ¬x ≤ bound) = 0 := by
    apply Multiset.filter_eq_nil.mpr
    intro x member
    exact not_not_intro (tree.small x member)
  have nodes : (numbersAbove root merged).filter (fun x => ¬x ≤ bound) = numbersAbove root merged := by
    apply Multiset.filter_eq_self.mpr
    intro x member
    have := number_above member
    have := tree.high
    omega
  rw [Multiset.filter_add, leaves, nodes, zero_add, Multiset.filter_map] at filtered
  exact filtered

theorem sum_nodes {M : Type*} [AddCommMonoid M] (tree : SlotTree bound root merged symbols child) (g : ℕ → M) :
    ∑ t ∈ nodeSlots bound root merged child, g (child t) = ∑ i ∈ Finset.range merged, g (root + 2 * (i + 1)) := by
  have mapped := congrArg (fun s => (Multiset.map g s).sum) tree.node_entries
  simp only [numbersAbove, Multiset.map_map] at mapped
  exact mapped

theorem sum_split {M : Type*} [AddCommMonoid M] (bound root merged : ℕ) (child : ℕ → ℕ) (f : ℕ → M) :
    ∑ t ∈ leafSlots bound root merged child, f t + ∑ t ∈ nodeSlots bound root merged child, f t =
      ∑ t ∈ Finset.Icc root (root + 2 * merged), f t :=
  Finset.sum_filter_add_sum_filter_not ..

theorem mem_nodeSlots {t : ℕ} :
    t ∈ nodeSlots bound root merged child ↔ (root ≤ t ∧ t ≤ root + 2 * merged) ∧ bound < child t := by
  rw [nodeSlots, Finset.mem_filter, Finset.mem_Icc, not_le]

theorem mem_leafSlots {t : ℕ} :
    t ∈ leafSlots bound root merged child ↔ (root ≤ t ∧ t ≤ root + 2 * merged) ∧ child t ≤ bound := by
  rw [leafSlots, Finset.mem_filter, Finset.mem_Icc]

/-- What a node's number says of it -/
theorem node_spec (tree : SlotTree bound root merged symbols child) {t : ℕ}
    (node : t ∈ nodeSlots bound root merged child) :
    ∃ i < merged, child t = root + 2 * (i + 1) ∧ t + 2 ≤ root + 2 * (i + 1) := by
  have member : child t ∈ numbersAbove root merged := tree.node_entries ▸ Multiset.mem_map_of_mem child node
  obtain ⟨i, inside, number⟩ := Multiset.mem_map.mp member
  have place := mem_nodeSlots.mp node
  have order := tree.earlier t place.1.1 place.1.2 place.2
  rw [← number] at order
  exact ⟨i, Multiset.mem_range.mp inside, number.symm, order⟩

/-- Every pair of slots belongs to a node further down. -/
theorem exists_node (tree : SlotTree bound root merged symbols child) {i : ℕ} (inside : i < merged) :
    ∃ s ∈ nodeSlots bound root merged child, child s = root + 2 * (i + 1) ∧ s + 2 ≤ root + 2 * (i + 1) := by
  have member : root + 2 * (i + 1) ∈ (nodeSlots bound root merged child).val.map child := by
    rw [tree.node_entries]
    exact Multiset.mem_map_of_mem _ (Multiset.mem_range.mpr inside)
  obtain ⟨s, node, number⟩ := Multiset.mem_map.mp member
  have place := mem_nodeSlots.mp (Finset.mem_val.mp node)
  have order := tree.earlier s place.1.1 place.1.2 place.2
  exact ⟨s, node, number, number ▸ order⟩

/-- No number is past the last slot. -/
theorem child_le (tree : SlotTree bound root merged symbols child) {t : ℕ} (from_ : root ≤ t)
    (upTo : t ≤ root + 2 * merged) : child t ≤ root + 2 * merged := by
  by_cases leaf : child t ≤ bound
  · have := tree.high
    omega
  · obtain ⟨i, few, number, -⟩ := tree.node_spec (mem_nodeSlots.mpr ⟨⟨from_, upTo⟩, Nat.lt_of_not_le leaf⟩)
    omega

/-- Every slot but the root's is a child of a node further down. -/
theorem exists_parent (tree : SlotTree bound root merged symbols child) {t : ℕ} (above : root < t)
    (upTo : t ≤ root + 2 * merged) :
    ∃ s ∈ nodeSlots bound root merged child, (t = child s ∨ t = child s - 1) ∧ s < t ∧
      (s - root + 1) / 2 < (t - root + 1) / 2 := by
  obtain ⟨i, inside, which⟩ : ∃ i < merged, t = root + 2 * (i + 1) ∨ t = root + 2 * (i + 1) - 1 :=
    ⟨(t - root - 1) / 2, by omega, by omega⟩
  obtain ⟨s, node, number, order⟩ := tree.exists_node inside
  refine ⟨s, node, ?_, ?_, ?_⟩
  · rw [number]
    exact which
  · omega
  · have := (mem_nodeSlots.mp node).1
    omega

theorem number_injective (tree : SlotTree bound root merged symbols child) {s t : ℕ}
    (first : s ∈ nodeSlots bound root merged child) (second : t ∈ nodeSlots bound root merged child)
    (same : child s = child t) : s = t := by
  have distinct : ((nodeSlots bound root merged child).val.map child).Nodup := by
    rw [tree.node_entries]
    apply Multiset.Nodup.map_on _ (Multiset.nodup_range merged)
    intro i _ j _ equal
    omega
  exact Multiset.inj_on_of_nodup_map distinct s first t second same

theorem exists_depths_below (tree : SlotTree bound root merged symbols child) (height : ℕ) :
    ∃ depth : ℕ → ℕ, depth root = 0 ∧ ∀ t ∈ nodeSlots bound root merged child, t < root + height →
      depth (child t) = depth t + 1 ∧ depth (child t - 1) = depth t + 1 := by
  induction height with
  | zero =>
    refine ⟨fun _ => 0, rfl, ?_⟩
    intro t node below
    have := (mem_nodeSlots.mp node).1.1
    omega
  | succ height ih =>
    obtain ⟨depth, top, children⟩ := ih
    by_cases node : root + height ∈ nodeSlots bound root merged child
    · obtain ⟨i, -, number, order⟩ := tree.node_spec node
      refine ⟨fun t => if t = root + 2 * (i + 1) ∨ t = root + 2 * (i + 1) - 1 then depth (root + height) + 1
        else depth t, ?_, ?_⟩
      · beta_reduce
        rw [if_neg (by omega)]
        exact top
      · intro t other below
        beta_reduce
        rw [if_neg (by omega : ¬(t = root + 2 * (i + 1) ∨ t = root + 2 * (i + 1) - 1))]
        rcases (by omega : t = root + height ∨ t < root + height) with rfl | lower
        · rw [number, if_pos (Or.inl rfl), if_pos (Or.inr rfl)]
          exact ⟨rfl, rfl⟩
        · obtain ⟨j, -, number', -⟩ := tree.node_spec other
          have apart : j ≠ i := by
            intro same
            have equal := tree.number_injective other node (by rw [number', number, same])
            omega
          have before := children t other lower
          rw [number'] at before ⊢
          rw [if_neg (by omega), if_neg (by omega)]
          exact before
    · refine ⟨depth, top, ?_⟩
      intro t other below
      rcases (by omega : t = root + height ∨ t < root + height) with rfl | lower
      · exact absurd other node
      · exact children t other lower

theorem exists_depths (tree : SlotTree bound root merged symbols child) :
    ∃ depth, Depths bound root merged child depth := by
  obtain ⟨depth, top, children⟩ := tree.exists_depths_below (2 * merged + 1)
  refine ⟨depth, top, ?_⟩
  intro t node
  have := (mem_nodeSlots.mp node).1
  exact children t node (by omega)

section Depth

variable {depth : ℕ → ℕ}

theorem depth_le (tree : SlotTree bound root merged symbols child) (depths : Depths bound root merged child depth) :
    ∀ t, root ≤ t → t ≤ root + 2 * merged → depth t ≤ (t - root + 1) / 2 := by
  intro t
  induction t using Nat.strong_induction_on with
  | _ t ih =>
    intro from_ upTo
    rcases Nat.eq_or_lt_of_le from_ with rfl | above
    · rw [depths.top]
      exact Nat.zero_le _
    · obtain ⟨s, node, which, below, level⟩ := tree.exists_parent above upTo
      have place := (mem_nodeSlots.mp node).1
      have upper := ih s below place.1 place.2
      have next : depth t = depth s + 1 := by
        rcases which with rfl | rfl
        · exact (depths.children s node).1
        · exact (depths.children s node).2
      omega

theorem depth_pos (tree : SlotTree bound root merged symbols child) (depths : Depths bound root merged child depth) {t : ℕ}
    (above : root < t) (upTo : t ≤ root + 2 * merged) : 1 ≤ depth t := by
  obtain ⟨s, node, which, -, -⟩ := tree.exists_parent above upTo
  rcases which with rfl | rfl
  · rw [(depths.children s node).1]
    exact Nat.le_add_left _ _
  · rw [(depths.children s node).2]
    exact Nat.le_add_left _ _

/-- The depths meet Kraft's inequality with equality. -/
theorem depths_kraft (tree : SlotTree bound root merged symbols child) (depths : Depths bound root merged child depth) :
    ∑ t ∈ leafSlots bound root merged child, (1 / 2 : ℚ) ^ depth t = 1 := by
  have places : ∑ t ∈ nodeSlots bound root merged child, (1 / 2 : ℚ) ^ depth t =
      ∑ i ∈ Finset.range merged,
        ((1 / 2 : ℚ) ^ depth (root + 2 * (i + 1)) + (1 / 2) ^ depth (root + 2 * (i + 1) - 1)) := by
    have children := tree.sum_nodes fun x => (1 / 2 : ℚ) ^ depth x + (1 / 2) ^ depth (x - 1)
    rw [← children]
    apply Finset.sum_congr rfl
    intro t node
    rw [(depths.children t node).1, (depths.children t node).2, pow_succ]
    ring
  have whole := sum_split bound root merged child fun t => (1 / 2 : ℚ) ^ depth t
  rw [sum_slots, places, depths.top, pow_zero] at whole
  exact add_right_cancel whole

end Depth
end SlotTree

namespace Weighted

variable {bound root merged : ℕ} {start : Multiset (ℕ × ℕ)} {slot : ℕ → ℕ × ℕ} {child depth : ℕ → ℕ}

theorem leaf_entries (weighted : Weighted root merged start slot)
    (tree : SlotTree bound root merged (start.map Prod.snd) child) (same : ∀ t, (slot t).2 = child t) :
    (leafSlots bound root merged child).val.map slot = start := by
  have filtered := congrArg (Multiset.filter fun x => x.2 ≤ bound) weighted.entries
  have leaves : start.filter (fun x => x.2 ≤ bound) = start :=
    Multiset.filter_eq_self.mpr fun x member => tree.small x.2 (Multiset.mem_map_of_mem Prod.snd member)
  have nodes : (nodesAbove slot root merged).filter (fun x => x.2 ≤ bound) = 0 := by
    apply Multiset.filter_eq_nil.mpr
    intro x member
    obtain ⟨i, -, rfl⟩ := Multiset.mem_map.mp member
    have := tree.high
    change ¬root + 2 * (i + 1) ≤ bound
    omega
  rw [Multiset.filter_add, leaves, nodes, add_zero, Multiset.filter_map] at filtered
  rw [← filtered, leafSlots, Finset.filter_val]
  congr 1
  apply Multiset.filter_congr
  intro t _
  rw [Function.comp_apply, same]

theorem node_entries (weighted : Weighted root merged start slot)
    (tree : SlotTree bound root merged (start.map Prod.snd) child) (same : ∀ t, (slot t).2 = child t) :
    (nodeSlots bound root merged child).val.map slot = nodesAbove slot root merged := by
  have filtered := congrArg (Multiset.filter fun x => ¬x.2 ≤ bound) weighted.entries
  have leaves : start.filter (fun x => ¬x.2 ≤ bound) = 0 := by
    apply Multiset.filter_eq_nil.mpr
    intro x member
    exact not_not_intro (tree.small x.2 (Multiset.mem_map_of_mem Prod.snd member))
  have nodes : (nodesAbove slot root merged).filter (fun x => ¬x.2 ≤ bound) = nodesAbove slot root merged := by
    apply Multiset.filter_eq_self.mpr
    intro x member
    obtain ⟨i, -, rfl⟩ := Multiset.mem_map.mp member
    have := tree.high
    change ¬root + 2 * (i + 1) ≤ bound
    omega
  rw [Multiset.filter_add, leaves, nodes, zero_add, Multiset.filter_map] at filtered
  rw [← filtered, nodeSlots, Finset.filter_val]
  congr 1
  apply Multiset.filter_congr
  intro t _
  rw [Function.comp_apply, same]

/-- The cost of the depths is the total of the merged weights. -/
theorem depths_cost (weighted : Weighted root merged start slot)
    (tree : SlotTree bound root merged (start.map Prod.snd) child) (same : ∀ t, (slot t).2 = child t)
    (depths : Depths bound root merged child depth) :
    ∑ t ∈ leafSlots bound root merged child, (slot t).1 * depth t = ((nodesAbove slot root merged).map Prod.fst).sum := by
  have nodes := weighted.node_entries tree same
  have below : ∑ t ∈ nodeSlots bound root merged child, (slot t).1 * (depth t + 1) =
      ∑ i ∈ Finset.range merged, ((slot (root + 2 * (i + 1))).1 * depth (root + 2 * (i + 1)) +
        (slot (root + 2 * (i + 1) - 1)).1 * depth (root + 2 * (i + 1) - 1)) := by
    have mapped := congrArg (fun s => (s.map fun x : ℕ × ℕ => x.1 * depth x.2).sum) nodes
    simp only [nodesAbove, Multiset.map_map] at mapped
    calc ∑ t ∈ nodeSlots bound root merged child, (slot t).1 * (depth t + 1)
      _ = ∑ t ∈ nodeSlots bound root merged child, (slot t).1 * depth (slot t).2 := by
        apply Finset.sum_congr rfl
        intro t node
        rw [same, (depths.children t node).1]
      _ = ∑ i ∈ Finset.range merged, ((slot (root + 2 * (i + 1))).1 + (slot (root + 2 * (i + 1) - 1)).1) *
          depth (root + 2 * (i + 1)) := mapped
      _ = _ := by
        apply Finset.sum_congr rfl
        intro i inside
        obtain ⟨s, node, number, -⟩ := tree.exists_node (Finset.mem_range.mp inside)
        have levels := depths.children s node
        rw [number] at levels
        rw [levels.1, levels.2, Nat.add_mul]
  have whole := SlotTree.sum_split bound root merged child fun t => (slot t).1 * depth t
  have level : ∑ t ∈ nodeSlots bound root merged child, (slot t).1 * (depth t + 1) =
      ∑ t ∈ nodeSlots bound root merged child, (slot t).1 * depth t +
        ∑ t ∈ nodeSlots bound root merged child, (slot t).1 := by
    rw [← Finset.sum_add_distrib]
    apply Finset.sum_congr rfl
    intro t _
    exact Nat.mul_succ _ _
  rw [level, Finset.sum_add_distrib] at below
  rw [sum_slots, depths.top, Nat.mul_zero, Nat.zero_add, Finset.sum_add_distrib, ← below] at whole
  have weights : ((nodesAbove slot root merged).map Prod.fst).sum =
      ∑ t ∈ nodeSlots bound root merged child, (slot t).1 := by
    rw [← nodes, Multiset.map_map]
    rfl
  omega

/-- No lengths under Kraft's inequality cost less than the depths. -/
theorem depths_least (weighted : Weighted root merged start slot)
    (tree : SlotTree bound root merged (start.map Prod.snd) child) (same : ∀ t, (slot t).2 = child t)
    (depths : Depths bound root merged child depth) (p : Multiset (ℕ × ℕ))
    (weights : p.map Prod.fst = start.map Prod.fst) (fits : kraftSum p ≤ 1) :
    ∑ t ∈ leafSlots bound root merged child, (slot t).1 * depth t ≤ cost p := by
  rw [weighted.depths_cost tree same depths]
  exact weighted.merges.le p weights fits

end Weighted
end Isal.Huffman
