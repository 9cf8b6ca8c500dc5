import Mathlib

/-! Items with a key and a cost, where the items of one key are paid for together at the
price of the dearest of them. Aligned items that are packed one after the other into
places of one size have the number of their place as the key; a pack then knows the total
from its open place alone. -/
namespace Isal.Grouping

section Total

variable {κ : Type u} [DecidableEq κ] {l l' : List (κ × Nat)} {k : κ} {c b : Nat}

/-- What the group with key `k` costs. -/
def dearest (items : List (κ × Nat)) (k : κ) : Nat :=
  ((items.filter (·.1 = k)).map (·.2)).foldr max 0

def keys (items : List (κ × Nat)) : Finset κ := (items.map (·.1)).toFinset

def total (items : List (κ × Nat)) : Nat := ∑ k ∈ keys items, dearest items k

theorem mem_keys : k ∈ keys l ↔ ∃ c, (k, c) ∈ l := by
  simp [keys]

theorem dearest_le_iff : dearest l k ≤ b ↔ ∀ c, (k, c) ∈ l → c ≤ b := by
  induction l with
  | nil => simp [dearest]
  | cons item l ih =>
    obtain ⟨k', c'⟩ := item
    by_cases same : k' = k
    · have first : dearest ((k', c') :: l) k = max c' (dearest l k) := by simp [dearest, same]
      rw [first, max_le_iff, ih]
      constructor
      · rintro ⟨here, later⟩ c member
        rcases List.mem_cons.mp member with equal | member
        · obtain ⟨-, rfl⟩ := Prod.mk.inj equal
          exact here
        · exact later c member
      · intro all
        exact ⟨all c' (by simp [same]), fun c member => all c (List.mem_cons_of_mem _ member)⟩
    · have first : dearest ((k', c') :: l) k = dearest l k := by simp [dearest, same]
      rw [first, ih]
      refine forall_congr' fun c => ?_
      simp [Ne.symm same]

theorem le_dearest (member : (k, c) ∈ l) : c ≤ dearest l k :=
  dearest_le_iff.mp (Nat.le_refl _) c member

theorem dearest_eq_zero (missing : k ∉ keys l) : dearest l k = 0 := by
  apply Nat.eq_zero_of_le_zero
  rw [dearest_le_iff]
  intro c member
  exact absurd (mem_keys.mpr ⟨c, member⟩) missing

theorem exists_dearest (h : k ∈ keys l) : (k, dearest l k) ∈ l := by
  obtain ⟨c, member⟩ := mem_keys.mp h
  by_contra none
  -- otherwise every cost is below the largest
  have positive : 0 < dearest l k := by
    rcases Nat.eq_zero_or_pos (dearest l k) with zero | positive
    · have := le_dearest member
      obtain rfl : c = 0 := by omega
      exact absurd (zero ▸ member) none
    · exact positive
  have smaller : dearest l k ≤ dearest l k - 1 := by
    rw [dearest_le_iff]
    intro c member
    have le := le_dearest member
    have ne : c ≠ dearest l k := by
      rintro rfl
      exact none member
    omega
  omega

theorem dearest_concat (k' : κ) :
    dearest (l ++ [(k, c)]) k' = if k' = k then max (dearest l k) c else dearest l k' := by
  apply le_antisymm
  · rw [dearest_le_iff]
    intro d member
    rw [List.mem_append, List.mem_singleton] at member
    rcases member with member | equal
    · have := le_dearest member
      split
      · rename_i same
        exact Nat.le_trans (same ▸ this) (Nat.le_max_left ..)
      · exact this
    · obtain ⟨rfl, rfl⟩ := Prod.mk.inj equal
      rw [if_pos rfl]
      exact Nat.le_max_right ..
  · split
    · rename_i same
      subst same
      apply Nat.max_le.mpr
      constructor
      · rw [dearest_le_iff]
        exact fun d member => le_dearest (List.mem_append_left _ member)
      · exact le_dearest (by simp)
    · rw [dearest_le_iff]
      exact fun d member => le_dearest (List.mem_append_left _ member)

theorem keys_concat : keys (l ++ [(k, c)]) = insert k (keys l) := by
  ext k'
  simp only [keys, List.map_append, List.map_cons, List.map_nil, List.toFinset_append, Finset.mem_union,
    List.mem_toFinset, List.mem_singleton, Finset.mem_insert]
  exact Or.comm

/-- An item more raises the cost of its own group. -/
theorem total_concat : total (l ++ [(k, c)]) + dearest l k = total l + max (dearest l k) c := by
  have others : ∀ s : Finset κ, k ∉ s → ∑ k' ∈ s, dearest (l ++ [(k, c)]) k' = ∑ k' ∈ s, dearest l k' := by
    intro s outside
    apply Finset.sum_congr rfl
    intro k' member
    rw [dearest_concat, if_neg]
    rintro rfl
    exact outside member
  have here : dearest (l ++ [(k, c)]) k = max (dearest l k) c := by rw [dearest_concat, if_pos rfl]
  rw [total, keys_concat, total]
  by_cases old : k ∈ keys l
  · rw [Finset.insert_eq_of_mem old, ← Finset.sum_erase_add _ _ old, ← Finset.sum_erase_add _ (dearest l) old,
      others _ (by simp), here]
    omega
  · rw [Finset.sum_insert old, others _ old, here, dearest_eq_zero old]
    omega

/-- The total depends on which items there are only. -/
theorem total_congr (same : ∀ item, item ∈ l ↔ item ∈ l') : total l = total l' := by
  have sameKeys : keys l = keys l' := by
    ext k
    simp only [mem_keys, same]
  rw [total, total, sameKeys]
  apply Finset.sum_congr rfl
  intro k _
  apply le_antisymm
  · rw [dearest_le_iff]
    exact fun c member => le_dearest ((same _).mp member)
  · rw [dearest_le_iff]
    exact fun c member => le_dearest ((same _).mpr member)

variable {κ' : Type v} [DecidableEq κ'] {f : κ → κ'}

/-- The same items under other keys. -/
def rename (f : κ → κ') (items : List (κ × Nat)) : List (κ' × Nat) := items.map fun item => (f item.1, item.2)

omit [DecidableEq κ] [DecidableEq κ'] in
theorem mem_rename {k' : κ'} : (k', c) ∈ rename f l ↔ ∃ k, (k, c) ∈ l ∧ f k = k' := by
  simp only [rename, List.mem_map, Prod.mk.injEq, Prod.exists]
  constructor
  · rintro ⟨k, c', member, same, rfl⟩
    exact ⟨k, member, same⟩
  · rintro ⟨k, member, same⟩
    exact ⟨k, c, member, same, rfl⟩

theorem keys_rename : keys (rename f l) = (keys l).image f := by
  ext k'
  simp [keys, rename]

theorem dearest_rename (injective : Set.InjOn f (keys l)) (h : k ∈ keys l) :
    dearest (rename f l) (f k) = dearest l k := by
  apply le_antisymm
  · rw [dearest_le_iff]
    intro c member
    obtain ⟨⟨k', c'⟩, old, equal⟩ := List.mem_map.mp member
    obtain ⟨same, rfl⟩ := Prod.mk.inj equal
    obtain rfl := injective (mem_keys.mpr ⟨c', old⟩) h same
    exact le_dearest old
  · rw [dearest_le_iff]
    intro c member
    exact le_dearest (List.mem_map.mpr ⟨(k, c), member, rfl⟩)

theorem total_rename (injective : Set.InjOn f (keys l)) : total (rename f l) = total l := by
  rw [total, keys_rename, Finset.sum_image injective, total]
  exact Finset.sum_congr rfl fun k member => dearest_rename injective member

/-- Renaming keeps what the groups but one cost. -/
theorem sum_rename_erase_le (injective : Set.InjOn f (keys l)) (k : κ) :
    ∑ x ∈ (keys (rename f l)).erase (f k), dearest (rename f l) x ≤ ∑ x ∈ (keys l).erase k, dearest l x := by
  have inside : (keys (rename f l)).erase (f k) ⊆ ((keys l).erase k).image f := by
    intro x member
    obtain ⟨other, member⟩ := Finset.mem_erase.mp member
    rw [keys_rename] at member
    obtain ⟨y, hy, rfl⟩ := Finset.mem_image.mp member
    refine Finset.mem_image_of_mem f (Finset.mem_erase.mpr ⟨?_, hy⟩)
    rintro rfl
    exact other rfl
  have apart : Set.InjOn f ((keys l).erase k : Finset κ) :=
    injective.mono (Finset.coe_subset.mpr (Finset.erase_subset ..))
  calc _ ≤ ∑ x ∈ ((keys l).erase k).image f, dearest (rename f l) x := Finset.sum_le_sum_of_subset inside
    _ = ∑ x ∈ (keys l).erase k, dearest (rename f l) (f x) := Finset.sum_image apart
    _ = _ := Finset.sum_congr rfl fun x member => dearest_rename injective (Finset.mem_of_mem_erase member)

end Total

/-- Aligned items packed into places of one size. -/
structure Pack where
  position : Nat
  /-- The cost of the places that are full. -/
  closed : Nat
  /-- The cost so far of the place that is not. -/
  opened : Nat

def Pack.put (size width cost : Nat) (p : Pack) : Pack :=
  if size ∣ p.position + width then ⟨p.position + width, p.closed + max p.opened cost, 0⟩
  else ⟨p.position + width, p.closed, max p.opened cost⟩

@[simp] theorem Pack.put_position (size width cost : Nat) (p : Pack) :
    (p.put size width cost).position = p.position + width := by
  rw [put]; split <;> rfl

theorem next_place {size width position : Nat} (positive : 0 < width) (fits : position % size + width ≤ size) :
    (position + width) / size = position / size + if size ∣ position + width then 1 else 0 := by
  have whole := Nat.div_add_mod' position size
  by_cases full : size ∣ position + width
  · obtain ⟨q, equal⟩ := full
    rw [if_pos ⟨q, equal⟩, equal, Nat.mul_div_cancel_left _ (by omega)]
    have low : position / size < q := by
      rw [Nat.div_lt_iff_lt_mul (by omega), Nat.mul_comm]
      omega
    have high : q ≤ position / size + 1 := by
      by_contra beyond
      have := Nat.mul_le_mul_left size (show position / size + 2 ≤ q by omega)
      rw [Nat.mul_comm size (_ + 2), Nat.add_mul] at this
      omega
    omega
  · rw [if_neg full, Nat.add_zero]
    have less : position % size + width < size := by
      refine lt_of_le_of_ne fits fun equal => full ?_
      refine Dvd.intro_left (position / size + 1) ?_
      rw [Nat.succ_mul]; omega
    apply Nat.div_eq_of_lt_le
    · omega
    · rw [Nat.succ_mul]; omega

/-- The items of the pack, each with the number of its place. -/
structure Packed (size : Nat) (items : List (Nat × Nat)) (p : Pack) : Prop where
  below : ∀ k ∈ keys items, k * size < p.position
  opened_eq : dearest items (p.position / size) = p.opened
  total_eq : total items = p.closed + p.opened

theorem Packed.start (size : Nat) {position : Nat} : Packed size [] ⟨position, 0, 0⟩ where
  below := by simp [keys]
  opened_eq := rfl
  total_eq := rfl

theorem Packed.put {size width : Nat} {items : List (Nat × Nat)} {p : Pack} (h : Packed size items p) (cost : Nat)
    (positive : 0 < width) (fits : p.position % size + width ≤ size) :
    Packed size (items ++ [(p.position / size, cost)]) (p.put size width cost) := by
  have whole := Nat.div_add_mod' p.position size
  have sum := total_concat (l := items) (k := p.position / size) (c := cost)
  rw [h.opened_eq, h.total_eq] at sum
  have below : ∀ k ∈ keys (items ++ [(p.position / size, cost)]), k * size < p.position + width := by
    intro k member
    rw [keys_concat, Finset.mem_insert] at member
    rcases member with rfl | old
    · omega
    · have := h.below k old
      omega
  by_cases full : size ∣ p.position + width
  · rw [Pack.put, if_pos full]
    refine ⟨below, ?_, by dsimp only; omega⟩
    -- the next place has no items yet
    apply dearest_eq_zero
    intro member
    have := below _ member
    rw [Nat.div_mul_cancel full] at this
    omega
  · rw [Pack.put, if_neg full]
    refine ⟨below, ?_, by dsimp only; omega⟩
    have same := next_place positive fits
    rw [if_neg full, Nat.add_zero] at same
    rw [same, dearest_concat, if_pos rfl, h.opened_eq]

/-- The places but the open one are full. -/
theorem Packed.others_le {size : Nat} {items : List (Nat × Nat)} {p : Pack} (h : Packed size items p) {k : Nat}
    (last : p.opened ≠ 0 → p.position / size = k) : ∑ x ∈ (keys items).erase k, dearest items x ≤ p.closed := by
  have parts : ∑ x ∈ (keys items).erase k, dearest items x + dearest items k = total items := by
    by_cases member : k ∈ keys items
    · exact Finset.sum_erase_add _ _ member
    · rw [Finset.erase_eq_of_notMem member, dearest_eq_zero member]
      rfl
  rw [h.total_eq] at parts
  by_cases none : p.opened = 0
  · omega
  · have same := h.opened_eq
    rw [last none] at same
    omega

end Isal.Grouping
