import Mathlib

/-! Huffman's construction on weights alone. Merging two least weights again and again gives a
total of merged weights that no assignment of lengths under Kraft's inequality falls below. -/
namespace Isal.Huffman

/-- Weights that are merged into one, two least ones each time, and the total of the merged. -/
inductive Merges : Multiset ℕ → ℕ → Prop
  | single (w : ℕ) : Merges {w} 0
  | merge {a b total : ℕ} {s : Multiset ℕ} (order : a ≤ b) (least : ∀ x ∈ s, b ≤ x)
      (rest : Merges ((a + b) ::ₘ s) total) : Merges (a ::ₘ b ::ₘ s) (total + (a + b))

/-- Of pairs of a weight and a length. -/
def cost (p : Multiset (ℕ × ℕ)) : ℕ := (p.map fun x => x.1 * x.2).sum

def kraftSum (p : Multiset (ℕ × ℕ)) : ℚ := (p.map fun x => (1 / 2 : ℚ) ^ x.2).sum

@[simp] theorem cost_cons (w l : ℕ) (p : Multiset (ℕ × ℕ)) : cost ((w, l) ::ₘ p) = w * l + cost p := by
  rw [cost, Multiset.map_cons, Multiset.sum_cons]
  rfl

@[simp] theorem kraftSum_cons (w l : ℕ) (p : Multiset (ℕ × ℕ)) :
    kraftSum ((w, l) ::ₘ p) = (1 / 2) ^ l + kraftSum p := by
  rw [kraftSum, Multiset.map_cons, Multiset.sum_cons]
  rfl

theorem kraftSum_eq (p : Multiset (ℕ × ℕ)) :
    kraftSum p = ((p.map Prod.snd).map fun l => (1 / 2 : ℚ) ^ l).sum := by
  rw [kraftSum, Multiset.map_map]
  rfl

theorem kraftSum_nonneg (p : Multiset (ℕ × ℕ)) : 0 ≤ kraftSum p := by
  apply Multiset.sum_nonneg
  intro x member
  obtain ⟨y, -, rfl⟩ := Multiset.mem_map.mp member
  positivity

/-- A least weight can take the greatest of the lengths. -/
theorem exists_longest {a : ℕ} (x : ℕ) (q : Multiset (ℕ × ℕ)) (least : ∀ z ∈ q, a ≤ z.1) :
    ∃ x' q', q'.map Prod.fst = q.map Prod.fst ∧
      x' ::ₘ q'.map Prod.snd = x ::ₘ q.map Prod.snd ∧
      a * x' + cost q' ≤ a * x + cost q ∧ ∀ z ∈ q', z.2 ≤ x' := by
  induction q using Multiset.induction_on with
  | empty => exact ⟨x, 0, rfl, rfl, le_refl _, by simp⟩
  | cons z q ih =>
    obtain ⟨w, l⟩ := z
    obtain ⟨x', q', weights, lengths, cheaper, longest⟩ :=
      ih fun z member => least z (Multiset.mem_cons_of_mem member)
    have heavier : a ≤ w := least _ (Multiset.mem_cons_self ..)
    simp only [Multiset.map_cons, cost_cons]
    by_cases short : l ≤ x'
    · refine ⟨x', (w, l) ::ₘ q', ?_, ?_, ?_, ?_⟩
      · rw [Multiset.map_cons, weights]
      · rw [Multiset.map_cons, Multiset.cons_swap, lengths, Multiset.cons_swap]
      · rw [cost_cons]
        omega
      · intro z member
        rcases Multiset.mem_cons.mp member with rfl | other
        · exact short
        · exact longest z other
    · refine ⟨l, (w, x') ::ₘ q', ?_, ?_, ?_, ?_⟩
      · rw [Multiset.map_cons, weights]
      · rw [Multiset.map_cons, lengths, Multiset.cons_swap]
      · rw [cost_cons]
        have exchange : a * l + w * x' ≤ a * x' + w * l := by
          obtain ⟨d, rfl⟩ := Nat.exists_eq_add_of_le heavier
          obtain ⟨e, rfl⟩ := Nat.exists_eq_add_of_le (Nat.le_of_not_le short)
          nlinarith [Nat.zero_le (d * e)]
        omega
      · intro z member
        rcases Multiset.mem_cons.mp member with rfl | other
        · exact Nat.le_of_not_le short
        · exact le_trans (longest z other) (Nat.le_of_not_le short)

/-- Lengths up to `y` take up a whole number of places of length `y`. -/
theorem kraftSum_places {y : ℕ} {q : Multiset (ℕ × ℕ)} (short : ∀ z ∈ q, z.2 ≤ y) :
    ∃ t : ℕ, kraftSum q = t * (1 / 2) ^ y := by
  induction q using Multiset.induction_on with
  | empty => exact ⟨0, by simp [kraftSum]⟩
  | cons z q ih =>
    obtain ⟨w, l⟩ := z
    obtain ⟨t, places⟩ := ih fun z member => short z (Multiset.mem_cons_of_mem member)
    have fits : l ≤ y := short _ (Multiset.mem_cons_self ..)
    refine ⟨2 ^ (y - l) + t, ?_⟩
    have split : (1 / 2 : ℚ) ^ l = 2 ^ (y - l) * (1 / 2) ^ y := by
      conv_rhs => rw [← Nat.sub_add_cancel fits, pow_add, ← mul_assoc, Nat.sub_add_cancel fits, ← mul_pow]
      norm_num
    rw [kraftSum_cons, places, split]
    push_cast
    ring

/-- What is longer than all others can be shortened to the next length. -/
theorem kraftSum_shorten {a x y : ℕ} {q : Multiset (ℕ × ℕ)} (short : ∀ z ∈ q, z.2 ≤ y)
    (fits : kraftSum ((a, x) ::ₘ q) ≤ 1) : kraftSum ((a, y) ::ₘ q) ≤ 1 := by
  obtain ⟨t, places⟩ := kraftSum_places short
  have power : (0 : ℚ) < (1 / 2) ^ y := by positivity
  have whole : (2 : ℚ) ^ y * (1 / 2) ^ y = 1 := by rw [← mul_pow]; norm_num
  have room : t < 2 ^ y := by
    by_contra full
    have many : (2 : ℚ) ^ y ≤ t := by exact_mod_cast Nat.le_of_not_lt full
    have positive : (0 : ℚ) < (1 / 2) ^ x := by positivity
    rw [kraftSum_cons, places] at fits
    have := mul_le_mul_of_nonneg_right many (le_of_lt power)
    linarith
  have next : (t : ℚ) + 1 ≤ 2 ^ y := by exact_mod_cast room
  have := mul_le_mul_of_nonneg_right next (le_of_lt power)
  rw [kraftSum_cons, places]
  linarith

theorem exists_cons_of_map {a : ℕ} {t : Multiset ℕ} {p : Multiset (ℕ × ℕ)} (weights : p.map Prod.fst = a ::ₘ t) :
    ∃ x q, p = (a, x) ::ₘ q ∧ q.map Prod.fst = t := by
  obtain ⟨⟨a', x⟩, member, same, rest⟩ := (Multiset.map_eq_cons _ _ _ _).mpr weights
  dsimp only at same
  subst same
  exact ⟨x, p.erase (a', x), (Multiset.cons_erase member).symm, rest⟩

/-- The merged weights cost no more than any lengths under Kraft's inequality. -/
theorem Merges.le {s : Multiset ℕ} {total : ℕ} (merges : Merges s total) (p : Multiset (ℕ × ℕ))
    (weights : p.map Prod.fst = s) (fits : kraftSum p ≤ 1) : total ≤ cost p := by
  induction merges generalizing p with
  | single w => exact Nat.zero_le _
  | @merge a b total s order least rest ih =>
    obtain ⟨x, q, rfl, others⟩ := exists_cons_of_map weights
    -- the two least weights get the two greatest lengths
    obtain ⟨x₁, q₁, weights₁, lengths₁, cheaper₁, longest₁⟩ := exists_longest (a := a) x q (by
      intro z member
      have inside : z.1 ∈ b ::ₘ s := others ▸ Multiset.mem_map_of_mem Prod.fst member
      rcases Multiset.mem_cons.mp inside with same | other
      · omega
      · exact le_trans order (least _ other))
    obtain ⟨y, r, rfl, weights₂⟩ := exists_cons_of_map (weights₁.trans others)
    obtain ⟨y₁, r₁, weights₃, lengths₃, cheaper₃, longest₃⟩ := exists_longest (a := b) y r (by
      intro z member
      exact least _ (weights₂ ▸ Multiset.mem_map_of_mem Prod.fst member))
    have sum₁ : kraftSum ((a, x₁) ::ₘ (b, y₁) ::ₘ r₁) = kraftSum ((a, x) ::ₘ q) := by
      have lens : ((a, x₁) ::ₘ (b, y₁) ::ₘ r₁).map Prod.snd = ((a, x) ::ₘ q).map Prod.snd := by
        rw [Multiset.map_cons, Multiset.map_cons, Multiset.map_cons, lengths₃, ← lengths₁, Multiset.map_cons]
      rw [kraftSum_eq, kraftSum_eq, lens]
    have fits₁ : kraftSum ((a, y₁) ::ₘ (b, y₁) ::ₘ r₁) ≤ 1 := by
      apply kraftSum_shorten (x := x₁)
      · intro z member
        rcases Multiset.mem_cons.mp member with rfl | other
        · exact le_refl _
        · exact longest₃ z other
      · rw [sum₁]
        exact fits
    have inside : y₁ ≤ x₁ := by
      have member : y₁ ∈ y ::ₘ r.map Prod.snd := lengths₃ ▸ Multiset.mem_cons_self ..
      rcases Multiset.mem_cons.mp member with rfl | other
      · exact longest₁ _ (Multiset.mem_cons_self ..)
      · obtain ⟨z, within, rfl⟩ := Multiset.mem_map.mp other
        exact longest₁ z (Multiset.mem_cons_of_mem within)
    obtain ⟨l, rfl⟩ : ∃ l, y₁ = l + 1 := by
      cases y₁ with
      | zero =>
        have := kraftSum_nonneg r₁
        rw [kraftSum_cons, kraftSum_cons, pow_zero] at fits₁
        linarith
      | succ l => exact ⟨l, rfl⟩
    -- their common length makes room for the merged weight one level higher
    have merged := ih ((a + b, l) ::ₘ r₁) (by rw [Multiset.map_cons, weights₃, weights₂]) (by
      simp only [kraftSum_cons, pow_succ] at fits₁ ⊢
      linarith)
    have shorter : a * (l + 1) ≤ a * x₁ := Nat.mul_le_mul_left a inside
    rw [cost_cons] at merged cheaper₁ ⊢
    calc total + (a + b) ≤ (a + b) * l + cost r₁ + (a + b) := Nat.add_le_add_right merged _
      _ = a * (l + 1) + (b * (l + 1) + cost r₁) := by ring
      _ ≤ a * x₁ + (b * y + cost r) := Nat.add_le_add shorter cheaper₃
      _ ≤ a * x + cost q := cheaper₁

/-- No codeword begins another one. -/
def PrefixFree (symbols : Finset ℕ) (code : ℕ → List Bool) : Prop :=
  ∀ s ∈ symbols, ∀ t ∈ symbols, s ≠ t → ¬code s <+: code t

section PrefixFree

variable {symbols : Finset ℕ} {code : ℕ → List Bool}

theorem PrefixFree.eq_of_append (free : PrefixFree symbols code) {v w : List Bool} (first : v ∈ symbols.image code)
    (second : w ∈ symbols.image code) {x y : List Bool} (same : v ++ x = w ++ y) : v = w := by
  obtain ⟨s, member, rfl⟩ := Finset.mem_image.mp first
  obtain ⟨t, member', rfl⟩ := Finset.mem_image.mp second
  by_cases equal : s = t
  · rw [equal]
  · rcases List.prefix_or_prefix_of_prefix (List.prefix_append (code s) x) (same ▸ List.prefix_append (code t) y) with
      begins | begins
    · exact absurd begins (free s member t member' equal)
    · exact absurd begins (free t member' s member (Ne.symm equal))

/-- With two symbols no codeword is empty. -/
theorem PrefixFree.ne_nil (free : PrefixFree symbols code) (two : 2 ≤ symbols.card) {w : List Bool}
    (member : w ∈ symbols.image code) : w ≠ [] := by
  rintro rfl
  obtain ⟨s, inside, empty⟩ := Finset.mem_image.mp member
  obtain ⟨t, other, different⟩ := Finset.exists_mem_ne (by omega : 1 < symbols.card) s
  apply free s inside t other (Ne.symm different)
  rw [empty]
  exact List.nil_prefix

theorem PrefixFree.uniquelyDecodable (free : PrefixFree symbols code) (two : 2 ≤ symbols.card) :
    InformationTheory.UniquelyDecodable (symbols.image code : Set (List Bool)) := by
  intro first
  induction first with
  | nil =>
    intro second _ members same
    cases second with
    | nil => rfl
    | cons w rest =>
      have empty := (List.append_eq_nil_iff.mp same.symm).1
      exact absurd empty (free.ne_nil two (Finset.mem_coe.mp (members w (List.mem_cons_self ..))))
  | cons v tail ih =>
    intro second members members' same
    cases second with
    | nil =>
      have empty := (List.append_eq_nil_iff.mp same).1
      exact absurd empty (free.ne_nil two (Finset.mem_coe.mp (members v (List.mem_cons_self ..))))
    | cons w rest =>
      rw [List.flatten_cons, List.flatten_cons] at same
      have equal := free.eq_of_append (Finset.mem_coe.mp (members v (List.mem_cons_self ..)))
        (Finset.mem_coe.mp (members' w (List.mem_cons_self ..))) same
      subst equal
      rw [ih rest (fun u member => members u (List.mem_cons_of_mem _ member))
        (fun u member => members' u (List.mem_cons_of_mem _ member)) (List.append_cancel_left same)]

/-- Kraft's inequality -/
theorem PrefixFree.kraft (free : PrefixFree symbols code) (two : 2 ≤ symbols.card) :
    ∑ s ∈ symbols, (1 / 2 : ℚ) ^ (code s).length ≤ 1 := by
  have real := InformationTheory.kraft_mcmillan_inequality (free.uniquelyDecodable two)
  have injective : Set.InjOn code symbols := by
    intro s member t member' same
    by_contra different
    exact free s member t member' different (same ▸ List.prefix_refl _)
  rw [Finset.sum_image injective, Fintype.card_bool] at real
  have cast : ((∑ s ∈ symbols, (1 / 2 : ℚ) ^ (code s).length : ℚ) : ℝ) =
      ∑ s ∈ symbols, (1 / (2 : ℕ) : ℝ) ^ (code s).length := by
    push_cast
    rfl
  rw [← cast] at real
  exact_mod_cast real

end PrefixFree
end Isal.Huffman
