import Isal.SmallTables

/-! The literal/length code with the length extra bits expanded into it: every length of a
match has a code of its own, and the entries end up in order of that code's length. -/
namespace Isal.Inflate

open Isal.Bits Isal.Loops Isal.PrefixCode Isal.CountingSort

/-- The number of entries of a length symbol. -/
def lenSize (j : Nat) : Nat := 2 ^ (lenExtraBitCount[j]?.getD 0)

/-- Where the entries of a length symbol begin. -/
def expandedFrom : Nat → Nat
  | 0 => isalDefLitSymbols
  | j + 1 => expandedFrom j + lenSize j

/-- Extra bits of a symbol. -/
def extraWidth (s : Nat) : Nat := if s < 257 then 0 else lenExtraBitCount[s - 257]?.getD 0

def entryIndex (s e : Nat) : Nat := if s < 257 then s else expandedFrom (s - 257) + e

/-- Entry `i` stands for symbol `s` with the value `e` of its extra bits. -/
structure Entry (lens : List Nat) (i s e : Nat) : Prop where
  index : i = entryIndex s e
  legal : s < litLen
  extra : e < 2 ^ extraWidth s
  used : lengthOf lens s ≠ 0

def HasEntry (lens : List Nat) (i : Nat) : Prop := ∃ s e, Entry lens i s e

/-- The entry has the symbol's codeword followed by the extra bits. -/
def Expanded (table : Arr HuffCode) (lens : List Nat) (i s e : Nat) : Prop :=
  (table i).length = lengthOf lens s + extraWidth s ∧
    (table i).codeAndExtra = revBits (lengthOf lens s) (codeOf lens s) + e * 2 ^ lengthOf lens s

theorem extraWidth_le (s : Nat) : extraWidth s ≤ 5 := by
  have all : ∀ n ∈ lenExtraBitCount, n ≤ 5 := by decide
  rw [extraWidth]
  split
  · omega
  · by_cases inside : s - 257 < lenExtraBitCount.length
    · simp [inside]; exact all _ (List.getElem_mem _)
    · simp [List.getElem?_eq_none (Nat.le_of_not_lt inside)]

theorem expandedFrom_add {j k : Nat} (h : j < k) : expandedFrom j + lenSize j ≤ expandedFrom k := by
  induction k, h using Nat.le_induction with
  | base => exact Nat.le_refl _
  | succ k _ ih => rw [expandedFrom]; omega

theorem le_expandedFrom (j : Nat) : 257 ≤ expandedFrom j := by
  induction j with
  | zero => exact Nat.le_refl _
  | succ j ih => rw [expandedFrom]; omega

theorem entryIndex_inj {s e s' e' : Nat} (extra : e < 2 ^ extraWidth s) (extra' : e' < 2 ^ extraWidth s')
    (same : entryIndex s e = entryIndex s' e') : s = s' ∧ e = e' := by
  simp only [entryIndex, extraWidth] at same extra extra'
  split at same <;> split at same <;> rename_i low low'
  · simp only [low, low', if_true] at extra extra'
    omega
  · have := le_expandedFrom (s' - 257); omega
  · have := le_expandedFrom (s - 257); omega
  · simp only [low, low', if_false] at extra extra'
    rcases Nat.lt_trichotomy (s - 257) (s' - 257) with less | equal | greater
    · have := expandedFrom_add less
      simp only [lenSize] at this; omega
    · rw [equal] at same; omega
    · have := expandedFrom_add greater
      simp only [lenSize] at this; omega

variable {lens : List Nat} {table : Arr HuffCode}

theorem hit_entry_iff {i s e v : Nat} (entry : Entry lens i s e) (expanded : Expanded table lens i s e) :
    Hit table i v ↔ Matches lens s v ∧ v / 2 ^ lengthOf lens s % 2 ^ extraWidth s = e := by
  have small := revBits_lt (lengthOf lens s) (codeOf lens s)
  rw [Hit, expanded.1, expanded.2, Nat.pow_add, Nat.mod_mul]
  constructor
  · intro equal
    have low := congrArg (· % 2 ^ lengthOf lens s) equal
    have high := congrArg (· / 2 ^ lengthOf lens s) equal
    simp only [Nat.add_mul_mod_self_left, Nat.add_mul_mod_self_right, Nat.mod_mod, Nat.mod_eq_of_lt small] at low
    rw [Nat.add_mul_div_left _ _ (Nat.two_pow_pos _), Nat.add_mul_div_right _ _ (Nat.two_pow_pos _),
      Nat.div_eq_of_lt small, Nat.div_eq_of_lt (Nat.mod_lt _ (Nat.two_pow_pos _))] at high
    exact ⟨⟨entry.used, low⟩, by omega⟩
  · rintro ⟨next, extra⟩
    rw [next.low, extra, Nat.mul_comm]

theorem expanded_free (valid : Valid lens 15)
    (expanded : ∀ i s e, Entry lens i s e → Expanded table lens i s e) : PrefixFree table (HasEntry lens) where
  small := by
    rintro i ⟨s, e, entry⟩
    obtain ⟨length, code⟩ := expanded i s e entry
    have small := revBits_lt (lengthOf lens s) (codeOf lens s)
    rw [length, code, Nat.pow_add]
    calc revBits (lengthOf lens s) (codeOf lens s) + e * 2 ^ lengthOf lens s
        < (e + 1) * 2 ^ lengthOf lens s := by rw [Nat.succ_mul]; omega
      _ ≤ 2 ^ extraWidth s * 2 ^ lengthOf lens s := Nat.mul_le_mul_right _ entry.extra
      _ = _ := Nat.mul_comm ..
  apart := by
    rintro i j v ⟨s, e, entry⟩ ⟨t, f, entry'⟩ hit hit'
    have first := (hit_entry_iff entry (expanded i s e entry)).mp hit
    have second := (hit_entry_iff entry' (expanded j t f entry')).mp hit'
    obtain rfl := valid.matches_unique first.1 second.1
    rw [entry.index, entry'.index, ← first.2, ← second.2]

/-- The entries of the first `j` length symbols, with their lengths. -/
def lengthItems (lens : List Nat) : Nat → List (Nat × Nat)
  | 0 => []
  | j + 1 => lengthItems lens j ++
      if lengthOf lens (257 + j) = 0 then []
      else (List.range (lenSize j)).map fun e => (expandedFrom j + e, lengthOf lens (257 + j) + extraWidth (257 + j))

def entryItems (lens : List Nat) : List (Nat × Nat) := symbolItems lens 257 ++ lengthItems lens 29

theorem mem_lengthItems {j i n : Nat} : (i, n) ∈ lengthItems lens j ↔
    ∃ k e, k < j ∧ lengthOf lens (257 + k) ≠ 0 ∧ e < lenSize k ∧ i = expandedFrom k + e ∧
      n = lengthOf lens (257 + k) + extraWidth (257 + k) := by
  induction j with
  | zero => simp [lengthItems]
  | succ j ih =>
    rw [lengthItems, List.mem_append, ih]
    constructor
    · rintro (⟨k, e, less, rest⟩ | member)
      · exact ⟨k, e, by omega, rest⟩
      · split at member
        · simp at member
        · rename_i used
          obtain ⟨e, range, same⟩ := List.mem_map.mp member
          rw [Prod.mk.injEq] at same
          exact ⟨j, e, by omega, used, List.mem_range.mp range, same.1.symm, same.2.symm⟩
    · rintro ⟨k, e, less, used, range, rfl, rfl⟩
      rcases Nat.lt_succ_iff_lt_or_eq.mp less with old | rfl
      · exact Or.inl ⟨k, e, old, used, range, rfl, rfl⟩
      · right
        rw [if_neg used]
        exact List.mem_map.mpr ⟨e, List.mem_range.mpr range, rfl⟩

theorem mem_entryItems {i n : Nat} : (i, n) ∈ entryItems lens ↔
    ∃ s e, Entry lens i s e ∧ n = lengthOf lens s + extraWidth s := by
  rw [entryItems, List.mem_append, mem_symbolItems, mem_lengthItems]
  constructor
  · rintro (⟨small, used, rfl⟩ | ⟨k, e, less, used, range, rfl, rfl⟩)
    · refine ⟨i, 0, ⟨by simp [entryIndex, small], by simp only [litLen]; omega, Nat.two_pow_pos _, used⟩, ?_⟩
      simp [extraWidth, small]
    · refine ⟨257 + k, e, ⟨?_, by simp only [litLen]; omega, ?_, used⟩, rfl⟩
      · simp [entryIndex]
      · simpa [extraWidth, lenSize] using range
  · rintro ⟨s, e, ⟨rfl, legal, extra, used⟩, rfl⟩
    simp only [litLen] at legal
    by_cases small : s < 257
    · left
      simp only [entryIndex, extraWidth, small, if_true, Nat.add_zero, and_true]
      exact ⟨trivial, used⟩
    · right
      refine ⟨s - 257, e, by omega, ?_, ?_, by simp [entryIndex, small], ?_⟩
      · rwa [Nat.add_sub_cancel' (by omega)]
      · simpa [extraWidth, lenSize, small] using extra
      · rw [Nat.add_sub_cancel' (by omega)]

theorem entryItems_length (lens : List Nat) : (entryItems lens).length ≤ 514 := by
  have lengths : ∀ j, (lengthItems lens j).length + 257 ≤ expandedFrom j := by
    intro j
    induction j with
    | zero => simp [lengthItems, expandedFrom, isalDefLitSymbols]
    | succ j ih =>
      rw [lengthItems, expandedFrom, List.length_append]
      split <;> simp <;> omega
  have symbols : (symbolItems lens 257).length ≤ 257 := by
    rw [symbolItems, List.length_map]
    exact Nat.le_trans (List.length_filter_le ..) (by simp)
  have := lengths 29
  rw [show expandedFrom 29 = 514 by decide] at this
  rw [entryItems, List.length_append]
  omega

/-- The entries are listed in their order. -/
theorem entryItems_ascending (lens : List Nat) : ((entryItems lens).map (·.1)).Pairwise (· < ·) := by
  have symbols : ((symbolItems lens 257).map (·.1)).Pairwise (· < ·) := by
    rw [symbolItems, List.map_map]
    exact (List.pairwise_lt_range.filter _).map _ fun a b order => order
  have lengths : ∀ j, ((lengthItems lens j).map (·.1)).Pairwise (· < ·) := by
    intro j
    induction j with
    | zero => simp [lengthItems]
    | succ j ih =>
      rw [lengthItems, List.map_append, List.pairwise_append]
      refine ⟨ih, ?_, ?_⟩
      · split
        · simp
        · rw [List.map_map]
          exact List.pairwise_lt_range.map _ fun a b order => Nat.add_lt_add_left order _
      · intro x hx y hy
        obtain ⟨⟨x, n⟩, member, rfl⟩ := List.mem_map.mp hx
        obtain ⟨k, e, less, -, extra, rfl, -⟩ := mem_lengthItems.mp member
        split at hy
        · simp at hy
        · obtain ⟨⟨y, m⟩, member', rfl⟩ := List.mem_map.mp hy
          obtain ⟨f, -, same⟩ := List.mem_map.mp member'
          have := expandedFrom_add less
          have := (Prod.mk.inj same).1
          simp only
          omega
  rw [entryItems, List.map_append, List.pairwise_append]
  refine ⟨symbols, lengths 29, ?_⟩
  intro x hx y hy
  obtain ⟨⟨x, n⟩, member, rfl⟩ := List.mem_map.mp hx
  obtain ⟨small, -⟩ := mem_symbolItems.mp member
  obtain ⟨⟨y, m⟩, member', rfl⟩ := List.mem_map.mp hy
  obtain ⟨k, e, -, -, -, rfl, -⟩ := mem_lengthItems.mp member'
  have := le_expandedFrom k
  simp only
  omega

/-- The number of items with a key from 1 to `n`. -/
def itemsUpTo (items : List (Nat × Nat)) (n : Nat) : Nat := items.countP fun item => 1 ≤ item.2 ∧ item.2 ≤ n

theorem itemsUpTo_zero (items : List (Nat × Nat)) : itemsUpTo items 0 = 0 := by
  rw [itemsUpTo, List.countP_eq_zero]
  intro item _
  rw [decide_eq_true_eq]
  omega

theorem itemsUpTo_succ (items : List (Nat × Nat)) (n : Nat) :
    itemsUpTo items (n + 1) = itemsUpTo items n + (keyed items (n + 1)).length := by
  induction items with
  | nil => rfl
  | cons item items ih =>
    obtain ⟨a, key⟩ := item
    rw [keyed_cons, List.length_append]
    simp only [itemsUpTo, List.countP_cons] at ih ⊢
    rw [ih]
    by_cases same : key = n + 1
    · simp [same]; omega
    · by_cases inside : 1 ≤ key ∧ key ≤ n
      · simp [inside, same, show key ≤ n + 1 by omega]; omega
      · simp only [inside, same, if_false, show ¬(1 ≤ key ∧ key ≤ n + 1) by omega, decide_false,
          Bool.false_eq_true, List.length_nil]
        omega

/-- The two histograms, added modulo `2 ^ 16`, count the entries by length. -/
def ExpandCounts (count expandCount : Arr Nat) (lens : List Nat) : Prop :=
  ∀ n, 1 ≤ n → n ≤ 21 →
    ((if n ≤ 15 then count n else 0) + expandCount n) % 2 ^ 16 = (keyed (entryItems lens) n).length % 2 ^ 16

variable {count expandCount : Arr Nat}

/-- The sum that `accumulateCounts` keeps. -/
def summed (count expandCount : Arr Nat) : Nat → Nat
  | 0 => 0
  | n + 1 => summed count expandCount n + ((if n + 1 ≤ 15 then count (n + 1) else 0) + expandCount (n + 1))

theorem accumulateCounts_summed {n : Nat} (low : 1 ≤ n) (high : n ≤ 22) :
    accumulateCounts count expandCount n = summed count expandCount (n - 1) % 2 ^ 16 := by
  let Sums (i : Nat) (s : PrefixCount) : Prop :=
    s.countTotal = summed count expandCount (i - 1) ∧ (∀ k, i < k → s.expandCount k = expandCount k) ∧
      ∀ k, 1 ≤ k → k ≤ i → s.expandCount k = summed count expandCount (k - 1) % 2 ^ 16
  have round : ∀ added i s, 1 ≤ i → added + s.countTmp = (if i ≤ 15 then count i else 0) + expandCount i →
      Sums i s → Sums (i + 1) (accumulate added i s) ∧ (accumulate added i s).countTmp = expandCount (i + 1) := by
    rintro added i s low sum ⟨total, later, done⟩
    have next : summed count expandCount i = added + s.countTmp + s.countTotal := by
      obtain ⟨m, rfl⟩ : ∃ m, i = m + 1 := ⟨i - 1, by omega⟩
      rw [summed, total, Nat.add_sub_cancel, sum, Nat.add_comm]
    refine ⟨⟨by simp [accumulate, next], ?_, ?_⟩, by simp only [accumulate]; exact later _ (by omega)⟩
    · intro k less
      simp only [accumulate]
      rw [Arr.set_other (by omega), later k (by omega)]
    · intro k low' upTo
      simp only [accumulate]
      rw [Arr.set_get]
      split
      · rename_i same; subst same; rw [← next, Nat.add_sub_cancel]
      · exact done k low' (by omega)
  have first := forRange_invariant (a := 1) (b := maxHuffTreeDepth)
    (f := fun i => accumulate (count i) i)
    (s := ⟨0, expandCount 1, (expandCount.set 0 0).set 1 0⟩)
    (fun i s => Sums i s ∧ s.countTmp = expandCount i) (by decide)
    ⟨⟨rfl, fun k less => by rw [Arr.set_other (by omega), Arr.set_other (by omega)],
      fun k low upTo => by rw [show k = 1 by omega, Arr.set_self]; rfl⟩, rfl⟩
    (by
      rintro i s low upper ⟨sums, tmp⟩
      simp only [maxHuffTreeDepth] at upper
      exact round _ _ _ low (by rw [tmp, if_pos (by omega)]) sums)
  have second := forRange_invariant (a := maxHuffTreeDepth) (b := maxLitLenCount - 1)
    (f := accumulate 0)
    (s := { forRange 1 maxHuffTreeDepth (fun i => accumulate (count i) i)
        ⟨0, expandCount 1, (expandCount.set 0 0).set 1 0⟩ with
      countTmp := count maxHuffTreeDepth + (forRange 1 maxHuffTreeDepth (fun i => accumulate (count i) i)
        ⟨0, expandCount 1, (expandCount.set 0 0).set 1 0⟩).countTmp })
    (fun i s => Sums i s ∧ s.countTmp = (if i ≤ 15 then count i else 0) + expandCount i) (by decide)
    ⟨first.1, by rw [if_pos (by decide)]; exact congrArg _ first.2⟩
    (by
      rintro i s low upper ⟨sums, tmp⟩
      simp only [maxHuffTreeDepth] at low
      obtain ⟨sums, tmp⟩ := round 0 i s (by omega) (by rw [tmp, Nat.zero_add]) sums
      exact ⟨sums, by rw [tmp, if_neg (by omega), Nat.zero_add]⟩)
  exact second.1.2.2 n low (by simp only [maxLitLenCount]; omega)

/-- Few entries: the 16-bit sums are exact. -/
theorem accumulateCounts_eq (counts : ExpandCounts count expandCount lens) {n : Nat} (low : 1 ≤ n)
    (high : n ≤ 22) : accumulateCounts count expandCount n = itemsUpTo (entryItems lens) (n - 1) := by
  have congruent : ∀ k, k ≤ 21 →
      summed count expandCount k % 2 ^ 16 = itemsUpTo (entryItems lens) k % 2 ^ 16 := by
    intro k small
    induction k with
    | zero => rw [itemsUpTo_zero]; rfl
    | succ k ih =>
      have here := counts (k + 1) (by omega) small
      rw [summed, itemsUpTo_succ, Nat.add_mod, ih (by omega), here, ← Nat.add_mod]
  have few := Nat.le_trans (List.countP_le_length (p := fun item : Nat × Nat => 1 ≤ item.2 ∧ item.2 ≤ n - 1))
    (entryItems_length lens)
  rw [accumulateCounts_summed low high, congruent _ (by omega), Nat.mod_eq_of_lt]
  simp only [itemsUpTo]
  omega

theorem keyed_entryItems {n : Nat} (nonempty : keyed (entryItems lens) n ≠ []) (valid : Valid lens 15) :
    1 ≤ n ∧ n ≤ 20 := by
  obtain ⟨i, member⟩ := List.exists_mem_of_ne_nil _ nonempty
  obtain ⟨s, e, entry, rfl⟩ := mem_entryItems.mp (mem_keyed.mp member)
  have := entry.used
  have := valid.length_le s
  have := extraWidth_le s
  omega

theorem itemsUpTo_mono (items : List (Nat × Nat)) {m n : Nat} (h : m ≤ n) :
    itemsUpTo items m ≤ itemsUpTo items n := by
  induction n, h using Nat.le_induction with
  | base => exact Nat.le_refl _
  | succ n _ ih => rw [itemsUpTo_succ]; omega

theorem accumulateCounts_succ (counts : ExpandCounts count expandCount lens) {n : Nat} (low : 1 ≤ n)
    (high : n ≤ 21) : accumulateCounts count expandCount (n + 1) =
      accumulateCounts count expandCount n + (keyed (entryItems lens) n).length := by
  obtain ⟨m, rfl⟩ : ∃ m, n = m + 1 := ⟨n - 1, by omega⟩
  rw [accumulateCounts_eq counts (by omega) (by omega), accumulateCounts_eq counts (by omega) (by omega),
    Nat.add_sub_cancel, Nat.add_sub_cancel, itemsUpTo_succ]

theorem entryItems_room (counts : ExpandCounts count expandCount lens) (valid : Valid lens 15) :
    Room (accumulateCounts count expandCount).get (entryItems lens) := by
  intro k k' less some_ nonempty
  have low := keyed_entryItems some_ valid
  have high := keyed_entryItems nonempty valid
  rw [← accumulateCounts_succ counts (by omega) (by omega), accumulateCounts_eq counts (by omega) (by omega),
    accumulateCounts_eq counts (by omega) (by omega)]
  exact itemsUpTo_mono _ (by omega)

theorem itemsUpTo_le (items : List (Nat × Nat)) (n : Nat) : itemsUpTo items n ≤ items.length := List.countP_le_length

/-- The list has room for the entries of every length. -/
theorem entryItems_end (counts : ExpandCounts count expandCount lens) (valid : Valid lens 15) {k : Nat}
    (nonempty : keyed (entryItems lens) k ≠ []) :
    accumulateCounts count expandCount k + (keyed (entryItems lens) k).length ≤ litLenElems := by
  have inside := keyed_entryItems nonempty valid
  have few := entryItems_length lens
  have upTo := itemsUpTo_le (entryItems lens) k
  rw [← accumulateCounts_succ counts (by omega) (by omega), accumulateCounts_eq counts (by omega) (by omega),
    Nat.add_sub_cancel, litLenElems]
  omega

theorem lengthItems_append (lens : List Nat) {i j : Nat} (h : i ≤ j) : lengthItems lens i <+: lengthItems lens j := by
  induction j, h using Nat.le_induction with
  | base => exact List.prefix_rfl
  | succ j _ ih => rw [lengthItems]; exact ih.trans (List.prefix_append ..)

/-- The literals have been given codes and sorted up to `i`. -/
structure Literals (lens : List Nat) (cleared : Arr HuffCode) (base : Arr Nat) (i : Nat) (s : Expansion) : Prop where
  assigning : Assigning lens cleared i s.assigned
  placed : Placed base.get (symbolItems lens i) s.expandCount s.codeList
  beyond : ∀ p, litLenElems ≤ p → s.codeList p = 0

/-- So have the first `j` length symbols. -/
structure Lengths (lens : List Nat) (base : Arr Nat) (j : Nat) (s : Expansion × Nat) : Prop where
  next : s.2 = expandedFrom j
  nextCode : ∀ n, 1 ≤ n → n ≤ 15 → s.1.assigned.nextCode n = start lens n + (lens.take (257 + j)).count n
  expanded : ∀ i t e, Entry lens i t e → t < 257 + j → Expanded s.1.assigned.table lens i t e
  placed : Placed base.get (symbolItems lens 257 ++ lengthItems lens j) s.1.expandCount s.1.codeList
  beyond : ∀ p, litLenElems ≤ p → s.1.codeList p = 0

theorem Literals.step {cleared : Arr HuffCode} {base : Arr Nat} {i : Nat} {s : Expansion} (h : Literals lens cleared base i s)
    (valid : Valid lens 15) (small : i < 257) (length : (cleared i).length = lengthOf lens i)
    (room : Room base.get (entryItems lens))
    (ends : ∀ k, keyed (entryItems lens) k ≠ [] → base k + (keyed (entryItems lens) k).length ≤ litLenElems) :
    Literals lens cleared base (i + 1) (expandLiteral i s) := by
  have assigning := h.assigning.step valid length
  have here : (s.assigned.table i).length = lengthOf lens i := by rw [h.assigning.rest i (Nat.le_refl _), length]
  rw [expandLiteral]
  simp only [here]
  by_cases unused : lengthOf lens i = 0
  · rw [if_pos unused]
    refine ⟨?_, by simpa [symbolItems_succ, unused] using h.placed, h.beyond⟩
    rwa [assignCode, here, if_pos unused] at assigning
  · rw [if_neg unused]
    have items := symbolItems_succ lens i
    rw [if_neg unused] at items
    have part : symbolItems lens i ++ [(i, lengthOf lens i)] <+: entryItems lens := by
      rw [← items]
      exact (symbolItems_append lens small).trans (List.prefix_append ..)
    refine ⟨assigning, ?_, ?_⟩
    · simp only
      rw [items]
      exact h.placed.push i _ part room
    · intro p high
      simp only
      rw [Arr.set_other, h.beyond p high]
      have := h.placed.cursor_lt part ends
      omega

/-- The first `e` entries of length symbol `j` have been written. -/
structure Writing (lens : List Nat) (base : Arr Nat) (j : Nat) (s : Expansion) (e : Nat)
    (t : Arr HuffCode × Arr Nat) : Prop where
  written : ∀ k, k < e → t.1 (expandedFrom j + k) =
    ⟨revBits (lengthOf lens (257 + j)) (codeOf lens (257 + j)) + k * 2 ^ lengthOf lens (257 + j),
      lengthOf lens (257 + j) + extraWidth (257 + j)⟩
  kept : ∀ i, (∀ k, k < e → i ≠ expandedFrom j + k) → t.1 i = s.assigned.table i
  placed : Placed base.get (symbolItems lens 257 ++ lengthItems lens j ++
      (List.range e).map fun k => (expandedFrom j + k, lengthOf lens (257 + j) + extraWidth (257 + j)))
    (s.expandCount.set (lengthOf lens (257 + j) + extraWidth (257 + j))
      (s.expandCount (lengthOf lens (257 + j) + extraWidth (257 + j)) + e)) t.2
  beyond : ∀ p, litLenElems ≤ p → t.2 p = 0

theorem extraWidth_length (j : Nat) : extraWidth (257 + j) = lenExtraBitCount[j]?.getD 0 := by
  simp [extraWidth]

theorem Lengths.step {base : Arr Nat} {tmpTable : Arr HuffCode} {j : Nat} {s : Expansion × Nat}
    (h : Lengths lens base j s) (valid : Valid lens 15) (small : j < 29)
    (length : (tmpTable j).length = lengthOf lens (257 + j)) (room : Room base.get (entryItems lens))
    (ends : ∀ k, keyed (entryItems lens) k ≠ [] → base k + (keyed (entryItems lens) k).length ≤ litLenElems) :
    Lengths lens base (j + 1) (expandLength tmpTable j s) := by
  obtain ⟨s, expandNext⟩ := s
  obtain ⟨rfl, nextCode, expanded, placed, beyond⟩ := h
  have size : 1 <<< (lenExtraBitCount[j]?.getD 0) = lenSize j := Nat.one_shiftLeft _
  have bounded := valid.length_le (257 + j)
  have wide := extraWidth_le (257 + j)
  have pre := (lengthItems_append lens (show j + 1 ≤ 29 from small))
  rw [lengthItems] at pre
  simp only [expandLength, length, size]
  by_cases unused : lengthOf lens (257 + j) = 0
  · rw [if_pos unused]
    refine ⟨rfl, fun n low high => ?_, fun i t e entry below => ?_, by simpa [lengthItems, unused] using placed, beyond⟩
    · rw [nextCode n low high, ← Nat.add_assoc, count_take_succ lens _ n low, if_neg (by omega), Nat.add_zero]
    · refine expanded i t e entry ?_
      by_contra
      obtain rfl : t = 257 + j := by omega
      exact entry.used unused
  · rw [if_neg unused] at pre ⊢
    have code : s.assigned.nextCode (lengthOf lens (257 + j)) = codeOf lens (257 + j) := by
      rw [nextCode _ (by omega) bounded, codeOf]
    have small16 := codeOf_lt_16 valid unused
    have codeSmall := revBits_lt (lengthOf lens (257 + j)) (codeOf lens (257 + j))
    simp only [code, bitReverse2_eq small16 (show lengthOf lens (257 + j) ≤ 16 by omega), ← extraWidth_length]
    have run := forRange_invariant (a := 0) (b := lenSize j)
      (f := fun extra (t : Arr HuffCode × Arr Nat) =>
        (t.1.set (expandedFrom j + extra) (writeHuffCode
            (revBits (lengthOf lens (257 + j)) (codeOf lens (257 + j)) ||| extra <<< lengthOf lens (257 + j))
            (lengthOf lens (257 + j) + extraWidth (257 + j))),
          t.2.set (s.expandCount (lengthOf lens (257 + j) + extraWidth (257 + j)) + extra) (expandedFrom j + extra)))
      (s := (s.assigned.table, s.codeList)) (Writing lens base j s) (Nat.zero_le _)
      ⟨by simp, fun _ _ => rfl, by simpa [Arr.set_same] using placed, beyond⟩
      (by
        rintro e ⟨table, list⟩ _ inside ⟨written, kept, placed, beyond⟩
        have part : symbolItems lens 257 ++ lengthItems lens j ++
            ((List.range e).map fun k => (expandedFrom j + k, lengthOf lens (257 + j) + extraWidth (257 + j))) ++
            [(expandedFrom j + e, lengthOf lens (257 + j) + extraWidth (257 + j))] <+: entryItems lens := by
          refine List.IsPrefix.trans ?_ ((List.prefix_append_right_inj (symbolItems lens 257)).mpr pre)
          rw [List.append_assoc, List.append_assoc, List.prefix_append_right_inj, List.prefix_append_right_inj]
          have first : List.range (e + 1) <+: List.range (lenSize j) := by
            rw [List.prefix_iff_eq_take, List.length_range, List.take_range, Nat.min_eq_left inside]
          simpa [List.range_succ] using first.map
            (fun k => (expandedFrom j + k, lengthOf lens (257 + j) + extraWidth (257 + j)))
        constructor
        · intro k upTo
          simp only
          rw [Arr.set_get]
          split
          · rename_i same
            obtain rfl : k = e := by omega
            have fits : revBits (lengthOf lens (257 + j)) (codeOf lens (257 + j)) +
                k * 2 ^ lengthOf lens (257 + j) < 2 ^ 24 := by
              have extra : k + 1 ≤ 2 ^ 5 := Nat.le_trans inside (Nat.pow_le_pow_right (by omega)
                (by rw [← extraWidth_length]; exact wide))
              calc _ < (k + 1) * 2 ^ lengthOf lens (257 + j) := by rw [Nat.succ_mul]; omega
                _ ≤ 2 ^ 5 * 2 ^ lengthOf lens (257 + j) := Nat.mul_le_mul_right _ extra
                _ ≤ 2 ^ 24 := by
                  rw [← Nat.pow_add]; exact Nat.pow_le_pow_right (by omega) (by omega)
            rw [writeHuffCode, or_shiftLeft codeSmall, Nat.mod_eq_of_lt fits]
          · exact written k (by omega)
        · intro i apart
          simp only
          rw [Arr.set_other (apart e (Nat.lt_succ_self e)), kept i fun k less => apart k (by omega)]
        · have next := placed.push (expandedFrom j + e) (lengthOf lens (257 + j) + extraWidth (257 + j)) part room
          rw [Arr.set_self, Arr.set_set] at next
          rw [List.range_succ, List.map_append, ← List.append_assoc]
          exact next
        · intro p high
          have := placed.cursor_lt part ends
          rw [Arr.set_self] at this
          simp only
          rw [Arr.set_other (by omega), beyond p high])
    generalize forRange 0 (lenSize j) _ _ = t at run
    refine ⟨rfl, fun n low high => ?_, fun i t' e entry below => ?_, ?_, ?_⟩
    · simp only
      rw [Arr.set_get, ← Nat.add_assoc, count_take_succ lens _ n low]
      by_cases same : n = lengthOf lens (257 + j)
      · rw [if_pos same, if_pos same.symm, same, codeOf]; omega
      · rw [if_neg same, if_neg (Ne.symm same), nextCode n low high, Nat.add_zero]
    · have index := entry.index
      by_cases old : t' < 257 + j
      · have same : t.1 i = s.assigned.table i := by
          refine run.kept i fun k inside equal => ?_
          have other : expandedFrom j + k = entryIndex (257 + j) k := by simp [entryIndex]
          rw [index, other] at equal
          have := (entryIndex_inj entry.extra (by rwa [extraWidth_length]) equal).1
          omega
        simp only [Expanded, same]
        exact expanded i t' e entry old
      · obtain rfl : t' = 257 + j := by omega
        have inside : e < lenSize j := by have := entry.extra; rwa [extraWidth_length] at this
        have at_ : i = expandedFrom j + e := by rw [index]; simp [entryIndex]
        simp only [Expanded, at_, run.written e inside, and_self]
    · simp only
      rw [lengthItems, if_neg unused, ← List.append_assoc]
      exact run.placed
    · exact run.beyond

theorem expanded_sorted (valid : Valid lens 15) (counts : ExpandCounts count expandCount lens) {codeList cursor : Arr Nat}
    (expanded : ∀ i s e, Entry lens i s e → Expanded table lens i s e)
    (placed : Placed (accumulateCounts count expandCount).get (entryItems lens) cursor codeList) :
    SortedCodes ⟨table, codeList, accumulateCounts count expandCount⟩ (HasEntry lens) 21 where
  first := (accumulateCounts_eq counts (Nat.le_refl 1) (by omega)).trans (itemsUpTo_zero _)
  mono n low high := by
    simp only [accumulateCounts_succ counts low high]
    exact Nat.le_add_right ..
  listed n p low high lower upper := by
    simp only at lower upper ⊢
    rw [accumulateCounts_succ counts low high] at upper
    obtain ⟨s, e, entry, length⟩ := mem_entryItems.mp (placed.listed lower upper)
    exact ⟨⟨s, e, entry⟩, by rw [(expanded _ s e entry).1, length]⟩
  found := by
    rintro i ⟨s, e, entry⟩
    have := entry.used
    have bounded := valid.length_le s
    have wide := extraWidth_le s
    obtain ⟨p, lower, upper, at_⟩ := placed.found (mem_entryItems.mpr ⟨s, e, entry, rfl⟩)
    simp only [(expanded i s e entry).1]
    exact ⟨p, lower, by rw [accumulateCounts_succ counts (by omega) (by omega)]; exact upper, at_⟩
  bounded := by
    rintro i ⟨s, e, entry⟩
    have := entry.used
    have bounded := valid.length_le s
    have wide := extraWidth_le s
    simp only [(expanded i s e entry).1]
    omega

/-- Every entry gets its code and its place in the list, unless the lengths are oversubscribed. -/
theorem setAndExpand_placed (tableLength : Nat) (lengths : HasLengths table litLen lens)
    (bounded : ∀ n ∈ lens, n ≤ 15) (counts : Counts count lens) (expandCounts : ExpandCounts count expandCount lens) :
    (setAndExpandLitLenHuffcode table tableLength count expandCount = none ∧ 2 ^ 15 < kraft lens 15) ∨
      ∃ codes, setAndExpandLitLenHuffcode table tableLength count expandCount = some codes ∧ Valid lens 15 ∧
        codes.countTotal = accumulateCounts count expandCount ∧
        (∃ cursor, Placed codes.countTotal.get (entryItems lens) cursor codes.codeList) ∧
        (∀ p, litLenElems ≤ p → codes.codeList p = 0) ∧
        ∀ i s e, Entry lens i s e → Expanded codes.table lens i s e := by
  have total : firstCodes count maxHuffTreeDepth +
      (if litLen < tableLength then count.set 8 ((count 8 + (2 ^ 16 - 2)) % 2 ^ 16) else count) maxHuffTreeDepth =
        kraft lens 15 := by
    have same : (if litLen < tableLength then count.set 8 ((count 8 + (2 ^ 16 - 2)) % 2 ^ 16) else count)
        maxHuffTreeDepth = count maxHuffTreeDepth := by
      split
      · exact Arr.set_other (by decide)
      · rfl
    rw [same, ← start_add_count bounded, firstCodes_eq counts (by decide), counts _ (by decide) (by decide)]
    rfl
  simp only [setAndExpandLitLenHuffcode, total]
  by_cases excess : 2 ^ 15 < kraft lens 15
  · left
    rw [if_pos (by simpa [maxHuffTreeDepth] using excess)]
    exact ⟨rfl, excess⟩
  · right
    have valid : Valid lens 15 := ⟨bounded, by omega⟩
    have room := entryItems_room expandCounts valid
    have ends := fun k => entryItems_end expandCounts valid (k := k)
    rw [if_neg (by simpa [maxHuffTreeDepth] using excess)]
    have literals := forRange_invariant (a := 0) (b := isalDefLitSymbols) (f := expandLiteral)
      (s := ⟨⟨table.fill isalDefLitSymbols (litLenElems - isalDefLitSymbols) {}, firstCodes count⟩,
        accumulateCounts count expandCount, .const 0⟩)
      (Literals lens (table.fill isalDefLitSymbols (litLenElems - isalDefLitSymbols) {})
        (accumulateCounts count expandCount)) (Nat.zero_le _)
      ⟨⟨by simp, fun _ _ => rfl, fun n _ high => by simp [firstCodes_eq counts high]⟩,
        by simpa [symbolItems] using Placed.empty _ _, fun _ _ => rfl⟩
      (fun i s _ small h => by
        simp only [isalDefLitSymbols] at small
        refine h.step valid small ?_ room ends
        rw [Arr.fill_get, if_neg (by simp only [isalDefLitSymbols]; omega), lengths i (by simp only [litLen]; omega)])
    generalize forRange 0 isalDefLitSymbols expandLiteral _ = s at literals
    have lens_ := forRange_invariant (a := 0) (b := litLen - isalDefLitSymbols)
      (f := expandLength (table.from_ isalDefLitSymbols)) (s := (s, isalDefLitSymbols))
      (Lengths lens (accumulateCounts count expandCount)) (Nat.zero_le _)
      ⟨rfl, literals.assigning.next, fun i t e entry below => by
          have small : t < 257 := by omega
          obtain ⟨length, code⟩ := literals.assigning.done t small
          obtain rfl : i = t := by rw [entry.index, entryIndex, if_pos small]
          have zero : e = 0 := by have := entry.extra; simp [extraWidth, small] at this; exact this
          simp only [Expanded, length, code entry.used, zero, extraWidth, small, if_true, Nat.add_zero, Nat.zero_mul,
            and_self],
        by simpa [lengthItems, isalDefLitSymbols] using literals.placed, literals.beyond⟩
      (fun j s _ small h => by
        simp only [litLen, isalDefLitSymbols] at small
        refine h.step valid small ?_ room ends
        rw [Arr.from_get, lengths _ (by simp only [litLen, isalDefLitSymbols]; omega)]
        rfl)
    refine ⟨_, rfl, valid, rfl, ⟨_, lens_.placed⟩, lens_.beyond, ?_⟩
    exact fun i t e entry => lens_.expanded i t e entry (by have := entry.legal; simp only [litLen] at this; exact this)

/-- The literal/length code is expanded and sorted, unless its lengths are oversubscribed. -/
theorem setAndExpand_spec (tableLength : Nat) (lengths : HasLengths table litLen lens)
    (bounded : ∀ n ∈ lens, n ≤ 15) (counts : Counts count lens) (expandCounts : ExpandCounts count expandCount lens) :
    (setAndExpandLitLenHuffcode table tableLength count expandCount = none ∧ 2 ^ 15 < kraft lens 15) ∨
      ∃ codes, setAndExpandLitLenHuffcode table tableLength count expandCount = some codes ∧ Valid lens 15 ∧
        SortedCodes codes (HasEntry lens) 21 ∧ ∀ i s e, Entry lens i s e → Expanded codes.table lens i s e := by
  rcases setAndExpand_placed tableLength lengths bounded counts expandCounts with
    refused | ⟨⟨table', list, total⟩, built, valid, same, ⟨cursor, placed⟩, -, expanded⟩
  · exact Or.inl refused
  · simp only at same placed
    subst same
    exact Or.inr ⟨_, built, valid, expanded_sorted valid expandCounts expanded placed, expanded⟩

end Isal.Inflate
