import Isal.CodeLengths
import Isal.PrefixCode

/-! Code lengths for the symbols of a histogram, from the filling of the heap on -/
namespace Isal.HuffCodes

open BinaryHeap Huffman

/-- The symbols that the heap is filled with. There are always two. -/
def includedSymbols (chosen : Nat → Bool) (histogram : Arr Nat) (histSize : Nat) : Finset Nat :=
  let symbols := (Finset.range histSize).filter fun s => chosen s
  if symbols.card < 2 then
    if symbols.card = 0 then {0, 1} else insert (if histogram 0 = 0 then 0 else 1) symbols
  else symbols

/-- A symbol that only fills up the heap counts once. -/
def frequency (chosen : Nat → Bool) (histogram : Arr Nat) (histSize s : Nat) : Nat :=
  if s < histSize ∧ chosen s then histogram s else 1

/-- The bits of it that the heap has room for -/
def keyFrequency (chosen : Nat → Bool) (histogram : Arr Nat) (histSize s : Nat) : Nat :=
  frequency chosen histogram histSize s % 2 ^ 48

/-- The heap before it is put in order -/
structure Filled (symbols : Finset Nat) (weight : Nat → Nat) (heapSize : Nat) (m : HeapTree) : Prop where
  size : heapSize = symbols.card
  keys : entries heapSize m = symbols.val.map fun s => (weight s, s)
  small : ∀ x ∈ contents heapSize (cells m), x < 2 ^ 64
  empty : ∀ t, heapSize < t → cells m t = 0
  words : Words m

section

variable {symbols : Finset Nat} {weight : Nat → Nat} {heapSize : Nat} {m : HeapTree}

theorem Filled.nothing (weight : Nat → Nat) : Filled ∅ weight 0 (Arr.const 0) := by
  constructor
  · rfl
  · rfl
  · intro x member
    obtain ⟨i, low, high, -⟩ := mem_contents.mp member
    omega
  · intro t _
    rfl
  · intro w
    exact Nat.two_pow_pos 32

/-- One more symbol -/
theorem Filled.add (filled : Filled symbols weight heapSize m) {s key : Nat} (new : s ∉ symbols)
    (inside : heapSize + 1 < heapTreeSize) (small : key < 2 ^ 64) (same : entry key = (weight s, s)) :
    ∃ m', writeHeap m (heapSize + 1) key = some m' ∧ Filled (insert s symbols) weight (heapSize + 1) m' := by
  obtain ⟨m', wrote, cells'⟩ := writeHeap_cells m (heapSize + 1) inside small
  have kept : contents heapSize (cells m') = contents heapSize (cells m) := by
    apply contents_congr
    intro i _ high
    rw [cells', Arr.set_other (by omega)]
  have grown : contents (heapSize + 1) (cells m') = key ::ₘ contents heapSize (cells m) := by
    rw [contents_succ, kept, cells', Arr.set_self]
  refine ⟨m', wrote, ?_, ?_, ?_, ?_, filled.words.writeHeap wrote⟩
  · rw [Finset.card_insert_of_notMem new, filled.size]
  · have keys := filled.keys
    rw [entries] at keys
    rw [entries, grown, Multiset.map_cons, keys, same, Finset.insert_val_of_notMem new, Multiset.map_cons]
  · intro x member
    rw [grown] at member
    rcases Multiset.mem_cons.mp member with rfl | other
    · exact small
    · exact filled.small x other
  · intro t beyond
    rw [cells', Arr.set_other (by omega)]
    exact filled.empty t (by omega)

end

theorem filter_range_succ (chosen : Nat → Bool) (i : Nat) :
    (Finset.range (i + 1)).filter (fun s => chosen s) =
      if chosen i then insert i ((Finset.range i).filter fun s => chosen s) else (Finset.range i).filter fun s => chosen s := by
  rw [Finset.range_add_one, Finset.filter_insert]

/-- The heap is filled with the chosen symbols. -/
theorem fillHeap_filled (chosen : Nat → Bool) (histogram : Arr Nat) {histSize : Nat} (weight : Nat → Nat)
    (few : histSize ≤ maxHistheapSize) (same : ∀ s, s < histSize → chosen s → weight s = histogram s % 2 ^ 48)
    (left : Nat) {i heapSize : Nat} {m : HeapTree}
    (rest : i + left = histSize) (filled : Filled ((Finset.range i).filter fun s => chosen s) weight heapSize m) :
    ∃ heapSize' m', fillHeap chosen histogram left i heapSize m = some (heapSize', m') ∧
      Filled ((Finset.range histSize).filter fun s => chosen s) weight heapSize' m' := by
  have most : maxHistheapSize = 286 := rfl
  have total : heapTreeSize = 859 := rfl
  induction left generalizing i heapSize m with
  | zero =>
    rw [Nat.add_zero] at rest
    rw [← rest]
    exact ⟨heapSize, m, rfl, filled⟩
  | succ left ih =>
    have upTo : heapSize ≤ i := by
      rw [filled.size]
      have := Finset.card_filter_le (Finset.range i) fun s => chosen s
      rwa [Finset.card_range] at this
    rw [fillHeap]
    by_cases takes : chosen i
    · have key : entry (histogram i * 2 ^ freqShift % 2 ^ 64 ||| i) = (weight i, i) := by
        have shifted : histogram i * 2 ^ freqShift % 2 ^ 64 = histogram i % 2 ^ 48 * 2 ^ 16 := by
          rw [freqShift]
          omega
        rw [shifted, same i (by omega) takes]
        exact entry_key _ _ (by omega)
      have small : histogram i * 2 ^ freqShift % 2 ^ 64 ||| i < 2 ^ 64 := by
        apply Nat.or_lt_two_pow
        · exact Nat.mod_lt _ (by norm_num)
        · omega
      obtain ⟨m', wrote, filled'⟩ := filled.add (by simp) (by omega) small key
      rw [if_pos takes, wrote]
      have next : (Finset.range (i + 1)).filter (fun s => chosen s) =
          insert i ((Finset.range i).filter fun s => chosen s) := by
        rw [filter_range_succ, if_pos takes]
      rw [← next] at filled'
      exact ih (by omega) filled'
    · rw [if_neg takes]
      have next : (Finset.range (i + 1)).filter (fun s => chosen s) = (Finset.range i).filter fun s => chosen s := by
        rw [filter_range_succ, if_neg takes]
      rw [← next] at filled
      exact ih (by omega) filled

section

variable {chosen : Nat → Bool} {histogram : Arr Nat} {histSize : Nat}

theorem mem_chosen {s : Nat} : s ∈ (Finset.range histSize).filter (fun s => chosen s) ↔ s < histSize ∧ chosen s := by
  rw [Finset.mem_filter, Finset.mem_range]

theorem frequency_chosen {s : Nat} (inside : s < histSize) (takes : chosen s) :
    frequency chosen histogram histSize s = histogram s := by
  rw [frequency, if_pos ⟨inside, takes⟩]

theorem frequency_key {s : Nat} (inside : s < histSize) (takes : chosen s) :
    keyFrequency chosen histogram histSize s = histogram s % 2 ^ 48 := by
  rw [keyFrequency, frequency_chosen inside takes]

theorem frequency_other {s : Nat} (other : s ∉ (Finset.range histSize).filter fun s => chosen s) :
    frequency chosen histogram histSize s = 1 := by
  rw [frequency, if_neg fun both => other (mem_chosen.mpr both)]

/-- With less than two chosen, those are the symbols that occur. -/
def Usual (chosen : Nat → Bool) (histogram : Arr Nat) (histSize : Nat) : Prop :=
  2 ≤ ((Finset.range histSize).filter fun s => chosen s).card ∨ ∀ s, s < histSize → (chosen s ↔ histogram s ≠ 0)

/-- The symbol that fills up the heap is another one. -/
theorem filler_new (usual : Usual chosen histogram histSize)
    (one : ((Finset.range histSize).filter fun s => chosen s).card = 1) :
    (if histogram 0 = 0 then 0 else 1) ∉ (Finset.range histSize).filter fun s => chosen s := by
  have occurs : ∀ s, s < histSize → (chosen s ↔ histogram s ≠ 0) := by
    rcases usual with two | occurs
    · omega
    · exact occurs
  obtain ⟨s, only⟩ := Finset.card_eq_one.mp one
  split
  · rename_i zero
    intro member
    have both := mem_chosen.mp member
    exact (occurs 0 both.1).mp both.2 zero
  · rename_i some_
    have member : s ∈ (Finset.range histSize).filter fun s => chosen s := by
      rw [only]
      exact Finset.mem_singleton_self s
    have first : 0 ∈ (Finset.range histSize).filter fun s => chosen s := by
      have := (mem_chosen.mp member).1
      exact mem_chosen.mpr ⟨by omega, (occurs 0 (by omega)).mpr some_⟩
    intro second
    rw [only, Finset.mem_singleton] at first second
    omega

/-- "make sure heap has at least two elements in it" -/
theorem fillTwo_filled (usual : Usual chosen histogram histSize) {heapSize : Nat} {m : HeapTree}
    (filled : Filled ((Finset.range histSize).filter fun s => chosen s) (keyFrequency chosen histogram histSize) heapSize m) :
    ∃ heapSize' m', fillTwo histogram heapSize m = some (heapSize', m') ∧
      Filled (includedSymbols chosen histogram histSize) (keyFrequency chosen histogram histSize) heapSize' m' := by
  have total : heapTreeSize = 859 := rfl
  have size := filled.size
  have key : ∀ s, s < 2 → s ∉ (Finset.range histSize).filter (fun s => chosen s) →
      entry (2 ^ freqShift ||| s) = (keyFrequency chosen histogram histSize s, s) := by
    intro s small other
    rw [keyFrequency, frequency_other other, freqShift]
    exact entry_key 1 s (by omega)
  have small : ∀ s, s < 2 → 2 ^ freqShift ||| s < 2 ^ 64 := by
    intro s few
    apply Nat.or_lt_two_pow
    · rw [freqShift]
      norm_num
    · omega
  rw [fillTwo, includedSymbols, ← size]
  by_cases few : heapSize < 2
  · rw [if_pos few, if_pos few]
    by_cases none_ : heapSize = 0
    · rw [if_pos none_, if_pos none_]
      subst none_
      have empty := Finset.card_eq_zero.mp size.symm
      obtain ⟨m₁, wrote₁, filled₁⟩ := filled.add (s := 0) (by rw [empty]; exact Finset.notMem_empty 0) (by omega)
        (small 0 (by omega)) (key 0 (by omega) (by rw [empty]; exact Finset.notMem_empty 0))
      obtain ⟨m₂, wrote₂, filled₂⟩ := filled₁.add (s := 1) (by rw [empty]; decide) (by omega)
        (small 1 (by omega)) (key 1 (by omega) (by rw [empty]; exact Finset.notMem_empty 1))
      refine ⟨2, m₂, ?_, ?_⟩
      · rw [Nat.or_zero] at wrote₁
        rw [wrote₁]
        simp only [Option.bind_eq_bind, Option.bind_some]
        rw [wrote₂]
        rfl
      · rw [empty, Finset.insert_comm] at filled₂
        exact filled₂
    · rw [if_neg none_, if_neg none_]
      have one : heapSize = 1 := by omega
      subst one
      have new := filler_new usual size.symm
      have low : (if histogram 0 = 0 then 0 else 1) < 2 := by
        split <;> omega
      obtain ⟨m₁, wrote₁, filled₁⟩ := filled.add new (by omega) (small _ low) (key _ low new)
      refine ⟨2, m₁, ?_, filled₁⟩
      have value : (if histogram 0 = 0 then 2 ^ freqShift else 2 ^ freqShift ||| 1) =
          2 ^ freqShift ||| (if histogram 0 = 0 then 0 else 1) := by
        split
        · rw [Nat.or_zero]
        · rfl
      rw [value, wrote₁]
      rfl
  · rw [if_neg few, if_neg few]
    exact ⟨heapSize, m, rfl, filled⟩

theorem included_lt {s : Nat} (member : s ∈ includedSymbols chosen histogram histSize) : s < max histSize 2 := by
  rw [includedSymbols] at member
  split at member
  · split at member
    · rcases Finset.mem_insert.mp member with rfl | second
      · omega
      · rw [Finset.mem_singleton.mp second]
        omega
    · rcases Finset.mem_insert.mp member with rfl | other
      · split <;> omega
      · have := (mem_chosen.mp other).1
        omega
  · have := (mem_chosen.mp member).1
    omega

theorem included_card_le (few : histSize ≤ maxHistheapSize) :
    (includedSymbols chosen histogram histSize).card ≤ maxHistheapSize := by
  have most : maxHistheapSize = 286 := rfl
  have inside : includedSymbols chosen histogram histSize ⊆ Finset.range maxHistheapSize := by
    intro s member
    have := included_lt member
    exact Finset.mem_range.mpr (by omega)
  have := Finset.card_le_card inside
  rwa [Finset.card_range] at this

/-- The heap for a histogram -/
theorem initHeap_heap (usual : Usual chosen histogram histSize) (few : histSize ≤ maxHistheapSize) :
    ∃ m, initHeap chosen histogram histSize = some ((includedSymbols chosen histogram histSize).card, m) ∧
      IsHeap 1 (includedSymbols chosen histogram histSize).card m ∧
      entries (includedSymbols chosen histogram histSize).card m =
        (includedSymbols chosen histogram histSize).val.map (fun s => (keyFrequency chosen histogram histSize s, s)) ∧
      (∀ t, (includedSymbols chosen histogram histSize).card + 1 < t → cells m t = 0) ∧ Words m := by
  have total : heapTreeSize = 859 := rfl
  have most : maxHistheapSize = 286 := rfl
  obtain ⟨heapSize, m₁, result₁, filled₁⟩ := fillHeap_filled chosen histogram (keyFrequency chosen histogram histSize) few
    (fun s inside takes => frequency_key inside takes) histSize (i := 0) (by omega) (Filled.nothing _)
  obtain ⟨heapSize', m₂, result₂, filled₂⟩ := fillTwo_filled usual filled₁
  have size := filled₂.size
  subst size
  have upTo : (includedSymbols chosen histogram histSize).card ≤ maxHistheapSize := included_card_le few
  obtain ⟨m₃, result₃, heap, same, outside⟩ := buildHeap_heap (by omega) filled₂.small
  refine ⟨m₃, ?_, heap, ?_, ?_, filled₂.words.buildHeap result₃⟩
  · rw [initHeap, result₁]
    simp only [Option.bind_eq_bind, Option.bind_some]
    rw [result₂, Option.bind_some]
    change (buildHeap m₂ _).bind _ = _
    rw [result₃]
    rfl
  · rw [entries, same]
    exact filled₂.keys
  · intro t beyond
    rw [outside t beyond]
    exact filled₂.empty t (by omega)

theorem two_le_included (usual : Usual chosen histogram histSize) :
    2 ≤ (includedSymbols chosen histogram histSize).card := by
  rw [includedSymbols]
  by_cases few : ((Finset.range histSize).filter fun s => chosen s).card < 2
  · rw [if_pos few]
    by_cases none_ : ((Finset.range histSize).filter fun s => chosen s).card = 0
    · rw [if_pos none_]
      exact le_refl 2
    · rw [if_neg none_, Finset.card_insert_of_notMem (filler_new usual (by omega))]
      omega
  · rw [if_neg few]
    omega

/-- The sum with what fills up the heap -/
theorem frequency_sum (usual : Usual chosen histogram histSize)
    (light : ∑ s ∈ (Finset.range histSize).filter (fun s => chosen s), histogram s < 2 ^ 48) :
    ∑ s ∈ includedSymbols chosen histogram histSize, frequency chosen histogram histSize s ≤ 2 ^ 48 := by
  have same : ∑ s ∈ (Finset.range histSize).filter (fun s => chosen s), frequency chosen histogram histSize s =
      ∑ s ∈ (Finset.range histSize).filter (fun s => chosen s), histogram s := by
    apply Finset.sum_congr rfl
    intro s member
    have both := mem_chosen.mp member
    exact frequency_chosen both.1 both.2
  rw [includedSymbols]
  by_cases few : ((Finset.range histSize).filter fun s => chosen s).card < 2
  · rw [if_pos few]
    by_cases none_ : ((Finset.range histSize).filter fun s => chosen s).card = 0
    · have empty := Finset.card_eq_zero.mp none_
      rw [if_pos none_, Finset.sum_pair (by norm_num), frequency_other (by rw [empty]; exact Finset.notMem_empty 0),
        frequency_other (by rw [empty]; exact Finset.notMem_empty 1)]
      norm_num
    · have new := filler_new usual (by omega)
      rw [if_neg none_, Finset.sum_insert new, same, frequency_other new]
      omega
  · rw [if_neg few, same]
    omega

theorem keyFrequency_light (light : ∑ s ∈ (Finset.range histSize).filter (fun s => chosen s), histogram s < 2 ^ 48)
    (s : Nat) : keyFrequency chosen histogram histSize s = frequency chosen histogram histSize s := by
  apply Nat.mod_eq_of_lt
  rw [frequency]
  split
  · rename_i both
    exact lt_of_le_of_lt (Finset.single_le_sum (f := histogram.get) (fun _ _ => Nat.zero_le _) (mem_chosen.mpr both)) light
  · norm_num

/-- From two chosen symbols on, nothing fills up the heap. -/
theorem included_chosen (two : 2 ≤ ((Finset.range histSize).filter fun s => chosen s).card) :
    includedSymbols chosen histogram histSize = (Finset.range histSize).filter fun s => chosen s := by
  rw [includedSymbols, if_neg (by omega)]

/-- The lengths for the symbols of a histogram and its tree -/
theorem histogram_code (usual : Usual chosen histogram histSize) (few : histSize ≤ maxHistheapSize) {limit : Nat}
    (byte : limit < 2 ^ 8) (blCount codes : Arr Nat) (codesCount : Nat) :
    ∃ heapSize m root m', initHeap chosen histogram histSize = some (heapSize, m) ∧
      buildHuffTree m heapSize heapTreeNodeStart = some (root, m') ∧
      heapSize = (includedSymbols chosen histogram histSize).card ∧
      ((∀ t d, NodeDepth m' root t d → d ≤ limit) → heapSize ≤ 2 ^ limit) ∧
      (heapSize ≤ 2 ^ limit → ∃ codes' blCount',
        genHuffCodeLens m heapSize blCount codes codesCount limit = some (codes', blCount') ∧
        CompleteCode (includedSymbols chosen histogram histSize) limit codesCount codes' blCount' ∧
        (∑ s ∈ (Finset.range histSize).filter (fun s => chosen s), histogram s < 2 ^ 48 →
          Monotone (includedSymbols chosen histogram histSize) (frequency chosen histogram histSize) codes' ∧
          ((∀ t d, NodeDepth m' root t d → d ≤ limit) →
            Optimal (includedSymbols chosen histogram histSize) (frequency chosen histogram histSize) codes') ∧
          ∃ depths, Unlimited (includedSymbols chosen histogram histSize) (frequency chosen histogram histSize) limit
            codes' depths)) := by
  have most : maxHistheapSize = 286 := rfl
  obtain ⟨m, result, heap, keys, empty, words⟩ := initHeap_heap usual few
  have numbers : ∀ s ∈ includedSymbols chosen histogram histSize, s < maxHistheapSize := by
    intro s member
    have := included_lt member
    omega
  obtain ⟨root, m', built, fits, lengths⟩ := genHuffCodeLens_code numbers (two_le_included usual) heap keys
    (fun t beyond _ => empty t beyond) words byte blCount codes codesCount
  refine ⟨_, m, root, m', result, built, rfl, fits, ?_⟩
  intro enough
  obtain ⟨codes', blCount', generated, code, ranked⟩ := lengths enough
  refine ⟨codes', blCount', generated, code, ?_⟩
  intro light
  have same : keyFrequency chosen histogram histSize = frequency chosen histogram histSize :=
    funext fun s => keyFrequency_light light s
  rw [same] at ranked
  exact ranked (frequency_sum usual light)

end

section

open PrefixCode

theorem kraft_range (codes : Nat → Nat) (count depth : Nat) :
    PrefixCode.kraft ((List.range count).map codes) depth =
      ∑ s ∈ (Finset.range count).filter (fun s => codes s ≠ 0), 2 ^ (depth - codes s) := by
  induction count with
  | zero => rfl
  | succ count ih =>
    rw [PrefixCode.kraft] at ih ⊢
    rw [List.range_succ, List.map_append, List.filter_append, List.map_append, List.sum_append, ih, Finset.range_add_one,
      Finset.filter_insert]
    by_cases used : codes count ≠ 0
    · rw [if_pos used, Finset.sum_insert (by simp), Nat.add_comm]
      congr 1
      simp [used]
    · rw [if_neg used]
      simp only [List.map_cons, List.map_nil, List.filter_cons, List.filter_nil]
      rw [if_neg (by simpa using used)]
      rfl

/-- The lengths are those of a complete code. -/
theorem CompleteCode.complete {symbols : Finset Nat} {limit count : Nat} {codes blCount : Arr Nat}
    (code : CompleteCode symbols limit count codes blCount) (inside : ∀ s ∈ symbols, s < count) :
    PrefixCode.kraft ((List.range count).map codes) limit = 2 ^ limit := by
  have used : (Finset.range count).filter (fun s => codes s ≠ 0) = symbols := by
    ext s
    rw [Finset.mem_filter, Finset.mem_range]
    constructor
    · intro both
      by_contra outside
      exact both.2 (code.others s both.1 outside)
    · intro member
      have := (code.within s member).1
      exact ⟨inside s member, by omega⟩
  have scaled : ((∑ s ∈ symbols, 2 ^ (limit - codes s) : Nat) : ℚ) = 2 ^ limit * ∑ s ∈ symbols, (1 / 2 : ℚ) ^ codes s := by
    rw [Finset.mul_sum]
    push_cast
    apply Finset.sum_congr rfl
    intro s member
    have upTo := (code.within s member).2
    conv_rhs => rw [← Nat.sub_add_cancel upTo, pow_add, mul_assoc, ← mul_pow]
    norm_num
  rw [code.kraft, mul_one] at scaled
  rw [kraft_range, used]
  exact_mod_cast scaled

theorem CompleteCode.valid {symbols : Finset Nat} {limit count : Nat} {codes blCount : Arr Nat}
    (code : CompleteCode symbols limit count codes blCount) (inside : ∀ s ∈ symbols, s < count) :
    Valid ((List.range count).map codes) limit := by
  refine ⟨?_, le_of_eq (code.complete inside)⟩
  intro n member
  obtain ⟨s, inCount, rfl⟩ := List.mem_map.mp member
  by_cases used : s ∈ symbols
  · exact (code.within s used).2
  · rw [code.others s (List.mem_range.mp inCount) used]
    exact Nat.zero_le limit

theorem lengthOf_range (codes : Nat → Nat) {count s : Nat} (inside : s < count) :
    lengthOf ((List.range count).map codes) s = codes s := by
  rw [lengthOf, List.getElem?_map, List.getElem?_range inside]
  rfl

/-- The lengths of other symbols do not matter. -/
theorem CompleteCode.restrict {symbols : Finset Nat} {limit count : Nat} {codes blCount : Arr Nat}
    (code : CompleteCode symbols limit count codes blCount) (count' : Nat) :
    CompleteCode symbols limit count' ⟨fun s => if s ∈ symbols then codes s else 0⟩ blCount := by
  have same : ∀ s ∈ symbols, (⟨fun s => if s ∈ symbols then codes s else 0⟩ : Arr Nat) s = codes s := fun s member =>
    if_pos member
  refine ⟨?_, ?_, ?_, code.zero, ?_⟩
  · intro s member
    rw [same s member]
    exact code.within s member
  · intro s _ outside
    exact if_neg outside
  · apply Eq.trans _ code.kraft
    apply Finset.sum_congr rfl
    intro s member
    rw [same s member]
  · intro l low high
    rw [code.counts l low high]
    congr 1
    apply Finset.filter_congr
    intro s member
    rw [same s member]

/-- There is a prefix code of these lengths. -/
theorem CompleteCode.exists_prefixFree {symbols : Finset Nat} {limit count : Nat} {codes blCount : Arr Nat}
    (code : CompleteCode symbols limit count codes blCount) :
    ∃ words : Nat → List Bool, PrefixFree symbols words ∧ ∀ s ∈ symbols, (words s).length = codes s := by
  obtain ⟨size, inside⟩ : ∃ size, ∀ s ∈ symbols, s < size :=
    ⟨symbols.sup id + 1, fun s member => Nat.lt_succ_of_le (Finset.le_sup (f := id) member)⟩
  have valid := (code.restrict size).valid inside
  set codes' : Arr Nat := ⟨fun s => if s ∈ symbols then codes s else 0⟩ with codes'_eq
  have lengths : ∀ s ∈ symbols, lengthOf ((List.range size).map codes') s = codes s := by
    intro s member
    rw [lengthOf_range codes' (inside s member), codes'_eq]
    exact if_pos member
  have used : ∀ s ∈ symbols, lengthOf ((List.range size).map codes') s ≠ 0 := by
    intro s member
    have := (code.within s member).1
    rw [lengths s member]
    omega
  refine ⟨codeword ((List.range size).map codes'), ?_, ?_⟩
  · intro s first t second different begins
    obtain ⟨here, -⟩ := matches_of_prefix (used s first) begins
    obtain ⟨there, -⟩ := matches_of_prefix (used t second) (List.prefix_refl _)
    exact different (valid.matches_unique here there)
  · intro s member
    rw [codeword, Bits.msbBits_length, lengths s member]

end

/-- Length-limited code construction: every histogram with two symbols or more gives lengths of a
complete code within the limit, if that has room for the symbols. -/
theorem genHuffCodeLens_limited (chosen : Nat → Bool) (histogram : Arr Nat) (histSize limit : Nat)
    (blCount codes : Arr Nat) (codesCount : Nat) (few : histSize ≤ 286)
    (two : 2 ≤ ((Finset.range histSize).filter fun s => chosen s).card)
    (light : ∑ s ∈ (Finset.range histSize).filter (fun s => chosen s), histogram s < 2 ^ 48) (upTo : limit ≤ 15)
    (fits : ((Finset.range histSize).filter fun s => chosen s).card ≤ 2 ^ limit) :
    ∃ heapSize m codes' blCount', initHeap chosen histogram histSize = some (heapSize, m) ∧
      heapSize = ((Finset.range histSize).filter fun s => chosen s).card ∧
      genHuffCodeLens m heapSize blCount codes codesCount limit = some (codes', blCount') ∧
      CompleteCode ((Finset.range histSize).filter fun s => chosen s) limit codesCount codes' blCount' ∧
      Monotone ((Finset.range histSize).filter fun s => chosen s) histogram codes' := by
  obtain ⟨heapSize, m, root, m', result, -, size, -, lengths⟩ :=
    histogram_code (Or.inl two) few (by omega : limit < 2 ^ 8) blCount codes codesCount
  have included : includedSymbols chosen histogram histSize = (Finset.range histSize).filter fun s => chosen s :=
    included_chosen two
  rw [included] at size lengths
  obtain ⟨codes', blCount', generated, code, ranked⟩ := lengths (by rw [size]; exact fits)
  refine ⟨heapSize, m, codes', blCount', result, size, generated, code, ?_⟩
  intro s first t second less
  have here := mem_chosen.mp first
  have there := mem_chosen.mp second
  apply (ranked light).1 s first t second
  rw [frequency_chosen here.1 here.2, frequency_chosen there.1 there.2]
  exact less

theorem genHuffCodeLens_limited_three :
    ∃ heapSize m codes' blCount', initHeap (fun s => s < 3) ⟨fun s => s + 1⟩ 3 = some (heapSize, m) ∧
      heapSize = ((Finset.range 3).filter fun s => decide (s < 3)).card ∧
      genHuffCodeLens m heapSize (Arr.const 0) (Arr.const 0) 3 2 = some (codes', blCount') ∧
      CompleteCode ((Finset.range 3).filter fun s => decide (s < 3)) 2 3 codes' blCount' ∧
      Monotone ((Finset.range 3).filter fun s => decide (s < 3)) (fun s => s + 1) codes' :=
  genHuffCodeLens_limited (fun s => s < 3) ⟨fun s => s + 1⟩ 3 2 (Arr.const 0) (Arr.const 0) 3 (by decide) (by decide)
    (by decide) (by decide) (by decide)

/-- Huffman optimality: no prefix code has a lower total where the tree is within the limit, and there
is one of the lengths found. -/
theorem genHuffCodeLens_optimal (chosen : Nat → Bool) (histogram : Arr Nat) (histSize limit : Nat)
    (blCount codes : Arr Nat) (codesCount : Nat) (few : histSize ≤ 286) (usual : Usual chosen histogram histSize)
    (light : ∑ s ∈ (Finset.range histSize).filter (fun s => chosen s), histogram s < 2 ^ 48) (byte : limit < 2 ^ 8) :
    ∃ heapSize m root m', initHeap chosen histogram histSize = some (heapSize, m) ∧
      buildHuffTree m heapSize heapTreeNodeStart = some (root, m') ∧
      ((∀ t d, NodeDepth m' root t d → d ≤ limit) → ∃ codes' blCount',
        genHuffCodeLens m heapSize blCount codes codesCount limit = some (codes', blCount') ∧
        (∃ words : Nat → List Bool, PrefixFree (includedSymbols chosen histogram histSize) words ∧
          ∀ s ∈ includedSymbols chosen histogram histSize, (words s).length = codes' s) ∧
        ∀ words : Nat → List Bool, PrefixFree (includedSymbols chosen histogram histSize) words →
          ∑ s ∈ includedSymbols chosen histogram histSize, frequency chosen histogram histSize s * codes' s ≤
            ∑ s ∈ includedSymbols chosen histogram histSize, frequency chosen histogram histSize s * (words s).length) := by
  obtain ⟨heapSize, m, root, m', result, built, -, fits, lengths⟩ :=
    histogram_code usual few byte blCount codes codesCount
  refine ⟨heapSize, m, root, m', result, built, ?_⟩
  intro shallow
  obtain ⟨codes', blCount', generated, code, ranked⟩ := lengths (fits shallow)
  refine ⟨codes', blCount', generated, code.exists_prefixFree, ?_⟩
  · intro words free
    exact (ranked light).2.1 shallow (fun s => (words s).length) (free.kraft (two_le_included usual))

theorem genHuffCodeLens_optimal_three :
    ∃ heapSize m root m', initHeap (fun s => s < 3) ⟨fun s => s + 1⟩ 3 = some (heapSize, m) ∧
      buildHuffTree m heapSize heapTreeNodeStart = some (root, m') ∧
      ((∀ t d, NodeDepth m' root t d → d ≤ 2) → ∃ codes' blCount',
        genHuffCodeLens m heapSize (Arr.const 0) (Arr.const 0) 3 2 = some (codes', blCount') ∧
        (∃ words : Nat → List Bool, PrefixFree (includedSymbols (fun s => s < 3) ⟨fun s => s + 1⟩ 3) words ∧
          ∀ s ∈ includedSymbols (fun s => s < 3) ⟨fun s => s + 1⟩ 3, (words s).length = codes' s) ∧
        ∀ words : Nat → List Bool, PrefixFree (includedSymbols (fun s => s < 3) ⟨fun s => s + 1⟩ 3) words →
          ∑ s ∈ includedSymbols (fun s => s < 3) ⟨fun s => s + 1⟩ 3,
              frequency (fun s => s < 3) ⟨fun s => s + 1⟩ 3 s * codes' s ≤
            ∑ s ∈ includedSymbols (fun s => s < 3) ⟨fun s => s + 1⟩ 3,
              frequency (fun s => s < 3) ⟨fun s => s + 1⟩ 3 s * (words s).length) :=
  genHuffCodeLens_optimal (fun s => s < 3) ⟨fun s => s + 1⟩ 3 2 (Arr.const 0) (Arr.const 0) 3 (by decide)
    (Or.inl (by decide)) (by decide) (by decide)

end Isal.HuffCodes
