import Isal.CanonicalCodes
import Isal.CountingSort
import Isal.InflateState
import Isal.TwoLevel

/-! The tables of the distance code and of the code-length code: a lookup finds the symbol
whose canonical codeword comes next. -/
namespace Isal.Inflate

open Isal.Bits Isal.Loops Isal.PrefixCode Isal.CountingSort

variable {lens : List Nat} {table : Arr HuffCode} {count : Arr Nat} {tableLength : Nat} {fmt : TableFormat}

/-- How many symbols have a code shorter than `n`. -/
def shorter (lens : List Nat) : Nat → Nat
  | 0 => 0
  | n + 1 => shorter lens n + PrefixCode.count lens n

theorem countTotals_eq (counts : Counts count lens) {n : Nat} (high : n ≤ 16) :
    countTotals count n = shorter lens n := by
  have run := forRange_invariant (a := 2) (b := 17)
    (f := fun i (total : Arr Nat) => total.set i (total (i - 1) + count (i - 1))) (s := .const 0)
    (fun i total => ∀ n, n < i → total n = shorter lens n) (by decide)
    (by
      intro n small
      rcases (by omega : n = 0 ∨ n = 1) with rfl | rfl <;> simp [shorter, PrefixCode.count])
    (by
      intro i total low upper known n small
      rw [Arr.set_get]
      split
      · rename_i same
        subst same
        obtain ⟨m, rfl⟩ : ∃ m, n = m + 1 := ⟨n - 1, by omega⟩
        rw [Nat.add_sub_cancel, known m (by omega), counts m (by omega) (by omega), shorter]
        simp [PrefixCode.count, show m ≠ 0 by omega]
      · exact known n (by omega))
  exact run n (by omega)

theorem shorter_mono (lens : List Nat) {m n : Nat} (h : m ≤ n) : shorter lens m ≤ shorter lens n := by
  induction n, h using Nat.le_induction with
  | base => exact Nat.le_refl _
  | succ n _ ih => rw [shorter]; omega

/-- The first `i` symbols that are in use, with their lengths. -/
def symbolItems (lens : List Nat) (i : Nat) : List (Nat × Nat) :=
  ((List.range i).filter (used lens)).map fun s => (s, lengthOf lens s)

theorem symbolItems_succ (lens : List Nat) (i : Nat) :
    symbolItems lens (i + 1) =
      symbolItems lens i ++ if lengthOf lens i = 0 then [] else [(i, lengthOf lens i)] := by
  rw [symbolItems, List.range_succ, List.filter_append, List.map_append]
  by_cases h : lengthOf lens i = 0 <;> simp [symbolItems, used, h]

theorem keyed_symbolItems (lens : List Nat) (i n : Nat) :
    (keyed (symbolItems lens i) n).length = if n = 0 then 0 else (lens.take i).count n := by
  induction i with
  | zero => simp [symbolItems]
  | succ i ih =>
    rw [symbolItems_succ, keyed_append, List.length_append, ih]
    by_cases zero : n = 0
    · by_cases h : lengthOf lens i = 0 <;> simp [zero, h, keyed_single]
    · rw [if_neg zero, if_neg zero, count_take_succ lens i n (by omega)]
      by_cases h : lengthOf lens i = 0
      · simp [h, Ne.symm zero]
      · by_cases same : lengthOf lens i = n <;> simp [h, keyed_single, same, zero]

theorem mem_symbolItems {i s n : Nat} :
    (s, n) ∈ symbolItems lens i ↔ s < i ∧ lengthOf lens s ≠ 0 ∧ lengthOf lens s = n := by
  simp [symbolItems, used, and_assoc]

theorem symbolItems_append (lens : List Nat) {i j : Nat} (h : i ≤ j) :
    symbolItems lens i <+: symbolItems lens j := by
  induction j, h using Nat.le_induction with
  | base => exact List.prefix_rfl
  | succ j _ ih => rw [symbolItems_succ]; exact ih.trans (List.prefix_append ..)

theorem symbolItems_room (tableLength : Nat) (counts : Counts count lens) (bounded : ∀ n ∈ lens, n ≤ 15) :
    Room (countTotals count).get (symbolItems lens tableLength) := by
  intro k k' less _ nonempty
  obtain ⟨s, member⟩ := List.exists_mem_of_ne_nil _ nonempty
  obtain ⟨-, used, rfl⟩ := mem_symbolItems.mp (mem_keyed.mp member)
  have high : lengthOf lens s ≤ 15 := by
    rw [lengthOf_eq (used_lt used)]; exact bounded _ (List.getElem_mem _)
  rw [countTotals_eq counts (by omega), countTotals_eq counts (by omega)]
  refine Nat.le_trans ?_ (shorter_mono lens less)
  rw [shorter, keyed_symbolItems, PrefixCode.count]
  split
  · exact Nat.le_refl _
  · exact Nat.add_le_add_left ((List.take_sublist _ _).count_le _) _

theorem sortCodes_placed (lengths : HasLengths table tableLength lens) (counts : Counts count lens)
    (bounded : ∀ n ∈ lens, n ≤ 15) :
    ∃ cursor, Placed (countTotals count).get (symbolItems lens tableLength) cursor
      (sortCodes table tableLength (countTotals count)) := by
  have run := forRange_invariant (a := 0) (b := tableLength)
    (f := fun i (s : Arr Nat × Arr Nat) =>
      if (table i).length = 0 then (s.1, s.2)
      else (s.1.set (s.2 (table i).length) i, s.2.set (table i).length (s.2 (table i).length + 1)))
    (s := (.const 0, countTotals count))
    (fun i s => Placed (countTotals count).get (symbolItems lens i) s.2 s.1) (Nat.zero_le _)
    (by simpa [symbolItems] using Placed.empty _ _)
    (by
      intro i s _ small placed
      rw [lengths i small, symbolItems_succ]
      by_cases unused : lengthOf lens i = 0
      · simpa [unused] using placed
      · simp only [unused, if_false]
        refine placed.push i _ ?_ (symbolItems_room tableLength counts bounded)
        have := symbolItems_append lens (show i + 1 ≤ tableLength from small)
        rwa [symbolItems_succ, if_neg unused] at this)
  exact ⟨_, run⟩

theorem countTotals_succ (counts : Counts count lens) (fits : lens.length ≤ tableLength) {n : Nat} (low : 1 ≤ n)
    (high : n ≤ 15) : countTotals count (n + 1) =
      countTotals count n + (keyed (symbolItems lens tableLength) n).length := by
  rw [countTotals_eq counts (by omega), countTotals_eq counts (by omega), shorter, keyed_symbolItems,
    PrefixCode.count, List.take_of_length_le fits]

/-- The symbols that have a code. -/
def InUse (lens : List Nat) (i : Nat) : Prop := lengthOf lens i ≠ 0

variable (valid : Valid lens 15) (canonical : ∀ i, i < tableLength → Canonical table lens i)
  (fits : lens.length ≤ tableLength) (counts : Counts count lens)

include canonical fits

theorem canonical_of_used {i : Nat} (h : InUse lens i) :
    (table i).length = lengthOf lens i ∧ (table i).codeAndExtra = revBits (lengthOf lens i) (codeOf lens i) :=
  have := canonical i (Nat.lt_of_lt_of_le (used_lt h) fits)
  ⟨this.1, this.2 h⟩

theorem hit_iff {i v : Nat} (h : InUse lens i) : Hit table i v ↔ Matches lens i v := by
  obtain ⟨length, code⟩ := canonical_of_used canonical fits h
  rw [Hit, length, code]
  exact ⟨fun low => ⟨h, low⟩, fun m => m.low⟩

include valid

theorem small_free : PrefixFree table (InUse lens) where
  small i h := by
    obtain ⟨length, code⟩ := canonical_of_used canonical fits h
    rw [length, code]
    exact revBits_lt _ _
  apart i j v hi hj hitI hitJ := valid.matches_unique
    ((hit_iff canonical fits hi).mp hitI) ((hit_iff canonical fits hj).mp hitJ)

include counts

theorem small_sorted :
    SortedCodes ⟨table, sortCodes table tableLength (countTotals count), countTotals count⟩ (InUse lens) 15 := by
  have lengths : HasLengths table tableLength lens := fun i small => (canonical i small).1
  obtain ⟨cursor, placed⟩ := sortCodes_placed lengths counts valid.bounded
  have step : ∀ n, 1 ≤ n → n ≤ 15 →
      countTotals count (n + 1) = countTotals count n + (keyed (symbolItems lens tableLength) n).length :=
    fun n low high => countTotals_succ counts fits low high
  constructor
  · exact (countTotals_eq counts (by omega)).trans (by simp [shorter, PrefixCode.count])
  · intro n low high
    have := step n low high
    simp only
    omega
  · intro n p low high lower upper
    simp only at lower upper ⊢
    rw [step n low high] at upper
    obtain ⟨small, inUse, length⟩ := mem_symbolItems.mp (placed.listed lower upper)
    exact ⟨inUse, by rw [lengths _ small, length]⟩
  · intro i inUse
    have small := Nat.lt_of_lt_of_le (used_lt inUse) fits
    have bounded := valid.length_le i
    obtain ⟨p, lower, upper, at_⟩ := placed.found (mem_symbolItems.mpr ⟨small, inUse, rfl⟩)
    simp only [lengths i small]
    exact ⟨p, lower, by rw [step _ (Nat.pos_of_ne_zero inUse) bounded]; exact upper, at_⟩
  · intro i inUse
    simp only [lengths i (Nat.lt_of_lt_of_le (used_lt inUse) fits)]
    exact ⟨Nat.pos_of_ne_zero inUse, valid.length_le i⟩

omit counts in
theorem firstBits_eq (codeList countTotal : Arr Nat) {i : Nat}
    (long : Long fmt ⟨table, codeList, countTotal⟩ (InUse lens) i) :
    firstBits fmt ⟨table, codeList, countTotal⟩ i = revBits fmt.directBits (top lens fmt.directBits i) ∧
      top lens fmt.directBits i < 2 ^ fmt.directBits ∧ fmt.directBits < lengthOf lens i := by
  obtain ⟨length, code⟩ := canonical_of_used canonical fits long.used
  have low := long.long
  simp only [length] at low
  refine ⟨?_, valid.top_lt low, low⟩
  rw [firstBits, code, revBits_mod _ (Nat.le_of_lt low), top]

omit counts in
/-- The second level has few regions, as long codes share their first bits. -/
theorem region_few (codeList countTotal : Arr Nat) {x offset m : Nat} {others : List Nat} {lookup : LookupTable}
    (region : Region fmt ⟨table, codeList, countTotal⟩ (InUse lens) 15 x lookup offset m others)
    (nonempty : ∃ i, Long fmt ⟨table, codeList, countTotal⟩ (InUse lens) i ∧
      firstBits fmt ⟨table, codeList, countTotal⟩ i = x) : 2 * (others.length + 1) ≤ lens.length + 1 := by
  have all : ∀ z ∈ x :: others, ∃ i, Long fmt ⟨table, codeList, countTotal⟩ (InUse lens) i ∧
      firstBits fmt ⟨table, codeList, countTotal⟩ i = z := by
    intro z hz
    rcases List.mem_cons.mp hz with rfl | hz
    · exact nonempty
    · exact region.prefixes z hz
  have few := valid.tops_le fmt.directBits ((x :: others).map (revBits fmt.directBits)) ?_ ?_
  · simpa using few
  · refine List.Nodup.map_on ?_ (List.nodup_cons.mpr ⟨region.apart, region.distinct⟩)
    intro z hz w hw same
    obtain ⟨i, hi, rfl⟩ := all z hz
    obtain ⟨j, hj, rfl⟩ := all w hw
    exact revBits_inj (Nat.mod_lt _ (Nat.two_pow_pos _)) (Nat.mod_lt _ (Nat.two_pow_pos _)) same
  · intro t ht
    obtain ⟨z, hz, rfl⟩ := List.mem_map.mp ht
    obtain ⟨i, hi, rfl⟩ := all z hz
    obtain ⟨first, small, low⟩ := firstBits_eq valid canonical fits codeList countTotal hi
    exact ⟨i, low, by rw [first, revBits_revBits, Nat.mod_eq_of_lt small]⟩

/-- The entry found for the bits `r` and how many bits it takes. -/
def smallEntry (huffCode : LookupTable) (r : Nat) : Nat × Nat :=
  let e := huffCode.short (r % 2 ^ isalDecodeShortBits)
  if e.testBit 10 = false then (e, e >>> 11)
  else
    let e := huffCode.long (e % 2 ^ 9 + (r % 2 ^ ((e - 1 <<< 10) >>> 11)) >>> isalDecodeShortBits)
    (e, e >>> 10)

/-- The formats of the two small tables. -/
structure SmallFormat (fmt : TableFormat) (lens : List Nat) : Prop where
  directBits : fmt.directBits = isalDecodeShortBits
  lawful : fmt.Lawful 15
  pointer : ∀ offset m, fmt.pointer offset m = offset ||| m <<< 11 ||| 1 <<< 10
  short : ∀ i, InUse lens i → lengthOf lens i ≤ 10 →
    ∃ e, fmt.shortEntry i (lengthOf lens i) = some e ∧ e ≠ 0 ∧ e.testBit 10 = false

/-- What `smallEntry` finds: the entry of the symbol that comes next, or none. -/
inductive SmallFound (fmt : TableFormat) (lens : List Nat) (v : Nat) : Nat × Nat → Prop
  | short (i e : Nat) (next : Matches lens i v) (direct : lengthOf lens i ≤ 10)
      (entry : fmt.shortEntry i (lengthOf lens i) = some e) : SmallFound fmt lens v (e, e >>> 11)
  | long (i : Nat) (next : Matches lens i v) (beyond : 10 < lengthOf lens i) :
      SmallFound fmt lens v
        (fmt.longEntry i (lengthOf lens i), fmt.longEntry i (lengthOf lens i) >>> 10)
  | missing (none : ∀ i, ¬Matches lens i v) : SmallFound fmt lens v (0, 0)

omit valid canonical fits counts in
theorem or_shiftLeft {a b k : Nat} (small : a < 2 ^ k) : a ||| b <<< k = a + b * 2 ^ k := by
  rw [Nat.or_comm, ← Nat.shiftLeft_add_eq_or_of_lt small, Nat.shiftLeft_eq, Nat.add_comm]

omit valid canonical fits counts in
theorem pointer_fields {offset m : Nat} (small : offset < 2 ^ 9) :
    (offset ||| m <<< 11 ||| 1 <<< 10).testBit 10 = true ∧ (offset ||| m <<< 11 ||| 1 <<< 10) % 2 ^ 9 = offset ∧
      ((offset ||| m <<< 11 ||| 1 <<< 10) - 1 <<< 10) >>> 11 = m := by
  have value : offset ||| m <<< 11 ||| 1 <<< 10 = offset + 1 * 2 ^ 10 + m * 2 ^ 11 := by
    have flag := or_shiftLeft (b := 1) (show offset < 2 ^ 10 by omega)
    rw [Nat.or_assoc, Nat.or_comm (m <<< 11), ← Nat.or_assoc, flag, or_shiftLeft (by omega)]
  rw [value]
  refine ⟨?_, by omega, ?_⟩
  · rw [Nat.testBit_eq_decide_div_mod_eq]; simp; omega
  · rw [Nat.shiftRight_eq_div_pow]; simp; omega

/-- An entry of the first level belongs to a symbol that comes next. -/
def SmallGood (fmt : TableFormat) (lens : List Nat) (n v e : Nat) : Prop :=
  ∃ i, Matches lens i v ∧ lengthOf lens i ≤ n ∧ lengthOf lens i ≤ 10 ∧ fmt.shortEntry i (lengthOf lens i) = some e

include counts

theorem small_looks (format : SmallFormat fmt lens) (result : LookupTable) (v : Nat) :
    Looks fmt ⟨table, sortCodes table tableLength (countTotals count), countTotals count⟩ (InUse lens)
      (SmallGood fmt lens) 15 (makeSmall fmt result table tableLength count) v := by
  refine makeInflateHuffCode_spec format.lawful (small_sorted valid canonical fits counts)
    (small_free valid canonical fits) ?_ result v
  constructor
  · rintro n v e ⟨i, next, -, direct, entry⟩
    obtain ⟨e', entry', nonzero, -⟩ := format.short i next.used direct
    rw [entry] at entry'
    rwa [Option.some.inj entry']
  · rintro n v w e ⟨i, next, upTo, rest⟩ same
    exact ⟨i, next.of_mod upTo same, upTo, rest⟩
  · rintro n m v e le ⟨i, next, upTo, rest⟩
    exact ⟨i, next, Nat.le_trans upTo le, rest⟩
  · intro i inUse direct
    have length := (canonical_of_used canonical fits inUse).1
    simp only [length] at direct ⊢
    rw [format.directBits] at direct
    obtain ⟨e, entry, -⟩ := format.short i inUse direct
    exact ⟨e, entry, fun v hit =>
      ⟨i, (hit_iff canonical fits inUse).mp hit, Nat.le_refl _, direct, entry⟩⟩
  · exact fun _ _ _ _ _ _ _ => Or.inl rfl

/-- Without long codes no entry is a pointer. -/
theorem small_direct (format : SmallFormat fmt lens) (brief : ∀ i, lengthOf lens i ≤ 10) (result : LookupTable)
    (v : Nat) :
    ((makeSmall fmt result table tableLength count).short (v % 2 ^ isalDecodeShortBits)).testBit 10 = false := by
  have looks := small_looks valid canonical fits counts format result v
  rw [← format.directBits]
  rcases looks with ⟨i, next, -, direct, entry⟩ | ⟨zero, -⟩ | ⟨-, -, -, -, ⟨i, long, -⟩, -⟩
  · obtain ⟨e, entry', -, flag⟩ := format.short i next.used direct
    rw [entry] at entry'
    rwa [Option.some.inj entry']
  · rw [zero, Nat.zero_testBit]
  · have beyond := long.long
    have := brief i
    rw [format.directBits] at beyond
    simp only [(canonical_of_used canonical fits long.used).1, isalDecodeShortBits] at beyond
    omega

theorem smallEntry_found (format : SmallFormat fmt lens) (few : lens.length ≤ 32) (result : LookupTable)
    (v r : Nat) (same : ∀ k, k ≤ 15 → r % 2 ^ k = v % 2 ^ k) :
    SmallFound fmt lens v (smallEntry (makeSmall fmt result table tableLength count) r) := by
  have looks := small_looks valid canonical fits counts format result v
  generalize makeSmall fmt result table tableLength count = lookup at looks
  rw [smallEntry, same _ (by decide), ← format.directBits]
  rcases looks with ⟨i, next, -, direct, entry⟩ | ⟨zero, none⟩ |
    ⟨offset, m, others, region, nonempty, allLong⟩
  · obtain ⟨e, entry', -, flag⟩ := format.short i next.used direct
    rw [entry] at entry'
    simp only
    rw [Option.some.inj entry', if_pos flag]
    rw [Option.some.inj entry'] at entry
    exact .short i e next direct entry
  · simp only [zero, Nat.zero_testBit, if_true, Nat.zero_shiftRight]
    exact .missing fun i next => none i next.used ((hit_iff canonical fits next.used).mpr next)
  · have count := region_few valid canonical fits _ _ region nonempty
    have offsetLe := region.offset_le
    have mLe := region.bounded
    have mGt := region.long
    rw [format.directBits, show 2 ^ (15 - isalDecodeShortBits) = 32 from rfl] at offsetLe
    obtain ⟨flag, low, width⟩ := pointer_fields (m := m) (show offset < 2 ^ 9 by omega)
    simp only
    rw [region.pointer, format.pointer, if_neg (by rw [flag]; decide), low, width, Nat.shiftRight_eq_div_pow,
      same m mLe]
    have place : v % 2 ^ m / 2 ^ fmt.directBits < 2 ^ (m - fmt.directBits) := by
      rw [Nat.div_lt_iff_lt_mul (Nat.two_pow_pos _), ← Nat.pow_add, Nat.sub_add_cancel (Nat.le_of_lt mGt)]
      exact Nat.mod_lt _ (Nat.two_pow_pos _)
    rcases region.entry _ place with ⟨i, long, first, covers, entry⟩ | ⟨zero, none⟩
    · have hit := (long.covers_iff (region.upTo i long first) first.symm).mp covers
      have low := long.long
      have length := (canonical_of_used canonical fits long.used).1
      simp only [length] at low entry
      rw [format.directBits] at low
      rw [entry]
      exact .long i ((hit_iff canonical fits long.used).mp hit) low
    · rw [zero]
      refine .missing fun i next => ?_
      have hit := (hit_iff canonical fits next.used).mpr next
      have long := allLong i next.used hit
      have first : v % 2 ^ fmt.directBits = (table i).codeAndExtra % 2 ^ fmt.directBits := by
        rw [← hit, Nat.mod_mod_of_dvd _ (Nat.pow_dvd_pow 2 (Nat.le_of_lt long.long))]
      exact none i long first.symm ((long.covers_iff (region.upTo i long first.symm) first).mpr hit)

omit valid canonical fits counts in
theorem setCode_code (h : HuffCode) : (h.setCode 0xFFFF).code = 0xFFFF := by
  simp only [HuffCode.code, HuffCode.setCode]; omega

omit valid canonical fits counts in
/-- A 16-bit code and the mark `0xFFFF`. -/
theorem small_lawful (fmt : TableFormat) (directBits : fmt.directBits = isalDecodeShortBits)
    (code : fmt.code = HuffCode.code) (invalid : fmt.invalidCode = 0xFFFF) (mark : fmt.mark = fun h => h.setCode 0xFFFF)
    (longer : ∀ a b, a ≤ b → fmt.longer a b = b)
    (long : ∀ sym length, 0 < length → fmt.longEntry sym length ≠ 0) : fmt.Lawful 15 where
  width := by rw [directBits]; decide
  direct := by rw [directBits]; decide
  code_eq h small := by rw [code, HuffCode.code]; omega
  mark_length h := by rw [mark]; rfl
  mark_mark h := by
    rw [mark]
    simp only [HuffCode.setCode, HuffCode.mk.injEq, and_true]; omega
  mark_code h := by rw [code, mark, invalid, setCode_code]
  invalid := by rw [invalid]; decide
  longer_eq := longer
  longEntry_ne := long

omit valid canonical fits counts in
theorem distExtraBitCount_lt : ∀ i < 32, distExtraBitCount[i]?.getD 0 < 2 ^ 4 := by decide

omit valid canonical fits counts in
theorem headerFormat_small (lens : List Nat) (few : lens.length ≤ codeLenCodes) :
    SmallFormat (headerFormat codeLenCodes) lens where
  directBits := rfl
  lawful := small_lawful _ rfl rfl rfl rfl (fun a b le => by simp only [headerFormat]; split <;> omega)
    (fun sym length positive => by
      simp only [headerFormat, ne_eq, Nat.or_eq_zero_iff, Nat.shiftLeft_eq]; omega)
  pointer _ _ := rfl
  short i inUse direct := by
    have inside : i < 19 := Nat.lt_of_lt_of_le (used_lt inUse) few
    refine ⟨i ||| lengthOf lens i <<< 11, ?_, ?_, ?_⟩
    · simp only [headerFormat]; rw [if_neg (by simp only [codeLenCodes]; omega)]
    · rw [InUse] at inUse
      rw [or_shiftLeft (by omega)]; omega
    · rw [or_shiftLeft (by omega), Nat.testBit_eq_decide_div_mod_eq, decide_eq_false_iff_not]; omega

omit valid canonical fits counts in
theorem distEntry_eq {i length k : Nat} (inside : i < 32) (h : 9 ≤ k) :
    i ||| (distExtraBitCount[i]?.getD 0) <<< 5 ||| length <<< k =
      i + (distExtraBitCount[i]?.getD 0) * 2 ^ 5 + length * 2 ^ k := by
  have := distExtraBitCount_lt i inside
  have width : 2 ^ 9 ≤ 2 ^ k := Nat.pow_le_pow_right (by omega) h
  have low := or_shiftLeft (b := distExtraBitCount[i]?.getD 0) (show i < 2 ^ 5 by omega)
  rw [low, or_shiftLeft (by omega)]

omit valid canonical fits counts in
theorem distFormat_small (lens : List Nat) (maxSymbol : Nat) (few : lens.length ≤ 32) :
    SmallFormat (distFormat maxSymbol) lens where
  directBits := rfl
  lawful := small_lawful _ rfl rfl rfl rfl (fun _ _ _ => rfl) (fun sym length positive => by
    simp only [distFormat]
    split
    · omega
    · simp only [ne_eq, Nat.or_eq_zero_iff, Nat.shiftLeft_eq]; omega)
  pointer _ _ := rfl
  short i inUse direct := by
    have inside : i < 32 := Nat.lt_of_lt_of_le (used_lt inUse) few
    have extra := distExtraBitCount_lt i inside
    rw [InUse] at inUse
    by_cases legal : i < maxSymbol
    · refine ⟨_, by simp only [distFormat]; rw [if_neg (by omega)], ?_, ?_⟩
      · rw [distEntry_eq inside (by omega)]; omega
      · rw [distEntry_eq inside (by omega), Nat.testBit_eq_decide_div_mod_eq, decide_eq_false_iff_not]; omega
    · refine ⟨lengthOf lens i, by simp only [distFormat]; rw [if_pos (by omega)], inUse, ?_⟩
      rw [Nat.testBit_eq_decide_div_mod_eq, decide_eq_false_iff_not]; omega

omit valid canonical fits counts in
theorem loadForCode_views {s : InStream} {v : Nat} {n : Int} (h : Views s v n) :
    Views (loadForCode s) v n ∧ ((15 : Int) ≤ (loadForCode s).readInLength ∨ (loadForCode s).availIn = 0) := by
  rw [loadForCode]
  split
  · exact ⟨h.load.1, h.load.2.imp (fun many => by omega) id⟩
  · rename_i enough
    simp only [maxCodeLen] at enough
    exact ⟨h, Or.inl (by omega)⟩

omit valid canonical fits counts in
theorem decodeNextHeader_eq (huffCode : LookupTable) (s : InStream)
    (positive : (smallEntry huffCode (loadForCode s).readIn).2 ≠ 0) :
    decodeNextHeader huffCode s =
      ((smallEntry huffCode (loadForCode s).readIn).1 % 2 ^ 9,
        (loadForCode s).consume (smallEntry huffCode (loadForCode s).readIn).2) := by
  simp only [decodeNextHeader, smallEntry] at positive ⊢
  split <;> simp_all

/-- The next symbol of the code-length code; its codes are too short for the second level. -/
theorem decodeNextHeader_spec {s : InStream} {v : Nat} {n : Int} (h : Views s v n)
    (few : lens.length ≤ codeLenCodes) (brief : ∀ m ∈ lens, m ≤ 7) (result : LookupTable) :
    let r := decodeNextHeader (makeInflateHuffCodeHeader result table tableLength count codeLenCodes) s
    (∃ i, Matches lens i v ∧ r.1 = i ∧ Views r.2 (v / 2 ^ lengthOf lens i) (n - lengthOf lens i)) ∨
      ((∀ i, ¬Matches lens i v) ∧ r.1 = invalidSymbol % 2 ^ 9 ∧ Views r.2 v n) := by
  obtain ⟨views, loaded⟩ := loadForCode_views h
  have found := smallEntry_found valid canonical fits counts (headerFormat_small lens few)
    (Nat.le_trans few (by decide)) result v (loadForCode s).readIn
    (fun k small => views.peek (loaded.imp (fun many => by omega) id))
  change SmallFound _ _ _ (smallEntry (makeInflateHuffCodeHeader result table tableLength count codeLenCodes) _)
    at found
  generalize hentry : smallEntry _ _ = found_ at found
  have short : ∀ i, lengthOf lens i ≤ 7 := by
    intro i
    by_cases inside : i < lens.length
    · rw [lengthOf_eq inside]; exact brief _ (List.getElem_mem _)
    · simp [lengthOf, List.getElem?_eq_none (Nat.le_of_not_lt inside)]
  rcases found with ⟨i, e, next, direct, entry⟩ | ⟨i, next, beyond⟩ | ⟨none⟩
  · left
    have inside : i < 19 := Nat.lt_of_lt_of_le (used_lt next.used) few
    have used := next.used
    simp only [headerFormat] at entry
    rw [if_neg (by simp only [codeLenCodes]; omega), or_shiftLeft (by omega), Option.some.injEq] at entry
    have length : e >>> 11 = lengthOf lens i := by rw [Nat.shiftRight_eq_div_pow]; omega
    have := short i
    rw [decodeNextHeader_eq _ _ (by rw [hentry]; simp only [length]; exact used), hentry]
    refine ⟨i, next, by simp only; omega, ?_⟩
    simp only [length]
    exact views.consume (loaded.imp (fun many => by omega) id)
  · have := short i
    omega
  · have flag := small_direct valid canonical fits counts (headerFormat_small lens few)
      (fun i => Nat.le_trans (short i) (by omega)) result (loadForCode s).readIn
    change ((makeInflateHuffCodeHeader result table tableLength count codeLenCodes).short _).testBit 10 = false
      at flag
    rw [smallEntry, if_pos flag, Prod.mk.injEq] at hentry
    refine Or.inr ⟨none, ?_⟩
    simp only [decodeNextHeader, hentry.1, Nat.zero_testBit, if_true, Nat.zero_shiftRight,
      consume_zero, views, and_self]

omit valid canonical fits counts in
theorem decodeNextDist_eq (huffCode : LookupTable) (s : InStream) :
    decodeNextDist huffCode s =
      takeDist (smallEntry huffCode (loadForCode s).readIn).1 (smallEntry huffCode (loadForCode s).readIn).2
        (loadForCode s) := by
  simp only [decodeNextDist, smallEntry]
  split <;> rfl

/-- What `decode_next_dist` gives for a stream with value `v` and `n` bits: a symbol, a
symbol that must not be used, or no symbol at all. -/
inductive DistFound (lens : List Nat) (maxSymbol v : Nat) (n : Int) : Nat × InStream → Prop
  | symbol (i : Nat) (s : InStream) (next : Matches lens i v) (legal : i < maxSymbol)
      (views : Views s (v / 2 ^ lengthOf lens i) (n - lengthOf lens i)) : DistFound lens maxSymbol v n (i, s)
  | reserved (i : Nat) (s : InStream) (next : Matches lens i v) (illegal : maxSymbol ≤ i)
      (left : s.readInLength < 0 ↔ n < lengthOf lens i) :
      DistFound lens maxSymbol v n (invalidSymbol % 2 ^ 5, s)
  | missing (s : InStream) (none : ∀ i, ¬Matches lens i v) (left : s.readInLength < 0 ↔ n < 0) :
      DistFound lens maxSymbol v n (invalidSymbol % 2 ^ 5, s)

omit valid canonical fits counts in
theorem Views.negative_iff {s : InStream} {v : Nat} {n : Int} (h : Views s v n) {k : Nat}
    (enough : (k : Int) ≤ s.readInLength ∨ s.availIn = 0) : s.readInLength - k < 0 ↔ n < k := by
  have := h.count
  omega

theorem decodeNextDist_spec {s : InStream} {v : Nat} {n : Int} (h : Views s v n) (few : lens.length ≤ 32)
    (maxSymbol : Nat) (result : LookupTable) :
    DistFound lens maxSymbol v n
      (decodeNextDist (makeInflateHuffCodeDist result table tableLength count maxSymbol) s) := by
  obtain ⟨views, loaded⟩ := loadForCode_views h
  have enough : ∀ k : Nat, k ≤ 15 → (k : Int) ≤ (loadForCode s).readInLength ∨ (loadForCode s).availIn = 0 :=
    fun k small => loaded.imp (fun many => by omega) id
  have found := smallEntry_found valid canonical fits counts (distFormat_small lens maxSymbol few) few result v
    (loadForCode s).readIn (fun k small => views.peek (enough k small))
  change SmallFound _ _ _ (smallEntry (makeInflateHuffCodeDist result table tableLength count maxSymbol) _) at found
  rw [decodeNextDist_eq]
  generalize loadForCode s = t at views enough found ⊢
  generalize smallEntry _ _ = e at found
  -- a legal symbol has its length in the entry, a reserved one only itself as a length
  have legalCase : ∀ i e k, Matches lens i v → i < maxSymbol → 9 ≤ k →
      e = i ||| (distExtraBitCount[i]?.getD 0) <<< 5 ||| lengthOf lens i <<< k → k = 11 ∨ k = 10 →
      DistFound lens maxSymbol v n (takeDist e (e >>> k) t) := by
    rintro i e k next legal wide rfl which
    have inside : i < 32 := Nat.lt_of_lt_of_le (used_lt next.used) few
    have extra := distExtraBitCount_lt i inside
    have bounded := valid.length_le i
    rw [distEntry_eq inside wide]
    have length : (i + (distExtraBitCount[i]?.getD 0) * 2 ^ 5 + lengthOf lens i * 2 ^ k) >>> k = lengthOf lens i := by
      rw [Nat.shiftRight_eq_div_pow]
      rcases which with rfl | rfl <;> omega
    have symbol : (i + (distExtraBitCount[i]?.getD 0) * 2 ^ 5 + lengthOf lens i * 2 ^ k) % 2 ^ 5 = i := by
      rcases which with rfl | rfl <;> omega
    rw [takeDist, length, if_neg next.used, symbol]
    exact .symbol i _ next legal (views.consume (enough _ bounded))
  have reservedCase : ∀ i k, Matches lens i v → maxSymbol ≤ i → 10 ≤ k →
      DistFound lens maxSymbol v n (takeDist (lengthOf lens i) (lengthOf lens i >>> k) t) := by
    intro i k next illegal wide
    have bounded := valid.length_le i
    have none : lengthOf lens i >>> k = 0 := by
      rw [Nat.shiftRight_eq_div_pow, Nat.div_eq_of_lt]
      exact Nat.lt_of_lt_of_le (show lengthOf lens i < 2 ^ 10 by omega) (Nat.pow_le_pow_right (by omega) wide)
    rw [takeDist, none, if_pos rfl]
    exact .reserved i _ next illegal (by simpa using views.negative_iff (enough _ bounded))
  rcases found with ⟨i, e, next, direct, entry⟩ | ⟨i, next, beyond⟩ | ⟨none⟩
  · simp only [distFormat] at entry
    by_cases legal : i < maxSymbol
    · rw [if_neg (by omega), Option.some.injEq] at entry
      exact legalCase i e 11 next legal (by omega) entry.symm (Or.inl rfl)
    · rw [if_pos (by omega), Option.some.injEq] at entry
      subst entry
      exact reservedCase i 11 next (by omega) (by omega)
  · by_cases legal : i < maxSymbol
    · have entry : (distFormat maxSymbol).longEntry i (lengthOf lens i) =
          i ||| (distExtraBitCount[i]?.getD 0) <<< 5 ||| lengthOf lens i <<< 10 := by
        simp only [distFormat]; rw [if_neg (by omega)]
      exact legalCase i _ 10 next legal (by omega) entry (Or.inr rfl)
    · have entry : (distFormat maxSymbol).longEntry i (lengthOf lens i) = lengthOf lens i := by
        simp only [distFormat]; rw [if_pos (by omega)]
      rw [entry]
      exact reservedCase i 10 next (by omega) (by omega)
  · rw [takeDist, if_pos rfl]
    exact .missing _ none (by simpa using views.negative_iff (enough 0 (by omega)))

omit valid canonical fits counts in
/-- On the tables of an accepted vector of lengths `decode_next_dist` finds the symbol whose
codeword comes next, refuses what has none or must not be used, and owes bits exactly when the
codeword goes on behind the last bit. -/
theorem decodeNextDist_canonical {t : Arr HuffCode} (lengths : HasLengths table tableLength lens)
    (few : lens.length ≤ distLen + 2) (fits : lens.length ≤ tableLength) (bounded : ∀ m ∈ lens, m ≤ 15)
    (counts : Counts count lens) (accepted : setCodes table tableLength count = some t) (maxSymbol : Nat)
    (result : LookupTable) {s : InStream} {bits : List Bool} (views : Views s (bitsVal bits) bits.length) :
    let r := decodeNextDist (makeInflateHuffCodeDist result t tableLength count maxSymbol) s
    (∀ i, Matches lens i (bitsVal bits) → i < maxSymbol →
      r.1 = i ∧ Views r.2 (bitsVal bits / 2 ^ lengthOf lens i) (bits.length - lengthOf lens i)) ∧
    (∀ i, Matches lens i (bitsVal bits) → maxSymbol ≤ i → r.1 = invalidSymbol % 2 ^ 5) ∧
    ((∀ i, ¬Matches lens i (bitsVal bits)) → r.1 = invalidSymbol % 2 ^ 5) ∧
    (r.2.readInLength < 0 ↔ ∃ i, Matches lens i (bitsVal bits) ∧ bits.length < lengthOf lens i) := by
  intro r
  rcases setCodes_spec lengths bounded counts with ⟨refused, -⟩ | ⟨t', built, valid, canonical⟩
  · rw [refused] at accepted
    cases accepted
  rw [built, Option.some.injEq] at accepted
  subst accepted
  have found := decodeNextDist_spec valid canonical fits counts views few maxSymbol result
  have only {i j : Nat} (first : Matches lens i (bitsVal bits)) (second : Matches lens j (bitsVal bits)) : i = j :=
    valid.matches_unique first second
  change DistFound _ _ _ _ r at found
  generalize r = r at found
  rcases found with ⟨i, u, next, legal, views⟩ | ⟨i, u, next, illegal, left⟩ | ⟨u, none, left⟩
  · refine ⟨?_, ?_, ?_, ?_⟩
    · intro j other _
      rw [only other next]
      exact ⟨rfl, views⟩
    · intro j other high
      rw [only other next] at high
      omega
    · intro none
      exact absurd next (none i)
    · rw [views.negative]
      constructor
      · intro short
        exact ⟨i, next, by omega⟩
      · rintro ⟨j, other, short⟩
        rw [only other next] at short
        omega
  · refine ⟨?_, fun _ _ _ => rfl, fun _ => rfl, ?_⟩
    · intro j other low
      rw [only other next] at low
      omega
    · rw [left]
      constructor
      · intro short
        exact ⟨i, next, by omega⟩
      · rintro ⟨j, other, short⟩
        rw [only other next] at short
        omega
  · refine ⟨fun j other => absurd other (none j), fun _ _ _ => rfl, fun _ => rfl, ?_⟩
    rw [left]
    constructor
    · intro short
      omega
    · rintro ⟨j, other, -⟩
      exact absurd other (none j)

omit valid canonical fits counts in
/-- Two symbols of one bit each, of which only the first may be used. -/
theorem decodeNextDist_canonical_pair : ∃ t,
    setCodes ⟨fun i => { length := lengthOf [1, 1] i }⟩ 2 ⟨[1, 1].count⟩ = some t ∧
      ∀ result, (decodeNextDist (makeInflateHuffCodeDist result t 2 ⟨[1, 1].count⟩ 1) ⟨0, 0, [1], 0, 1⟩).1 =
        invalidSymbol % 2 ^ 5 := by
  have lengths : HasLengths ⟨fun i => { length := lengthOf [1, 1] i }⟩ 2 [1, 1] := fun _ _ => rfl
  have counts : Counts ⟨[1, 1].count⟩ [1, 1] := fun _ _ _ => rfl
  rcases setCodes_spec lengths (by decide) counts with ⟨-, excess⟩ | ⟨t, built, -⟩
  · exact absurd excess (by decide)
  · refine ⟨t, built, fun result => ?_⟩
    have found := decodeNextDist_canonical lengths (by decide) (by decide) (by decide) counts built 1 result
      (views_initial [1])
    exact found.2.1 1 ⟨by decide, by decide⟩ (by decide)

end Isal.Inflate
