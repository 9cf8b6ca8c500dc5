import Isal.LitLenTables
import Isal.PackBound
import Isal.SecondLevel

/-! The room that the second level of the literal/length table takes up. Up to 12 bits a codeword
has its places to itself, one for each of its entries; the longer ones are packed by their first
bits, and so few symbols have many entries that the places stay within the table, even when
the last place is cleared at the size of the longest entry. -/
namespace Isal.Inflate

open Isal.Bits Isal.Loops Isal.PrefixCode Isal.CountingSort Isal.Grouping

def isalHuffCodeLargeLongAligned : Nat := 1264 -- ISAL_HUFF_CODE_LARGE_LONG_ALIGNED

/-- Extra bits in the order of the symbols; the last symbol is counted with those before it. -/
def lenClass (s : Nat) : Nat := min 5 ((s - 261) / 4)

theorem extraWidth_le_class : ∀ s < 286, extraWidth s ≤ lenClass s := by decide +kernel

theorem lenClass_mono : Monotone lenClass := by
  intro s t le
  have := Nat.div_le_div_right (c := 4) (Nat.sub_le_sub_right le 261)
  rw [lenClass, lenClass]
  omega

theorem lenClass_le (s : Nat) : lenClass s ≤ 5 := Nat.min_le_left ..

theorem sum_lenClass : ∑ s ∈ Finset.range 286, 2 ^ lenClass s = 545 := by decide +kernel

variable {lens : List Nat} {codes : CodeSet}

/-- First bits and cost of the entries that do not fit in the first level. -/
def longEntries (lens : List Nat) (codes : CodeSet) : List (Nat × Nat) :=
  ((entryItems lens).filter fun item => 12 < item.2).map fun item =>
    (firstBits litLenFormat codes item.1, 2 ^ (item.2 - 12))

/-- A codeword of up to 12 bits whose entries are longer. -/
structure Spread (lens : List Nat) (s : Nat) : Prop where
  used : lengthOf lens s ≠ 0
  brief : lengthOf lens s ≤ 12
  long : 12 < lengthOf lens s + extraWidth s

instance (lens : List Nat) (s : Nat) : Decidable (Spread lens s) :=
  decidable_of_iff (lengthOf lens s ≠ 0 ∧ lengthOf lens s ≤ 12 ∧ 12 < lengthOf lens s + extraWidth s)
    ⟨fun h => ⟨h.1, h.2.1, h.2.2⟩, fun h => ⟨h.used, h.brief, h.long⟩⟩

/-- What the first bits `x` cost on account of such a codeword. -/
def spreadCost (lens : List Nat) (x s : Nat) : Nat :=
  if x % 2 ^ lengthOf lens s = revBits (lengthOf lens s) (codeOf lens s)
  then 2 ^ (lengthOf lens s + extraWidth s - 12) else 0

/-- The first bits that a codeword of up to 12 bits is spread over cost what its entries are worth. -/
theorem sum_spreadCost_le {s : Nat} (h : Spread lens s) :
    ∑ x ∈ Finset.range (2 ^ 12), spreadCost lens x s ≤ 2 ^ extraWidth s := by
  have few : (Finset.range (2 ^ 12) |>.filter fun x =>
      x % 2 ^ lengthOf lens s = revBits (lengthOf lens s) (codeOf lens s)).card ≤ 2 ^ (12 - lengthOf lens s) := by
    rw [← Finset.card_range (2 ^ (12 - lengthOf lens s))]
    apply Finset.card_le_card_of_injOn (· / 2 ^ lengthOf lens s)
    · intro x member
      have small := Finset.mem_range.mp (Finset.mem_filter.mp member).1
      rw [Finset.coe_range, Set.mem_Iio, Nat.div_lt_iff_lt_mul (Nat.two_pow_pos _), ← Nat.pow_add,
        Nat.sub_add_cancel h.brief]
      exact small
    · intro x hx y hy same
      have low := (Finset.mem_filter.mp hx).2.trans (Finset.mem_filter.mp hy).2.symm
      rw [← Nat.div_add_mod x (2 ^ lengthOf lens s), ← Nat.div_add_mod y (2 ^ lengthOf lens s), low]
      simp only at same
      rw [same]
  have brief := h.brief
  have long := h.long
  have whole : 2 ^ (12 - lengthOf lens s) * 2 ^ (lengthOf lens s + extraWidth s - 12) = 2 ^ extraWidth s := by
    rw [← Nat.pow_add]; congr 1; omega
  simp only [spreadCost]
  rw [← Finset.sum_filter, Finset.sum_const, smul_eq_mul, ← whole]
  exact Nat.mul_le_mul_right _ few

section Entries

variable (valid : Valid lens 15) (expanded : ∀ i s e, Entry lens i s e → Expanded codes.table lens i s e)

include valid expanded

theorem entry_length_le {i : Nat} (h : HasEntry lens i) : (codes.table i).length ≤ 20 := by
  obtain ⟨s, e, entry⟩ := h
  rw [(expanded i s e entry).1]
  have := valid.length_le s
  have := extraWidth_le s
  omega

omit valid in
theorem mem_longEntries {k c : Nat} : (k, c) ∈ longEntries lens codes ↔
    ∃ i, Long litLenFormat codes (HasEntry lens) i ∧ k = firstBits litLenFormat codes i ∧
      c = 2 ^ ((codes.table i).length - 12) := by
  simp only [longEntries, List.mem_map, List.mem_filter, decide_eq_true_eq, Prod.exists, Prod.mk.injEq]
  constructor
  · rintro ⟨i, n, ⟨member, long⟩, rfl, rfl⟩
    obtain ⟨s, e, entry, rfl⟩ := mem_entryItems.mp member
    have length := (expanded i s e entry).1
    exact ⟨i, ⟨⟨s, e, entry⟩, by rw [length]; exact long⟩, rfl, by rw [length]⟩
  · rintro ⟨i, ⟨⟨s, e, entry⟩, long⟩, rfl, rfl⟩
    have length := (expanded i s e entry).1
    refine ⟨i, _, ⟨mem_entryItems.mpr ⟨s, e, entry, length⟩, long⟩, rfl, rfl⟩

omit valid in
/-- The first bits of an entry are those of its codeword, followed by extra bits if it is short. -/
theorem entry_firstBits {i s e : Nat} (entry : Entry lens i s e) :
    (12 < lengthOf lens s → firstBits litLenFormat codes i = revBits 12 (top lens 12 s)) ∧
    (lengthOf lens s ≤ 12 →
      firstBits litLenFormat codes i % 2 ^ lengthOf lens s = revBits (lengthOf lens s) (codeOf lens s)) := by
  have code := (expanded i s e entry).2
  constructor
  · intro long
    have split : 2 ^ lengthOf lens s = 2 ^ 12 * 2 ^ (lengthOf lens s - 12) := by
      rw [← Nat.pow_add]; congr 1; omega
    rw [firstBits, code]
    change (_ + e * 2 ^ lengthOf lens s) % 2 ^ 12 = _
    rw [split, show e * (2 ^ 12 * 2 ^ (lengthOf lens s - 12)) = 2 ^ 12 * (e * 2 ^ (lengthOf lens s - 12)) from
      Nat.mul_left_comm .., Nat.add_mul_mod_self_left,
      revBits_mod _ (Nat.le_of_lt long), top]
  · intro brief
    rw [firstBits, code]
    change (_ + e * 2 ^ lengthOf lens s) % 2 ^ 12 % _ = _
    rw [Nat.mod_mod_of_dvd _ (Nat.pow_dvd_pow 2 brief), Nat.add_mul_mod_self_right,
      Nat.mod_eq_of_lt (revBits_lt ..)]

/-- The cost of the codewords of more than 12 bits, by their first bits. -/
abbrev packedEntries (lens : List Nat) : List (Nat × Nat) :=
  rename (revBits 12) (longItems lens 12 (classCost lens 12 lenClass) 3)

theorem dearest_entry_le (x : Nat) : dearest (longEntries lens codes) x ≤ dearest (packedEntries lens) x +
    ∑ s ∈ Finset.range 286 with Spread lens s, spreadCost lens x s := by
  rw [dearest_le_iff]
  intro c member
  obtain ⟨i, ⟨⟨s, e, entry⟩, long⟩, rfl, rfl⟩ := (mem_longEntries expanded).mp member
  have length := (expanded i s e entry).1
  have bits := entry_firstBits expanded entry
  have legal := entry.legal
  simp only [litLen] at legal
  have long : 12 < lengthOf lens s + extraWidth s := by rw [← length]; exact long
  have bounded := valid.length_le s
  rw [length]
  by_cases brief : lengthOf lens s ≤ 12
  · have spread : s ∈ (Finset.range 286).filter (Spread lens) := by
      rw [Finset.mem_filter, Finset.mem_range]
      exact ⟨legal, entry.used, brief, long⟩
    have cost : spreadCost lens (firstBits litLenFormat codes i) s = 2 ^ (lengthOf lens s + extraWidth s - 12) := by
      rw [spreadCost, if_pos (bits.2 brief)]
    change 2 ^ (lengthOf lens s + extraWidth s - 12) ≤ _
    rw [← cost]
    refine Nat.le_trans ?_ (Nat.le_add_left ..)
    exact Finset.single_le_sum (f := spreadCost lens (firstBits litLenFormat codes i)) (fun _ _ => Nat.zero_le _) spread
  · have more := extraWidth_le_class s legal
    have listed : (firstBits litLenFormat codes i, classCost lens 12 lenClass s) ∈ packedEntries lens := by
      rw [mem_rename]
      refine ⟨top lens 12 s, mem_longItems.mpr ⟨s, by omega, by omega, rfl, rfl⟩, ?_⟩
      exact (bits.1 (by omega)).symm
    have cost : 2 ^ (lengthOf lens s + extraWidth s - 12) ≤ classCost lens 12 lenClass s := by
      rw [classCost, ← Nat.pow_add]
      exact Nat.pow_le_pow_right (by decide) (by omega)
    have := le_dearest listed
    omega

omit expanded in
theorem packed_distinct : Set.InjOn (revBits 12) (keys (longItems lens 12 (classCost lens 12 lenClass) 3)) := by
  have small : ∀ x ∈ keys (longItems lens 12 (classCost lens 12 lenClass) 3), x < 2 ^ 12 := by
    intro x member
    obtain ⟨c, member⟩ := mem_keys.mp member
    obtain ⟨s, long, -, rfl, -⟩ := mem_longItems.mp member
    exact valid.top_lt long
  exact fun x hx y hy same => revBits_inj (small x hx) (small y hy) same

/-- The codeword that begins with twelve ones ends in the last place. -/
theorem last_place {i : Nat} (h : Long litLenFormat codes (HasEntry lens) i)
    (ones : firstBits litLenFormat codes i = 2 ^ 12 - 1) : (2 ^ 12 - 1) * 8 < kraft lens 15 := by
  obtain ⟨⟨s, e, entry⟩, -⟩ := h
  have bits := entry_firstBits expanded entry
  have bounded := valid.length_le s
  have reach := valid.codeOf_succ_le entry.used
  have cut : ∀ n ≤ 12, (2 ^ 12 - 1) % 2 ^ n = 2 ^ n - 1 := by decide
  have reversed : ∀ n ≤ 12, revBits n (2 ^ n - 1) = 2 ^ n - 1 := by decide
  by_cases brief : lengthOf lens s ≤ 12
  · have code := bits.2 brief
    have positive := Nat.two_pow_pos (lengthOf lens s)
    rw [ones, cut _ brief] at code
    have full : codeOf lens s = 2 ^ lengthOf lens s - 1 :=
      revBits_inj (valid.codeOf_lt_pow entry.used) (by omega) (by rw [← code, reversed _ brief])
    rw [full, Nat.sub_add_cancel positive, ← Nat.pow_add, Nat.add_sub_cancel' bounded] at reach
    omega
  · have first := bits.1 (by omega)
    rw [ones] at first
    have top_ : top lens 12 s = 2 ^ 12 - 1 :=
      revBits_inj (valid.top_lt (by omega)) (by decide) (by rw [← first, reversed 12 (Nat.le_refl _)])
    have below : top lens 12 s * 2 ^ (lengthOf lens s - 12) ≤ codeOf lens s := Nat.div_mul_le_self ..
    rw [top_] at below
    have scaled := Nat.mul_le_mul_right (2 ^ (15 - lengthOf lens s)) below
    rw [Nat.mul_assoc, ← Nat.pow_add, show lengthOf lens s - 12 + (15 - lengthOf lens s) = 3 by omega] at scaled
    rw [Nat.succ_mul] at reach
    have := Nat.two_pow_pos (15 - lengthOf lens s)
    omega

variable (sorted : SortedCodes codes (HasEntry lens) 21) (few : lens.length ≤ litLen)

include sorted few

omit expanded sorted valid in
/-- Every symbol is counted once, as a long codeword or as one that is spread. -/
theorem worth_add_spread_le : worth lens 12 lenClass 3 +
    ∑ s ∈ Finset.range 286 with Spread lens s, 2 ^ lenClass s ≤ 545 := by
  have wide : worth lens 12 lenClass 3 ≤
      ∑ s ∈ Finset.range 286 with 12 < lengthOf lens s ∧ lengthOf lens s ≤ 12 + 3, 2 ^ lenClass s :=
    Finset.sum_le_sum_of_subset (Finset.filter_subset_filter _ (Finset.range_subset_range.mpr few))
  refine Nat.le_trans (Nat.add_le_add_right wide _) ?_
  rw [← sum_lenClass, Finset.sum_filter, Finset.sum_filter, ← Finset.sum_add_distrib]
  apply Finset.sum_le_sum
  intro s _
  by_cases spread : Spread lens s
  · have := spread.brief
    rw [if_neg (by omega), if_pos spread, Nat.zero_add]
  · rw [if_neg spread, Nat.add_zero]
    split <;> simp

omit expanded sorted valid few in
theorem sum_spread_le (K : Finset Nat) (inside : K ⊆ Finset.range (2 ^ 12)) :
    ∑ x ∈ K, ∑ s ∈ Finset.range 286 with Spread lens s, spreadCost lens x s ≤
      ∑ s ∈ Finset.range 286 with Spread lens s, 2 ^ lenClass s := by
  calc _ ≤ ∑ x ∈ Finset.range (2 ^ 12), ∑ s ∈ Finset.range 286 with Spread lens s, spreadCost lens x s :=
        Finset.sum_le_sum_of_subset inside
    _ = ∑ s ∈ Finset.range 286 with Spread lens s, ∑ x ∈ Finset.range (2 ^ 12), spreadCost lens x s :=
        Finset.sum_comm
    _ ≤ _ := by
      apply Finset.sum_le_sum
      intro s member
      obtain ⟨legal, spread⟩ := Finset.mem_filter.mp member
      refine Nat.le_trans (sum_spreadCost_le spread) ?_
      exact Nat.pow_le_pow_right (by decide) (extraWidth_le_class s (Finset.mem_range.mp legal))

omit expanded sorted few in
/-- The packed codewords but those of the last place cost the full places only, if an entry begins
with twelve ones, and all of them cost one place more at most. -/
theorem packed_others_le (p : Pack) (packed : Packed 8 (longItems lens 12 (classCost lens 12 lenClass) 3) p)
    (ends : p.position = kraft lens 15) (K : Finset Nat) :
    let others := ∑ x ∈ K.erase (2 ^ 12 - 1), dearest (packedEntries lens) x
    others ≤ p.closed + 2 ^ 8 ∧ ((2 ^ 12 - 1) * 8 < kraft lens 15 → others ≤ p.closed) := by
  intro others
  have ones : revBits 12 (2 ^ 12 - 1) = 2 ^ 12 - 1 := by decide
  have listed : others ≤ ∑ x ∈ (keys (packedEntries lens)).erase (2 ^ 12 - 1), dearest (packedEntries lens) x := by
    apply Finset.sum_le_sum_of_ne_zero
    intro x member some_
    refine Finset.mem_erase.mpr ⟨Finset.ne_of_mem_erase member, ?_⟩
    by_contra missing
    exact some_ (dearest_eq_zero missing)
  have renamed := sum_rename_erase_le (packed_distinct valid) (2 ^ 12 - 1)
  rw [ones] at renamed
  have within := Nat.le_trans listed renamed
  constructor
  · have opened : p.opened ≤ 2 ^ 8 := by
      rw [← packed.opened_eq, dearest_le_iff]
      intro c member
      obtain ⟨s, -, upTo, -, rfl⟩ := mem_longItems.mp member
      have := lenClass_le s
      rw [classCost, ← Nat.pow_add]
      exact Nat.pow_le_pow_right (by decide) (by omega)
    have all : ∑ x ∈ (keys (longItems lens 12 (classCost lens 12 lenClass) 3)).erase (2 ^ 12 - 1),
        dearest (longItems lens 12 (classCost lens 12 lenClass) 3) x ≤
          total (longItems lens 12 (classCost lens 12 lenClass) 3) :=
      Finset.sum_le_sum_of_subset (Finset.erase_subset ..)
    rw [packed.total_eq] at all
    omega
  · intro reach
    refine Nat.le_trans within (packed.others_le fun some_ => ?_)
    have fits := valid.kraft_le
    by_cases whole : p.position = 2 ^ 15
    · -- no codeword begins after the last place
      refine absurd ?_ some_
      rw [← packed.opened_eq]
      apply dearest_eq_zero
      intro member
      have := packed.below _ member
      omega
    · omega

theorem litLenSecondLevel_le :
    secondLevelLength litLenFormat codes (codes.countTotal 22) ≤ isalHuffCodeLargeLongAligned := by
  have free := expanded_free valid expanded
  have marks : ∀ h, (litLenFormat.mark h).code % 2 ^ litLenFormat.directBits = 2 ^ litLenFormat.directBits - 1 := by
    intro h
    simp [litLenFormat, invalidCode, HuffCode.code, isalDecodeLongBits]
  have bound := secondLevelLength_le litLenFormat_lawful sorted free marks
    (fun k c => mem_longEntries expanded) fun i hi => entry_length_le valid expanded hi.used
  change secondLevelLength litLenFormat codes (codes.countTotal 22) ≤
    ∑ x ∈ (keys (longEntries lens codes)).erase (2 ^ 12 - 1), dearest (longEntries lens codes) x +
    if 2 ^ 12 - 1 ∈ keys (longEntries lens codes) then 2 ^ (20 - 12) else 0 at bound
  have packed : Packed (2 ^ (15 - 12)) (longItems lens 12 (classCost lens 12 lenClass) 3)
    (packLong lens 15 12 (classCost lens 12 lenClass) 3) := packLong_packed 3 (Nat.le_refl _)
  have ends : (packLong lens 15 12 (classCost lens 12 lenClass) 3).position = kraft lens 15 :=
    packLong_position valid.bounded (by omega)
  have full : (packLong lens 15 12 (classCost lens 12 lenClass) 3).closed ≤
      worth lens 12 lenClass 3 + allowance 5 3 5 := packLong_closed_le lenClass_mono lenClass_le (by omega) (by omega)
  generalize packLong lens 15 12 (classCost lens 12 lenClass) 3 = p at packed ends full
  have counted := worth_add_spread_le few
  have extra : allowance 5 3 5 = 461 := by decide
  have inside : (keys (longEntries lens codes)).erase (2 ^ 12 - 1) ⊆ Finset.range (2 ^ 12) := by
    intro x member
    obtain ⟨c, member⟩ := mem_keys.mp (Finset.mem_of_mem_erase member)
    obtain ⟨i, -, rfl, -⟩ := (mem_longEntries expanded).mp member
    exact Finset.mem_range.mpr (Nat.mod_lt _ (Nat.two_pow_pos _))
  have parts : ∑ x ∈ (keys (longEntries lens codes)).erase (2 ^ 12 - 1), dearest (longEntries lens codes) x ≤
      ∑ x ∈ (keys (longEntries lens codes)).erase (2 ^ 12 - 1), dearest (packedEntries lens) x +
        ∑ s ∈ Finset.range 286 with Spread lens s, 2 ^ lenClass s := by
    refine Nat.le_trans (Finset.sum_le_sum fun x _ => dearest_entry_le valid expanded x) ?_
    rw [Finset.sum_add_distrib]
    exact Nat.add_le_add_left (sum_spread_le _ inside) _
  obtain ⟨most, last⟩ := packed_others_le valid p packed ends (keys (longEntries lens codes))
  rw [isalHuffCodeLargeLongAligned]
  by_cases ones : 2 ^ 12 - 1 ∈ keys (longEntries lens codes)
  · obtain ⟨c, member⟩ := mem_keys.mp ones
    obtain ⟨i, hi, same, -⟩ := (mem_longEntries expanded).mp member
    have := last (last_place valid expanded hi same.symm)
    rw [if_pos ones] at bound
    omega
  · rw [if_neg ones] at bound
    omega

end Entries

section Lists

variable {count expandCount : Arr Nat} (valid : Valid lens 15) (counts : ExpandCounts count expandCount lens)
  (total : codes.countTotal = accumulateCounts count expandCount)
  (placed : ∃ cursor, Placed codes.countTotal.get (entryItems lens) cursor codes.codeList)

include counts total

theorem codeList_few : codes.countTotal 22 ≤ litLenElems := by
  have few := entryItems_length lens
  have upTo : itemsUpTo (entryItems lens) (22 - 1) ≤ _ := itemsUpTo_le (entryItems lens) 21
  rw [total, accumulateCounts_eq counts (by omega) (Nat.le_refl _), litLenElems]
  omega

include placed

/-- Every entry is listed once. -/
theorem longCodeList_nodup (sorted : SortedCodes codes (HasEntry lens) 21) :
    (longCodeList litLenFormat codes (codes.countTotal 22)).Nodup := by
  obtain ⟨cursor, placed⟩ := placed
  rw [longCodeList]
  refine List.Nodup.map_on ?_ List.nodup_range'
  intro p hp q hq same
  rw [List.mem_range'_1] at hp hq
  obtain ⟨low, high, lower, upper⟩ := sorted.block (show p < codes.countTotal 22 by omega)
  obtain ⟨-, -, lower', upper'⟩ := sorted.block (show q < codes.countTotal 22 by omega)
  rw [← same] at lower' upper'
  generalize (codes.table (codes.codeList p)).length = n at low high lower upper lower' upper'
  rw [total, accumulateCounts_succ counts low high, ← total] at upper upper'
  have once : (keyed (entryItems lens) n).Nodup := by
    have all : ((entryItems lens).map (·.1)).Nodup := (entryItems_ascending lens).imp Nat.ne_of_lt
    exact all.sublist (List.filter_sublist.map _)
  have first := List.getElem?_eq_getElem (l := keyed (entryItems lens) n) (i := p - codes.countTotal n) (by omega)
  have second := List.getElem?_eq_getElem (l := keyed (entryItems lens) n) (i := q - codes.countTotal n) (by omega)
  have at_ := placed.placed n _ _ first
  have at_' := placed.placed n _ _ second
  rw [Nat.add_sub_cancel' lower] at at_
  rw [Nat.add_sub_cancel' lower'] at at_'
  have := (once.getElem_inj_iff).mp (at_.symm.trans (same.trans at_'))
  omega

end Lists

variable {table : Arr HuffCode} {count expandCount : Arr Nat}

/-- The arrays of the literal/length table are large enough for every accepted code: what is
written of the second level, a group of long codes, and the list of all codes. -/
theorem makeInflateHuffCodeLitLen_fits (tableLength : Nat) (lengths : HasLengths table litLen lens)
    (few : lens.length ≤ litLen) (bounded : ∀ n ∈ lens, n ≤ 15) (counts : Counts count lens)
    (expandCounts : ExpandCounts count expandCount lens)
    (accepted : setAndExpandLitLenHuffcode table tableLength count expandCount = some codes) :
    let codeListLen := codes.countTotal (maxLitLenCount - 1)
    (∀ (multisym : Nat) (result : LookupTable) (k : Nat), isalHuffCodeLargeLongAligned ≤ k →
      (makeInflateHuffCodeLitLen result codes multisym).long k = result.long k) ∧
    (∀ (lookup : LookupTable),
      ∀ group ∈ tempCodeLists litLenFormat (longCodeList litLenFormat codes codeListLen) ⟨codes.table, lookup, 0⟩,
        group.length ≤ 512) ∧
    codeListLen ≤ litLenElems ∧ ∀ p, litLenElems ≤ p → codes.codeList p = 0 := by
  rcases setAndExpand_placed tableLength lengths bounded counts expandCounts with
    ⟨refused, -⟩ | ⟨codes', built, valid, total, placed, beyond, expanded⟩
  · rw [refused] at accepted
    cases accepted
  rw [built, Option.some.injEq] at accepted
  subst accepted
  have sorted : SortedCodes codes' (HasEntry lens) 21 := by
    obtain ⟨cursor, placed⟩ := placed
    obtain ⟨table', list, countTotal⟩ := codes'
    simp only at total placed
    subst total
    exact expanded_sorted valid expandCounts expanded placed
  have free := expanded_free valid expanded
  have listLength := codeList_few expandCounts total
  refine ⟨fun multisym => ?_, fun lookup => ?_, listLength, beyond⟩
  · exact (untouched_iff litLenFormat codes' _ (encodeMultisym codes' multisym) _).mpr
      (litLenSecondLevel_le valid expanded sorted few)
  · have short : (longCodeList litLenFormat codes' (codes'.countTotal 22)).length ≤ litLenElems := by
      rw [longCodeList, List.length_map, List.length_range']
      exact Nat.le_trans (Nat.sub_le ..) listLength
    exact tempCodeLists_length free (fun i hi => entry_length_le valid expanded hi.used) litLenFormat_lawful sorted
      (Nat.le_refl _) _ (Filling.start litLenFormat_lawful sorted free lookup)
      (fun i member => (mem_longCodeList litLenFormat_lawful sorted).mp member)
      (longCodeList_ordered litLenFormat_lawful sorted) (longCodeList_nodup expandCounts total placed sorted)
      (by rw [List.length_nil]; exact short)

/-- A code with the end of block and a length of one bit each. -/
theorem makeInflateHuffCodeLitLen_fits_two : ∃ codes,
    setAndExpandLitLenHuffcode ⟨fun i => { length := lengthOf (List.replicate 256 0 ++ [1, 1]) i }⟩ litLen
      ⟨(List.replicate 256 0 ++ [1, 1]).count⟩ (.const 0) = some codes ∧
    (∀ (multisym : Nat) (result : LookupTable) (k : Nat), isalHuffCodeLargeLongAligned ≤ k →
      (makeInflateHuffCodeLitLen result codes multisym).long k = result.long k) ∧
    codes.countTotal (maxLitLenCount - 1) ≤ litLenElems := by
  have all : ∀ n < 22, 1 ≤ n →
      ((if n ≤ 15 then (List.replicate 256 0 ++ [1, 1]).count n else 0) + 0) % 2 ^ 16 =
      (keyed (entryItems (List.replicate 256 0 ++ [1, 1])) n).length % 2 ^ 16 := by decide +kernel
  have expandCounts : ExpandCounts ⟨(List.replicate 256 0 ++ [1, 1]).count⟩ (.const 0)
      (List.replicate 256 0 ++ [1, 1]) := fun n low high => all n (by omega) low
  have lengths : HasLengths ⟨fun i => { length := lengthOf (List.replicate 256 0 ++ [1, 1]) i }⟩ litLen
      (List.replicate 256 0 ++ [1, 1]) := fun _ _ => rfl
  have counts : Counts ⟨(List.replicate 256 0 ++ [1, 1]).count⟩ (List.replicate 256 0 ++ [1, 1]) :=
    fun _ _ _ => rfl
  have bounded : ∀ n ∈ List.replicate 256 0 ++ [1, 1], n ≤ 15 := by decide +kernel
  rcases setAndExpand_placed litLen lengths bounded counts expandCounts with ⟨-, excess⟩ | ⟨codes, built, -⟩
  · exact absurd excess (by decide +kernel)
  · obtain ⟨inside, -, few, -⟩ := makeInflateHuffCodeLitLen_fits litLen lengths (by decide +kernel) bounded counts
      expandCounts built
    exact ⟨codes, built, inside, few⟩

end Isal.Inflate
