import Isal.Grouping
import Isal.TwoLevel

/-! How far the second level of a table reaches. The regions of the groups follow one another,
so what `fillLong` writes are the places below its final length, and that length is the sum
of the sizes of the regions. -/
namespace Isal.Inflate

open Isal.Bits Isal.Loops Isal.Grouping

variable {fmt : TableFormat}

/-- The round of `fillLong` for a code that has not been placed. -/
def placeFirst (fmt : TableFormat) (sym : Nat) (rest : List Nat) (s : LongState) : LongState :=
  let m := (collectGroup fmt s.table sym rest).1
  let size := 1 <<< (m - fmt.directBits)
  let s' := placeGroup fmt s.lookupLength m (collectGroup fmt s.table sym rest).2
    { s with lookup := { s.lookup with long := s.lookup.long.fill s.lookupLength size 0 } }
  { s' with
    lookup := { s'.lookup with
      short := s'.lookup.short.set (fmt.code (s.table sym) % 2 ^ fmt.directBits)
        (fmt.pointer s.lookupLength m) }
    lookupLength := s.lookupLength + size }

theorem fillLong_cons (sym : Nat) (rest : List Nat) (s : LongState) :
    fillLong fmt (sym :: rest) s =
      if fmt.code (s.table sym) = fmt.invalidCode then fillLong fmt rest s
      else fillLong fmt rest (placeFirst fmt sym rest s) := rfl

/-- What `temp_code_list` holds, group after group. -/
def tempCodeLists (fmt : TableFormat) : List Nat → LongState → List (List Nat)
  | [], _ => []
  | sym :: rest, s =>
    if fmt.code (s.table sym) = fmt.invalidCode then tempCodeLists fmt rest s
    else (collectGroup fmt s.table sym rest).2 :: tempCodeLists fmt rest (placeFirst fmt sym rest s)

section Reach

variable (fmt)

/-- The states agree but for the places of the second level that are still to be written. -/
structure Alike (s t : LongState) : Prop where
  table : s.table = t.table
  lookupLength : s.lookupLength = t.lookupLength
  long : ∀ k < s.lookupLength, s.lookup.long k = t.lookup.long k

theorem fillStride_reach (offset size entry pos : Nat) {inc : Nat} (forward : 0 < inc) (long long' : Arr Nat) :
    (∀ k, offset + size ≤ k → fillStride offset size inc entry pos long k = long k) ∧
    ∀ k, long k = long' k →
      fillStride offset size inc entry pos long k = fillStride offset size inc entry pos long' k := by
  obtain ⟨written, kept⟩ := @fillStride_spec offset size inc entry pos long forward
  obtain ⟨written', kept'⟩ := @fillStride_spec offset size inc entry pos long' forward
  constructor
  · intro k beyond
    exact kept k fun y _ _ small => by omega
  · intro k same
    by_cases hit : ∃ y, k = offset + y ∧ pos ≤ y ∧ y < size ∧ (y - pos) % inc = 0
    · obtain ⟨y, rfl, low, small, multiple⟩ := hit
      rw [written y low small multiple, written' y low small multiple]
    · have apart : ∀ y, k = offset + y → pos ≤ y → y < size → (y - pos) % inc ≠ 0 :=
        fun y at_ low small multiple => hit ⟨y, at_, low, small, multiple⟩
      rw [kept k apart, kept' k apart, same]

/-- Placing a group writes inside of its region, and the same whatever was there. -/
theorem placeGroup_reach (offset m : Nat) (group : List Nat) (s t : LongState) (table : s.table = t.table) :
    let s' := placeGroup fmt offset m group s
    let t' := placeGroup fmt offset m group t
    s'.table = t'.table ∧ s'.lookupLength = s.lookupLength ∧
      (∀ k, offset + 2 ^ (m - fmt.directBits) ≤ k → s'.lookup.long k = s.lookup.long k) ∧
      ∀ k, s.lookup.long k = t.lookup.long k → s'.lookup.long k = t'.lookup.long k := by
  induction group generalizing s t with
  | nil => exact ⟨table, rfl, fun _ _ => rfl, fun _ same => same⟩
  | cons sym group ih =>
    rw [placeGroup_cons, placeGroup_cons]
    have forward : 0 < 1 <<< ((s.table sym).length - fmt.directBits) := by
      rw [Nat.one_shiftLeft]; exact Nat.two_pow_pos _
    have reach := fillStride_reach offset (1 <<< (m - fmt.directBits)) (fmt.longEntry sym (s.table sym).length)
      (fmt.code (s.table sym) >>> fmt.directBits) forward s.lookup.long t.lookup.long
    have first : (placeCode fmt offset m s sym).table = (placeCode fmt offset m t sym).table := by
      simp only [placeCode, placeGroup, List.foldl_cons, List.foldl_nil, table]
    obtain ⟨tables, lengths, beyond, agree⟩ := ih (placeCode fmt offset m s sym) (placeCode fmt offset m t sym) first
    refine ⟨tables, lengths, fun k out => ?_, fun k same => ?_⟩
    · rw [beyond k out]
      exact reach.1 k (by rwa [Nat.one_shiftLeft])
    · apply agree
      have := reach.2 k same
      simp only [placeCode, placeGroup, List.foldl_cons, List.foldl_nil]
      rwa [← table]

theorem placeFirst_alike (sym : Nat) (rest : List Nat) {s t : LongState} (h : Alike s t) :
    Alike (placeFirst fmt sym rest s) (placeFirst fmt sym rest t) ∧
      ∀ k, (placeFirst fmt sym rest s).lookupLength ≤ k →
        (placeFirst fmt sym rest s).lookup.long k = s.lookup.long k := by
  obtain ⟨table, lookup, length⟩ := s
  obtain ⟨_, lookup', _⟩ := t
  obtain ⟨rfl, rfl, long⟩ := h
  dsimp only at long
  simp only [placeFirst]
  generalize collectGroup fmt table sym rest = collected
  obtain ⟨m, group⟩ := collected
  dsimp only
  obtain ⟨tables, -, beyond, agree⟩ := placeGroup_reach fmt length m group
    ⟨table, { lookup with long := lookup.long.fill length (1 <<< (m - fmt.directBits)) 0 }, length⟩
    ⟨table, { lookup' with long := lookup'.long.fill length (1 <<< (m - fmt.directBits)) 0 }, length⟩ rfl
  refine ⟨⟨tables, rfl, ?_⟩, ?_⟩
  · intro k small
    apply agree
    simp only [Arr.fill_get]
    by_cases inside : length ≤ k
    · rw [if_pos ⟨inside, small⟩, if_pos ⟨inside, small⟩]
    · rw [if_neg (fun both => inside both.1), if_neg (fun both => inside both.1), long k (by omega)]
  · intro k out
    rw [Nat.one_shiftLeft] at out
    rw [beyond k out]
    simp only [Arr.fill_get]
    rw [if_neg (by rw [Nat.one_shiftLeft]; omega)]

theorem placeFirst_longer (sym : Nat) (rest : List Nat) (s : LongState) :
    s.lookupLength ≤ (placeFirst fmt sym rest s).lookupLength := Nat.le_add_right ..

/-- `fillLong` writes every place below its final length and no other. -/
theorem fillLong_reach (rest : List Nat) {s t : LongState} (h : Alike s t) :
    Alike (fillLong fmt rest s) (fillLong fmt rest t) ∧ s.lookupLength ≤ (fillLong fmt rest s).lookupLength ∧
      ∀ k, (fillLong fmt rest s).lookupLength ≤ k → (fillLong fmt rest s).lookup.long k = s.lookup.long k := by
  induction rest generalizing s t with
  | nil => exact ⟨h, Nat.le_refl _, fun _ _ => rfl⟩
  | cons sym rest ih =>
    rw [fillLong_cons, fillLong_cons, ← h.table]
    split
    · exact ih h
    · obtain ⟨alike, beyond⟩ := placeFirst_alike fmt sym rest h
      obtain ⟨same, longer, later⟩ := ih alike
      have first := placeFirst_longer fmt sym rest s
      refine ⟨same, by omega, fun k out => ?_⟩
      rw [later k out, beyond k (by omega)]

end Reach

section Length

variable {codes : CodeSet} {used : Nat → Prop} {maxLen : Nat} {short : Arr Nat}

/-- Region `x` is laid out for codes of length `m`. A code beyond it that has been marked may
have been taken for one of its own where `x` is what the mark begins with. -/
structure Measured (fmt : TableFormat) (codes : CodeSet) (used : Nat → Prop) (clean : Prop) (x m : Nat) : Prop where
  upTo : ∀ i, Long fmt codes used i → firstBits fmt codes i = x → (codes.table i).length ≤ m
  reached : ∃ j, Long fmt codes used j ∧ m = (codes.table j).length
  own : (x = 2 ^ fmt.directBits - 1 → clean) →
    ∃ j, Long fmt codes used j ∧ firstBits fmt codes j = x ∧ m = (codes.table j).length

/-- After a code that begins like the mark there are only others that do. -/
def MarkLast (fmt : TableFormat) (codes : CodeSet) (list : List Nat) : Prop :=
  list.Pairwise fun i j =>
    firstBits fmt codes i = 2 ^ fmt.directBits - 1 → firstBits fmt codes j = 2 ^ fmt.directBits - 1

variable (lawful : fmt.Lawful maxLen) (sorted : SortedCodes codes used maxLen)
  (free : PrefixFree codes.table used)
  (marks : ∀ h, (fmt.mark h).code % 2 ^ fmt.directBits = 2 ^ fmt.directBits - 1)

include lawful sorted free marks

theorem Filling.measured {sym : Nat} {rest placed : List Nat} {s : LongState}
    (h : Filling fmt codes used maxLen short (sym :: rest) placed s)
    (long : ∀ i ∈ sym :: rest, Long fmt codes used i)
    (ordered : (sym :: rest).Pairwise (fun i j => (codes.table i).length ≤ (codes.table j).length))
    (fresh : s.table sym = codes.table sym) :
    Measured fmt codes used (MarkLast fmt codes (sym :: rest)) (firstBits fmt codes sym)
      (collectGroup fmt s.table sym rest).1 := by
  obtain ⟨-, -, collected⟩ := h.collected lawful sorted free long ordered fresh
  obtain ⟨j, inGroup, longest⟩ := collected.reached
  have inList := collected.sublist.subset inGroup
  refine ⟨fun i hi same => collected.upTo i (collected.whole i hi same).1, ⟨j, long j inList, longest⟩, ?_⟩
  intro clean
  refine ⟨j, long j inList, ?_, longest⟩
  rcases h.known j (long j inList).used with notMarked | marked
  · exact collected.genuine j inGroup notMarked
  · rcases collected.marks j inGroup with rfl | bits
    · rfl
    · rw [marked, marks] at bits
      rcases List.mem_cons.mp inList with rfl | inRest
      · rfl
      · rw [← bits]
        exact (List.pairwise_cons.mp (clean bits.symm)).1 j inRest bits.symm

theorem fillLong_regions (rest : List Nat) {placed : List Nat} {s : LongState}
    (h : Filling fmt codes used maxLen short rest placed s) (long : ∀ i ∈ rest, Long fmt codes used i)
    (ordered : rest.Pairwise (fun i j => (codes.table i).length ≤ (codes.table j).length)) :
    ∃ regions : List (Nat × Nat),
      Filling fmt codes used maxLen short [] (regions.map (·.1) ++ placed) (fillLong fmt rest s) ∧
      (fillLong fmt rest s).lookupLength =
        s.lookupLength + (regions.map fun r => 2 ^ (r.2 - fmt.directBits)).sum ∧
      ∀ r ∈ regions, Measured fmt codes used (MarkLast fmt codes rest) r.1 r.2 := by
  induction rest generalizing placed s with
  | nil => exact ⟨[], h, rfl, by simp⟩
  | cons sym rest ih =>
    have symLong := long sym (by simp)
    have later := fun i member => long i (List.mem_cons_of_mem sym member)
    have weaken : ∀ {x m : Nat}, Measured fmt codes used (MarkLast fmt codes rest) x m →
        Measured fmt codes used (MarkLast fmt codes (sym :: rest)) x m :=
      fun measured => { measured with own := fun clean => measured.own fun same => (clean same).of_cons }
    rw [fillLong_cons]
    split
    · rename_i mark
      obtain ⟨regions, filling, length, measured⟩ :=
        ih (h.skip lawful sorted free symLong mark) later ordered.of_cons
      exact ⟨regions, filling, length, fun r member => weaken (measured r member)⟩
    · rename_i notMark
      have fresh := h.fresh lawful symLong notMark
      have next : Filling fmt codes used maxLen short rest (firstBits fmt codes sym :: placed)
        (placeFirst fmt sym rest s) := h.group lawful sorted free long ordered fresh
      obtain ⟨regions, filling, length, measured⟩ := ih next later ordered.of_cons
      have first := h.measured lawful sorted free marks long ordered fresh
      refine ⟨regions ++ [(firstBits fmt codes sym, (collectGroup fmt s.table sym rest).1)], ?_, ?_, ?_⟩
      · simpa using filling
      · rw [length]
        simp only [placeFirst, List.map_append, List.map_cons, List.map_nil, List.sum_append, List.sum_cons,
          List.sum_nil, Nat.one_shiftLeft]
        omega
      · intro r member
        rcases List.mem_append.mp member with old | last
        · exact weaken (measured r old)
        · rw [List.mem_singleton.mp last]
          exact first

/-- `long_code_lookup_length` at the end: what the second level of a code takes up. -/
def secondLevelLength (fmt : TableFormat) (codes : CodeSet) (codeListLen : Nat) : Nat :=
  (fillLong fmt (longCodeList fmt codes codeListLen) ⟨codes.table, ⟨.const 0, .const 0⟩, 0⟩).lookupLength

omit lawful sorted free marks in
/-- A table is written below the length of the second level, whatever it held. -/
theorem makeInflateHuffCode_reach (fmt : TableFormat) (codes : CodeSet) (codeListLen : Nat)
    (encodeMore : Nat → Nat → Arr Nat → Arr Nat) (result result' : LookupTable) :
    (∀ k, secondLevelLength fmt codes codeListLen ≤ k →
      (makeInflateHuffCode fmt codes codeListLen encodeMore result).long k = result.long k) ∧
    ∀ k, k < secondLevelLength fmt codes codeListLen →
      (makeInflateHuffCode fmt codes codeListLen encodeMore result).long k =
        (makeInflateHuffCode fmt codes codeListLen encodeMore result').long k := by
  rw [makeInflateHuffCode, makeInflateHuffCode]
  split
  · rename_i empty
    constructor
    · exact fun _ _ => rfl
    · intro k small
      simp [secondLevelLength, longCodeList, empty, fillLong] at small
  · have alike : ∀ t u : LookupTable, Alike ⟨codes.table, t, 0⟩ ⟨codes.table, u, 0⟩ := by
      intro t u
      exact ⟨rfl, rfl, fun k small => absurd small (Nat.not_lt_zero k)⟩
    have length : ∀ t : LookupTable, (fillLong fmt (longCodeList fmt codes codeListLen)
        ⟨codes.table, t, 0⟩).lookupLength = secondLevelLength fmt codes codeListLen := by
      intro t
      exact (fillLong_reach fmt _ (alike t ⟨.const 0, .const 0⟩)).1.lookupLength
    constructor
    · intro k beyond
      rw [← length] at beyond
      exact (fillLong_reach fmt _ (alike _ ⟨.const 0, .const 0⟩)).2.2 k beyond
    · intro k small
      rw [← length] at small
      exact (fillLong_reach fmt _ (alike _ _)).1.long k small

omit lawful sorted free marks in
/-- Where a table has to end for nothing behind it to be written. -/
theorem untouched_iff (fmt : TableFormat) (codes : CodeSet) (codeListLen : Nat)
    (encodeMore : Nat → Nat → Arr Nat → Arr Nat) (n : Nat) :
    (∀ (result : LookupTable) (k : Nat), n ≤ k →
      (makeInflateHuffCode fmt codes codeListLen encodeMore result).long k = result.long k) ↔
    secondLevelLength fmt codes codeListLen ≤ n := by
  constructor
  · intro untouched
    by_contra beyond
    -- the same is written over two different values
    have reach := makeInflateHuffCode_reach fmt codes codeListLen encodeMore ⟨.const 0, .const 0⟩
      ⟨.const 0, .const 1⟩
    have same := reach.2 n (by omega)
    rw [untouched _ n (Nat.le_refl n), untouched _ n (Nat.le_refl n)] at same
    simp at same
  · intro enough result k beyond
    exact (makeInflateHuffCode_reach fmt codes codeListLen encodeMore result result).1 k (by omega)

theorem secondLevelLength_regions :
    ∃ regions : List (Nat × Nat), (regions.map (·.1)).Nodup ∧
      (∀ x, x ∈ regions.map (·.1) ↔ ∃ i, Long fmt codes used i ∧ firstBits fmt codes i = x) ∧
      secondLevelLength fmt codes (codes.countTotal (maxLen + 1)) =
        (regions.map fun r => 2 ^ (r.2 - fmt.directBits)).sum ∧
      ∀ r ∈ regions, Measured fmt codes used
        (MarkLast fmt codes (longCodeList fmt codes (codes.countTotal (maxLen + 1)))) r.1 r.2 := by
  obtain ⟨regions, filling, length, measured⟩ := fillLong_regions lawful sorted free marks _
    (Filling.start lawful sorted free ⟨.const 0, .const 0⟩) (fun i member => (mem_longCodeList lawful sorted).mp member)
    (longCodeList_ordered lawful sorted)
  rw [List.append_nil] at filling
  rw [Nat.zero_add] at length
  refine ⟨regions, filling.distinct, fun x => ⟨filling.prefixes x, ?_⟩, length, measured⟩
  rintro ⟨i, hi, rfl⟩
  by_contra missing
  simpa using filling.pending i hi missing

variable {items : List (Nat × Nat)}
  (lists : ∀ k c, (k, c) ∈ items ↔ ∃ i, Long fmt codes used i ∧ k = firstBits fmt codes i ∧
    c = 2 ^ ((codes.table i).length - fmt.directBits))

omit lawful sorted free marks in
include lists in
theorem mem_keys_iff (x : Nat) : x ∈ keys items ↔ ∃ i, Long fmt codes used i ∧ firstBits fmt codes i = x := by
  rw [mem_keys]
  constructor
  · rintro ⟨c, member⟩
    obtain ⟨i, hi, same, -⟩ := (lists x c).mp member
    exact ⟨i, hi, same.symm⟩
  · rintro ⟨i, hi, rfl⟩
    exact ⟨_, (lists _ _).mpr ⟨i, hi, rfl, rfl⟩⟩

omit lawful sorted free marks in
include lists in
/-- A region whose longest code is its own has the size that its first bits cost. -/
theorem Measured.size_eq {clean : Prop} {x m : Nat} (h : Measured fmt codes used clean x m)
    (ok : x = 2 ^ fmt.directBits - 1 → clean) : 2 ^ (m - fmt.directBits) = dearest items x := by
  apply le_antisymm
  · obtain ⟨j, hj, rfl, rfl⟩ := h.own ok
    exact le_dearest ((lists _ _).mpr ⟨j, hj, rfl, rfl⟩)
  · rw [dearest_le_iff]
    intro c member
    obtain ⟨i, hi, rfl, rfl⟩ := (lists x c).mp member
    apply Nat.pow_le_pow_right (by decide)
    have := h.upTo i hi rfl
    omega

include lists

theorem secondLevelLength_eq
    (clean : MarkLast fmt codes (longCodeList fmt codes (codes.countTotal (maxLen + 1)))) :
    secondLevelLength fmt codes (codes.countTotal (maxLen + 1)) = total items := by
  obtain ⟨regions, distinct, all, length, measured⟩ := secondLevelLength_regions lawful sorted free marks
  have sameKeys : (regions.map (·.1)).toFinset = keys items := by
    ext x
    rw [List.mem_toFinset, all, mem_keys_iff lists]
  rw [length, total, ← sameKeys, List.sum_toFinset _ distinct, List.map_map]
  congr 1
  apply List.map_congr_left
  intro r member
  exact (measured r member).size_eq lists fun _ => clean

/-- Without an order of the first bits only the region that begins like the mark can be larger
than its own codes ask for. -/
theorem secondLevelLength_le {longest : Nat} (bounded : ∀ i, Long fmt codes used i → (codes.table i).length ≤ longest) :
    secondLevelLength fmt codes (codes.countTotal (maxLen + 1)) ≤
      ∑ x ∈ (keys items).erase (2 ^ fmt.directBits - 1), dearest items x +
        if 2 ^ fmt.directBits - 1 ∈ keys items then 2 ^ (longest - fmt.directBits) else 0 := by
  obtain ⟨regions, distinct, all, length, measured⟩ := secondLevelLength_regions lawful sorted free marks
  have sameKeys : (regions.map (·.1)).toFinset = keys items := by
    ext x
    rw [List.mem_toFinset, all, mem_keys_iff lists]
  let size : Nat → Nat := fun x =>
    if x = 2 ^ fmt.directBits - 1 then 2 ^ (longest - fmt.directBits) else dearest items x
  have sizes : ∀ r ∈ regions, 2 ^ (r.2 - fmt.directBits) ≤ size r.1 := by
    intro r member
    by_cases special : r.1 = 2 ^ fmt.directBits - 1
    · simp only [size, if_pos special]
      obtain ⟨j, hj, same⟩ := (measured r member).reached
      apply Nat.pow_le_pow_right (by decide)
      have := bounded j hj
      omega
    · simp only [size, if_neg special]
      exact Nat.le_of_eq ((measured r member).size_eq lists fun same => absurd same special)
  have others : ∑ x ∈ (keys items).erase (2 ^ fmt.directBits - 1), size x =
      ∑ x ∈ (keys items).erase (2 ^ fmt.directBits - 1), dearest items x := by
    apply Finset.sum_congr rfl
    intro x member
    simp only [size, if_neg (Finset.ne_of_mem_erase member)]
  calc _ ≤ (regions.map fun r => size r.1).sum := by rw [length]; exact List.sum_le_sum sizes
    _ = ∑ x ∈ keys items, size x := by
      rw [← sameKeys, List.sum_toFinset _ distinct, List.map_map]
      rfl
    _ = _ := by
      split
      · rename_i present
        rw [← Finset.sum_erase_add _ _ present, others]
        simp only [size, if_true]
      · rename_i absent
        rw [← others, Finset.erase_eq_of_notMem absent, Nat.add_zero]

end Length

section Groups

variable {codes : CodeSet} {used : Nat → Prop} {maxLen longest : Nat} {short : Arr Nat}
  (free : PrefixFree codes.table used) (bounded : ∀ i, Long fmt codes used i → (codes.table i).length ≤ longest)

include free bounded

/-- Codes that share their first bits differ in the rest, which is short. -/
theorem sharing_few (S : Finset Nat) (long : ∀ i ∈ S, Long fmt codes used i) (x : Nat) :
    (S.filter fun i => firstBits fmt codes i = x).card ≤ 2 ^ (longest - fmt.directBits) := by
  rw [← Finset.card_range (2 ^ (longest - fmt.directBits))]
  apply Finset.card_le_card_of_injOn fun i => (codes.table i).codeAndExtra / 2 ^ fmt.directBits
  · intro i member
    have hi := long i (Finset.mem_filter.mp member).1
    have := bounded i hi
    have := hi.long
    rw [Finset.coe_range, Set.mem_Iio, Nat.div_lt_iff_lt_mul (Nat.two_pow_pos _), ← Nat.pow_add,
      Nat.sub_add_cancel (by omega)]
    exact Nat.lt_of_lt_of_le (free.small i hi.used) (Nat.pow_le_pow_right (by decide) (by omega))
  · intro i hi j hj same
    obtain ⟨inS, first⟩ := Finset.mem_filter.mp hi
    obtain ⟨inS', first'⟩ := Finset.mem_filter.mp hj
    have equal : (codes.table i).codeAndExtra = (codes.table j).codeAndExtra := by
      rw [← Nat.div_add_mod (codes.table i).codeAndExtra (2 ^ fmt.directBits)]
      rw [← Nat.div_add_mod (codes.table j).codeAndExtra (2 ^ fmt.directBits)]
      simp only at same
      rw [same, show (codes.table i).codeAndExtra % 2 ^ fmt.directBits = _ from first,
        show (codes.table j).codeAndExtra % 2 ^ fmt.directBits = _ from first']
    have usedI := (long i inS).used
    have usedJ := (long j inS').used
    apply free.apart i j (codes.table i).codeAndExtra usedI usedJ
    · exact Nat.mod_eq_of_lt (free.small i usedI)
    · rw [equal]
      exact Nat.mod_eq_of_lt (free.small j usedJ)

variable (lawful : fmt.Lawful maxLen) (sorted : SortedCodes codes used maxLen)

include lawful sorted

/-- A group has codes with its own first bits and with those that have been placed. -/
theorem Filling.group_length {sym : Nat} {rest placed : List Nat} {s : LongState}
    (h : Filling fmt codes used maxLen short (sym :: rest) placed s)
    (long : ∀ i ∈ sym :: rest, Long fmt codes used i)
    (ordered : (sym :: rest).Pairwise (fun i j => (codes.table i).length ≤ (codes.table j).length))
    (distinct : (sym :: rest).Nodup) (fresh : s.table sym = codes.table sym) :
    (collectGroup fmt s.table sym rest).2.length ≤ 2 ^ (longest - fmt.directBits) * (placed.length + 1) := by
  obtain ⟨-, -, collected⟩ := h.collected lawful sorted free long ordered fresh
  generalize (collectGroup fmt s.table sym rest).2 = group at collected ⊢
  have inList := fun i member => collected.sublist.subset (a := i) member
  have origin : group.toFinset.image (firstBits fmt codes) ⊆ (firstBits fmt codes sym :: placed).toFinset := by
    intro x member
    obtain ⟨i, inGroup, rfl⟩ := Finset.mem_image.mp member
    rw [List.mem_toFinset] at inGroup
    rw [List.mem_toFinset, List.mem_cons]
    have hi := long i (inList i inGroup)
    rcases h.known i hi.used with notMarked | marked
    · exact Or.inl (collected.genuine i inGroup notMarked)
    · exact Or.inr ((h.marked i hi).mp marked)
  have groups : (group.toFinset.image (firstBits fmt codes)).card ≤ placed.length + 1 :=
    Nat.le_trans (Finset.card_le_card origin) (List.toFinset_card_le _)
  rw [← List.toFinset_card_of_nodup (distinct.sublist collected.sublist)]
  refine Nat.le_trans (Finset.card_le_mul_card_image group.toFinset _ fun x _ =>
    sharing_few free bounded _ (fun i member => long i (inList i (List.mem_toFinset.mp member))) x) ?_
  exact Nat.mul_le_mul_left _ groups

/-- No group is longer than two whole regions or than the list without two of its codes. -/
theorem tempCodeLists_length {most : Nat} (two : 2 ^ (longest - fmt.directBits) * 2 ≤ most) (rest : List Nat)
    {placed : List Nat} {s : LongState} (h : Filling fmt codes used maxLen short rest placed s)
    (long : ∀ i ∈ rest, Long fmt codes used i)
    (ordered : rest.Pairwise (fun i j => (codes.table i).length ≤ (codes.table j).length)) (distinct : rest.Nodup)
    (room : rest.length + placed.length ≤ most + 2) : ∀ g ∈ tempCodeLists fmt rest s, g.length ≤ most := by
  induction rest generalizing placed s with
  | nil => simp [tempCodeLists]
  | cons sym rest ih =>
    have symLong := long sym (by simp)
    have later := fun i member => long i (List.mem_cons_of_mem sym member)
    rw [List.length_cons] at room
    rw [tempCodeLists]
    split
    · rename_i mark
      exact ih (h.skip lawful sorted free symLong mark) later ordered.of_cons distinct.of_cons (by omega)
    · rename_i notMark
      have fresh := h.fresh lawful symLong notMark
      have next : Filling fmt codes used maxLen short rest (firstBits fmt codes sym :: placed)
        (placeFirst fmt sym rest s) := h.group lawful sorted free long ordered fresh
      have bound := h.group_length free bounded lawful sorted long ordered distinct fresh
      obtain ⟨-, -, collected⟩ := h.collected lawful sorted free long ordered fresh
      have part := collected.sublist.length_le
      rw [List.length_cons] at part
      intro g member
      rcases List.mem_cons.mp member with rfl | member
      · rcases Nat.lt_or_ge placed.length 2 with few | many
        · have := Nat.mul_le_mul_left (2 ^ (longest - fmt.directBits)) (show placed.length + 1 ≤ 2 by omega)
          omega
        · omega
      · exact ih next later ordered.of_cons distinct.of_cons (by rw [List.length_cons]; omega) g member

end Groups

end Isal.Inflate
