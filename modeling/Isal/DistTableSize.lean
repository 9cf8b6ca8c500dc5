import Isal.PackedCodes
import Isal.SecondLevel
import Isal.SmallTables

/-! The room that the second level of the distance table takes up. The long distance codes fill
their places in the order in which they are listed, so how many codes there are of each length
decides it, and only a last place that is not full can make it exceed the table. -/
namespace Isal.Inflate

open Isal.Bits Isal.Loops Isal.PrefixCode Isal.CountingSort Isal.Grouping

def isalHuffCodeSmallLongAligned : Nat := 80 -- ISAL_HUFF_CODE_SMALL_LONG_ALIGNED

/-- The code space that the codes of 11 to `10 + j` bits take up, in codes of 15 bits;
`n` is the number of codes of each length. -/
def distSpace (n : Nat → Nat) : Nat → Nat
  | 0 => 0
  | j + 1 => distSpace n j + n (10 + j + 1) * 2 ^ (4 - j)

/-- The places of 32 such codes that these lengths fill, at the size of the length that fills them. -/
def distFull (n : Nat → Nat) : Nat → Nat
  | 0 => 0
  | j + 1 => distFull n j + 2 ^ (j + 1) * (distSpace n (j + 1) / 32 - distSpace n j / 32)

/-- How far the longest of these codes exceeds 10 bits. -/
def distLongest (n : Nat → Nat) : Nat → Nat
  | 0 => 0
  | j + 1 => if n (10 + j + 1) = 0 then distLongest n j else j + 1

/-- The full places, and the last one at the size of the longest code unless it is full. -/
def distLongSize (n : Nat → Nat) : Nat :=
  distFull n 5 + if 32 ∣ distSpace n 5 then 0 else 2 ^ distLongest n 5

variable {lens : List Nat} {table : Arr HuffCode} {count : Arr Nat} {tableLength : Nat} {fmt : TableFormat}

theorem distLongest_le (n : Nat → Nat) (j : Nat) : distLongest n j ≤ j := by
  induction j with
  | zero => exact Nat.le_refl _
  | succ j ih =>
    rw [distLongest]
    split <;> omega

/-- The places that a long distance code asks for. -/
def distCost (lens : List Nat) (s : Nat) : Nat := 2 ^ (lengthOf lens s - 10)

/-- What the pack of the long distance codes comes to. -/
theorem packLong_dist (lens : List Nat) (j : Nat) (upTo : j ≤ 5) :
    let p := packLong lens 15 10 (distCost lens) j
    p.position = (start lens 10 + PrefixCode.count lens 10) * 32 + distSpace lens.count j ∧
      p.closed = distFull lens.count j ∧
      p.opened = if 32 ∣ distSpace lens.count j then 0 else 2 ^ distLongest lens.count j := by
  induction j with
  | zero => exact ⟨rfl, rfl, by simp [packLong, distSpace]⟩
  | succ j ih =>
    obtain ⟨position, closed, opened⟩ := ih (by omega)
    have next := packLong_next lens 15 10 (distCost lens) j (by omega)
    rw [packLong]
    generalize packLong lens 15 10 (distCost lens) j = p at position closed opened next
    have longest := distLongest_le lens.count j
    have width : 15 - (10 + j + 1) = 4 - j := by omega
    have places : ∀ u, ((start lens 10 + PrefixCode.count lens 10) * 32 + u) / 2 ^ (15 - 10) =
        (start lens 10 + PrefixCode.count lens 10) + u / 32 := by
      intro u; omega
    have full : ∀ u, 2 ^ (15 - 10) ∣ (start lens 10 + PrefixCode.count lens 10) * 32 + u ↔ 32 ∣ u := by
      intro u; omega
    have price : ∀ s, lengthOf lens s = 10 + j + 1 → distCost lens s = 2 ^ (j + 1) := by
      intro s same
      rw [distCost, same]
      congr 1; omega
    obtain ⟨closed', opened'⟩ := packLength_const price (by omega : 10 < 10 + j + 1) (by omega : 10 + j + 1 ≤ 15) next
      (by
        rw [opened]
        split
        · exact Nat.zero_le _
        · exact Nat.pow_le_pow_right (by decide) (by omega))
      (by
        intro aligned
        rw [position, full] at aligned
        rw [opened, if_pos aligned]) lens.length
    have position' := packLength_position lens 15 10 (distCost lens) (10 + j + 1) lens.length
      (by omega) p
    rw [List.take_length, width, position, Nat.add_assoc (_ * 32)] at position'
    change _ = (start lens 10 + PrefixCode.count lens 10) * 32 + distSpace lens.count (j + 1) at position'
    rw [position', places, position, places] at closed'
    rw [position'] at opened'
    refine ⟨position', ?_, ?_⟩
    · have grows : distSpace lens.count j / 32 ≤ distSpace lens.count (j + 1) / 32 :=
        Nat.div_le_div_right (Nat.le_add_right ..)
      simp only [Nat.mul_add, closed] at closed'
      rw [distFull, Nat.mul_sub]
      have := Nat.mul_le_mul_left (2 ^ (j + 1)) grows
      omega
    · rw [opened', List.take_length]
      simp only [full]
      rw [distLongest]
      split
      · rfl
      · split
        · rename_i notFull none
          rw [opened, if_neg]
          rwa [distSpace, none, Nat.zero_mul, Nat.add_zero] at notFull
        · rfl

theorem packLong_dist_total :
    let p := packLong lens 15 10 (distCost lens) 5
    p.closed + p.opened = distLongSize lens.count := by
  obtain ⟨-, closed, opened⟩ := packLong_dist lens 5 (Nat.le_refl 5)
  dsimp only
  rw [closed, opened, distLongSize]

section Order

/-- Codes that are listed in order of length and then of symbol: their first bits do not
decrease, so those that begin like the mark come last. -/
theorem ascending_markLast {codes : CodeSet} (sorted : SortedCodes codes (InUse lens) 15)
    (ten : fmt.directBits = 10) (lengths : ∀ i, InUse lens i → (codes.table i).length = lengthOf lens i)
    (ascending : ∀ n p q, 1 ≤ n → n ≤ 15 → codes.countTotal n ≤ p → p < q → q < codes.countTotal (n + 1) →
      codes.codeList p < codes.codeList q)
    (first : ∀ i, Long fmt codes (InUse lens) i →
      firstBits fmt codes i = revBits 10 (top lens 10 i) ∧ top lens 10 i < 2 ^ 10) :
    MarkLast fmt codes (longCodeList fmt codes (codes.countTotal 16)) := by
  have ones : revBits 10 (2 ^ 10 - 1) = 2 ^ 10 - 1 := by decide
  rw [MarkLast, longCodeList, List.pairwise_map, ten]
  refine (List.pairwise_lt_range' (s := codes.countTotal 11)).imp_of_mem ?_
  intro p q hp hq less begins
  simp only [List.mem_range'_1, Nat.reduceAdd] at hp hq
  have insideP : p < codes.countTotal 16 := by omega
  have insideQ : q < codes.countTotal 16 := by omega
  have positionP := sorted.position (p := p) (m := 11) (n := 16) (by omega) (by omega) (by omega) hp.1 insideP
  have positionQ := sorted.position (p := q) (m := 11) (n := 16) (by omega) (by omega) (by omega) hq.1 insideQ
  have blockP := sorted.block insideP
  have blockQ := sorted.block insideQ
  have order := ascending (codes.table (codes.codeList p)).length p q blockP.1 blockP.2.1 blockP.2.2.1 less
  have firstP := first (codes.codeList p) ⟨positionP.1, by omega⟩
  have firstQ := first (codes.codeList q) ⟨positionQ.1, by omega⟩
  have sizes := lengths _ positionP.1
  have sizes' := lengths _ positionQ.1
  have topP : top lens 10 (codes.codeList p) = 2 ^ 10 - 1 :=
    revBits_inj firstP.2 (by decide) (by rw [← firstP.1, begins, ones])
  have grows : top lens 10 (codes.codeList p) ≤ top lens 10 (codes.codeList q) := by
    apply top_le (by omega)
    rcases Nat.lt_trichotomy (codes.table (codes.codeList p)).length (codes.table (codes.codeList q)).length with
      shorter | same | longer
    · exact Or.inl (by omega)
    · rw [← same] at blockQ
      exact Or.inr ⟨by omega, order blockQ.2.2.2⟩
    · have := sorted.le (m := (codes.table (codes.codeList q)).length + 1)
        (n := (codes.table (codes.codeList p)).length) (by omega) (by omega) (by omega)
      omega
  have topQ : top lens 10 (codes.codeList q) = 2 ^ 10 - 1 := by have := firstQ.2; omega
  rw [firstQ.1, topQ, ones]

/-- The symbols of one length are listed in their order. -/
theorem sortCodes_lt (lengths : HasLengths table tableLength lens) (counts : Counts count lens)
    (bounded : ∀ n ∈ lens, n ≤ 15) {n p q : Nat} (low : countTotals count n ≤ p) (less : p < q)
    (high : q < countTotals count n + (keyed (symbolItems lens tableLength) n).length) :
    sortCodes table tableLength (countTotals count) p < sortCodes table tableLength (countTotals count) q := by
  obtain ⟨cursor, placed⟩ := sortCodes_placed lengths counts bounded
  have ascending : (keyed (symbolItems lens tableLength) n).Pairwise (· < ·) := by
    have all : ((List.range tableLength).filter (PrefixCode.used lens)).Pairwise (· < ·) :=
      List.pairwise_lt_range.filter _
    rw [keyed, symbolItems, List.filter_map, List.map_map]
    exact (all.filter _).map _ fun a b order => order
  have first := List.getElem?_eq_getElem (l := keyed (symbolItems lens tableLength) n)
    (i := p - countTotals count n) (by omega)
  have second := List.getElem?_eq_getElem (l := keyed (symbolItems lens tableLength) n)
    (i := q - countTotals count n) (by omega)
  have order := List.pairwise_iff_getElem.mp ascending (p - countTotals count n) (q - countTotals count n)
    (by omega) (by omega) (by omega)
  rw [← placed.placed n _ _ first, ← placed.placed n _ _ second, Nat.add_sub_cancel' low,
    Nat.add_sub_cancel' (by omega)] at order
  exact order

end Order

theorem setCode_ones (h : HuffCode) : (h.setCode 0xFFFF).code % 2 ^ 10 = 2 ^ 10 - 1 := by
  simp [setCode_code]

/-- The second level of the distance table is as long as the numbers of codes of each length say. -/
theorem distSecondLevel (valid : Valid lens 15) (canonical : ∀ i, i < tableLength → Canonical table lens i)
    (few : lens.length ≤ 32) (fits : lens.length ≤ tableLength) (counts : Counts count lens) (maxSymbol : Nat) :
    secondLevelLength (distFormat maxSymbol)
      ⟨table, sortCodes table tableLength (countTotals count), countTotals count⟩ (countTotals count 16) =
      distLongSize lens.count := by
  have lengths : HasLengths table tableLength lens := fun i small => (canonical i small).1
  have format := distFormat_small lens maxSymbol few
  have sorted := small_sorted valid canonical fits counts
  have free := small_free valid canonical fits
  have first : ∀ i, Long (distFormat maxSymbol)
      ⟨table, sortCodes table tableLength (countTotals count), countTotals count⟩ (InUse lens) i → _ :=
    fun i hi => firstBits_eq valid canonical fits _ _ hi
  have clean : MarkLast (distFormat maxSymbol) _ _ := ascending_markLast sorted rfl
    (fun i hi => (canonical_of_used canonical fits hi).1)
    (fun n p q low high lower less upper => sortCodes_lt lengths counts valid.bounded lower less
      (by rw [← countTotals_succ counts fits low high]; exact upper))
    (fun i hi => ⟨(first i hi).1, (first i hi).2.1⟩)
  have lists : ∀ k c, (k, c) ∈ rename (revBits 10) (longItems lens 10 (distCost lens) 5) ↔
      ∃ i, Long (distFormat maxSymbol)
          ⟨table, sortCodes table tableLength (countTotals count), countTotals count⟩ (InUse lens) i ∧
        k = firstBits (distFormat maxSymbol)
          ⟨table, sortCodes table tableLength (countTotals count), countTotals count⟩ i ∧
        c = 2 ^ ((table i).length - 10) := by
    intro k c
    rw [mem_rename]
    constructor
    · rintro ⟨x, member, rfl⟩
      obtain ⟨s, long, upTo, rfl, rfl⟩ := mem_longItems.mp member
      have inUse : InUse lens s := by rw [InUse]; omega
      have length := (canonical_of_used canonical fits inUse).1
      have hs : Long (distFormat maxSymbol)
          ⟨table, sortCodes table tableLength (countTotals count), countTotals count⟩ (InUse lens) s :=
        ⟨inUse, by simp only [length]; exact long⟩
      exact ⟨s, hs, (first s hs).1.symm, by rw [length, distCost]⟩
    · rintro ⟨s, hs, rfl, rfl⟩
      have length := (canonical_of_used canonical fits hs.used).1
      have bounded := valid.length_le s
      refine ⟨top lens 10 s, mem_longItems.mpr ⟨s, (first s hs).2.2, by omega, rfl, by rw [length, distCost]⟩, ?_⟩
      exact (first s hs).1.symm
  have distinct : Set.InjOn (revBits 10) (keys (longItems lens 10 (distCost lens) 5)) := by
    have small : ∀ x ∈ keys (longItems lens 10 (distCost lens) 5), x < 2 ^ 10 := by
      intro x member
      obtain ⟨c, member⟩ := mem_keys.mp member
      obtain ⟨s, long, upTo, rfl, -⟩ := mem_longItems.mp member
      exact valid.top_lt long
    exact fun x hx y hy same => revBits_inj (small x hx) (small y hy) same
  have packed : Packed (2 ^ (15 - 10)) (longItems lens 10 (distCost lens) 5) (packLong lens 15 10 (distCost lens) 5) :=
    packLong_packed 5 (by omega)
  rw [secondLevelLength_eq format.lawful sorted free setCode_ones lists clean, total_rename distinct,
    packed.total_eq, packLong_dist_total]

theorem dist_untouched_iff (valid : Valid lens 15) (canonical : ∀ i, i < tableLength → Canonical table lens i)
    (few : lens.length ≤ 32) (fits : lens.length ≤ tableLength) (counts : Counts count lens) (maxSymbol n : Nat) :
    (∀ (result : LookupTable) (k : Nat), n ≤ k →
      (makeInflateHuffCodeDist result table tableLength count maxSymbol).long k = result.long k) ↔
    distLongSize lens.count ≤ n := by
  rw [← distSecondLevel valid canonical few fits counts maxSymbol]
  exact untouched_iff (distFormat maxSymbol) _ _ (fun _ _ short => short) n

/-- The distance table of an accepted code stays inside of its array if and only if its full
places and the rest of the last one leave room. -/
theorem makeInflateHuffCodeDist_inside_iff {t : Arr HuffCode} (lengths : HasLengths table distLen lens)
    (all : lens.length = distLen) (bounded : ∀ n ∈ lens, n ≤ 15) (counts : Counts count lens)
    (accepted : setCodes table distLen count = some t) (maxSymbol : Nat) :
    (∀ (result : LookupTable) (k : Nat), isalHuffCodeSmallLongAligned ≤ k →
      (makeInflateHuffCodeDist result t distLen count maxSymbol).long k = result.long k) ↔
    distLongSize lens.count ≤ isalHuffCodeSmallLongAligned := by
  rcases setCodes_spec lengths bounded counts with ⟨refused, -⟩ | ⟨t', built, valid, canonical⟩
  · rw [refused] at accepted
    cases accepted
  · rw [built, Option.some.injEq] at accepted
    subst accepted
    exact dist_untouched_iff valid canonical (by rw [all]; decide) (Nat.le_of_eq all) counts maxSymbol _

/-- Thirty codes of 15 bits. -/
theorem makeInflateHuffCodeDist_inside_longest : ∃ t,
    setCodes ⟨fun i => { length := lengthOf (List.replicate 30 15) i }⟩ distLen ⟨(List.replicate 30 15).count⟩ = some t ∧
      ((∀ (result : LookupTable) (k : Nat), isalHuffCodeSmallLongAligned ≤ k →
        (makeInflateHuffCodeDist result t distLen ⟨(List.replicate 30 15).count⟩ distLen).long k = result.long k) ↔
      distLongSize (List.replicate 30 15).count ≤ isalHuffCodeSmallLongAligned) := by
  have lengths : HasLengths ⟨fun i => { length := lengthOf (List.replicate 30 15) i }⟩ distLen (List.replicate 30 15) :=
    fun _ _ => rfl
  have counts : Counts ⟨(List.replicate 30 15).count⟩ (List.replicate 30 15) := fun _ _ _ => rfl
  rcases setCodes_spec lengths (by decide) counts with ⟨-, excess⟩ | ⟨t, built, -⟩
  · exact absurd excess (by decide)
  · exact ⟨t, built, makeInflateHuffCodeDist_inside_iff lengths rfl (by decide) counts built distLen⟩

/-- An incomplete code whose last place is taken up by three codes of 15 bits only. -/
def overrunLens : List Nat :=
  List.replicate 2 11 ++ List.replicate 7 12 ++ List.replicate 1 13 ++ List.replicate 17 14 ++ List.replicate 3 15

theorem makeInflateHuffCodeDist_overrun : ∃ t,
    setCodes ⟨fun i => { length := lengthOf overrunLens i }⟩ distLen ⟨overrunLens.count⟩ = some t ∧
      ∃ (result : LookupTable) (k : Nat), isalHuffCodeSmallLongAligned ≤ k ∧
        (makeInflateHuffCodeDist result t distLen ⟨overrunLens.count⟩ distLen).long k ≠ result.long k := by
  have counts : Counts ⟨overrunLens.count⟩ overrunLens := fun _ _ _ => rfl
  have lengths : HasLengths ⟨fun i => { length := lengthOf overrunLens i }⟩ distLen overrunLens := fun _ _ => rfl
  rcases setCodes_spec lengths (by decide) counts with ⟨-, excess⟩ | ⟨t, built, valid, canonical⟩
  · exact absurd excess (by decide)
  · refine ⟨t, built, ?_⟩
    by_contra inside
    push Not at inside
    have := (dist_untouched_iff valid canonical (by decide) (by decide) counts distLen _).mp inside
    exact absurd this (by decide)

end Isal.Inflate
