import Isal.InflateHeader
import Isal.LitLenTables

/-! The vectors of code lengths of a dynamic header while they are being filled: where a
length is put and what the histograms count. -/
namespace Isal.Inflate

open Isal.Bits Isal.Loops Isal.PrefixCode Isal.CountingSort

theorem lengthOf_append (lens : List Nat) (x i : Nat) :
    lengthOf (lens ++ [x]) i = if i = lens.length then x else lengthOf lens i := by
  simp only [lengthOf, List.getElem?_append]
  by_cases inside : i < lens.length
  · simp [inside, show i ≠ lens.length by omega]
  · by_cases same : i = lens.length
    · simp [same]
    · simp [inside, same, List.getElem?_eq_none (show [x].length ≤ i - lens.length by simp; omega)]

theorem lengthOf_beyond {lens : List Nat} {i : Nat} (h : lens.length ≤ i) : lengthOf lens i = 0 := by
  simp [lengthOf, List.getElem?_eq_none h]

/-- The entries that a symbol with code length `x` contributes to those of length `n`. -/
def entriesOf (s x n : Nat) : Nat :=
  if s < litLen ∧ x ≠ 0 ∧ x + extraWidth s = n then 2 ^ extraWidth s else 0

theorem keyed_symbolItems_grow (lens : List Nat) (x k : Nat) {n : Nat} (positive : 1 ≤ n) :
    (keyed (symbolItems (lens ++ [x]) k) n).length =
      (keyed (symbolItems lens k) n).length + if lens.length < k ∧ x = n then 1 else 0 := by
  rw [keyed_symbolItems, keyed_symbolItems, if_neg (by omega), if_neg (by omega)]
  by_cases inside : lens.length < k
  · have whole : (lens ++ [x]).length ≤ k := by simp; omega
    rw [List.take_of_length_le whole, List.take_of_length_le (by omega), List.count_append]
    by_cases same : x = n <;> simp [inside, same]
  · rw [List.take_append_of_le_length (by omega)]
    simp [inside]

theorem keyed_lengthItems_grow (lens : List Nat) (x j n : Nat) :
    (keyed (lengthItems (lens ++ [x]) j) n).length =
      (keyed (lengthItems lens j) n).length +
        if 257 ≤ lens.length ∧ lens.length < 257 + j ∧ x ≠ 0 ∧ x + extraWidth lens.length = n
        then 2 ^ extraWidth lens.length else 0 := by
  have items : ∀ (f : Nat → Nat) (key m : Nat),
      (keyed ((List.range m).map fun e => (f e, key)) n).length = if key = n then m else 0 := by
    intro f key m
    by_cases same : key = n <;> simp [keyed, List.filter_map, Function.comp_def, same]
  induction j with
  | zero => simp [lengthItems]; omega
  | succ j ih =>
    rw [lengthItems, lengthItems, keyed_append, keyed_append, List.length_append, List.length_append, ih,
      lengthOf_append]
    by_cases here : 257 + j = lens.length
    · rw [if_pos here, lengthOf_beyond (Nat.le_of_eq here.symm), if_pos rfl, if_neg (by omega)]
      have width : lenSize j = 2 ^ extraWidth lens.length := by
        rw [← here, lenSize, extraWidth, if_neg (by omega), Nat.add_sub_cancel_left]
      by_cases zero : x = 0
      · simp [zero]
      · rw [if_neg zero, items, here, width]
        simp [zero, show 257 ≤ lens.length by omega, show lens.length < 257 + (j + 1) by omega]
    · rw [if_neg here]
      by_cases before : 257 ≤ lens.length ∧ lens.length < 257 + j
      · simp [before.1, before.2, show lens.length < 257 + (j + 1) by omega]
        omega
      · have after : ¬(257 ≤ lens.length ∧ lens.length < 257 + (j + 1)) := by omega
        rw [if_neg fun c => before ⟨c.1, c.2.1⟩]
        rw [if_neg fun c : 257 ≤ lens.length ∧ lens.length < 257 + (j + 1) ∧ _ => after ⟨c.1, c.2.1⟩]
        omega

theorem keyed_entryItems_grow (lens : List Nat) (x : Nat) {n : Nat} (positive : 1 ≤ n) :
    (keyed (entryItems (lens ++ [x])) n).length =
      (keyed (entryItems lens) n).length + entriesOf lens.length x n := by
  rw [entryItems, entryItems, keyed_append, keyed_append, List.length_append, List.length_append,
    keyed_symbolItems_grow lens x 257 positive, keyed_lengthItems_grow, entriesOf]
  have limit : lens.length < 257 + 29 ↔ lens.length < litLen := Iff.rfl
  by_cases small : lens.length < 257
  · have width : extraWidth lens.length = 0 := by rw [extraWidth, if_pos small]
    by_cases same : x = n
    · simp [small, width, same, limit.mp (by omega), show ¬257 ≤ lens.length by omega, show n ≠ 0 by omega]
      omega
    · simp [width, same, show ¬257 ≤ lens.length by omega]
  · simp only [small, show 257 ≤ lens.length by omega, limit, false_and, if_false, true_and, Nat.add_zero,
      Nat.add_assoc]

theorem extraWidth_short {s : Nat} (h : s < 264) : extraWidth s = 0 := by
  have all : ∀ j < 7, lenExtraBitCount[j]?.getD 0 = 0 := by decide
  rw [extraWidth]
  split
  · rfl
  · exact all _ (by omega)

theorem expandLengthCount_get (s x : Nat) (expandCount : Arr Nat) (large : 257 ≤ s) (n : Nat) :
    (expandLengthCount s x expandCount n + if x = n then 1 else 0) % 2 ^ 16 =
      (expandCount n + if x + extraWidth s = n then 2 ^ extraWidth s else 0) % 2 ^ 16 := by
  have width : lenExtraBitCount[s - isalDefLitSymbols]?.getD 0 = extraWidth s := by
    rw [extraWidth, if_neg (by omega)]; rfl
  simp only [expandLengthCount, width, Arr.set_get, Nat.one_shiftLeft]
  by_cases high : x + extraWidth s = n <;> by_cases low : x = n
  · have zero : extraWidth s = 0 := by omega
    simp [zero, low]
    omega
  · have different : ¬n = x := fun same => low same.symm
    simp [high, low, different]
  · subst low
    have nonzero : extraWidth s ≠ 0 := by omega
    simp [nonzero]
    omega
  · simp [high, low, Ne.symm high, Ne.symm low]

/-- One more length in the histograms. -/
theorem ExpandCounts.grow {count expandCount : Arr Nat} {lens : List Nat} (h : ExpandCounts count expandCount lens)
    (x : Nat) (small : x ≤ 15) (legal : lens.length < litLen) :
    ExpandCounts (count.set x (count x + 1))
      (if x = 0 ∨ lens.length < 264 then expandCount else expandLengthCount lens.length x expandCount)
      (lens ++ [x]) := by
  intro n low high
  have old := h n low high
  rw [keyed_entryItems_grow lens x low, entriesOf]
  by_cases zero : x = 0
  · have other : ¬n = 0 := by omega
    simpa [zero, Arr.set_get, other] using old
  have counted : (if n ≤ 15 then (count.set x (count x + 1)) n else 0) =
      (if n ≤ 15 then count n else 0) + if x = n then 1 else 0 := by
    by_cases same : x = n
    · subst same; simp [small]
    · simp [Arr.set_get, same, Ne.symm same]
  rw [counted]
  by_cases short : lens.length < 264
  · simp only [zero, short, legal, extraWidth_short short, or_true, if_true, Nat.add_zero, ne_eq, not_false_iff,
      true_and, Nat.pow_zero]
    omega
  · simp only [zero, short, legal, or_false, if_false, ne_eq, not_false_iff, true_and]
    have step := expandLengthCount_get lens.length x expandCount (by omega) n
    omega

/-- The end of the literal/length table in the list of all lengths. -/
def litEnd (hlit : Nat) : Nat := isalDefLitSymbols + hlit

/-- Where the code lengths are in `lit_and_dist_huff`: those of distances begin at `LIT_LEN`. -/
def lengthAt (hlit : Nat) (lens : List Nat) (p : Nat) : Nat :=
  if p < litEnd hlit then lengthOf lens p
  else if p < litLen then 0
  else lengthOf lens (p - litLen + litEnd hlit)

/-- `lens` have been put in the tables. -/
structure LengthsPut (hlit : Nat) (lens : List Nat) (s : LengthState) : Prop where
  bounded : ∀ n ∈ lens, n ≤ 15
  place : ∀ p, (s.litAndDistHuff p).length = lengthAt hlit lens p
  inLit : s.inDist = false → lens.length ≤ litEnd hlit ∧ s.current = lens.length
  inDist : s.inDist = true → litEnd hlit ≤ lens.length ∧ s.current = litLen + (lens.length - litEnd hlit)
  last : lens.getLast? = s.previous.map fun p => (s.litAndDistHuff p).length
  lit : Counts s.litCount (lens.take (litEnd hlit))
  expand : ExpandCounts s.litCount s.litExpandCount (lens.take (litEnd hlit))
  dist : Counts s.distCount (lens.drop (litEnd hlit))

theorem lengths_initial (hlit : Nat) (inp : InStream) : LengthsPut hlit [] { inp } where
  bounded := by simp
  place := by simp [lengthAt, lengthOf]
  inLit := by simp
  inDist := by simp
  last := rfl
  lit := by intro n _ _; simp
  expand := by
    intro n _ _
    have none : ∀ j, lengthItems [] j = [] := by
      intro j
      induction j with
      | zero => rfl
      | succ j ih => simp [lengthItems, ih, lengthOf]
    have unused : (List.range 257).filter (used []) = [] := by simp [used, lengthOf]
    simp [entryItems, none, symbolItems, unused]
  dist := by intro n _ _; simp

theorem LengthsPut.withIn {hlit : Nat} {lens : List Nat} {s : LengthState} (h : LengthsPut hlit lens s) (inp : InStream) :
    LengthsPut hlit lens { s with inp } := { h with }

/-- Where the next length goes. -/
def nextPlace (hlit : Nat) (lens : List Nat) : Nat :=
  if lens.length < litEnd hlit then lens.length else litLen + (lens.length - litEnd hlit)

theorem litEnd_le {hlit : Nat} (legal : hlit ≤ 29) : litEnd hlit ≤ litLen := by
  simp only [litEnd, isalDefLitSymbols, litLen]; omega

theorem lengthAt_grow {hlit : Nat} (legal : hlit ≤ 29) (lens : List Nat) (x p : Nat) :
    lengthAt hlit (lens ++ [x]) p = if p = nextPlace hlit lens then x else lengthAt hlit lens p := by
  have := litEnd_le legal
  simp only [lengthAt, lengthOf_append]
  by_cases inLit : lens.length < litEnd hlit
  · rw [nextPlace, if_pos inLit]
    split_ifs <;> first | rfl | omega
  · rw [nextPlace, if_neg inLit]
    split_ifs <;> first | rfl | omega

theorem LengthsPut.switch {hlit : Nat} {lens : List Nat} {s : LengthState} (h : LengthsPut hlit lens s)
    (legal : hlit ≤ 29) :
    s.switch hlit = { s with current := nextPlace hlit lens, inDist := decide (litEnd hlit ≤ lens.length) } := by
  have inLit := h.inLit
  have inDist := h.inDist
  obtain ⟨inp, table, litCount, expandCount, distCount, side, previous, current⟩ := s
  rw [LengthState.switch, nextPlace]
  change (if current = litEnd hlit then _ else _) = _
  cases side with
  | false =>
    obtain ⟨upTo, rfl⟩ := inLit rfl
    by_cases full : lens.length = litEnd hlit
    · simp [full]
    · have before : lens.length < litEnd hlit := by omega
      simp [full, before]
  | true =>
    obtain ⟨upTo, rfl⟩ := inDist rfl
    by_cases same : litLen + (lens.length - litEnd hlit) = litEnd hlit
    · have := litEnd_le legal
      have full : lens.length - litEnd hlit = 0 := by omega
      simp [upTo, Nat.not_lt.mpr upTo, full]
    · simp [same, upTo, Nat.not_lt.mpr upTo]

theorem counts_grow {count : Arr Nat} {lens : List Nat} (h : Counts count lens) (x : Nat) :
    Counts (count.set x (count x + 1)) (lens ++ [x]) := by
  intro n low high
  rw [List.count_append, ← h n low high, Arr.set_get]
  by_cases same : n = x
  · subst same; simp
  · simp [same, Ne.symm same]

theorem LengthsPut.put_eq {hlit : Nat} {lens : List Nat} {s : LengthState} (h : LengthsPut hlit lens s)
    (legal : hlit ≤ 29) (code : HuffCode) :
    s.put hlit code =
      { s with
        litAndDistHuff := s.litAndDistHuff.set (nextPlace hlit lens) code
        litCount := if lens.length < litEnd hlit
          then s.litCount.set code.length (s.litCount code.length + 1) else s.litCount
        distCount := if lens.length < litEnd hlit then s.distCount
          else s.distCount.set code.length (s.distCount code.length + 1)
        litExpandCount := if lens.length < litEnd hlit
          then if code.length = 0 ∨ lens.length < 264 then s.litExpandCount
            else expandLengthCount lens.length code.length s.litExpandCount
          else s.litExpandCount
        inDist := decide (litEnd hlit ≤ lens.length)
        previous := some (nextPlace hlit lens)
        current := nextPlace hlit lens + 1 } := by
  rw [LengthState.put, h.switch legal]
  change (if code.length = 0 ∨ litEnd hlit ≤ nextPlace hlit lens ∨ nextPlace hlit lens < 264 then _ else _) = _
  by_cases inLit : lens.length < litEnd hlit
  · have place : nextPlace hlit lens = lens.length := if_pos inLit
    rw [place]
    by_cases none : code.length = 0 ∨ lens.length < 264
    · simp [inLit, none, Nat.not_le.mpr inLit]
    · simp [inLit, none, Nat.not_le.mpr inLit]
  · have place : litEnd hlit ≤ nextPlace hlit lens := by
      have := litEnd_le legal
      rw [nextPlace, if_neg inLit]
      omega
    simp [inLit, place, Nat.not_lt.mp inLit]

theorem LengthsPut.put {hlit : Nat} {lens : List Nat} {s : LengthState} (h : LengthsPut hlit lens s)
    (legal : hlit ≤ 29) (code : HuffCode) (small : code.length ≤ 15) :
    LengthsPut hlit (lens ++ [code.length]) (s.put hlit code) := by
  rw [h.put_eq legal]
  constructor
  · intro n member
    rcases List.mem_append.mp member with old | new
    · exact h.bounded n old
    · rw [List.mem_singleton.mp new]; exact small
  · intro p
    rw [lengthAt_grow legal, Arr.set_get]
    split
    · rfl
    · exact h.place p
  · intro side
    have before : lens.length < litEnd hlit := by simpa using side
    simp [nextPlace, before]
  · intro side
    have after : litEnd hlit ≤ lens.length := by simpa using side
    simp [nextPlace, Nat.not_lt.mpr after]
    omega
  · simp
  · by_cases before : lens.length < litEnd hlit
    · have whole := h.lit
      rw [List.take_of_length_le (by omega)] at whole
      rw [List.take_of_length_le (by simp; omega), if_pos before]
      exact counts_grow whole _
    · rw [List.take_append_of_le_length (by omega), if_neg before]
      exact h.lit
  · by_cases before : lens.length < litEnd hlit
    · have whole := h.expand
      rw [List.take_of_length_le (by omega)] at whole
      rw [List.take_of_length_le (by simp; omega), if_pos before, if_pos before]
      exact whole.grow _ small (Nat.lt_of_lt_of_le before (litEnd_le legal))
    · rw [List.take_append_of_le_length (by omega), if_neg before, if_neg before]
      exact h.expand
  · dsimp only
    by_cases before : lens.length < litEnd hlit
    · have none := h.dist
      rw [List.drop_of_length_le (by omega)] at none
      rw [List.drop_of_length_le (by simp; omega), if_pos before]
      exact none
    · rw [List.drop_append_of_le_length (by omega), if_neg before]
      exact counts_grow h.dist _

theorem lengthOf_zeroes (lens : List Nat) (i p : Nat) :
    lengthOf (lens ++ List.replicate i 0) p = lengthOf lens p := by
  simp only [lengthOf, List.getElem?_append]
  split
  · rfl
  · rename_i beyond
    rw [List.getElem?_eq_none (Nat.le_of_not_lt beyond), List.getElem?_replicate]
    split <;> rfl

theorem lengthAt_zeroes (hlit : Nat) (lens : List Nat) (i p : Nat) :
    lengthAt hlit (lens ++ List.replicate i 0) p = lengthAt hlit lens p := by
  simp only [lengthAt, lengthOf_zeroes]

/-- Zeroes have no entries. -/
theorem entryItems_zeroes (lens : List Nat) (i : Nat) : entryItems (lens ++ List.replicate i 0) = entryItems lens := by
  have lengths : ∀ j, lengthItems (lens ++ List.replicate i 0) j = lengthItems lens j := by
    intro j
    induction j with
    | zero => rfl
    | succ j ih => rw [lengthItems, lengthItems, ih, lengthOf_zeroes]
  have symbols : symbolItems (lens ++ List.replicate i 0) 257 = symbolItems lens 257 := by
    have same : used (lens ++ List.replicate i 0) = used lens := by
      funext s
      rw [used, used, lengthOf_zeroes]
    simp only [symbolItems, same, lengthOf_zeroes]
  rw [entryItems, entryItems, lengths, symbols]

theorem take_zeroes (lens : List Nat) (i k : Nat) :
    ∃ j, (lens ++ List.replicate i 0).take k = lens.take k ++ List.replicate j 0 := by
  rw [List.take_append, List.take_replicate]
  exact ⟨_, rfl⟩

theorem drop_zeroes (lens : List Nat) (i k : Nat) :
    ∃ j, (lens ++ List.replicate i 0).drop k = lens.drop k ++ List.replicate j 0 := by
  rw [List.drop_append, List.drop_replicate]
  exact ⟨_, rfl⟩

theorem counts_zeroes {count : Arr Nat} {lens : List Nat} (h : Counts count lens) (j : Nat) :
    Counts count (lens ++ List.replicate j 0) := by
  intro n low high
  rw [List.count_append, List.count_replicate, h n low high]
  simp [show 0 ≠ n by omega]

/-- A repeat of zeroes only moves on. -/
theorem LengthsPut.zeroes {hlit i : Nat} {lens : List Nat} {s : LengthState} (h : LengthsPut hlit lens s)
    (legal : hlit ≤ 29) (some_ : 0 < i) (current : Nat) (side : Bool)
    (inLit : side = false → lens.length + i ≤ litEnd hlit ∧ current = lens.length + i)
    (inDist : side = true → litEnd hlit ≤ lens.length + i ∧ current = litLen + (lens.length + i - litEnd hlit))
    (inside : side = true → litEnd hlit < lens.length + i) :
    LengthsPut hlit (lens ++ List.replicate i 0)
      { s with current := current, inDist := side, previous := some (current - 1) } := by
  obtain ⟨j, take⟩ := take_zeroes lens i (litEnd hlit)
  obtain ⟨k, drop⟩ := drop_zeroes lens i (litEnd hlit)
  have room := litEnd_le legal
  constructor
  · intro n member
    rcases List.mem_append.mp member with old | new
    · exact h.bounded n old
    · rw [(List.mem_replicate.mp new).2]; exact Nat.zero_le _
  · intro p
    rw [lengthAt_zeroes]
    exact h.place p
  · simpa using inLit
  · simpa using inDist
  · have zero : lengthAt hlit lens (current - 1) = 0 := by
      rw [lengthAt]
      cases side with
      | false =>
        obtain ⟨upTo, rfl⟩ := inLit rfl
        rw [if_pos (by omega), lengthOf_beyond (by omega)]
      | true =>
        obtain ⟨upTo, rfl⟩ := inDist rfl
        have := inside rfl
        rw [if_neg (by omega), if_neg (by omega), lengthOf_beyond (by omega)]
    obtain ⟨m, rfl⟩ : ∃ m, i = m + 1 := ⟨i - 1, by omega⟩
    rw [List.replicate_succ', ← List.append_assoc]
    simp [h.place, zero]
  · rw [take]
    exact counts_zeroes h.lit j
  · rw [take]
    intro n low high
    rw [entryItems_zeroes]
    exact h.expand n low high
  · rw [drop]
    exact counts_zeroes h.dist k

theorem LengthsPut.skip {hlit i : Nat} {lens : List Nat} {s : LengthState} (h : LengthsPut hlit lens s)
    (legal : hlit ≤ 29) (some_ : 0 < i) : LengthsPut hlit (lens ++ List.replicate i 0) (s.skip hlit i) := by
  have room := litEnd_le legal
  have inLit := h.inLit
  have inDist := h.inDist
  have gap : litLen - isalDefLitSymbols - hlit = litLen - litEnd hlit := by rw [litEnd]; omega
  simp only [LengthState.skip, gap]
  change LengthsPut hlit _ (if s.inDist = false ∧ litEnd hlit < s.current + i then _ else _)
  cases side : s.inDist with
  | false =>
    obtain ⟨upTo, here⟩ := inLit side
    by_cases beyond : litEnd hlit < s.current + i
    · rw [if_pos ⟨rfl, beyond⟩, if_pos (by omega)]
      exact h.zeroes legal some_ _ _ nofun (fun _ => by omega) (fun _ => by omega)
    · rw [if_neg (by simp [beyond])]
      have kept := h.zeroes legal some_ (s.current + i) false (fun _ => by omega) nofun nofun
      exact kept
  | true =>
    obtain ⟨upTo, here⟩ := inDist side
    rw [if_neg (by simp)]
    have kept := h.zeroes legal some_ (s.current + i) true nofun (fun _ => by omega) (fun _ => by omega)
    exact kept

/-- The repeat of a length that is in the table already. -/
theorem LengthsPut.repeat {hlit : Nat} {lens : List Nat} {s : LengthState} (h : LengthsPut hlit lens s)
    (legal : hlit ≤ 29) (code : HuffCode) (small : code.length ≤ 15) (i : Nat) :
    LengthsPut hlit (lens ++ List.replicate i code.length) (forRange 0 i (fun _ s => s.put hlit code) s) := by
  refine forRange_invariant (fun i s => LengthsPut hlit (lens ++ List.replicate i code.length) s) (Nat.zero_le i)
    (by simpa using h) ?_
  intro i s _ _ now
  rw [List.replicate_succ', ← List.append_assoc]
  exact now.put legal code small

end Isal.Inflate
