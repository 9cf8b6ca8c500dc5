import Isal.Grouping
import Isal.PrefixCode

/-! In order of length and then of symbol the codewords lie side by side in the code space.
The long ones are therefore packed into places that stand for their first bits. -/
namespace Isal.PrefixCode

open Isal.Grouping

/-- The symbols below `i` whose codewords have length `n`. -/
def ofLength (lens : List Nat) (n i : Nat) : List Nat := (List.range i).filter (lengthOf lens · = n)

variable {lens : List Nat} {depth bits : Nat} {cost : Nat → Nat}

/-- Adds the codewords of length `n` to the pack. -/
def packLength (lens : List Nat) (depth bits : Nat) (cost : Nat → Nat) (n i : Nat) (p : Pack) : Pack :=
  (ofLength lens n i).foldl (fun p s => p.put (2 ^ (depth - bits)) (2 ^ (depth - n)) (cost s)) p

/-- The codewords that are up to `j` bits longer than the first `bits`. -/
def packLong (lens : List Nat) (depth bits : Nat) (cost : Nat → Nat) : Nat → Pack
  | 0 => ⟨(start lens bits + count lens bits) * 2 ^ (depth - bits), 0, 0⟩
  | j + 1 => packLength lens depth bits cost (bits + j + 1) lens.length (packLong lens depth bits cost j)

/-- The first bits and the cost of these codewords. -/
def longItems (lens : List Nat) (bits : Nat) (cost : Nat → Nat) : Nat → List (Nat × Nat)
  | 0 => []
  | j + 1 => longItems lens bits cost j ++
      (ofLength lens (bits + j + 1) lens.length).map fun s => (top lens bits s, cost s)

theorem ofLength_succ (lens : List Nat) (n i : Nat) :
    ofLength lens n (i + 1) = ofLength lens n i ++ if lengthOf lens i = n then [i] else [] := by
  rw [ofLength, ofLength, List.range_succ, List.filter_append]
  by_cases same : lengthOf lens i = n <;> simp [same]

theorem mem_ofLength {n s : Nat} (positive : n ≠ 0) :
    s ∈ ofLength lens n lens.length ↔ lengthOf lens s = n := by
  rw [ofLength, List.mem_filter, List.mem_range, decide_eq_true_eq]
  constructor
  · exact fun h => h.2
  · intro length
    exact ⟨used_lt (by omega), length⟩

theorem mem_longItems {j k c : Nat} : (k, c) ∈ longItems lens bits cost j ↔
    ∃ s, bits < lengthOf lens s ∧ lengthOf lens s ≤ bits + j ∧ k = top lens bits s ∧ c = cost s := by
  induction j with
  | zero =>
    simp only [longItems, List.not_mem_nil, Nat.add_zero, false_iff, not_exists]
    omega
  | succ j ih =>
    rw [longItems, List.mem_append, ih, List.mem_map]
    constructor
    · rintro (⟨s, long, upTo, rest⟩ | ⟨s, member, equal⟩)
      · exact ⟨s, long, by omega, rest⟩
      · obtain ⟨rfl, rfl⟩ := Prod.mk.inj equal
        rw [mem_ofLength (by omega)] at member
        exact ⟨s, by omega, by omega, rfl, rfl⟩
    · rintro ⟨s, long, upTo, rfl, rfl⟩
      by_cases last : lengthOf lens s = bits + j + 1
      · exact Or.inr ⟨s, (mem_ofLength (by omega)).mpr last, rfl⟩
      · exact Or.inl ⟨s, long, by omega, rfl, rfl⟩

theorem count_eq {n : Nat} (positive : n ≠ 0) : count lens n = lens.count n := by
  rw [count, if_neg positive]

/-- A codeword does not go beyond the place of its first bits. -/
theorem codeword_fits {n : Nat} (code : Nat) (long : bits < n) (upTo : n ≤ depth) :
    code * 2 ^ (depth - n) % 2 ^ (depth - bits) + 2 ^ (depth - n) ≤ 2 ^ (depth - bits) := by
  have split : 2 ^ (depth - bits) = 2 ^ (n - bits) * 2 ^ (depth - n) := by
    rw [← Nat.pow_add]; congr 1; omega
  rw [split, Nat.mul_mod_mul_right, ← Nat.succ_mul]
  exact Nat.mul_le_mul_right _ (Nat.mod_lt _ (Nat.two_pow_pos _))

variable (lens depth bits cost) in
theorem packLength_position (n i : Nat) (positive : 1 ≤ n) (p : Pack) :
    (packLength lens depth bits cost n i p).position = p.position + (lens.take i).count n * 2 ^ (depth - n) := by
  induction i with
  | zero => simp [packLength, ofLength]
  | succ i ih =>
    rw [packLength, ofLength_succ, List.foldl_append, count_take_succ lens i n positive]
    change (List.foldl _ (packLength lens depth bits cost n i p) _).position = _
    by_cases same : lengthOf lens i = n
    · rw [if_pos same, if_pos same, List.foldl_cons, List.foldl_nil, Pack.put_position, ih, Nat.add_assoc,
        ← Nat.succ_mul]
    · rw [if_neg same, if_neg same]
      exact ih

theorem packLength_here (bits : Nat) (cost : Nat → Nat) {n : Nat} {p : Pack} (positive : 1 ≤ n)
    (position : p.position = start lens n * 2 ^ (depth - n)) (i : Nat) :
    (packLength lens depth bits cost n i p).position =
      (start lens n + (lens.take i).count n) * 2 ^ (depth - n) := by
  rw [packLength_position lens depth bits cost n i positive, position, Nat.add_mul]

theorem packLength_packed {n : Nat} {items : List (Nat × Nat)} {p : Pack}
    (h : Packed (2 ^ (depth - bits)) items p) (long : bits < n) (upTo : n ≤ depth)
    (position : p.position = start lens n * 2 ^ (depth - n)) (i : Nat) :
    Packed (2 ^ (depth - bits)) (items ++ (ofLength lens n i).map fun s => (top lens bits s, cost s))
      (packLength lens depth bits cost n i p) := by
  induction i with
  | zero => simpa [packLength, ofLength] using h
  | succ i ih =>
    have here := packLength_here bits cost (by omega) position i
    rw [packLength, ofLength_succ]
    by_cases same : lengthOf lens i = n
    · -- the codeword is the next one of its length
      have code : start lens n + (lens.take i).count n = codeOf lens i := by rw [codeOf, same]
      have split : 2 ^ (depth - bits) = 2 ^ (n - bits) * 2 ^ (depth - n) := by
        rw [← Nat.pow_add]; congr 1; omega
      rw [code] at here
      have place : codeOf lens i * 2 ^ (depth - n) / 2 ^ (depth - bits) = top lens bits i := by
        rw [split, Nat.mul_div_mul_right _ _ (Nat.two_pow_pos _), top, same]
      have next := ih.put (cost i) (Nat.two_pow_pos (depth - n))
        (by rw [here]; exact codeword_fits _ long upTo)
      rw [here, place] at next
      rw [if_pos same, List.foldl_append, List.map_append, ← List.append_assoc]
      exact next
    · rw [if_neg same, List.append_nil]
      exact ih

/-- Codewords of one length that are no cheaper than those before them pay for every place
that they fill, whatever it holds already. -/
theorem packLength_const {n c : Nat} {p : Pack} (same : ∀ s, lengthOf lens s = n → cost s = c)
    (long : bits < n) (upTo : n ≤ depth) (position : p.position = start lens n * 2 ^ (depth - n))
    (cheaper : p.opened ≤ c) (empty : 2 ^ (depth - bits) ∣ p.position → p.opened = 0) (i : Nat) :
    let r := (lens.take i).count n
    let p' := packLength lens depth bits cost n i p
    p'.closed + c * (p.position / 2 ^ (depth - bits)) = p.closed + c * (p'.position / 2 ^ (depth - bits)) ∧
      p'.opened = if 2 ^ (depth - bits) ∣ p'.position then 0 else if r = 0 then p.opened else c := by
  induction i with
  | zero =>
    simp only [List.take_zero, List.count_nil, if_true]
    refine ⟨rfl, ?_⟩
    change p.opened = if _ ∣ p.position then 0 else p.opened
    split
    · rename_i full
      exact empty full
    · rfl
  | succ i ih =>
    obtain ⟨closed, opened⟩ := ih
    by_cases this : lengthOf lens i = n
    · have fits := codeword_fits (start lens n + (lens.take i).count n) long upTo
      rw [← packLength_here bits cost (by omega) position i] at fits
      have place := next_place (Nat.two_pow_pos (depth - n)) fits
      have most : max (packLength lens depth bits cost n i p).opened c = c := by
        apply Nat.max_eq_right
        rw [opened]
        split
        · exact Nat.zero_le _
        · split
          · exact cheaper
          · exact Nat.le_refl _
      have step : packLength lens depth bits cost n (i + 1) p =
          (packLength lens depth bits cost n i p).put (2 ^ (depth - bits)) (2 ^ (depth - n)) c := by
        simp only [packLength, ofLength_succ, if_pos this, List.foldl_append, List.foldl_cons, List.foldl_nil,
          same i this]
      rw [step, count_take_succ lens i n (by omega), if_pos this]
      dsimp only
      rw [Pack.put_position, place, Pack.put]
      constructor
      · by_cases full : 2 ^ (depth - bits) ∣ (packLength lens depth bits cost n i p).position + 2 ^ (depth - n)
        · simp only [if_pos full, most, Nat.mul_add, Nat.mul_one]; omega
        · simp only [if_neg full, Nat.add_zero]; exact closed
      · split
        · rfl
        · rw [if_neg (Nat.succ_ne_zero _), most]
    · have step : packLength lens depth bits cost n (i + 1) p = packLength lens depth bits cost n i p := by
        simp only [packLength, ofLength_succ, if_neg this, List.append_nil]
      rw [step, count_take_succ lens i n (by omega), if_neg this]
      exact ⟨closed, opened⟩

theorem packLong_ends (j : Nat) (upTo : bits + j ≤ depth) : (packLong lens depth bits cost j).position =
    (start lens (bits + j) + count lens (bits + j)) * 2 ^ (depth - (bits + j)) := by
  induction j with
  | zero => rfl
  | succ j ih =>
    rw [packLong, packLength_position _ _ _ _ _ _ (by omega), ih (by omega), List.take_length, ← Nat.add_assoc,
      count_eq (by omega : bits + j + 1 ≠ 0), start, show depth - (bits + j) = depth - (bits + j + 1) + 1 by omega,
      Nat.pow_succ, Nat.add_mul _ (lens.count _)]
    congr 1
    simp only [Nat.mul_assoc, Nat.mul_comm, Nat.mul_left_comm]

variable (lens depth bits cost) in
/-- The next longer codewords begin where those so far end. -/
theorem packLong_next (j : Nat) (upTo : bits + j + 1 ≤ depth) : (packLong lens depth bits cost j).position =
    start lens (bits + j + 1) * 2 ^ (depth - (bits + j + 1)) := by
  rw [packLong_ends j (by omega), start, show depth - (bits + j) = depth - (bits + j + 1) + 1 by omega, Nat.pow_succ]
  simp only [Nat.mul_assoc, Nat.mul_comm, Nat.mul_left_comm]

theorem packLong_packed (j : Nat) (upTo : bits + j ≤ depth) :
    Packed (2 ^ (depth - bits)) (longItems lens bits cost j) (packLong lens depth bits cost j) := by
  induction j with
  | zero => exact Packed.start _
  | succ j ih =>
    exact packLength_packed (ih (by omega)) (by omega : bits < bits + j + 1) upTo (packLong_next lens depth bits cost j upTo) lens.length

/-- All long codewords together end where the code space in use does. -/
theorem packLong_position (bounded : ∀ n ∈ lens, n ≤ depth) (h : bits ≤ depth) :
    (packLong lens depth bits cost (depth - bits)).position = kraft lens depth := by
  rw [packLong_ends _ (by omega), Nat.add_sub_cancel' h, Nat.sub_self, Nat.pow_zero, Nat.mul_one,
    start_add_count bounded]

end Isal.PrefixCode
