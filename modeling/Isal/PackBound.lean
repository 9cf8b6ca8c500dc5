import Isal.PackedCodes

/-! How much packed items can cost beyond what they are worth. An item of class `e` is worth
`2 ^ e` and asks for its place at the price that a place full of such items is worth, so that
only places with items of several classes or widths cost more than their items are worth. The
narrower the items, the more a place that one of them makes dear can cost. -/
namespace Isal.Grouping

/-- What the full places may cost more when the items get narrower for the `j`th time, for
classes up to `most`. -/
def slack (most : Nat) : Nat → Nat
  | 0 => 0
  | j + 1 => slack most j + (2 ^ (most + 1) - 3) * (2 ^ j - 1)

/-- The same when the class of the items has reached `e`. -/
def allowance (most j e : Nat) : Nat := slack most j + (2 ^ j - 1) * (2 ^ e - 1)

/-- The open place holds `q` items of `n - j` bits, the full places and it hold items worth `credit`,
and the classes have reached `e`. -/
structure Within (n most j e credit q : Nat) (p : Pack) : Prop where
  place : ∃ c, p.position = c * 2 ^ n + q * 2 ^ (n - j)
  below : q < 2 ^ j
  empty : q = 0 → p.opened = 0
  closed_le : p.closed + q * 2 ^ e ≤ credit + allowance most j e
  sum_le : p.closed + p.opened + q * 2 ^ e ≤ credit + allowance most j e + 2 ^ j * 2 ^ e

variable {n most j e e' credit q : Nat} {p : Pack}

theorem Within.start (n most e c : Nat) : Within n most 0 e 0 0 ⟨c * 2 ^ n, 0, 0⟩ where
  place := ⟨c, by simp⟩
  below := by simp
  empty _ := rfl
  closed_le := by simp
  sum_le := by simp

/-- Items of a higher class are worth more in the open place than it may cost. -/
theorem Within.raise (h : Within n most j e credit q p) (higher : e ≤ e') : Within n most j e' credit q p := by
  obtain ⟨place, below, empty, closed_le, sum_le⟩ := h
  obtain ⟨m, hm⟩ : ∃ m, 2 ^ j = m + 1 := ⟨2 ^ j - 1, by have := Nat.two_pow_pos j; omega⟩
  obtain ⟨a, ha⟩ : ∃ a, 2 ^ e = a + 1 := ⟨2 ^ e - 1, by have := Nat.two_pow_pos e; omega⟩
  obtain ⟨d, hd⟩ : ∃ d, 2 ^ e' = a + d + 1 :=
    ⟨2 ^ e' - 2 ^ e, by have := Nat.pow_le_pow_right (show 0 < 2 by decide) higher; omega⟩
  rw [allowance, hm, ha] at closed_le sum_le
  simp only [Nat.add_sub_cancel] at closed_le sum_le
  have room : q * d ≤ m * d := Nat.mul_le_mul_right d (by omega)
  refine ⟨place, below, empty, ?_, ?_⟩
  · rw [allowance, hm, hd]
    simp only [Nat.add_sub_cancel]
    nlinarith
  · rw [allowance, hm, hd]
    simp only [Nat.add_sub_cancel]
    nlinarith

/-- One more item, of a class at least as high. -/
theorem Within.put (h : Within n most j e credit q p) (higher : e ≤ e') (inside : j ≤ n) :
    ∃ q', Within n most j e' (credit + 2 ^ e') q' (p.put (2 ^ n) (2 ^ (n - j)) (2 ^ j * 2 ^ e')) := by
  obtain ⟨⟨c, place⟩, below, empty, closed_le, sum_le⟩ := h.raise higher
  have whole : 2 ^ n = 2 ^ j * 2 ^ (n - j) := by rw [← Nat.pow_add, Nat.add_sub_cancel' inside]
  have next : p.position + 2 ^ (n - j) = c * 2 ^ n + (q + 1) * 2 ^ (n - j) := by
    rw [place, Nat.succ_mul, Nat.add_assoc]
  have dearer : p.closed + max p.opened (2 ^ j * 2 ^ e') + q * 2 ^ e' ≤
      credit + allowance most j e' + 2 ^ j * 2 ^ e' := by
    rcases Nat.le_total p.opened (2 ^ j * 2 ^ e') with less | more
    · rw [Nat.max_eq_right less]; omega
    · rw [Nat.max_eq_left more]; exact sum_le
  have worth : (q + 1) * 2 ^ e' = q * 2 ^ e' + 2 ^ e' := Nat.succ_mul ..
  rcases Nat.lt_or_eq_of_le (Nat.succ_le_of_lt below) with room | full
  · have partial_ : ¬2 ^ n ∣ p.position + 2 ^ (n - j) := by
      rw [next, Nat.dvd_add_right (Nat.dvd_mul_left ..), whole, Nat.mul_dvd_mul_iff_right (Nat.two_pow_pos _)]
      exact fun divides => absurd (Nat.le_of_dvd (Nat.succ_pos q) divides) (by omega)
    rw [Pack.put, if_neg partial_]
    exact ⟨q + 1, ⟨c, next⟩, room, fun zero => absurd zero (Nat.succ_ne_zero q), by simp only; omega, by simp only; omega⟩
  · have full : q + 1 = 2 ^ j := full
    have fills : p.position + 2 ^ (n - j) = (c + 1) * 2 ^ n := by
      rw [next, full, ← whole, Nat.succ_mul]
    have spent : (q + 1) * 2 ^ e' = 2 ^ j * 2 ^ e' := by rw [← full]
    rw [Pack.put, if_pos (fills ▸ Nat.dvd_mul_left ..)]
    refine ⟨0, ⟨c + 1, by rw [Nat.zero_mul]; exact fills⟩, Nat.two_pow_pos j, fun _ => rfl, ?_, ?_⟩
    · simp only; omega
    · simp only; omega

/-- The items get narrower and start again with the lowest class. -/
theorem Within.narrow (h : Within n most j e credit q p) (high : e ≤ most) (positive : 1 ≤ most) (inside : j < n) :
    Within n most (j + 1) 0 credit (2 * q) p := by
  obtain ⟨⟨c, place⟩, below, empty, closed_le, sum_le⟩ := h.raise high
  obtain ⟨m, hm⟩ : ∃ m, 2 ^ j = m + 1 := ⟨2 ^ j - 1, by have := Nat.two_pow_pos j; omega⟩
  obtain ⟨b, hb⟩ : ∃ b, 2 ^ most = b + 2 := by
    have := Nat.pow_le_pow_right (show 0 < 2 by decide) positive
    exact ⟨2 ^ most - 2, by omega⟩
  have dear : 2 ^ (most + 1) - 3 = 2 * b + 1 := by rw [Nat.pow_succ]; omega
  have more : slack most (j + 1) = slack most j + (2 * b + 1) * m := by
    rw [slack, dear, hm, Nat.add_sub_cancel]
  rw [allowance, hm, hb] at closed_le sum_le
  rw [show b + 2 - 1 = b + 1 by omega, Nat.add_sub_cancel] at closed_le sum_le
  refine ⟨⟨c, ?_⟩, ?_, fun zero => empty (by omega), ?_, ?_⟩
  · rw [place, show n - j = n - (j + 1) + 1 by omega, Nat.pow_succ]
    simp only [Nat.mul_assoc, Nat.mul_comm]
  · rw [Nat.pow_succ]; omega
  · rw [allowance, more]
    simp only [Nat.pow_zero, Nat.sub_self, Nat.mul_zero, Nat.mul_one, Nat.add_zero]
    nlinarith
  · rw [allowance, more, Nat.pow_succ, hm]
    simp only [Nat.pow_zero, Nat.sub_self, Nat.mul_zero, Nat.mul_one, Nat.add_zero]
    rcases Nat.eq_zero_or_pos q with zero | some_
    · rw [empty zero]
      rw [zero] at closed_le ⊢
      nlinarith
    · have := Nat.mul_le_mul_right b some_
      nlinarith

end Isal.Grouping

namespace Isal.PrefixCode

open Isal.Grouping

variable {lens : List Nat} {depth bits most : Nat} {cls : Nat → Nat}

/-- The price of the places of a long codeword of class `cls s`. -/
def classCost (lens : List Nat) (bits : Nat) (cls : Nat → Nat) (s : Nat) : Nat :=
  2 ^ (lengthOf lens s - bits) * 2 ^ cls s

/-- What the codewords that are up to `j` bits longer than the first `bits` are worth. -/
def worth (lens : List Nat) (bits : Nat) (cls : Nat → Nat) (j : Nat) : Nat :=
  ∑ s ∈ Finset.range lens.length with bits < lengthOf lens s ∧ lengthOf lens s ≤ bits + j, 2 ^ cls s

theorem sum_ofLength (f : Nat → Nat) (n i : Nat) :
    ((ofLength lens n i).map f).sum = ∑ s ∈ Finset.range i with lengthOf lens s = n, f s := by
  induction i with
  | zero => simp [ofLength]
  | succ i ih =>
    rw [ofLength_succ, List.map_append, List.sum_append, ih, Finset.sum_filter, Finset.sum_filter,
      Finset.sum_range_succ]
    by_cases same : lengthOf lens i = n <;> simp [same]

theorem worth_succ (j : Nat) : worth lens bits cls (j + 1) =
    worth lens bits cls j + ((ofLength lens (bits + j + 1) lens.length).map fun s => 2 ^ cls s).sum := by
  rw [sum_ofLength, worth, worth, Finset.sum_filter, Finset.sum_filter, Finset.sum_filter,
    ← Finset.sum_add_distrib]
  apply Finset.sum_congr rfl
  intro s _
  by_cases here : lengthOf lens s = bits + j + 1
  · rw [if_pos (by omega), if_neg (by omega), if_pos here, Nat.zero_add]
  · rw [if_neg here, Nat.add_zero]
    exact if_congr (by omega) rfl rfl

theorem packLength_within (monotone : Monotone cls) (high : ∀ s, cls s ≤ most) {j credit q : Nat} {p : Pack}
    (upTo : bits + j ≤ depth) (positive : 1 ≤ j) (h : Within (depth - bits) most j 0 credit q p) (i : Nat) :
    ∃ e q', e ≤ most ∧ (∀ s, i ≤ s → e ≤ cls s) ∧
      Within (depth - bits) most j e (credit + ((ofLength lens (bits + j) i).map fun s => 2 ^ cls s).sum) q'
        (packLength lens depth bits (classCost lens bits cls) (bits + j) i p) := by
  induction i with
  | zero => exact ⟨0, q, Nat.zero_le _, fun _ _ => Nat.zero_le _, by simpa [packLength, ofLength] using h⟩
  | succ i ih =>
    obtain ⟨e, q', low, later, within⟩ := ih
    by_cases this : lengthOf lens i = bits + j
    · obtain ⟨q'', next⟩ := within.put (later i (Nat.le_refl i)) (by omega)
      refine ⟨cls i, q'', high i, fun s hs => monotone (by omega), ?_⟩
      have cost : classCost lens bits cls i = 2 ^ j * 2 ^ cls i := by
        rw [classCost, this, Nat.add_sub_cancel_left]
      rw [packLength, ofLength_succ, if_pos this, List.foldl_append, List.map_append, List.sum_append]
      simp only [List.foldl_cons, List.foldl_nil, List.map_cons, List.map_nil, List.sum_cons, List.sum_nil,
        Nat.add_zero, cost]
      rw [Nat.sub_sub depth bits j] at next
      rw [← Nat.add_assoc]
      exact next
    · refine ⟨e, q', low, fun s hs => later s (by omega), ?_⟩
      rw [packLength, ofLength_succ, if_neg this, List.append_nil]
      exact within

variable (lens) in
/-- Long codewords whose classes follow the order of the symbols. -/
theorem packLong_within (monotone : Monotone cls) (high : ∀ s, cls s ≤ most) (positive : 1 ≤ most) (j : Nat)
    (upTo : bits + j ≤ depth) : ∃ e q, e ≤ most ∧
      Within (depth - bits) most j e (worth lens bits cls j) q
        (packLong lens depth bits (classCost lens bits cls) j) := by
  induction j with
  | zero =>
    refine ⟨0, 0, Nat.zero_le _, ?_⟩
    have none : worth lens bits cls 0 = 0 := by
      rw [worth, Finset.sum_filter]
      exact Finset.sum_eq_zero fun s _ => if_neg (by omega)
    rw [none]
    exact Within.start ..
  | succ j ih =>
    obtain ⟨e, q, low, within⟩ := ih (by omega)
    obtain ⟨e', q', low', -, within'⟩ := packLength_within monotone high upTo (by omega)
      (within.narrow low positive (by omega)) lens.length
    refine ⟨e', q', low', ?_⟩
    rw [worth_succ]
    exact within'

/-- The full places cost little more than the codewords are worth. -/
theorem packLong_closed_le (monotone : Monotone cls) (high : ∀ s, cls s ≤ most) (positive : 1 ≤ most)
    (fits : bits ≤ depth) :
    (packLong lens depth bits (classCost lens bits cls) (depth - bits)).closed ≤
      worth lens bits cls (depth - bits) + allowance most (depth - bits) most := by
  obtain ⟨e, q, low, within⟩ := packLong_within lens monotone high positive (depth - bits)
    (by omega : bits + (depth - bits) ≤ depth)
  have := (within.raise low).closed_le
  omega

end Isal.PrefixCode
