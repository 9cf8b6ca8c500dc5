import Isal.Bits

/-! Canonical prefix codes. A code is given by its vector of code lengths, where
length 0 marks an unused symbol; codewords are assigned in order of length and then of
symbol. An incomplete code leaves the largest values unassigned, so whether a codeword
can still be completed is visible from the zero-padded bits alone. -/
namespace Isal.PrefixCode

open Isal.Bits

/-- Parsing a bit string gives a value and the rest, asks for more bits, or fails. -/
inductive Parse (α : Type) where
  | ok (value : α) (rest : List Bool)
  | more
  | bad
  deriving Repr, DecidableEq

def lengthOf (lens : List Nat) (sym : Nat) : Nat := lens[sym]?.getD 0

def count (lens : List Nat) (n : Nat) : Nat := if n = 0 then 0 else lens.count n

/-- The first codeword of length `n`. -/
def start (lens : List Nat) : Nat → Nat
  | 0 => 0
  | n + 1 => 2 * (start lens n + count lens n)

/-- The codeword of a symbol as a number, most significant bit first. -/
def codeOf (lens : List Nat) (sym : Nat) : Nat :=
  start lens (lengthOf lens sym) + (lens.take sym).count (lengthOf lens sym)

def codeword (lens : List Nat) (sym : Nat) : List Bool :=
  msbBits (codeOf lens sym) (lengthOf lens sym)

/-- The share of the `2 ^ depth` strings of length `depth` that the code uses up. -/
def kraft (lens : List Nat) (depth : Nat) : Nat :=
  ((lens.filter (· ≠ 0)).map (fun n => 2 ^ (depth - n))).sum

/-- No symbol is longer than `depth` and the code is not oversubscribed. -/
structure Valid (lens : List Nat) (depth : Nat) : Prop where
  bounded : ∀ n ∈ lens, n ≤ depth
  kraft_le : kraft lens depth ≤ 2 ^ depth

def used (lens : List Nat) (sym : Nat) : Bool := lengthOf lens sym != 0

/-- One symbol at a time: the symbol below `limit` whose codeword comes next, if there is
one. Symbols from `limit` on take part in the assignment of codewords but are reserved. -/
def decodeSym (lens : List Nat) (limit : Nat) (bits : List Bool) : Parse Nat :=
  match (List.range limit).find? fun s => used lens s && (codeword lens s).isPrefixOf bits with
  | some s => .ok s (bits.drop (lengthOf lens s))
  | none =>
    if (List.range limit).any fun s => used lens s && bits.isPrefixOf (codeword lens s)
    then .more else .bad

variable {lens : List Nat} {depth : Nat}

theorem start_cons (x : Nat) (lens : List Nat) (n : Nat) :
    start (x :: lens) n = start lens n + if 0 < x ∧ x < n then 2 ^ (n - x) else 0 := by
  induction n with
  | zero => simp [start]
  | succ n ih =>
    rw [start, start, ih]
    rcases Nat.lt_trichotomy x n with h | h | h
    · have power : 2 ^ (n + 1 - x) = 2 * 2 ^ (n - x) := by
        rw [show n + 1 - x = n - x + 1 by omega, Nat.pow_succ]; omega
      by_cases hx : 0 < x
      · rw [if_pos ⟨hx, h⟩, if_pos ⟨hx, by omega⟩, power]
        simp [count, Nat.ne_of_lt h]; omega
      · obtain rfl : x = 0 := by omega
        by_cases hn : n = 0
        · simp [count, hn]
        · simp [count, Ne.symm hn]
    · subst h
      by_cases hx : 0 < x
      · simp [count, hx, Nat.ne_of_gt hx]; omega
      · simp [count, Nat.eq_zero_of_not_pos hx]
    · have : x ≠ n := Nat.ne_of_gt h
      simp [count, this, show ¬x < n by omega, show ¬x < n + 1 by omega]

/-- Running total of the code space handed out to the lengths up to `n`. -/
theorem start_add_count (bounded : ∀ n ∈ lens, n ≤ depth) :
    start lens depth + count lens depth = kraft lens depth := by
  induction lens with
  | nil =>
    have zero : ∀ n, start [] n = 0 := by
      intro n
      induction n with
      | zero => rfl
      | succ n ih => simp [start, ih, count]
    simp [kraft, count, zero]
  | cons x lens ih =>
    have tail := ih fun n hn => bounded n (List.mem_cons_of_mem x hn)
    have hx := bounded x (List.mem_cons_self ..)
    rw [start_cons]
    by_cases zero : x = 0
    · subst zero
      have same : count (0 :: lens) depth = count lens depth := by
        by_cases hd : depth = 0
        · simp [count, hd]
        · simp [count, hd, Ne.symm hd]
      simpa [kraft, same] using tail
    · have kraftCons : kraft (x :: lens) depth = 2 ^ (depth - x) + kraft lens depth := by
        simp [kraft, zero]
      rw [kraftCons, ← tail]
      rcases Nat.lt_or_eq_of_le hx with h | h
      · simp [count, Nat.pos_of_ne_zero zero, h, Nat.ne_of_lt h]; omega
      · subst h
        simp [count, zero]; omega

theorem step_le (lens : List Nat) (n k : Nat) :
    (start lens n + count lens n) * 2 ^ (k + 1) ≤ start lens (n + k + 1) := by
  induction k with
  | zero => simp [start]; omega
  | succ k ih =>
    rw [show n + (k + 1) + 1 = (n + k + 1) + 1 by omega, start, Nat.pow_succ, ← Nat.mul_assoc]
    omega

theorem start_step {m n : Nat} (h : m < n) :
    (start lens m + count lens m) * 2 ^ (n - m) ≤ start lens n := by
  have := step_le lens m (n - m - 1)
  rwa [show n - m - 1 + 1 = n - m by omega, show m + (n - m - 1) + 1 = n by omega] at this

theorem used_lt {s : Nat} (h : lengthOf lens s ≠ 0) : s < lens.length := by
  by_contra out
  simp [lengthOf, List.getElem?_eq_none (Nat.le_of_not_lt out)] at h

theorem lengthOf_eq {s : Nat} (h : s < lens.length) : lengthOf lens s = lens[s] := by
  simp [lengthOf, h]

theorem count_take_succ (lens : List Nat) (i n : Nat) (positive : 1 ≤ n) :
    (lens.take (i + 1)).count n = (lens.take i).count n + if lengthOf lens i = n then 1 else 0 := by
  by_cases inside : i < lens.length
  · rw [List.take_succ_eq_append_getElem inside, List.count_append, lengthOf_eq inside]
    by_cases same : lens[i] = n <;> simp [same]
  · rw [List.take_of_length_le (by omega), List.take_of_length_le (by omega)]
    simp [lengthOf, List.getElem?_eq_none (Nat.le_of_not_lt inside), show 0 ≠ n by omega]

theorem rank_lt {s t : Nat} (hs : s < lens.length) (h : s < t) :
    (lens.take s).count (lengthOf lens s) < (lens.take t).count (lengthOf lens s) := by
  have step : (lens.take (s + 1)).count (lengthOf lens s) = (lens.take s).count (lengthOf lens s) + 1 := by
    rw [List.take_succ_eq_append_getElem hs, List.count_append, lengthOf_eq hs]
    simp
  have := (List.take_sublist_take_left (l := lens) (show s + 1 ≤ t from h)).count_le (lengthOf lens s)
  omega

theorem rank_lt_count {s : Nat} (h : lengthOf lens s ≠ 0) :
    (lens.take s).count (lengthOf lens s) < count lens (lengthOf lens s) := by
  have := rank_lt (used_lt h) (used_lt h)
  simpa [count, h] using this

theorem exists_rank {a r : Nat} (h : r < lens.count a) :
    ∃ s, s < lens.length ∧ lengthOf lens s = a ∧ (lens.take s).count a = r := by
  induction lens generalizing r with
  | nil => simp at h
  | cons x lens ih =>
    by_cases same : x = a
    · subst same
      rw [List.count_cons_self] at h
      cases r with
      | zero => exact ⟨0, by simp, by simp [lengthOf], by simp⟩
      | succ r =>
        obtain ⟨s, hs, hlen, hr⟩ := ih (by omega : r < lens.count x)
        exact ⟨s + 1, by simpa using hs, by simpa [lengthOf] using hlen, by simpa using hr⟩
    · rw [List.count_cons_of_ne same] at h
      obtain ⟨s, hs, hlen, hr⟩ := ih h
      exact ⟨s + 1, by simpa using hs, by simpa [lengthOf] using hlen, by simpa [same] using hr⟩

theorem codeOf_lt {s : Nat} (h : lengthOf lens s ≠ 0) :
    codeOf lens s < start lens (lengthOf lens s) + count lens (lengthOf lens s) := by
  have := rank_lt_count h
  simp only [codeOf]; omega

theorem prefix_free {s t : Nat} (hs : lengthOf lens s ≠ 0)
    (ht : lengthOf lens t ≠ 0) (different : s ≠ t) (shorter : lengthOf lens s ≤ lengthOf lens t) :
    codeOf lens t / 2 ^ (lengthOf lens t - lengthOf lens s) ≠ codeOf lens s := by
  intro equal
  rcases Nat.lt_or_eq_of_le shorter with h | h
  · have gap : (codeOf lens s + 1) * 2 ^ (lengthOf lens t - lengthOf lens s) ≤ codeOf lens t :=
      Nat.le_trans (Nat.mul_le_mul_right _ (codeOf_lt hs))
        (Nat.le_trans (start_step h) (Nat.le_add_right ..))
    have := (Nat.le_div_iff_mul_le (Nat.two_pow_pos _)).mpr gap
    omega
  · rw [h, Nat.sub_self, Nat.pow_zero, Nat.div_one] at equal
    simp only [codeOf, h] at equal
    rcases Nat.lt_or_gt_of_ne different with order | order
    · have := rank_lt (used_lt hs) order
      rw [h] at this; omega
    · have := rank_lt (used_lt ht) order
      omega

namespace Valid

theorem length_le (valid : Valid lens depth) (s : Nat) : lengthOf lens s ≤ depth := by
  by_cases hs : s < lens.length
  · rw [lengthOf_eq hs]
    exact valid.bounded _ (List.getElem_mem hs)
  · simp [lengthOf, List.getElem?_eq_none (Nat.le_of_not_lt hs)]

theorem space_le (valid : Valid lens depth) {n : Nat} (h : n ≤ depth) :
    (start lens n + count lens n) * 2 ^ (depth - n) ≤ kraft lens depth := by
  rw [← start_add_count valid.bounded]
  rcases Nat.lt_or_eq_of_le h with h | h
  · exact Nat.le_trans (start_step h) (Nat.le_add_right ..)
  · subst h; simp

theorem codeOf_succ_le (valid : Valid lens depth) {s : Nat} (h : lengthOf lens s ≠ 0) :
    (codeOf lens s + 1) * 2 ^ (depth - lengthOf lens s) ≤ kraft lens depth :=
  Nat.le_trans (Nat.mul_le_mul_right _ (codeOf_lt h)) (valid.space_le (valid.length_le s))

theorem codeOf_lt_pow (valid : Valid lens depth) {s : Nat} (h : lengthOf lens s ≠ 0) :
    codeOf lens s < 2 ^ lengthOf lens s := by
  have space := Nat.le_trans (valid.codeOf_succ_le h) valid.kraft_le
  have split : 2 ^ depth = 2 ^ lengthOf lens s * 2 ^ (depth - lengthOf lens s) := by
    rw [← Nat.pow_add, Nat.add_sub_cancel' (valid.length_le s)]
  rw [split] at space
  exact Nat.lt_of_succ_le (Nat.le_of_mul_le_mul_right space (Nat.two_pow_pos _))

/-- The assigned codewords fill the code space from zero without a gap. -/
theorem covered (valid : Valid lens depth) {a : Nat} (h : a < kraft lens depth) :
    ∃ s, lengthOf lens s ≠ 0 ∧ a / 2 ^ (depth - lengthOf lens s) = codeOf lens s := by
  -- the least length whose block of codewords ends beyond `a` holds the codeword of `a`
  have reach : ∀ n, n ≤ depth → a < (start lens n + count lens n) * 2 ^ (depth - n) →
      ∃ m, m ≤ n ∧ start lens m * 2 ^ (depth - m) ≤ a ∧
        a < (start lens m + count lens m) * 2 ^ (depth - m) := by
    intro n
    induction n with
    | zero => intro _ below; exact ⟨0, Nat.le_refl _, by simp [start], below⟩
    | succ n ih =>
      intro hn below
      by_cases low : start lens (n + 1) * 2 ^ (depth - (n + 1)) ≤ a
      · exact ⟨n + 1, Nat.le_refl _, low, below⟩
      · have same : (start lens n + count lens n) * 2 ^ (depth - n) =
            start lens (n + 1) * 2 ^ (depth - (n + 1)) := by
          rw [start, show depth - n = depth - (n + 1) + 1 by omega, Nat.pow_succ]
          simp only [Nat.mul_assoc, Nat.mul_comm, Nat.mul_left_comm]
        obtain ⟨m, hm, bounds⟩ := ih (by omega) (by omega)
        exact ⟨m, by omega, bounds⟩
  obtain ⟨m, hm, low, high⟩ := reach depth (Nat.le_refl _) (by
    simpa [start_add_count valid.bounded] using h)
  have lower : start lens m ≤ a / 2 ^ (depth - m) := (Nat.le_div_iff_mul_le (Nat.two_pow_pos _)).mpr low
  have upper : a / 2 ^ (depth - m) < start lens m + count lens m :=
    (Nat.div_lt_iff_lt_mul (Nat.two_pow_pos _)).mpr high
  have positive : m ≠ 0 := by
    rintro rfl
    simp [count, start] at upper
  have inCount : a / 2 ^ (depth - m) - start lens m < lens.count m := by
    have : count lens m = lens.count m := by simp [count, positive]
    omega
  obtain ⟨s, _, length, rank⟩ := exists_rank inCount
  refine ⟨s, by rw [length]; exact positive, ?_⟩
  rw [codeOf, length, rank]
  omega

end Valid

/-- The first `n` bits of a longer codeword. -/
def top (lens : List Nat) (n s : Nat) : Nat := codeOf lens s / 2 ^ (lengthOf lens s - n)

/-- The first bits grow in order of length and then of symbol. -/
theorem top_le {n s t : Nat} (long : n < lengthOf lens s)
    (order : lengthOf lens s < lengthOf lens t ∨ lengthOf lens s = lengthOf lens t ∧ s < t) :
    top lens n s ≤ top lens n t := by
  rcases order with shorter | ⟨same, less⟩
  · have gap : (codeOf lens s + 1) * 2 ^ (lengthOf lens t - lengthOf lens s) ≤ codeOf lens t :=
      Nat.le_trans (Nat.mul_le_mul_right _ (codeOf_lt (by omega)))
        (Nat.le_trans (start_step shorter) (Nat.le_add_right ..))
    have := (Nat.le_div_iff_mul_le (Nat.two_pow_pos _)).mpr gap
    rw [top, top, show lengthOf lens t - n = (lengthOf lens t - lengthOf lens s) + (lengthOf lens s - n) by omega,
      Nat.pow_add, ← Nat.div_div_eq_div_mul]
    exact Nat.div_le_div_right (by omega)
  · have rank := rank_lt (used_lt (Nat.ne_zero_of_lt long)) less
    rw [top, top, codeOf, codeOf, ← same]
    exact Nat.div_le_div_right (by omega)

namespace Valid

theorem top_lt (valid : Valid lens depth) {n s : Nat} (long : n < lengthOf lens s) : top lens n s < 2 ^ n := by
  rw [top, Nat.div_lt_iff_lt_mul (Nat.two_pow_pos _), ← Nat.pow_add, Nat.add_sub_cancel' (Nat.le_of_lt long)]
  exact valid.codeOf_lt_pow (Nat.ne_zero_of_lt long)

/-- Below the last codeword no space is left out, so a long codeword shares its first bits
with another one unless no larger first bits occur. -/
theorem exists_sibling (valid : Valid lens depth) {n s t : Nat} (hs : n < lengthOf lens s)
    (ht : n < lengthOf lens t) (order : top lens n s < top lens n t) :
    ∃ u, u ≠ s ∧ n < lengthOf lens u ∧ top lens n u = top lens n s := by
  have hsDepth := valid.length_le s
  have htDepth := valid.length_le t
  -- the string that differs from the codeword of `s` in its last bit
  obtain ⟨c, different, half⟩ : ∃ c, c ≠ codeOf lens s ∧ c / 2 = codeOf lens s / 2 := by
    rcases Nat.mod_two_eq_zero_or_one (codeOf lens s) with even | odd
    · exact ⟨codeOf lens s + 1, by omega, by omega⟩
    · exact ⟨codeOf lens s - 1, by omega, by omega⟩
  have sameTop : c / 2 ^ (lengthOf lens s - n) = top lens n s := by
    rw [top, show lengthOf lens s - n = 1 + (lengthOf lens s - n - 1) by omega, Nat.pow_add,
      ← Nat.div_div_eq_div_mul, ← Nat.div_div_eq_div_mul, Nat.pow_one, half]
  have quotient : c * 2 ^ (depth - lengthOf lens s) / 2 ^ (depth - n) = top lens n s := by
    rw [show depth - n = (depth - lengthOf lens s) + (lengthOf lens s - n) by omega, Nat.pow_add,
      ← Nat.div_div_eq_div_mul, Nat.mul_div_cancel _ (Nat.two_pow_pos _), sameTop]
  have inside : c * 2 ^ (depth - lengthOf lens s) < kraft lens depth := by
    have space := valid.codeOf_succ_le (s := t) (by omega)
    have below : c * 2 ^ (depth - lengthOf lens s) < top lens n t * 2 ^ (depth - n) := by
      rw [← Nat.div_lt_iff_lt_mul (Nat.two_pow_pos _), quotient]
      exact order
    have upper : top lens n t * 2 ^ (depth - n) ≤ codeOf lens t * 2 ^ (depth - lengthOf lens t) := by
      rw [show depth - n = (lengthOf lens t - n) + (depth - lengthOf lens t) by omega, Nat.pow_add, ← Nat.mul_assoc]
      exact Nat.mul_le_mul_right _ (Nat.div_mul_le_self ..)
    rw [Nat.succ_mul] at space
    exact Nat.lt_of_lt_of_le (Nat.lt_of_lt_of_le below upper) (Nat.le_trans (Nat.le_add_right ..) space)
  obtain ⟨u, hu, code⟩ := valid.covered inside
  have huDepth := valid.length_le u
  have other : u ≠ s := by
    rintro rfl
    rw [Nat.mul_div_cancel _ (Nat.two_pow_pos _)] at code
    exact different code
  have long : n < lengthOf lens u := by
    by_contra short
    refine prefix_free hu (by omega : lengthOf lens s ≠ 0) other (by omega) ?_
    rw [← code, show lengthOf lens s - lengthOf lens u = (lengthOf lens s - n) + (n - lengthOf lens u) by omega,
      Nat.pow_add, ← Nat.div_div_eq_div_mul, show codeOf lens s / 2 ^ (lengthOf lens s - n) = top lens n s from rfl,
      ← quotient, Nat.div_div_eq_div_mul, ← Nat.pow_add]
    congr 2; omega
  refine ⟨u, other, long, ?_⟩
  rw [top, ← code, Nat.div_div_eq_div_mul, ← Nat.pow_add,
    show depth - lengthOf lens u + (lengthOf lens u - n) = depth - n by omega, quotient]

/-- First bits that belong to long codewords are shared but for the last ones, so there are
few of them. -/
theorem tops_le (valid : Valid lens depth) (n : Nat) (tops : List Nat) (distinct : tops.Nodup)
    (long : ∀ z ∈ tops, ∃ s, n < lengthOf lens s ∧ top lens n s = z) : 2 * tops.length ≤ lens.length + 1 := by
  classical
  by_cases none : tops = []
  · simp [none]
  obtain ⟨last, member, greatest⟩ := tops.toFinset.exists_max_image id ⟨tops.head none, by simp⟩
  rw [List.mem_toFinset] at member
  obtain ⟨t, ht, rfl⟩ := long last member
  let others : Finset Nat := (Finset.range lens.length).filter fun s =>
    n < lengthOf lens s ∧ top lens n s ∈ tops.toFinset.erase (top lens n t)
  have pairs : ∀ z ∈ tops.toFinset.erase (top lens n t), 2 ≤ (others.filter fun s => top lens n s = z).card := by
    intro z hz
    obtain ⟨unequal, inTops⟩ := Finset.mem_erase.mp hz
    obtain ⟨s, hs, rfl⟩ := long z (List.mem_toFinset.mp inTops)
    obtain ⟨u, other, hu, same⟩ := valid.exists_sibling hs ht (lt_of_le_of_ne (greatest _ inTops) unequal)
    have inSet : ∀ w, n < lengthOf lens w → top lens n w = top lens n s →
        w ∈ others.filter fun w => top lens n w = top lens n s := by
      intro w hw equal
      rw [Finset.mem_filter, Finset.mem_filter, equal]
      exact ⟨⟨Finset.mem_range.mpr (used_lt (by omega)), hw, hz⟩, rfl⟩
    exact Finset.one_lt_card.mpr ⟨s, inSet s hs rfl, u, inSet u hu same, Ne.symm other⟩
  have twice : 2 * (tops.toFinset.erase (top lens n t)).card ≤ others.card :=
    Finset.mul_card_image_le_card_of_maps_to (fun s hs => (Finset.mem_filter.mp hs).2.2) 2 pairs
  have room : others ⊆ (Finset.range lens.length).erase t := by
    intro s hs
    obtain ⟨inRange, -, inTops⟩ := Finset.mem_filter.mp hs
    refine Finset.mem_erase.mpr ⟨?_, inRange⟩
    rintro rfl
    simp at inTops
  have fewer := Finset.card_le_card room
  rw [Finset.card_erase_of_mem (Finset.mem_range.mpr (used_lt (by omega))), Finset.card_range] at fewer
  rw [Finset.card_erase_of_mem (List.mem_toFinset.mpr member), List.toFinset_card_of_nodup distinct] at twice
  have inside := used_lt (s := t) (show lengthOf lens t ≠ 0 by omega)
  omega

end Valid

/-- The zero-padded stream `v` begins with the codeword of `s`. -/
structure Matches (lens : List Nat) (s v : Nat) : Prop where
  used : lengthOf lens s ≠ 0
  low : v % 2 ^ lengthOf lens s = revBits (lengthOf lens s) (codeOf lens s)

theorem Matches.of_mod {s v w n : Nat} (h : Matches lens s v) (enough : lengthOf lens s ≤ n)
    (same : v % 2 ^ n = w % 2 ^ n) : Matches lens s w := by
  refine ⟨h.used, ?_⟩
  rw [← h.low, ← Nat.mod_mod_of_dvd w (Nat.pow_dvd_pow 2 enough), ← same,
    Nat.mod_mod_of_dvd _ (Nat.pow_dvd_pow 2 enough)]

theorem matches_of_prefix {s : Nat} {bits : List Bool} (h : lengthOf lens s ≠ 0)
    (pre : codeword lens s <+: bits) :
    Matches lens s (bitsVal bits) ∧ lengthOf lens s ≤ bits.length := by
  have := prefix_iff.mp pre
  simp only [codeword, msbBits_length] at this
  exact ⟨⟨h, this.2⟩, this.1⟩

theorem Matches.isPrefix {s : Nat} {bits : List Bool} (h : Matches lens s (bitsVal bits))
    (enough : lengthOf lens s ≤ bits.length) : codeword lens s <+: bits := by
  rw [prefix_iff, codeword, msbBits_length]
  exact ⟨enough, h.low⟩

namespace Valid

theorem matches_unique (valid : Valid lens depth) {s t v : Nat} (hs : Matches lens s v)
    (ht : Matches lens t v) : s = t := by
  by_contra different
  wlog shorter : lengthOf lens s ≤ lengthOf lens t generalizing s t
  · exact this ht hs (Ne.symm different) (by omega)
  have low := hs.low
  have nested : v % 2 ^ lengthOf lens s = v % 2 ^ lengthOf lens t % 2 ^ lengthOf lens s :=
    (Nat.mod_mod_of_dvd _ (Nat.pow_dvd_pow 2 shorter)).symm
  rw [nested, ht.low, revBits_mod _ shorter] at low
  refine prefix_free hs.used ht.used different shorter (revBits_inj ?_ (valid.codeOf_lt_pow hs.used) low)
  rw [Nat.div_lt_iff_lt_mul (Nat.two_pow_pos _), ← Nat.pow_add, Nat.add_sub_cancel' shorter]
  exact valid.codeOf_lt_pow ht.used

theorem exists_matches (valid : Valid lens depth) {v : Nat} (h : revBits depth v < kraft lens depth) :
    ∃ s, Matches lens s v := by
  obtain ⟨s, hs, code⟩ := valid.covered h
  refine ⟨s, hs, ?_⟩
  have := revBits_mod (revBits depth v) (valid.length_le s)
  rwa [revBits_revBits, code, Nat.mod_mod_of_dvd _ (Nat.pow_dvd_pow 2 (valid.length_le s))] at this

/-- A cut codeword, padded with zeros, is still inside the assigned code space. -/
theorem exists_matches_of_cut (valid : Valid lens depth) {s : Nat} {bits : List Bool}
    (hs : lengthOf lens s ≠ 0) (cut : bits <+: codeword lens s) : ∃ t, Matches lens t (bitsVal bits) := by
  obtain ⟨length, value⟩ := prefix_iff.mp cut
  rw [codeword, msbBits_length] at length
  apply valid.exists_matches
  have top : revBits bits.length (bitsVal bits) = codeOf lens s / 2 ^ (lengthOf lens s - bits.length) := by
    rw [← value]
    change revBits _ (revBits _ _ % _) = _
    rw [revBits_mod _ length, revBits_revBits, Nat.mod_eq_of_lt]
    rw [Nat.div_lt_iff_lt_mul (Nat.two_pow_pos _), ← Nat.pow_add, Nat.add_sub_cancel' length]
    exact valid.codeOf_lt_pow hs
  rw [revBits_of_lt _ (Nat.le_trans length (valid.length_le s)) (bitsVal_lt bits), top]
  have split : 2 ^ (depth - bits.length) =
      2 ^ (lengthOf lens s - bits.length) * 2 ^ (depth - lengthOf lens s) := by
    have := valid.length_le s
    rw [← Nat.pow_add]; congr 1; omega
  calc _ = codeOf lens s / 2 ^ (lengthOf lens s - bits.length) * 2 ^ (lengthOf lens s - bits.length) *
        2 ^ (depth - lengthOf lens s) := by rw [split, Nat.mul_assoc]
    _ ≤ codeOf lens s * 2 ^ (depth - lengthOf lens s) := Nat.mul_le_mul_right _ (Nat.div_mul_le_self ..)
    _ < (codeOf lens s + 1) * 2 ^ (depth - lengthOf lens s) :=
        (Nat.mul_lt_mul_right (Nat.two_pow_pos _)).mpr (Nat.lt_succ_self _)
    _ ≤ kraft lens depth := valid.codeOf_succ_le hs

theorem find_sound {s limit : Nat} {bits : List Bool}
    (found : (List.range limit).find?
      (fun s => used lens s && (codeword lens s).isPrefixOf bits) = some s) :
    Matches lens s (bitsVal bits) ∧ lengthOf lens s ≤ bits.length := by
  have holds := List.find?_some found
  simp only [used, bne_iff_ne, Bool.and_eq_true, List.isPrefixOf_iff_prefix] at holds
  exact matches_of_prefix holds.1 holds.2

theorem decodeSym_ok (valid : Valid lens depth) {s limit : Nat} {bits : List Bool} (legal : s < limit)
    (h : Matches lens s (bitsVal bits)) (enough : lengthOf lens s ≤ bits.length) :
    decodeSym lens limit bits = .ok s (bits.drop (lengthOf lens s)) := by
  unfold decodeSym
  split
  · rename_i t found
    rw [valid.matches_unique (find_sound found).1 h]
  · rename_i missing
    have := List.find?_eq_none.mp missing s (List.mem_range.mpr legal)
    simp [used, h.used, h.isPrefix enough] at this

theorem decodeSym_more (valid : Valid lens depth) {s limit : Nat} {bits : List Bool} (legal : s < limit)
    (h : Matches lens s (bitsVal bits)) (short : bits.length < lengthOf lens s) :
    decodeSym lens limit bits = .more := by
  unfold decodeSym
  split
  · rename_i t found
    have := find_sound found
    rw [valid.matches_unique this.1 h] at this
    omega
  · rw [if_pos]
    refine List.any_eq_true.mpr ⟨s, List.mem_range.mpr legal, ?_⟩
    have small : bitsVal bits < 2 ^ lengthOf lens s :=
      Nat.lt_of_lt_of_le (bitsVal_lt bits) (Nat.pow_le_pow_right (by omega) (Nat.le_of_lt short))
    have cut : bits <+: codeword lens s := by
      rw [prefix_iff, codeword, msbBits_length]
      refine ⟨Nat.le_of_lt short, ?_⟩
      change revBits _ _ % _ = _
      rw [← h.low, Nat.mod_eq_of_lt small, Nat.mod_eq_of_lt (bitsVal_lt bits)]
    simp [used, h.used, cut]

/-- `apart` says that a cut legal codeword never looks like a reserved one. -/
theorem decodeSym_bad (valid : Valid lens depth) {limit : Nat} {bits : List Bool}
    (h : ∀ s, s < limit → ¬Matches lens s (bitsVal bits))
    (apart : ∀ s t, s < limit → limit ≤ t → lengthOf lens s ≠ 0 → bits <+: codeword lens s →
      ¬Matches lens t (bitsVal bits)) :
    decodeSym lens limit bits = .bad := by
  unfold decodeSym
  split
  · rename_i t found
    have := List.mem_range.mp (List.mem_of_find?_eq_some found)
    exact absurd (find_sound found).1 (h t this)
  · rw [if_neg]
    intro extends_
    obtain ⟨s, legal, holds⟩ := List.any_eq_true.mp extends_
    rw [List.mem_range] at legal
    simp only [used, bne_iff_ne, Bool.and_eq_true, List.isPrefixOf_iff_prefix] at holds
    obtain ⟨t, ht⟩ := valid.exists_matches_of_cut holds.1 holds.2
    rcases Nat.lt_or_ge t limit with below | above
    · exact h t below ht
    · exact apart s t legal above holds.1 holds.2 ht

end Valid

end Isal.PrefixCode
