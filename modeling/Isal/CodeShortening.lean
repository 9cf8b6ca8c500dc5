import Isal.LeafDepths

/-! The repair in `fix_code_lens` of codes that are too long. Pairs of the longest codes are taken
apart in the counts alone. Kraft's sum stays what it is, so there always is a shorter code to give way. -/
namespace Isal.HuffCodes

/-- The counts of the lengths up to `K`, weighted by length -/
def tally (K : Nat) (f : Nat → Nat) (m : HeapTree) : Nat := ∑ l ∈ Finset.Icc 1 K, f l * m l

theorem tally_set {K l : Nat} (f : Nat → Nat) (m : HeapTree) (v : Nat) (low : 1 ≤ l) (high : l ≤ K) :
    tally K f (m.set l v) + f l * m l = tally K f m + f l * v := by
  have member : l ∈ Finset.Icc 1 K := Finset.mem_Icc.mpr ⟨low, high⟩
  have others : ∑ j ∈ (Finset.Icc 1 K).erase l, f j * (m.set l v) j = ∑ j ∈ (Finset.Icc 1 K).erase l, f j * m j := by
    apply Finset.sum_congr rfl
    intro j inside
    rw [Arr.set_other (Finset.ne_of_mem_erase inside)]
  rw [tally, tally, ← Finset.add_sum_erase _ _ member, ← Finset.add_sum_erase _ _ member, others, Arr.set_self]
  omega

/-- The counts of lengths before and while they are shortened, the greatest being `codeLen` -/
structure Shortening (K limit n codeLen : Nat) (m : HeapTree) : Prop where
  kraft : tally K (fun l => 2 ^ (K - l)) m = 2 ^ K
  total : tally K (fun _ => 1) m = n
  upTo : codeLen ≤ K
  none_ : ∀ l, codeLen < l → l ≤ K → m l = 0
  longest : limit < codeLen → m codeLen ≠ 0

section

variable {K limit n codeLen : Nat} {m : HeapTree}

theorem Shortening.count_le (counts : Shortening K limit n codeLen m) {l : Nat} (low : 1 ≤ l) (high : l ≤ K) : m l ≤ n := by
  rw [← counts.total, tally]
  have single := Finset.single_le_sum (f := fun l => 1 * m l) (fun _ _ => Nat.zero_le _) (Finset.mem_Icc.mpr ⟨low, high⟩)
  rw [Nat.one_mul] at single
  exact single

/-- The longest codes come in pairs. -/
theorem Shortening.even (counts : Shortening K limit n codeLen m) (positive : 1 ≤ codeLen) : 2 ∣ m codeLen := by
  have upTo := counts.upTo
  have member : codeLen ∈ Finset.Icc 1 K := Finset.mem_Icc.mpr ⟨positive, upTo⟩
  have kraft := counts.kraft
  rw [tally, ← Finset.add_sum_erase _ _ member] at kraft
  have others : 2 ^ (K - codeLen) * 2 ∣ ∑ l ∈ (Finset.Icc 1 K).erase codeLen, 2 ^ (K - l) * m l := by
    apply Finset.dvd_sum
    intro l inside
    have range := Finset.mem_Icc.mp (Finset.mem_of_mem_erase inside)
    rcases Nat.lt_or_ge codeLen l with beyond | within
    · rw [counts.none_ l beyond range.2, Nat.mul_zero]
      exact Nat.dvd_zero _
    · have different := Finset.ne_of_mem_erase inside
      rw [← pow_succ]
      exact Nat.dvd_mul_right_of_dvd (Nat.pow_dvd_pow 2 (by omega)) _
  have all : 2 ^ (K - codeLen) * 2 ∣ 2 ^ (K - codeLen) * m codeLen + ∑ l ∈ (Finset.Icc 1 K).erase codeLen, 2 ^ (K - l) * m l := by
    rw [kraft, ← pow_succ]
    exact Nat.pow_dvd_pow 2 (by omega)
  have own := (Nat.dvd_add_left others).mp all
  exact Nat.dvd_of_mul_dvd_mul_left (by positivity) own

/-- Some code is short enough to become longer by one. -/
theorem Shortening.exists_short (counts : Shortening K limit n codeLen m) (long : limit < codeLen)
    (fits : n ≤ 2 ^ limit) : ∃ l, 1 ≤ l ∧ l < limit ∧ m l ≠ 0 := by
  by_contra none_
  push Not at none_
  have upTo := counts.upTo
  have less : tally K (fun l => 2 ^ (K - l)) m < ∑ l ∈ Finset.Icc 1 K, 2 ^ (K - limit) * (1 * m l) := by
    apply Finset.sum_lt_sum
    · intro l inside
      have range := Finset.mem_Icc.mp inside
      rcases Nat.lt_or_ge l limit with short | other
      · rw [none_ l range.1 short]
        exact le_refl _
      · rw [Nat.one_mul]
        exact Nat.mul_le_mul_right _ (Nat.pow_le_pow_right (by norm_num) (by omega))
    · refine ⟨codeLen, Finset.mem_Icc.mpr ⟨by omega, upTo⟩, ?_⟩
      rw [Nat.one_mul]
      exact Nat.mul_lt_mul_of_pos_right (Nat.pow_lt_pow_right (by norm_num) (by omega))
        (Nat.pos_of_ne_zero (counts.longest long))
  have bound : 2 ^ (K - limit) * n ≤ 2 ^ K := by
    calc 2 ^ (K - limit) * n ≤ 2 ^ (K - limit) * 2 ^ limit := Nat.mul_le_mul_left _ fits
      _ = 2 ^ K := by rw [← pow_add, Nat.sub_add_cancel (by omega)]
  rw [counts.kraft, ← Finset.mul_sum] at less
  change _ < 2 ^ (K - limit) * tally K (fun _ => 1) m at less
  rw [counts.total] at less
  omega

theorem lastCount_some (m : HeapTree) (i : Nat) (inside : i < 2 * heapTreeSize) :
    ∃ r, lastCount m i = some r ∧ r ≤ i ∧ (r = 0 ∨ m r ≠ 0) ∧ ∀ l, r < l → l ≤ i → m l = 0 := by
  induction i with
  | zero => exact ⟨0, rfl, le_refl 0, Or.inl rfl, by omega⟩
  | succ i ih =>
    rw [lastCount, readWord_some inside]
    simp only [Option.bind_eq_bind, Option.bind_some]
    by_cases count : m (i + 1) = 0
    · obtain ⟨r, result, upTo, found, empty⟩ := ih (by omega)
      rw [if_neg (not_not_intro count)]
      refine ⟨r, result, by omega, found, ?_⟩
      intro l above high
      rcases Nat.eq_or_lt_of_le high with rfl | lower
      · exact count
      · exact empty l above (by omega)
    · rw [if_pos count]
      exact ⟨i + 1, rfl, le_refl _, Or.inr count, by omega⟩

def raised (m : HeapTree) (l d : Nat) : HeapTree := m.set l (m l + d)
def lowered (m : HeapTree) (l d : Nat) : HeapTree := m.set l (m l - d)

theorem tally_raised (f : Nat → Nat) (d : Nat) {l : Nat} (low : 1 ≤ l) (high : l ≤ K) :
    tally K f (raised m l d) = tally K f m + f l * d := by
  have set := tally_set f m (m l + d) low high
  rw [Nat.mul_add] at set
  rw [raised]
  omega

theorem tally_lowered (f : Nat → Nat) (d : Nat) {l : Nat} (low : 1 ≤ l) (high : l ≤ K) (enough : d ≤ m l) :
    tally K f (lowered m l d) + f l * d = tally K f m := by
  have set := tally_set f m (m l - d) low high
  have split : f l * m l = f l * (m l - d) + f l * d := by rw [← Nat.mul_add, Nat.sub_add_cancel enough]
  rw [lowered]
  omega

/-- The counts after one round, with `i` the length that gives way -/
def shortened (m : HeapTree) (codeLen i : Nat) : HeapTree :=
  lowered (raised (raised (lowered m i 1) (i + 1) 2) (codeLen - 1) 1) codeLen 2

theorem shortened_other {i l : Nat} (first : l ≠ i) (second : l ≠ i + 1) (third : l ≠ codeLen - 1) (fourth : l ≠ codeLen) :
    (shortened m codeLen i) l = m l := by
  rw [shortened, lowered, Arr.set_other fourth, raised, Arr.set_other third, raised, Arr.set_other second, lowered,
    Arr.set_other first]

theorem shortened_longest {i : Nat} (apart : i + 1 < codeLen) : (shortened m codeLen i) codeLen = m codeLen - 2 := by
  rw [shortened, lowered, Arr.set_self, raised, Arr.set_other (by omega), raised, Arr.set_other (by omega), lowered,
    Arr.set_other (by omega)]

theorem shortened_next {i : Nat} (apart : i + 1 < codeLen) : (shortened m codeLen i) (codeLen - 1) ≠ 0 := by
  rw [shortened, lowered, Arr.set_other (by omega), raised, Arr.set_self]
  omega

theorem tally_shortened (f : Nat → Nat) {i : Nat} (low : 1 ≤ i) (apart : i + 1 < codeLen) (upTo : codeLen ≤ K)
    (count : 1 ≤ m i) (pair : 2 ≤ m codeLen) :
    tally K f (shortened m codeLen i) + f i + 2 * f codeLen = tally K f m + 2 * f (i + 1) + f (codeLen - 1) := by
  have first := tally_lowered f 1 low (by omega : i ≤ K) count
  have second := tally_raised (m := lowered m i 1) f 2 (by omega : 1 ≤ i + 1) (by omega : i + 1 ≤ K)
  have third := tally_raised (m := raised (lowered m i 1) (i + 1) 2) f 1 (by omega : 1 ≤ codeLen - 1)
    (by omega : codeLen - 1 ≤ K)
  have kept : (raised (raised (lowered m i 1) (i + 1) 2) (codeLen - 1) 1) codeLen = m codeLen := by
    rw [raised, Arr.set_other (by omega), raised, Arr.set_other (by omega), lowered, Arr.set_other (by omega)]
  have fourth := tally_lowered f 2 (by omega : 1 ≤ codeLen) upTo (by rw [kept]; exact pair)
  rw [shortened]
  omega

/-- One round leaves Kraft's sum and the number of codes what they are. -/
theorem Shortening.round (counts : Shortening K limit n codeLen m) {i : Nat} (low : 1 ≤ i) (short : i < limit)
    (long : limit < codeLen) (count : 1 ≤ m i) :
    Shortening K limit n (if (shortened m codeLen i) codeLen = 0 then codeLen - 1 else codeLen) (shortened m codeLen i) := by
  have apart : i + 1 < codeLen := by omega
  have upTo := counts.upTo
  have pair : 2 ≤ m codeLen := by
    have := counts.even (by omega)
    have := counts.longest long
    omega
  constructor
  · have sum := tally_shortened (fun l => 2 ^ (K - l)) low apart upTo count pair
    beta_reduce at sum
    rw [counts.kraft, show K - i = K - (i + 1) + 1 by omega, show K - (codeLen - 1) = K - codeLen + 1 by omega, pow_succ,
      pow_succ] at sum
    omega
  · have sum := tally_shortened (fun _ => 1) low apart upTo count pair
    rw [counts.total] at sum
    omega
  · split <;> omega
  · intro l above high
    by_cases here : l = codeLen
    · subst here
      split at above
      · assumption
      · omega
    · have beyond : codeLen < l := by
        split at above <;> omega
      rw [shortened_other (by omega) (by omega) (by omega) here]
      exact counts.none_ l beyond high
  · intro longer
    split
    · exact shortened_next apart
    · assumption

/-- The number of codes longer than the limit -/
def overlong (K limit : Nat) (m : HeapTree) : Nat := tally K (fun l => if limit < l then 1 else 0) m

theorem overlong_le (limit : Nat) (counts : Shortening K limit n codeLen m) : overlong K limit m ≤ n := by
  rw [← counts.total, overlong, tally, tally]
  apply Finset.sum_le_sum
  intro l _
  apply Nat.mul_le_mul_right
  split <;> omega

/-- The codes are shortened until none is too long. -/
theorem shortenCodes_some (fits : n ≤ 2 ^ limit) (few : n + 3 < 2 ^ 32) (inside : K < 2 * heapTreeSize) (rounds : Nat)
    {codeLen : Nat} {m : HeapTree} (counts : Shortening K limit n codeLen m) (enough : overlong K limit m < rounds) :
    ∃ codeLen' m', shortenCodes limit rounds codeLen m = some (codeLen', m') ∧ Shortening K limit n codeLen' m' ∧
      codeLen' ≤ limit ∧ ∀ w, w = 0 ∨ K < w → m' w = m w := by
  induction rounds generalizing codeLen m with
  | zero => omega
  | succ rounds ih =>
    rw [shortenCodes]
    by_cases long : limit < codeLen
    · have upTo := counts.upTo
      have pair := counts.even (by omega)
      have positive := counts.longest long
      obtain ⟨i, found, high, which, empty⟩ := lastCount_some m (limit - 1) (by omega)
      obtain ⟨l, low, short, some_⟩ := counts.exists_short long fits
      have first : i ≠ 0 := by
        intro zero
        exact absurd (empty l (by omega) (by omega)) some_
      have count : 1 ≤ m i := by
        have := which.resolve_left first
        omega
      have room : ∀ l, 1 ≤ l → l ≤ K → m l ≤ n := fun l low high => counts.count_le low high
      have next := counts.round (by omega) (by omega) long count
      have fewer : overlong K limit (shortened m codeLen i) < rounds := by
        have sum := tally_shortened (fun l => if limit < l then 1 else 0) (by omega : 1 ≤ i) (by omega) upTo count
          (by omega : 2 ≤ m codeLen)
        beta_reduce at sum
        rw [if_neg (by omega : ¬limit < i), if_neg (by omega : ¬limit < i + 1), if_pos long] at sum
        rw [overlong] at enough ⊢
        split at sum <;> omega
      obtain ⟨codeLen', m', result, counts', short', outside⟩ := ih next fewer
      refine ⟨codeLen', m', ?_, counts', short', ?_⟩
      · rw [if_pos long, readWord_some (by omega)]
        simp only [Option.bind_eq_bind, Option.bind_some]
        rw [if_neg (by omega), found]
        simp only [Option.bind_some]
        have small : ∀ l, 1 ≤ l → l ≤ K → l ≠ i → (lowered m i 1) l ≤ n := by
          intro l low high apart
          rw [lowered, Arr.set_other apart]
          exact room l low high
        have small' : (raised (lowered m i 1) (i + 1) 2) (codeLen - 1) ≤ n + 2 := by
          rw [raised, Arr.set_get]
          split
          · exact Nat.add_le_add_right (small (i + 1) (by omega) (by omega) (by omega)) 2
          · exact Nat.le_add_right_of_le (small (codeLen - 1) (by omega) (by omega) (by omega))
        have kept : (raised (raised (lowered m i 1) (i + 1) 2) (codeLen - 1) 1) codeLen = m codeLen := by
          rw [raised, Arr.set_other (by omega), raised, Arr.set_other (by omega), lowered, Arr.set_other (by omega)]
        have small₁ := room i (by omega) (by omega)
        have small₂ := small (i + 1) (by omega) (by omega) (by omega)
        have small₄ := room codeLen (by omega) upTo
        rw [if_neg first, readWord_some (by omega), Option.bind_some, writeWord_some (by omega) (by omega),
          Option.bind_some, show m.set i (m i - 1) = lowered m i 1 from rfl, readWord_some (by omega),
          Option.bind_some, writeWord_some (by omega) (by omega), Option.bind_some,
          show (lowered m i 1).set (i + 1) ((lowered m i 1) (i + 1) + 2) = raised (lowered m i 1) (i + 1) 2 from rfl,
          readWord_some (by omega), Option.bind_some, writeWord_some (by omega) (by omega), Option.bind_some,
          show (raised (lowered m i 1) (i + 1) 2).set (codeLen - 1) ((raised (lowered m i 1) (i + 1) 2) (codeLen - 1) + 1) =
            raised (raised (lowered m i 1) (i + 1) 2) (codeLen - 1) 1 from rfl,
          readWord_some (by omega), Option.bind_some, writeWord_some (by omega) (by omega), Option.bind_some,
          readWord_some (by omega), Option.bind_some]
        exact result
      · intro w far
        rw [outside w far, shortened_other (by omega) (by omega) (by omega) (by omega)]
    · rw [if_neg long]
      exact ⟨codeLen, m, rfl, counts, by omega, fun _ _ => rfl⟩

end
end Isal.HuffCodes
