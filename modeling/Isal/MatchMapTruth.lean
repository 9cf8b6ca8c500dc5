import Isal.MatchMap

/-! The entries of the match map are matches, also those that a long match leaves behind it. -/
namespace Isal.Deflate
open Bits

section

variable {memory : Arr UInt8} {p q : Nat}

theorem tzbytecntLoop_spec (cnt val : Nat) : tzbytecntLoop cnt val ≤ cnt ∧
    (tzbytecntLoop cnt val = 0 ∨ val * 256 ^ (cnt - tzbytecntLoop cnt val) % 2 ^ 64 = 0) := by
  induction cnt generalizing val with
  | zero => exact ⟨Nat.le_refl _, .inl rfl⟩
  | succ cnt ih =>
    rw [tzbytecntLoop]
    by_cases some_ : 0 < val
    · have shifted : val <<< 8 % 2 ^ 64 = val * 256 % 2 ^ 64 := by rw [Nat.shiftLeft_eq]
      rw [if_pos some_, shifted]
      obtain ⟨most, zeros⟩ := ih (val * 256 % 2 ^ 64)
      refine ⟨Nat.le_succ_of_le most, zeros.imp_right ?_⟩
      intro zero
      rw [Nat.succ_sub most, Nat.pow_succ', ← Nat.mul_assoc]
      rwa [Nat.mod_mul_mod] at zero
    · rw [if_neg some_, Nat.eq_zero_of_not_pos some_, Nat.zero_mul]
      exact ⟨Nat.le_refl _, .inr rfl⟩

/-- The bytes that are counted are zero. -/
theorem tzbytecnt_spec (val : Nat) : tzbytecnt val ≤ 8 ∧ val % 2 ^ (8 * tzbytecnt val) = 0 := by
  obtain ⟨most, zeros⟩ := tzbytecntLoop_spec 8 val
  rw [← tzbytecnt] at most zeros
  refine ⟨most, ?_⟩
  rcases zeros with none_ | zero
  · rw [none_]
    exact Nat.mod_one val
  · have power : 256 ^ (8 - tzbytecnt val) * 2 ^ (8 * tzbytecnt val) = 2 ^ 64 := by
      rw [show 256 = 2 ^ 8 from rfl, ← Nat.pow_mul, ← Nat.pow_add]
      congr 1
      omega
    rw [← power, Nat.mul_comm val, Nat.mul_mod_mul_left] at zero
    exact (Nat.mul_eq_zero.mp zero).resolve_left (Nat.pow_pos (by decide)).ne'

/-- `n` bytes at two places are the same. -/
def SameBytes (memory : Arr UInt8) (p q n : Nat) : Prop := ∀ i < n, memory (p + i) = memory (q + i)

theorem SameBytes.append {n k : Nat} (first : SameBytes memory p q n) (second : SameBytes memory (p + n) (q + n) k) :
    SameBytes memory p q (n + k) := by
  intro i below
  by_cases early : i < n
  · exact first i early
  · have late := second (i - n) (by omega)
    rwa [Nat.add_assoc, Nat.add_assoc, Nat.add_sub_cancel' (Nat.not_lt.mp early)] at late

theorem SameBytes.drop {n : Nat} (same : SameBytes memory p q n) (k : Nat) : SameBytes memory (p + k) (q + k) (n - k) := by
  intro i below
  rw [Nat.add_assoc, Nat.add_assoc]
  exact same (k + i) (by omega)

theorem SameBytes.take {n k : Nat} (same : SameBytes memory p q n) (short : k ≤ n) : SameBytes memory p q k :=
  fun i below => same i (Nat.lt_of_lt_of_le below short)

/-- Words whose difference has zeros in its low bytes -/
theorem sameBytes_words {n : Nat} (few : n ≤ 8)
    (zeros : (loadLeU64 memory p ^^^ loadLeU64 memory q) % 2 ^ (8 * n) = 0) : SameBytes memory p q n := by
  have low : ∀ r, loadLeU64 memory r % 2 ^ (8 * n) = bytesVal (bytesAt memory r n) := by
    intro r
    have split : loadLeU64 memory r = bytesVal (bytesAt memory r n) + 2 ^ (8 * n) * bytesVal (bytesAt memory (r + n) (8 - n)) := by
      rw [loadLeU64]
      conv => lhs; rw [← Nat.add_sub_cancel' few]
      rw [bytesAt_add, bytesVal_append, bytesAt_length]
    have bound := bytesVal_lt (bytesAt memory r n)
    rw [bytesAt_length] at bound
    rw [split, Nat.add_mul_mod_self_left, Nat.mod_eq_of_lt bound]
  rw [Nat.xor_mod_two_pow, low, low, Nat.xor_eq_zero_iff] at zeros
  exact bytesAt_inj zeros

theorem compareBytes_spec (left count : Nat) : ∃ n ≤ left, compareBytes memory p q left count = count + n ∧ SameBytes memory p q n := by
  induction left generalizing p q count with
  | zero => exact ⟨0, Nat.le_refl _, rfl, fun i below => absurd below (Nat.not_lt_zero i)⟩
  | succ left ih =>
    rw [compareBytes]
    by_cases differ : memory p ≠ memory q
    · rw [if_pos differ]
      exact ⟨0, Nat.zero_le _, rfl, fun i below => absurd below (Nat.not_lt_zero i)⟩
    · rw [if_neg differ]
      obtain ⟨n, short, result, same⟩ := ih (p := p + 1) (q := q + 1) (count + 1)
      have first : SameBytes memory p q 1 := by
        intro i below
        rw [Nat.lt_one_iff.mp below]
        exact not_not.mp differ
      refine ⟨1 + n, by omega, by rw [result, Nat.add_assoc], first.append same⟩

/-- Only bytes below the greatest length are compared, and those that are counted are the same. -/
theorem compare_spec (memory : Arr UInt8) (p q maxLength : Nat) :
    compare memory p q maxLength ≤ maxLength ∧ SameBytes memory p q (compare memory p q maxLength) := by
  have loop : ∀ words p q count, ∃ n ≤ 8 * words + maxLength % 8,
      compareWords memory maxLength p q words count = count + n ∧ SameBytes memory p q n := by
    intro words
    induction words with
    | zero =>
      intro p q count
      rw [compareWords, Nat.mul_zero, Nat.zero_add]
      exact compareBytes_spec _ _
    | succ words ih =>
      intro p q count
      rw [compareWords]
      by_cases differ : loadLeU64 memory p ^^^ loadLeU64 memory q ≠ 0
      · obtain ⟨few, zeros⟩ := tzbytecnt_spec (loadLeU64 memory p ^^^ loadLeU64 memory q)
        rw [if_pos differ]
        exact ⟨_, by omega, rfl, sameBytes_words few zeros⟩
      · obtain ⟨n, short, result, same⟩ := ih (p + 8) (q + 8) (count + 8)
        have word : SameBytes memory p q 8 := sameBytes_words (Nat.le_refl 8) (by rw [not_not.mp differ, Nat.zero_mod])
        rw [if_neg differ]
        exact ⟨8 + n, by omega, by rw [result, Nat.add_assoc], word.append same⟩
  obtain ⟨n, short, result, same⟩ := loop (maxLength / 8) p q 0
  rw [compare, result, Nat.zero_add]
  exact ⟨by omega, same⟩

end

theorem deflateIcf_fields {len dist extra : Nat} (small : len < 2 ^ litLenBitCount) (small' : dist < 2 ^ distLitBitCount)
    (small'' : extra < 2 ^ (icfCodeLen - distLitBitCount - litLenBitCount)) : icfLitLen (deflateIcf len dist extra) = len ∧
      icfLitDist (deflateIcf len dist extra) = dist ∧ icfDistExtra (deflateIcf len dist extra) = extra := by
  rw [litLenBitCount] at small
  rw [distLitBitCount] at small'
  rw [icfCodeLen, distLitBitCount, litLenBitCount] at small''
  have sum : deflateIcf len dist extra = len + 2 ^ 10 * dist + 2 ^ 19 * extra := by
    have low : len + 2 ^ 10 * dist < 2 ^ (10 + 9) := add_shifted_lt small small'
    have whole : len + 2 ^ 10 * dist + 2 ^ 19 * extra < 2 ^ (10 + 9 + 13) := add_shifted_lt low small''
    rw [deflateIcf, litLenBitCount, distLitBitCount, or_shiftLeft small, or_shiftLeft low]
    exact Nat.mod_eq_of_lt whole
  rw [sum, icfLitLen, icfLitDist, icfDistExtra, icfCodeLen, distLitBitCount, litLenBitCount]
  omega

/-- The distance of an entry -/
def icfDist (icf : Nat) : Nat := distStartIcf[icfLitDist icf]?.getD 0 + icfDistExtra icf

/-- An entry with a length is a match of this length at its position, within the first `size` bytes. -/
structure TrueMatch (memory : Arr UInt8) (nextIn size i icf : Nat) : Prop where
  positive : 0 < icfDist icf
  back : icfDist icf ≤ nextIn + i
  inside : i + (icfLitLen icf - lenOffset) ≤ size
  same : SameBytes memory (nextIn + i - icfDist icf) (nextIn + i) (icfLitLen icf - lenOffset)

/-- What the loops keep: the entries of the map and those that have been written are matches, lengths have
only grown, and what has been written is before the end of the bytes that are compared. -/
structure Truthful (memory : Arr UInt8) (nextIn processed endIn size : Nat) (map : Arr Nat) (s : MatchLookup) : Prop where
  matches_ : ∀ i, i < processed ∨ i ∈ s.written → icfLenStart ≤ icfLitLen (s.map i) →
    TrueMatch memory nextIn size i (s.map i) ∧ icfLitLen (s.map i) ≤ lenMax
  kept : ∀ i, i ∉ s.written → s.map i = map i
  grown : ∀ i, icfLitLen (map i) ≤ lenMax → icfLitLen (map i) ≤ icfLitLen (s.map i)
  bound : ∀ i ∈ s.written, i + shortestMatch ≤ endIn

section

variable {memory : Arr UInt8} {nextIn processed endIn size : Nat} {map : Arr Nat} {s : MatchLookup}

theorem spreadMatch_truthful {distCode extra : Nat} (code : distCode < 2 ^ distLitBitCount)
    (small : extra < 2 ^ (icfCodeLen - distLitBitCount - litLenBitCount)) {dist : Nat}
    (isDist : dist = distStartIcf[distCode]?.getD 0 + extra) (positive : 0 < dist) (inside : endIn ≤ size) (matchLen : Nat)
    (truthful : Truthful memory nextIn processed endIn size map s) (back : dist ≤ nextIn + s.next)
    (room : s.next + (matchLen - lenOffset) ≤ endIn)
    (same : SameBytes memory (nextIn + s.next - dist) (nextIn + s.next) (matchLen - lenOffset)) :
    Truthful memory nextIn processed endIn size map (spreadMatch distCode extra matchLen s) := by
  induction matchLen generalizing s with
  | zero => exact truthful
  | succ matchLen ih =>
    rw [spreadMatch]
    by_cases longer : icfLitLen (s.map s.next) < matchLen + 1 ∧ lenOffset + shortestMatch ≤ matchLen + 1
    · rw [if_pos longer]
      obtain ⟨longer, enough⟩ := longer
      have offset : lenOffset = 254 := rfl
      rw [offset, shortestMatch] at enough
      rw [offset] at room same
      obtain ⟨len, isLen⟩ : ∃ len, len = if lenMax < matchLen + 1 then lenMax else matchLen + 1 := ⟨_, rfl⟩
      have most : len ≤ lenMax ∧ len ≤ matchLen + 1 := by
        rw [isLen]
        split <;> omega
      have longest : lenMax = 512 := rfl
      have wide : len < 2 ^ litLenBitCount := Nat.lt_of_le_of_lt most.1 (by decide)
      obtain ⟨fieldLen, fieldDist, fieldExtra⟩ := deflateIcf_fields wide code small
      have entry : icfDist (deflateIcf len distCode extra) = dist := by
        rw [icfDist, fieldDist, fieldExtra, isDist]
      have match_ : TrueMatch memory nextIn size s.next (deflateIcf len distCode extra) := by
        refine ⟨entry ▸ positive, entry ▸ back, ?_, ?_⟩
        · omega
        · rw [entry]
          exact same.take (by omega)
      have later : nextIn + (s.next + 1) - dist = nextIn + s.next - dist + 1 := by omega
      rw [← isLen]
      apply ih
      · refine ⟨?_, ?_, ?_, ?_⟩
        · intro i which long
          rw [Arr.set_get] at long ⊢
          by_cases here : i = s.next
          · rw [if_pos here, here]
            exact ⟨match_, by omega⟩
          · rw [if_neg here] at long ⊢
            exact truthful.matches_ i (which.imp_right (List.mem_of_ne_of_mem here)) long
        · intro i other
          obtain ⟨here, before⟩ := not_or.mp (List.mem_cons.not.mp other)
          rw [Arr.set_other here]
          exact truthful.kept i before
        · intro i legal
          have before := truthful.grown i legal
          rw [Arr.set_get]
          by_cases here : i = s.next
          · rw [if_pos here, fieldLen, isLen]
            rw [here] at before legal ⊢
            split <;> omega
          · rw [if_neg here]
            exact before
        · intro i member
          rcases List.mem_cons.mp member with rfl | before
          · rw [shortestMatch]
            omega
          · exact truthful.bound i before
      · exact Nat.le_succ_of_le back
      · dsimp only
        omega
      · change SameBytes memory (nextIn + (s.next + 1) - dist) (nextIn + (s.next + 1)) _
        rw [later]
        exact (same.drop 1).take (by omega)
    · rw [if_neg longer]
      exact truthful

/-- One entry: a match of at least eight bytes is extended as far as the bytes are the same. -/
theorem longMatch_truthful (inside : endIn ≤ size) (room : ∀ i < processed, i + 8 ≤ size → i + 8 ≤ endIn)
    (truthful : Truthful memory nextIn processed endIn size map s) (before : s.next < processed) :
    Truthful memory nextIn processed endIn size map (longMatch memory nextIn endIn s) := by
  rw [longMatch]
  dsimp only
  by_cases long : 8 + lenOffset ≤ icfLitLen (s.map s.next)
  · rw [if_pos long]
    have offset : lenOffset = 254 := rfl
    have first : icfLenStart = 257 := rfl
    obtain ⟨⟨positive, back, within, same⟩, -⟩ := truthful.matches_ s.next (.inl before) (by omega)
    rw [offset] at long within same
    have eight := room s.next before (by omega)
    obtain ⟨dist, isDist⟩ : ∃ dist, dist = icfDist (s.map s.next) := ⟨_, rfl⟩
    rw [← isDist] at positive back same
    have start : nextIn + s.next + 8 - dist = nextIn + s.next - dist + 8 := by omega
    obtain ⟨most, more⟩ := compare_spec memory (nextIn + s.next + 8 - dist) (nextIn + s.next + 8)
      ((endIn + 2 ^ 32 - (s.next + 8)) % 2 ^ 32)
    have eightBytes : SameBytes memory (nextIn + s.next - dist) (nextIn + s.next) 8 := same.take (by omega)
    have distCode : icfLitDist (s.map s.next) < 2 ^ distLitBitCount := Nat.mod_lt _ (by decide)
    have extra : icfDistExtra (s.map s.next) < 2 ^ (icfCodeLen - distLitBitCount - litLenBitCount) := Nat.mod_lt _ (by decide)
    have known : distStartIcf[icfLitDist (s.map s.next)]?.getD 0 + icfDistExtra (s.map s.next) = dist := isDist.symm
    rw [known]
    generalize compare memory (nextIn + s.next + 8 - dist) (nextIn + s.next + 8) ((endIn + 2 ^ 32 - (s.next + 8)) % 2 ^ 32) = count
      at *
    rw [start] at more
    have all := eightBytes.append more
    have whole := Nat.mod_le (count + lenOffset + 8) (2 ^ 32)
    refine spreadMatch_truthful distCode extra known.symm positive inside _ truthful back ?_ ?_
    · omega
    · exact all.take (by omega)
  · rw [if_neg long]
    exact truthful

theorem setLongIcfFgLoop_truthful (inside : endIn ≤ size) (room : ∀ i < processed, i + 8 ≤ size → i + 8 ≤ endIn)
    (truthful : Truthful memory nextIn processed endIn size map s) :
    Truthful memory nextIn processed endIn size map (setLongIcfFgLoop memory nextIn processed endIn s) := by
  induction s using setLongIcfFgLoop.induct memory nextIn processed endIn with
  | case1 s before ih =>
    have next := longMatch_truthful inside room truthful before
    rw [setLongIcfFgLoop, if_pos before]
    exact ih ⟨next.matches_, next.kept, next.grown, next.bound⟩
  | case2 s stop =>
    rw [setLongIcfFgLoop, if_neg stop]
    exact truthful

end

/-- Where every entry with a length is a match of at most eight bytes, every entry of the map and every one that
is written is a match afterwards. -/
theorem setLongIcfFgBase_truthful (memory : Arr UInt8) (nextIn processed inputSize : Nat) (map : Arr Nat)
    (given : ∀ i < processed, icfLenStart ≤ icfLitLen (map i) →
      TrueMatch memory nextIn inputSize i (map i) ∧ icfLitLen (map i) ≤ lenOffset + 8) :
    ∃ s, setLongIcfFgBase memory nextIn processed inputSize map = s ∧
      (∀ i, i < processed ∨ i ∈ s.written → icfLenStart ≤ icfLitLen (s.map i) →
        TrueMatch memory nextIn inputSize i (s.map i) ∧ icfLitLen (s.map i) - lenOffset ≤ maxMatch) ∧
      (∀ i, i ∉ s.written → s.map i = map i) ∧
      (∀ i, i < processed ∨ icfLitLen (map i) - lenOffset ≤ maxMatch → icfLitLen (map i) ≤ icfLitLen (s.map i)) ∧
      ∀ i ∈ s.written, i < inputSize ∧ (processed ≤ matchBufSize → i < matchBufSize + lookAhead) := by
  have offset : lenOffset = 254 := rfl
  have longest : lenMax = 512 := rfl
  have most : maxMatch = 258 := rfl
  have ahead : lookAhead = 288 := rfl
  have first : icfLenStart = 257 := rfl
  obtain ⟨endIn, isEnd⟩ : ∃ endIn, endIn = if processed + lookAhead < inputSize then processed + lookAhead else inputSize := ⟨_, rfl⟩
  have ends : endIn ≤ inputSize ∧ endIn ≤ processed + lookAhead ∧ (endIn = inputSize ∨ endIn = processed + lookAhead) := by
    rw [isEnd]
    split <;> omega
  have start : Truthful memory nextIn processed endIn inputSize map { map := map, next := 0, written := [] } := by
    refine ⟨?_, fun _ _ => rfl, fun _ _ => Nat.le_refl _, fun i member => absurd member List.not_mem_nil⟩
    intro i which long
    obtain ⟨match_, short⟩ := given i (which.resolve_right List.not_mem_nil) long
    exact ⟨match_, Nat.le_trans short (by decide)⟩
  have truthful := setLongIcfFgLoop_truthful ends.1 (by omega) start
  refine ⟨_, rfl, ?_⟩
  rw [setLongIcfFgBase, ← isEnd]
  refine ⟨?_, truthful.kept, ?_, ?_⟩
  · intro i which long
    obtain ⟨match_, short⟩ := truthful.matches_ i which long
    exact ⟨match_, by omega⟩
  · intro i which
    apply truthful.grown i
    rcases which with inside | legal
    · by_cases long : icfLenStart ≤ icfLitLen (map i)
      · have short := (given i inside long).2
        omega
      · omega
    · omega
  · intro i member
    have before := truthful.bound i member
    rw [shortestMatch] at before
    exact ⟨by omega, by omega⟩

/-- A match of eight bytes at the first of two positions, in an input of one character -/
theorem setLongIcfFgBase_truthful_two :
    ∃ s, setLongIcfFgBase (.const 7) 1 2 20 ((Arr.const 7).set 0 (deflateIcf 262 0 0)) = s ∧
      ∀ i ∈ s.written, i < 20 ∧ (icfLenStart ≤ icfLitLen (s.map i) → TrueMatch (.const 7) 1 20 i (s.map i)) := by
  obtain ⟨s, result, matches_, -, -, bound⟩ := setLongIcfFgBase_truthful (.const 7) 1 2 20
    ((Arr.const 7).set 0 (deflateIcf 262 0 0)) (by
      intro i inside long
      by_cases first : i = 0
      · subst first
        exact ⟨⟨by decide, by decide, by decide, fun _ _ => rfl⟩, by decide⟩
      · rw [Arr.set_other first] at long
        exact absurd long (by decide : ¬ icfLenStart ≤ icfLitLen 7))
  exact ⟨s, result, fun i member => ⟨(bound i member).1, fun long => (matches_ i (.inr member) long).1⟩⟩

end Isal.Deflate
