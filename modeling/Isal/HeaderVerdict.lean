import Isal.FixedHeaders

/-! What `read_header` makes of a header depends on the bits alone, and a header that it has
found invalid stays invalid when more input comes. -/
namespace Isal.Inflate

open Isal.Bits Isal.Loops Isal.PrefixCode Isal.Rfc1951

section Lengths

variable {clens lens : List Nat} {hlit hdist : Nat} {huffCode : LookupTable} {s t : LengthState}

/-- No lengths that follow can make the header valid. -/
def Doomed (hlit hdist : Nat) (lens : List Nat) : Prop :=
  256 < lens.length ∧ lengthOf lens 256 = 0 ∨ lengthsTotal hlit hdist < lens.length

theorem Doomed.append (h : Doomed hlit hdist lens) (more : List Nat) : Doomed hlit hdist (lens ++ more) := by
  rcases h with ⟨long, zero⟩ | beyond
  · refine Or.inl ⟨by rw [List.length_append]; omega, ?_⟩
    rwa [lengthOf, List.getElem?_append_left long]
  · refine Or.inr ?_
    rw [List.length_append]
    omega

/-- The loop over the code lengths has found the header invalid. -/
def Rejects (hdist : Nat) (result : Option ReturnCode × LengthState) : Prop :=
  result.1 = some .invalidBlock ∨
    result.1 = none ∧ (lengthsEnd hdist < result.2.current ∨ (result.2.litAndDistHuff 256).length = 0)

theorem LengthsPut.endLength (lengths : LengthsPut hlit lens s) : (s.litAndDistHuff 256).length = lengthOf lens 256 := by
  rw [lengths.place, lengthAt, if_pos (by simp only [litEnd, isalDefLitSymbols]; omega)]

/-- What the code checks on when the input has run out. -/
theorem LengthsPut.known (lengths : LengthsPut hlit lens s) (legal : hlit ≤ 29) :
    (256 < s.current ∧ (s.litAndDistHuff 256).length = 0) ↔ 256 < lens.length ∧ lengthOf lens 256 = 0 := by
  have room := litEnd_le legal
  have low : 256 < litEnd hlit := by simp only [litEnd, isalDefLitSymbols]; omega
  rw [lengths.endLength]
  cases side : s.inDist with
  | false => rw [(lengths.inLit side).2]
  | true =>
    have := lengths.inDist side
    constructor <;> rintro ⟨-, zero⟩ <;> exact ⟨by omega, zero⟩

theorem LengthsPut.rejects (lengths : LengthsPut hlit lens s) (legal : hlit ≤ 29)
    (all : lengthsTotal hlit hdist ≤ lens.length) : Rejects hdist (none, s) ↔ Doomed hlit hdist lens := by
  have ends : lengthsEnd hdist < s.current ↔ lengthsTotal hlit hdist < lens.length := (lengths.current_lt legal).2
  have long : 256 < lens.length := by rw [lengthsTotal] at all; omega
  simp only [Rejects, Doomed, lengths.endLength, ends, reduceCtorEq, false_or, true_and, long]
  exact or_comm

/-- How a symbol of the code-length code is taken when it is there; the stream behind it has
value `v` and `n` bits. -/
inductive Taken (hlit hdist : Nat) (lens : List Nat) (symbol v : Nat) (n : Int) : Option ReturnCode × LengthState → Prop
  | put (s : LengthState) (small : symbol < 16) (lengths : LengthsPut hlit (lens ++ [symbol]) s) (views : Views s.inp v n) :
      Taken hlit hdist lens symbol v n (none, s)
  | again (s : LengthState) (previous : Nat) (sixteen : symbol = 16) (last : lens.getLast? = some previous)
      (lengths : LengthsPut hlit (lens ++ List.replicate (3 + v % 2 ^ 2) previous) s)
      (views : Views s.inp (v / 2 ^ 2) (n - 2)) : Taken hlit hdist lens symbol v n (none, s)
  | zeroes (s : LengthState) (base width : Nat) (kind : symbol = 17 ∧ base = 3 ∧ width = 3 ∨ symbol = 18 ∧ base = 11 ∧ width = 7)
      (lengths : LengthsPut hlit (lens ++ List.replicate (base + v % 2 ^ width) 0) s)
      (views : Views s.inp (v / 2 ^ width) (n - width)) : Taken hlit hdist lens symbol v n (none, s)
  | noPrevious (s : LengthState) (sixteen : symbol = 16) (last : lens = []) :
      Taken hlit hdist lens symbol v n (some .invalidBlock, s)
  | beyond (s : LengthState) (sixteen : symbol = 16) (excess : lengthsTotal hlit hdist < lens.length + (3 + v % 2 ^ 2)) :
      Taken hlit hdist lens symbol v n (some .invalidBlock, s)

variable {v : Nat} {n : Int} {i : Nat}

theorem FindsHeader.matched (finds : FindsHeader clens huffCode) (valid : Valid clens 15) (views : Views s.inp v n)
    (next : Matches clens i v) : (decodeNextHeader huffCode s.inp).1 = i ∧
      Views (decodeNextHeader huffCode s.inp).2 (v / 2 ^ lengthOf clens i) (n - lengthOf clens i) := by
  rcases finds s.inp v n views with ⟨j, next', symbol, views⟩ | ⟨none, -, -⟩
  · cases valid.matches_unique next next'
    exact ⟨symbol, views⟩
  · exact absurd next (none i)

theorem skip_taken {base width : Nat} (legal : hlit ≤ 29) (positive : 0 < base) (narrow : width ≤ 57)
    (lengths : LengthsPut hlit lens s) (views : Views s.inp v n) :
    LengthsPut hlit (lens ++ List.replicate (base + v % 2 ^ width) 0)
        ({ s with inp := (inflateInReadBits width s.inp).2 }.skip hlit (base + (inflateInReadBits width s.inp).1)) ∧
      Views ({ s with inp := (inflateInReadBits width s.inp).2 }.skip hlit (base + (inflateInReadBits width s.inp).1)).inp
        (v / 2 ^ width) (n - width) := by
  obtain ⟨value, views⟩ := readBits_views views narrow
  rw [skip_inp, ← value]
  exact ⟨(lengths.withIn _).skip legal (by omega), views⟩

theorem decodeLength_taken (hdist : Nat) (finds : FindsHeader clens huffCode) (valid : Valid clens 15) (nineteen : clens.length = 19)
    (legal : hlit ≤ 29) (lengths : LengthsPut hlit lens s) (views : Views s.inp v n) (next : Matches clens i v)
    (enough : (lengthOf clens i : Int) ≤ n) :
    Taken hlit hdist lens i (v / 2 ^ lengthOf clens i) (n - lengthOf clens i)
      (decodeLength huffCode hlit (lengthsEnd hdist) s) := by
  obtain ⟨symbol, views⟩ := finds.matched valid views next
  have small : i < 19 := by rw [← nineteen]; exact used_lt next.used
  rw [decodeLength]
  generalize decodeNextHeader huffCode s.inp = found at symbol views
  obtain ⟨j, inp⟩ := found
  dsimp only at symbol views ⊢
  subst symbol
  have nonneg : ¬inp.readInLength < 0 := by rw [views.negative]; omega
  rw [if_neg nonneg]
  generalize v / 2 ^ lengthOf clens j = v at views
  generalize n - lengthOf clens j = n at views
  by_cases literal : j < 16
  · rw [if_pos literal]
    exact .put _ literal ((lengths.withIn inp).put legal (writeHuffCode 0 j) (Nat.le_of_lt_succ literal))
      (by rw [put_inp]; exact views)
  rw [if_neg literal]
  by_cases sixteen : j = 16
  · rw [if_pos sixteen]
    have last := lengths.last
    obtain ⟨value, views⟩ := readBits_views views (show 2 ≤ 57 by decide)
    cases previous : s.previous with
    | none =>
      rw [previous, Option.map_none, List.getLast?_eq_none_iff] at last
      exact .noPrevious _ sixteen last
    | some p =>
      rw [previous, Option.map_some] at last
      have bounded := lengths.bounded _ (List.mem_of_getLast? last)
      dsimp only
      by_cases beyond : lengthsEnd hdist < s.current + (3 + (inflateInReadBits 2 inp).1)
      · rw [if_pos beyond]
        exact .beyond _ sixteen (value ▸ lengths.beyond legal beyond)
      · rw [if_neg beyond]
        have repeated := (lengths.withIn (inflateInReadBits 2 inp).2).repeat legal (s.litAndDistHuff p) bounded
          (3 + (inflateInReadBits 2 inp).1)
        rw [previous] at repeated
        exact .again _ _ sixteen last (value ▸ repeated) (by rw [repeat_inp]; exact views)
  rw [if_neg sixteen]
  by_cases seventeen : j = 17
  · rw [if_pos seventeen]
    obtain ⟨lengths, views⟩ := skip_taken legal (show 0 < 3 by decide) (show 3 ≤ 57 by decide) (lengths.withIn inp) views
    exact .zeroes _ 3 3 (Or.inl ⟨seventeen, rfl, rfl⟩) lengths views
  · rw [if_neg seventeen, if_pos (by omega)]
    obtain ⟨lengths, views⟩ := skip_taken legal (show 0 < 11 by decide) (show 7 ≤ 57 by decide) (lengths.withIn inp) views
    exact .zeroes _ 11 7 (Or.inr ⟨by omega, rfl, rfl⟩) lengths views

/-- Where the input ends within a symbol. -/
theorem decodeLength_cut (last : Nat) (legal : hlit ≤ 29) (lengths : LengthsPut hlit lens s)
    (negative : (decodeNextHeader huffCode s.inp).2.readInLength < 0) :
    (decodeLength huffCode hlit last s).1 =
      some (if 256 < lens.length ∧ lengthOf lens 256 = 0 then .invalidBlock else .endInput) := by
  rw [decodeLength]
  dsimp only
  rw [if_pos negative]
  by_cases known : 256 < lens.length ∧ lengthOf lens 256 = 0
  · rw [if_pos known, if_pos ((lengths.known legal).mpr known)]
  · rw [if_neg known, if_neg (mt (lengths.known legal).mp known)]

theorem decodeLength_none (finds : FindsHeader clens huffCode) (views : Views s.inp v n) (nonneg : 0 ≤ n)
    (none : ∀ i, ¬Matches clens i v) {last : Nat} : (decodeLength huffCode hlit last s).1 = some .invalidBlock := by
  rcases finds s.inp v n views with ⟨i, next, -, -⟩ | ⟨-, symbol, views⟩
  · exact absurd next (none i)
  · rw [decodeLength]
    generalize decodeNextHeader huffCode s.inp = found at symbol views
    obtain ⟨j, inp⟩ := found
    dsimp only at symbol views ⊢
    subst symbol
    rw [if_neg (by rw [views.negative]; omega)]
    rfl

theorem FindsHeader.negative (finds : FindsHeader clens huffCode) (views : Views s.inp v n) (below : n < 0) :
    (decodeNextHeader huffCode s.inp).2.readInLength < 0 := by
  rcases finds s.inp v n views with ⟨i, -, -, views⟩ | ⟨-, -, views⟩
  · exact views.negative.mpr (by omega)
  · exact views.negative.mpr below

theorem decodeLengths_stop (rounds : Nat) {last : Nat} {ret : ReturnCode} (before : s.current < last)
    (stop : (decodeLength huffCode hlit last s).1 = some ret) :
    (decodeLengths huffCode hlit last (rounds + 1) s).1 = some ret := by
  rw [decodeLengths, if_pos before]
  generalize decodeLength huffCode hlit last s = result at stop
  obtain ⟨_, t⟩ := result
  cases stop
  rfl

theorem decodeLengths_on {last rounds : Nat} (before : s.current < last)
    (on : decodeLength huffCode hlit last s = (none, t)) :
    decodeLengths huffCode hlit last (rounds + 1) s = decodeLengths huffCode hlit last rounds t := by
  rw [decodeLengths, if_pos before, on]

theorem decodeLengths_end {last rounds : Nat} (after : ¬s.current < last) :
    decodeLengths huffCode hlit last rounds s = (none, s) := by
  cases rounds with
  | zero => rfl
  | succ rounds => rw [decodeLengths, if_neg after]

/-- Whatever comes next, the header is rejected. -/
theorem decodeLengths_doomed (finds : FindsHeader clens huffCode) (valid : Valid clens 15) (nineteen : clens.length = 19)
    (legal : hlit ≤ 29) (rounds : Nat) (lengths : LengthsPut hlit lens s) (views : Views s.inp v n)
    (doomed : Doomed hlit hdist lens) (enough : lengthsTotal hlit hdist ≤ lens.length + rounds) :
    Rejects hdist (decodeLengths huffCode hlit (lengthsEnd hdist) rounds s) := by
  induction rounds generalizing lens s v n with
  | zero => exact (lengths.rejects legal enough).mpr doomed
  | succ rounds ih =>
    by_cases before : s.current < lengthsEnd hdist
    · have more := (lengths.current_lt legal).1.mp before
      have known := doomed.resolve_right (by omega)
      have ended : (decodeLength huffCode hlit (lengthsEnd hdist) s).1 = some .invalidBlock →
          Rejects hdist (decodeLengths huffCode hlit (lengthsEnd hdist) (rounds + 1) s) :=
        fun stop => Or.inl (decodeLengths_stop _ before stop)
      have cut : (decodeNextHeader huffCode s.inp).2.readInLength < 0 →
          (decodeLength huffCode hlit (lengthsEnd hdist) s).1 = some .invalidBlock := by
        intro negative
        rw [decodeLength_cut _ legal lengths negative, if_pos known]
      by_cases some_ : ∃ i, Matches clens i v
      · obtain ⟨i, next⟩ := some_
        by_cases whole : (lengthOf clens i : Int) ≤ n
        · have taken := decodeLength_taken hdist finds valid nineteen legal lengths views next whole
          generalize decoded : decodeLength huffCode hlit (lengthsEnd hdist) s = result at taken
          cases taken with
          | put t small lengths views =>
            rw [decodeLengths_on before decoded]
            exact ih lengths views (doomed.append _) (by simp; omega)
          | again t previous sixteen last lengths views =>
            rw [decodeLengths_on before decoded]
            exact ih lengths views (doomed.append _) (by simp; omega)
          | zeroes t base width kind lengths views =>
            rw [decodeLengths_on before decoded]
            exact ih lengths views (doomed.append _) (by simp; omega)
          | noPrevious => exact ended (by rw [decoded])
          | beyond => exact ended (by rw [decoded])
        · exact ended (cut ((finds.matched valid views next).2.negative.mpr (by omega)))
      · by_cases nonneg : 0 ≤ n
        · exact ended (decodeLength_none finds views nonneg (not_exists.mp some_))
        · exact ended (cut (finds.negative views (by omega)))
    · rw [decodeLengths_end before]
      have all := Nat.le_of_not_lt (mt (lengths.current_lt legal).1.mpr before)
      exact (lengths.rejects legal all).mpr doomed

/-- Where the input has run out the header is rejected for what has been read of it only. -/
theorem doomed_of_overrun (finds : FindsHeader clens huffCode) (legal : hlit ≤ 29) (rounds : Nat)
    (lengths : LengthsPut hlit lens s) (views : Views s.inp v n) (below : n < 0)
    (enough : lengthsTotal hlit hdist ≤ lens.length + rounds)
    (rejects : Rejects hdist (decodeLengths huffCode hlit (lengthsEnd hdist) rounds s)) : Doomed hlit hdist lens := by
  by_cases before : s.current < lengthsEnd hdist
  · obtain ⟨less, rfl⟩ : ∃ less, rounds = less + 1 := by
      have := (lengths.current_lt legal).1.mp before
      exact ⟨rounds - 1, by omega⟩
    have stop := decodeLengths_stop less before
      (decodeLength_cut (lengthsEnd hdist) legal lengths (finds.negative views below))
    by_cases known : 256 < lens.length ∧ lengthOf lens 256 = 0
    · exact Or.inl known
    · rw [if_neg known] at stop
      rcases rejects with here | ⟨here, -⟩
      · rw [stop] at here; cases here
      · rw [stop] at here; cases here
  · rw [decodeLengths_end before] at rejects
    exact (lengths.rejects legal (Nat.le_of_not_lt (mt (lengths.current_lt legal).1.mpr before))).mp rejects

theorem Doomed.longer {a b x : Nat} (h : Doomed hlit hdist (lens ++ List.replicate a x)) (le : a ≤ b) :
    Doomed hlit hdist (lens ++ List.replicate b x) := by
  have more := h.append (List.replicate (b - a) x)
  rwa [List.append_assoc, List.replicate_append_replicate, Nat.add_sub_cancel' le] at more

/-- Bits that are missing are read as zeroes. -/
theorem field_le (bits ext : List Bool) {width : Nat} (short : bits.length ≤ width) :
    bitsVal bits % 2 ^ width ≤ bitsVal (bits ++ ext) % 2 ^ width := by
  have low : bitsVal (bits ++ ext) % 2 ^ width % 2 ^ bits.length = bitsVal bits := by
    rw [mod_mod_two_pow, Nat.min_eq_right short, ← bitsVal_take, List.take_left]
  rw [Nat.mod_eq_of_lt (Nat.lt_of_lt_of_le (bitsVal_lt bits) (Nat.pow_le_pow_right (by decide) short)), ← low]
  exact Nat.mod_le _ _

theorem field_eq (bits ext : List Bool) {width : Nat} (enough : width ≤ bits.length) :
    bitsVal (bits ++ ext) % 2 ^ width = bitsVal bits % 2 ^ width := by
  rw [← bitsVal_take, ← bitsVal_take, List.take_append_of_le_length enough]

variable {bits ext : List Bool} {huffCode' : LookupTable} {s' : LengthState}

/-- The rest of a codeword may be missing, but not where there is none to begin with. -/
theorem no_matches_append (ext : List Bool) (valid : Valid clens 15) (nineteen : clens.length = 19)
    (none : ∀ i, ¬Matches clens i (bitsVal bits)) : ∀ i, ¬Matches clens i (bitsVal (bits ++ ext)) := by
  intro i next
  have bad : decodeSym clens 19 bits = .bad :=
    valid.decodeSym_bad (fun s _ => none s) fun s t _ _ _ _ => none t
  have reader : Reader 1 (decodeSym clens 19) := reader_decodeSym valid 19
  have bad := reader.bad (Nat.one_dvd ext.length) bad
  have small : i < 19 := by rw [← nineteen]; exact used_lt next.used
  by_cases enough : lengthOf clens i ≤ (bits ++ ext).length
  · rw [valid.decodeSym_ok small next enough] at bad
    cases bad
  · rw [valid.decodeSym_more small next (by omega)] at bad
    cases bad

/-- A repeat that the shorter input cuts off: if that is enough to reject the header, more of
the repeat does not change it. -/
theorem rejects_longer_repeat (finds : FindsHeader clens huffCode) (finds' : FindsHeader clens huffCode') (valid : Valid clens 15)
    (nineteen : clens.length = 19) (legal : hlit ≤ 29) {rounds base x : Nat} {width : Nat} (positive : 0 < base)
    (lengths : LengthsPut hlit (lens ++ List.replicate (base + bitsVal bits % 2 ^ width) x) s)
    (lengths' : LengthsPut hlit (lens ++ List.replicate (base + bitsVal (bits ++ ext) % 2 ^ width) x) s')
    (views : Views s.inp (bitsVal bits / 2 ^ width) (bits.length - width))
    (views' : Views s'.inp (bitsVal (bits ++ ext) / 2 ^ width) ((bits ++ ext).length - width))
    (short : bits.length < width) (enough : lengthsTotal hlit hdist ≤ lens.length + (rounds + 1))
    (rejects : Rejects hdist (decodeLengths huffCode hlit (lengthsEnd hdist) rounds s)) :
    Rejects hdist (decodeLengths huffCode' hlit (lengthsEnd hdist) rounds s') := by
  have doomed := doomed_of_overrun finds legal rounds lengths views (by omega) (by simp; omega) rejects
  have le := field_le bits ext (Nat.le_of_lt short)
  exact decodeLengths_doomed finds' valid nineteen legal rounds lengths' views' (doomed.longer (by omega)) (by simp; omega)

/-- The same lengths, and the same input as far as it goes. -/
theorem decodeLengths_rejects (finds : FindsHeader clens huffCode) (finds' : FindsHeader clens huffCode')
    (valid : Valid clens 15) (nineteen : clens.length = 19) (legal : hlit ≤ 29) (rounds : Nat)
    (lengths : LengthsPut hlit lens s) (lengths' : LengthsPut hlit lens s')
    (views : Views s.inp (bitsVal bits) bits.length) (views' : Views s'.inp (bitsVal (bits ++ ext)) (bits ++ ext).length)
    (enough : lengthsTotal hlit hdist ≤ lens.length + rounds)
    (rejects : Rejects hdist (decodeLengths huffCode hlit (lengthsEnd hdist) rounds s)) :
    Rejects hdist (decodeLengths huffCode' hlit (lengthsEnd hdist) rounds s') := by
  induction rounds generalizing lens s s' bits with
  | zero => exact (lengths'.rejects legal enough).mpr ((lengths.rejects legal enough).mp rejects)
  | succ rounds ih =>
    by_cases before : s.current < lengthsEnd hdist
    · have more := (lengths.current_lt legal).1.mp before
      have before' := (lengths'.current_lt legal).1.mpr more
      by_cases some_ : ∃ i, Matches clens i (bitsVal bits)
      · obtain ⟨i, next⟩ := some_
        by_cases whole : lengthOf clens i ≤ bits.length
        · have next' : Matches clens i (bitsVal (bits ++ ext)) :=
            next.of_mod whole (field_eq bits ext (Nat.le_refl _)).symm
          have taken := decodeLength_taken hdist finds valid nineteen legal lengths views next (by omega)
          have taken' := decodeLength_taken hdist finds' valid nineteen legal lengths' views' next'
            (by rw [List.length_append]; omega)
          rw [← bitsVal_drop, ← Int.ofNat_sub whole, ← List.length_drop] at taken
          rw [← bitsVal_drop, ← Int.ofNat_sub (by rw [List.length_append]; omega), ← List.length_drop,
            List.drop_append_of_le_length whole] at taken'
          generalize bits.drop (lengthOf clens i) = rest at taken taken'
          generalize decoded : decodeLength huffCode hlit (lengthsEnd hdist) s = result at taken
          generalize decoded' : decodeLength huffCode' hlit (lengthsEnd hdist) s' = result' at taken'
          have ended : result'.1 = some .invalidBlock →
              Rejects hdist (decodeLengths huffCode' hlit (lengthsEnd hdist) (rounds + 1) s') := by
            intro stop
            exact Or.inl (decodeLengths_stop _ before' (by rw [decoded', stop]))
          cases taken' with
          | noPrevious => exact ended rfl
          | beyond => exact ended rfl
          | put t' small' lengths' views' =>
            cases taken with
            | put t small lengths views =>
              rw [decodeLengths_on before decoded] at rejects
              rw [decodeLengths_on before' decoded']
              exact ih lengths lengths' views views' (by simp; omega) rejects
            | again t previous sixteen => omega
            | zeroes t base width kind => omega
            | noPrevious t sixteen => omega
            | beyond t sixteen => omega
          | again t' previous' sixteen' last' lengths' views' =>
            cases taken with
            | put t small => omega
            | zeroes t base width kind => omega
            | noPrevious t sixteen last =>
              rw [last] at last'
              cases last'
            | beyond t sixteen excess =>
              rw [decodeLengths_on before' decoded']
              refine decodeLengths_doomed finds' valid nineteen legal rounds lengths' views' (Or.inr ?_) (by simp; omega)
              rw [List.length_append, List.length_replicate]
              by_cases short : rest.length < 2
              · have := field_le rest ext (Nat.le_of_lt short)
                omega
              · rw [field_eq rest ext (by omega)]
                exact excess
            | again t previous sixteen last lengths views =>
              cases last.symm.trans last'
              rw [decodeLengths_on before decoded] at rejects
              rw [decodeLengths_on before' decoded']
              by_cases short : rest.length < 2
              · exact rejects_longer_repeat finds finds' valid nineteen legal (by decide) lengths lengths' views views' short
                  enough rejects
              · rw [field_eq rest ext (by omega)] at lengths'
                refine ih lengths lengths' (views.drop (by omega)) ?_ (by simp; omega) rejects
                have views' := views'.drop (by rw [List.length_append]; omega)
                rwa [List.drop_append_of_le_length (by omega)] at views'
          | zeroes t' base' width' kind' lengths' views' =>
            cases taken with
            | put t small => omega
            | again t previous sixteen => omega
            | noPrevious t sixteen => omega
            | beyond t sixteen => omega
            | zeroes t base width kind lengths views =>
              obtain ⟨rfl, rfl⟩ : base' = base ∧ width' = width := by omega
              rw [decodeLengths_on before decoded] at rejects
              rw [decodeLengths_on before' decoded']
              by_cases short : rest.length < width'
              · exact rejects_longer_repeat finds finds' valid nineteen legal (by omega) lengths lengths' views views' short
                  enough rejects
              · rw [field_eq rest ext (by omega)] at lengths'
                refine ih lengths lengths' (views.drop (by omega)) ?_ (by simp; omega) rejects
                have views' := views'.drop (by rw [List.length_append]; omega)
                rwa [List.drop_append_of_le_length (by omega)] at views'
        · have stop := decodeLengths_stop rounds before (decodeLength_cut (lengthsEnd hdist) legal lengths
            ((finds.matched valid views next).2.negative.mpr (by omega)))
          have known : 256 < lens.length ∧ lengthOf lens 256 = 0 := by
            by_contra unknown
            rw [if_neg unknown] at stop
            rcases rejects with here | ⟨here, -⟩
            · rw [stop] at here; cases here
            · rw [stop] at here; cases here
          exact decodeLengths_doomed finds' valid nineteen legal _ lengths' views' (Or.inl known) enough
      · have none' := no_matches_append ext valid nineteen (not_exists.mp some_)
        exact Or.inl (decodeLengths_stop _ before' (decodeLength_none finds' views' (by omega) none'))
    · rw [decodeLengths_end before] at rejects
      have all := Nat.le_of_not_lt (mt (lengths.current_lt legal).1.mpr before)
      rw [decodeLengths_end (mt ((lengths'.current_lt legal).1.mp) (by omega))]
      exact (lengths'.rejects legal all).mpr ((lengths.rejects legal all).mp rejects)

theorem lengthOf_le {m : Nat} (bounded : ∀ x ∈ lens, x ≤ m) (i : Nat) : lengthOf lens i ≤ m := by
  rw [lengthOf]
  cases found : lens[i]? with
  | none => exact Nat.zero_le m
  | some x => exact bounded x (List.mem_of_getElem? found)

/-- Seven bits for every code length are enough, whatever symbols the lengths are given by. -/
theorem decodeLengths_plenty (hdist : Nat) (finds : FindsHeader clens huffCode) (valid : Valid clens 15) (nineteen : clens.length = 19)
    (seven : ∀ m ∈ clens, m ≤ 7) (legal : hlit ≤ 29) (rounds : Nat) (lengths : LengthsPut hlit lens s) (views : Views s.inp v n)
    (nonneg : 0 ≤ n)
    (plenty : lens.length < lengthsTotal hlit hdist → ((7 * (lengthsTotal hlit hdist - lens.length) + 7 : Nat) : Int) ≤ n) :
    (decodeLengths huffCode hlit (lengthsEnd hdist) rounds s).1 ≠ some .endInput ∧
      ((decodeLengths huffCode hlit (lengthsEnd hdist) rounds s).1 = none →
        0 ≤ (decodeLengths huffCode hlit (lengthsEnd hdist) rounds s).2.inp.readInLength) := by
  have stays : ∀ {t : LengthState} {v : Nat} {n : Int}, Views t.inp v n → 0 ≤ n → 0 ≤ t.inp.readInLength :=
    fun views nonneg => Int.not_lt.mp (mt views.negative.mp (Int.not_lt.mpr nonneg))
  induction rounds generalizing lens s v n with
  | zero => exact ⟨nofun, fun _ => stays views nonneg⟩
  | succ rounds ih =>
    by_cases before : s.current < lengthsEnd hdist
    · have more := (lengths.current_lt legal).1.mp before
      have plenty := plenty more
      have ended : (decodeLength huffCode hlit (lengthsEnd hdist) s).1 = some .invalidBlock →
          (decodeLengths huffCode hlit (lengthsEnd hdist) (rounds + 1) s).1 ≠ some .endInput ∧
            ((decodeLengths huffCode hlit (lengthsEnd hdist) (rounds + 1) s).1 = none →
              0 ≤ (decodeLengths huffCode hlit (lengthsEnd hdist) (rounds + 1) s).2.inp.readInLength) := by
        intro stop
        rw [decodeLengths_stop _ before stop]
        exact ⟨nofun, nofun⟩
      by_cases some_ : ∃ i, Matches clens i v
      · obtain ⟨i, next⟩ := some_
        have few := lengthOf_le seven i
        have taken := decodeLength_taken hdist finds valid nineteen legal lengths views next (by omega)
        generalize decoded : decodeLength huffCode hlit (lengthsEnd hdist) s = result at taken
        cases taken with
        | put t small lengths views =>
          rw [decodeLengths_on before decoded]
          exact ih lengths views (by omega) (by rw [List.length_append, List.length_singleton]; omega)
        | again t previous sixteen last lengths views =>
          rw [decodeLengths_on before decoded]
          exact ih lengths views (by omega) (by rw [List.length_append, List.length_replicate]; omega)
        | zeroes t base width kind lengths views =>
          rw [decodeLengths_on before decoded]
          exact ih lengths views (by omega) (by rw [List.length_append, List.length_replicate]; omega)
        | noPrevious => exact ended (by rw [decoded])
        | beyond => exact ended (by rw [decoded])
      · exact ended (decodeLength_none finds views nonneg (not_exists.mp some_))
    · rw [decodeLengths_end before]
      exact ⟨nofun, fun _ => stays views nonneg⟩

end Lengths

section Dynamic

/-- The fields of a dynamic header, from the bits that it starts with. -/
def fieldHlit (bits : List Bool) : Nat := bitsVal bits % 2 ^ 5
def fieldHdist (bits : List Bool) : Nat := bitsVal (bits.drop 5) % 2 ^ 5
def fieldHclen (bits : List Bool) : Nat := bitsVal (bits.drop 10) % 2 ^ 4

def fieldsEnd (bits : List Bool) : Nat := 14 + 3 * (fieldHclen bits + 4)

def fieldClens (bits : List Bool) : List Nat :=
  codeLengthCode ((List.range (fieldHclen bits + 4)).map (digit 3 (bitsVal (bits.drop 14))))

/-- What becomes of the code lengths. -/
def lengthsVerdict (hdist multisym : Nat) (start : InflateState) (result : Option ReturnCode × LengthState) : ReturnCode :=
  match result with
  | (some ret, _) => ret
  | (none, lengths) =>
    if lengthsEnd hdist < lengths.current ∨ (lengths.litAndDistHuff 256).length = 0 then .invalidBlock
    else if lengths.inp.readInLength < 0 then .endInput
    else (setupCodes multisym lengths start).1

/-- The return value of `setup_dynamic_header`. -/
inductive DynamicRead (multisym : Nat) (bits : List Bool) : ReturnCode → Prop
  | endOfFields (short : bits.length < 14) : DynamicRead multisym bits .endInput
  | illegal (long : 14 ≤ bits.length) (bad : 29 < fieldHlit bits ∨ 29 < fieldHdist bits) :
      DynamicRead multisym bits .invalidBlock
  | endOfCodeLengths (long : 14 ≤ bits.length) (legal : fieldHlit bits ≤ 29 ∧ fieldHdist bits ≤ 29)
      (short : bits.length < fieldsEnd bits) : DynamicRead multisym bits .endInput
  | noCode (long : fieldsEnd bits ≤ bits.length) (legal : fieldHlit bits ≤ 29 ∧ fieldHdist bits ≤ 29)
      (bad : (∀ m ∈ fieldClens bits, m = 0) ∨ 2 ^ 15 < kraft (fieldClens bits) 15) : DynamicRead multisym bits .invalidBlock
  | lengths (long : fieldsEnd bits ≤ bits.length) (legal : fieldHlit bits ≤ 29 ∧ fieldHdist bits ≤ 29)
      (some_ : ¬∀ m ∈ fieldClens bits, m = 0) (valid : Valid (fieldClens bits) 15) (huffCode : LookupTable)
      (finds : FindsHeader (fieldClens bits) huffCode) (inp : InStream)
      (views : Views inp (bitsVal (bits.drop (fieldsEnd bits))) (bits.drop (fieldsEnd bits)).length) (start : InflateState) :
      DynamicRead multisym bits (lengthsVerdict (fieldHdist bits) multisym start
        (decodeLengths huffCode (fieldHlit bits) (lengthsEnd (fieldHdist bits)) (lengthsEnd (fieldHdist bits)) { inp }))

theorem readDynamicHeader_read {s : InflateState} {bits : List Bool} (multisym : Nat)
    (views : Views s.toInStream (bitsVal bits) bits.length) :
    DynamicRead multisym bits (readDynamicHeader multisym s).1 := by
  obtain ⟨views, loaded⟩ := views.load
  rw [Loaded] at loaded
  have count := views.count
  rw [readDynamicHeader]
  dsimp only
  generalize inflateInLoad s.toInStream = inp at views loaded count
  split
  · rename_i few
    exact .endOfFields (by rcases loaded with many | none <;> omega)
  rename_i plenty
  have long : 14 ≤ bits.length := by omega
  obtain ⟨hlit, inp₁, eq₁, parsed₁, -, views, left₁, avail₁, -⟩ :=
    readBitsUnsafe_num views 5 (by omega) (by omega)
  obtain ⟨hdist, inp₂, eq₂, parsed₂, -, views, left₂, avail₂, -⟩ :=
    readBitsUnsafe_num views 5 (by omega) (by simp; omega)
  obtain ⟨hclen, inp₃, eq₃, parsed₃, small, views, left₃, avail₃, -⟩ :=
    readBitsUnsafe_num views 4 (by omega) (by simp; omega)
  simp only [eq₁, eq₂, eq₃]
  rw [num_ok (by omega)] at parsed₁
  rw [num_ok (by simp; omega)] at parsed₂
  rw [num_ok (by simp; omega), List.drop_drop] at parsed₃
  obtain rfl : fieldHlit bits = hlit := (Parse.ok.inj parsed₁).1
  obtain rfl : fieldHdist bits = hdist := (Parse.ok.inj parsed₂).1
  obtain rfl : fieldHclen bits = hclen := (Parse.ok.inj parsed₃).1
  rw [List.drop_drop, List.drop_drop] at views
  by_cases illegal : 29 < fieldHlit bits ∨ 29 < fieldHdist bits
  · rw [if_pos (illegal.imp id .inl)]
    exact .illegal long illegal
  rw [if_neg (by omega)]
  have legal : fieldHlit bits ≤ 29 ∧ fieldHdist bits ≤ 29 := by omega
  have lengthsRead := readCodeLengths_spec views (by omega) (show 4 ≤ fieldHclen bits + 4 by omega) (by omega)
  dsimp only at lengthsRead
  generalize forRange 4 (fieldHclen bits + 4) readCodeLength _ = r at lengthsRead ⊢
  obtain ⟨c, inp₄⟩ := r
  obtain ⟨⟨views, -, table, counts, flag⟩, -⟩ := lengthsRead
  dsimp only at views table counts flag ⊢
  have ends : fieldsEnd bits = 14 + 3 * (fieldHclen bits + 4) := rfl
  have left : (bits.drop (5 + (5 + 4))).length = bits.length - 14 := List.length_drop
  split
  · rename_i negative
    have short := views.negative.mp negative
    exact .endOfCodeLengths long legal (by omega)
  rename_i nonneg
  have enough : fieldsEnd bits ≤ bits.length := by
    have := mt views.negative.mpr nonneg
    omega
  replace views := views.drop (by omega)
  rw [List.drop_drop, show 5 + (5 + 4) + 3 * (fieldHclen bits + 4) = fieldsEnd bits from rfl] at views
  have bounded : ∀ m ∈ fieldClens bits, m ≤ 7 := codeLengthCode_le _ _
  have nineteen : (fieldClens bits).length = 19 := codeLengthCode_length _
  change HasLengths c.codeHuff codeLenCodes (fieldClens bits) at table
  change Counts c.codeCount (fieldClens bits) at counts
  change c.flag = 0 ↔ ∀ m ∈ fieldClens bits, m = 0 at flag
  split
  · rename_i zero
    exact .noCode enough legal (Or.inl (flag.mp zero))
  rename_i nonzero
  rcases setCodes_spec table (fun m member => Nat.le_trans (bounded m member) (by decide)) counts with
    ⟨none, excess⟩ | ⟨codeHuff, found, valid, canonical⟩
  · rw [none]
    exact .noCode enough legal (Or.inr excess)
  rw [found]
  have finds : FindsHeader (fieldClens bits) (makeInflateHuffCodeHeader ⟨.const 0, .const 0⟩ codeHuff codeLenCodes c.codeCount
      codeLenCodes) := fun t v n views =>
    decodeNextHeader_spec valid canonical (Nat.le_of_eq nineteen) counts views (Nat.le_of_eq nineteen) bounded _
  have verdict : ∀ huffCode, FindsHeader (fieldClens bits) huffCode → ∀ start, DynamicRead multisym bits
      (lengthsVerdict (fieldHdist bits) multisym start (decodeLengths huffCode (fieldHlit bits) (lengthsEnd (fieldHdist bits))
        (lengthsEnd (fieldHdist bits)) { inp := inp₄ })) :=
    fun huffCode finds start => .lengths enough legal (mt flag.mpr nonzero) valid huffCode finds inp₄ views start
  replace verdict := verdict _ finds
  dsimp only
  generalize makeInflateHuffCodeHeader _ codeHuff codeLenCodes c.codeCount codeLenCodes = huffCode at verdict ⊢
  have folded : decodeLengths huffCode (fieldHlit bits) (litLen + fieldHdist bits + 1) (litLen + fieldHdist bits + 1) { inp := inp₄ } =
    decodeLengths huffCode (fieldHlit bits) (lengthsEnd (fieldHdist bits)) (lengthsEnd (fieldHdist bits)) { inp := inp₄ } := rfl
  rw [folded]
  generalize decodeLengths huffCode (fieldHlit bits) (lengthsEnd (fieldHdist bits)) (lengthsEnd (fieldHdist bits)) { inp := inp₄ } =
    result at verdict ⊢
  obtain ⟨ret, lengths⟩ := result
  cases ret with
  | some ret => exact verdict s
  | none =>
    have here := verdict ((s.withIn inp₄).withIn lengths.inp)
    rw [lengthsVerdict] at here
    change DynamicRead multisym bits
      (if lengthsEnd (fieldHdist bits) < lengths.current ∨ (lengths.litAndDistHuff 256).length = 0 then _ else _ :
        ReturnCode × InflateState).1
    by_cases bad : lengthsEnd (fieldHdist bits) < lengths.current ∨ (lengths.litAndDistHuff 256).length = 0
    · rwa [if_pos bad] at here ⊢
    rw [if_neg bad] at here ⊢
    by_cases negative : lengths.inp.readInLength < 0
    · rwa [if_pos negative] at here ⊢
    · rwa [if_neg negative] at here ⊢

section Fields

variable {bits : List Bool} (ext : List Bool)

theorem fieldHlit_append (long : 14 ≤ bits.length) : fieldHlit (bits ++ ext) = fieldHlit bits :=
  field_eq bits ext (by omega)

theorem fieldHdist_append (long : 14 ≤ bits.length) : fieldHdist (bits ++ ext) = fieldHdist bits := by
  rw [fieldHdist, List.drop_append_of_le_length (by omega)]
  exact field_eq _ ext (by rw [List.length_drop]; omega)

theorem fieldHclen_append (long : 14 ≤ bits.length) : fieldHclen (bits ++ ext) = fieldHclen bits := by
  rw [fieldHclen, List.drop_append_of_le_length (by omega)]
  exact field_eq _ ext (by rw [List.length_drop]; omega)

theorem fieldsEnd_append (long : 14 ≤ bits.length) : fieldsEnd (bits ++ ext) = fieldsEnd bits := by
  rw [fieldsEnd, fieldHclen_append ext long, fieldsEnd]

theorem fieldsEnd_long {bits : List Bool} (long : fieldsEnd bits ≤ bits.length) : 14 ≤ bits.length := by
  rw [fieldsEnd] at long
  omega

theorem fieldClens_append (long : fieldsEnd bits ≤ bits.length) : fieldClens (bits ++ ext) = fieldClens bits := by
  have fields := fieldsEnd_long long
  rw [fieldClens, fieldHclen_append ext fields, fieldClens, List.drop_append_of_le_length fields]
  rw [fieldsEnd] at long
  congr 1
  apply List.map_congr_left
  intro i inside
  have below := List.mem_range.mp inside
  have room : 3 * i + 3 ≤ (bits.drop 14).length := by rw [List.length_drop]; omega
  rw [digit, ← bitsVal_drop, List.drop_append_of_le_length (by omega), field_eq _ ext (by rw [List.length_drop]; omega),
    bitsVal_drop]
  rfl

end Fields

variable {bits ext : List Bool} {multisym multisym' : Nat} {ret ret' : ReturnCode}

theorem fieldClens_length (bits : List Bool) : (fieldClens bits).length = 19 := codeLengthCode_length _

theorem fieldClens_le (bits : List Bool) : ∀ m ∈ fieldClens bits, m ≤ 7 := codeLengthCode_le _ _

theorem setupCodes_ret (multisym : Nat) (lengths : LengthState) (start : InflateState) :
    (setupCodes multisym lengths start).1 = .decompOk ∨ (setupCodes multisym lengths start).1 = .invalidBlock := by
  simp only [setupCodes]
  split
  · exact Or.inr rfl
  · split
    · exact Or.inr rfl
    · exact Or.inl rfl

/-- The codes of a header are invalid for their lengths alone. -/
theorem setupCodes_again {lens : List Nat} {hlit hdist : Nat} {lengths lengths' : LengthState} {start start' : InflateState}
    (put : LengthsPut hlit lens lengths) (put' : LengthsPut hlit lens lengths') (legal : hlit ≤ 29 ∧ hdist ≤ 29)
    (full : lens.length = lengthsTotal hlit hdist) (invalid : (setupCodes multisym lengths start).1 = .invalidBlock) :
    (setupCodes multisym' lengths' start').1 = .invalidBlock := by
  rcases setupCodes_spec (s := start) put legal.1 legal.2 full multisym with ⟨-, excess⟩ | ⟨same, -⟩
  · rcases setupCodes_spec (s := start') put' legal.1 legal.2 full multisym' with ⟨same, -⟩ | ⟨-, distFits, litFits, -⟩
    · rw [same]
    · rcases excess with excess | excess
      · rw [distFits] at excess; cases excess
      · rw [litFits] at excess; cases excess
  · rw [same] at invalid
    cases invalid

theorem lengthsVerdict_rejects {hdist : Nat} {start : InflateState} {result : Option ReturnCode × LengthState}
    (rejects : Rejects hdist result) : lengthsVerdict hdist multisym start result = .invalidBlock := by
  obtain ⟨ret, t⟩ := result
  rcases rejects with stop | ⟨none, bad⟩
  · dsimp only at stop
    subst stop
    rfl
  · dsimp only at none
    subst none
    exact if_pos bad

/-- A header that is invalid stays invalid when more bits come. -/
theorem DynamicRead.rejects (short : DynamicRead multisym bits ret) (invalid : ret = .invalidBlock)
    (long : DynamicRead multisym' (bits ++ ext) ret') : ret' = .invalidBlock := by
  have longer : (bits ++ ext).length = bits.length + ext.length := List.length_append
  cases short with
  | endOfFields => cases invalid
  | endOfCodeLengths => cases invalid
  | illegal enough bad =>
    cases long with
    | endOfFields few => omega
    | illegal => rfl
    | endOfCodeLengths _ legal => rw [fieldHlit_append ext enough, fieldHdist_append ext enough] at legal; omega
    | noCode => rfl
    | lengths _ legal => rw [fieldHlit_append ext enough, fieldHdist_append ext enough] at legal; omega
  | noCode enough legal bad =>
    cases long with
    | endOfFields few => have := fieldsEnd_long enough; omega
    | illegal => rfl
    | endOfCodeLengths _ _ few => rw [fieldsEnd_append ext (fieldsEnd_long enough)] at few; omega
    | noCode => rfl
    | lengths _ _ some_ valid =>
      rw [fieldClens_append ext enough] at some_ valid
      have := valid.kraft_le
      exact absurd bad (not_or.mpr ⟨some_, by omega⟩)
  | lengths enough legal some_ valid huffCode finds inp views start =>
    have fields := fieldsEnd_long enough
    cases long with
    | endOfFields few => omega
    | illegal => rfl
    | endOfCodeLengths _ _ few => rw [fieldsEnd_append ext fields] at few; omega
    | noCode => rfl
    | lengths enough' legal' some_' valid' huffCode' finds' inp' views' start' =>
      have nineteen := fieldClens_length bits
      rw [fieldClens_append ext enough] at finds'
      rw [fieldsEnd_append ext fields, List.drop_append_of_le_length enough] at views'
      rw [fieldHlit_append ext fields, fieldHdist_append ext fields]
      have enoughRounds : lengthsTotal (fieldHlit bits) (fieldHdist bits) ≤ ([] : List Nat).length + lengthsEnd (fieldHdist bits) := by
        simp only [lengthsTotal, lengthsEnd, litLen, List.length_nil]
        omega
      by_cases rejects : Rejects (fieldHdist bits) (decodeLengths huffCode (fieldHlit bits) (lengthsEnd (fieldHdist bits))
          (lengthsEnd (fieldHdist bits)) { inp })
      · exact lengthsVerdict_rejects (decodeLengths_rejects finds finds' valid nineteen legal.1 _
          (lengths_initial _ inp) (lengths_initial _ inp') views views' enoughRounds rejects)
      -- the codes themselves are invalid, which they are for the lengths that both inputs give
      have read : LengthsRead (fieldHlit bits) (fieldHdist bits) _ _ :=
        decodeLengths_spec finds valid nineteen legal.1 _ (lengthsTotal (fieldHlit bits) (fieldHdist bits) + 1)
          (lengths_initial _ inp) views enoughRounds (by simp)
      have read' : LengthsRead (fieldHlit bits) (fieldHdist bits) _ _ :=
        decodeLengths_spec finds' valid nineteen legal.1 _ (lengthsTotal (fieldHlit bits) (fieldHdist bits) + 1)
          (lengths_initial _ inp') views' enoughRounds (by simp)
      generalize decodeLengths huffCode _ _ _ _ = result at read rejects invalid
      generalize decodeLengths huffCode' _ _ _ _ = result' at read' ⊢
      cases read with
      | failed t ret fails kind =>
        rcases kind with rfl | rfl
        · cases invalid
        · exact absurd (Or.inl rfl) rejects
      | stopped t fails why =>
        have good : ¬(lengthsEnd (fieldHdist bits) < t.current ∨ (t.litAndDistHuff 256).length = 0) :=
          fun bad => rejects (Or.inr ⟨rfl, bad⟩)
        rw [lengthsVerdict, if_neg good, if_pos (why.resolve_left fun beyond => good (Or.inl beyond))] at invalid
        cases invalid
      | read lens rest t ok full put views =>
        have good : ¬(lengthsEnd (fieldHdist bits) < t.current ∨ (t.litAndDistHuff 256).length = 0) :=
          fun bad => rejects (Or.inr ⟨rfl, bad⟩)
        rw [lengthsVerdict, if_neg good, if_neg (by rw [views.negative]; omega)] at invalid
        have reader : Reader 1 (readLengths (fieldClens bits) (lengthsTotal (fieldHlit bits) (fieldHdist bits))
          (lengthsTotal (fieldHlit bits) (fieldHdist bits) + 1) []) := reader_readLengths valid _ _ _
        have ok' := reader.ok (Nat.one_dvd ext.length) ok
        cases read' with
        | failed t' ret' fails => exact absurd ok' (fails _ _)
        | stopped t' fails => exact absurd ok' (fails _ _)
        | read lens' rest' t' here full' put' views' =>
          cases ok'.symm.trans here
          have good' : ¬(lengthsEnd (fieldHdist bits) < t'.current ∨ (t'.litAndDistHuff 256).length = 0) := by
            have same : Rejects (fieldHdist bits) (none, t) ↔ Rejects (fieldHdist bits) (none, t') :=
              (put.rejects legal.1 (by omega)).trans (put'.rejects legal.1 (by omega)).symm
            exact fun bad => rejects (same.mpr (Or.inr ⟨rfl, bad⟩))
          rw [lengthsVerdict, if_neg good', if_neg (by rw [views'.negative]; omega)]
          exact setupCodes_again put put' legal full invalid

/-- The longest header takes up 2293 bits with the three that tell its kind. -/
theorem DynamicRead.plenty (read : DynamicRead multisym bits ret) (long : 2290 ≤ bits.length) : ret ≠ .endInput := by
  cases read with
  | endOfFields short => omega
  | illegal => simp
  | endOfCodeLengths _ _ short =>
    rw [fieldsEnd, fieldHclen] at short
    omega
  | noCode => simp
  | lengths enough legal some_ valid huffCode finds inp views start =>
    have total : lengthsTotal (fieldHlit bits) (fieldHdist bits) ≤ 316 := by rw [lengthsTotal]; omega
    have few : fieldsEnd bits ≤ 71 := by
      rw [fieldsEnd, fieldHclen]
      omega
    obtain ⟨noEnd, nonneg⟩ := decodeLengths_plenty (fieldHdist bits) finds valid (fieldClens_length bits) (fieldClens_le bits) legal.1
      (lengthsEnd (fieldHdist bits)) (lengths_initial _ inp) views (by omega)
      (by rw [List.length_drop, List.length_nil]; omega)
    generalize decodeLengths huffCode _ _ _ _ = result at noEnd nonneg ⊢
    obtain ⟨stop, t⟩ := result
    cases stop with
    | some ret =>
      intro ends
      exact noEnd (congrArg some ends)
    | none =>
      simp only [lengthsVerdict]
      split
      · simp
      · rw [if_neg (Int.not_lt.mpr (nonneg rfl))]
        rcases setupCodes_ret multisym t start with same | same <;> simp [same]

end Dynamic

end Isal.Inflate
