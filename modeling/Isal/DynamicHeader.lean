import Isal.Rfc1951
import Isal.HeaderLengths

/-! The header of a dynamic block is read as the reference decoder reads it, and the
tables it sets up are those of the two codes that the header describes. -/
namespace Isal.Inflate

open Isal.Bits Isal.Loops Isal.PrefixCode Isal.Rfc1951

theorem codeLengthOrder_eq : Inflate.codeLengthOrder = Rfc1951.codeLengthOrder := rfl

theorem codeLengthOrder_idxOf : ∀ sym < 19, ∀ i < 19,
    (Rfc1951.codeLengthOrder.idxOf sym = i ↔ sym = Inflate.codeLengthOrder[i]?.getD 0) := by decide

theorem codeLengthOrder_lt : ∀ i < 19, Inflate.codeLengthOrder[i]?.getD 0 < 19 := by decide

/-- One more length of the code-length code fills one place that was zero. -/
theorem codeLengthCode_append {given : List Nat} (short : given.length < 19) (g : Nat) :
    codeLengthCode (given ++ [g]) =
      (codeLengthCode given).set (Inflate.codeLengthOrder[given.length]?.getD 0) g := by
  apply List.ext_getElem
  · simp [codeLengthCode]
  intro sym h h'
  simp only [codeLengthCode, List.length_map, List.length_range] at h
  simp only [codeLengthCode, List.getElem_map, List.getElem_range, List.getElem_set]
  have place := codeLengthOrder_idxOf sym h given.length short
  split
  · rename_i same
    rw [place.mpr same.symm, List.getElem?_append_right (Nat.le_refl _)]
    simp
  · rename_i other
    rw [List.getElem?_append]
    split
    · rfl
    · rename_i beyond
      have : Rfc1951.codeLengthOrder.idxOf sym ≠ given.length := fun same => other (place.mp same).symm
      rw [List.getElem?_eq_none (by simp; omega), List.getElem?_eq_none (by omega)]

theorem codeLengthCode_fresh {given : List Nat} (short : given.length < 19) :
    lengthOf (codeLengthCode given) (Inflate.codeLengthOrder[given.length]?.getD 0) = 0 := by
  have inside := codeLengthOrder_lt _ short
  rw [lengthOf_eq (by simpa [codeLengthCode] using inside)]
  simp only [codeLengthCode, List.getElem_map, List.getElem_range]
  rw [(codeLengthOrder_idxOf _ inside _ short).mpr rfl, List.getElem?_eq_none (Nat.le_refl _)]
  rfl

theorem codeLengthCode_length (given : List Nat) : (codeLengthCode given).length = 19 := by
  simp [codeLengthCode]

/-- A place of a list of lengths that was zero gets a value. -/
theorem count_set_fresh {lens : List Nat} {i : Nat} (inside : i < lens.length) (fresh : lengthOf lens i = 0)
    (g : Nat) {n : Nat} (positive : 1 ≤ n) : (lens.set i g).count n = lens.count n + if g = n then 1 else 0 := by
  rw [lengthOf_eq inside] at fresh
  rw [List.count_set inside, fresh]
  simp [show 0 ≠ n by omega]

theorem zero_set_fresh {lens : List Nat} {i : Nat} (inside : i < lens.length) (fresh : lengthOf lens i = 0)
    (g : Nat) : (∀ m ∈ lens.set i g, m = 0) ↔ (∀ m ∈ lens, m = 0) ∧ g = 0 := by
  constructor
  · intro zero
    have here : g = 0 := zero g (List.mem_set inside g)
    subst here
    refine ⟨?_, rfl⟩
    rw [lengthOf_eq inside] at fresh
    rw [← fresh, List.set_getElem_self] at zero
    intro m member
    rw [zero m member, fresh]
  · rintro ⟨zero, rfl⟩ m member
    rcases List.mem_or_eq_of_mem_set member with old | rfl
    · exact zero m old
    · rfl

theorem lengthOf_set {lens : List Nat} {i : Nat} (inside : i < lens.length) (g j : Nat) :
    lengthOf (lens.set i g) j = if j = i then g else lengthOf lens j := by
  simp only [lengthOf, List.getElem?_set]
  by_cases same : i = j
  · subst same; simp [inside]
  · simp [same, Ne.symm same]

/-- The first `i` lengths of the code-length code have been read from the stream with value
`v` and `n` bits; what is buffered is enough for all before `last`. -/
structure CodeLengthsRead (v : Nat) (n : Int) (last i : Nat) (c : CodeLengths) (s : InStream) : Prop where
  views : Views s (v / 2 ^ (3 * i)) (n - (3 * i : Nat))
  enough : ((3 * (last - i) : Nat) : Int) ≤ s.readInLength ∨ s.availIn = 0
  table : HasLengths c.codeHuff codeLenCodes (codeLengthCode ((List.range i).map (digit 3 v)))
  counts : Counts c.codeCount (codeLengthCode ((List.range i).map (digit 3 v)))
  flag : c.flag = 0 ↔ ∀ m ∈ codeLengthCode ((List.range i).map (digit 3 v)), m = 0

theorem readCodeLength_step {v : Nat} {n : Int} {last i : Nat} {c : CodeLengths} {s : InStream}
    (h : CodeLengthsRead v n last i c s) (more : i < last) (few : last ≤ 19) :
    CodeLengthsRead v n last (i + 1) (readCodeLength i (c, s)).1 (readCodeLength i (c, s)).2 := by
  have enough : ((3 : Nat) : Int) ≤ s.readInLength ∨ s.availIn = 0 := h.enough.imp (by omega) id
  obtain ⟨value, views⟩ := readBitsUnsafe_views h.views enough
  have next : (inflateInReadBitsUnsafe 3 s).1 = digit 3 v i := value
  have length : ((List.range i).map (digit 3 v)).length = i := by simp
  have short : ((List.range i).map (digit 3 v)).length < 19 := by omega
  have inside := codeLengthOrder_lt i (by omega)
  have fresh := codeLengthCode_fresh short
  have grown := codeLengthCode_append short (digit 3 v i)
  rw [← List.map_singleton, ← List.map_append, ← List.range_succ, length] at grown
  rw [length] at fresh
  simp only [readCodeLength]
  constructor
  · rw [Nat.div_div_eq_div_mul, ← Nat.pow_add] at views
    rw [Nat.mul_succ]
    convert views using 1
    omega
  · rcases h.enough with many | none
    · left
      simp only [inflateInReadBitsUnsafe, consume_readInLength]
      omega
    · exact Or.inr none
  · intro j small
    rw [grown, lengthOf_set (by rw [codeLengthCode_length]; exact inside), Arr.set_get, next]
    split
    · rfl
    · exact h.table j small
  · intro m low high
    rw [grown, count_set_fresh (by rw [codeLengthCode_length]; exact inside) fresh _ low, ← h.counts m low high,
      Arr.set_get, next]
    by_cases same : m = digit 3 v i
    · simp [same]
    · simp [same, Ne.symm same]
  · rw [grown, zero_set_fresh (by rw [codeLengthCode_length]; exact inside) fresh, ← h.flag, next, Nat.or_eq_zero_iff]

theorem codeLengths_read {v : Nat} {n : Int} {first last : Nat} {c : CodeLengths} {s : InStream}
    (h : CodeLengthsRead v n last first c s) (order : first ≤ last) (few : last ≤ 19) :
    CodeLengthsRead v n last last (forRange first last readCodeLength (c, s)).1
      (forRange first last readCodeLength (c, s)).2 :=
  forRange_invariant (fun i (t : CodeLengths × InStream) => CodeLengthsRead v n last i t.1 t.2) order h
    fun _ _ _ upper now => readCodeLength_step now upper few

section Lengths

variable {clens lens : List Nat} {hlit hdist : Nat} {huffCode : LookupTable} {s : LengthState} {bits : List Bool}

/-- The symbol of the code-length code that comes next. -/
def FindsHeader (clens : List Nat) (huffCode : LookupTable) : Prop :=
  ∀ s v n, Views s v n →
    (∃ i, Matches clens i v ∧ (decodeNextHeader huffCode s).1 = i ∧
      Views (decodeNextHeader huffCode s).2 (v / 2 ^ lengthOf clens i) (n - lengthOf clens i)) ∨
    ((∀ i, ¬Matches clens i v) ∧ (decodeNextHeader huffCode s).1 = invalidSymbol % 2 ^ 9 ∧
      Views (decodeNextHeader huffCode s).2 v n)

/-- The reference decoder's number of lengths, and where the code's tables of them end. -/
def lengthsTotal (hlit hdist : Nat) : Nat := hlit + 257 + (hdist + 1)
def lengthsEnd (hdist : Nat) : Nat := litLen + hdist + 1

theorem readLengths_over {total : Nat} (excess : total < lens.length) (fuel : Nat) (bits : List Bool) :
    readLengths clens total fuel lens bits = .bad := by
  cases fuel with
  | zero => rfl
  | succ fuel => rw [readLengths, if_pos excess]; rfl

/-- What one symbol of the code-length code does, next to the reference decoder. -/
inductive LengthStep (clens : List Nat) (hlit total : Nat) (lens : List Nat) (bits : List Bool) :
    Option ReturnCode × LengthState → Prop
  | put (more : List Nat) (rest : List Bool) (s : LengthState) (some_ : more ≠ [])
      (step : ∀ fuel, readLengths clens total (fuel + 1) lens bits = readLengths clens total fuel (lens ++ more) rest)
      (lengths : LengthsPut hlit (lens ++ more) s) (views : Views s.inp (bitsVal rest) rest.length) :
      LengthStep clens hlit total lens bits (none, s)
  | short (s : LengthState) (fails : ∀ fuel, Parse.Fails (readLengths clens total fuel lens bits))
      (overrun : Overrun s.inp) : LengthStep clens hlit total lens bits (none, s)
  | failed (s : LengthState) (ret : ReturnCode) (fails : ∀ fuel, Parse.Fails (readLengths clens total fuel lens bits))
      (kind : ret = .endInput ∨ ret = .invalidBlock) : LengthStep clens hlit total lens bits (some ret, s)

theorem fails_of_succ {total : Nat} (h : ∀ fuel, Parse.Fails (readLengths clens total (fuel + 1) lens bits))
    (fuel : Nat) : Parse.Fails (readLengths clens total fuel lens bits) := by
  cases fuel with
  | zero => exact fails_bad
  | succ fuel => exact h fuel

/-- A field of extra bits, or the end of the input. -/
theorem readBits_num {inp : InStream} (h : Views inp (bitsVal bits) bits.length) {k : Nat} (small : k ≤ 57) :
    (num k bits = .ok (inflateInReadBits k inp).1 (bits.drop k) ∧
      Views (inflateInReadBits k inp).2 (bitsVal (bits.drop k)) (bits.drop k).length) ∨
    (num k bits = .more ∧ Overrun (inflateInReadBits k inp).2) := by
  obtain ⟨value, views⟩ := readBits_views h small
  by_cases enough : k ≤ bits.length
  · left
    rw [num_ok enough, value]
    exact ⟨rfl, views.drop enough⟩
  · right
    exact ⟨num_more (by omega), _, _, views, by omega⟩

theorem put_inp (hlit : Nat) (code : HuffCode) (s : LengthState) : (s.put hlit code).inp = s.inp := by
  have same : (s.switch hlit).inp = s.inp := by rw [LengthState.switch]; split <;> rfl
  rw [LengthState.put]
  split <;> exact same

theorem repeat_inp (hlit i : Nat) (code : HuffCode) (s : LengthState) :
    (forRange 0 i (fun _ s => s.put hlit code) s).inp = s.inp :=
  forRange_keeps (fun t : LengthState => t.inp = s.inp) rfl fun _ t _ _ same => (put_inp hlit code t).trans same

theorem skip_inp (hlit i : Nat) (s : LengthState) : (s.skip hlit i).inp = s.inp := by
  simp only [LengthState.skip]
  split
  · split <;> rfl
  · rfl

/-- A repeat that goes beyond the end of the tables goes beyond the lengths that are due. -/
theorem LengthsPut.beyond (lengths : LengthsPut hlit lens s) (legal : hlit ≤ 29) {i : Nat}
    (h : lengthsEnd hdist < s.current + i) : lengthsTotal hlit hdist < lens.length + i := by
  have room := litEnd_le legal
  have total : lengthsTotal hlit hdist = litEnd hlit + (hdist + 1) := by
    simp only [lengthsTotal, litEnd, isalDefLitSymbols]; omega
  rw [lengthsEnd] at h
  cases side : s.inDist with
  | false => have := lengths.inLit side; omega
  | true => have := lengths.inDist side; omega

/-- A repeat of zeroes, with the reference decoder's step given. -/
theorem skip_step {total base width : Nat} {rest : List Bool} (legal : hlit ≤ 29) (positive : 0 < base)
    (narrow : width ≤ 57) (lengths : LengthsPut hlit lens s) (views : Views s.inp (bitsVal rest) rest.length)
    (step : ∀ fuel, readLengths clens total (fuel + 1) lens bits =
      (num width >>= fun n => readLengths clens total fuel (lens ++ List.replicate (base + n) 0)) rest) :
    LengthStep clens hlit total lens bits
      (none, { s with inp := (inflateInReadBits width s.inp).2 }.skip hlit
        (base + (inflateInReadBits width s.inp).1)) := by
  rcases readBits_num views narrow with ⟨parsed, views⟩ | ⟨parsed, overrun⟩
  · refine .put (List.replicate (base + (inflateInReadBits width s.inp).1) 0) (rest.drop width) _ ?_ ?_
      ((lengths.withIn _).skip legal (by omega)) (by rw [skip_inp]; exact views)
    · rw [Ne, List.replicate_eq_nil_iff]; omega
    · intro fuel
      rw [step, bind_ok parsed]
  · refine .short _ (fails_of_succ fun fuel => ?_) (by rw [skip_inp]; exact overrun)
    rw [step, bind_more parsed]
    exact fails_more

theorem decodeLength_spec (finds : FindsHeader clens huffCode) (valid : Valid clens 15) (nineteen : clens.length = 19)
    (legal : hlit ≤ 29) (lengths : LengthsPut hlit lens s) (views : Views s.inp (bitsVal bits) bits.length)
    (more : lens.length < lengthsTotal hlit hdist) :
    LengthStep clens hlit (lengthsTotal hlit hdist) lens bits (decodeLength huffCode hlit (lengthsEnd hdist) s) := by
  have unfolds := fun fuel => readLengths.eq_2 clens (lengthsTotal hlit hdist) lens fuel
  simp only [if_neg (Nat.not_lt.mpr (Nat.le_of_lt more)), if_neg (Nat.ne_of_lt more)] at unfolds
  rw [decodeLength]
  rcases finds s.inp _ _ views with ⟨j, next, symbol, views⟩ | ⟨none, symbol, views⟩
  · generalize decodeNextHeader huffCode s.inp = found at symbol views
    obtain ⟨i, inp⟩ := found
    dsimp only at symbol views ⊢
    subst symbol
    have small : i < 19 := by rw [← nineteen]; exact used_lt next.used
    split
    · rename_i negative
      have short := views.negative.mp negative
      have fails : ∀ fuel, Parse.Fails (readLengths clens (lengthsTotal hlit hdist) fuel lens bits) :=
        fails_of_succ fun fuel => by
          rw [unfolds, bind_more (valid.decodeSym_more small next (by omega))]
          exact fails_more
      split
      · exact .failed _ _ fails (Or.inr rfl)
      · exact .failed _ _ fails (Or.inl rfl)
    · rename_i nonneg
      have enough : lengthOf clens i ≤ bits.length := by
        have := mt views.negative.mpr nonneg
        omega
      replace views := views.drop enough
      have parsed := valid.decodeSym_ok small next enough
      generalize bits.drop (lengthOf clens i) = rest at views parsed
      by_cases literal : i < 16
      · rw [if_pos literal]
        refine .put [i] rest _ (by simp) (fun fuel => by rw [unfolds, bind_ok parsed, if_pos literal])
          ((lengths.withIn inp).put legal (writeHuffCode 0 i) (Nat.le_of_lt_succ literal)) ?_
        rw [put_inp]
        exact views
      rw [if_neg literal]
      by_cases sixteen : i = 16
      · subst sixteen
        rw [if_pos rfl]
        have last := lengths.last
        cases previous : s.previous with
        | none =>
          rw [previous, Option.map_none] at last
          refine .failed _ _ (fails_of_succ fun fuel => ?_) (Or.inr rfl)
          rw [unfolds, bind_ok parsed]
          simp only [last]
          exact fails_bad
        | some p =>
          rw [previous, Option.map_some] at last
          have unfolds : ∀ fuel, readLengths clens (lengthsTotal hlit hdist) (fuel + 1) lens bits =
              (do
                let n ← num 2
                readLengths clens (lengthsTotal hlit hdist) fuel
                  (lens ++ List.replicate (3 + n) (s.litAndDistHuff p).length) : Get (List Nat)) rest := fun fuel => by
            rw [unfolds, bind_ok parsed]
            simp only [last]
            rfl
          have bounded := lengths.bounded _ (List.mem_of_getLast? last)
          rcases readBits_num views (show 2 ≤ 57 by decide) with ⟨parsed, views⟩ | ⟨parsed, overrun⟩
          · dsimp only
            split
            · rename_i beyond
              have excess := lengths.beyond legal beyond
              refine .failed _ _ (fails_of_succ fun fuel => ?_) (Or.inr rfl)
              rw [unfolds, bind_ok parsed, readLengths_over (by simpa using excess)]
              exact fails_bad
            · have repeated := (lengths.withIn (inflateInReadBits 2 inp).2).repeat legal (s.litAndDistHuff p) bounded
                (3 + (inflateInReadBits 2 inp).1)
              rw [previous] at repeated
              refine .put (List.replicate (3 + (inflateInReadBits 2 inp).1) (s.litAndDistHuff p).length)
                (rest.drop 2) _ ?_ (fun fuel => by rw [unfolds, bind_ok parsed]) repeated
                (by rw [repeat_inp]; exact views)
              rw [Ne, List.replicate_eq_nil_iff]
              omega
          · dsimp only
            have fails : ∀ fuel, Parse.Fails (readLengths clens (lengthsTotal hlit hdist) fuel lens bits) :=
              fails_of_succ fun fuel => by
                rw [unfolds, bind_more parsed]
                exact fails_more
            split
            · exact .failed _ _ fails (Or.inr rfl)
            · exact .short _ fails (by rw [repeat_inp]; exact overrun)
      rw [if_neg sixteen]
      by_cases seventeen : i = 17
      · subst seventeen
        rw [if_pos rfl]
        exact skip_step legal (by decide) (by decide) (lengths.withIn inp) views
          fun fuel => by rw [unfolds, bind_ok parsed]; rfl
      · obtain rfl : i = 18 := by omega
        rw [if_neg seventeen, if_pos rfl]
        exact skip_step legal (by decide) (by decide) (lengths.withIn inp) views
          fun fuel => by rw [unfolds, bind_ok parsed]; rfl
  · generalize decodeNextHeader huffCode s.inp = found at symbol views
    obtain ⟨i, inp⟩ := found
    dsimp only at symbol views ⊢
    subst symbol
    have nonneg : ¬inp.readInLength < 0 := by
      rw [views.negative]
      omega
    rw [if_neg nonneg]
    refine .failed _ _ (fails_of_succ fun fuel => ?_) (Or.inr rfl)
    rw [unfolds, bind_bad (valid.decodeSym_bad (fun s _ => none s) fun s t _ _ _ _ => none t)]
    exact fails_bad

theorem LengthsPut.current_lt (lengths : LengthsPut hlit lens s) (legal : hlit ≤ 29) :
    (s.current < lengthsEnd hdist ↔ lens.length < lengthsTotal hlit hdist) ∧
      (lengthsEnd hdist < s.current ↔ lengthsTotal hlit hdist < lens.length) := by
  have room := litEnd_le legal
  have total : lengthsTotal hlit hdist = litEnd hlit + (hdist + 1) := by
    simp only [lengthsTotal, litEnd, isalDefLitSymbols]; omega
  rw [total, lengthsEnd]
  cases side : s.inDist with
  | false => have := lengths.inLit side; omega
  | true => have := lengths.inDist side; omega

/-- What the loop over the code lengths leaves behind. -/
inductive LengthsRead (hlit hdist : Nat) (parsed : Parse (List Nat)) : Option ReturnCode × LengthState → Prop
  | read (lens : List Nat) (rest : List Bool) (s : LengthState) (ok : parsed = .ok lens rest)
      (full : lens.length = lengthsTotal hlit hdist) (lengths : LengthsPut hlit lens s)
      (views : Views s.inp (bitsVal rest) rest.length) : LengthsRead hlit hdist parsed (none, s)
  | stopped (s : LengthState) (fails : Parse.Fails parsed)
      (why : lengthsEnd hdist < s.current ∨ s.inp.readInLength < 0) : LengthsRead hlit hdist parsed (none, s)
  | failed (s : LengthState) (ret : ReturnCode) (fails : Parse.Fails parsed)
      (kind : ret = .endInput ∨ ret = .invalidBlock) : LengthsRead hlit hdist parsed (some ret, s)

/-- Once the input has run out nothing more is read. -/
theorem decodeLengths_overrun (finds : FindsHeader clens huffCode) (overrun : Overrun s.inp)
    {parsed : Parse (List Nat)} (fails : Parse.Fails parsed) (rounds : Nat) :
    LengthsRead hlit hdist parsed (decodeLengths huffCode hlit (lengthsEnd hdist) rounds s) := by
  have done : LengthsRead hlit hdist parsed (none, s) := .stopped s fails (Or.inr overrun.negative)
  cases rounds with
  | zero => exact done
  | succ rounds =>
    rw [decodeLengths]
    split
    · obtain ⟨v, n, views, below⟩ := overrun
      have negative : (decodeNextHeader huffCode s.inp).2.readInLength < 0 := by
        rcases finds s.inp v n views with ⟨i, -, -, views⟩ | ⟨-, -, views⟩
        · exact views.negative.mpr (by omega)
        · exact views.negative.mpr below
      by_cases known : 256 < s.current ∧ (s.litAndDistHuff 256).length = 0
      · simp only [decodeLength, if_pos negative, if_pos known]
        exact .failed _ _ fails (Or.inr rfl)
      · simp only [decodeLength, if_pos negative, if_neg known]
        exact .failed _ _ fails (Or.inl rfl)
    · exact done

theorem lengths_done (legal : hlit ≤ 29) (lengths : LengthsPut hlit lens s)
    (views : Views s.inp (bitsVal bits) bits.length) {fuel : Nat}
    (fuelled : lengthsTotal hlit hdist < lens.length + fuel) (all : lengthsTotal hlit hdist ≤ lens.length) :
    LengthsRead hlit hdist (readLengths clens (lengthsTotal hlit hdist) fuel lens bits) (none, s) := by
  rcases Nat.lt_or_eq_of_le all with excess | full
  · rw [readLengths_over excess]
    exact .stopped _ fails_bad (Or.inl ((lengths.current_lt legal).2.mpr excess))
  · obtain ⟨more, rfl⟩ : ∃ more, fuel = more + 1 := ⟨fuel - 1, by omega⟩
    refine .read lens bits s ?_ full.symm lengths views
    rw [readLengths, if_neg (by omega), if_pos full.symm, pure_eq]

theorem decodeLengths_spec (finds : FindsHeader clens huffCode) (valid : Valid clens 15) (nineteen : clens.length = 19)
    (legal : hlit ≤ 29) (rounds fuel : Nat) (lengths : LengthsPut hlit lens s)
    (views : Views s.inp (bitsVal bits) bits.length) (enough : lengthsTotal hlit hdist ≤ lens.length + rounds)
    (fuelled : lengthsTotal hlit hdist < lens.length + fuel) :
    LengthsRead hlit hdist (readLengths clens (lengthsTotal hlit hdist) fuel lens bits)
      (decodeLengths huffCode hlit (lengthsEnd hdist) rounds s) := by
  induction rounds generalizing lens bits fuel s with
  | zero => exact lengths_done legal lengths views fuelled (by omega)
  | succ rounds ih =>
    rw [decodeLengths]
    split
    · rename_i before
      have more := (lengths.current_lt legal).1.mp before
      have step := decodeLength_spec finds valid nineteen legal lengths views more
      generalize decodeLength huffCode hlit (lengthsEnd hdist) s = result at step
      cases step with
      | put more rest s some_ step lengths views =>
        obtain ⟨fuel, rfl⟩ : ∃ less, fuel = less + 1 := ⟨fuel - 1, by omega⟩
        have grown := List.length_pos_of_ne_nil some_
        rw [step]
        exact ih fuel lengths views (by simp; omega) (by simp; omega)
      | short s fails overrun => exact decodeLengths_overrun finds overrun (fails fuel) rounds
      | failed s ret fails kind => exact .failed s ret (fails fuel) kind
    · rename_i after
      exact lengths_done legal lengths views fuelled (Nat.le_of_not_lt (mt (lengths.current_lt legal).1.mpr after))

end Lengths

end Isal.Inflate
