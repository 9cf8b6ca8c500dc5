import Isal.InflateStateless

/-! Decompression in one call without room for the whole output. -/
namespace Isal.Inflate

open Isal.Bits Isal.PrefixCode Isal.Rfc1951

variable {window : Nat} {hidden : List UInt8}

section Passes

/-- One step of the loops over blocks and symbols: a header, a stored block or an entry of the
literal table. -/
inductive Pass : InflateState → InflateState → Prop
  | header {s t : InflateState} (state : s.blockState = .newHdr) (read : readHeader s = (.decompOk, t)) : Pass s t
  | stored {s t : InflateState} (state : s.blockState = .type0) (read : decodeLiteralBlock s = (.decompOk, t)) : Pass s t
  | symbols {s t : InflateState} (state : s.blockState = .coded) (read : decodeSymbols s = (none, t)) : Pass s t

abbrev Passes := Relation.ReflTransGen Pass

/-- The step that the loops end in when they do not come to the end of the stream. -/
inductive Stops : InflateState → ReturnCode × InflateState → Prop
  | header {s t : InflateState} {ret : ReturnCode} (state : s.blockState = .newHdr) (read : readHeader s = (ret, t))
      (bad : ret ≠ .decompOk) : Stops s (ret, t)
  | stored {s t : InflateState} {ret : ReturnCode} (state : s.blockState = .type0)
      (read : decodeLiteralBlock s = (ret, t)) (bad : ret ≠ .decompOk) : Stops s (ret, t)
  | symbols {s t : InflateState} {ret : ReturnCode} (state : s.blockState = .coded)
      (read : decodeSymbols s = (some ret, t)) : Stops s (ret, t)

theorem Pass.unique {s t u : InflateState} (first : Pass s t) (second : Pass s u) : t = u := by
  cases first <;> cases second <;> simp_all

theorem Stops.unique {s : InflateState} {result result' : ReturnCode × InflateState} (first : Stops s result)
    (second : Stops s result') : result = result' := by
  cases first <;> cases second <;> simp_all

theorem Stops.not_pass {s t : InflateState} {result : ReturnCode × InflateState} (last : Stops s result) : ¬Pass s t := by
  intro next
  cases last <;> cases next <;> simp_all

/-- There is one way to go, and one step to end in. -/
theorem Passes.unique {s t u : InflateState} {result result' : ReturnCode × InflateState} (first : Passes s t)
    (last : Stops t result) (second : Passes s u) (last' : Stops u result') : result = result' := by
  rcases Relation.ReflTransGen.total_of_right_unique (fun _ _ _ one two => one.unique two) first second with onward | back
  · rcases onward.cases_head with rfl | ⟨v, next, -⟩
    · exact last.unique last'
    · exact absurd next last.not_pass
  · rcases back.cases_head with rfl | ⟨v, next, -⟩
    · exact last.unique last'
    · exact absurd next last'.not_pass

end Passes

section Trace

/-- Every step is one that the reference decoder can follow. -/
theorem Pass.follows {s t : InflateState} {r : State} (h : Pass s t) (sim : Sim window hidden s r) (calm : Calm s)
    (bounded : Bounded window s r) :
    ∃ r', Runs window r r' ∧ Sim window hidden t r' ∧ Calm t ∧ Bounded window t r' := by
  cases h with
  | header state read =>
    have block := readHeader_spec sim.views
    rw [read] at block
    obtain ⟨r', first, sim', calm', frame⟩ := block.step sim calm (sim.mode.ofHeader state) bounded
    exact ⟨r', .single first, sim', calm', bounded.after (.single first.1) frame.maxDist⟩
  | stored state read =>
    obtain ⟨body, frame⟩ := decodeLiteralBlock_spec sim calm state
    rw [read] at body frame
    cases body with
    | ended _ r' run sim' calm' state' => exact ⟨r', run, sim', calm', bounded.after run.steps frame.maxDist⟩
  | symbols state read =>
    obtain ⟨round, frame⟩ := decodeSymbols_spec sim state calm
    rw [read] at round frame
    cases round with
    | goesOn _ r' run sim' calm' shrinks block => exact ⟨r', run, sim', calm', bounded.after run.steps frame.maxDist⟩

theorem Passes.follows {s t : InflateState} {r : State} (h : Passes s t) (sim : Sim window hidden s r) (calm : Calm s)
    (bounded : Bounded window s r) :
    ∃ r', Runs window r r' ∧ Sim window hidden t r' ∧ Calm t ∧ Bounded window t r' := by
  induction h with
  | refl => exact ⟨r, .refl r, sim, calm, bounded⟩
  | tail _ last ih =>
    obtain ⟨r₁, run, sim₁, calm₁, bounded₁⟩ := ih
    obtain ⟨r₂, run', rest⟩ := last.follows sim₁ calm₁ bounded₁
    exact ⟨r₂, run.trans run', rest⟩

/-- The step that a result of the loops comes from. -/
def EndsAt (s : InflateState) (result : ReturnCode × InflateState) : Prop := ∃ last, Passes s last ∧ Stops last result

theorem EndsAt.after {s s' : InflateState} {result : ReturnCode × InflateState} (first : Passes s s')
    (h : EndsAt s' result) : EndsAt s result := h.imp fun _ ⟨passes, stops⟩ => ⟨first.trans passes, stops⟩

end Trace

section Pending

variable {saved s t : InflateState}

/-- The distance at a place in the stream, and the stream behind it. -/
def LooksBack (huffCode : LookupTable) (inp : InStream) (dist : Nat) (behind : InStream) : Prop :=
  let (nextDist, inp) := decodeNextDist huffCode inp
  0 ≤ inp.readInLength ∧ nextDist < distLen ∧
    let (extra, inp) := inflateInReadBits (distExtraBitCount[nextDist]?.getD 0) inp
    0 ≤ inp.readInLength ∧ dist = distStart[nextDist]?.getD 0 + extra ∧ behind = inp

/-- The next entry holds more literals than there is room for, and behind them a length with a
distance that reaches beyond what is written when the room is used up. -/
def InflateState.RepeatPending (s : InflateState) : Prop :=
  s.blockState = .coded ∧ ∃ nextLits symCount inp dist behind,
    decodeNextLitLen s.litHuffCode (inflateInLoad s.toInStream) = (nextLits, symCount, inp) ∧ 0 ≤ inp.readInLength ∧
    s.availOut + 1 < symCount ∧ 256 < nextLits >>> (8 * (symCount - 1)) ∧
    nextLits >>> (8 * (symCount - 1)) ≤ maxLitLenSym ∧ LooksBack s.distHuffCode inp dist behind ∧ s.out.length + s.availOut < dist

theorem decodeRepeat_back {val dist : Nat} {behind : InStream} (h : LooksBack s.distHuffCode s.toInStream dist behind) :
    decodeRepeat saved val s = copyRepeat (val - 254) dist (s.withIn behind) := by
  simp only [LooksBack] at h
  simp only [decodeRepeat]
  generalize decodeNextDist s.distHuffCode s.toInStream = found at h
  obtain ⟨nextDist, inp⟩ := found
  obtain ⟨nonneg, legal, rest⟩ := h
  have above : 0 ≤ (s.withIn inp).readInLength := nonneg
  obtain ⟨nonneg', rfl, rfl⟩ := rest
  have legal' : ¬distLen ≤ nextDist := by omega
  simp only [above, true_and, if_true, legal', if_false]
  exact if_neg (Int.not_lt.mpr nonneg')

/-- The check of the distance is what finds it invalid. -/
theorem looksBack_of_invalid {val : Nat} (h : (decodeRepeat saved val s).1 = some .invalidLookback) :
    ∃ dist behind, LooksBack s.distHuffCode s.toInStream dist behind := by
  simp only [LooksBack]
  simp only [decodeRepeat] at h
  generalize decodeNextDist s.distHuffCode s.toInStream = found at h
  obtain ⟨nextDist, inp⟩ := found
  by_cases negative : inp.readInLength < 0
  · have below : ¬0 ≤ (s.withIn inp).readInLength := Int.not_le.mpr negative
    simp only [below, false_and, if_false] at h
    rw [if_pos (show ((s.withIn inp).withIn (s.withIn inp).toInStream).readInLength < 0 from negative)] at h
    cases h
  · have above : 0 ≤ (s.withIn inp).readInLength := Int.not_lt.mp negative
    simp only [above, true_and, if_true] at h
    by_cases illegal : distLen ≤ nextDist
    · rw [if_pos illegal] at h
      cases h
    · rw [if_neg illegal] at h
      by_cases cut : (inflateInReadBits (distExtraBitCount[nextDist]?.getD 0) inp).2.readInLength < 0
      · have short : ((s.withIn inp).withIn (inflateInReadBits (distExtraBitCount[nextDist]?.getD 0)
            (s.withIn inp).toInStream).2).readInLength < 0 := cut
        rw [if_pos short] at h
        cases h
      · exact ⟨_, _, Int.not_lt.mp negative, by omega, Int.not_lt.mp cut, rfl, rfl⟩

theorem copyRepeat_invalid {length dist : Nat} :
    (copyRepeat length dist s).1 = some .invalidLookback ↔ s.out.length < dist := by
  rw [copyRepeat]
  by_cases beyond : s.out.length < dist
  · simp [beyond]
  · rw [if_neg beyond]
    dsimp only
    split <;> split <;> simp [beyond]

theorem decodeRepeat_beyond {val : Nat} :
    (decodeRepeat saved val s).1 = some .invalidLookback ↔
      ∃ dist behind, LooksBack s.distHuffCode s.toInStream dist behind ∧ s.out.length < dist := by
  constructor
  · intro h
    obtain ⟨dist, behind, back⟩ := looksBack_of_invalid h
    rw [decodeRepeat_back back, copyRepeat_invalid] at h
    exact ⟨dist, behind, back, h⟩
  · rintro ⟨dist, behind, back, beyond⟩
    rw [decodeRepeat_back back, copyRepeat_invalid]
    exact beyond

/-- An entry ends in an invalid distance when it is beyond the output with the literals of the
entry that have found room. -/
theorem writeSymbols_beyond (bytes : List UInt8) {val : Nat} (small : val < 2 ^ 16) :
    (writeSymbols saved (bytes.length + 1) (packed (bytes.map UInt8.toNat ++ [val])) s).1 = some .invalidLookback ↔
      256 < val ∧ val ≤ 512 ∧ ∃ dist behind, LooksBack s.distHuffCode s.toInStream dist behind ∧
        s.out.length + min bytes.length s.availOut < dist := by
  rw [writeSymbols_eq]
  by_cases room : bytes.length ≤ s.availOut
  · rw [if_pos room, Nat.min_eq_left room]
    have written : (s.write bytes).out.length = s.out.length + bytes.length := List.length_append
    by_cases literal : val < 256
    · rw [writeSymbols_literal _ _ literal]
      split
      · exact ⟨fun h => (by cases h), fun h => absurd h.1 (by omega)⟩
      · exact ⟨fun h => (by cases h), fun h => absurd h.1 (by omega)⟩
    by_cases last : val = 256
    · rw [last, writeSymbols_end]
      exact ⟨fun h => (by cases h), fun h => absurd h.1 (by omega)⟩
    by_cases legal : val ≤ 512
    · rw [writeSymbols_match _ _ (by omega) legal, decodeRepeat_beyond, written]
      exact ⟨fun h => ⟨by omega, legal, h⟩, fun h => h.2.2⟩
    · rw [writeSymbols_illegal _ _ (by omega) small]
      exact ⟨fun h => (by cases h), fun h => absurd h.2.1 legal⟩
  · rw [if_neg room, Nat.min_eq_right (by omega)]
    have left : bytes.length + 1 - s.availOut = (bytes.drop s.availOut).length + 1 := by
      rw [List.length_drop]
      omega
    have written : (s.write (bytes.take s.availOut)).out.length = s.out.length + s.availOut := by
      rw [InflateState.write, List.length_append, List.length_take, Nat.min_eq_left (by omega)]
    rw [left, overflowLits_eq]
    dsimp only
    split
    · exact ⟨fun h => (by cases h), fun h => absurd h.1 (by omega)⟩
    split
    · exact ⟨fun h => (by cases h), fun h => absurd h.1 (by omega)⟩
    · rw [Nat.mod_eq_of_lt small, decodeNonLiteral, if_neg (by omega)]
      split
      · rename_i legal
        rw [decodeRepeat_beyond]
        change (∃ dist behind, _ ∧ (s.write (bytes.take s.availOut)).out.length < dist) ↔ _
        rw [written]
        exact ⟨fun h => ⟨by omega, legal, h⟩, fun h => h.2.2⟩
      · rename_i illegal
        exact ⟨fun h => (by cases h), fun h => absurd h.2.1 illegal⟩

/-- The lookup that `decodeSymbols` makes, when it has found something. -/
theorem decodeSymbols_beyond {r : State} (h : Sim window hidden s r) (state : s.blockState = .coded)
    {nextLits symCount : Nat} {inp : InStream}
    (lookup : decodeNextLitLen s.litHuffCode (inflateInLoad s.toInStream) = (nextLits, symCount, inp)) :
    (decodeSymbols s).1 = some .invalidLookback ↔
      0 < symCount ∧ 0 ≤ inp.readInLength ∧ 256 < nextLits >>> (8 * (symCount - 1)) ∧
        nextLits >>> (8 * (symCount - 1)) ≤ maxLitLenSym ∧
        ∃ dist behind, LooksBack s.distHuffCode inp dist behind ∧ s.out.length + min (symCount - 1) s.availOut < dist := by
  rw [decodeSymbols_eq lookup]
  obtain ⟨views, loaded⟩ := h.views.load
  obtain ⟨codes, final, limit, mode, tables⟩ := h.mode.tables state
  have found := tables.lit _ _ _ views loaded
  rw [lookup] at found
  cases found with
  | found syms total _ chain some_ three width literals left =>
    obtain ⟨lits, p, rfl⟩ : ∃ lits p, syms = lits ++ [p] := ⟨_, _, (List.dropLast_append_getLast some_).symm⟩
    rw [List.dropLast_concat] at literals
    have small := chain.value_le (p := p) (by simp)
    rw [maxLitLenSym] at small
    have count : (literalBytes lits).length = lits.length := List.length_map _
    rw [List.map_append, List.map_singleton, literal_values literals, List.length_append, List.length_singleton, ← count,
      if_neg (by omega), Nat.add_sub_cancel, packed_shift, packed_single]
    by_cases short : inp.readInLength < 0
    · rw [if_pos short]
      exact ⟨fun h => (by cases h), fun h => absurd h.2.1 (by omega)⟩
    · rw [if_neg short, writeSymbols_beyond _ (by omega)]
      exact ⟨fun h => ⟨by omega, by omega, h⟩, fun h => h.2.2⟩
  | missing _ _ _ none left sign =>
    have invalid := missing_invalid (s.withIn (inflateInLoad s.toInStream)) left sign
    refine ⟨fun h => (by cases (congrArg Prod.fst invalid).symm.trans h), fun h => ?_⟩
    rcases sign with rfl | ⟨rfl, rfl⟩
    · exact absurd h.1 (by omega)
    · exact absurd h.2.2.2.1 (by decide)

theorem InflateState.RepeatPending.invalid {r : State} (h : Sim window hidden s r) (pending : s.RepeatPending) :
    (decodeSymbols s).1 = some .invalidLookback := by
  obtain ⟨state, nextLits, symCount, inp, dist, behind, lookup, nonneg, many, low, high, back, beyond⟩ := pending
  refine (decodeSymbols_beyond h state lookup).mpr ⟨by omega, nonneg, low, high, dist, behind, back, ?_⟩
  rwa [Nat.min_eq_right (by omega)]

end Pending

section Call

variable (s : InflateState) (input : List UInt8) (room : Nat)

end Call

end Isal.Inflate
