import Isal.Simulation

/-! One round of the decoding loop: up to three symbols at once, each of which the reference
decoder reads by itself. -/
namespace Isal.Inflate

open Isal.Bits Isal.PrefixCode Isal.Rfc1951

/-- What has overflowed is no more than the last symbols of one entry. -/
structure Spill (s : InflateState) : Prop where
  lits : s.writeOverflowLen ≤ 3
  copy : s.copyOverflowLength ≤ 258
  distance : s.copyOverflowDistance ≤ histSize
  inside : s.copyOverflowDistance ≤ s.out.length
  underway : 0 < s.copyOverflowLength → s.blockState ≠ .inputDone
  noLits : s.writeOverflowLen = 0 → s.writeOverflowLits = 0
  noCopy : s.copyOverflowLength = 0 → s.copyOverflowDistance = 0

theorem Calm.spill {s : InflateState} (calm : Calm s) : Spill s where
  lits := by rw [calm.len]; decide
  copy := by rw [calm.copy]; decide
  distance := by rw [calm.distance]; decide
  inside := by rw [calm.distance]; exact Nat.zero_le _
  underway := by rw [calm.copy]; exact fun none => absurd none (Nat.lt_irrefl 0)
  noLits _ := calm.lits
  noCopy _ := calm.distance

/-- How the decoding of a few symbols ends, next to a run of the reference decoder from `r`;
`saved` is the state at its start. In the last case the distance is checked against the
output without the literals that have found no room. -/
inductive Round (window : Nat) (hidden : List UInt8) (saved : InflateState) (r : State) :
    Option ReturnCode × InflateState → Prop
  | goesOn (s : InflateState) (r' : State) (run : Runs window r r') (sim : Sim window hidden s r') (calm : Calm s)
      (shrinks : r'.bits.length < r.bits.length) (block : s.blockState ≠ .type0) : Round window hidden saved r (none, s)
  | outOverflow (s : InflateState) (r' : State) (run : Runs window r r') (sim : Sim window hidden s r') (spill : Spill s)
      (full : s.availOut = 0) (excess : 0 < s.writeOverflowLen + s.copyOverflowLength) :
      Round window hidden saved r (some .outOverflow, s)
  | endInput (r' : State) (run : Runs window r r') (more : step r' = .more) (within : r'.mode ≠ .header)
      (empty : saved.availIn = 0) :
      Round window hidden saved r (some .endInput, saved)
  | invalidSymbol (s : InflateState) (r' : State) (run : Runs window r r')
      (bad : step r' = .bad ∨ r'.BeyondWindow saved.maxDist) (within : r'.mode ≠ .header) (out : r'.out = s.produced hidden) (spill : Spill s) :
      Round window hidden saved r (some .invalidSymbol, s)
  | invalidLookback (s : InflateState) (r' : State) (run : Runs window r r') (bad : r'.BeyondOutput)
      (out : r'.out = s.produced hidden) (spill : Spill s) : Round window hidden saved r (some .invalidLookback, s)
  | pendingLookback (s : InflateState) (r' : State) (length dist : Nat) (run : Runs window r r')
      (copies : r'.Copies length dist) (full : s.availOut = 0) (beyond : s.out.length < dist)
      (inside : dist ≤ r'.out.length) (few : r'.out.length ≤ s.out.length + 2) (all : hidden = [])
      (out : r'.out = s.produced hidden) (spill : Spill s) :
      Round window hidden saved r (some .invalidLookback, s)

variable {window : Nat} {hidden : List UInt8}

/-- A round may start with steps of the reference decoder alone. -/
theorem Round.after {saved : InflateState} {r r₁ : State} {result : Option ReturnCode × InflateState}
    (first : Runs window r r₁) (le : r₁.bits.length ≤ r.bits.length) (h : Round window hidden saved r₁ result) :
    Round window hidden saved r result := by
  cases h with
  | goesOn s r' run sim calm shrinks block => exact .goesOn s r' (first.trans run) sim calm (by omega) block
  | outOverflow s r' run sim spill full excess => exact .outOverflow s r' (first.trans run) sim spill full excess
  | endInput r' run more within empty => exact .endInput r' (first.trans run) more within empty
  | invalidSymbol s r' run bad within out spill => exact .invalidSymbol s r' (first.trans run) bad within out spill
  | invalidLookback s r' run bad out spill => exact .invalidLookback s r' (first.trans run) bad out spill
  | pendingLookback s r' length dist run copies full beyond inside few all out spill =>
    exact .pendingLookback s r' length dist (first.trans run) copies full beyond inside few all out spill

section Literals

variable {codes : Codes} {final : Bool} {out : List UInt8}

theorem Symbols.split {lens : List Nat} {xs ys : List (Nat × Nat)} {v n : Nat} (h : Symbols lens (xs ++ ys) v n) :
    ∃ a b, n = a + b ∧ Symbols lens xs v a ∧ Symbols lens ys (v / 2 ^ a) b := by
  induction xs generalizing v n with
  | nil => exact ⟨0, n, by simp, .nil, by simpa using h⟩
  | cons x xs ih =>
    cases h with
    | @cons s v m _ legal next rest =>
      obtain ⟨a, b, rfl, first, second⟩ := ih rest
      refine ⟨_, b, ?_, .cons legal next first, ?_⟩
      · omega
      · rwa [Nat.pow_add, Nat.pow_add, ← Nat.div_div_eq_div_mul, ← Nat.div_div_eq_div_mul]

theorem extraWidth_literal {sym : Nat} (literal : sym < 257) : extraWidth sym = 0 := by
  simp [extraWidth, literal]

theorem lenExtra_eq : ∀ j < 29, lenExtraBitCount[j]?.getD 0 = Rfc1951.lenExtra[j]?.getD 0 := by decide

theorem extraWidth_match {sym : Nat} (low : 256 < sym) (legal : sym < 286) :
    extraWidth sym = Rfc1951.lenExtra[sym - 257]?.getD 0 := by
  rw [extraWidth, if_neg (by omega), lenExtra_eq _ (by omega)]

theorem stepWithin_literal {sym : Nat} {bits : List Bool} (valid : Valid codes.lit 15)
    (next : Matches codes.lit sym (bitsVal bits)) (enough : lengthOf codes.lit sym ≤ bits.length) (literal : sym < 256) :
    StepWithin window ⟨.coded codes final, bits, out⟩
      ⟨.coded codes final, bits.drop (lengthOf codes.lit sym), out ++ [UInt8.ofNat sym]⟩ := by
  have token := readToken_literal valid next enough literal
  refine ⟨?_, ?_⟩
  · simp only [step, token, Parse.outcome]
  · rintro length dist ⟨codes', final', rest, mode, parsed⟩
    cases mode
    rw [token] at parsed
    cases parsed

theorem stepWithin_end {bits : List Bool} (valid : Valid codes.lit 15) (next : Matches codes.lit 256 (bitsVal bits))
    (enough : lengthOf codes.lit 256 ≤ bits.length) :
    StepWithin window ⟨.coded codes final, bits, out⟩ ⟨boundary final, bits.drop (lengthOf codes.lit 256), out⟩ := by
  have token := readToken_end valid next enough
  refine ⟨?_, ?_⟩
  · simp only [step, token, Parse.outcome]
  · rintro length dist ⟨codes', final', rest, mode, parsed⟩
    cases mode
    rw [token] at parsed
    cases parsed

/-- The bytes of literal symbols. -/
def literalBytes (syms : List (Nat × Nat)) : List UInt8 := syms.map fun p => UInt8.ofNat p.1

theorem literals_run {syms : List (Nat × Nat)} {bits : List Bool} {total : Nat} (valid : Valid codes.lit 15)
    (chain : Symbols codes.lit syms (bitsVal bits) total) (literals : ∀ p ∈ syms, p.1 < 256)
    (enough : total ≤ bits.length) :
    Runs window ⟨.coded codes final, bits, out⟩
      ⟨.coded codes final, bits.drop total, out ++ literalBytes syms⟩ := by
  induction syms generalizing bits total out with
  | nil =>
    cases chain
    simpa [literalBytes] using Runs.refl _
  | cons p syms ih =>
    cases chain with
    | @cons sym _ n _ legal next rest =>
      have literal : sym < 256 := literals _ List.mem_cons_self
      have noExtra : extraWidth sym = 0 := extraWidth_literal (by omega)
      rw [noExtra, Nat.pow_zero, Nat.div_one, ← bitsVal_drop] at rest
      rw [noExtra] at enough ⊢
      have tail : Runs window ⟨.coded codes final, bits.drop (lengthOf codes.lit sym), out ++ [UInt8.ofNat sym]⟩ _ :=
        ih rest (fun p member => literals p (List.mem_cons_of_mem _ member)) (by simp; omega)
      refine .head (stepWithin_literal valid next (by omega) literal) ?_
      rw [List.drop_drop] at tail
      simpa [literalBytes] using tail

/-- Where the symbols of an entry take more bits than there are, the reference decoder stops too. -/
theorem symbols_short {syms : List (Nat × Nat)} {bits : List Bool} {total : Nat} (valid : Valid codes.lit 15)
    (chain : Symbols codes.lit syms (bitsVal bits) total) (literals : ∀ p ∈ syms.dropLast, p.1 < 256)
    (short : bits.length < total) :
    ∃ r, Runs window ⟨.coded codes final, bits, out⟩ r ∧ step r = .more ∧ r.mode ≠ .header := by
  induction syms generalizing bits total out with
  | nil => cases chain; omega
  | cons p syms ih =>
    cases chain with
    | @cons sym _ n _ legal next rest =>
      by_cases cut : bits.length < lengthOf codes.lit sym
      · refine ⟨_, .refl _, ?_, (by simp)⟩
        simp only [step, readToken_more valid next cut legal, Parse.outcome]
      by_cases literal : sym < 257
      · rw [extraWidth_literal literal, Nat.pow_zero, Nat.div_one, ← bitsVal_drop] at rest
        rw [extraWidth_literal literal] at short
        cases syms with
        | nil => cases rest; omega
        | cons q syms =>
          have byte : sym < 256 := literals (sym, _) (by rw [List.dropLast_cons_cons]; exact List.mem_cons_self)
          obtain ⟨r, run, more⟩ :=
            @ih (out ++ [UInt8.ofNat sym]) _ _ rest
              (fun p member => literals p (by rw [List.dropLast_cons_cons]; exact List.mem_cons_of_mem _ member))
              (by simp; omega)
          exact ⟨r, .head (stepWithin_literal valid next (by omega) byte) run, more⟩
      · have last : syms = [] := by
          cases syms with
          | nil => rfl
          | cons q syms =>
            have byte : sym < 256 := literals (sym, _) (by rw [List.dropLast_cons_cons]; exact List.mem_cons_self)
            omega
        subst last
        cases rest
        have few : (bits.drop (lengthOf codes.lit sym)).length < Rfc1951.lenExtra[sym - 257]?.getD 0 := by
          rw [← extraWidth_match (by omega) legal, List.length_drop]
          omega
        refine ⟨_, .refl _, ?_, (by simp)⟩
        simp only [step, readToken_match valid next (by omega) (by omega) legal, readMatch_more few, Parse.outcome]

end Literals

section Repeat

theorem distExtra_eq : ∀ i < 30, distExtraBitCount[i]?.getD 0 = Rfc1951.distExtra[i]?.getD 0 := by decide

theorem distExtra_le : ∀ i < 30, Rfc1951.distExtra[i]?.getD 0 ≤ 13 := by decide

theorem distStart_eq : ∀ i < 30, distStart[i]?.getD 0 = Rfc1951.distStart[i]?.getD 0 := by decide

theorem distStart_pos : ∀ i < 30, 0 < Rfc1951.distStart[i]?.getD 0 := by decide

theorem loadForCode_buf (s : InStream) : (loadForCode s).buf = s.buf := by
  rw [loadForCode]
  split <;> simp

theorem takeDist_buf (nextSym bitCount : Nat) (s : InStream) : (takeDist nextSym bitCount s).2.buf = s.buf := by
  rw [takeDist]
  split <;> rfl

theorem decodeNextDist_buf (huffCode : LookupTable) (s : InStream) : (decodeNextDist huffCode s).2.buf = s.buf := by
  simp only [decodeNextDist]
  split
  · rw [takeDist_buf, loadForCode_buf]
  · rw [takeDist_buf, loadForCode_buf]

/-- The distance part of a match, as the reference decoder reads it. -/
def readDistance (codes : Codes) (length : Nat) : Get Token := do
  let distSym ← decodeSym codes.dist codes.dist.length
  if 29 < distSym then fail
  else do
    let distExtra ← num (Rfc1951.distExtra[distSym]?.getD 0)
    return .copy length (Rfc1951.distStart[distSym]?.getD 0 + distExtra)

/-- What the decoding of a distance symbol gives, next to the reading of the reference decoder. -/
inductive DistanceRead (codes : Codes) (limit : Nat) (bits : List Bool) : Nat × InStream → Prop
  | reserved (s : InStream) (i : Nat) (rest : List Bool) (ok : decodeSym codes.dist codes.dist.length bits = .ok i rest)
      (beyond : limit ≤ i) (left : 0 ≤ s.readInLength) : DistanceRead codes limit bits (31, s)
  | missing (s : InStream) (bad : decodeSym codes.dist codes.dist.length bits = .bad) (left : 0 ≤ s.readInLength) :
      DistanceRead codes limit bits (31, s)
  | short (i : Nat) (s : InStream) (more : decodeSym codes.dist codes.dist.length bits = .more)
      (few : bits.length < 15) (left : s.readInLength < 0) : DistanceRead codes limit bits (i, s)
  | symbol (i : Nat) (s : InStream) (rest : List Bool) (ok : decodeSym codes.dist codes.dist.length bits = .ok i rest)
      (legal : i < limit) (width : bits.length ≤ rest.length + 15) (views : Views s (bitsVal rest) rest.length) :
      DistanceRead codes limit bits (i, s)

theorem decodeNextDist_read {codes : Codes} {limit : Nat} {lit dist : LookupTable} {s : InStream} {bits : List Bool}
    (tables : Tables codes limit lit dist) (views : Views s (bitsVal bits) bits.length) :
    DistanceRead codes limit bits (decodeNextDist dist s) := by
  have found := tables.dist s _ _ views
  have width := tables.distValid.length_le
  generalize decodeNextDist dist s = result at found
  cases found with
  | symbol i t next legal views =>
    have := width i
    by_cases enough : lengthOf codes.dist i ≤ bits.length
    · exact .symbol i t _ (tables.distValid.decodeSym_ok (used_lt next.used) next enough) legal (by simp; omega)
        (views.drop enough)
    · refine .short i t (tables.distValid.decodeSym_more (used_lt next.used) next (by omega)) (by omega) ?_
      rw [views.negative]
      omega
  | reserved i t next illegal left =>
    have := width i
    by_cases enough : lengthOf codes.dist i ≤ bits.length
    · exact .reserved t i _ (tables.distValid.decodeSym_ok (used_lt next.used) next enough) illegal (by omega)
    · exact .short _ t (tables.distValid.decodeSym_more (used_lt next.used) next (by omega)) (by omega) (by omega)
  | missing t none left =>
    refine .missing t (tables.distValid.decodeSym_bad (fun i _ => none i) ?_) (by omega)
    intro _ i _ reserved _ _ next
    have := used_lt next.used
    omega

/-- What the loop relies on when it decodes a distance: `s` differs from the saved state only
in the stream and in the output, `left` are the bits behind the length. -/
structure AtDistance (window : Nat) (hidden : List UInt8) (saved s : InflateState) (r : State) (codes : Codes)
    (final : Bool) (length : Nat) (left : List Bool) : Prop where
  mode : r.mode = .coded codes final
  token : readToken codes r.bits = readDistance codes length left
  symbols : ∃ sym l e, decodeSym codes.lit 286 r.bits = .ok sym l ∧ 256 < sym ∧
    num (Rfc1951.lenExtra[sym - 257]?.getD 0) l = .ok e left
  positive : 3 ≤ length ∧ length ≤ 258
  place : ModeSim window saved r.mode
  calm : Calm saved
  loaded : Loaded saved.toInStream
  near : saved.readInLength + 8 * saved.availIn ≤ left.length + 21
  views : Views s.toInStream (bitsVal left) left.length
  out : r.out = hidden ++ s.out ++ s.pendingLits
  enough : hidden = [] ∨ histSize ≤ s.out.length
  pending : s.writeOverflowLits = 0 ∧ s.writeOverflowLen = 0 ∨ s.availOut = 0 ∧ 0 < s.writeOverflowLen ∧ s.writeOverflowLen ≤ 2
  same : { s with
    toInStream := saved.toInStream, out := saved.out, availOut := saved.availOut, totalOut := saved.totalOut
    writeOverflowLits := 0, writeOverflowLen := 0 } = saved
  frame : Frame saved s

variable {saved s : InflateState} {r : State} {codes : Codes} {final : Bool} {length : Nat} {left : List Bool}

/-- Reading on gives what `s` gives in the end. -/
theorem AtDistance.withIn (h : AtDistance window hidden saved s r codes final length left) (inp : InStream)
    (buf : inp.buf = s.buf) : Frame saved (s.withIn inp) :=
  h.frame.trans (.of_eq rfl buf rfl rfl rfl)

theorem AtDistance.tables (h : AtDistance window hidden saved s r codes final length left) :
    ∃ limit, Tables codes limit s.litHuffCode s.distHuffCode ∧ saved.maxDist ≤ limit ∧ limit ≤ distLen ∧
      Reaches limit window ∧ saved.blockState = .coded ∧ (saved.bfinal ≠ 0 ↔ final = true) := by
  have place := h.place
  rw [h.mode] at place
  cases place with
  | stored _ _ is_ => exact absurd is_ storedMode_ne
  | coded _ _ limit bfinal state tables bound small reach =>
    have lit := congrArg (·.litHuffCode) h.same
    have dist := congrArg (·.distHuffCode) h.same
    dsimp only at lit dist
    rw [lit, dist]
    exact ⟨limit, tables, bound, small, reach, state, bfinal⟩

theorem AtDistance.modeSim (h : AtDistance window hidden saved s r codes final length left) (inp : InStream) :
    ModeSim window (s.withIn inp) (.coded codes final) := by
  obtain ⟨limit, tables, bound, small, reach, state, bfinal⟩ := h.tables
  have same := h.same
  refine .coded codes final limit ?_ ?_ tables ?_ small reach
  · rwa [← same] at bfinal
  · rwa [← same] at state
  · rwa [← same] at bound

theorem AtDistance.coded (h : AtDistance window hidden saved s r codes final length left) : r.mode ≠ .header := by
  rw [h.mode]
  simp

theorem AtDistance.legal (h : AtDistance window hidden saved s r codes final length left) : r.Legal := by
  obtain ⟨limit, tables, -⟩ := h.tables
  intro codes' final' mode
  rw [h.mode] at mode
  cases mode
  exact ⟨tables.litValid, tables.distValid⟩

theorem AtDistance.produced (h : AtDistance window hidden saved s r codes final length left) (inp : InStream) :
    r.out = (s.withIn inp).produced hidden := by
  have none : s.copyOverflowLength = 0 := (congrArg (·.copyOverflowLength) h.same).trans h.calm.copy
  change r.out = Rfc1951.copyMatch s.copyOverflowDistance s.copyOverflowLength (hidden ++ s.out ++ s.pendingLits)
  rw [none, h.out]
  rfl

theorem AtDistance.spill (h : AtDistance window hidden saved s r codes final length left) (inp : InStream) :
    Spill (s.withIn inp) := by
  have none : s.copyOverflowLength = 0 := (congrArg (·.copyOverflowLength) h.same).trans h.calm.copy
  have distance : s.copyOverflowDistance = 0 := (congrArg (·.copyOverflowDistance) h.same).trans h.calm.distance
  refine ⟨?_, ?_, ?_, ?_, ?_, ?_, fun _ => distance⟩
  · have := h.pending
    change s.writeOverflowLen ≤ 3
    omega
  · exact none.le.trans (Nat.zero_le _)
  · exact distance.le.trans (Nat.zero_le _)
  · exact distance.le.trans (Nat.zero_le _)
  · exact fun some_ => absurd none (Nat.ne_of_gt some_)
  · change s.writeOverflowLen = 0 → s.writeOverflowLits = 0
    rcases h.pending with ⟨lits, -⟩ | ⟨-, some_, -⟩
    · exact fun _ => lits
    · exact fun empty => absurd empty (Nat.ne_of_gt some_)

/-- What a repeat length whose distance is cut off leads back to. -/
theorem AtDistance.restore (h : AtDistance window hidden saved s r codes final length left) (inp : InStream)
    (buf : inp.buf = s.buf) :
    { saved.restore (s.withIn inp) with
      out := saved.out, availOut := saved.availOut, totalOut := saved.totalOut
      writeOverflowLits := 0, writeOverflowLen := 0 } = saved := by
  have same := h.same
  have frame := h.frame.buf
  rw [← same, InflateState.restore]
  simp only [InflateState.withIn, InflateState.mk.injEq, and_true]
  rw [buf, frame]

theorem decodeRepeat_invalid {nextLit : Nat} {inp : InStream}
    (found : decodeNextDist s.distHuffCode s.toInStream = (31, inp)) (nonneg : 0 ≤ inp.readInLength) :
    decodeRepeat saved nextLit s = (some .invalidSymbol, s.withIn inp) := by
  simp only [decodeRepeat, found]
  exact if_pos ⟨nonneg, by decide⟩

theorem decodeRepeat_short {nextLit i : Nat} {inp : InStream}
    (found : decodeNextDist s.distHuffCode s.toInStream = (i, inp)) (negative : inp.readInLength < 0) :
    decodeRepeat saved nextLit s = (some .endInput, { saved.restore (s.withIn inp) with
      out := saved.out, availOut := saved.availOut, totalOut := saved.totalOut
      writeOverflowLits := 0, writeOverflowLen := 0 }) := by
  have below : ¬0 ≤ (s.withIn inp).readInLength := Int.not_le.mpr negative
  simp only [decodeRepeat, found, below, false_and, if_false]
  exact if_pos negative

theorem decodeRepeat_symbol {nextLit i : Nat} {inp : InStream}
    (found : decodeNextDist s.distHuffCode s.toInStream = (i, inp)) (nonneg : 0 ≤ inp.readInLength) (legal : i < 30) :
    decodeRepeat saved nextLit s =
      let (extra, inp') := inflateInReadBits (Rfc1951.distExtra[i]?.getD 0) inp
      if inp'.readInLength < 0 then (some .endInput, { saved.restore (s.withIn inp') with
        out := saved.out, availOut := saved.availOut, totalOut := saved.totalOut
        writeOverflowLits := 0, writeOverflowLen := 0 })
      else copyRepeat (nextLit - 254) (Rfc1951.distStart[i]?.getD 0 + extra) (s.withIn inp') := by
  have above : 0 ≤ (s.withIn inp).readInLength := nonneg
  have low : ¬distLen ≤ i := by rw [distLen]; omega
  simp only [decodeRepeat, found, above, low, and_false, if_false, if_true, distExtra_eq i legal, distStart_eq i legal]
  rfl

theorem num_more_short {k : Nat} {bits : List Bool} (h : num k bits = .more) : bits.length < k := by
  by_contra enough
  rw [num_ok (by omega)] at h
  cases h

/-- A copy as far as there is room; the rest of it is what overflows. -/
theorem copyRepeat_eq {dist : Nat} {t : InflateState} (clear : t.copyOverflowLength = 0) (inside : dist ≤ t.out.length) :
    copyRepeat length dist t =
      if t.availOut < length then (some .outOverflow, { t with
        out := Rfc1951.copyMatch dist t.availOut t.out, availOut := 0, totalOut := t.totalOut + .ofNat t.availOut
        copyOverflowLength := length - t.availOut, copyOverflowDistance := dist })
      else (none, { t with
        out := Rfc1951.copyMatch dist length t.out, availOut := t.availOut - length
        totalOut := t.totalOut + .ofNat length }) := by
  rw [copyRepeat, if_neg (by omega)]
  by_cases full : t.availOut < length
  · have more : 0 < length - t.availOut := by omega
    simp only [full, if_true, Nat.min_eq_right (Nat.le_of_lt full), Nat.sub_self, more, copyMatch_ref inside]
  · simp only [full, if_false, Nat.min_eq_left (Nat.le_of_not_lt full), clear, Nat.lt_irrefl, copyMatch_ref inside]

theorem copyRepeat_spec (h : AtDistance window hidden saved s r codes final length left) {inp : InStream}
    {rest : List Bool} {dist : Nat} (buf : inp.buf = s.buf) (views : Views inp (bitsVal rest) rest.length)
    (parsed : readToken codes r.bits = .ok (.copy length dist) rest) (within : dist ≤ window) :
    Round window hidden saved r (copyRepeat length dist (s.withIn inp)) ∧
      Frame saved (copyRepeat length dist (s.withIn inp)).2 := by
  have copies : r.Copies length dist := ⟨codes, final, rest, h.mode, parsed⟩
  have far := copies.dist_le
  have produced := h.produced inp
  have spill := h.spill inp
  have frame := h.withIn inp buf
  have mode := h.modeSim inp
  have coded := mode.notStored
  have out : r.out = hidden ++ (s.withIn inp).out ++ (s.withIn inp).pendingLits := h.out
  have enough : hidden = [] ∨ histSize ≤ (s.withIn inp).out.length := h.enough
  have pending : (s.withIn inp).writeOverflowLits = 0 ∧ (s.withIn inp).writeOverflowLen = 0 ∨
    (s.withIn inp).availOut = 0 ∧ 0 < (s.withIn inp).writeOverflowLen ∧ (s.withIn inp).writeOverflowLen ≤ 2 := h.pending
  have clear : (s.withIn inp).copyOverflowLength = 0 := (congrArg (·.copyOverflowLength) h.same).trans h.calm.copy
  have none : (s.withIn inp).copyOverflowDistance = 0 := (congrArg (·.copyOverflowDistance) h.same).trans h.calm.distance
  have positive := h.positive
  change Views (s.withIn inp).toInStream _ _ at views
  generalize s.withIn inp = t at *
  have lits : t.pendingLits.length = t.writeOverflowLen := toLeBytes_length _ _
  by_cases beyond : t.out.length < dist
  · rw [copyRepeat, if_pos beyond]
    refine ⟨?_, frame⟩
    have all : hidden = [] := enough.resolve_right (by simp only [histSize]; omega)
    by_cases before : r.out.length < dist
    · exact .invalidLookback t r (.refl _) ⟨length, dist, copies, before⟩ produced spill
    · have some_ : t.writeOverflowLen ≠ 0 := by
        intro empty
        rw [out, all, List.nil_append, List.length_append, lits, empty] at before
        omega
      have few : r.out.length ≤ t.out.length + 2 := by
        rw [out, all, List.nil_append, List.length_append, lits]
        omega
      exact .pendingLookback t r length dist (.refl _) copies (by omega) beyond (by omega) few all produced spill
  · rw [copyRepeat_eq clear (by omega)]
    have inside : dist ≤ r.out.length := by
      rw [out, List.length_append, List.length_append]
      omega
    have next : StepWithin window r ⟨r.mode, rest, Rfc1951.copyMatch dist length r.out⟩ := by
      refine ⟨?_, ?_⟩
      · rw [step, h.mode]
        simp only [parsed, Parse.outcome]
        exact if_neg (by omega)
      · rintro length' dist' ⟨codes', final', rest', mode', parsed'⟩
        rw [h.mode] at mode'
        cases mode'
        rw [parsed] at parsed'
        cases parsed'
        exact within
    have shrinks : rest.length < r.bits.length := (step_progress h.legal next.1).1
    rw [h.mode] at next
    by_cases full : t.availOut < length
    · rw [if_pos full]
      obtain ⟨copied, whole, count⟩ := copyMatch_eq dist t.availOut t.out
      refine ⟨.outOverflow _ _ (.single next) ⟨views, ?_, ?_, mode.unwritten rfl⟩ ?_ rfl ?_, frame.trans ?_⟩
      · change Rfc1951.copyMatch dist length r.out =
          Rfc1951.copyMatch dist (length - t.availOut) (hidden ++ Rfc1951.copyMatch dist t.availOut t.out ++ t.pendingLits)
        rcases pending with ⟨-, empty⟩ | ⟨none, -⟩
        · have nothing : t.pendingLits = [] := List.length_eq_zero_iff.mp (lits.trans empty)
          rw [out, nothing, List.append_nil, List.append_nil, ← copyMatch_hidden hidden (by omega), ← copyMatch_add,
            Nat.add_sub_cancel' (Nat.le_of_lt full)]
        · rw [none, out]
          rfl
      · refine enough.imp id fun long => Nat.le_trans long ?_
        simp [copyMatch_length]
      · refine ⟨spill.lits, ?_, far, ?_, fun _ => mode.notDone, spill.noLits, fun none => ?_⟩
        · change length - t.availOut ≤ 258
          omega
        · change dist ≤ (Rfc1951.copyMatch dist t.availOut t.out).length
          rw [copyMatch_length]
          omega
        · change length - t.availOut = 0 at none
          omega
      · change 0 < t.writeOverflowLen + (length - t.availOut)
        omega
      · refine .of_written rfl whole ?_ ?_
        · rw [count, Nat.zero_add]
        · rw [count]
    · rw [if_neg full]
      obtain ⟨copied, whole, count⟩ := copyMatch_eq dist length t.out
      obtain ⟨noLits, noLen⟩ := pending.resolve_right (by omega)
      have nothing : t.pendingLits = [] := List.length_eq_zero_iff.mp (lits.trans noLen)
      have calm : Calm { t with
          out := Rfc1951.copyMatch dist length t.out, availOut := t.availOut - length
          totalOut := t.totalOut + .ofNat length } := ⟨noLits, noLen, clear, none⟩
      refine ⟨.goesOn _ _ (.single next) ⟨views, ?_, ?_, mode.unwritten rfl⟩ calm shrinks coded, frame.trans ?_⟩
      · rw [calm.produced]
        change Rfc1951.copyMatch dist length r.out = hidden ++ Rfc1951.copyMatch dist length t.out
        rw [out, nothing, List.append_nil, copyMatch_hidden hidden (by omega)]
      · refine enough.imp id fun long => Nat.le_trans long ?_
        simp [copyMatch_length]
      · refine .of_written rfl whole ?_ ?_
        · rw [count]
          change t.availOut - length + length = t.availOut
          omega
        · rw [count]

theorem decodeRepeat_spec (h : AtDistance window hidden saved s r codes final length left) :
    Round window hidden saved r (decodeRepeat saved (length + 254) s) ∧
      Frame saved (decodeRepeat saved (length + 254) s).2 := by
  obtain ⟨limit, tables, bound, small, reach, state, bfinal⟩ := h.tables
  have read := decodeNextDist_read tables h.views
  have buf := decodeNextDist_buf s.distHuffCode s.toInStream
  have onward := fun parsed (read : readDistance codes length left = parsed) => step_coded h.mode (h.token.trans read)
  generalize found : decodeNextDist s.distHuffCode s.toInStream = result at read buf
  cases read with
  | reserved inp i rest ok beyond nonneg =>
    rw [decodeRepeat_invalid found nonneg]
    refine ⟨.invalidSymbol _ r (.refl _) ?_ h.coded (h.produced inp) (h.spill inp), h.withIn inp buf⟩
    by_cases legal : i < 30
    · obtain ⟨sym, l, e, first, low, second⟩ := h.symbols
      exact Or.inr ⟨codes, final, sym, l, left, rest, e, i, h.mode, first, low, second, ok, by omega, legal⟩
    · refine Or.inl (onward .bad ?_)
      rw [readDistance, bind_ok ok, if_pos (by omega)]
      rfl
  | missing inp bad nonneg =>
    rw [decodeRepeat_invalid found nonneg]
    refine ⟨.invalidSymbol _ r (.refl _) (Or.inl (onward .bad ?_)) h.coded (h.produced inp) (h.spill inp),
      h.withIn inp buf⟩
    rw [readDistance, bind_bad bad]
  | short i inp more few negative =>
    rw [decodeRepeat_short found negative, h.restore inp buf]
    refine ⟨.endInput r (.refl _) (onward .more ?_) h.coded ?_, .refl _⟩
    · rw [readDistance, bind_more more]
    · have near := h.near
      rcases h.loaded with many | none
      · omega
      · exact none
  | symbol i inp rest ok legal width views =>
    have legal30 : i < 30 := Nat.lt_of_lt_of_le legal small
    have nonneg : 0 ≤ inp.readInLength := by
      have := views.negative
      omega
    rw [decodeRepeat_symbol found nonneg legal30, Nat.add_sub_cancel]
    have bits := distExtra_le i legal30
    have buf' := readBits_buf (Rfc1951.distExtra[i]?.getD 0) inp
    dsimp only
    rcases readBits_num views (k := Rfc1951.distExtra[i]?.getD 0) (by omega) with ⟨ok', views⟩ | ⟨short, excess⟩
    · have value := num_lt ok'
      generalize inflateInReadBits (Rfc1951.distExtra[i]?.getD 0) inp = field at ok' views buf' value ⊢
      have nonneg' : ¬field.2.readInLength < 0 := by
        rw [views.negative]
        omega
      rw [if_neg nonneg']
      have reached := reach i legal
      refine copyRepeat_spec h (buf'.trans buf) views ?_ (by omega)
      rw [h.token, readDistance, bind_ok ok, if_neg (by omega), bind_ok ok', pure_eq]
    · rw [if_pos excess.negative, h.restore _ (buf'.trans buf)]
      refine ⟨.endInput r (.refl _) (onward .more ?_) h.coded ?_, .refl _⟩
      · rw [readDistance, bind_ok ok, if_neg (by omega), bind_more short]
      · have near := h.near
        have few := num_more_short short
        rcases h.loaded with many | none
        · omega
        · exact none

end Repeat

section Write

theorem write_nil (s : InflateState) : s.write [] = s := by
  simp [InflateState.write]

theorem write_write (s : InflateState) (xs ys : List UInt8) : (s.write xs).write ys = s.write (xs ++ ys) := by
  simp only [InflateState.write, List.append_assoc, List.length_append, UInt32.add_assoc, UInt32.ofNat_add, Nat.sub_sub]

theorem packed_single (val : Nat) : packed [val] = val := by simp [packed]

/-- Literals are written one by one as long as there is room. -/
theorem writeSymbols_eq (saved : InflateState) (bytes : List UInt8) (val : Nat) (s : InflateState) :
    writeSymbols saved (bytes.length + 1) (packed (bytes.map UInt8.toNat ++ [val])) s =
      if bytes.length ≤ s.availOut then writeSymbols saved 1 val (s.write bytes)
      else overflowLits saved (bytes.length + 1 - s.availOut)
        (packed ((bytes.drop s.availOut).map UInt8.toNat ++ [val])) (s.write (bytes.take s.availOut)) := by
  induction bytes generalizing s with
  | nil => simp [write_nil, packed_single]
  | cons byte bytes ih =>
    have first : packed ((byte :: bytes).map UInt8.toNat ++ [val]) =
        byte.toNat + packed (bytes.map UInt8.toNat ++ [val]) * 2 ^ 8 := packed_cons_or _ _
    have rest : packed ((byte :: bytes).map UInt8.toNat ++ [val]) >>> 8 = packed (bytes.map UInt8.toNat ++ [val]) := by
      rw [first, Nat.shiftRight_eq_div_pow]
      have := byte.toNat_lt
      omega
    have low : UInt8.ofNat (packed ((byte :: bytes).map UInt8.toNat ++ [val]) % 2 ^ 16) = byte := by
      apply UInt8.toNat_inj.mp
      rw [UInt8.toNat_ofNat', Nat.mod_mod_of_dvd _ (by decide), first, Nat.add_mul_mod_self_right,
        Nat.mod_eq_of_lt byte.toNat_lt]
    rw [List.length_cons, writeSymbols, if_pos (Or.inr (Nat.succ_pos _))]
    by_cases room : s.availOut < 1
    · have none : s.availOut = 0 := by omega
      rw [if_pos room, if_neg (by omega), none, List.drop_zero, List.take_zero, write_nil]
      rfl
    · obtain ⟨a, some_⟩ : ∃ a, s.availOut = a + 1 := ⟨s.availOut - 1, by omega⟩
      have left : (s.write [byte]).availOut = a := by simp [InflateState.write, some_]
      rw [if_neg room, rest, low, ih, left, some_, write_write, write_write, List.drop_succ_cons, List.take_succ_cons,
        Nat.add_sub_add_right]
      simp only [Nat.add_le_add_iff_right, List.singleton_append]

/-- What the entry leaves over when its literals have no room. -/
theorem overflowLits_eq (saved : InflateState) (bytes : List UInt8) (val : Nat) (s : InflateState) :
    overflowLits saved (bytes.length + 1) (packed (bytes.map UInt8.toNat ++ [val])) s =
      let s := { s with writeOverflowLits := packed (bytes.map UInt8.toNat ++ [val]), writeOverflowLen := bytes.length + 1 }
      if val < 256 then (some .outOverflow, s)
      else
        let s := { s with writeOverflowLen := bytes.length }
        if val = 256 then (some .outOverflow, s.endBlock) else decodeNonLiteral saved (val % 2 ^ 16) s := by
  simp only [overflowLits, Nat.add_sub_cancel, packed_shift, packed_single]

theorem writeSymbols_literal (saved s : InflateState) {val : Nat} (literal : val < 256) :
    writeSymbols saved 1 val s =
      if s.availOut < 1 then (some .outOverflow, { s with writeOverflowLits := val, writeOverflowLen := 1 })
      else (none, s.write [UInt8.ofNat val]) := by
  have small : val % 2 ^ 16 = val := Nat.mod_eq_of_lt (by omega)
  have excess := overflowLits_eq saved [] val s
  rw [List.map_nil, List.nil_append, packed_single, List.length_nil, if_pos literal] at excess
  rw [writeSymbols, small, if_pos (Or.inl literal), excess, writeSymbols]

theorem writeSymbols_end (saved s : InflateState) : writeSymbols saved 1 256 s = (none, s.endBlock) := rfl

theorem writeSymbols_match (saved s : InflateState) {val : Nat} (low : 256 < val) (high : val ≤ 512) :
    writeSymbols saved 1 val s = decodeRepeat saved val s := by
  have small : val % 2 ^ 16 = val := Nat.mod_eq_of_lt (by omega)
  rw [writeSymbols, small, if_neg (by omega), decodeNonLiteral, if_neg (by omega),
    if_pos (show val ≤ maxLitLenSym from high)]
  generalize decodeRepeat saved val s = result
  obtain ⟨ret, t⟩ := result
  cases ret <;> rfl

theorem writeSymbols_illegal (saved s : InflateState) {val : Nat} (high : 512 < val) (small : val < 2 ^ 16) :
    writeSymbols saved 1 val s = (some .invalidSymbol, s) := by
  rw [writeSymbols, Nat.mod_eq_of_lt small, if_neg (by omega), decodeNonLiteral, if_neg (by omega),
    if_neg (show ¬val ≤ maxLitLenSym by rw [maxLitLenSym]; omega)]

end Write

section Last

variable {saved s : InflateState} {r : State} {codes : Codes} {final : Bool} {sym : Nat}

/-- The last symbol of an entry is to be dealt with: the literals before it are written or
pending, the stream of `s` is behind it already, that of `r` is not. -/
structure AtLast (window : Nat) (hidden : List UInt8) (saved s : InflateState) (r : State) (codes : Codes)
    (final : Bool) (sym : Nat) : Prop where
  mode : r.mode = .coded codes final
  place : ModeSim window saved r.mode
  calm : Calm saved
  loaded : Loaded saved.toInStream
  legal : sym < 286
  next : Matches codes.lit sym (bitsVal r.bits)
  fits : lengthOf codes.lit sym + extraWidth sym ≤ r.bits.length
  near : saved.readInLength + 8 * saved.availIn + lengthOf codes.lit sym + extraWidth sym ≤ r.bits.length + 21
  views : Views s.toInStream (bitsVal (r.bits.drop (lengthOf codes.lit sym + extraWidth sym)))
    (r.bits.drop (lengthOf codes.lit sym + extraWidth sym)).length
  out : r.out = hidden ++ s.out ++ s.pendingLits
  enough : hidden = [] ∨ histSize ≤ s.out.length
  pending : s.writeOverflowLits = 0 ∧ s.writeOverflowLen = 0 ∨ s.availOut = 0 ∧ 0 < s.writeOverflowLen ∧ s.writeOverflowLen ≤ 2
  same : { s with
    toInStream := saved.toInStream, out := saved.out, availOut := saved.availOut, totalOut := saved.totalOut
    writeOverflowLits := 0, writeOverflowLen := 0 } = saved
  frame : Frame saved s

theorem lenStart_max : ∀ j < 29, Rfc1951.lenStart[j]?.getD 0 + 2 ^ Rfc1951.lenExtra[j]?.getD 0 ≤ 259 := by decide

theorem AtLast.valid (h : AtLast window hidden saved s r codes final sym) : Valid codes.lit 15 := by
  have place := h.place
  rw [h.mode] at place
  cases place with
  | stored _ _ is_ => exact absurd is_ storedMode_ne
  | coded _ _ limit bfinal state tables bound small reach => exact tables.litValid

/-- A length symbol leads to the distance. -/
theorem AtLast.atDistance (h : AtLast window hidden saved s r codes final sym) (low : 256 < sym) :
    ∃ e, e = bitsVal r.bits / 2 ^ lengthOf codes.lit sym % 2 ^ extraWidth sym ∧
      AtDistance window hidden saved s r codes final (Rfc1951.lenStart[sym - 257]?.getD 0 + e)
        (r.bits.drop (lengthOf codes.lit sym + extraWidth sym)) := by
  have valid := h.valid
  have fits := h.fits
  have width := extraWidth_match low h.legal
  refine ⟨_, rfl, ?_⟩
  have first := valid.decodeSym_ok h.legal h.next (by omega)
  have second : num (extraWidth sym) (r.bits.drop (lengthOf codes.lit sym)) = _ := num_ok (by simp; omega)
  rw [bitsVal_drop, List.drop_drop] at second
  have small := Nat.mod_lt (bitsVal r.bits / 2 ^ lengthOf codes.lit sym) (Nat.two_pow_pos (extraWidth sym))
  have bounds := lenStart_max (sym - 257) (by have := h.legal; omega)
  have least := le_lenStart (sym - 257) (by have := h.legal; omega)
  generalize bitsVal r.bits / 2 ^ lengthOf codes.lit sym % 2 ^ extraWidth sym = e at second small
  refine {
    mode := h.mode, place := h.place, calm := h.calm, loaded := h.loaded, views := h.views, out := h.out
    enough := h.enough, pending := h.pending, same := h.same, frame := h.frame
    token := ?_, symbols := ?_, positive := ?_, near := ?_ }
  · rw [readToken_match valid h.next (by omega) low h.legal, readMatch, ← width, bind_ok second]
    rfl
  · exact ⟨sym, _, e, first, low, width ▸ second⟩
  · rw [← width] at bounds
    omega
  · have near := h.near
    rw [List.length_drop, Int.ofNat_sub fits]
    omega

theorem AtLast.modeSim (h : AtLast window hidden saved s r codes final sym) : ModeSim window s r.mode := by
  have place := h.place
  have same := h.same
  rw [h.mode] at place ⊢
  cases place with
  | stored _ _ is_ => exact absurd is_ storedMode_ne
  | coded _ _ limit bfinal state tables bound small reach =>
    rw [← same] at bfinal state tables bound
    exact .coded codes final limit bfinal state tables bound small reach

theorem endBlock_state (s : InflateState) : s.endBlock.blockState ≠ .type0 := by
  rw [InflateState.endBlock]
  dsimp only
  split <;> simp

/-- The state a block ends in is where the next one starts. -/
theorem endBlock_modeSim {m : Mode} (h : s.bfinal ≠ 0 ↔ final = true) (is_ : m = boundary final) :
    ModeSim window s.endBlock m := by
  subst is_
  cases final with
  | true => exact .done (if_pos (h.mpr rfl))
  | false => exact .header (if_neg fun nonzero => Bool.false_ne_true (h.mp nonzero))

theorem AtLast.literal (h : AtLast window hidden saved s r codes final sym) (literal : sym < 256) :
    StepWithin window r
      ⟨r.mode, r.bits.drop (lengthOf codes.lit sym + extraWidth sym), r.out ++ [UInt8.ofNat sym]⟩ := by
  have step : StepWithin window ⟨.coded codes final, r.bits, r.out⟩ _ :=
    stepWithin_literal h.valid h.next (by have := h.fits; omega) literal
  rw [extraWidth_literal (by omega), Nat.add_zero]
  obtain ⟨mode, bits, out⟩ := r
  obtain rfl : mode = .coded codes final := h.mode
  exact step

theorem AtLast.end_ (h : AtLast window hidden saved s r codes final 256) :
    StepWithin window r ⟨boundary final, r.bits.drop (lengthOf codes.lit 256 + extraWidth 256), r.out⟩ := by
  have step : StepWithin window ⟨.coded codes final, r.bits, r.out⟩ _ :=
    stepWithin_end h.valid h.next (by have := h.fits; omega)
  rw [extraWidth_literal (by decide), Nat.add_zero]
  obtain ⟨mode, bits, out⟩ := r
  obtain rfl : mode = .coded codes final := h.mode
  exact step

theorem AtLast.shrinks (h : AtLast window hidden saved s r codes final sym) :
    (r.bits.drop (lengthOf codes.lit sym + extraWidth sym)).length < r.bits.length := by
  have := h.next.used
  have := h.fits
  rw [List.length_drop]
  omega

theorem AtLast.clear (h : AtLast window hidden saved s r codes final sym) :
    s.copyOverflowLength = 0 ∧ s.copyOverflowDistance = 0 :=
  ⟨(congrArg (·.copyOverflowLength) h.same).trans h.calm.copy,
    (congrArg (·.copyOverflowDistance) h.same).trans h.calm.distance⟩

theorem AtLast.bfinal (h : AtLast window hidden saved s r codes final sym) : s.bfinal ≠ 0 ↔ final = true := by
  have mode := h.modeSim
  rw [h.mode] at mode
  cases mode with
  | stored _ _ is_ => exact absurd is_ storedMode_ne
  | coded _ _ limit bfinal state tables bound small reach => exact bfinal

/-- The last symbol of an entry when all before it has been written. -/
theorem AtLast.writeSymbols (h : AtLast window hidden saved s r codes final sym)
    (empty : s.writeOverflowLits = 0 ∧ s.writeOverflowLen = 0) {e : Nat}
    (extra : e = bitsVal r.bits / 2 ^ lengthOf codes.lit sym % 2 ^ extraWidth sym) :
    Round window hidden saved r (writeSymbols saved 1 (litValue sym e) s) ∧
      Frame saved (writeSymbols saved 1 (litValue sym e) s).2 := by
  obtain ⟨clear, none⟩ := h.clear
  have calm : Calm s := ⟨empty.1, empty.2, clear, none⟩
  have mode := h.modeSim
  have coded : s.blockState ≠ .type0 := (h.mode ▸ mode).notStored
  have out : r.out = hidden ++ s.out := by
    have whole := h.out
    rwa [InflateState.pendingLits, empty.2, toLeBytes, List.append_nil] at whole
  by_cases literal : sym < 256
  · rw [litValue, if_pos (by omega), writeSymbols_literal saved s literal]
    have byte : toLeBytes sym 1 = [UInt8.ofNat sym] := rfl
    by_cases full : s.availOut < 1
    · rw [if_pos full]
      refine ⟨.outOverflow _ _ (.single (h.literal literal)) ⟨h.views, ?_, h.enough, mode.unwritten rfl⟩
        ⟨show 1 ≤ 3 by decide, clear.le.trans (Nat.zero_le _), none.le.trans (Nat.zero_le _), none.le.trans (Nat.zero_le _),
          fun some_ => absurd clear (Nat.ne_of_gt some_), fun none => absurd none (by simp), fun _ => none⟩
        (by change s.availOut = 0; omega) (by simp), h.frame.trans (.of_eq rfl rfl rfl rfl rfl)⟩
      change r.out ++ [UInt8.ofNat sym] =
        Rfc1951.copyMatch s.copyOverflowDistance s.copyOverflowLength (hidden ++ s.out ++ toLeBytes sym 1)
      rw [clear, byte, out]
      rfl
    · rw [if_neg full]
      have calm : Calm (s.write [UInt8.ofNat sym]) := ⟨empty.1, empty.2, clear, none⟩
      refine ⟨.goesOn _ _ (.single (h.literal literal)) ⟨h.views, ?_, ?_, mode.unwritten rfl⟩ calm h.shrinks coded,
        h.frame.trans (.of_written rfl rfl ?_ rfl)⟩
      · rw [calm.produced, out, List.append_assoc]
        rfl
      · refine h.enough.imp id fun long => Nat.le_trans long ?_
        simp [InflateState.write]
      · change s.availOut - 1 + 1 = s.availOut
        omega
  by_cases last : sym = 256
  · subst last
    rw [litValue, if_pos (by decide), writeSymbols_end]
    have calm : Calm s.endBlock := ⟨empty.1, empty.2, clear, none⟩
    refine ⟨.goesOn _ _ (.single h.end_) ⟨h.views, ?_, h.enough, endBlock_modeSim h.bfinal rfl⟩ calm h.shrinks (endBlock_state _),
      h.frame.trans (.of_eq rfl rfl rfl rfl rfl)⟩
    rw [calm.produced, out]
    rfl
  · obtain ⟨e', same, atDistance⟩ := h.atDistance (by omega)
    obtain rfl : e = e' := extra.trans same.symm
    have positive := atDistance.positive
    rw [litValue, if_neg (by omega), writeSymbols_match saved s (by omega) (by omega)]
    exact decodeRepeat_spec atDistance

/-- The last symbol of an entry when there was no room for the literals before it. -/
theorem AtLast.overflowLits {bytes : List UInt8} {val e : Nat}
    (h : AtLast window hidden saved
      { s with writeOverflowLits := packed (bytes.map UInt8.toNat ++ [val]), writeOverflowLen := bytes.length } r codes final sym)
    (full : s.availOut = 0) (some_ : bytes ≠ [])
    (extra : e = bitsVal r.bits / 2 ^ lengthOf codes.lit sym % 2 ^ extraWidth sym) (value : val = litValue sym e) :
    Round window hidden saved r
        (overflowLits saved (bytes.length + 1) (packed (bytes.map UInt8.toNat ++ [val])) s) ∧
      Frame saved (overflowLits saved (bytes.length + 1) (packed (bytes.map UInt8.toNat ++ [val])) s).2 := by
  obtain ⟨clear, none⟩ := h.clear
  change s.copyOverflowLength = 0 at clear
  change s.copyOverflowDistance = 0 at none
  have few : bytes.length ≤ 2 := by
    rcases h.pending with ⟨-, empty⟩ | ⟨-, -, few⟩
    · exact absurd (List.length_eq_zero_iff.mp empty) some_
    · exact few
  have positive := List.length_pos_iff.mpr some_
  have pending : toLeBytes (packed (bytes.map UInt8.toNat ++ [val])) bytes.length = bytes := toLeBytes_packed bytes [val]
  have out : r.out = hidden ++ s.out ++ bytes := by
    have whole := h.out
    rwa [InflateState.pendingLits, pending] at whole
  have mode := h.modeSim
  rw [overflowLits_eq]
  by_cases literal : sym < 256
  · rw [litValue, if_pos (by omega)] at value
    subst value
    rw [if_pos literal]
    have whole : toLeBytes (packed (bytes.map UInt8.toNat ++ [val])) (bytes.length + 1) = bytes ++ [UInt8.ofNat val] := by
      have bytes_ := toLeBytes_packed (bytes ++ [UInt8.ofNat val]) []
      rw [List.map_append, List.append_nil, List.length_append] at bytes_
      rwa [List.map_singleton, UInt8.toNat_ofNat', Nat.mod_eq_of_lt literal] at bytes_
    refine ⟨.outOverflow _ _ (.single (h.literal literal)) ⟨h.views, ?_, h.enough, mode.unwritten rfl⟩
      ⟨show bytes.length + 1 ≤ 3 by omega, clear.le.trans (Nat.zero_le _), none.le.trans (Nat.zero_le _),
        none.le.trans (Nat.zero_le _), fun some_ => absurd clear (Nat.ne_of_gt some_), fun none => absurd none (by simp), fun _ => none⟩ full (by simp), h.frame.trans (.of_eq rfl rfl rfl rfl rfl)⟩
    change r.out ++ [UInt8.ofNat val] = Rfc1951.copyMatch s.copyOverflowDistance s.copyOverflowLength
      (hidden ++ s.out ++ toLeBytes (packed (bytes.map UInt8.toNat ++ [val])) (bytes.length + 1))
    rw [clear, whole, out]
    simp [Rfc1951.copyMatch]
  by_cases last : sym = 256
  · subst last
    obtain rfl : val = 256 := value
    refine ⟨.outOverflow _ _ (.single h.end_) ⟨h.views, ?_, h.enough, endBlock_modeSim h.bfinal rfl⟩
      ⟨show bytes.length ≤ 3 by omega, clear.le.trans (Nat.zero_le _), none.le.trans (Nat.zero_le _),
        none.le.trans (Nat.zero_le _), fun some_ => absurd clear (Nat.ne_of_gt some_), fun none => absurd none (Nat.ne_of_gt positive),
        fun _ => none⟩ full (Nat.add_pos_left positive _), h.frame.trans (.of_eq rfl rfl rfl rfl rfl)⟩
    change r.out = Rfc1951.copyMatch s.copyOverflowDistance s.copyOverflowLength
      (hidden ++ s.out ++ toLeBytes (packed (bytes.map UInt8.toNat ++ [256])) bytes.length)
    rw [clear, pending, out]
    rfl
  · obtain ⟨e', same, atDistance⟩ := h.atDistance (by omega)
    obtain rfl : e = e' := extra.trans same.symm
    have bounds := atDistance.positive
    rw [litValue, if_neg (by omega)] at value
    rw [if_neg (by omega), if_neg (by omega), Nat.mod_eq_of_lt (by omega), decodeNonLiteral, if_neg (by omega),
      if_pos (show val ≤ maxLitLenSym by rw [maxLitLenSym]; omega), value]
    rw [value] at atDistance
    exact decodeRepeat_spec atDistance

end Last

section Entry

variable {s : InflateState} {r : State} {codes : Codes}

theorem decodeNextLitLen_buf (huffCode : LookupTable) (s : InStream) : (decodeNextLitLen huffCode s).2.2.buf = s.buf := by
  simp only [decodeNextLitLen]
  split
  · rw [consume_buf, loadForCode_buf]
  · rw [consume_buf, loadForCode_buf]

theorem literal_values {syms : List (Nat × Nat)} (literals : ∀ p ∈ syms, p.1 < 256) :
    syms.map (fun p => litValue p.1 p.2) = (literalBytes syms).map UInt8.toNat := by
  rw [literalBytes, List.map_map]
  apply List.map_congr_left
  intro p member
  have literal := literals p member
  rw [litValue, if_pos (by omega), Function.comp_apply, UInt8.toNat_ofNat', Nat.mod_eq_of_lt literal]

/-- The state before the last symbol of an entry, with the literals before it written as far
as there was room. -/
theorem Sim.atLast {saved : InflateState} {inp : InStream} {final : Bool} {bits : List Bool} {out : List UInt8}
    {a sym lits : Nat} {written pending : List UInt8} (h : Sim window hidden saved ⟨.coded codes final, bits, out⟩)
    (calm : Calm saved) (loaded : Loaded saved.toInStream) (buf : inp.buf = saved.buf) (legal : sym < 286)
    (next : Matches codes.lit sym (bitsVal bits / 2 ^ a)) (width : a + (lengthOf codes.lit sym + extraWidth sym) ≤ 21)
    (fits : a + (lengthOf codes.lit sym + extraWidth sym) ≤ bits.length)
    (views : Views inp (bitsVal bits / 2 ^ (a + (lengthOf codes.lit sym + extraWidth sym)))
      (bits.length - (a + (lengthOf codes.lit sym + extraWidth sym) : Nat)))
    (stored : toLeBytes lits pending.length = pending) (room : written.length ≤ saved.availOut)
    (full : lits = 0 ∧ pending = [] ∨ saved.availOut = written.length ∧ 0 < pending.length ∧ pending.length ≤ 2) :
    AtLast window hidden saved
      { (saved.withIn inp).write written with writeOverflowLits := lits, writeOverflowLen := pending.length }
      ⟨.coded codes final, bits.drop a, out ++ (written ++ pending)⟩ codes final sym := by
  have count := h.views.count
  have views := views.drop fits
  rw [← List.drop_drop] at views
  refine {
    mode := rfl, place := h.mode, calm, loaded, legal, next := bitsVal_drop bits a ▸ next, fits := ?_, near := ?_
    views, out := ?_, enough := ?_, pending := ?_, same := ?_, frame := ?_ }
  · rw [List.length_drop]
    omega
  · dsimp only at count ⊢
    rw [List.length_drop, ← count, Int.ofNat_sub (by omega)]
    omega
  · have whole : out = saved.produced hidden := h.out
    rw [calm.produced] at whole
    change out ++ (written ++ pending) = hidden ++ (saved.out ++ written) ++ toLeBytes lits pending.length
    rw [stored, whole]
    simp only [List.append_assoc]
  · refine h.enough.imp id fun long => Nat.le_trans long ?_
    simp [InflateState.write, InflateState.withIn]
  · refine full.imp (fun empty => ⟨empty.1, by rw [empty.2]; rfl⟩) fun full => ⟨?_, full.2⟩
    change saved.availOut - written.length = 0
    omega
  · have := calm.lits
    have := calm.len
    cases saved
    simp_all [InflateState.write, InflateState.withIn]
  · refine ⟨rfl, buf, List.prefix_append _ _, ?_, ?_⟩
    · change (saved.out ++ written).length + (saved.availOut - written.length) = _
      rw [List.length_append]
      omega
    · change saved.totalOut + .ofNat written.length = saved.totalOut + .ofNat ((saved.out ++ written).length - saved.out.length)
      rw [List.length_append, Nat.add_sub_cancel_left]

theorem Calm.unspilled {s : InflateState} (calm : Calm s) : { s with writeOverflowLits := 0, writeOverflowLen := 0 } = s := by
  have := calm.lits
  have := calm.len
  cases s
  simp_all

/-- The symbols of an entry are written, or are kept where there is no room for them. -/
theorem Sim.writeEntry {saved : InflateState} {inp : InStream} {final : Bool} {bits : List Bool} {out : List UInt8}
    {syms : List (Nat × Nat)} {total : Nat} (h : Sim window hidden saved ⟨.coded codes final, bits, out⟩)
    (calm : Calm saved) (loaded : Loaded saved.toInStream) (buf : inp.buf = saved.buf) (valid : Valid codes.lit 15)
    (chain : Symbols codes.lit syms (bitsVal bits) total) (some_ : syms ≠ []) (three : syms.length ≤ 3)
    (width : total ≤ 21) (literals : ∀ p ∈ syms.dropLast, p.1 < 256) (fits : total ≤ bits.length)
    (views : Views inp (bitsVal bits / 2 ^ total) (bits.length - total)) :
    Round window hidden saved ⟨.coded codes final, bits, out⟩
        (writeSymbols saved syms.length (packed (syms.map fun p => litValue p.1 p.2)) (saved.withIn inp)) ∧
      Frame saved
        (writeSymbols saved syms.length (packed (syms.map fun p => litValue p.1 p.2)) (saved.withIn inp)).2 := by
  obtain ⟨lits, p, rfl⟩ : ∃ lits p, syms = lits ++ [p] := ⟨_, _, (List.dropLast_append_getLast some_).symm⟩
  rw [List.dropLast_concat] at literals
  obtain ⟨a, b, rfl, first, second⟩ := chain.split
  cases second with
  | @cons sym _ n _ legal next rest =>
    cases rest
    rw [Nat.add_zero] at fits views width
    have run : Runs window ⟨.coded codes final, bits, out⟩ ⟨.coded codes final, bits.drop a, out ++ literalBytes lits⟩ :=
      literals_run valid first literals (by omega)
    have count : (literalBytes lits).length = lits.length := List.length_map _
    have extra : bitsVal bits / 2 ^ a / 2 ^ lengthOf codes.lit sym % 2 ^ extraWidth sym =
        bitsVal (bits.drop a) / 2 ^ lengthOf codes.lit sym % 2 ^ extraWidth sym := by rw [bitsVal_drop]
    generalize bitsVal bits / 2 ^ a / 2 ^ lengthOf codes.lit sym % 2 ^ extraWidth sym = e at extra three
    rw [List.length_append, List.length_singleton] at three
    rw [List.map_append, List.map_singleton, literal_values literals, List.length_append, List.length_singleton, ← count,
      writeSymbols_eq]
    generalize literalBytes lits = bytes at run count ⊢
    by_cases room : bytes.length ≤ (saved.withIn inp).availOut
    · rw [if_pos room]
      have last : AtLast window hidden saved ((saved.withIn inp).write bytes)
          ⟨.coded codes final, bits.drop a, out ++ bytes⟩ codes final sym := by
        have here : Calm ((saved.withIn inp).write bytes) := ⟨calm.lits, calm.len, calm.copy, calm.distance⟩
        have last := h.atLast calm loaded buf legal next width fits views (toLeBytes_packed [] []) room (Or.inl ⟨rfl, rfl⟩)
        rw [List.append_nil bytes] at last
        rw [← here.unspilled]
        exact last
      obtain ⟨round, frame⟩ := last.writeSymbols ⟨calm.lits, calm.len⟩ extra
      exact ⟨round.after run (by simp), frame⟩
    · rw [if_neg room]
      change ¬bytes.length ≤ saved.availOut at room
      have left : (bytes.drop saved.availOut).length + 1 = bytes.length + 1 - saved.availOut := by
        rw [List.length_drop]
        omega
      have some_ : bytes.drop saved.availOut ≠ [] := by
        intro none
        have := List.drop_eq_nil_iff.mp none
        omega
      have taken : (bytes.take saved.availOut).length = saved.availOut := by
        rw [List.length_take]
        omega
      have last := h.atLast calm loaded buf legal next width fits views
        (toLeBytes_packed (bytes.drop saved.availOut) [litValue sym e]) taken.le (Or.inr ⟨taken.symm, List.length_pos_iff.mpr some_, by simp; omega⟩)
      rw [List.take_append_drop] at last
      change Round _ _ _ _ (overflowLits saved (bytes.length + 1 - saved.availOut) _ _) ∧
        Frame saved (overflowLits saved (bytes.length + 1 - saved.availOut) _ _).2
      rw [← left]
      obtain ⟨round, frame⟩ := last.overflowLits (show saved.availOut - _ = 0 by omega) some_ extra rfl
      exact ⟨round.after run (by simp), frame⟩

/-- What becomes of a lookup that has found nothing. -/
theorem missing_invalid (saved : InflateState) {inp : InStream} {bits : List Bool} {lits count : Nat}
    (views : Views inp (bitsVal bits) bits.length) (sign : count = 0 ∨ count = 1 ∧ lits = 1023) :
    (if count = 0 then (some ReturnCode.invalidSymbol, saved.withIn inp)
      else if (saved.withIn inp).readInLength < 0 then (some .endInput, saved)
      else writeSymbols saved count lits (saved.withIn inp)) = (some .invalidSymbol, saved.withIn inp) := by
  rcases sign with zero | ⟨rfl, rfl⟩
  · rw [if_pos zero]
  · have nonneg : ¬(saved.withIn inp).readInLength < 0 := by
      change ¬inp.readInLength < 0
      rw [views.negative]
      omega
    rw [if_neg (by decide), if_neg nonneg, writeSymbols_illegal saved _ (by decide) (by decide)]

/-- One round of the decoding loop. -/
theorem decodeSymbols_spec (h : Sim window hidden s r) (state : s.blockState = .coded) (calm : Calm s) :
    Round window hidden (s.withIn (inflateInLoad s.toInStream)) r (decodeSymbols s) ∧
      Frame (s.withIn (inflateInLoad s.toInStream)) (decodeSymbols s).2 := by
  obtain ⟨views, loaded⟩ := h.views.load
  have place := h.mode.loaded state (inflateInLoad s.toInStream)
  have sim : Sim window hidden (s.withIn (inflateInLoad s.toInStream)) r := ⟨views, h.out, h.enough, place⟩
  have calm : Calm (s.withIn (inflateInLoad s.toInStream)) := ⟨calm.lits, calm.len, calm.copy, calm.distance⟩
  have state : (s.withIn (inflateInLoad s.toInStream)).blockState = .coded := state
  rw [decodeSymbols]
  change Loaded (s.withIn (inflateInLoad s.toInStream)).toInStream at loaded
  generalize s.withIn (inflateInLoad s.toInStream) = saved at *
  clear views place
  obtain ⟨codes, final, limit, mode, tables⟩ := sim.mode.tables state
  obtain ⟨_, bits, out⟩ := r
  obtain rfl := mode
  have found := tables.lit saved.toInStream _ _ sim.views loaded
  have buf := decodeNextLitLen_buf saved.litHuffCode saved.toInStream
  generalize decodeNextLitLen saved.litHuffCode saved.toInStream = result at found buf
  cases found with
  | found syms total inp chain some_ three width literals views =>
    change Views inp (bitsVal bits / 2 ^ total) (bits.length - total) at views
    change Symbols codes.lit syms (bitsVal bits) total at chain
    dsimp only
    have many := List.length_pos_iff.mpr some_
    rw [if_neg (by omega)]
    by_cases short : (saved.withIn inp).readInLength < 0
    · rw [if_pos short]
      have excess := views.negative.mp short
      obtain ⟨r', run, more, within⟩ := symbols_short tables.litValid chain literals (by omega)
      refine ⟨.endInput r' run more within ?_, .refl _⟩
      have count : (bits.length : Int) = _ := sim.views.count
      rcases loaded with plenty | none
      · omega
      · exact none
    · rw [if_neg short]
      have fits : total ≤ bits.length := by
        have := mt views.negative.mpr short
        omega
      exact sim.writeEntry calm loaded buf tables.litValid chain some_ three width literals fits views
  | missing lits count inp none views sign =>
    have bad : step ⟨.coded codes final, bits, out⟩ = .bad := by
      have token : readToken codes bits = .bad := by
        rw [readToken, bind_bad (tables.litValid.decodeSym_bad none fun t u legal reserved used cut =>
          tables.apart t u bits legal reserved used cut)]
      simp only [step, token, Parse.outcome]
    dsimp only
    rw [missing_invalid saved views sign]
    refine ⟨.invalidSymbol _ _ (.refl _) (Or.inl bad) (by simp) ?_ ?_, .of_eq rfl buf rfl rfl rfl⟩
    · exact sim.out
    · exact ⟨calm.spill.lits, calm.spill.copy, calm.spill.distance, calm.spill.inside, calm.spill.underway,
        calm.spill.noLits, calm.spill.noCopy⟩

end Entry

end Isal.Inflate
