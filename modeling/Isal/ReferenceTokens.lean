import Isal.ReferenceRuns

/-! The tokens of a coded block, from the codewords that come next, and runs of the
reference decoder whose matches all stay within a window. -/
namespace Isal.Rfc1951

open Isal.Bits Isal.PrefixCode

section Tokens

variable {codes : Codes} {sym : Nat} {bits : List Bool}

theorem readToken_literal (valid : Valid codes.lit 15) (next : Matches codes.lit sym (bitsVal bits))
    (enough : lengthOf codes.lit sym ≤ bits.length) (literal : sym < 256) :
    readToken codes bits = .ok (.literal (UInt8.ofNat sym)) (bits.drop (lengthOf codes.lit sym)) := by
  rw [readToken, bind_ok (valid.decodeSym_ok (show sym < 286 by omega) next enough), if_pos literal, pure_eq]

theorem readToken_end (valid : Valid codes.lit 15) (next : Matches codes.lit 256 (bitsVal bits))
    (enough : lengthOf codes.lit 256 ≤ bits.length) :
    readToken codes bits = .ok .endOfBlock (bits.drop (lengthOf codes.lit 256)) := by
  rw [readToken, bind_ok (valid.decodeSym_ok (show 256 < 286 by decide) next enough), if_neg (by decide),
    if_pos rfl, pure_eq]

theorem readToken_match (valid : Valid codes.lit 15) (next : Matches codes.lit sym (bitsVal bits))
    (enough : lengthOf codes.lit sym ≤ bits.length) (low : 256 < sym) (legal : sym < 286) :
    readToken codes bits = readMatch codes sym (bits.drop (lengthOf codes.lit sym)) := by
  rw [readToken, bind_ok (valid.decodeSym_ok legal next enough), if_neg (by omega), if_neg (by omega)]

theorem readToken_more (valid : Valid codes.lit 15) (next : Matches codes.lit sym (bitsVal bits))
    (short : bits.length < lengthOf codes.lit sym) (legal : sym < 286) : readToken codes bits = .more := by
  rw [readToken, bind_more (valid.decodeSym_more legal next short)]

theorem readMatch_more {given : List Bool} (short : given.length < lenExtra[sym - 257]?.getD 0) :
    readMatch codes sym given = .more := by
  rw [readMatch, bind_more (num_more short)]

end Tokens

/-- What the decoder reads a match for. -/
def State.Copies (s : State) (length dist : Nat) : Prop :=
  ∃ codes final rest, s.mode = .coded codes final ∧ readToken codes s.bits = .ok (.copy length dist) rest

/-- A match that reaches back further than there is output. -/
def State.BeyondOutput (s : State) : Prop := ∃ length dist, s.Copies length dist ∧ s.out.length < dist

/-- A distance symbol that the code has but a smaller window leaves out. -/
def State.BeyondWindow (limit : Nat) (s : State) : Prop :=
  ∃ codes final sym left behind rest extra distSym, s.mode = .coded codes final ∧
    decodeSym codes.lit 286 s.bits = .ok sym left ∧ 256 < sym ∧ num (lenExtra[sym - 257]?.getD 0) left = .ok extra behind ∧
    decodeSym codes.dist codes.dist.length behind = .ok distSym rest ∧ limit ≤ distSym ∧ distSym < 30

theorem State.BeyondWindow.lt {limit : Nat} {s : State} (h : s.BeyondWindow limit) : limit < 30 := by
  obtain ⟨codes, final, sym, left, behind, rest, extra, distSym, -, -, -, -, -, beyond, legal⟩ := h
  omega

theorem State.Copies.step {s : State} {length dist : Nat} (copies : s.Copies length dist) :
    (s.out.length < dist ∧ Rfc1951.step s = .bad) ∨
      (dist ≤ s.out.length ∧ ∃ rest, Rfc1951.step s = .next ⟨s.mode, rest, copyMatch dist length s.out⟩) := by
  obtain ⟨codes, final, rest, mode, parsed⟩ := copies
  have whole : Rfc1951.step s = if s.out.length < dist then .bad else .next ⟨s.mode, rest, copyMatch dist length s.out⟩ := by
    rw [Rfc1951.step, mode]
    simp only [parsed, Parse.outcome]
  by_cases beyond : s.out.length < dist
  · exact Or.inl ⟨beyond, by rw [whole, if_pos beyond]⟩
  · exact Or.inr ⟨by omega, rest, by rw [whole, if_neg beyond]⟩

theorem State.BeyondOutput.bad {s : State} (h : s.BeyondOutput) : Rfc1951.step s = .bad := by
  obtain ⟨length, dist, copies, beyond⟩ := h
  rcases copies.step with ⟨-, bad⟩ | ⟨within, -⟩
  · exact bad
  · omega

/-- One step, whose match if it is one is not further away than `window`. -/
def StepWithin (window : Nat) (s t : State) : Prop :=
  step s = .next t ∧ ∀ length dist, s.Copies length dist → dist ≤ window

/-- A run whose matches all stay within the window. -/
def Runs (window : Nat) : State → State → Prop := Relation.ReflTransGen (StepWithin window)

theorem Runs.refl {window : Nat} (s : State) : Runs window s s := Relation.ReflTransGen.refl

theorem Runs.single {window : Nat} {s t : State} (h : StepWithin window s t) : Runs window s t :=
  Relation.ReflTransGen.single h

theorem Runs.head {window : Nat} {s t u : State} (first : StepWithin window s t) (rest : Runs window t u) :
    Runs window s u := Relation.ReflTransGen.head first rest

theorem Runs.trans {window : Nat} {s t u : State} (first : Runs window s t) (rest : Runs window t u) :
    Runs window s u := Relation.ReflTransGen.trans first rest

theorem Runs.steps {window : Nat} {s t : State} (h : Runs window s t) : Steps s t :=
  Relation.ReflTransGen.mono (fun _ _ first => first.1) _ _ h

/-- The token that has been read stays the one when more bytes come. -/
theorem copies_extend {s : State} (legal : s.Legal) {ext : List Bool} (bytes : 8 ∣ ext.length) {t : State}
    (next : step s = .next t) {length dist : Nat} : (s.extend ext).Copies length dist ↔ s.Copies length dist := by
  constructor
  · rintro ⟨codes, final, rest, mode, parsed⟩
    have reader : Reader 8 (readToken codes) := reader_readToken (legal codes final mode)
    have mode : s.mode = .coded codes final := mode
    rw [step, mode] at next
    obtain ⟨token, left, here, -⟩ := outcome_next next
    have there := reader.ok bytes here
    rw [show (s.extend ext).bits = s.bits ++ ext from rfl, there] at parsed
    cases parsed
    exact ⟨codes, final, left, mode, here⟩
  · rintro ⟨codes, final, rest, mode, parsed⟩
    have reader : Reader 8 (readToken codes) := reader_readToken (legal codes final mode)
    exact ⟨codes, final, rest ++ ext, mode, reader.ok bytes parsed⟩

theorem Runs.extend {window : Nat} {s t : State} (run : Runs window s t) (legal : s.Legal) {ext : List Bool}
    (bytes : 8 ∣ ext.length) : Runs window (s.extend ext) (t.extend ext) := by
  induction run with
  | refl => exact .refl _
  | @tail b c first last ih =>
    have here := Steps.legal (Runs.steps first) legal
    refine ih.trans (.single ⟨step_extend here bytes last.1, fun length dist copies => ?_⟩)
    exact last.2 length dist ((copies_extend here bytes last.1).mp copies)

theorem Runs.legal {window : Nat} {s t : State} (run : Runs window s t) (legal : s.Legal) : t.Legal :=
  run.steps.legal legal

theorem distStart_le : ∀ i < 30, distStart[i]?.getD 0 + 2 ^ distExtra[i]?.getD 0 ≤ 32769 := by decide

/-- No distance is greater than the largest window. -/
theorem State.Copies.dist_le {s : State} {length dist : Nat} (copies : s.Copies length dist) : dist ≤ 32768 := by
  obtain ⟨codes, final, rest, mode, parsed⟩ := copies
  rw [readToken] at parsed
  obtain ⟨sym, left, -, parsed⟩ := bind_inv parsed
  split at parsed
  · cases parsed
  split at parsed
  · cases parsed
  rw [readMatch] at parsed
  obtain ⟨extra, left, -, parsed⟩ := bind_inv parsed
  obtain ⟨distSym, left, -, parsed⟩ := bind_inv parsed
  split at parsed
  · cases parsed
  rename_i legal
  obtain ⟨value, left, field, parsed⟩ := bind_inv parsed
  cases parsed
  have := num_lt field
  have := distStart_le distSym (by omega)
  omega

end Isal.Rfc1951
