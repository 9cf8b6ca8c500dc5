import Isal.Truncation

/-! Streams that go on from a dictionary, and streams with a limit for the distances. -/
namespace Isal.Rfc1951

open Isal.Bits Isal.PrefixCode

/-- The reference decoder on a stream whose output goes on from a dictionary -/
def decodeWith (dict input : List UInt8) : Verdict × State := run (8 * input.length + 1) ⟨.header, bytesBits input, dict⟩

variable {dict input : List UInt8} {window : Nat} {s r u : State}

/-- The last step decides how a run ends. -/
theorem run_last (path : Steps s r) (legal : s.Legal) {fuel : Nat} (enough : s.bits.length < fuel) (stuck : ∀ v, step r ≠ .next v) :
    (run fuel s).2 = r ∧ ((run fuel s).1 = .finished ↔ r.mode = .done) := by
  obtain ⟨less, enough, same⟩ := run_steps path legal fuel enough
  obtain ⟨fewer, rfl⟩ : ∃ fewer, less = fewer + 1 := ⟨less - 1, by omega⟩
  rw [same, run]
  cases outcome : step r with
  | next v => exact absurd outcome (stuck v)
  | done => simp [step_done outcome]
  | more =>
    refine ⟨rfl, by simp, fun done => ?_⟩
    rw [step, done] at outcome
    cases outcome
  | bad =>
    refine ⟨rfl, by simp, fun done => ?_⟩
    rw [step, done] at outcome
    cases outcome

theorem decodeWith_last (path : Steps ⟨.header, bytesBits input, dict⟩ r) (stuck : ∀ v, step r ≠ .next v) :
    (decodeWith dict input).2 = r ∧ ((decodeWith dict input).1 = .finished ↔ r.mode = .done) :=
  run_last path (initial_legal _ _) (by simp) stuck

/-- A distance symbol that is read is the one of a match, if the stream goes on. -/
theorem State.BeyondWindow.copies {limit : Nat} (beyond : r.BeyondWindow limit) (legal : r.Legal) {ext : List Bool}
    (bytes : 8 ∣ ext.length) {v : State} (next : step (r.extend ext) = .next v) :
    ∃ length dist distSym, (r.extend ext).Copies length dist ∧ limit ≤ distSym ∧ distSym < 30 ∧ distStart[distSym]?.getD 0 ≤ dist := by
  obtain ⟨codes, final, sym, left, behind, rest, extra, distSym, mode, first, isMatch, second, third, high, small⟩ := beyond
  have valid := legal codes final mode
  have first' := (reader_decodeSym valid.1 286).ok bytes first
  have second' := (reader_num _).ok bytes second
  have third' := (reader_decodeSym valid.2 codes.dist.length).ok bytes third
  have mode' : (r.extend ext).mode = .coded codes final := mode
  rw [step, mode'] at next
  obtain ⟨token, after, parsed, -⟩ := outcome_next next
  have read := parsed
  rw [State.extend, readToken, bind_ok first', if_neg (by omega), if_neg (by omega), readMatch, bind_ok second', bind_ok third',
    if_neg (by omega)] at read
  obtain ⟨value, after', field, same⟩ := bind_inv read
  cases same
  exact ⟨_, _, distSym, ⟨codes, final, _, mode', parsed⟩, high, small, Nat.le_add_right _ _⟩

end Isal.Rfc1951

namespace Isal.Inflate

open Isal.Bits Isal.PrefixCode Isal.Rfc1951

variable {window : Nat} {s t : InflateState} {dict input : List UInt8} {chunks : List (List UInt8)} {c : Session} {v : Verdict} {r u : State}

theorem bounded_all (s : InflateState) (r : State) : Bounded 32768 s r := ⟨reaches_all (maxDist_le _), Or.inl (reaches_all (by decide))⟩

theorem EndsAs.finished_iff (h : EndsAs v r) : v = .finished ↔ r.mode = .done := by
  constructor
  · rintro rfl
    cases h with
    | finished _ mode => exact mode
  · exact fun mode => h.unique (.finished r mode)

/-- A session that has ended has done so where the reference decoder does. -/
theorem AtEnd.decoded {written : List UInt8} (h : AtEnd dict input written v r) :
    (v = .finished ↔ (decodeWith dict input).1 = .finished) ∧ dict ++ written <+: (decodeWith dict input).2.out ∧
      (v = .finished → dict ++ written = (decodeWith dict input).2.out) := by
  obtain ⟨last, finished⟩ := decodeWith_last h.run h.ends.stuck
  rw [last]
  exact ⟨h.ends.finished_iff.trans finished.symm, h.output, fun done => (h.whole done).symm⟩

section Limit

variable {histBits : Nat}

end Limit

end Isal.Inflate
