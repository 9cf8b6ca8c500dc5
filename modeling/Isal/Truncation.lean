import Isal.StreamVerdicts

/-! A stream that is cut off is not taken for an invalid one. -/
namespace Isal.Inflate

open Isal.Bits Isal.PrefixCode Isal.Rfc1951

variable {window : Nat} {s first : InflateState} {dict input front rest : List UInt8} {c c' : Session} {r u : State}

section Stateless

end Stateless

section Sessions

theorem Session.Reach.trans {c₀ : Session} (h : Session.Reach c₀ c) (h' : Session.Reach c c') : Session.Reach c₀ c' := by
  induction h' with
  | start => exact h
  | call before goesOn room next ih => exact .call ih goesOn room next

/-- With room for more than there is to come, a call uses up its input. -/
theorem Follows.consume (h : Follows window [] first input c) (raw : first.crcFlag = .deflate)
    (bounded : Bounded window first ⟨.header, bytesBits input, []⟩) (goesOn : ¬c.Over) {room : Nat}
    (unlimited : (decode input).2.out.length < room) :
    ∃ c', c.call room = some c' ∧ c'.waiting = c.feed.2 ∧ (c'.Over ∨ c'.state.availIn = 0 ∧ 0 < c'.state.availOut) := by
  obtain ⟨c', called, follows, fits⟩ := h.call raw bounded goesOn room
  have waiting : c'.waiting = c.feed.2 := by
    rw [Session.call] at called
    split at called
    · cases called
    · cases called
      rfl
  refine ⟨c', called, waiting, ?_⟩
  have left : 0 < c'.state.availOut := by
    have upTo := follows.output.length_le
    omega
  obtain ⟨⟨given, -, -, phase⟩, -, -⟩ := follows
  cases phase with
  | decoding _ _ _ _ _ _ ends => exact Or.inr ⟨(ends.resolve_left (by omega)).1, left⟩
  | finished _ _ _ _ state => exact Or.inl (Or.inr state)
  | failed _ _ bad => exact Or.inl (Or.inl bad.negative)

/-- A session can be led to its end. -/
theorem Follows.ended (h : Follows window [] first input c) (raw : first.crcFlag = .deflate)
    (bounded : Bounded window first ⟨.header, bytesBits input, []⟩) :
    ∃ c', c.Reach c' ∧ (c'.Over ∨ c'.waiting = [] ∧ 0 < c'.state.availOut) := by
  have step : ∀ {c : Session}, Follows window [] first input c → ¬c.Over → ∃ c', Session.Reach c c' ∧ Follows window [] first input c' ∧
      c'.waiting = c.feed.2 ∧ (c'.Over ∨ c'.state.availIn = 0 ∧ 0 < c'.state.availOut) := by
    intro c follows goesOn
    obtain ⟨c', called, waiting, ends⟩ := follows.consume raw bounded goesOn (Nat.lt_succ_self _)
    have reach : Session.Reach c c' := .call .start goesOn _ called
    exact ⟨c', reach, follows.reach raw bounded reach, waiting, ends⟩
  -- the induction is on the buffers that wait, once the first one is used up
  have used : ∀ (n : Nat) {c : Session}, c.waiting.length = n → Follows window [] first input c →
      (c.Over ∨ c.state.availIn = 0 ∧ 0 < c.state.availOut) →
      ∃ c', Session.Reach c c' ∧ (c'.Over ∨ c'.waiting = [] ∧ 0 < c'.state.availOut) := by
    intro n
    induction n with
    | zero =>
      intro c none_ _ ends
      exact ⟨c, .start, ends.imp id fun left => ⟨List.eq_nil_of_length_eq_zero none_, left.2⟩⟩
    | succ n ih =>
      intro c size follows ends
      by_cases stopped : c.Over
      · exact ⟨c, .start, Or.inl stopped⟩
      · obtain ⟨empty, -⟩ := ends.resolve_left stopped
        obtain ⟨c₁, reach, follows', waiting, ends'⟩ := step follows stopped
        have fewer : c₁.waiting.length = n := by
          rw [waiting, Session.feed, if_pos empty]
          cases kept : c.waiting with
          | nil => simp [kept] at size
          | cons next more => simpa [kept] using size
        obtain ⟨c', reach', ended⟩ := ih fewer follows' ends'
        exact ⟨c', reach.trans reach', ended⟩
  by_cases stopped : c.Over
  · exact ⟨c, .start, Or.inl stopped⟩
  · obtain ⟨c₁, reach, follows', -, ends⟩ := step h stopped
    obtain ⟨c', reach', ended⟩ := used _ rfl follows' ends
    exact ⟨c', reach.trans reach', ended⟩

end Sessions

end Isal.Inflate
