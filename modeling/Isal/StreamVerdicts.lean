import Isal.StreamRuns

/-! However a raw stream is cut into pieces, it comes to the same end. -/
namespace Isal.Inflate

open Isal.Bits Isal.PrefixCode Isal.Rfc1951

section Ends

/-- The reference decoder does not go on, nor does the decompressor. -/
inductive EndsAs : Verdict → State → Prop
  | finished (r : State) (mode : r.mode = .done) : EndsAs .finished r
  | incomplete (r : State) (cut : Cut r) : EndsAs .incomplete r
  | header (r : State) (mode : r.mode = .header) (bad : HeaderRet r.bits .invalidBlock) : EndsAs .invalid r
  | token (r : State) (within : r.mode ≠ .header) (bad : step r = .bad) : EndsAs .invalid r

variable {v v' : Verdict} {r r' first : State}

theorem step_mode_done (mode : r.mode = .done) : step r = .done := by rw [step, mode]

theorem header_stuck {ret : ReturnCode} (mode : r.mode = .header) (known : HeaderRet r.bits ret) (fails : ret ≠ .decompOk) (r' : State) :
    step r ≠ .next r' := by
  intro next
  obtain ⟨block, parsed⟩ := step_header mode next
  obtain ⟨u, views, rfl⟩ := known
  rcases readHeader_ok views with ⟨ok, -⟩ | ⟨-, none_⟩
  · exact fails ok
  · exact none_ _ _ parsed

theorem EndsAs.stuck (h : EndsAs v r) (r' : State) : step r ≠ .next r' := by
  cases h with
  | finished _ mode =>
    rw [step_mode_done mode]
    simp
  | incomplete _ cut =>
    rcases cut with ⟨more, -⟩ | ⟨mode, known⟩
    · rw [more]
      simp
    · exact header_stuck mode known (by simp) r'
  | header _ mode bad => exact header_stuck mode bad (by simp) r'
  | token _ within bad =>
    rw [bad]
    simp

/-- The end of a run is one of a kind. -/
theorem EndsAs.unique (h : EndsAs v r) (h' : EndsAs v' r) : v = v' := by
  have noHeader : r.mode = .done → r.mode ≠ .header := by simp +contextual
  cases h with
  | finished _ mode =>
    cases h' with
    | finished => rfl
    | incomplete _ cut =>
      rcases cut with ⟨more, -⟩ | ⟨header, -⟩
      · cases (step_mode_done mode).symm.trans more
      · exact absurd header (noHeader mode)
    | header _ header bad => exact absurd header (noHeader mode)
    | token _ within bad => cases (step_mode_done mode).symm.trans bad
  | incomplete _ cut =>
    cases h' with
    | finished _ mode =>
      rcases cut with ⟨more, -⟩ | ⟨header, -⟩
      · cases (step_mode_done mode).symm.trans more
      · exact absurd header (noHeader mode)
    | incomplete => rfl
    | header _ header bad =>
      rcases cut with ⟨-, within⟩ | ⟨-, known⟩
      · exact absurd header within
      · cases known.unique bad
    | token _ within bad =>
      rcases cut with ⟨more, -⟩ | ⟨header, -⟩
      · cases more.symm.trans bad
      · exact absurd header within
  | header _ mode bad =>
    cases h' with
    | finished _ done => exact absurd mode (noHeader done)
    | incomplete _ cut =>
      rcases cut with ⟨-, within⟩ | ⟨-, known⟩
      · exact absurd mode within
      · cases known.unique bad
    | header => rfl
    | token => rfl
  | token _ within bad =>
    cases h' with
    | finished _ mode => cases (step_mode_done mode).symm.trans bad
    | incomplete _ cut =>
      rcases cut with ⟨more, -⟩ | ⟨header, -⟩
      · cases more.symm.trans bad
      · exact absurd header within
    | header => rfl
    | token => rfl

/-- Two runs that have come to an end have come to the same one. -/
theorem EndsAs.same (h : EndsAs v r) (h' : EndsAs v' r') (run : Steps first r) (run' : Steps first r') : r = r' ∧ v = v' := by
  have onward := run.ended run' h.stuck
  have back := run'.ended run h'.stuck
  have same : r = r' := by
    rcases Relation.ReflTransGen.cases_head back with same | ⟨u, next, -⟩
    · exact same
    · exact absurd next (h.stuck u)
  subst same
  exact ⟨rfl, h.unique h'⟩

theorem HeaderRet.append {bits : List Bool} (bad : HeaderRet bits .invalidBlock) (more : List UInt8) :
    HeaderRet (bits ++ bytesBits more) .invalidBlock := by
  obtain ⟨u, views, invalid⟩ := bad
  have within := views.within
  have size := within.pending_length
  obtain ⟨t, isT⟩ : ∃ t : InflateState, t = { u with buf := u.pending ++ more, nextIn := 0, availIn := u.availIn + more.length } := ⟨_, rfl⟩
  have pending : t.pending = u.pending ++ more := by
    rw [isT]
    change ((u.pending ++ more).drop 0).take (u.availIn + more.length) = _
    rw [List.drop_zero, List.take_of_length_le]
    rw [List.length_append, size]
  have views' : Views t.toInStream (bitsVal (bits ++ bytesBits more)) (bits ++ bytesBits more).length := by
    refine views.extend (by rw [isT]) (by rw [isT]) (by rw [isT]) ?_ pending
    rw [isT]
    change 0 + (u.availIn + more.length) = (u.pending ++ more).length
    rw [List.length_append, size, Nat.zero_add]
  exact ⟨t, views', readHeader_append (bytesBits_length _ ▸ Nat.dvd_mul_right _ _) views views' invalid⟩

/-- What is invalid stays so when more input comes. -/
theorem EndsAs.extend (h : EndsAs v r) (settled : v ≠ .incomplete) (legal : r.Legal) (more : List UInt8) :
    EndsAs v (r.extend (bytesBits more)) := by
  cases h with
  | finished _ mode => exact .finished _ mode
  | incomplete => exact absurd rfl settled
  | header _ mode bad => exact .header _ mode (bad.append more)
  | token _ within bad => exact .token _ within (step_extend_bad legal (bytesBits_length _ ▸ Nat.dvd_mul_right _ _) bad)

theorem Bad.ends {ret : ReturnCode} (bad : Bad distLen ret r) : EndsAs .invalid r := by
  cases bad with
  | block _ mode bad => exact .header r mode bad
  | symbol _ bad within =>
    rcases bad with bad | beyond
    · exact .token r within bad
    · exact absurd beyond.lt (Nat.lt_irrefl 30)
  | lookback _ bad =>
    refine .token r ?_ bad.bad
    obtain ⟨length, dist, ⟨codes, final, rest, mode, -⟩, -⟩ := bad
    rw [mode]
    simp

end Ends

section Sessions

variable {window : Nat} {s : InflateState} {dict input : List UInt8} {c : Session} {v : Verdict} {r : State}

/-- The end of a session with the reference decoder's run on all of the input -/
structure AtEnd (dict input written : List UInt8) (v : Verdict) (r : State) : Prop where
  run : Steps ⟨.header, bytesBits input, dict⟩ r
  ends : EndsAs v r
  output : dict ++ written <+: r.out
  whole : v = .finished → r.out = dict ++ written

theorem Phase.ends {given : List UInt8} (phase : Phase window dict distLen given c) (split : input = given ++ c.waiting.flatten)
    (ended : c.Over ∨ c.waiting = [] ∧ 0 < c.state.availOut) : ∃ r, AtEnd dict input c.written (Session.verdict c.ret c.state) r := by
  have legal := initial_legal (bytesBits given) dict
  have longer : ∀ {r : State}, Steps ⟨.header, bytesBits given, dict⟩ r →
      Steps ⟨.header, bytesBits input, dict⟩ (r.extend (bytesBits c.waiting.flatten)) := by
    intro r run
    have extended := run.extend legal (bytesBits_whole c.waiting.flatten)
    rwa [State.extend, ← bytesBits_append, ← split] at extended
  cases phase with
  | decoding r run place calm held ret ends =>
    rcases ended with stopped | ⟨last, room⟩
    · rcases stopped with negative | finish
      · rw [ret] at negative
        cases negative
      · exact absurd finish place.notFinish
    · obtain ⟨-, r', onward, cut⟩ := ends.resolve_left (by omega)
      have all : given = input := by rw [split, last, List.flatten_nil, List.append_nil]
      have isVerdict : Session.verdict c.ret c.state = .incomplete := by
        rw [Session.verdict, ret, if_neg (by decide), if_neg place.notFinish]
      rw [isVerdict, ← all]
      refine ⟨r', run.steps.trans onward.steps, .incomplete r' cut, ?_, (by simp)⟩
      have grows := Steps.output onward.steps (run.legal legal)
      rw [held.content] at grows
      exact (List.prefix_append _ _).trans grows
  | finished r run mode out state ret =>
    have isVerdict : Session.verdict c.ret c.state = .finished := by
      rw [Session.verdict, ret, if_neg (by decide), if_pos state]
    rw [isVerdict]
    exact ⟨_, longer run.steps, .finished _ mode, out ▸ List.prefix_rfl, fun _ => out⟩
  | failed r run bad pending =>
    have isVerdict : Session.verdict c.ret c.state = .invalid := by
      rw [Session.verdict, if_pos bad.negative]
    rw [isVerdict]
    refine ⟨_, longer run.steps, bad.ends.extend (by simp) (run.legal legal) _, ?_, (by simp)⟩
    change _ <+: r.out
    rw [pending.content]
    exact List.prefix_append _ _

theorem Follows.ends (h : Follows window dict s input c) (large : s.maxDist = distLen)
    (ended : c.Over ∨ c.waiting = [] ∧ 0 < c.state.availOut) : ∃ r, AtEnd dict input c.written (Session.verdict c.ret c.state) r := by
  obtain ⟨⟨given, split, -, phase⟩, -, -⟩ := h
  rw [large] at phase
  exact phase.ends split ended

/-- Where the reference decoder ends on its own -/
theorem decode_last (run : Steps ⟨.header, bytesBits input, []⟩ r) : Steps r (decode input).2 := by
  obtain ⟨u, last, stuck⟩ := exists_last ⟨.header, bytesBits input, []⟩ (initial_legal _ _)
  have same : (decode input).2 = u := by
    cases outcome : step u with
    | next w => exact absurd outcome (stuck w)
    | done => rw [decode_eq last (by rw [outcome])]
    | more => rw [decode_eq last (by rw [outcome])]
    | bad => rw [decode_eq last (by rw [outcome])]
  rw [same]
  exact last.ended run stuck

theorem decode_output (run : Steps ⟨.header, bytesBits input, []⟩ r) : r.out <+: (decode input).2.out :=
  (decode_last run).output (run.legal (initial_legal _ _))

theorem init_fresh (s : InflateState) : Fresh [] (isalInflateInit s) := opened_fresh s 0

theorem init_bounded (s : InflateState) (r : State) : Bounded 32768 (isalInflateInit s) r :=
  ⟨reaches_all (maxDist_le _), Or.inl (reaches_all (by decide))⟩

/-- What has been handed over is output of the reference decoder. -/
theorem Follows.output (h : Follows window [] s input c) : c.written <+: (decode input).2.out := by
  obtain ⟨⟨given, split, -, phase⟩, -, -⟩ := h
  have longer : ∀ {r : State}, Steps ⟨.header, bytesBits given, []⟩ r → r.out <+: (decode input).2.out := by
    intro r run
    have extended := run.extend (initial_legal _ _) (bytesBits_whole c.waiting.flatten)
    rw [State.extend, ← bytesBits_append, ← split] at extended
    have grown : (r.extend (bytesBits c.waiting.flatten)).out <+: (decode input).2.out := decode_output extended
    exact grown
  cases phase with
  | decoding r run place calm held =>
    have content := held.content
    rw [List.nil_append] at content
    exact (content ▸ List.prefix_append _ _).trans (longer run.steps)
  | finished r run mode out => exact (show c.written = r.out from out.symm) ▸ longer run.steps
  | failed r run bad pending =>
    have content := pending.content
    rw [List.nil_append] at content
    exact (content ▸ List.prefix_append _ _).trans (longer run.steps)

/-- All of the input in one call, with room for more output than there is -/
theorem call_whole (s : InflateState) {room : Nat} (unlimited : (decode input).2.out.length < room) :
    ∃ ret t r, isalInflate ((isalInflateInit s).given input room) = some (ret, t) ∧ AtEnd [] input t.out (Session.verdict ret t) r := by
  have start : Follows 32768 [] (isalInflateInit s) [input].flatten (.start (isalInflateInit s) [input]) := (init_fresh s).follows [input]
  rw [List.flatten_singleton] at start
  have goesOn : ¬(Session.start (isalInflateInit s) [input]).Over := by
    rintro (negative | finish)
    · cases negative
    · cases finish
  obtain ⟨c, called, follows, fits⟩ := start.call rfl (init_bounded s _) goesOn room
  have given : ({ (Session.start (isalInflateInit s) [input]).feed.1 with availOut := room } : InflateState) =
      (isalInflateInit s).given input room := rfl
  rw [Session.call, given] at called
  cases done : isalInflate ((isalInflateInit s).given input room) with
  | none =>
    rw [done] at called
    cases called
  | some result =>
    obtain ⟨ret, t⟩ := result
    rw [done] at called
    cases called
    have ended : Session.Over ⟨t, [], [] ++ t.out, ret⟩ ∨ ([] : List (List UInt8)) = [] ∧ 0 < t.availOut := by
      have upTo : ([] ++ t.out).length ≤ (decode input).2.out.length := follows.output.length_le
      have most : ([] ++ t.out).length + t.availOut = 0 + room := fits
      exact Or.inr ⟨rfl, by omega⟩
    obtain ⟨r, atEnd⟩ := follows.ends rfl ended
    exact ⟨ret, t, r, rfl, atEnd⟩

/-- However the input and the room for output are cut into pieces, a raw stream comes to the same end as in one call. -/
theorem isalInflate_chunks (s : InflateState) (chunks : List (List UInt8)) :
    (∀ c, Session.Reach (.start (isalInflateInit s) chunks) c → ¬c.Over → ∀ room, ∃ c', c.call room = some c') ∧
      ∀ c, Session.Reach (.start (isalInflateInit s) chunks) c → c.Over ∨ c.Drained →
        ∀ room, (decode chunks.flatten).2.out.length < room →
          ∃ ret t, isalInflate ((isalInflateInit s).given chunks.flatten room) = some (ret, t) ∧
            Session.verdict c.ret c.state = Session.verdict ret t ∧
            (Session.verdict ret t = .finished → c.written = t.out) ∧ c.written <+: (decode chunks.flatten).2.out := by
  refine ⟨fun c reach goesOn room => ?_, fun c reach ended room unlimited => ?_⟩
  · obtain ⟨c', called, -⟩ := (reach.follows (init_fresh s) (init_bounded s _)).call rfl (init_bounded s _) goesOn room
    exact ⟨c', called⟩
  · have follows := reach.follows (init_fresh s) (init_bounded s _)
    obtain ⟨r, atEnd⟩ := follows.ends rfl (ended.imp id fun drained => ⟨drained.1, drained.2.2.2⟩)
    obtain ⟨ret, t, r', done, atEnd'⟩ := call_whole s unlimited
    obtain ⟨rfl, same⟩ := atEnd.ends.same atEnd'.ends atEnd.run atEnd'.run
    refine ⟨ret, t, done, same, fun finished => ?_, follows.output⟩
    exact List.append_cancel_left ((atEnd.whole (same.trans finished)).symm.trans (atEnd'.whole finished))

theorem isalInflate_chunks_stored :
    ∃ ret t, isalInflate ((isalInflateInit {}).given [1, 0, 0, 255, 255] 1) = some (ret, t) ∧ Session.verdict ret t = .finished := by
  obtain ⟨live, same⟩ := isalInflate_chunks {} [[1, 0, 0], [255, 255]]
  have notOver : ∀ {c : Session}, c.ret = .decompOk → c.state.blockState ≠ .finish → ¬c.Over := by
    rintro c ok going (negative | finish)
    · rw [ok] at negative
      cases negative
    · exact going finish
  have idle : ¬(Session.start (isalInflateInit {}) [[1, 0, 0], [255, 255]]).Over := notOver rfl (by simp [Session.start, isalInflateInit])
  obtain ⟨first, one⟩ := live _ .start idle 1
  have cut : ((Session.start (isalInflateInit {}) [[1, 0, 0], [255, 255]]).call 1).map (fun c => (c.ret, c.state.blockState)) =
      some (.decompOk, .hdr) := by decide
  rw [one, Option.map_some, Option.some.injEq, Prod.mk.injEq] at cut
  have going : ¬first.Over := notOver cut.1 (by rw [cut.2]; simp)
  obtain ⟨second, two⟩ := live first (.call .start idle 1 one) going 1
  have last : ((Session.start (isalInflateInit {}) [[1, 0, 0], [255, 255]]).call 1).bind (fun c => (c.call 1).map fun c =>
      (c.ret, c.state.blockState)) = some (.decompOk, .finish) := by decide
  rw [one, Option.bind_some, two, Option.map_some, Option.some.injEq, Prod.mk.injEq] at last
  obtain ⟨ret, t, done, verdict, -⟩ := same second (.call (.call .start idle 1 one) going 1 two) (Or.inl (Or.inr last.2)) 1 (by decide)
  refine ⟨ret, t, done, verdict.symm.trans ?_⟩
  rw [Session.verdict, last.1, last.2]
  rfl

end Sessions

end Isal.Inflate
