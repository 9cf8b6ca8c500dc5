import Isal.BlockBody
import Isal.InflateWrapper

/-! Decompression in one call gives what the reference decoder gives. -/
namespace Isal.Inflate

open Isal.Bits Isal.PrefixCode Isal.Rfc1951

variable {window : Nat} {hidden : List UInt8}

/-- How a loop over blocks ends. -/
inductive BlocksRead (window : Nat) (hidden : List UInt8) (start : InflateState) (r : State) :
    ReturnCode × InflateState → Prop
  | finished (s : InflateState) (r' : State) (run : Runs window r r') (sim : Sim window hidden s r') (calm : Calm s)
      (state : s.blockState = .inputDone) : BlocksRead window hidden start r (.decompOk, s)
  | header (s : InflateState) (r' : State) (ret : ReturnCode) (run : Runs window r r') (mode : r'.mode = .header)
      (fails : Parse.Fails (readBlock r'.bits)) (known : HeaderRet r'.bits ret) (kind : ret = .endInput ∨ ret = .invalidBlock)
      (calm : Calm s) (out : r'.out = s.produced hidden) : BlocksRead window hidden start r (ret, s)
  | body (ret : ReturnCode) (s : InflateState) (stops : ret ≠ .decompOk) (read : BodyRead window hidden start r (ret, s)) :
      BlocksRead window hidden start r (ret, s)

theorem BlocksRead.after {start : InflateState} {r r₁ : State} {result : ReturnCode × InflateState}
    (first : Runs window r r₁) (h : BlocksRead window hidden start r₁ result) :
    BlocksRead window hidden start r result := by
  cases h with
  | finished s r' run sim calm state => exact .finished s r' (first.trans run) sim calm state
  | header s r' ret run mode fails known kind calm out => exact .header s r' ret (first.trans run) mode fails known kind calm out
  | body ret s stops read => exact .body ret s stops (read.after first)

theorem ModeSim.ofHeader {s : InflateState} {m : Mode} (h : ModeSim window s m) (state : s.blockState = .newHdr) :
    m = .header := by
  cases h with
  | header here => rfl
  | stored _ _ _ _ here => rw [state] at here; cases here
  | coded _ _ _ _ here => rw [state] at here; cases here
  | done here => rw [state] at here; cases here

theorem ModeSim.ofDone {s : InflateState} {m : Mode} (h : ModeSim window s m) (state : s.blockState = .inputDone) :
    m = .done := by
  cases h with
  | header here => rw [state] at here; cases here
  | stored _ _ _ _ here => rw [state] at here; cases here
  | coded _ _ _ _ here => rw [state] at here; cases here
  | done here => rfl

theorem BodyRead.ofMaxDist {start start' : InflateState} {r : State} {result : ReturnCode × InflateState}
    (h : BodyRead window hidden start r result) (same : start.maxDist = start'.maxDist) :
    BodyRead window hidden start' r result := by
  cases h with
  | invalidSymbol s r' run bad within out spill => exact .invalidSymbol s r' run (same ▸ bad) within out spill
  | ended s r' run sim calm state => exact .ended s r' run sim calm state
  | outOverflow s r' run sim spill full excess => exact .outOverflow s r' run sim spill full excess
  | endInput s r' r'' run sim calm further more empty rests =>
    exact .endInput s r' r'' run sim calm further more empty rests
  | invalidLookback s r' run bad out spill => exact .invalidLookback s r' run bad out spill
  | pendingLookback s r' length dist run copies full beyond inside few all out spill =>
    exact .pendingLookback s r' length dist run copies full beyond inside few all out spill

/-- The loop over the blocks. The state it leaves is marked as finished where all went well. -/
theorem inflateBlocks_spec (rounds : Nat) {start s : InflateState} {r : State} (h : Sim window hidden s r) (calm : Calm s)
    (state : s.blockState = .newHdr) (bounded : Bounded window s r) (maxDist : s.maxDist = start.maxDist)
    (legal : r.Legal) (enough : r.bits.length + 1 < rounds) :
    ∃ ret t blockState, inflateBlocks rounds s = some (ret, { t with blockState }) ∧
      BlocksRead window hidden start r (ret, t) ∧ Frame s t := by
  induction rounds generalizing s r with
  | zero => omega
  | succ rounds ih =>
    have mode := h.mode.ofHeader state
    rw [inflateBlocks, if_neg (by rw [state]; exact nofun)]
    simp only [state, if_true]
    have read := readHeader_spec h.views
    have known : HeaderRet r.bits (readHeader s).1 := ⟨s, h.views, rfl⟩
    generalize readHeader s = result at read known
    obtain ⟨ret, t⟩ := result
    by_cases ok : ret = .decompOk
    · subst ok
      obtain ⟨r₁, first, sim, calm', frame⟩ := read.step h calm mode bounded
      obtain ⟨⟨ret, u⟩, body, done, frame'⟩ := decodeBody_spec sim calm'
      have done := done.ofMaxDist (frame.maxDist.trans maxDist)
      have progress := step_progress legal first.1
      rw [decodeBody] at body
      simp only [ne_eq, not_true, if_false, body]
      by_cases stops : ret = .decompOk
      · subst stops
        rw [if_neg (by simp)]
        cases done with
        | ended _ r₂ run sim' calm'' state' =>
          have legal' := step_legal legal first.1
          have shorter := run.steps.shrinks legal'
          rcases state' with header | last
          · simp only [header]
            have all := frame.trans frame'
            obtain ⟨ret, v, blockState, final, read', frame''⟩ :=
              ih sim' calm'' header (bounded.after ((Runs.single first).trans run).steps all.maxDist)
                (all.maxDist.trans maxDist) (run.legal legal') (by omega)
            exact ⟨ret, v, blockState, final, read'.after ((Runs.single first).trans run), all.trans frame''⟩
          · obtain ⟨more, rfl⟩ : ∃ more, rounds = more + 1 := ⟨rounds - 1, by omega⟩
            rw [if_pos last, inflateBlocks, if_pos rfl]
            exact ⟨_, u, _, rfl, .finished u r₂ ((Runs.single first).trans run) sim' calm'' last, frame.trans frame'⟩
      · rw [if_pos stops]
        exact ⟨ret, u, u.blockState, rfl, .body ret u stops (done.after (.single first)), frame.trans frame'⟩
    · simp only [ne_eq, ok, not_false_eq_true, if_true]
      cases read with
      | coded => exact absurd rfl ok
      | stored => exact absurd rfl ok
      | failed _ _ fails kind kept =>
        have frame := kept.frame
        obtain ⟨calm', produced⟩ := kept.calm calm hidden
        exact ⟨ret, t, t.blockState, rfl, .header t r ret (.refl r) mode fails known kind calm' (produced ▸ h.out), frame⟩

section Call

variable (s : InflateState) (input : List UInt8) (room : Nat)

/-- A raw deflate stream that is given whole, with some room for its output. -/
def InflateState.whole : InflateState := (isalInflateInit s).given input room

/-- The state in which the blocks are read. -/
theorem whole_sim : Sim 32768 [] (s.whole input room) ⟨.header, bytesBits input, []⟩ where
  views := by
    have views := views_initial input
    rw [bytesBits_length] at views ⊢
    exact views
  out := rfl
  enough := Or.inl rfl
  mode := .header rfl

theorem whole_bounded : Bounded 32768 (s.whole input room) ⟨.header, bytesBits input, []⟩ :=
  ⟨reaches_all (maxDist_le _), Or.inl (reaches_all (by decide))⟩

theorem isalInflateStateless_blocks :
    ∃ ret t blockState, isalInflateStateless (s.whole input room) =
        some (ret, ({ t with blockState } : InflateState).withIn t.unread) ∧
      inflateBlocks ((s.whole input room).bitsLeft + 2) (s.whole input room) = some (ret, { t with blockState }) ∧
      BlocksRead 32768 [] (s.whole input room) ⟨.header, bytesBits input, []⟩ (ret, t) ∧ Frame (s.whole input room) t := by
  have sim := whole_sim s input room
  obtain ⟨ret, t, blockState, done, read, frame⟩ := inflateBlocks_spec ((s.whole input room).bitsLeft + 2) sim ⟨rfl, rfl, rfl, rfl⟩ rfl
    (whole_bounded s input room) rfl (initial_legal _ _) (by rw [sim.bitsLeft]; omega)
  refine ⟨ret, t, blockState, ?_, done, read, frame⟩
  have raw : t.crcFlag = .deflate := congrArg (·.crcFlag) frame.rest
  exact isalInflateStateless_raw rfl raw done

/-- How the reference decoder ends when it is done with the stream. -/
theorem decode_finished {input : List UInt8} {t : State} (run : Steps ⟨.header, bytesBits input, []⟩ t)
    (mode : t.mode = .done) : decode input = (.finished, t) := by
  refine decode_eq run ?_
  rw [step, mode]

/-- The reference decoder does not finish where a step of it fails. -/
theorem decode_not_finished {input : List UInt8} {t u : State} (run : Steps ⟨.header, bytesBits input, []⟩ t)
    (stuck : step t = .more ∨ step t = .bad) : decode input ≠ (.finished, u) := by
  rcases stuck with more | bad
  · have same : decode input = (.incomplete, t) := decode_eq run (by rw [more])
    rw [same]
    exact nofun
  · have same : decode input = (.invalid, t) := decode_eq run (by rw [bad])
    rw [same]
    exact nofun

theorem fails_stuck {r : State} (mode : r.mode = .header) (fails : Parse.Fails (readBlock r.bits)) :
    step r = .more ∨ step r = .bad := by
  rw [step, mode]
  cases parsed : readBlock r.bits with
  | ok value rest => exact absurd parsed (fails value rest)
  | more => exact Or.inl rfl
  | bad => exact Or.inr rfl

/-- A run that has ended is what every other run comes to. -/
theorem finished_after {r t u : State} (last : Steps r u) (mode : u.mode = .done) (run : Steps r t) : Steps t u :=
  last.ended run fun v next => by
    rw [step, mode] at next
    cases next

theorem stored_grows {r u : State} {left : Nat} {final : Bool} (mode : r.mode = storedMode left final) (some_ : 0 < left)
    (legal : r.Legal) (run : Steps r u) (done : u.mode = .done) : r.out.length < u.out.length := by
  obtain ⟨n, rfl⟩ : ∃ n, left = n + 1 := ⟨left - 1, by omega⟩
  rcases Relation.ReflTransGen.cases_head run with rfl | ⟨v, next, rest⟩
  · rw [done] at mode
    cases mode
  · have longer := (Steps.output rest (step_legal legal next)).length_le
    rw [step, mode] at next
    obtain ⟨byte, left, -, next⟩ := outcome_next next
    cases next
    rw [List.length_append] at longer
    exact longer

/-- The library's decoding of a stream that the reference decoder finishes: it finishes too,
it runs out of room, or it takes pending literals for missing ones. -/
inductive Finishes (input : List UInt8) (room : Nat) (u : State) : ReturnCode × InflateState → Prop
  | finished (t : InflateState) (out : t.out = u.out) (views : Views t.toInStream (bitsVal u.bits) u.bits.length)
      (fits : u.out.length ≤ room) : Finishes input room u (.decompOk, t)
  | outOverflow (t : InflateState) (out : t.out = u.out.take room) (excess : room < u.out.length) :
      Finishes input room u (.outOverflow, t)
  | pendingLookback (t : InflateState) (r : State) (length dist : Nat) (run : Steps ⟨.header, bytesBits input, []⟩ r)
      (copies : r.Copies length dist) (before : room < r.out.length) (few : r.out.length ≤ room + 2) (beyond : room < dist)
      (inside : dist ≤ r.out.length) (excess : room < u.out.length) : Finishes input room u (.invalidLookback, t)

theorem blocks_finish {u : State} (decoded : decode input = (.finished, u)) {ret : ReturnCode} {t : InflateState}
    (h : BlocksRead 32768 [] (s.whole input room) ⟨.header, bytesBits input, []⟩ (ret, t))
    (frame : Frame (s.whole input room) t) : Finishes input room u (ret, t) := by
  obtain ⟨last, done⟩ := run_finished decoded
  have legal := initial_legal (bytesBits input) []
  have size : t.out.length + t.availOut = room := by
    have whole := frame.room
    simpa [InflateState.whole, InflateState.given] using whole
  have stuck : ∀ {r}, Runs 32768 ⟨.header, bytesBits input, []⟩ r → step r = .more ∨ step r = .bad → False :=
    fun run fails => decode_not_finished (u := u) run.steps fails decoded
  have onward : ∀ {r}, Runs 32768 ⟨.header, bytesBits input, []⟩ r → r.out <+: u.out :=
    fun run => (finished_after last done run.steps).output (run.legal legal)
  cases h with
  | finished _ r run sim calm state =>
    have mode := sim.mode.ofDone state
    have same : decode input = (.finished, r) := decode_finished run.steps mode
    rw [decoded] at same
    cases same
    have out := sim.out
    rw [calm.produced, List.nil_append] at out
    exact .finished t out.symm sim.views (by rw [out]; omega)
  | header _ r ret run mode fails known kind calm out => exact (stuck run (fails_stuck mode fails)).elim
  | body _ _ stops read =>
    cases read with
    | ended => exact absurd rfl stops
    | outOverflow _ r run sim spill full excess =>
      have start := (produced_out [] t).trans (sim.out ▸ onward run)
      rw [List.nil_append, List.prefix_iff_eq_take] at start
      have long := produced_length [] t
      have upTo := (onward run).length_le
      rw [← sim.out, List.length_nil] at long
      refine .outOverflow t ?_ ?_
      · have same : t.out.length = room := by omega
        rw [same] at start
        exact start
      · rcases excess with lits | ⟨state, left⟩
        · omega
        · obtain ⟨final, mode, -⟩ := sim.mode.ofStored state
          have := stored_grows mode left (run.legal legal) (finished_after last done run.steps) done
          omega
    | endInput _ r r' run sim calm further more => exact (stuck (run.trans further) (Or.inl more)).elim
    | invalidSymbol _ r run bad within out spill =>
      rcases bad with bad | beyond
      · exact (stuck run (Or.inr bad)).elim
      · exact absurd beyond.lt (Nat.lt_irrefl 30)
    | invalidLookback _ r run bad out spill => exact (stuck run (Or.inr bad.bad)).elim
    | pendingLookback _ r length dist run copies full beyond inside few all out spill =>
      have long := produced_length [] t
      have upTo := (onward run).length_le
      exact .pendingLookback t r length dist run.steps copies (by omega) (by omega) (by omega) inside (by omega)

/-- The whole bytes of the input that a decoding has touched. -/
def bytesRead (input : List UInt8) (rest : List Bool) : Nat := (8 * input.length - rest.length + 7) / 8

theorem unread_nextIn {t : InStream} {u : State} (views : Views t (bitsVal u.bits) u.bits.length) (buf : t.buf = input)
    (most : u.bits.length ≤ 8 * input.length) : t.unread.nextIn = bytesRead input u.bits := by
  have nonneg := views.nonneg
  have inside := views.inside
  have start := views.start
  have count := views.count
  rw [buf] at inside
  have back : t.unread.nextIn = t.nextIn - t.readInLength / 8 := by
    rw [← Int.tdiv_eq_ediv_of_nonneg nonneg]
    rfl
  rw [back, bytesRead]
  omega

/-- Decompression in one call succeeds on the streams that the reference decoder finishes
within the room, and with what it puts out. -/
theorem isalInflateStateless_ok :
    ∃ ret t, isalInflateStateless (s.whole input room) = some (ret, t) ∧
      (ret = .decompOk ↔ ∃ u, decode input = (.finished, u) ∧ u.out.length ≤ room) ∧
      ∀ u, decode input = (.finished, u) → ret = .decompOk →
        t.out = u.out ∧ t.totalOut = .ofNat u.out.length ∧ t.nextIn = bytesRead input u.bits := by
  obtain ⟨ret, t, blockState, done, -, read, frame⟩ := isalInflateStateless_blocks s input room
  have total : t.totalOut = .ofNat t.out.length := by
    have total := frame.total
    simpa [InflateState.whole, InflateState.given, isalInflateInit] using total
  refine ⟨ret, _, done, ⟨fun ok => ?_, fun ⟨u, decoded, fits⟩ => ?_⟩, fun u decoded ok => ?_⟩
  · cases read with
    | finished _ r run sim calm state =>
      have out := sim.out
      rw [calm.produced, List.nil_append] at out
      have within : t.out.length + t.availOut = 0 + room := frame.room
      exact ⟨r, decode_finished run.steps (sim.mode.ofDone state), by rw [out]; omega⟩
    | header _ _ _ _ _ _ _ kind =>
      rcases kind with more | bad <;> simp_all
    | body _ _ stops => exact absurd ok stops
  · cases blocks_finish s input room decoded read frame with
    | finished => rfl
    | outOverflow _ _ excess => omega
    | pendingLookback _ _ _ _ _ _ _ _ _ _ excess => omega
  · cases ok
    cases blocks_finish s input room decoded read frame with
    | finished _ out views fits =>
      have most := (run_finished decoded).1.shrinks (initial_legal _ _)
      rw [bytesBits_length] at most
      exact ⟨out, out ▸ total, unread_nextIn input views frame.buf most⟩

end Call

end Isal.Inflate
