import Isal.HeaderRestart
import Isal.InflateStateless

/-! The loop over the blocks where the input comes in pieces. -/
namespace Isal.Inflate

open Isal.Bits Isal.PrefixCode Isal.Rfc1951

variable {window : Nat} {hidden : List UInt8} {s t : InflateState} {r : State}

section Cleared

theorem Frame.cleared (h : Frame s t) : Frame s.cleared t.cleared where
  rest := congrArg InflateState.cleared h.rest
  buf := h.buf
  grows := h.grows
  room := h.room
  total := h.total

theorem Kept.cleared (h : Kept s t) : Frame s.cleared t.cleared := h.frame.cleared

theorem Calm.cleared (h : Calm s) : Calm s.cleared := ⟨h.lits, h.len, h.copy, h.distance⟩

/-- The input has been moved to another buffer. -/
theorem ModeSim.moved {m : Mode} (h : ModeSim window s m) (buf : List UInt8) (nextIn : Int) (availIn : Nat) (tmpIn : List UInt8) :
    ModeSim window { s with buf, nextIn, availIn, tmpIn } m := by
  cases h with
  | header state => exact .header state
  | stored final _ is_ bfinal state aligned clear => exact .stored final _ is_ bfinal state aligned clear
  | coded codes final limit bfinal state tables bound small reach =>
    exact .coded codes final limit bfinal state tables bound small reach
  | done state => exact .done state

end Cleared

/-- The place in the stream from which the decoding of blocks goes on. -/
inductive Place (window : Nat) (s : InflateState) (r : State) : Prop
  | inside (views : Views s.toInStream (bitsVal r.bits) r.bits.length) (mode : ModeSim window s r.mode) (none_ : s.tmpIn = []) :
      Place window s r
  | restart (mode : r.mode = .header) (at_ : AtRestart s r.bits) : Place window s r

/-- A state of the decompressor between two blocks, or anywhere else. -/
structure StreamSim (window : Nat) (hidden : List UInt8) (s : InflateState) (r : State) : Prop where
  out : r.out = s.produced hidden
  enough : hidden = [] ∨ histSize ≤ s.out.length
  place : Place window s r

theorem Sim.stream (sim : Sim window hidden s r) (none_ : s.tmpIn = []) : StreamSim window hidden s r :=
  ⟨sim.out, sim.enough, .inside sim.views sim.mode none_⟩

section Header

/-- How an attempt to read a header ends. -/
inductive HeaderAttempt (window : Nat) (hidden : List UInt8) (s : InflateState) (r : State) :
    ReturnCode × InflateState → Prop
  | ok (t : InflateState) (r' : State) (first : StepWithin window r r') (sim : Sim window hidden t r') (calm : Calm t)
      (none_ : t.tmpIn = []) : HeaderAttempt window hidden s r (.decompOk, t)
  | endInput (t : InflateState) (cut : HeaderRet r.bits .endInput) (at_ : AtRestart t r.bits) (empty : t.availIn = 0)
      (out : t.out = s.out) (calm : Calm t) : HeaderAttempt window hidden s r (.endInput, t)
  | invalidBlock (t : InflateState) (bad : HeaderRet r.bits .invalidBlock) (out : t.out = s.out) (calm : Calm t) :
      HeaderAttempt window hidden s r (.invalidBlock, t)

theorem readHeaderStateful_newHdr (state : s.blockState = .newHdr) :
    readHeaderStateful s =
      if (readHeader s).1 = .endInput then (.endInput, s.putAside (readHeader s).2) else ((readHeader s).1, (readHeader s).2.cleared) := by
  rw [readHeaderStateful, if_neg (by rw [state]; simp)]
  dsimp only
  split
  · rename_i ends
    rw [ends]
    rfl
  · rfl

theorem readHeaderStateful_hdr (state : s.blockState = .hdr) :
    readHeaderStateful s =
      if (readHeader s.enterTmpIn).1 = .endInput then (.endInput, s.putAside (s.leaveTmpIn (readHeader s.enterTmpIn).2))
      else ((readHeader s.enterTmpIn).1, (s.leaveTmpIn (readHeader s.enterTmpIn).2).cleared) := by
  rw [readHeaderStateful, if_pos state]
  dsimp only
  split
  · rename_i ends
    rw [ends]
    rfl
  · rfl

theorem Kept.putAside (kept : Kept s t) : Frame s.cleared (s.putAside t).cleared := by
  have rest := kept.cleared.rest
  have same := kept.1
  exact .of_eq rest kept.2 (congrArg (·.out) same) (congrArg (·.availOut) same) (congrArg (·.totalOut) same)

/-- The attempt at a header that starts with the bits at hand. -/
theorem AtStart.attempt (at_ : AtStart s r.bits) (mode : r.mode = .header) (out : r.out = s.produced hidden)
    (enough : hidden = [] ∨ histSize ≤ s.out.length) (calm : Calm s) (bounded : Bounded window s r) :
    HeaderAttempt window hidden s r (readHeaderStateful s) ∧ Frame s.cleared (readHeaderStateful s).2.cleared := by
  have read := readHeader_spec at_.views
  have known : HeaderRet r.bits (readHeader s).1 := ⟨s, at_.views, rfl⟩
  rw [readHeaderStateful_newHdr at_.state]
  generalize readHeader s = result at read known
  obtain ⟨ret, t⟩ := result
  by_cases ok : ret = .decompOk
  · subst ok
    obtain ⟨r', first, sim, calm', frame⟩ := read.enters at_.views out enough calm mode bounded
    refine ⟨.ok t.cleared r' first ⟨sim.views, sim.out, sim.enough, ?_⟩ calm'.cleared rfl, frame.cleared⟩
    exact sim.mode.moved t.buf t.nextIn t.availIn []
  · cases read with
    | coded => exact absurd rfl ok
    | stored => exact absurd rfl ok
    | failed _ _ fails kind kept =>
      obtain ⟨calm', -⟩ := kept.calm calm hidden
      rcases kind with rfl | rfl
      · refine ⟨.endInput _ known (at_.putAside kept.2 known) rfl (congrArg (·.out) kept.1) ?_, kept.putAside⟩
        exact ⟨calm'.lits, calm'.len, calm'.copy, calm'.distance⟩
      · exact ⟨.invalidBlock _ known (congrArg (·.out) kept.1) calm'.cleared, kept.cleared⟩

/-- What has been parsed of the header before, with the bits that are copied behind it -/
theorem readBlock_split {saved ext : List Bool} {block : Bool × Block} {rest : List Bool} (bytes : 8 ∣ ext.length)
    (cut : HeaderRet saved .endInput) (parsed : readBlock (saved ++ ext) = .ok block rest) : rest.length < ext.length := by
  obtain ⟨u, views, ends⟩ := cut
  rcases readHeader_ok views with ⟨ok, -⟩ | ⟨-, fails⟩
  · rw [ends] at ok
    cases ok
  · cases before : readBlock saved with
    | ok block rest => exact absurd before (fails block rest)
    | more => exact reader_readBlock.more bytes before parsed
    | bad =>
      rw [reader_readBlock.bad bytes before] at parsed
      cases parsed

theorem ReadyHeader.append {bits : List Bool} (ready : ReadyHeader bits) (ext : List Bool) : ReadyHeader (bits ++ ext) := by
  have long : 3 ≤ bits.length := by
    rcases ready with ⟨-, long⟩ | ⟨-, rest, own⟩
    · exact long
    · by_contra short
      rw [List.drop_of_length_le (by omega)] at own
      have many := congrArg List.length own
      rw [List.length_append, hdrBits_length, List.length_nil] at many
      omega
  have kind : bitsVal ((bits ++ ext).drop 1) % 2 ^ 2 = bitsVal (bits.drop 1) % 2 ^ 2 := by
    rw [List.drop_append_of_le_length (by omega)]
    exact field_eq _ ext (by rw [List.length_drop]; omega)
  rcases ready with ⟨static, -⟩ | ⟨dynamic, rest, own⟩
  · exact Or.inl ⟨kind.trans static, by rw [List.length_append]; omega⟩
  · refine Or.inr ⟨kind.trans dynamic, rest ++ ext, ?_⟩
    rw [List.drop_append_of_le_length long, own, List.append_assoc]

theorem Bounded.shorten {bits ext : List Bool} {out : List UInt8} (bytes : 8 ∣ ext.length)
    (bounded : Bounded window s ⟨.header, bits ++ ext, out⟩) : Bounded window s ⟨.header, bits, out⟩ := by
  refine ⟨bounded.1, bounded.2.imp id fun never r' run mode ready => ?_⟩
  exact never _ (run.extend (initial_legal bits out) bytes) mode (ready.append ext)

theorem step_header {r r' : State} (mode : r.mode = .header) (next : step r = .next r') :
    ∃ block, readBlock r.bits = .ok block r'.bits := by
  rw [step, mode] at next
  obtain ⟨⟨final, block⟩, rest, parsed, next⟩ := outcome_next next
  cases block with
  | stored n => cases n <;> (cases next; exact ⟨_, parsed⟩)
  | coded codes => cases next; exact ⟨_, parsed⟩

/-- The attempt at a header the beginning of which has been put aside. -/
theorem AtRestart.attempt (at_ : AtRestart s r.bits) (mode : r.mode = .header) (out : r.out = s.produced hidden)
    (enough : hidden = [] ∨ histSize ≤ s.out.length) (calm : Calm s) (bounded : Bounded window s r) :
    HeaderAttempt window hidden s r (readHeaderStateful s) ∧ Frame s.cleared (readHeaderStateful s).2.cleared := by
  obtain ⟨_, bits, isOut⟩ := r
  obtain rfl := mode
  obtain ⟨saved, split, aside, cut⟩ := at_.split
  obtain ⟨views, copied⟩ := at_.enter aside
  have size := at_.within.pending_length
  have whole : bits = saved ++ bytesBits (s.pending.take s.copySize) ++ bytesBits (s.pending.drop s.copySize) := by
    rw [List.append_assoc, ← bytesBits_append, List.take_append_drop]
    exact split
  have bytes : 8 ∣ (bytesBits (s.pending.drop s.copySize)).length := bytesBits_length _ ▸ Nat.dvd_mul_right _ _
  obtain ⟨first, isFirst⟩ : ∃ first, first = saved ++ bytesBits (s.pending.take s.copySize) := ⟨_, rfl⟩
  rw [← isFirst] at views copied whole
  have entered : Calm s.enterTmpIn := ⟨calm.lits, calm.len, calm.copy, calm.distance⟩
  have read := readHeader_spec views
  have known : HeaderRet first (readHeader s.enterTmpIn).1 := ⟨_, views, rfl⟩
  rw [readHeaderStateful_hdr at_.state]
  generalize readHeader s.enterTmpIn = result at read known
  obtain ⟨ret, t⟩ := result
  by_cases ok : ret = .decompOk
  · subst ok
    obtain ⟨r', ⟨next, inWindow⟩, sim, calm', frame⟩ := read.enters (r := ⟨.header, first, isOut⟩)
      views out enough entered rfl ((whole ▸ bounded).shorten bytes)
    obtain ⟨block, parsed⟩ := step_header rfl next
    have behind : r'.bits.length ≤ 8 * s.copySize := by
      dsimp only at parsed
      rw [isFirst] at parsed
      have fewer := readBlock_split (bytesBits_length _ ▸ Nat.dvd_mul_right _ _) cut parsed
      rw [bytesBits_length, List.length_take] at fewer
      omega
    have left := at_.leave frame.buf sim.views behind
    have next := step_extend (initial_legal first isOut) bytes next
    have stream : Sim window hidden (s.leaveTmpIn t).cleared (r'.extend (bytesBits (s.pending.drop s.copySize))) :=
      ⟨left, sim.out, sim.enough, sim.mode.moved _ _ _ []⟩
    rw [State.extend, ← whole] at next
    refine ⟨.ok _ _ ⟨next, fun length dist copies => ?_⟩ stream ⟨calm'.lits, calm'.len, calm'.copy, calm'.distance⟩ rfl, ?_⟩
    · obtain ⟨codes, final, rest, coded, -⟩ := copies
      cases coded
    · exact ⟨frame.cleared.rest, rfl, frame.grows, frame.room, frame.total⟩
  · cases read with
    | coded => exact absurd rfl ok
    | stored => exact absurd rfl ok
    | failed _ _ fails kind kept =>
      obtain ⟨calm', -⟩ := kept.calm entered hidden
      have frame : Frame s.cleared (s.leaveTmpIn t).cleared :=
        .of_eq kept.cleared.rest rfl (congrArg (·.out) kept.1) (congrArg (·.availOut) kept.1) (congrArg (·.totalOut) kept.1)
      have calm'' : Calm (s.leaveTmpIn t) := ⟨calm'.lits, calm'.len, calm'.copy, calm'.distance⟩
      rcases kind with rfl | rfl
      · have all : s.copySize = s.availIn := copied.resolve_right fun long => by
          obtain ⟨u, views, ends⟩ := known
          have := readHeader_cut views ends
          omega
        rw [all, ← size, List.drop_length, bytesBits_nil, List.append_nil] at whole
        rw [← whole] at known
        refine ⟨.endInput _ known (at_.putAside rfl known) rfl (congrArg (·.out) kept.1) ⟨calm'.lits, calm'.len, calm'.copy, calm'.distance⟩, ?_⟩
        exact .of_eq frame.rest rfl (congrArg (·.out) kept.1) (congrArg (·.availOut) kept.1) (congrArg (·.totalOut) kept.1)
      · obtain ⟨u, views, invalid⟩ := known
        have extended : Views (s.withIn (s.putAside s).aside).toInStream (bitsVal bits) bits.length := at_.whole s
        have bad : HeaderRet bits .invalidBlock :=
          ⟨_, extended, readHeader_append bytes views (by rw [← whole]; exact extended) invalid⟩
        exact ⟨.invalidBlock _ bad (congrArg (·.out) kept.1) calm''.cleared, frame⟩

end Header

section Blocks

/-- The reference decoder needs more input where the decompressor does so too. -/
def Cut (r : State) : Prop := step r = .more ∧ r.mode ≠ .header ∨ r.mode = .header ∧ HeaderRet r.bits .endInput

/-- The input has ended, and decoding goes on from the same place. -/
inductive Starved (s : InflateState) (r : State) : Prop
  | body (state : s.blockState = .type0 ∨ s.blockState = .coded) (stays : Stays s) : Starved s r
  | header (mode : r.mode = .header) (at_ : AtStart s r.bits ∨ AtRestart s r.bits) (cut : HeaderRet r.bits .endInput) :
      Starved s r

/-- The reference decoder is at a place that the decompressor takes for invalid. -/
inductive Bad (maxDist : Nat) : ReturnCode → State → Prop
  | block (r : State) (mode : r.mode = .header) (bad : HeaderRet r.bits .invalidBlock) : Bad maxDist .invalidBlock r
  | symbol (r : State) (bad : step r = .bad ∨ r.BeyondWindow maxDist) (within : r.mode ≠ .header) : Bad maxDist .invalidSymbol r
  | lookback (r : State) (bad : r.BeyondOutput) : Bad maxDist .invalidLookback r

/-- How the loop over the blocks ends. -/
inductive BlocksRun (window : Nat) (hidden : List UInt8) (start : InflateState) (r : State) :
    ReturnCode × InflateState → Prop
  | finished (ret : ReturnCode) (s : InflateState) (r' : State) (valid : ret.settle = .decompOk) (run : Runs window r r')
      (sim : Sim window hidden s r') (none_ : s.tmpIn = []) (calm : Calm s) (state : s.blockState = .inputDone) :
      BlocksRun window hidden start r (ret, s)
  | outOverflow (s : InflateState) (r' : State) (run : Runs window r r') (sim : Sim window hidden s r') (none_ : s.tmpIn = [])
      (spill : Spill s) (full : s.availOut = 0) (excess : Overfull s) : BlocksRun window hidden start r (.outOverflow, s)
  | endInput (s : InflateState) (r' r'' : State) (run : Runs window r r') (sim : StreamSim window hidden s r') (calm : Calm s)
      (further : Runs window r' r'') (cut : Cut r'') (empty : s.availIn = 0) (starved : Starved s r') :
      BlocksRun window hidden start r (.endInput, s)
  | invalid (ret : ReturnCode) (s : InflateState) (r' : State) (run : Runs window r r') (bad : Bad start.maxDist ret r')
      (out : r'.out = s.produced hidden) (spill : Spill s) : BlocksRun window hidden start r (ret, s)
  | pendingLookback (s : InflateState) (r' : State) (length dist : Nat) (run : Runs window r r')
      (copies : r'.Copies length dist) (full : s.availOut = 0) (beyond : s.out.length < dist)
      (inside : dist ≤ r'.out.length) (few : r'.out.length ≤ s.out.length + 2) (all : hidden = [])
      (out : r'.out = s.produced hidden) (spill : Spill s) : BlocksRun window hidden start r (.invalidLookback, s)

variable {start : InflateState}

theorem BlocksRun.after {r₁ : State} {result : ReturnCode × InflateState} (first : Runs window r r₁)
    (h : BlocksRun window hidden start r₁ result) : BlocksRun window hidden start r result := by
  cases h with
  | finished ret s r' valid run sim none_ calm state => exact .finished ret s r' valid (first.trans run) sim none_ calm state
  | outOverflow s r' run sim none_ spill full excess => exact .outOverflow s r' (first.trans run) sim none_ spill full excess
  | endInput s r' r'' run sim calm further cut empty starved =>
    exact .endInput s r' r'' (first.trans run) sim calm further cut empty starved
  | invalid ret s r' run bad out spill => exact .invalid ret s r' (first.trans run) bad out spill
  | pendingLookback s r' length dist run copies full beyond inside few all out spill =>
    exact .pendingLookback s r' length dist (first.trans run) copies full beyond inside few all out spill

theorem Frame.tmpIn (h : Frame s t) : t.tmpIn = s.tmpIn := by
  have same := congrArg (·.tmpIn) h.rest
  exact same

/-- No bits are no header. -/
theorem headerRet_nil : HeaderRet [] .endInput := by
  have views : Views ({ buf := [], availIn := 0 } : InflateState).toInStream (bitsVal []) ([] : List Bool).length := views_initial []
  refine ⟨_, views, ?_⟩
  rcases readHeader_kind views with ⟨-, ends⟩ | ⟨long, -⟩
  · exact ends
  · simp at long

/-- A body that has not come to its end. -/
theorem BodyRead.blocks {ret : ReturnCode} (h : BodyRead window hidden start r (ret, s)) (stops : ret ≠ .decompOk)
    (none_ : s.tmpIn = []) : BlocksRun window hidden start r (ret, s) := by
  cases h with
  | ended => exact absurd rfl stops
  | outOverflow _ r' run sim spill full excess => exact .outOverflow s r' run sim none_ spill full excess
  | endInput _ r' r'' run sim calm further more empty rests =>
    rcases rests with ⟨state, whole⟩ | ⟨noHeader, stays, within⟩
    · have mode := sim.mode.ofHeader state
      have cut : HeaderRet r'.bits .endInput := whole ▸ headerRet_nil
      exact .endInput s r' r' run (sim.stream none_) calm (.refl _) (Or.inr ⟨mode, cut⟩) empty
        (.header mode (Or.inl ⟨state, none_, sim.views⟩) cut)
    · have state : s.blockState = .type0 ∨ s.blockState = .coded := by
        by_contra neither
        rw [not_or] at neither
        rcases sim.mode.resting neither.1 neither.2 with header | done
        · exact noHeader header
        · have last : step r' = .done := by rw [step, sim.mode.ofDone done]
          rcases Relation.ReflTransGen.cases_head further.steps with rfl | ⟨v, next, -⟩
          · rw [last] at more
            cases more
          · rw [last] at next
            cases next
      exact .endInput s r' r'' run (sim.stream none_) calm further (Or.inl ⟨more, within⟩) empty (.body state stays)
  | invalidSymbol _ r' run bad within out spill => exact .invalid _ s r' run (.symbol r' bad within) out spill
  | invalidLookback _ r' run bad out spill => exact .invalid _ s r' run (.lookback r' bad) out spill
  | pendingLookback _ r' length dist run copies full beyond inside few all out spill =>
    exact .pendingLookback s r' length dist run copies full beyond inside few all out spill

theorem ModeSim.noRestart {m : Mode} (h : ModeSim window s m) : s.blockState ≠ .hdr := by
  intro restart
  cases h with
  | header here => cases here.symm.trans restart
  | stored _ _ _ _ here => cases here.symm.trans restart
  | coded _ _ _ _ here => cases here.symm.trans restart
  | done here => cases here.symm.trans restart

theorem StreamSim.noHeader (sim : StreamSim window hidden s r) (noRestart : s.blockState ≠ .hdr) :
    Sim window hidden s r ∧ s.tmpIn = [] := by
  cases sim.place with
  | inside views mode none_ => exact ⟨⟨views, sim.out, sim.enough, mode⟩, none_⟩
  | restart mode at_ => exact absurd at_.state noRestart

/-- An attempt to read a header, where one is due -/
theorem StreamSim.attempt (sim : StreamSim window hidden s r) (header : s.blockState = .newHdr ∨ s.blockState = .hdr) (calm : Calm s)
    (bounded : Bounded window s r) :
    r.mode = .header ∧ HeaderAttempt window hidden s r (readHeaderStateful s) ∧ Frame s.cleared (readHeaderStateful s).2.cleared := by
  cases sim.place with
  | inside views mode none_ =>
    have state : s.blockState = .newHdr := header.resolve_right mode.noRestart
    have isHeader := mode.ofHeader state
    exact ⟨isHeader, AtStart.attempt ⟨state, none_, views⟩ isHeader sim.out sim.enough calm bounded⟩
  | restart mode at_ => exact ⟨mode, at_.attempt mode sim.out sim.enough calm bounded⟩

/-- How many rounds the loop takes at most -/
def Rounds (s : InflateState) (r : State) : Nat :=
  if s.blockState = .type0 ∨ s.blockState = .coded then r.bits.length + 2 else r.bits.length + 1

/-- The body of a block, and the rest of the loop. -/
def decodeRest (rounds : Nat) (s : InflateState) : Option (ReturnCode × InflateState) :=
  match decodeBody s with
  | none => none
  | some (ret, s) => if ret ≠ .decompOk then some (ret, s) else decodeBlocks ret rounds s

theorem decodeBlocks_succ {ret : ReturnCode} {rounds : Nat} (state : s.blockState ≠ .inputDone) :
    decodeBlocks ret (rounds + 1) s =
      if s.blockState = .newHdr ∨ s.blockState = .hdr then
        if (readHeaderStateful s).1 ≠ .decompOk then some (readHeaderStateful s) else decodeRest rounds (readHeaderStateful s).2
      else decodeRest rounds s := by
  rw [decodeBlocks, if_neg state]
  by_cases header : s.blockState = .newHdr ∨ s.blockState = .hdr
  · simp only [if_pos header]
    rfl
  · simp only [if_neg header]
    rfl

/-- The loop over the blocks. -/
theorem decodeBlocks_spec (rounds : Nat) {ret : ReturnCode} (valid : ret.settle = .decompOk) (sim : StreamSim window hidden s r) (calm : Calm s)
    (bounded : Bounded window s r) (legal : r.Legal) (maxDist : s.maxDist = start.maxDist) (enough : Rounds s r ≤ rounds) :
    ∃ result, decodeBlocks ret rounds s = some result ∧ BlocksRun window hidden start r result ∧
      Frame s.cleared result.2.cleared := by
  induction rounds generalizing ret s r with
  | zero =>
    rw [Rounds] at enough
    split at enough <;> omega
  | succ rounds ih =>
    by_cases done : s.blockState = .inputDone
    · rw [decodeBlocks, if_pos done]
      obtain ⟨here, none_⟩ := sim.noHeader (by rw [done]; simp)
      exact ⟨_, rfl, .finished ret s r valid (.refl r) here none_ calm done, .refl _⟩
    have rest : ∀ {t : InflateState} {r : State}, Sim window hidden t r → t.tmpIn = [] → Calm t → Bounded window t r → r.Legal →
        t.maxDist = start.maxDist → r.bits.length + 1 ≤ rounds →
        ∃ result, decodeRest rounds t = some result ∧ BlocksRun window hidden start r result ∧ Frame t.cleared result.2.cleared := by
      intro t r sim none_ calm bounded legal maxDist enough
      obtain ⟨⟨ret, u⟩, body, read, frame⟩ := decodeBody_spec sim calm
      have read := read.ofMaxDist maxDist
      have none_' : u.tmpIn = [] := frame.tmpIn.trans none_
      rw [decodeRest, body]
      by_cases stops : ret = .decompOk
      · subst stops
        cases read with
        | ended _ r' run sim' calm' state =>
          have shorter := run.steps.shrinks legal
          have enough' : Rounds u r' ≤ rounds := by
            rw [Rounds, if_neg (by rcases state with state | state <;> rw [state] <;> decide)]
            omega
          obtain ⟨result, decoded, read, frame'⟩ := ih (show ReturnCode.settle .decompOk = .decompOk from rfl) (sim'.stream none_') calm' (bounded.after run.steps frame.maxDist)
            (run.legal legal) (frame.maxDist.trans maxDist) enough'
          exact ⟨result, decoded, read.after run, frame.cleared.trans frame'⟩
      · exact ⟨_, if_pos stops, read.blocks stops none_', frame.cleared⟩
    rw [decodeBlocks_succ done]
    by_cases header : s.blockState = .newHdr ∨ s.blockState = .hdr
    · rw [if_pos header]
      obtain ⟨mode, attempt, frame⟩ := sim.attempt header calm bounded
      generalize readHeaderStateful s = result at attempt frame
      cases attempt with
      | ok t r' first sim' calm' none_ =>
        have shorter := (step_progress legal first.1).1
        have few : Rounds s r = r.bits.length + 1 := by
          rw [Rounds, if_neg (by rcases header with state | state <;> rw [state] <;> decide)]
        obtain ⟨result, decoded, read, frame'⟩ := rest sim' none_ calm' (bounded.after (.single first.1) frame.maxDist)
          (step_legal legal first.1) (frame.maxDist.trans maxDist) (by omega)
        exact ⟨result, decoded, read.after (.single first), frame.trans frame'⟩
      | endInput t cut at_ empty out calm' =>
        have produced : r.out = t.produced hidden := by rw [calm'.produced, out, ← calm.produced, sim.out]
        refine ⟨_, rfl, .endInput t r r (.refl r) ⟨produced, by rw [out]; exact sim.enough, .restart mode at_⟩ calm' (.refl r)
          (Or.inr ⟨mode, cut⟩) empty (.header mode (Or.inr at_) cut), frame⟩
      | invalidBlock t bad out calm' =>
        have produced : r.out = t.produced hidden := by rw [calm'.produced, out, ← calm.produced, sim.out]
        exact ⟨_, rfl, .invalid _ t r (.refl r) (.block r mode bad) produced calm'.spill, frame⟩
    · rw [if_neg header]
      rw [not_or] at header
      obtain ⟨here, none_⟩ := sim.noHeader header.2
      have state : s.blockState = .type0 ∨ s.blockState = .coded := by
        by_contra neither
        rw [not_or] at neither
        rcases here.mode.resting neither.1 neither.2 with start | last
        · exact header.1 start
        · exact done last
      rw [Rounds, if_pos state] at enough
      exact rest here none_ calm bounded legal maxDist (by omega)

end Blocks

end Isal.Inflate
