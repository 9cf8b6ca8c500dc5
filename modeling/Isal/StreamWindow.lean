import Isal.StreamBlocks

/-! The window of a decompression over several calls: output that has not been handed over and
the history before it, in the internal buffer or in the buffer of the caller. -/
namespace Isal.Inflate

open Isal.Bits Isal.PrefixCode Isal.Rfc1951

variable {window : Nat} {hidden : List UInt8} {s t : InflateState} {r : State}

section Reading

theorem Place.reading (h : Place window s r) (same : t.reading = s.reading) : Place window t r := by
  have stream : t.toInStream = s.toInStream := congrArg (·.toInStream) same
  have tmpIn : t.tmpIn = s.tmpIn := congrArg (·.tmpIn) same
  have state : t.blockState = s.blockState := congrArg (·.blockState) same
  cases h with
  | inside views mode none_ => exact .inside (stream ▸ views) (mode.reading same) (tmpIn.trans none_)
  | restart mode at_ =>
    obtain ⟨here, within, saved, split, views, cut⟩ := at_
    refine .restart mode ⟨state.trans here, stream ▸ within, saved, stream ▸ split, ?_, cut⟩
    rw [InflateState.aside, stream, tmpIn]
    exact views

theorem Stays.reading (h : Stays s) (same : t.reading = s.reading) : Stays t :=
  fun u here calm => h u (here.trans same) calm

theorem Starved.notDone (h : Starved s r) : s.blockState ≠ .inputDone := by
  intro done
  cases h with
  | body here stays => rcases here with here | here <;> cases here.symm.trans done
  | header mode at_ cut => rcases at_ with at_ | at_ <;> cases at_.state.symm.trans done

theorem Starved.reading (h : Starved s r) (same : t.reading = s.reading) : Starved t r := by
  have stream : t.toInStream = s.toInStream := congrArg (·.toInStream) same
  have tmpIn : t.tmpIn = s.tmpIn := congrArg (·.tmpIn) same
  have state : t.blockState = s.blockState := congrArg (·.blockState) same
  cases h with
  | body here stays => exact .body (state ▸ here) (stays.reading same)
  | header mode at_ cut =>
    refine .header mode (at_.imp (fun h => ⟨state.trans h.state, tmpIn.trans h.none_, stream ▸ h.views⟩) fun h => ?_) cut
    obtain ⟨here, within, saved, split, views, cut⟩ := h
    refine ⟨state.trans here, stream ▸ within, saved, stream ▸ split, ?_, cut⟩
    rw [InflateState.aside, stream, tmpIn]
    exact views

end Reading

section Overflow

theorem storeOverflow_bytes (s : InflateState) (bytes : List UInt8) :
    (s.storeOverflow bytes).1 = Rfc1951.copyMatch s.copyOverflowDistance s.copyOverflowLength (bytes ++ s.pendingLits) := by
  have lits : s.writeOverflowLen = 0 → bytes ++ s.pendingLits = bytes := by
    intro none
    rw [InflateState.pendingLits, none, toLeBytes, List.append_nil]
  have copies : s.copyOverflowLength = 0 →
      Rfc1951.copyMatch s.copyOverflowDistance s.copyOverflowLength (bytes ++ s.pendingLits) = bytes ++ s.pendingLits := by
    intro none
    rw [none]
    rfl
  rw [InflateState.storeOverflow]
  by_cases len : s.writeOverflowLen = 0
  · by_cases copy : s.copyOverflowLength = 0
    · rw [copies copy, lits len]
      simp [len, copy]
    · rw [lits len, ← byteCopy_eq]
      simp [len, copy]
  · by_cases copy : s.copyOverflowLength = 0
    · rw [copies copy]
      simp [len, copy, InflateState.pendingLits]
    · rw [← byteCopy_eq]
      simp [len, copy, InflateState.pendingLits]

theorem storeOverflow_state (spill : Spill s) (bytes : List UInt8) :
    (s.storeOverflow bytes).2 = { s with
      totalOut := s.totalOut + .ofNat (s.writeOverflowLen + s.copyOverflowLength)
      writeOverflowLits := 0, writeOverflowLen := 0, copyOverflowLength := 0, copyOverflowDistance := 0 } := by
  have noLits := spill.noLits
  have noCopy := spill.noCopy
  rw [InflateState.storeOverflow]
  by_cases len : s.writeOverflowLen = 0
  · by_cases copy : s.copyOverflowLength = 0
    · have lits := noLits len
      have distance := noCopy copy
      cases s
      simp_all
    · have lits := noLits len
      cases s
      simp_all
  · by_cases copy : s.copyOverflowLength = 0
    · have distance := noCopy copy
      cases s
      simp_all
    · simp [len, copy, UInt32.add_assoc]

end Overflow

/-- What has been handed over, and behind it output in the internal buffer that has not -/
structure Pending (before : List UInt8) (s : InflateState) (out : List UInt8) : Prop where
  processed : s.tmpOutProcessed ≤ s.tmpOut.length
  size : s.tmpOut.length ≤ tmpOutSize
  content : out = before ++ s.tmpOut.drop s.tmpOutProcessed

/-- The internal buffer ends in all the history that a match may reach. -/
def History (s : InflateState) (out : List UInt8) : Prop :=
  ∃ hidden, out = hidden ++ s.tmpOut ∧ (hidden = [] ∨ histSize ≤ s.tmpOut.length)

/-- What a call leaves alone -/
def InflateState.constant (s : InflateState) : InflateState :=
  { s.withoutBlock with tmpIn := [], tmpOut := [], tmpOutProcessed := 0, crc := 0 }

structure CallFrame (s t : InflateState) : Prop where
  rest : t.constant = s.constant
  buf : t.buf = s.buf

theorem CallFrame.refl (s : InflateState) : CallFrame s s := ⟨rfl, rfl⟩

theorem CallFrame.trans {u : InflateState} (first : CallFrame s t) (second : CallFrame t u) : CallFrame s u :=
  ⟨second.rest.trans first.rest, second.buf.trans first.buf⟩

theorem CallFrame.maxDist (h : CallFrame s t) : t.maxDist = s.maxDist := by
  have same := congrArg InflateState.maxDist h.rest
  exact same

theorem CallFrame.crcFlag (h : CallFrame s t) : t.crcFlag = s.crcFlag := by
  have same := congrArg (·.crcFlag) h.rest
  exact same

theorem Frame.call (h : Frame s.cleared t.cleared) : CallFrame s t where
  rest := congrArg (fun u => { u with tmpIn := [], tmpOut := [], tmpOutProcessed := 0, crc := 0 }) h.rest
  buf := h.buf

theorem Place.rounds (h : Place window s r) : r.bits.length + 2 ≤ s.blockRounds := by
  rw [InflateState.blockRounds]
  cases h with
  | inside views mode none_ =>
    have count := views.count
    rw [InStream.bitsLeft]
    omega
  | restart mode at_ =>
    obtain ⟨saved, split, views, -⟩ := at_.split
    have size := at_.within.pending_length
    have count := views.count
    have nonneg := views.nonneg
    have held : s.aside.availIn = s.tmpIn.length := rfl
    have same : s.aside.readInLength = s.readInLength := rfl
    rw [InStream.bitsLeft, split, List.length_append, bytesBits_length]
    omega

theorem Rounds_le (s : InflateState) (r : State) : Rounds s r ≤ r.bits.length + 2 := by
  rw [Rounds]
  split <;> omega

section Fill

/-- The decoding into the internal buffer has stopped since the stream is over, since the buffer is full, or since there
is no more input. -/
inductive Rests (window : Nat) (s : InflateState) (r : State) : Prop
  | done (state : s.blockState = .inputDone) : Rests window s r
  | full (state : s.blockState ≠ .inputDone) (long : 2 * histSize ≤ s.tmpOut.length) : Rests window s r
  | starved (state : s.blockState ≠ .inputDone) (empty : s.availIn = 0) (starved : Starved s r) (r' : State)
      (further : Runs window r r') (cut : Cut r') : Rests window s r

/-- What the decoding into the internal buffer leaves alone, and what it adds to `total_out` -/
structure FillFrame (s t : InflateState) (first last : List UInt8) : Prop where
  frame : CallFrame s t
  out : t.out = s.out
  room : t.availOut = s.availOut
  processed : t.tmpOutProcessed = s.tmpOutProcessed
  crc : t.crc = s.crc
  total : t.totalOut = s.totalOut + .ofNat (last.length - first.length)

theorem FillFrame.refl (s : InflateState) (out : List UInt8) : FillFrame s s out out :=
  ⟨.refl s, rfl, rfl, rfl, rfl, by simp⟩

/-- How the decoding into the internal buffer ends. -/
inductive FillRead (window : Nat) (before : List UInt8) (start : InflateState) (r : State) : ReturnCode × InflateState → Prop
  | rests (ret : ReturnCode) (s : InflateState) (r' : State) (valid : ret.settle = .decompOk) (run : Runs window r r') (place : Place window s r')
      (calm : Calm s) (pending : Pending before s r'.out) (history : s.blockState ≠ .inputDone → History s r'.out)
      (stops : Rests window s r') (past : start.blockState = .inputDone → s.blockState = .inputDone)
      (filled : FillFrame start s r.out r'.out) : FillRead window before start r (ret, s)
  | invalid (ret : ReturnCode) (s : InflateState) (r' : State) (run : Runs window r r') (bad : Bad start.maxDist ret r')
      (pending : Pending before s r'.out) (filled : FillFrame start s r.out r'.out) : FillRead window before start r (ret, s)

/-- The state after the decoding into the internal buffer -/
def InflateState.filled (s u : InflateState) : InflateState :=
  { (u.storeOverflow u.out).2 with tmpOut := (u.storeOverflow u.out).1, out := s.out, availOut := s.availOut }

theorem filled_reading {u : InflateState} (spill : Spill u) : (s.filled u).reading = u.reading := by
  rw [InflateState.filled, storeOverflow_state spill]
  rfl

theorem filled_calm {u : InflateState} (spill : Spill u) : Calm (s.filled u) := by
  rw [InflateState.filled, storeOverflow_state spill]
  exact ⟨rfl, rfl, rfl, rfl⟩

/-- The state in which the decoding into the internal buffer starts -/
def InflateState.filling (s : InflateState) : InflateState :=
  { s with out := s.tmpOut, availOut := tmpOutSize - lookAhead - s.tmpOut.length }

theorem fillTmpOut_eq (room : s.tmpOut.length < 2 * histSize) {ret : ReturnCode} {u : InflateState}
    (decoded : decodeBlocks .decompOk s.filling.blockRounds s.filling = some (ret, u)) :
    fillTmpOut s = some (ret, s.filled u) := by
  rw [InflateState.filling] at decoded
  rw [fillTmpOut, if_pos room]
  simp only [decoded]
  rfl

/-- What the buffer holds after it has been decoded into -/
theorem filled_pending {before : List UInt8} {u : InflateState} {out out' : List UInt8} (pending : Pending before s out)
    (isOut : out = hidden ++ s.tmpOut) (enough : hidden = [] ∨ histSize ≤ s.tmpOut.length) (frame : Frame s.filling.cleared u.cleared)
    (spill : Spill u) (produced : out' = u.produced hidden) (room : s.tmpOut.length < 2 * histSize) :
    Pending before (s.filled u) out' ∧ History (s.filled u) out' := by
  obtain ⟨tmpOut, isTmpOut⟩ : ∃ tmpOut, tmpOut = (u.storeOverflow u.out).1 := ⟨_, rfl⟩
  have buffer : (s.filled u).tmpOut = tmpOut := isTmpOut.symm
  have place : (s.filled u).tmpOutProcessed = s.tmpOutProcessed := by
    have same := congrArg (·.tmpOutProcessed) frame.rest
    rw [InflateState.filled, storeOverflow_state spill]
    exact same
  rw [storeOverflow_bytes] at isTmpOut
  have whole : out' = hidden ++ tmpOut := by
    have inside : u.copyOverflowDistance ≤ (u.out ++ u.pendingLits).length := by
      rw [List.length_append]
      exact Nat.le_trans spill.inside (Nat.le_add_right _ _)
    rw [produced, InflateState.produced, List.append_assoc, copyMatch_hidden hidden inside, isTmpOut]
  have grows : s.tmpOut <+: tmpOut := by
    obtain ⟨copied, same, -⟩ := copyMatch_eq u.copyOverflowDistance u.copyOverflowLength (u.out ++ u.pendingLits)
    rw [isTmpOut, same, List.append_assoc]
    exact frame.grows.trans (List.prefix_append _ _)
  have size : tmpOut.length ≤ tmpOutSize := by
    have fits : u.out.length + u.availOut = s.tmpOut.length + (tmpOutSize - lookAhead - s.tmpOut.length) := frame.room
    have lits := spill.lits
    have copy := spill.copy
    have here : u.pendingLits.length = u.writeOverflowLen := toLeBytes_length _ _
    rw [isTmpOut, copyMatch_length, List.length_append, here]
    simp only [tmpOutSize, lookAhead, histSize] at fits room ⊢
    omega
  have split : before = hidden ++ s.tmpOut.take s.tmpOutProcessed := by
    have content := pending.content
    rw [isOut] at content
    conv at content => lhs; rw [← List.take_append_drop s.tmpOutProcessed s.tmpOut, ← List.append_assoc]
    exact (List.append_cancel_right content).symm
  have processed := pending.processed
  have longer := grows.length_le
  refine ⟨⟨by rw [buffer, place]; omega, by rw [buffer]; exact size, ?_⟩, hidden, by rw [buffer]; exact whole, ?_⟩
  · obtain ⟨more, rfl⟩ := grows
    rw [buffer, place, whole, split, List.append_assoc, List.append_cancel_left_eq, List.drop_append_of_le_length processed,
      ← List.append_assoc, List.take_append_drop]
  · rw [buffer]
    exact enough.imp id fun long => Nat.le_trans long longer

theorem filled_self (calm : Calm s) : s.filled s.filling = s := by
  have lits := calm.lits
  have len := calm.len
  have copy := calm.copy
  have distance := calm.distance
  cases s
  simp_all [InflateState.filled, InflateState.filling, InflateState.storeOverflow]

theorem filled_filled {u : InflateState} {out out' : List UInt8} (isOut : out = hidden ++ s.tmpOut)
    (frame : Frame s.filling.cleared u.cleared) (spill : Spill u) (produced : out' = u.produced hidden) :
    FillFrame s (s.filled u) out out' := by
  have whole := congrArg List.length produced
  rw [produced_length] at whole
  have start := congrArg List.length isOut
  rw [List.length_append] at start
  have upTo : s.tmpOut.length ≤ u.out.length := frame.grows.length_le
  have total : u.totalOut = s.totalOut + .ofNat (u.out.length - s.tmpOut.length) := frame.total
  rw [InflateState.filled, storeOverflow_state spill]
  refine ⟨⟨frame.call.rest, frame.call.buf⟩, rfl, rfl, congrArg (·.tmpOutProcessed) frame.rest, congrArg (·.crc) frame.rest, ?_⟩
  change u.totalOut + .ofNat (u.writeOverflowLen + u.copyOverflowLength) = _
  rw [total, UInt32.add_assoc, ← UInt32.ofNat_add]
  congr 2
  omega

/-- Decode into internal buffer until exit. -/
theorem fillTmpOut_spec {before : List UInt8} (place : Place window s r) (calm : Calm s) (pending : Pending before s r.out)
    (history : s.blockState ≠ .inputDone → History s r.out) (bounded : Bounded window s r) (legal : r.Legal) :
    ∃ result, fillTmpOut s = some result ∧ FillRead window before s r result := by
  have settled : ReturnCode.settle .decompOk = .decompOk := rfl
  by_cases room : s.tmpOut.length < 2 * histSize
  · by_cases done : s.blockState = .inputDone
    · have decoded : decodeBlocks .decompOk s.filling.blockRounds s.filling = some (.decompOk, s.filling) := by
        rw [InflateState.blockRounds, decodeBlocks]
        exact if_pos done
      refine ⟨_, fillTmpOut_eq room decoded, ?_⟩
      rw [filled_self calm]
      exact .rests _ s r settled (.refl r) place calm pending (fun never => absurd done never) (.done done)
        (fun _ => done) (.refl s r.out)
    · obtain ⟨hidden, isOut, enough⟩ := history done
      have calm' : Calm s.filling := ⟨calm.lits, calm.len, calm.copy, calm.distance⟩
      have place' : Place window s.filling r := place.reading rfl
      have sim : StreamSim window hidden s.filling r := ⟨by rw [calm'.produced]; exact isOut, enough, place'⟩
      obtain ⟨⟨ret, u⟩, decoded, read, frame⟩ := decodeBlocks_spec s.filling.blockRounds settled sim calm' bounded legal rfl
        (Nat.le_trans (Rounds_le _ _) place'.rounds)
      refine ⟨_, fillTmpOut_eq room decoded, ?_⟩
      have full : u.availOut = 0 → u.out.length = 2 * histSize := by
        intro none
        have fits : u.out.length + u.availOut = s.tmpOut.length + (tmpOutSize - lookAhead - s.tmpOut.length) := frame.room
        simp only [tmpOutSize, lookAhead, histSize] at fits room ⊢
        omega
      cases read with
      | finished ret _ r' valid run sim none_ calm state =>
        obtain ⟨pending, history⟩ := filled_pending pending isOut enough frame calm.spill sim.out room
        have state : (s.filled u).blockState = .inputDone := by
          rw [InflateState.filled, storeOverflow_state calm.spill]
          exact state
        exact .rests ret _ r' valid run ((sim.stream none_).place.reading (filled_reading calm.spill)) (filled_calm calm.spill) pending
          (fun _ => history) (.done state) (fun past => absurd past done) (filled_filled isOut frame calm.spill sim.out)
      | outOverflow _ r' run sim none_ spill none excess =>
        obtain ⟨pending, history⟩ := filled_pending pending isOut enough frame spill sim.out room
        refine .rests _ _ r' (by decide) run ((sim.stream none_).place.reading (filled_reading spill)) (filled_calm spill) pending
          (fun _ => history) ?_ (fun past => absurd past done) (filled_filled isOut frame spill sim.out)
        by_cases state : (s.filled u).blockState = .inputDone
        · exact .done state
        · refine .full state ?_
          have whole : (s.filled u).tmpOut = (u.storeOverflow u.out).1 := rfl
          rw [whole, storeOverflow_bytes, copyMatch_length, List.length_append, full none]
          omega
      | endInput _ r' r'' run sim calm further cut empty starved =>
        obtain ⟨pending, history⟩ := filled_pending pending isOut enough frame calm.spill sim.out room
        have same := filled_reading (s := s) calm.spill
        have starved := starved.reading same
        have stream : (s.filled u).toInStream = u.toInStream := congrArg (·.toInStream) same
        exact .rests _ _ r' (by decide) run (sim.place.reading same) (filled_calm calm.spill) pending (fun _ => history)
          (.starved starved.notDone (by rw [stream]; exact empty) starved r'' further cut)
          (fun past => absurd past done) (filled_filled isOut frame calm.spill sim.out)
      | invalid _ _ r' run bad out spill =>
        exact .invalid _ _ r' run bad (filled_pending pending isOut enough frame spill out room).1 (filled_filled isOut frame spill out)
      | pendingLookback _ r' length dist run copies none beyond =>
        have far := copies.dist_le
        have long := full none
        rw [histSize] at long
        omega
  · rw [fillTmpOut, if_neg room]
    by_cases done : s.blockState = .inputDone
    · exact ⟨_, rfl, .rests _ s r settled (.refl r) place calm pending history (.done done) id (.refl s r.out)⟩
    · exact ⟨_, rfl, .rests _ s r settled (.refl r) place calm pending history (.full done (by omega)) id (.refl s r.out)⟩

end Fill

section Direct

/-- A header that is cut off is no step of the reference decoder. -/
theorem cut_stuck (mode : r.mode = .header) (cut : HeaderRet r.bits .endInput) (r' : State) : step r ≠ .next r' := by
  intro next
  obtain ⟨block, parsed⟩ := step_header mode next
  obtain ⟨u, views, ends⟩ := cut
  rcases readHeader_ok views with ⟨ok, -⟩ | ⟨-, fails⟩
  · rw [ends] at ok
    cases ok
  · exact fails _ _ parsed

/-- Where the input has ended decoding stays, whatever has become of the output. -/
theorem decodeBlocks_starved (starved : Starved s r) (place : Place window s r) (calm : Calm s) (empty : s.availIn = 0)
    {ret : ReturnCode} (rounds : Nat) :
    ∃ t, decodeBlocks ret (rounds + 1) s = some (.endInput, t) ∧ Place window t r ∧ Calm t ∧ t.out = s.out ∧ t.availIn = 0 ∧
      Frame s.cleared t.cleared := by
  rw [decodeBlocks_succ starved.notDone]
  cases starved with
  | body state stays =>
    rw [if_neg (by rcases state with state | state <;> rw [state] <;> decide), decodeRest, stays s rfl calm]
    exact ⟨s, rfl, place, calm, rfl, empty, .refl _⟩
  | header mode at_ cut =>
    have bounded : Bounded 32768 s ⟨.header, r.bits, s.out⟩ := ⟨reaches_all (maxDist_le s), Or.inl (reaches_all (by decide))⟩
    have out : s.out = s.produced [] := by rw [calm.produced, List.nil_append]
    have attempt : HeaderAttempt 32768 [] s ⟨.header, r.bits, s.out⟩ (readHeaderStateful s) ∧
        Frame s.cleared (readHeaderStateful s).2.cleared := by
      rcases at_ with at_ | at_
      · exact AtStart.attempt at_ rfl out (Or.inl rfl) calm bounded
      · exact AtRestart.attempt at_ rfl out (Or.inl rfl) calm bounded
    rw [if_pos (at_.imp (·.state) (·.state))]
    obtain ⟨attempt, frame⟩ := attempt
    generalize readHeaderStateful s = result at attempt frame
    cases attempt with
    | ok t r' first => exact absurd first.1 (cut_stuck (r := ⟨.header, r.bits, s.out⟩) rfl cut r')
    | endInput t _ at_ empty out calm' => exact ⟨t, rfl, .restart mode at_, calm', out, empty, frame⟩
    | invalidBlock t bad => cases cut.unique bad

/-- A call has stopped without an error since the output is full, since the stream is over, or since there is no more
input. -/
inductive CallEnd (window : Nat) (s : InflateState) (r : State) : Prop
  | full (none_ : s.availOut = 0) : CallEnd window s r
  | done (calm : Calm s) (whole : s.tmpOutProcessed = s.tmpOut.length) (state : s.blockState = .inputDone) : CallEnd window s r
  | starved (calm : Calm s) (whole : s.tmpOutProcessed = s.tmpOut.length) (empty : s.availIn = 0) (r' : State)
      (further : Runs window r r') (cut : Cut r') : CallEnd window s r

/-- Decoding into the buffer of the caller, once all of the internal buffer has been copied there -/
def decodeDirect (ret : ReturnCode) (s : InflateState) : Option (ReturnCode × InflateState) :=
  if s.tmpOutProcessed = s.tmpOut.length then decodeBlocks ret s.blockRounds s else some (ret, s)

/-- How the decoding into the buffer of the caller ends. -/
inductive DirectRead (window : Nat) (before : List UInt8) (start : InflateState) (r : State) : ReturnCode × InflateState → Prop
  | keeps (ret : ReturnCode) (s : InflateState) (valid : ret.settle = .decompOk) (place : Place window s r) (calm : Calm s) (out : s.out = start.out)
      (past : start.blockState = .inputDone → s.blockState = .inputDone) (ends : CallEnd window s r) : DirectRead window before start r (ret, s)
  | writes (ret : ReturnCode) (s : InflateState) (r' : State) (valid : ret.settle = .decompOk) (run : Runs window r r') (place : Place window s r')
      (spill : Spill s) (produced : r'.out = s.produced before) (long : histSize ≤ s.out.length)
      (whole : s.tmpOutProcessed = s.tmpOut.length) (ends : CallEnd window s r') : DirectRead window before start r (ret, s)
  | invalid (ret : ReturnCode) (s : InflateState) (r' : State) (run : Runs window r r') (bad : Bad start.maxDist ret r')
      (spill : Spill s) (produced : r'.out = s.produced before) (long : histSize ≤ s.out.length)
      (whole : s.tmpOutProcessed = s.tmpOut.length) : DirectRead window before start r (ret, s)

theorem Frame.tmpOut (h : Frame s.cleared t.cleared) : t.tmpOut = s.tmpOut ∧ t.tmpOutProcessed = s.tmpOutProcessed :=
  ⟨congrArg (·.tmpOut) h.rest, congrArg (·.tmpOutProcessed) h.rest⟩

theorem decodeDirect_spec {before : List UInt8} {ret : ReturnCode} (valid : ret.settle = .decompOk) (place : Place window s r) (calm : Calm s)
    (pending : Pending (before ++ s.out) s r.out) (stops : Rests window s r) (bounded : Bounded window s r) (legal : r.Legal)
    (copied : s.tmpOutProcessed = s.tmpOut.length ∨ s.availOut = 0)
    (long : s.blockState ≠ .inputDone → s.tmpOutProcessed = s.tmpOut.length → 2 * histSize ≤ s.tmpOut.length → histSize ≤ s.out.length) :
    ∃ result, decodeDirect ret s = some result ∧ DirectRead window before s r result ∧ Frame s.cleared result.2.cleared := by
  rw [decodeDirect]
  by_cases whole : s.tmpOutProcessed = s.tmpOut.length
  · rw [if_pos whole]
    cases stops with
    | done state =>
      refine ⟨(ret, s), ?_, .keeps ret s valid place calm rfl id (.done calm whole state), .refl _⟩
      rw [InflateState.blockRounds, decodeBlocks]
      exact if_pos state
    | full state full =>
      have content := pending.content
      rw [whole, List.drop_length, List.append_nil] at content
      have sim : StreamSim window before s r := ⟨by rw [calm.produced]; exact content, Or.inr (long state whole full), place⟩
      obtain ⟨⟨ret', u⟩, decoded, read, frame⟩ := decodeBlocks_spec s.blockRounds valid sim calm bounded legal rfl
        (Nat.le_trans (Rounds_le _ _) place.rounds)
      have whole' : u.tmpOutProcessed = u.tmpOut.length := by
        rw [frame.tmpOut.1, frame.tmpOut.2]
        exact whole
      have far : histSize ≤ u.out.length := Nat.le_trans (long state whole full) frame.grows.length_le
      refine ⟨_, decoded, ?_, frame⟩
      cases read with
      | finished _ _ r' valid run sim none_ calm state =>
        exact .writes _ _ r' valid run (sim.stream none_).place calm.spill sim.out far whole' (.done calm whole' state)
      | outOverflow _ r' run sim none_ spill none excess =>
        exact .writes _ _ r' (by decide) run (sim.stream none_).place spill sim.out far whole' (.full none)
      | endInput _ r' r'' run sim calm further cut empty starved =>
        exact .writes _ _ r' (by decide) run sim.place calm.spill sim.out far whole' (.starved calm whole' empty r'' further cut)
      | invalid _ _ r' run bad out spill => exact .invalid _ _ r' run bad spill out far whole'
      | pendingLookback _ r' length dist run copies none beyond =>
        have near := copies.dist_le
        rw [histSize] at far
        omega
    | starved state empty starved r' further cut =>
      obtain ⟨t, decoded, place', calm', out, empty', frame⟩ := decodeBlocks_starved starved place calm empty
        (8 * s.tmpIn.length + s.bitsLeft + 1)
      have whole' : t.tmpOutProcessed = t.tmpOut.length := by
        rw [frame.tmpOut.1, frame.tmpOut.2]
        exact whole
      exact ⟨_, decoded, .keeps _ t (by decide) place' calm' out (fun past => absurd past state) (.starved calm' whole' empty' r' further cut), frame⟩
  · rw [if_neg whole]
    exact ⟨_, rfl, .keeps ret s valid place calm rfl id (.full (copied.resolve_left whole)), .refl _⟩

end Direct

section Save

/-- The internal buffer between two calls: the next one finds all the history it needs in it, and has enough output in it to find
its history in the buffer of the caller once that is full. -/
structure Held (before : List UInt8) (s : InflateState) (out : List UInt8) : Prop extends Pending before s out where
  history : s.blockState ≠ .inputDone → s.tmpOutProcessed ≤ histSize ∧ History s out

theorem Held.of {before out hidden : List UInt8} {most : Nat} (isMost : most = histSize) (tmpOut : List UInt8) (tmpOutProcessed : Nat)
    (buffer : s.tmpOut = tmpOut) (place : s.tmpOutProcessed = tmpOutProcessed) (processed : tmpOutProcessed ≤ tmpOut.length)
    (size : tmpOut.length ≤ tmpOutSize) (content : out = before ++ tmpOut.drop tmpOutProcessed) (few : tmpOutProcessed ≤ most)
    (isOut : out = hidden ++ tmpOut) (enough : hidden = [] ∨ most ≤ tmpOut.length) : Held before s out := by
  subst isMost buffer place
  exact ⟨⟨processed, size, content⟩, fun _ => ⟨few, hidden, isOut, enough⟩⟩

theorem saveHistory_only (room : Nat) (s : InflateState) :
    ∃ tmpOut tmpOutProcessed, saveHistory room s = { s with tmpOut, tmpOutProcessed } := by
  rw [saveHistory]
  split
  · split
    · exact ⟨_, _, rfl⟩
    split
    · exact ⟨_, _, rfl⟩
    · exact ⟨_, _, rfl⟩
  · exact ⟨_, _, rfl⟩

theorem overflowToTmpOut_eq (spill : Spill s) :
    overflowToTmpOut s = { s with
      tmpOut := Rfc1951.copyMatch s.copyOverflowDistance s.copyOverflowLength (s.tmpOut ++ s.pendingLits)
      totalOut := s.totalOut + .ofNat (s.writeOverflowLen + s.copyOverflowLength)
      writeOverflowLits := 0, writeOverflowLen := 0, copyOverflowLength := 0, copyOverflowDistance := 0 } := by
  rw [overflowToTmpOut]
  dsimp only
  rw [storeOverflow_state spill, storeOverflow_bytes]

theorem overflowToTmpOut_calm (calm : Calm s) : overflowToTmpOut s = s := by
  have lits := calm.lits
  have len := calm.len
  have copy := calm.copy
  have distance := calm.distance
  cases s
  simp_all [overflowToTmpOut, InflateState.storeOverflow]

/-- The state at the end of a call, before the bytes in the internal buffer are no longer counted -/
def InflateState.saved (room : Nat) (s : InflateState) : InflateState := overflowToTmpOut (saveHistory room s)

/-- What saving history leaves alone -/
structure SaveFrame (s t : InflateState) : Prop where
  reading : t.reading = s.reading
  calm : Calm t
  out : t.out = s.out
  room : t.availOut = s.availOut
  crc : t.crc = s.crc
  total : t.totalOut = s.totalOut + .ofNat (s.writeOverflowLen + s.copyOverflowLength)

theorem saved_frame (spill : Spill s) (room : Nat) : SaveFrame s (s.saved room) := by
  obtain ⟨tmpOut, processed, only⟩ := saveHistory_only room s
  have spill' : Spill (saveHistory room s) := by
    rw [only]
    exact ⟨spill.lits, spill.copy, spill.distance, spill.inside, spill.underway, spill.noLits, spill.noCopy⟩
  rw [InflateState.saved, overflowToTmpOut_eq spill', only]
  exact ⟨rfl, ⟨rfl, rfl, rfl, rfl⟩, rfl, rfl, rfl, rfl⟩

/-- The end of a call that has written nothing but what it had in the internal buffer -/
theorem saved_keeps {before out : List UInt8} {room : Nat} (calm : Calm s) (isRoom : s.out.length + s.availOut = room)
    (pending : Pending (before ++ s.out) s out) (history : s.blockState ≠ .inputDone → History s out) :
    Held (before ++ s.out) (s.saved room) out ∧
      (s.tmpOutProcessed = s.tmpOut.length → (s.saved room).tmpOutProcessed = (s.saved room).tmpOut.length) := by
  have calm' : Calm (saveHistory room s) := by
    obtain ⟨tmpOut, processed, only⟩ := saveHistory_only room s
    rw [only]
    exact ⟨calm.lits, calm.len, calm.copy, calm.distance⟩
  rw [InflateState.saved, overflowToTmpOut_calm calm']
  obtain ⟨processed, size, content⟩ := pending
  have none_ : s.copyOverflowLength + s.writeOverflowLen + s.tmpOut.length ≤ tmpOutSize := by
    rw [calm.copy, calm.len]
    omega
  rw [saveHistory]
  by_cases done : s.blockState = .inputDone
  · rw [if_neg (by rw [not_or, not_not]; exact ⟨done, by omega⟩)]
    exact ⟨⟨⟨processed, size, content⟩, fun never => absurd done never⟩, id⟩
  obtain ⟨hidden, isOut, enough⟩ := history done
  obtain ⟨most, isMost⟩ : ∃ most, most = histSize := ⟨_, rfl⟩
  have fits : most ≤ tmpOutSize := by
    rw [isMost]
    decide
  rw [← isMost] at enough ⊢
  rw [if_pos (Or.inl done)]
  by_cases last : s.tmpOut.length = s.tmpOutProcessed ∧ most ≤ room - s.availOut
  · rw [if_pos last]
    obtain ⟨all, many⟩ := last
    have kept : (s.out.drop (s.out.length - most)).length = most := by
      rw [List.length_drop]
      omega
    rw [← all, List.drop_length, List.append_nil] at content
    have split : out = before ++ s.out.take (s.out.length - most) ++ s.out.drop (s.out.length - most) := by
      rw [List.append_assoc, List.take_append_drop]
      exact content
    refine ⟨.of isMost (s.out.drop (s.out.length - most)) most rfl rfl kept.ge ?_ ?_ (Nat.le_refl most) split (Or.inr kept.ge),
      fun _ => kept.symm⟩
    · rw [kept]
      exact fits
    · rw [List.drop_of_length_le kept.le, List.append_nil]
      exact content
  rw [if_neg last]
  by_cases many : most ≤ s.tmpOutProcessed
  · rw [if_pos many]
    dsimp only
    obtain ⟨shift, isShift⟩ : ∃ shift, shift = min (s.tmpOut.length - most) s.tmpOutProcessed := ⟨_, rfl⟩
    rw [← isShift]
    have left : (s.tmpOut.drop shift).length = s.tmpOut.length - shift := List.length_drop
    have split : out = hidden ++ s.tmpOut.take shift ++ s.tmpOut.drop shift := by
      rw [List.append_assoc, List.take_append_drop]
      exact isOut
    refine ⟨.of isMost (s.tmpOut.drop shift) (s.tmpOutProcessed - shift) rfl rfl ?_ ?_ ?_ ?_ split (Or.inr ?_), fun whole => ?_⟩
    · omega
    · omega
    · rw [List.drop_drop, show shift + (s.tmpOutProcessed - shift) = s.tmpOutProcessed by omega]
      exact content
    · omega
    · omega
    · omega
  · rw [if_neg many]
    exact ⟨⟨⟨processed, size, content⟩, fun _ => ⟨by omega, hidden, isOut, isMost ▸ enough⟩⟩, id⟩

/-- The end of a call that has written to the buffer of the caller on its own -/
theorem saved_writes {before out : List UInt8} {room : Nat} (spill : Spill s) (isRoom : s.out.length + s.availOut = room)
    (produced : out = s.produced before) (long : histSize ≤ s.out.length) (whole : s.tmpOutProcessed = s.tmpOut.length) :
    Held (before ++ s.out) (s.saved room) out ∧ (Calm s → (s.saved room).tmpOutProcessed = (s.saved room).tmpOut.length) := by
  have lits : s.pendingLits.length = s.writeOverflowLen := toLeBytes_length _ _
  by_cases keeps : s.blockState = .inputDone ∧ s.copyOverflowLength + s.writeOverflowLen + s.tmpOut.length ≤ tmpOutSize
  · have same : saveHistory room s = s := by
      rw [saveHistory, if_neg]
      rw [not_or, not_not]
      exact ⟨keeps.1, by omega⟩
    have copy : s.copyOverflowLength = 0 := by
      by_contra some_
      exact spill.underway (Nat.pos_of_ne_zero some_) keeps.1
    rw [InflateState.saved, same, overflowToTmpOut_eq spill]
    have bytes : Rfc1951.copyMatch s.copyOverflowDistance s.copyOverflowLength (s.tmpOut ++ s.pendingLits) = s.tmpOut ++ s.pendingLits := by
      rw [copy]
      rfl
    rw [bytes]
    refine ⟨⟨⟨?_, ?_, ?_⟩, fun never => absurd keeps.1 never⟩, fun calm => ?_⟩
    · rw [List.length_append, whole]
      omega
    · rw [List.length_append, lits]
      omega
    · rw [produced, InflateState.produced, copy, whole, List.drop_left]
      rfl
    · rw [List.length_append, lits, calm.len, whole]
      rfl
  · have saves : s.blockState ≠ .inputDone ∨ tmpOutSize < s.copyOverflowLength + s.writeOverflowLen + s.tmpOut.length := by
      rw [not_and_or] at keeps
      exact keeps.imp id fun large => by omega
    obtain ⟨most, isMost⟩ : ∃ most, most = histSize := ⟨_, rfl⟩
    have fits : most + 261 ≤ tmpOutSize := by
      rw [isMost]
      decide
    have far := spill.distance
    rw [← isMost] at long far
    have last : saveHistory room s =
        { s with tmpOut := s.out.drop (s.out.length - most), tmpOutProcessed := most } := by
      rw [saveHistory, if_pos saves, ← isMost, if_pos ⟨whole.symm, by omega⟩]
    have spill' : Spill (saveHistory room s) := by
      rw [last]
      exact ⟨spill.lits, spill.copy, spill.distance, spill.inside, spill.underway, spill.noLits, spill.noCopy⟩
    have kept : (s.out.drop (s.out.length - most)).length = most := by
      rw [List.length_drop]
      omega
    rw [InflateState.saved, overflowToTmpOut_eq spill', last]
    change Held _ { s with
        tmpOut := Rfc1951.copyMatch s.copyOverflowDistance s.copyOverflowLength (s.out.drop (s.out.length - most) ++ s.pendingLits)
        tmpOutProcessed := most
        totalOut := s.totalOut + .ofNat (s.writeOverflowLen + s.copyOverflowLength)
        writeOverflowLits := 0, writeOverflowLen := 0, copyOverflowLength := 0, copyOverflowDistance := 0 } _ ∧
      (_ → most =
        (Rfc1951.copyMatch s.copyOverflowDistance s.copyOverflowLength (s.out.drop (s.out.length - most) ++ s.pendingLits)).length)
    have inside : s.copyOverflowDistance ≤ (s.out.drop (s.out.length - most) ++ s.pendingLits).length := by
      rw [List.length_append, kept]
      exact Nat.le_trans far (Nat.le_add_right _ _)
    have isOut : out = before ++ s.out.take (s.out.length - most) ++ Rfc1951.copyMatch s.copyOverflowDistance s.copyOverflowLength
        (s.out.drop (s.out.length - most) ++ s.pendingLits) := by
      rw [← copyMatch_hidden _ inside, produced, InflateState.produced]
      congr 1
      rw [← List.append_assoc, List.append_assoc before (s.out.take _), List.take_append_drop]
    obtain ⟨copied, buffer, count⟩ := copyMatch_eq s.copyOverflowDistance s.copyOverflowLength
      (s.out.drop (s.out.length - most) ++ s.pendingLits)
    rw [buffer] at isOut ⊢
    have few := spill.lits
    have copy := spill.copy
    have length : (s.out.drop (s.out.length - most) ++ s.pendingLits ++ copied).length =
        most + s.writeOverflowLen + s.copyOverflowLength := by
      rw [List.length_append, List.length_append, kept, lits, count]
    refine ⟨.of isMost _ most rfl rfl ?_ ?_ ?_ (Nat.le_refl most) isOut (Or.inr ?_), fun calm => ?_⟩
    · rw [length]
      omega
    · rw [length]
      omega
    · rw [isOut, List.append_assoc (s.out.drop _), List.drop_append_of_le_length kept.ge, List.drop_of_length_le kept.le, List.nil_append]
      rw [List.append_assoc before, ← List.append_assoc (s.out.take _), List.take_append_drop, List.append_assoc]
    · rw [length]
      omega
    · rw [length, calm.len, calm.copy]
      rfl

end Save

section Call

theorem copyTmpOut_spec {before out : List UInt8} (none_ : s.out = []) (pending : Pending before s out) :
    Pending (before ++ (copyTmpOut s).out) (copyTmpOut s) out ∧ (copyTmpOut s).out.length + (copyTmpOut s).availOut = s.availOut ∧
      (copyTmpOut s).tmpOutProcessed = s.tmpOutProcessed + (copyTmpOut s).out.length ∧
      ((copyTmpOut s).tmpOutProcessed = (copyTmpOut s).tmpOut.length ∨ (copyTmpOut s).availOut = 0) := by
  obtain ⟨processed, size, content⟩ := pending
  obtain ⟨copy, isCopy⟩ : ∃ copy, copy = min (s.tmpOut.length - s.tmpOutProcessed) s.availOut := ⟨_, rfl⟩
  have copied : (copyTmpOut s).out = (s.tmpOut.drop s.tmpOutProcessed).take copy := by
    rw [copyTmpOut, none_, ← isCopy, List.nil_append]
  have place : (copyTmpOut s).tmpOutProcessed = s.tmpOutProcessed + copy := by rw [copyTmpOut, ← isCopy]
  have room : (copyTmpOut s).availOut = s.availOut - copy := by rw [copyTmpOut, ← isCopy]
  have buffer : (copyTmpOut s).tmpOut = s.tmpOut := rfl
  have length : ((s.tmpOut.drop s.tmpOutProcessed).take copy).length = copy := by
    rw [List.length_take, List.length_drop]
    omega
  rw [place, room, buffer, copied, length]
  refine ⟨⟨?_, ?_, ?_⟩, by omega, rfl, by omega⟩
  · rw [place, buffer]
    omega
  · rw [buffer]
    exact size
  · rw [place, buffer, content, List.append_assoc, ← List.drop_drop, List.take_append_drop]

theorem updateChecksum_only (bytes : List UInt8) (s : InflateState) : ∃ crc, updateChecksum bytes s = { s with crc } := by
  rw [updateChecksum]
  split <;> exact ⟨_, rfl⟩

theorem updateChecksum_crc {bytes : List UInt8} (flag : t.crcFlag = s.crcFlag) (crc : t.crc = s.crc) :
    (updateChecksum bytes t).crc = (updateChecksum bytes s).crc := by
  rw [updateChecksum, updateChecksum, flag]
  split <;> simp [crc]

theorem updateChecksum_uncount (bytes : List UInt8) (s : InflateState) :
    updateChecksum bytes s.uncountTmpOut = (updateChecksum bytes s).uncountTmpOut := by
  cases flag : s.crcFlag <;> simp [updateChecksum, InflateState.uncountTmpOut, flag]

/-- The part of a call that decodes -/
def decodeCall (s : InflateState) : Option (ReturnCode × InflateState) :=
  match fillTmpOut s with
  | none => none
  | some (ret, t) =>
    if ret.invalid then some (ret, updateChecksum (copyTmpOut t).out (copyTmpOut t))
    else
      match decodeDirect ret (copyTmpOut t) with
      | none => none
      | some (ret, u) => some (ret, (updateChecksum u.out u).saved s.availOut)

/-- All output counts that there is. -/
def InflateState.countTmpOut (s : InflateState) : InflateState :=
  { s with totalOut := s.totalOut + .ofNat (s.tmpOut.length - s.tmpOutProcessed) }

theorem inflateStream_eq (state : s.blockState ≠ .finish) {ret : ReturnCode} (decoded : decodeCall s.countTmpOut = some (ret, t)) :
    inflateStream s = if ret.invalid then some (ret, t.uncountTmpOut)
      else some ((finishStream ret t).1.settle, (finishStream ret t).2.uncountTmpOut) := by
  rw [decodeCall] at decoded
  rw [inflateStream, if_neg state]
  change (match fillTmpOut s.countTmpOut with
    | none => none
    | some (ret, s) => _) = _
  cases filled : fillTmpOut s.countTmpOut with
  | none =>
    rw [filled] at decoded
    cases decoded
  | some result =>
    obtain ⟨first, u⟩ := result
    rw [filled] at decoded
    dsimp only at decoded ⊢
    by_cases bad : first.invalid
    · rw [if_pos bad] at decoded ⊢
      cases decoded
      rw [if_pos bad, updateChecksum_uncount]
    · rw [if_neg bad] at decoded ⊢
      change (match decodeDirect first (copyTmpOut u) with
        | none => none
        | some (ret, s) => _) = _
      cases direct : decodeDirect first (copyTmpOut u) with
      | none =>
        rw [direct] at decoded
        cases decoded
      | some result =>
        obtain ⟨second, v⟩ := result
        rw [direct] at decoded
        dsimp only at decoded ⊢
        cases decoded
        rfl

/-- What a call leaves alone, and what it counts -/
structure CallCount (start t : InflateState) (first last : List UInt8) : Prop where
  frame : CallFrame start t
  room : t.out.length + t.availOut = start.availOut
  total : t.totalOut = start.totalOut + .ofNat (last.length - first.length)
  crc : t.crc = (updateChecksum t.out start).crc

/-- How the decoding of a call ends. -/
inductive CallRead (window : Nat) (before : List UInt8) (start : InflateState) (r : State) : ReturnCode × InflateState → Prop
  | rests (ret : ReturnCode) (s : InflateState) (r' : State) (valid : ret.settle = .decompOk) (run : Runs window r r') (place : Place window s r')
      (calm : Calm s) (held : Held (before ++ s.out) s r'.out) (ends : CallEnd window s r') (count : CallCount start s r.out r'.out) :
      CallRead window before start r (ret, s)
  | invalid (ret : ReturnCode) (s : InflateState) (r' : State) (error : ret.invalid) (run : Runs window r r') (bad : Bad start.maxDist ret r')
      (pending : Pending (before ++ s.out) s r'.out) (count : CallCount start s r.out r'.out) : CallRead window before start r (ret, s)

theorem not_invalid {ret : ReturnCode} (valid : ret.settle = .decompOk) : ¬ret.invalid := by
  rintro (rfl | rfl | rfl) <;> cases valid

theorem Bad.invalid {maxDist : Nat} {ret : ReturnCode} (bad : Bad maxDist ret r) : ret.invalid := by
  cases bad <;> decide

theorem Bad.negative {maxDist : Nat} {ret : ReturnCode} (bad : Bad maxDist ret r) : ret.value < 0 := by
  cases bad <;> decide

/-- The checksum that the state has when history is saved -/
theorem CallCount.summed {u : InflateState} {first last : List UInt8} (frame : CallFrame s u) (room : u.out.length + u.availOut = s.availOut)
    (total : u.totalOut + .ofNat (u.writeOverflowLen + u.copyOverflowLength) = s.totalOut + .ofNat (last.length - first.length))
    (crc : u.crc = s.crc) (spill : Spill u) (most : Nat) :
    CallCount s ((updateChecksum u.out u).saved most) first last ∧
      SaveFrame { u with crc := (updateChecksum u.out u).crc } ((updateChecksum u.out u).saved most) := by
  have flag : u.crcFlag = s.crcFlag := frame.crcFlag
  have sum : (updateChecksum u.out u).crc = (updateChecksum u.out s).crc := updateChecksum_crc flag crc
  obtain ⟨sum', only⟩ := updateChecksum_only u.out u
  rw [only] at sum ⊢
  have spill' : Spill { u with crc := sum' } :=
    ⟨spill.lits, spill.copy, spill.distance, spill.inside, spill.underway, spill.noLits, spill.noCopy⟩
  have saved := saved_frame spill' most
  obtain ⟨v, isV⟩ : ∃ v, v = ({ u with crc := sum' } : InflateState).saved most := ⟨_, rfl⟩
  rw [← isV] at saved ⊢
  have same : v.reading = u.reading := saved.reading
  have out : v.out = u.out := saved.out
  have left : v.availOut = u.availOut := saved.room
  have constant : v.constant = u.constant :=
    congrArg (fun w => { w.withoutBlock with tmpIn := [], tmpOut := [], tmpOutProcessed := 0, crc := 0 }) same
  refine ⟨⟨⟨constant.trans frame.rest, (congrArg (·.buf) same).trans frame.buf⟩, ?_, ?_, ?_⟩, saved⟩
  · rw [out, left]
    exact room
  · rw [saved.total]
    exact total
  · rw [out, saved.crc]
    exact sum

theorem CallEnd.saved {u v : InflateState} (ends : CallEnd window u r) (reading : v.reading = u.reading) (calm : Calm v)
    (room : v.availOut = u.availOut)
    (whole : Calm u → u.tmpOutProcessed = u.tmpOut.length → v.tmpOutProcessed = v.tmpOut.length) : CallEnd window v r := by
  have state : v.blockState = u.blockState := congrArg (·.blockState) reading
  have input : v.availIn = u.availIn := congrArg (·.availIn) reading
  cases ends with
  | full none_ => exact .full (room.trans none_)
  | done calm' all here => exact .done calm (whole calm' all) (state.trans here)
  | starved calm' all empty r' further cut => exact .starved calm (whole calm' all) (input.trans empty) r' further cut

theorem Pending.summed {before out : List UInt8} {u : InflateState} (h : Pending before u out) (crc : Nat) :
    Pending before { u with crc } out := ⟨h.processed, h.size, h.content⟩

/-- A call from a state between two calls -/
theorem decodeCall_spec {before : List UInt8} (place : Place window s r) (calm : Calm s) (held : Held before s r.out) (none_ : s.out = [])
    (bounded : Bounded window s r) (legal : r.Legal) :
    ∃ result, decodeCall s = some result ∧ CallRead window before s r result := by
  obtain ⟨⟨ret, t⟩, filled, read⟩ := fillTmpOut_spec place calm held.toPending (fun state => (held.history state).2) bounded legal
  rw [decodeCall, filled]
  dsimp only
  cases read with
  | invalid _ _ r' run bad pending frame =>
    rw [if_pos bad.invalid]
    obtain ⟨pending', room, -, -⟩ := copyTmpOut_spec (frame.out.trans none_) pending
    have flag : t.crcFlag = s.crcFlag := frame.frame.crcFlag
    have sum : (updateChecksum (copyTmpOut t).out (copyTmpOut t)).crc = _ := updateChecksum_crc flag frame.crc
    obtain ⟨sum', only⟩ := updateChecksum_only (copyTmpOut t).out (copyTmpOut t)
    rw [only] at sum ⊢
    exact ⟨_, rfl, .invalid ret _ r' bad.invalid run bad (pending'.summed sum') ⟨⟨frame.frame.rest, frame.frame.buf⟩, room.trans frame.room,
      frame.total, sum⟩⟩
  | rests _ _ r' valid run place' calm' pending history stops past frame =>
    rw [if_neg (not_invalid valid)]
    obtain ⟨pending', room, moved, copied⟩ := copyTmpOut_spec (frame.out.trans none_) pending
    obtain ⟨c, isC⟩ : ∃ c, c = copyTmpOut t := ⟨_, rfl⟩
    have same : c.reading = t.reading := by rw [isC]; rfl
    have state : c.blockState = t.blockState := congrArg (·.blockState) same
    have input : c.availIn = t.availIn := congrArg (·.availIn) same
    have buffer : c.tmpOut = t.tmpOut := by rw [isC]; rfl
    have calmC : Calm c := by rw [isC]; exact ⟨calm'.lits, calm'.len, calm'.copy, calm'.distance⟩
    have frameC : CallFrame t c := by rw [isC]; exact ⟨rfl, rfl⟩
    have totalC : c.totalOut = t.totalOut := by rw [isC]; rfl
    have crcC : c.crc = t.crc := by rw [isC]; rfl
    rw [← isC] at pending' room moved copied ⊢
    have stops' : Rests window c r' := by
      cases stops with
      | done here => exact .done (state.trans here)
      | full here long => exact .full (state ▸ here) (buffer ▸ long)
      | starved here empty starved r'' further cut => exact .starved (state ▸ here) (input.trans empty) (starved.reading same) r'' further cut
    have long : c.blockState ≠ .inputDone → c.tmpOutProcessed = c.tmpOut.length → 2 * histSize ≤ c.tmpOut.length → histSize ≤ c.out.length := by
      intro here whole many
      have few := (held.history fun done => here (state.trans (past done))).1
      have start := frame.processed
      omega
    have maxDistC : c.maxDist = s.maxDist := frameC.maxDist.trans frame.frame.maxDist
    obtain ⟨⟨ret', u⟩, direct, read, moves⟩ := decodeDirect_spec valid (place'.reading same) calmC pending' stops'
      (bounded.after run.steps maxDistC) (run.legal legal) copied long
    rw [direct]
    dsimp only at moves ⊢
    have frameU : CallFrame s u := (frame.frame.trans frameC).trans moves.call
    have roomU : u.out.length + u.availOut = s.availOut := by
      have more : u.out.length + u.availOut = c.out.length + c.availOut := moves.room
      rw [more, room, frame.room]
    have crcU : u.crc = s.crc := by
      have same : u.crc = c.crc := congrArg (·.crc) moves.rest
      rw [same, crcC, frame.crc]
    have totalU : u.totalOut = s.totalOut + .ofNat (r'.out.length - r.out.length) + .ofNat (u.out.length - c.out.length) := by
      have more : u.totalOut = c.totalOut + .ofNat (u.out.length - c.out.length) := moves.total
      rw [more, totalC, frame.total]
    have grows := (Steps.output run.steps legal).length_le
    have written : ∀ {out'' : List UInt8}, Spill u → out'' = u.produced before → histSize ≤ u.out.length →
        u.tmpOutProcessed = u.tmpOut.length →
        CallCount s ((updateChecksum u.out u).saved s.availOut) r.out out'' ∧
          Held (before ++ ((updateChecksum u.out u).saved s.availOut).out) ((updateChecksum u.out u).saved s.availOut) out'' ∧
          SaveFrame { u with crc := (updateChecksum u.out u).crc } ((updateChecksum u.out u).saved s.availOut) ∧
          (Calm u → ((updateChecksum u.out u).saved s.availOut).tmpOutProcessed = ((updateChecksum u.out u).saved s.availOut).tmpOut.length) := by
      intro out'' spill produced far whole
      have total : u.totalOut + .ofNat (u.writeOverflowLen + u.copyOverflowLength) = s.totalOut + .ofNat (out''.length - r.out.length) := by
        have here := congrArg List.length pending'.content
        rw [← moves.tmpOut.1, ← moves.tmpOut.2, whole, List.drop_length, List.append_nil, List.length_append] at here
        have there := congrArg List.length produced
        rw [produced_length] at there
        have upTo : c.out.length ≤ u.out.length := moves.grows.length_le
        rw [totalU, UInt32.add_assoc, UInt32.add_assoc, ← UInt32.ofNat_add, ← UInt32.ofNat_add]
        congr 2
        omega
      obtain ⟨count, saved⟩ := CallCount.summed frameU roomU total crcU spill s.availOut
      obtain ⟨sum', only⟩ := updateChecksum_only u.out u
      rw [only] at count saved ⊢
      have spill' : Spill { u with crc := sum' } :=
        ⟨spill.lits, spill.copy, spill.distance, spill.inside, spill.underway, spill.noLits, spill.noCopy⟩
      obtain ⟨heldV, wholeV⟩ := saved_writes (s := { u with crc := sum' }) spill' roomU produced far whole
      have outV : (({ u with crc := sum' } : InflateState).saved s.availOut).out = u.out := saved.out
      exact ⟨count, outV.symm ▸ heldV, saved, fun calm => wholeV ⟨calm.lits, calm.len, calm.copy, calm.distance⟩⟩
    cases read with
    | keeps _ _ valid' placeU calmU out past' ends =>
      have spill := calmU.spill
      have total : u.totalOut + .ofNat (u.writeOverflowLen + u.copyOverflowLength) = s.totalOut + .ofNat (r'.out.length - r.out.length) := by
        rw [totalU, calmU.len, calmU.copy, out]
        simp
      obtain ⟨count, saved⟩ := CallCount.summed frameU roomU total crcU spill s.availOut
      have pendingU : Pending (before ++ u.out) u r'.out := by
        obtain ⟨processed, size, content⟩ := pending'
        refine ⟨?_, ?_, ?_⟩
        · rw [moves.tmpOut.1, moves.tmpOut.2]
          exact processed
        · rw [moves.tmpOut.1]
          exact size
        · rw [moves.tmpOut.1, moves.tmpOut.2, out]
          exact content
      have historyU : u.blockState ≠ .inputDone → History u r'.out := by
        intro here
        rw [History, moves.tmpOut.1, buffer]
        exact history fun done => here (past' (state.trans done))
      obtain ⟨sum', only⟩ := updateChecksum_only u.out u
      rw [only] at count saved ⊢
      obtain ⟨heldV, wholeV⟩ := saved_keeps (s := { u with crc := sum' }) ⟨calmU.lits, calmU.len, calmU.copy, calmU.distance⟩ roomU
        (pendingU.summed sum') historyU
      have reading : ({ u with crc := sum' } : InflateState).reading = u.reading := rfl
      have sameV := saved.reading.trans reading
      have outV : (({ u with crc := sum' } : InflateState).saved s.availOut).out = u.out := saved.out
      refine ⟨_, rfl, .rests ret' _ r' valid' run (placeU.reading sameV) saved.calm (outV.symm ▸ heldV)
        (ends.saved sameV saved.calm saved.room fun _ => wholeV) count⟩
    | writes _ _ r'' valid' run' placeU spill produced far whole ends =>
      obtain ⟨count, heldV, saved, wholeV⟩ := written spill produced far whole
      have sameV := saved.reading
      change _ = u.reading at sameV
      exact ⟨_, rfl, .rests ret' _ r'' valid' (run.trans run') (placeU.reading sameV) saved.calm heldV
        (ends.saved sameV saved.calm saved.room fun calm _ => wholeV calm) count⟩
    | invalid _ _ r'' run' bad spill produced far whole =>
      obtain ⟨count, heldV, -, -⟩ := written spill produced far whole
      exact ⟨_, rfl, .invalid ret' _ r'' bad.invalid (run.trans run') (maxDistC ▸ bad) heldV.toPending count⟩

end Call

end Isal.Inflate
