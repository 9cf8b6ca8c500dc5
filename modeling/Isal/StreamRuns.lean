import Isal.StreamWindow

/-! Sequences of calls, with the input and the room for output in pieces. -/
namespace Isal.Inflate

open Isal.Bits Isal.PrefixCode Isal.Rfc1951

variable {window : Nat} {s t : InflateState} {r : State}

section Stream

/-- What a call leaves alone, and what it counts -/
structure StreamCount (start t : InflateState) : Prop where
  frame : CallFrame start t
  room : t.out.length + t.availOut = start.availOut
  total : t.totalOut = start.totalOut + .ofNat t.out.length
  crc : t.crc = (updateChecksum t.out start).crc

/-- How a call ends that decodes, up to the check of a trailer. -/
inductive StreamRead (window : Nat) (before : List UInt8) (start : InflateState) (r : State) : ReturnCode × InflateState → Prop
  | rests (s : InflateState) (r' : State) (run : Runs window r r') (place : Place window s r') (calm : Calm s)
      (held : Held (before ++ s.out) s r'.out) (ends : CallEnd window s r')
      (goesOn : ¬(s.blockState = .inputDone ∧ s.tmpOut.length = s.tmpOutProcessed)) (count : StreamCount start s) : StreamRead window before start r (.decompOk, s)
  | finished (s : InflateState) (r' : State) (run : Runs window r r') (mode : r'.mode = .done)
      (views : Views s.toInStream (bitsVal r'.bits) r'.bits.length) (calm : Calm s) (none_ : s.tmpIn = [])
      (out : r'.out = before ++ s.out) (whole : s.tmpOutProcessed = s.tmpOut.length) (count : StreamCount start s) :
      StreamRead window before start r ((checkTrailer { s with blockState := .finish }).1.settle,
        ((checkTrailer { s with blockState := .finish }).2.withIn (checkTrailer { s with blockState := .finish }).2.unread).uncountTmpOut)
  | invalid (ret : ReturnCode) (s : InflateState) (r' : State) (error : ret.invalid) (run : Runs window r r') (bad : Bad start.maxDist ret r')
      (pending : Pending (before ++ s.out) s r'.out) (count : StreamCount start s) : StreamRead window before start r (ret, s)

theorem ModeSim.state {m : Mode} (h : ModeSim window s m) : s.blockState ∈ [.newHdr, .type0, .coded, .inputDone] := by
  cases h with
  | header here => simp [here]
  | stored _ _ _ _ here => simp [here]
  | coded _ _ _ _ here => simp [here]
  | done here => simp [here]

theorem Place.state (h : Place window s r) : s.blockState ∈ [.hdr, .newHdr, .type0, .coded, .inputDone] := by
  cases h with
  | inside views mode none_ => exact List.mem_cons_of_mem _ mode.state
  | restart mode at_ => simp [at_.state]

theorem Place.notFinish (h : Place window s r) : s.blockState ≠ .finish := by
  intro finish
  have state := h.state
  simp [finish] at state

theorem Place.notChecksum (h : Place window s r) : s.blockState ≠ .checksumCheck := by
  intro check
  have state := h.state
  simp [check] at state

theorem Place.ofDone (h : Place window s r) (state : s.blockState = .inputDone) :
    r.mode = .done ∧ Views s.toInStream (bitsVal r.bits) r.bits.length ∧ s.tmpIn = [] := by
  cases h with
  | inside views mode none_ => exact ⟨mode.ofDone state, views, none_⟩
  | restart mode at_ => cases at_.state.symm.trans state

/-- A call of `isal_inflate` where the wrapper header has been read, from a state between two calls -/
theorem inflateStream_spec {before : List UInt8} (place : Place window s r) (calm : Calm s) (held : Held before s r.out)
    (none_ : s.out = []) (bounded : Bounded window s r) (legal : r.Legal) :
    ∃ result, inflateStream s = some result ∧ StreamRead window before s r result := by
  have held' : Held before s.countTmpOut r.out := ⟨⟨held.processed, held.size, held.content⟩, held.history⟩
  obtain ⟨⟨ret, t⟩, decoded, read⟩ := decodeCall_spec (s := s.countTmpOut) (place.reading rfl) ⟨calm.lits, calm.len, calm.copy, calm.distance⟩
    held' none_ bounded legal
  rw [inflateStream_eq place.notFinish decoded]
  have before_ := congrArg List.length held.content
  rw [List.length_append, List.length_drop] at before_
  have counted : ∀ {r' : State} {t : InflateState}, CallCount s.countTmpOut t r.out r'.out → Runs window r r' →
      Pending (before ++ t.out) t r'.out → StreamCount s t.uncountTmpOut := by
    intro r' t count run pending
    have after := congrArg List.length pending.content
    rw [List.length_append, List.length_append, List.length_drop] at after
    have grows := (Steps.output run.steps legal).length_le
    have processed := held.processed
    have total : t.totalOut = s.totalOut + .ofNat (s.tmpOut.length - s.tmpOutProcessed) + .ofNat (r'.out.length - r.out.length) := count.total
    refine ⟨⟨count.frame.rest, count.frame.buf⟩, count.room, ?_, count.crc.trans (updateChecksum_crc rfl rfl)⟩
    change t.totalOut - .ofNat (t.tmpOut.length - t.tmpOutProcessed) = s.totalOut + .ofNat t.out.length
    have sum : s.tmpOut.length - s.tmpOutProcessed + (r'.out.length - r.out.length) = t.out.length + (t.tmpOut.length - t.tmpOutProcessed) := by
      omega
    rw [total, UInt32.add_assoc, ← UInt32.ofNat_add, sum, UInt32.ofNat_add, ← UInt32.add_assoc, UInt32.add_sub_cancel]
  cases read with
  | invalid _ _ r' error run bad pending count =>
    rw [if_pos error]
    exact ⟨_, rfl, .invalid ret _ r' error run bad ⟨pending.processed, pending.size, pending.content⟩ (counted count run pending)⟩
  | rests _ _ r' valid run place' calm' held' ends count =>
    rw [if_neg (not_invalid valid), finishStream]
    by_cases last : t.blockState = .inputDone ∧ t.tmpOut.length = t.tmpOutProcessed
    · rw [if_pos last]
      obtain ⟨mode, views, nothing⟩ := place'.ofDone last.1
      have content := held'.content
      rw [← last.2, List.drop_length, List.append_nil] at content
      obtain ⟨frame, room, total, crc⟩ := counted count run held'.toPending
      have same : t.uncountTmpOut.totalOut = t.totalOut := by
        rw [InflateState.uncountTmpOut, last.2, Nat.sub_self]
        exact UInt32.sub_zero t.totalOut
      exact ⟨_, rfl, .finished t r' run mode views calm' nothing content last.2.symm ⟨⟨frame.rest, frame.buf⟩, room, same ▸ total, crc⟩⟩
    · rw [if_neg last]
      dsimp only
      rw [valid]
      have heldU : Held (before ++ t.uncountTmpOut.out) t.uncountTmpOut r'.out :=
        ⟨⟨held'.processed, held'.size, held'.content⟩, held'.history⟩
      have endsU : CallEnd window t.uncountTmpOut r' := ends.saved rfl ⟨calm'.lits, calm'.len, calm'.copy, calm'.distance⟩ rfl fun _ => id
      exact ⟨_, rfl, .rests _ r' run (place'.reading rfl) ⟨calm'.lits, calm'.len, calm'.copy, calm'.distance⟩ heldU endsU last
        (counted count run held'.toPending)⟩

end Stream

/-- A caller that has some buffers of input waiting, and what it has got so far -/
structure Session where
  state : InflateState
  waiting : List (List UInt8)
  written : List UInt8
  ret : ReturnCode

namespace Session

/-- Nothing has been called yet. -/
def start (s : InflateState) (waiting : List (List UInt8)) : Session := ⟨s, waiting, [], .decompOk⟩

/-- The input for the next call: a new buffer where the last one is used up -/
def feed (c : Session) : InflateState × List (List UInt8) :=
  if c.state.availIn = 0 then
    match c.waiting with
    | [] => (c.state, [])
    | input :: waiting => ({ c.state with buf := input, nextIn := 0, availIn := input.length }, waiting)
  else (c.state, c.waiting)

/-- A call with some room for output -/
def call (room : Nat) (c : Session) : Option Session :=
  match isalInflate { c.feed.1 with availOut := room } with
  | none => none
  | some (ret, t) => some { state := t, waiting := c.feed.2, written := c.written ++ t.out, ret }

/-- No call follows on an error, or on the end of the stream. -/
def Over (c : Session) : Prop := c.ret.value < 0 ∨ c.state.blockState = .finish

/-- All input has been given and used, and all output has been handed over with room left. -/
def Drained (c : Session) : Prop :=
  c.waiting = [] ∧ c.state.availIn = 0 ∧ c.state.tmpOutProcessed = c.state.tmpOut.length ∧ 0 < c.state.availOut

/-- A sequence of calls -/
inductive Reach (first : Session) : Session → Prop
  | start : Reach first first
  | call {c c' : Session} (before : Reach first c) (goesOn : ¬c.Over) (room : Nat) (next : c.call room = some c') : Reach first c'

/-- How the decompression of a stream ends -/
def verdict (ret : ReturnCode) (s : InflateState) : Verdict :=
  if ret.value < 0 then .invalid else if s.blockState = .finish then .finished else .incomplete

end Session

section Raw

theorem Bounded.ofAppend {bits ext : List Bool} {out : List UInt8} (bytes : 8 ∣ ext.length)
    (bounded : Bounded window s ⟨.header, bits ++ ext, out⟩) (run : Steps ⟨.header, bits, out⟩ r) (same : t.maxDist = s.maxDist) :
    Bounded window t r := (bounded.shorten bytes).after run same

/-- More input in a new buffer -/
theorem Place.feed (h : Place window s r) (empty : s.availIn = 0) (input : List UInt8) :
    Place window { s with buf := input, nextIn := 0, availIn := input.length } (r.extend (bytesBits input)) := by
  have nothing : s.pending = [] := by
    rw [InStream.pending, empty, List.take_zero]
  have whole : ({ s with buf := input, nextIn := 0, availIn := input.length } : InflateState).pending = input := by
    change (input.drop 0).take input.length = input
    rw [List.drop_zero, List.take_length]
  cases h with
  | inside views mode none_ =>
    refine .inside (views.extend rfl rfl (Int.le_refl 0) (Nat.zero_add _) ?_) (mode.moved _ _ _ _) none_
    rw [nothing, List.nil_append]
    exact whole
  | restart mode at_ =>
    obtain ⟨state, within, saved, split, views, cut⟩ := at_
    refine .restart mode ⟨state, ⟨Int.le_refl 0, Nat.zero_add _⟩, saved, ?_, views, cut⟩
    rw [whole, State.extend, split, nothing, bytesBits_nil, List.append_nil]

theorem Place.within (h : Place window s r) : Within s.toInStream := by
  cases h with
  | inside views mode none_ => exact views.within
  | restart mode at_ => exact at_.within

/-- What is behind the end of a raw stream -/
structure Behind (s : InflateState) (bits : List Bool) : Prop where
  nextIn : s.nextIn = s.buf.length - (bits.length / 8 : Nat)
  availIn : s.availIn = bits.length / 8 % 2 ^ 32

/-- The states between two calls, for a raw stream -/
inductive Phase (window : Nat) (dict : List UInt8) (maxDist : Nat) (given : List UInt8) (c : Session) : Prop
  | decoding (r : State) (run : Runs window ⟨.header, bytesBits given, dict⟩ r) (place : Place window c.state r) (calm : Calm c.state)
      (held : Held (dict ++ c.written) c.state r.out) (ret : c.ret = .decompOk)
      (ends : c.state.availOut = 0 ∨ c.state.availIn = 0 ∧ ∃ r', Runs window r r' ∧ Cut r') : Phase window dict maxDist given c
  | finished (r : State) (run : Runs window ⟨.header, bytesBits given, dict⟩ r) (mode : r.mode = .done) (out : r.out = dict ++ c.written)
      (state : c.state.blockState = .finish) (ret : c.ret = .decompOk) (whole : c.state.tmpOutProcessed = c.state.tmpOut.length)
      (behind : Behind c.state r.bits) : Phase window dict maxDist given c
  | failed (r : State) (run : Runs window ⟨.header, bytesBits given, dict⟩ r) (bad : Bad maxDist c.ret r)
      (pending : Pending (dict ++ c.written) c.state r.out) : Phase window dict maxDist given c

/-- A session of calls follows a run of the reference decoder on the input that has been given. -/
structure Follows (window : Nat) (dict : List UInt8) (first : InflateState) (input : List UInt8) (c : Session) : Prop where
  phase : ∃ given, input = given ++ c.waiting.flatten ∧ c.state.buf <:+ given ∧ Phase window dict first.maxDist given c
  constant : c.state.constant = first.constant
  total : c.state.totalOut = .ofNat c.written.length

theorem isalInflate_raw (raw : s.crcFlag = .deflate) (state : s.blockState ≠ .checksumCheck) :
    isalInflate s = inflateStream { s with out := [] } := by
  rw [isalInflate, if_neg (by rw [raw]; simp), if_neg (by rw [raw]; simp), if_neg state]

/-- The input of the next call is what has been given, or some more. -/
theorem Session.feed_spec {c : Session} {dict input given : List UInt8} (split : input = given ++ c.waiting.flatten)
    (buffer : c.state.buf <:+ given) (run : Runs window ⟨.header, bytesBits given, dict⟩ r) (place : Place window c.state r) :
    ∃ given' r', input = given' ++ c.feed.2.flatten ∧ c.feed.1.buf <:+ given' ∧ Runs window ⟨.header, bytesBits given', dict⟩ r' ∧
      Place window c.feed.1 r' ∧ r'.out = r.out ∧
      ∃ buf nextIn availIn, c.feed.1 = { c.state with buf, nextIn, availIn } := by
  rw [Session.feed]
  by_cases empty : c.state.availIn = 0
  · rw [if_pos empty]
    cases waiting : c.waiting with
    | nil => exact ⟨given, r, by rw [split, waiting], buffer, run, place, rfl, _, _, _, rfl⟩
    | cons next rest =>
      have extended := run.extend (initial_legal _ _) (bytesBits_whole next)
      rw [State.extend, ← bytesBits_append] at extended
      refine ⟨given ++ next, r.extend (bytesBits next), ?_, List.suffix_append _ _, extended, place.feed empty next, rfl, _, _, _, rfl⟩
      rw [split, waiting, List.flatten_cons, List.append_assoc]
  · rw [if_neg empty]
    exact ⟨given, r, split, buffer, run, place, rfl, _, _, _, rfl⟩

theorem checkTrailer_raw (raw : s.crcFlag = .deflate) : checkTrailer s = (.decompOk, s) := by
  rw [checkTrailer, raw]

theorem unread_behind {inp : InStream} {bits : List Bool} (views : Views inp (bitsVal bits) bits.length) :
    inp.unread.nextIn = inp.buf.length - (bits.length / 8 : Nat) ∧ inp.unread.availIn = bits.length / 8 % 2 ^ 32 := by
  have nonneg := views.nonneg
  have inside := views.inside
  have start := views.start
  have count := views.count
  have back : inp.unread.nextIn = inp.nextIn - inp.readInLength / 8 := by
    rw [← Int.tdiv_eq_ediv_of_nonneg nonneg]
    rfl
  have left : inp.unread.availIn = ((inp.availIn + inp.readInLength / 8) % 2 ^ 32).toNat := by
    rw [← Int.tdiv_eq_ediv_of_nonneg nonneg]
    rfl
  have whole : (inp.availIn : Int) + inp.readInLength / 8 = (bits.length / 8 : Nat) := by omega
  rw [back, left, whole]
  refine ⟨by omega, ?_⟩
  omega

/-- One call -/
theorem Follows.call {dict : List UInt8} {first : InflateState} {input : List UInt8} {c : Session}
    (h : Follows window dict first input c) (raw : first.crcFlag = .deflate) (bounded : Bounded window first ⟨.header, bytesBits input, dict⟩)
    (goesOn : ¬c.Over) (room : Nat) :
    ∃ c', c.call room = some c' ∧ Follows window dict first input c' ∧ c'.written.length + c'.state.availOut = c.written.length + room := by
  obtain ⟨⟨given, split, buffer, phase⟩, constant, total⟩ := h
  cases phase with
  | finished _ _ _ _ state => exact absurd (Or.inr state) goesOn
  | failed r run bad => exact absurd (Or.inl bad.negative) goesOn
  | decoding r run place calm held ret ends =>
    obtain ⟨given', r', split', buffer', run', place', out, buf, nextIn, availIn, fed⟩ := Session.feed_spec split buffer run place
    obtain ⟨s, isS⟩ : ∃ s : InflateState, s = { c.feed.1 with out := [], availOut := room } := ⟨_, rfl⟩
    have constantS : s.constant = first.constant := by
      rw [isS, fed]
      exact constant
    have rawS : s.crcFlag = .deflate := by
      have flag := congrArg (·.crcFlag) constantS
      exact flag.trans raw
    have placeS : Place window s r' := by
      rw [isS]
      exact place'.reading rfl
    have calmS : Calm s := by
      rw [isS, fed]
      exact ⟨calm.lits, calm.len, calm.copy, calm.distance⟩
    have heldS : Held (dict ++ c.written) s r'.out := by
      rw [isS, fed, out]
      exact ⟨⟨held.processed, held.size, held.content⟩, held.history⟩
    have boundedS : Bounded window s r' := by
      rw [split', bytesBits_append] at bounded
      have same := congrArg InflateState.maxDist constantS
      exact bounded.ofAppend (bytesBits_length _ ▸ Nat.dvd_mul_right _ _) run'.steps same
    have totalS : s.totalOut = .ofNat c.written.length := by
      rw [isS, fed]
      exact total
    have called : isalInflate { c.feed.1 with availOut := room } = inflateStream s := by
      have start : isalInflate { c.feed.1 with availOut := room } = inflateStream { c.feed.1 with availOut := room, out := [] } := by
        refine isalInflate_raw ?_ ?_
        · rw [isS] at rawS
          exact rawS
        · exact place'.notChecksum
      rw [start, isS]
    obtain ⟨⟨ret', t⟩, done, read⟩ := inflateStream_spec placeS calmS heldS (by rw [isS]) boundedS (run'.legal (initial_legal _ _))
    have next : c.call room = some { state := t, waiting := c.feed.2, written := c.written ++ t.out, ret := ret' } := by
      rw [Session.call, called, done]
    refine ⟨_, next, ?_⟩
    have maxDist : s.maxDist = first.maxDist := by
      have same := congrArg InflateState.maxDist constantS
      exact same
    have carried : ∀ {u : InflateState}, StreamCount s u → u.constant = first.constant ∧ u.buf <:+ given' ∧
        u.totalOut = .ofNat (c.written ++ u.out).length ∧ (c.written ++ u.out).length + u.availOut = c.written.length + room := by
      intro u count
      have fits := count.room
      have given : s.availOut = room := by rw [isS]
      refine ⟨count.frame.rest.trans constantS, ?_, ?_, by rw [List.length_append]; omega⟩
      · rw [count.frame.buf, isS]
        exact buffer'
      · rw [count.total, totalS, List.length_append, UInt32.ofNat_add]
    cases read with
    | rests _ r'' onward placeT calmT heldT endsT goesOn count =>
      obtain ⟨constantT, bufferT, totalT, roomT⟩ := carried count
      rw [List.append_assoc] at heldT
      refine ⟨⟨⟨given', split', bufferT, .decoding r'' (run'.trans onward) placeT calmT heldT rfl ?_⟩, constantT, totalT⟩, roomT⟩
      cases endsT with
      | full none_ => exact Or.inl none_
      | done calm whole state => exact absurd ⟨state, whole.symm⟩ goesOn
      | starved calm whole empty r''' further cut => exact Or.inr ⟨empty, r''', further, cut⟩
    | finished u r'' onward mode views calmU none_ outU whole count =>
      obtain ⟨constantU, bufferU, totalU, roomU⟩ := carried count
      have rawU : ({ u with blockState := .finish } : InflateState).crcFlag = .deflate := (congrArg (·.crcFlag) constantU).trans raw
      rw [checkTrailer_raw rawU]
      have totalV : u.totalOut - .ofNat (u.tmpOut.length - u.tmpOutProcessed) = u.totalOut := by
        rw [whole, Nat.sub_self]
        exact UInt32.sub_zero u.totalOut
      rw [List.append_assoc] at outU
      obtain ⟨nextIn, availIn⟩ := unread_behind views
      exact ⟨⟨⟨given', split', bufferU, .finished r'' (run'.trans onward) mode outU rfl rfl whole ⟨nextIn, availIn⟩⟩, constantU,
        totalV.trans totalU⟩, roomU⟩
    | invalid _ _ r'' error onward bad pending count =>
      obtain ⟨constantT, bufferT, totalT, roomT⟩ := carried count
      rw [List.append_assoc] at pending
      exact ⟨⟨⟨given', split', bufferT, .failed r'' (run'.trans onward) (maxDist ▸ bad) pending⟩, constantT, totalT⟩, roomT⟩

/-- A state in which a raw stream may start, with a dictionary -/
structure Fresh (dict : List UInt8) (s : InflateState) : Prop where
  state : s.blockState = .newHdr
  views : Views s.toInStream (bitsVal []) ([] : List Bool).length
  none_ : s.tmpIn = []
  calm : Calm s
  held : Held dict s dict
  raw : s.crcFlag = .deflate
  buf : s.buf = []
  room : s.availOut = 0
  total : s.totalOut = 0

theorem Fresh.follows {dict : List UInt8} (fresh : Fresh dict s) (chunks : List (List UInt8)) :
    Follows window dict s chunks.flatten (.start s chunks) := by
  have views : Views s.toInStream (bitsVal (bytesBits [])) (bytesBits []).length := fresh.views
  have held : Held (dict ++ []) s dict := by
    rw [List.append_nil]
    exact fresh.held
  refine ⟨⟨[], rfl, ?_, .decoding ⟨.header, bytesBits [], dict⟩ (.refl _) (.inside views (.header fresh.state) fresh.none_) fresh.calm held rfl
    (Or.inl fresh.room)⟩, rfl, fresh.total⟩
  change s.buf <:+ []
  rw [fresh.buf]

/-- Every session goes along with the reference decoder. -/
theorem Follows.reach {dict input : List UInt8} {first : InflateState} {c c' : Session} (h : Follows window dict first input c)
    (raw : first.crcFlag = .deflate) (bounded : Bounded window first ⟨.header, bytesBits input, dict⟩) (reach : c.Reach c') :
    Follows window dict first input c' := by
  induction reach with
  | start => exact h
  | call before goesOn room next ih =>
    obtain ⟨c', called, follows, -⟩ := ih.call raw bounded goesOn room
    rw [next] at called
    cases called
    exact follows

theorem Session.Reach.follows {dict : List UInt8} {chunks : List (List UInt8)} {c : Session} (fresh : Fresh dict s)
    (bounded : Bounded window s ⟨.header, bytesBits chunks.flatten, dict⟩) (reach : Reach (.start s chunks) c) :
    Follows window dict s chunks.flatten c := (fresh.follows chunks).reach fresh.raw bounded reach

/-- More buffers may come to the end of those that wait. -/
def Session.append (c : Session) (more : List (List UInt8)) : Session := { c with waiting := c.waiting ++ more }

theorem Follows.append {dict input : List UInt8} {first : InflateState} {c : Session} (h : Follows window dict first input c)
    (more : List (List UInt8)) : Follows window dict first (input ++ more.flatten) (c.append more) := by
  obtain ⟨⟨given, split, buffer, phase⟩, constant, total⟩ := h
  refine ⟨⟨given, ?_, buffer, ?_⟩, constant, total⟩
  · change _ = given ++ (c.waiting ++ more).flatten
    rw [split, List.flatten_append, List.append_assoc]
  · cases phase with
    | decoding r run place calm held ret ends => exact .decoding r run place calm held ret ends
    | finished r run mode out state ret whole behind => exact .finished r run mode out state ret whole behind
    | failed r run bad pending => exact .failed r run bad pending

/-- Initialized, with a limit for the window -/
def InflateState.opened (s : InflateState) (histBits : Nat) : InflateState := { isalInflateInit s with histBits }

theorem opened_fresh (s : InflateState) (histBits : Nat) : Fresh [] (s.opened histBits) where
  state := rfl
  views := by
    have views := views_initial []
    exact ⟨views.start, views.inside, views.small, views.count, views.drained, views.value, views.buffered⟩
  none_ := rfl
  calm := ⟨rfl, rfl, rfl, rfl⟩
  held := ⟨⟨Nat.le_refl _, Nat.zero_le _, rfl⟩, fun _ => ⟨Nat.zero_le _, [], rfl, Or.inl rfl⟩⟩
  raw := rfl
  buf := rfl
  room := rfl
  total := rfl

end Raw

end Isal.Inflate
