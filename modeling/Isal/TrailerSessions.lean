import Isal.TrailerRuns

/-! Sequences of calls up to the check of the trailer. -/
namespace Isal.Rfc1951

open Isal.Bits Isal.PrefixCode

/-- A step leaves the rest of the bits. -/
theorem step_suffix {s t : State} (legal : s.Legal) (h : step s = .next t) : t.bits <:+ s.bits := by
  obtain ⟨mode, bits, out⟩ := s
  cases mode with
  | done => cases h
  | header =>
    obtain ⟨⟨last, block⟩, rest, parsed, h⟩ := outcome_next h
    have suffix := reader_readBlock.suffix parsed
    cases block with
    | stored n => cases n <;> cases h <;> exact suffix
    | coded codes => cases h; exact suffix
  | stored left last =>
    obtain ⟨byte, rest, parsed, h⟩ := outcome_next h
    have reader : Reader 8 (num 8) := reader_num 8
    cases h
    exact reader.suffix parsed
  | coded codes last =>
    obtain ⟨token, rest, parsed, h⟩ := outcome_next h
    have reader : Reader 8 (readToken codes) := reader_readToken (legal codes last rfl)
    have suffix := reader.suffix parsed
    cases token with
    | literal byte => cases h; exact suffix
    | endOfBlock => cases h; exact suffix
    | copy length dist =>
      dsimp only at h
      split at h
      · cases h
      · cases h
        exact suffix

theorem Steps.suffix {s t : State} (run : Steps s t) (legal : s.Legal) : t.bits <:+ s.bits := by
  induction run with
  | refl => exact List.suffix_rfl
  | tail first last ih => exact (step_suffix (Steps.legal first legal) last).trans ih

/-- The input behind a place, from the next whole byte on -/
def behind (given : List UInt8) (r : State) : List UInt8 := given.drop (given.length - r.bits.length / 8)

variable {given more dict : List UInt8} {r : State}

theorem behind_aligned (run : Steps ⟨.header, bytesBits given, dict⟩ r) :
    r.bits.drop (r.bits.length % 8) = bytesBits (behind given r) := by
  obtain ⟨before, split⟩ := run.suffix (initial_legal _ _)
  have split : before ++ r.bits = bytesBits given := split
  have sizes := congrArg List.length split
  rw [List.length_append, bytesBits_length] at sizes
  have place : 8 * (given.length - r.bits.length / 8) = before.length + r.bits.length % 8 := by omega
  rw [behind, bytesBits_drop, place, ← split, List.drop_append, List.drop_of_length_le (Nat.le_add_right _ _), List.nil_append,
    Nat.add_sub_cancel_left]

theorem behind_length (run : Steps ⟨.header, bytesBits given, dict⟩ r) : (behind given r).length = r.bits.length / 8 := by
  have few := run.shrinks (initial_legal _ _)
  rw [bytesBits_length] at few
  rw [behind, List.length_drop]
  omega

theorem behind_extend (run : Steps ⟨.header, bytesBits given, dict⟩ r) :
    behind (given ++ more) (r.extend (bytesBits more)) = behind given r ++ more := by
  have few := run.shrinks (initial_legal _ _)
  rw [bytesBits_length] at few
  have place : (given ++ more).length - (r.extend (bytesBits more)).bits.length / 8 = given.length - r.bits.length / 8 := by
    rw [State.extend, List.length_append, List.length_append, bytesBits_length]
    omega
  rw [behind, place, behind, List.drop_append_of_le_length (by omega)]

end Isal.Rfc1951

namespace Isal.Inflate

open Isal.Bits Isal.PrefixCode Isal.Rfc1951 Isal.Checksum

variable {flag : CrcFlag} {s t first : InflateState} {r : State} {given input rest : List UInt8} {c : Session}

/-- The states between two calls, for a stream with a trailer -/
inductive Checks (flag : CrcFlag) (given : List UInt8) (c : Session) : Prop
  | decoding (r : State) (run : Runs 32768 ⟨.header, bytesBits given, []⟩ r) (place : Place 32768 c.state r) (calm : Calm c.state)
      (held : Held c.written c.state r.out) (ret : c.ret = .decompOk)
      (ends : c.state.availOut = 0 ∨ c.state.availIn = 0 ∧ ∃ r', Runs 32768 r r' ∧ Cut r') (sum : flag.Summed c.state.crc c.written) :
      Checks flag given c
  | failed (r : State) (run : Runs 32768 ⟨.header, bytesBits given, []⟩ r) (bad : Bad distLen c.ret r) : Checks flag given c
  | checking (r : State) (run : Runs 32768 ⟨.header, bytesBits given, []⟩ r) (mode : r.mode = .done) (out : r.out = c.written)
      (state : c.state.blockState = .checksumCheck) (ret : c.ret = .decompOk) (final : flag.Final c.state.crc c.written)
      (trailing : Trailing c.state (behind given r)) (few : (behind given r).length < flag.trailerSize) (empty : c.state.availIn = 0)
      (aside : c.state.readInLength < 8) : Checks flag given c
  | checked (r : State) (run : Runs 32768 ⟨.header, bytesBits given, []⟩ r) (mode : r.mode = .done) (out : r.out = c.written)
      (state : c.state.blockState = .finish) (enough : flag.trailerSize ≤ (behind given r).length)
      (ret : c.ret = if (behind given r).take flag.trailerSize = flag.trailer c.written then .decompOk else .incorrectChecksum)
      (nextIn : c.state.nextIn = c.state.buf.length - ((behind given r).length - flag.trailerSize : Nat)) : Checks flag given c

/-- A session of calls for a stream with a trailer -/
structure Verifies (flag : CrcFlag) (first : InflateState) (input : List UInt8) (c : Session) : Prop where
  phase : ∃ given, input = given ++ c.waiting.flatten ∧ c.state.buf <:+ given ∧ Checks flag given c
  constant : c.state.constant = first.constant
  total : c.state.totalOut = .ofNat c.written.length

theorem isalInflate_verified (verified : flag.Verified) (isFlag : s.crcFlag = flag) (state : s.blockState ≠ .checksumCheck) :
    isalInflate s = inflateStream { s with out := [] } := by
  have noGzip : ¬(s.wrapperFlag = false ∧ s.crcFlag = .gzip) := by cases verified <;> simp [isFlag]
  have noZlib : ¬(s.wrapperFlag = false ∧ s.crcFlag = .zlib) := by cases verified <;> simp [isFlag]
  rw [isalInflate, if_neg noGzip, if_neg noZlib, if_neg state]

theorem isalInflate_resumed (verified : flag.Verified) (isFlag : s.crcFlag = flag) (state : s.blockState = .checksumCheck) :
    isalInflate s = some ((resumeTrailer { s with out := [] }).1.settle, (resumeTrailer { s with out := [] }).2) := by
  have noGzip : ¬(s.wrapperFlag = false ∧ s.crcFlag = .gzip) := by cases verified <;> simp [isFlag]
  have noZlib : ¬(s.wrapperFlag = false ∧ s.crcFlag = .zlib) := by cases verified <;> simp [isFlag]
  rw [isalInflate, if_neg noGzip, if_neg noZlib, if_pos state]

/-- More input behind a stream that has ended -/
theorem Trailing.feed (h : Trailing s rest) (empty : s.availIn = 0) (next : List UInt8) :
    Trailing { s with buf := next, nextIn := 0, availIn := next.length } (rest ++ next) := by
  have nothing : s.pending = [] := by
    rw [InStream.pending, empty, List.take_zero]
  have whole : InStream.pending { s.toInStream with buf := next, nextIn := 0, availIn := next.length } = next := by
    change (next.drop 0).take next.length = next
    rw [List.drop_zero, List.take_length]
  have content := h.content
  rw [nothing, List.append_nil] at content
  refine ⟨⟨Int.le_refl 0, Nat.zero_add _⟩, h.nonneg, h.small, ?_, h.either⟩
  rw [content]
  exact congrArg (s.tmpIn ++ s.ahead ++ ·) whole.symm

/-- The input of a state is put back, or there is nothing to put back. -/
def Settled (start t : InflateState) (inp : InStream) : Prop := inp = t.unread ∨ start.readInLength < 8 ∧ inp = t.toInStream

/-- A check has come to the end of the input, or of the trailer. -/
theorem Checks.ofTrailer {ret : ReturnCode} (run : Runs 32768 ⟨.header, bytesBits given, []⟩ r) (mode : r.mode = .done)
    (out : r.out = c.written) (final : flag.Final s.crc c.written)
    (read : TrailerRead flag.trailerSize s (behind given r) ((behind given r).take flag.trailerSize = flag.trailer c.written) (ret, t))
    (isRet : c.ret = ret.settle) (state : c.state.blockState = t.blockState) (crc : c.state.crc = t.crc) (tmpIn : c.state.tmpIn = t.tmpIn)
    (inp : Settled s t c.state.toInStream) : Checks flag given c := by
  cases read with
  | short _ few trailing empty aside frame =>
    obtain ⟨nextIn, availIn⟩ := unread_few trailing.nonneg aside
    have back : c.state.nextIn = t.nextIn ∧ c.state.availIn = 0 ∧ c.state.buf = t.buf ∧ 0 ≤ c.state.readInLength ∧ c.state.readInLength < 8 := by
      rcases inp with unread | ⟨-, same⟩
      · rw [unread, nextIn, availIn, empty]
        exact ⟨rfl, rfl, rfl, Int.le_refl 0, by simp [InStream.unread]⟩
      · rw [same]
        exact ⟨rfl, empty, rfl, trailing.nonneg, aside⟩
    obtain ⟨sameNext, sameAvail, sameBuf, nonneg, less⟩ := back
    have pending : c.state.pending = t.pending := by
      rw [InStream.pending, InStream.pending, sameAvail, empty, List.take_zero, List.take_zero]
    have start := trailing.within.start
    have inside := trailing.within.inside
    have isState : t.blockState = .checksumCheck ∧ t.crc = s.crc := by
      obtain ⟨_, _, -, rfl⟩ := frame
      exact ⟨rfl, rfl⟩
    refine .checking r run mode out (state.trans isState.1) (isRet.trans rfl) (by rw [crc, isState.2]; exact final)
      ⟨⟨sameNext ▸ start, ?_⟩, nonneg, by omega, ?_, Or.inr less⟩ few sameAvail less
    · rw [sameNext, sameAvail, sameBuf, ← empty]
      exact inside
    · rw [ahead_nil less, tmpIn, pending, List.append_nil]
      exact trailing.settled aside
  | right _ enough holds nextIn availIn aside frame =>
    have isState : t.blockState = .finish ∧ t.buf = s.buf := by
      obtain ⟨_, _, buf, rfl⟩ := frame
      exact ⟨rfl, buf⟩
    have place : c.state.nextIn = t.unread.nextIn ∧ c.state.buf = t.buf := by
      rcases inp with unread | ⟨less, same⟩
      · rw [unread]
        exact ⟨rfl, rfl⟩
      · rw [same]
        exact ⟨(unread_few (aside less).1 (aside less).2).1.symm, rfl⟩
    exact .checked r run mode out (state.trans isState.1) enough (by rw [if_pos holds]; exact isRet)
      (by rw [place.1, place.2, isState.2]; exact nextIn)
  | wrong _ enough bad nextIn availIn aside frame =>
    have isState : t.blockState = .finish ∧ t.buf = s.buf := by
      obtain ⟨_, _, buf, rfl⟩ := frame
      exact ⟨rfl, buf⟩
    have place : c.state.nextIn = t.unread.nextIn ∧ c.state.buf = t.buf := by
      rcases inp with unread | ⟨less, same⟩
      · rw [unread]
        exact ⟨rfl, rfl⟩
      · rw [same]
        exact ⟨(unread_few (aside less).1 (aside less).2).1.symm, rfl⟩
    exact .checked r run mode out (state.trans isState.1) enough (by rw [if_neg bad]; exact isRet)
      (by rw [place.1, place.2, isState.2]; exact nextIn)

/-- The next call where the trailer has been found cut off -/
theorem Verifies.resume (verified : flag.Verified) (isFlag : first.crcFlag = flag) (split : input = given ++ c.waiting.flatten)
    (buffer : c.state.buf <:+ given) (constant : c.state.constant = first.constant) (total : c.state.totalOut = .ofNat c.written.length)
    (run : Runs 32768 ⟨.header, bytesBits given, []⟩ r) (mode : r.mode = .done) (out : r.out = c.written)
    (state : c.state.blockState = .checksumCheck) (final : flag.Final c.state.crc c.written) (trailing : Trailing c.state (behind given r))
    (few : (behind given r).length < flag.trailerSize) (empty : c.state.availIn = 0) (aside : c.state.readInLength < 8) (room : Nat) :
    ∃ c', c.call room = some c' ∧ Verifies flag first input c' := by
  have fed : ∃ given' r', input = given' ++ c.feed.2.flatten ∧ c.feed.1.buf <:+ given' ∧ Runs 32768 ⟨.header, bytesBits given', []⟩ r' ∧
      r'.mode = .done ∧ r'.out = c.written ∧ Trailing c.feed.1 (behind given' r') ∧
      ∃ buf nextIn availIn, c.feed.1 = { c.state with buf, nextIn, availIn } := by
    rw [Session.feed, if_pos empty]
    cases waiting : c.waiting with
    | nil => exact ⟨given, r, by rw [split, waiting], buffer, run, mode, out, trailing, _, _, _, rfl⟩
    | cons next more =>
      have extended := run.extend (initial_legal _ _) (bytesBits_whole next)
      rw [State.extend, ← bytesBits_append] at extended
      refine ⟨given ++ next, r.extend (bytesBits next), ?_, List.suffix_append _ _, extended, mode, out, ?_, _, _, _, rfl⟩
      · rw [split, waiting, List.flatten_cons, List.append_assoc]
      · rw [behind_extend run.steps]
        exact trailing.feed empty next
  obtain ⟨given', r', split', buffer', run', mode', out', trailing', buf, nextIn, availIn, isFed⟩ := fed
  obtain ⟨s, isS⟩ : ∃ s : InflateState, s = { c.feed.1 with out := [], availOut := room } := ⟨_, rfl⟩
  have constantS : s.constant = first.constant := by
    rw [isS, isFed]
    exact constant
  have isFlagS : s.crcFlag = flag := (congrArg (·.crcFlag) constantS).trans isFlag
  have fields : s.readInLength = c.state.readInLength ∧ s.tmpIn = c.state.tmpIn ∧ s.crc = c.state.crc ∧ s.totalOut = c.state.totalOut ∧
      s.blockState = c.state.blockState ∧ s.out = [] := by
    rw [isS, isFed]
    exact ⟨rfl, rfl, rfl, rfl, rfl, rfl⟩
  obtain ⟨length, tmpIn, crc, totalOut, blockState, none_⟩ := fields
  have trailingS : Trailing s (behind given' r') := by
    rw [isS]
    exact ⟨trailing'.within, trailing'.nonneg, trailing'.small, trailing'.content, trailing'.either⟩
  have short : s.tmpIn.length < flag.trailerSize := by
    have size := trailing.length
    rw [tmpIn]
    omega
  have finalS : flag.Final s.crc c.written := by
    rw [crc]
    exact final
  have totalS : s.totalOut = .ofNat c.written.length := totalOut.trans total
  have read := resumeTrailer_spec verified isFlagS trailingS short finalS totalS
  have called : c.call room = some
      { state := (resumeTrailer s).2, waiting := c.feed.2, written := c.written ++ (resumeTrailer s).2.out, ret := (resumeTrailer s).1.settle } := by
    have resumed := isalInflate_resumed (s := { c.feed.1 with availOut := room }) verified
      (by rw [isS] at isFlagS; exact isFlagS) (by rw [isFed]; exact state)
    have same : ({ ({ c.feed.1 with availOut := room } : InflateState) with out := [] } : InflateState) = s := isS.symm
    rw [same] at resumed
    rw [Session.call, resumed]
  refine ⟨_, called, ?_⟩
  generalize resumeTrailer s = result at read
  obtain ⟨ret, t⟩ := result
  have frame : t.constant = s.constant ∧ t.buf = s.buf ∧ t.totalOut = s.totalOut ∧ t.out = [] := by
    cases read with
    | short _ _ _ _ _ frame =>
      obtain ⟨inp, tmpIn, buf, rfl⟩ := frame
      exact ⟨rfl, buf, rfl, none_⟩
    | right _ _ _ _ _ _ frame =>
      obtain ⟨inp, tmpIn, buf, rfl⟩ := frame
      exact ⟨rfl, buf, rfl, none_⟩
    | wrong _ _ _ _ _ _ frame =>
      obtain ⟨inp, tmpIn, buf, rfl⟩ := frame
      exact ⟨rfl, buf, rfl, none_⟩
  obtain ⟨constantT, bufT, totalT, noneT⟩ := frame
  dsimp only
  rw [noneT, List.append_nil]
  refine ⟨⟨given', split', ?_, ?_⟩, constantT.trans constantS, (totalT.trans totalOut).trans total⟩
  · change t.buf <:+ given'
    rw [bufT, isS]
    exact buffer'
  · exact .ofTrailer run' mode' out' (crc ▸ final) read rfl rfl rfl rfl (Or.inr ⟨by rw [length]; exact aside, rfl⟩)

/-- One call -/
theorem Verifies.call (verified : flag.Verified) (isFlag : first.crcFlag = flag) (large : first.maxDist = distLen)
    (h : Verifies flag first input c) (goesOn : ¬c.Over) (room : Nat) : ∃ c', c.call room = some c' ∧ Verifies flag first input c' := by
  obtain ⟨⟨given, split, buffer, phase⟩, constant, total⟩ := h
  cases phase with
  | checked _ _ _ _ state => exact absurd (Or.inr state) goesOn
  | failed r run bad => exact absurd (Or.inl bad.negative) goesOn
  | checking r run mode out state ret final trailing few empty aside =>
    exact Verifies.resume verified isFlag split buffer constant total run mode out state final trailing few empty aside room
  | decoding r run place calm held ret ends sum =>
    obtain ⟨given', r', split', buffer', run', place', out, buf, nextIn, availIn, fed⟩ := Session.feed_spec split buffer run place
    obtain ⟨s, isS⟩ : ∃ s : InflateState, s = { c.feed.1 with out := [], availOut := room } := ⟨_, rfl⟩
    have constantS : s.constant = first.constant := by
      rw [isS, fed]
      exact constant
    have isFlagS : s.crcFlag = flag := (congrArg (·.crcFlag) constantS).trans isFlag
    have placeS : Place 32768 s r' := by
      rw [isS]
      exact place'.reading rfl
    have calmS : Calm s := by
      rw [isS, fed]
      exact ⟨calm.lits, calm.len, calm.copy, calm.distance⟩
    have heldS : Held c.written s r'.out := by
      rw [isS, fed, out]
      exact ⟨⟨held.processed, held.size, held.content⟩, held.history⟩
    have totalS : s.totalOut = .ofNat c.written.length := by
      rw [isS, fed]
      exact total
    have sumS : flag.Summed s.crc c.written := by
      rw [isS, fed]
      exact sum
    have called : isalInflate { c.feed.1 with availOut := room } = inflateStream s := by
      have start := isalInflate_verified (s := { c.feed.1 with availOut := room }) verified (by rw [isS] at isFlagS; exact isFlagS)
        place'.notChecksum
      rw [start, isS]
    obtain ⟨⟨ret', t⟩, done, read⟩ := inflateStream_spec placeS calmS heldS (by rw [isS]) (bounded_all _ _) (run'.legal (initial_legal _ _))
    have next : c.call room = some { state := t, waiting := c.feed.2, written := c.written ++ t.out, ret := ret' } := by
      rw [Session.call, called, done]
    refine ⟨_, next, ?_⟩
    have carried : ∀ {u : InflateState}, StreamCount s u → u.constant = first.constant ∧ u.buf <:+ given' ∧
        u.totalOut = .ofNat (c.written ++ u.out).length ∧ flag.Summed u.crc (c.written ++ u.out) := by
      intro u count
      refine ⟨count.frame.rest.trans constantS, ?_, ?_, ?_⟩
      · rw [count.frame.buf, isS]
        exact buffer'
      · rw [count.total, totalS, List.length_append, UInt32.ofNat_add]
      · rw [count.crc]
        exact sumS.append verified isFlagS
    cases read with
    | rests _ r'' onward placeT calmT heldT endsT goesOn count =>
      obtain ⟨constantT, bufferT, totalT, sumT⟩ := carried count
      refine ⟨⟨given', split', bufferT, .decoding r'' (run'.trans onward) placeT calmT heldT rfl ?_ sumT⟩, constantT, totalT⟩
      cases endsT with
      | full none_ => exact Or.inl none_
      | done calm whole state => exact absurd ⟨state, whole.symm⟩ goesOn
      | starved calm whole empty last further cut => exact Or.inr ⟨empty, last, further, cut⟩
    | finished u r'' onward mode views calmU none_ outU whole count =>
      obtain ⟨constantU, bufferU, totalU, sumU⟩ := carried count
      obtain ⟨v, isV⟩ : ∃ v : InflateState, v = { u with blockState := .finish } := ⟨_, rfl⟩
      have isFlagV : v.crcFlag = flag := by
        rw [isV]
        exact (congrArg (·.crcFlag) constantU).trans isFlag
      have viewsV : Views v.toInStream (bitsVal r''.bits) r''.bits.length := by
        rw [isV]
        exact views
      have trailingV := Trailing.ofViews viewsV (by rw [isV]; exact none_) (behind_aligned (run'.trans onward).steps)
      have totalV : v.totalOut = .ofNat (c.written ++ u.out).length := by
        rw [isV]
        exact totalU
      obtain ⟨crc, final, checked⟩ := checkTrailer_spec verified isFlagV trailingV (by rw [isV]; exact none_) (by rw [isV]; exact sumU) totalV
      rw [← isV]
      generalize checkTrailer v = result at checked
      obtain ⟨ret, w⟩ := result
      have frame : w.constant = u.constant ∧ w.buf = u.buf ∧ w.totalOut = u.totalOut ∧ w.out = u.out ∧ w.tmpOut = u.tmpOut ∧
          w.tmpOutProcessed = u.tmpOutProcessed := by
        cases checked with
        | short _ _ _ _ _ frame =>
          obtain ⟨inp, tmpIn, buf, rfl⟩ := frame
          rw [isV] at buf ⊢
          exact ⟨rfl, buf, rfl, rfl, rfl, rfl⟩
        | right _ _ _ _ _ _ frame =>
          obtain ⟨inp, tmpIn, buf, rfl⟩ := frame
          rw [isV] at buf ⊢
          exact ⟨rfl, buf, rfl, rfl, rfl, rfl⟩
        | wrong _ _ _ _ _ _ frame =>
          obtain ⟨inp, tmpIn, buf, rfl⟩ := frame
          rw [isV] at buf ⊢
          exact ⟨rfl, buf, rfl, rfl, rfl, rfl⟩
      obtain ⟨constantW, bufW, totalW, outW, tmpOutW, processedW⟩ := frame
      have totalX : ((w.withIn w.unread).uncountTmpOut).totalOut = .ofNat (c.written ++ u.out).length := by
        change w.totalOut - .ofNat (w.tmpOut.length - w.tmpOutProcessed) = _
        rw [tmpOutW, processedW, whole, Nat.sub_self, totalW]
        exact (UInt32.sub_zero u.totalOut).trans totalU
      have writtenX : c.written ++ ((w.withIn w.unread).uncountTmpOut).out = c.written ++ u.out := congrArg (c.written ++ ·) outW
      rw [writtenX]
      refine ⟨⟨given', split', ?_, ?_⟩, constantW.trans constantU, totalX⟩
      · change w.buf <:+ given'
        rw [bufW]
        exact bufferU
      · exact .ofTrailer (run'.trans onward) mode outU final checked rfl rfl rfl rfl (Or.inl rfl)
    | invalid _ _ r'' error onward bad pending count =>
      obtain ⟨constantT, bufferT, totalT, -⟩ := carried count
      have maxDist : s.maxDist = distLen := (congrArg InflateState.maxDist constantS).trans large
      exact ⟨⟨given', split', bufferT, .failed r'' (run'.trans onward) (maxDist ▸ bad)⟩, constantT, totalT⟩

theorem Verifies.start (verified : flag.Verified) (s : InflateState) (chunks : List (List UInt8)) :
    Verifies flag { isalInflateInit s with crcFlag := flag } chunks.flatten (.start { isalInflateInit s with crcFlag := flag } chunks) := by
  have fresh := init_fresh s
  have views : Views (isalInflateInit s).toInStream (bitsVal (bytesBits [])) (bytesBits []).length := fresh.views
  refine ⟨⟨[], rfl, List.suffix_rfl, .decoding ⟨.header, bytesBits [], []⟩ (.refl _) (.inside views (.header rfl) rfl) ⟨rfl, rfl, rfl, rfl⟩ ?_ rfl
    (Or.inl rfl) (CrcFlag.Summed.start verified)⟩, rfl, rfl⟩
  exact ⟨⟨fresh.held.processed, fresh.held.size, fresh.held.content⟩, fresh.held.history⟩

theorem Verifies.reach {c' : Session} (verified : flag.Verified) (isFlag : first.crcFlag = flag) (large : first.maxDist = distLen)
    (h : Verifies flag first input c) (reach : c.Reach c') : Verifies flag first input c' := by
  induction reach with
  | start => exact h
  | call before goesOn room next ih =>
    obtain ⟨c', called, verifies⟩ := ih.call verified isFlag large goesOn room
    rw [next] at called
    cases called
    exact verifies

/-- Where the reference decoder finishes the stream, the session ends with all of its output: within the trailer if the input does, and
else with the comparison of the trailer and the one that belongs to the output. -/
theorem Verifies.ends {u : State} (h : Verifies flag first input c) (decoded : decode input = (.finished, u)) (ended : c.Over ∨ c.Drained) :
    c.written = u.out ∧
      if (behind input u).length < flag.trailerSize then c.ret = .decompOk ∧ c.state.blockState = .checksumCheck
      else c.state.blockState = .finish ∧
        c.ret = if (behind input u).take flag.trailerSize = flag.trailer u.out then .decompOk else .incorrectChecksum := by
  obtain ⟨last, done⟩ := run_finished decoded
  obtain ⟨⟨given, split, -, phase⟩, -, -⟩ := h
  have legal := initial_legal (bytesBits given) []
  have longer : ∀ {r : State}, Runs 32768 ⟨.header, bytesBits given, []⟩ r →
      Steps ⟨.header, bytesBits input, []⟩ (r.extend (bytesBits c.waiting.flatten)) := by
    intro r run
    have extended := run.steps.extend legal (bytesBits_whole c.waiting.flatten)
    rwa [State.extend, ← bytesBits_append, ← split] at extended
  have whole : ∀ {r : State}, Runs 32768 ⟨.header, bytesBits given, []⟩ r → r.mode = .done →
      r.out = u.out ∧ behind input u = behind given r ++ c.waiting.flatten := by
    intro r run mode
    have ends : EndsAs .finished (r.extend (bytesBits c.waiting.flatten)) := .finished _ mode
    obtain ⟨same, -⟩ := ends.same (.finished u done) (longer run) last
    rw [← same, split]
    exact ⟨rfl, behind_extend run.steps⟩
  cases phase with
  | decoding r run place calm held ret ends =>
    exfalso
    rcases ended with negative | ⟨none_, -, -, room⟩
    · rcases negative with negative | finish
      · rw [ret] at negative
        cases negative
      · exact place.notFinish finish
    · obtain ⟨-, r', onward, cut⟩ := ends.resolve_left (by omega)
      have all : given = input := by rw [split, none_, List.flatten_nil, List.append_nil]
      have cutOff : EndsAs .incomplete r' := .incomplete r' cut
      obtain ⟨-, same⟩ := cutOff.same (.finished u done) (all ▸ run.steps.trans onward.steps) last
      cases same
  | failed r run bad =>
    exfalso
    have invalid := bad.ends.extend (by simp) (run.legal legal) c.waiting.flatten
    obtain ⟨-, same⟩ := invalid.same (.finished u done) (longer run) last
    cases same
  | checking r run mode out state ret final trailing few empty aside =>
    obtain ⟨isOut, rest⟩ := whole run mode
    rcases ended with negative | ⟨none_, -⟩
    · rcases negative with negative | finish
      · rw [ret] at negative
        cases negative
      · cases state.symm.trans finish
    · rw [none_, List.flatten_nil, List.append_nil] at rest
      rw [if_pos (rest ▸ few)]
      exact ⟨out.symm.trans isOut, ret, state⟩
  | checked r run mode out state enough ret nextIn =>
    obtain ⟨isOut, rest⟩ := whole run mode
    have isWritten : c.written = u.out := out.symm.trans isOut
    have taken : (behind input u).take flag.trailerSize = (behind given r).take flag.trailerSize := by
      rw [rest, List.take_append_of_le_length enough]
    have long : flag.trailerSize ≤ (behind input u).length := by
      rw [rest, List.length_append]
      omega
    rw [if_neg (by omega), taken, ← isWritten]
    exact ⟨rfl, state, ret⟩

/-- A stream with a trailer, in whatever pieces its input and the room for its output come: all of it is handed over, and then the
trailer is compared with the one that belongs to the output. -/
theorem isalInflate_trailer {chunks : List (List UInt8)} (verified : flag.Verified)
    (reach : Session.Reach (.start { isalInflateInit s with crcFlag := flag } chunks) c) :
    (¬c.Over → ∀ room, ∃ c', c.call room = some c') ∧
      ∀ u, decode chunks.flatten = (.finished, u) → c.Over ∨ c.Drained → c.written = u.out ∧
        if (behind chunks.flatten u).length < flag.trailerSize then c.ret = .decompOk ∧ c.state.blockState = .checksumCheck
        else c.state.blockState = .finish ∧
          c.ret = if (behind chunks.flatten u).take flag.trailerSize = flag.trailer u.out then .decompOk else .incorrectChecksum := by
  have verifies := (Verifies.start verified s chunks).reach verified rfl rfl reach
  refine ⟨fun goesOn room => ?_, fun u decoded ended => verifies.ends decoded ended⟩
  obtain ⟨c', called, -⟩ := verifies.call verified rfl rfl goesOn room
  exact ⟨c', called⟩

/-- A stored block of no bytes with a trailer of zeros -/
theorem isalInflate_trailer_stored :
    ((Session.start { isalInflateInit {} with crcFlag := .gzipNoHdrVer } [[1, 0, 0, 255, 255, 0, 0, 0, 0, 0, 0, 0, 0]]).call 1).map (·.ret) =
      some .decompOk := by
  obtain ⟨c, called, finish⟩ := Option.map_eq_some_iff.mp
    (show ((Session.start { isalInflateInit {} with crcFlag := .gzipNoHdrVer } [[1, 0, 0, 255, 255, 0, 0, 0, 0, 0, 0, 0, 0]]).call 1).map
      (·.state.blockState) = some .finish by decide)
  have goesOn : ¬(Session.start { isalInflateInit {} with crcFlag := .gzipNoHdrVer } [[1, 0, 0, 255, 255, 0, 0, 0, 0, 0, 0, 0, 0]]).Over := by
    simp [Session.Over, Session.start, isalInflateInit, ReturnCode.value]
  obtain ⟨-, ends⟩ := isalInflate_trailer .gzip (.call .start goesOn 1 called)
  obtain ⟨u, decoded, long, right⟩ : ∃ u, decode [1, 0, 0, 255, 255, 0, 0, 0, 0, 0, 0, 0, 0] = (.finished, u) ∧
      ¬(behind [1, 0, 0, 255, 255, 0, 0, 0, 0, 0, 0, 0, 0] u).length < CrcFlag.gzipNoHdrVer.trailerSize ∧
      (behind [1, 0, 0, 255, 255, 0, 0, 0, 0, 0, 0, 0, 0] u).take CrcFlag.gzipNoHdrVer.trailerSize =
        CrcFlag.gzipNoHdrVer.trailer u.out := ⟨_, rfl, by decide, by decide⟩
  obtain ⟨-, whole⟩ := ends u decoded (Or.inl (Or.inr finish))
  have long' : ¬(behind ([[1, 0, 0, 255, 255, 0, 0, 0, 0, 0, 0, 0, 0]] : List (List UInt8)).flatten u).length < CrcFlag.gzipNoHdrVer.trailerSize := long
  rw [if_neg long'] at whole
  rw [called, Option.map_some, whole.2]
  exact congrArg some (if_pos right)

end Isal.Inflate
