import Isal.Rfc1951

/-! Runs of the reference decoder: every step consumes bits and only adds output, and what
it makes of some bits does not change when more bytes come after them. -/
namespace Isal.Rfc1951

open Isal.Bits Isal.PrefixCode

/-- A reader whose results stand when whole units are added to the end of the input, and that takes all of
the input before it asks for more. -/
structure Reader (unit : Nat) (read : Get α) : Prop where
  ok : ∀ {bits ext value rest}, unit ∣ ext.length → read bits = .ok value rest →
    read (bits ++ ext) = .ok value (rest ++ ext)
  bad : ∀ {bits ext}, unit ∣ ext.length → read bits = .bad → read (bits ++ ext) = .bad
  suffix : ∀ {bits value rest}, read bits = .ok value rest → rest <:+ bits
  more : ∀ {bits ext value rest}, unit ∣ ext.length → read bits = .more → read (bits ++ ext) = .ok value rest →
    rest.length < ext.length

variable {unit : Nat}

theorem bind_inv {first : Get α} {next : α → Get β} {bits rest : List Bool} {value : β}
    (h : (first >>= next) bits = .ok value rest) :
    ∃ middle left, first bits = .ok middle left ∧ next middle left = .ok value rest := by
  cases parsed : first bits with
  | ok middle left => rw [bind_ok parsed] at h; exact ⟨middle, left, rfl, h⟩
  | more => rw [bind_more parsed] at h; cases h
  | bad => rw [bind_bad parsed] at h; cases h

theorem reader_pure (value : α) : Reader unit (pure value : Get α) where
  ok _ h := by cases h; rfl
  bad _ h := by cases h
  suffix h := by cases h; exact List.suffix_rfl
  more _ h := by cases h

theorem reader_fail : Reader unit (fail : Get α) where
  ok _ h := by cases h
  bad _ _ := rfl
  suffix h := by cases h
  more _ h := by cases h

theorem reader_num (n : Nat) : Reader unit (num n) where
  ok {bits ext value rest} _ h := by
    by_cases short : bits.length < n
    · rw [num_more short] at h; cases h
    · rw [num_ok (by omega)] at h
      cases h
      rw [num_ok (by simp; omega), ← bitsVal_take, List.take_append_of_le_length (by omega), bitsVal_take,
        List.drop_append_of_le_length (by omega)]
  bad {bits ext} _ h := by
    by_cases short : bits.length < n
    · rw [num_more short] at h; cases h
    · rw [num_ok (by omega)] at h; cases h
  suffix {bits value rest} h := by
    by_cases short : bits.length < n
    · rw [num_more short] at h; cases h
    · rw [num_ok (by omega)] at h
      cases h
      exact List.drop_suffix n bits
  more {bits ext value rest} _ h result := by
    by_cases short : bits.length < n
    · by_cases short' : (bits ++ ext).length < n
      · rw [num_more short'] at result; cases result
      · rw [num_ok (by omega)] at result
        cases result
        rw [List.length_drop, List.length_append]
        rw [List.length_append] at short'
        omega
    · rw [num_ok (by omega)] at h; cases h

/-- The second reader may rely on what holds of the first one's results. -/
theorem reader_bind {first : Get α} {next : α → Get β} (post : α → Prop) (h : Reader unit first)
    (holds : ∀ bits value rest, first bits = .ok value rest → post value)
    (then_ : ∀ value, post value → Reader unit (next value)) : Reader unit (first >>= next) where
  ok {bits ext value rest} bytes result := by
    obtain ⟨middle, left, parsed, result⟩ := bind_inv result
    rw [bind_ok (h.ok bytes parsed)]
    exact (then_ middle (holds _ _ _ parsed)).ok bytes result
  bad {bits ext} bytes result := by
    cases parsed : first bits with
    | ok middle left =>
      rw [bind_ok parsed] at result
      rw [bind_ok (h.ok bytes parsed)]
      exact (then_ middle (holds _ _ _ parsed)).bad bytes result
    | more => rw [bind_more parsed] at result; cases result
    | bad => rw [bind_bad (h.bad bytes parsed)]
  suffix {bits value rest} result := by
    obtain ⟨middle, left, parsed, result⟩ := bind_inv result
    exact ((then_ middle (holds _ _ _ parsed)).suffix result).trans (h.suffix parsed)
  more {bits ext value rest} bytes more result := by
    cases parsed : first bits with
    | ok middle left =>
      rw [bind_ok parsed] at more
      rw [bind_ok (h.ok bytes parsed)] at result
      exact (then_ middle (holds _ _ _ parsed)).more bytes more result
    | more =>
      obtain ⟨middle, left, parsed', result⟩ := bind_inv result
      exact Nat.lt_of_le_of_lt ((then_ middle (holds _ _ _ parsed')).suffix result).length_le (h.more bytes parsed parsed')
    | bad => rw [bind_bad parsed] at more; cases more

theorem reader_then {first : Get α} {next : α → Get β} (h : Reader unit first)
    (then_ : ∀ value, Reader unit (next value)) :
    Reader unit (first >>= next) :=
  reader_bind (fun _ => True) h (fun _ _ _ _ => trivial) fun value _ => then_ value

theorem reader_nums (width n : Nat) : Reader unit (nums width n) := by
  induction n with
  | zero => exact reader_pure []
  | succ n ih => exact reader_then (reader_num width) fun _ => reader_then ih fun _ => reader_pure _

theorem reader_align : Reader 8 align where
  ok {bits ext value rest} bytes h := by
    cases h
    have same : (bits ++ ext).length % 8 = bits.length % 8 := by
      rw [List.length_append]; omega
    rw [align, same, List.drop_append_of_le_length (Nat.mod_le _ _)]
  bad _ h := by cases h
  suffix h := by cases h; exact List.drop_suffix _ _
  more _ h := by cases h

theorem reader_decodeSym {lens : List Nat} (valid : Valid lens 15) (limit : Nat) : Reader unit (decodeSym lens limit) where
  ok {bits ext value rest} _ h := by
    rw [decodeSym] at h
    split at h
    · rename_i s found
      cases h
      obtain ⟨next, enough⟩ := Valid.find_sound found
      have legal : value < limit := List.mem_range.mp (List.mem_of_find?_eq_some found)
      have whole := next.isPrefix enough |>.trans (List.prefix_append bits ext)
      obtain ⟨next, long⟩ := matches_of_prefix next.used whole
      rw [valid.decodeSym_ok legal next long, List.drop_append_of_le_length enough]
    · split at h <;> cases h
  bad {bits ext} _ h := by
    rw [decodeSym] at h
    split at h
    · cases h
    rename_i none
    split at h
    · cases h
    rename_i apart
    simp only [List.any_eq_true, List.mem_range, Bool.and_eq_true, not_exists, not_and, List.isPrefixOf_iff_prefix]
      at apart
    rw [List.find?_eq_none] at none
    have missing : ∀ s ∈ List.range limit, ¬(used lens s && (codeword lens s).isPrefixOf (bits ++ ext)) = true := by
      intro s legal both
      rw [Bool.and_eq_true, List.isPrefixOf_iff_prefix] at both
      rcases List.prefix_or_prefix_of_prefix both.2 (List.prefix_append bits ext) with whole | cut
      · exact none s legal (by rw [Bool.and_eq_true, List.isPrefixOf_iff_prefix]; exact ⟨both.1, whole⟩)
      · exact apart s (List.mem_range.mp legal) both.1 cut
    rw [decodeSym, List.find?_eq_none.mpr missing]
    rw [if_neg]
    simp only [List.any_eq_true, List.mem_range, Bool.and_eq_true, not_exists, not_and, List.isPrefixOf_iff_prefix]
    intro s legal inUse cut
    exact apart s legal inUse ((List.prefix_append bits ext).trans cut)
  suffix {bits value rest} h := by
    rw [decodeSym] at h
    split at h
    · cases h; exact List.drop_suffix _ _
    · split at h <;> cases h
  more {bits ext value rest} _ more h := by
    rw [decodeSym] at h
    split at h
    · rename_i s found
      cases h
      obtain ⟨next, enough⟩ := Valid.find_sound found
      have legal : value < limit := List.mem_range.mp (List.mem_of_find?_eq_some found)
      have width : (codeword lens value).length = lengthOf lens value := by rw [codeword, msbBits_length]
      -- a codeword that is there without the extension would have been found
      have cut : bits.length < lengthOf lens value := by
        by_contra whole
        have inside := List.prefix_of_prefix_length_le (next.isPrefix enough) (List.prefix_append bits ext) (by omega)
        obtain ⟨next, long⟩ := matches_of_prefix next.used inside
        rw [valid.decodeSym_ok legal next long] at more
        cases more
      rw [List.length_drop, List.length_append]
      rw [List.length_append] at enough
      omega
    · split at h <;> cases h

theorem valid_of_not_oversubscribed {lens : List Nat} (bounded : ∀ n ∈ lens, n ≤ 15)
    (fits : ¬oversubscribed lens = true) : Valid lens 15 := by
  refine ⟨bounded, ?_⟩
  simpa [oversubscribed] using fits

theorem num_lt {n value : Nat} {bits rest : List Bool} (h : num n bits = .ok value rest) : value < 2 ^ n := by
  by_cases short : bits.length < n
  · rw [num_more short] at h; cases h
  · rw [num_ok (by omega)] at h
    cases h
    exact Nat.mod_lt _ (Nat.two_pow_pos n)

theorem nums_lt {width n : Nat} {bits rest : List Bool} {values : List Nat}
    (h : nums width n bits = .ok values rest) : ∀ x ∈ values, x < 2 ^ width := by
  by_cases short : bits.length < width * n
  · rw [nums_more short] at h; cases h
  · rw [nums_ok (by omega)] at h
    cases h
    intro x member
    obtain ⟨i, -, rfl⟩ := List.mem_map.mp member
    exact Nat.mod_lt _ (Nat.two_pow_pos width)

theorem codeLengthCode_bounded {given : List Nat} (small : ∀ x ∈ given, x < 2 ^ 3) :
    ∀ n ∈ codeLengthCode given, n ≤ 15 := by
  intro n member
  obtain ⟨sym, -, rfl⟩ := List.mem_map.mp member
  cases found : given[codeLengthOrder.idxOf sym]? with
  | none => exact Nat.zero_le _
  | some x =>
    have := small x (List.mem_of_getElem? found)
    simp only [Option.getD_some]
    omega

theorem reader_readLengths {clens : List Nat} (valid : Valid clens 15) (total fuel : Nat) (lens : List Nat) :
    Reader unit (readLengths clens total fuel lens) := by
  induction fuel generalizing lens with
  | zero => exact reader_fail
  | succ fuel ih =>
    rw [readLengths]
    split
    · exact reader_fail
    split
    · exact reader_pure _
    refine reader_then (reader_decodeSym valid 19) fun sym => ?_
    split
    · exact ih _
    split
    · split
      · exact reader_fail
      · exact reader_then (reader_num 2) fun _ => ih _
    split
    · exact reader_then (reader_num 3) fun _ => ih _
    · exact reader_then (reader_num 7) fun _ => ih _

theorem readLengths_bounded {clens : List Nat} {total fuel : Nat} {lens result : List Nat} {bits rest : List Bool}
    (bounded : ∀ n ∈ lens, n ≤ 15) (h : readLengths clens total fuel lens bits = .ok result rest) :
    ∀ n ∈ result, n ≤ 15 := by
  induction fuel generalizing lens bits with
  | zero => cases h
  | succ fuel ih =>
    have more : ∀ x i, x ≤ 15 → ∀ n ∈ lens ++ List.replicate i x, n ≤ 15 := by
      intro x i small n member
      rcases List.mem_append.mp member with old | new
      · exact bounded n old
      · rw [(List.mem_replicate.mp new).2]; exact small
    have skip : ∀ width base left, (num width >>= fun n =>
        readLengths clens total fuel (lens ++ List.replicate (base + n) 0)) left = .ok result rest → ∀ n ∈ result, n ≤ 15 := by
      intro width base left result
      obtain ⟨n, left, -, result⟩ := bind_inv result
      exact ih (more 0 _ (Nat.zero_le _)) result
    rw [readLengths] at h
    split at h
    · cases h
    split at h
    · cases h; exact bounded
    obtain ⟨sym, left, -, h⟩ := bind_inv h
    split at h
    · exact ih (more sym 1 (by omega)) h
    split at h
    · cases last : lens.getLast? with
      | none => rw [last] at h; cases h
      | some previous =>
        rw [last] at h
        obtain ⟨n, left, -, h⟩ := bind_inv h
        exact ih (more previous _ (bounded _ (List.mem_of_getLast? last))) h
    split at h
    · exact skip _ _ _ h
    · exact skip _ _ _ h

/-- Both codes can be decoded with. -/
def Codes.Legal (codes : Codes) : Prop := Valid codes.lit 15 ∧ Valid codes.dist 15

theorem reader_readCodes (hlit hdist hclen : Nat) : Reader unit (readCodes hlit hdist hclen) := by
  refine reader_bind (fun given => ∀ x ∈ given, x < 2 ^ 3) (reader_nums 3 _) (fun _ _ _ => nums_lt) fun given small => ?_
  dsimp only
  split
  · exact reader_fail
  rename_i usable
  rw [Bool.or_eq_true, not_or] at usable
  refine reader_then (reader_readLengths (valid_of_not_oversubscribed (codeLengthCode_bounded small) usable.2) _ _ _)
    fun lens => ?_
  split
  · exact reader_fail
  · exact reader_pure _

theorem readCodes_legal {hlit hdist hclen : Nat} {bits rest : List Bool} {codes : Codes}
    (h : readCodes hlit hdist hclen bits = .ok codes rest) : codes.Legal := by
  obtain ⟨given, left, -, h⟩ := bind_inv h
  dsimp only at h
  split at h
  · cases h
  obtain ⟨lens, left, parsed, h⟩ := bind_inv h
  have bounded := readLengths_bounded (by simp) parsed
  split at h
  · cases h
  rename_i usable
  rw [Bool.or_eq_true, Bool.or_eq_true, not_or, not_or] at usable
  cases h
  exact ⟨valid_of_not_oversubscribed (fun n member => bounded n (List.mem_of_mem_take member)) usable.2,
    valid_of_not_oversubscribed (fun n member => bounded n (List.mem_of_mem_drop member)) usable.1.2⟩

theorem reader_readDynamic : Reader unit readDynamic := by
  refine reader_then (reader_num 5) fun hlit => reader_then (reader_num 5) fun hdist =>
    reader_then (reader_num 4) fun hclen => ?_
  split
  · exact reader_fail
  · exact reader_readCodes _ _ _

theorem readDynamic_legal {bits rest : List Bool} {codes : Codes} (h : readDynamic bits = .ok codes rest) :
    codes.Legal := by
  obtain ⟨hlit, left, -, h⟩ := bind_inv h
  obtain ⟨hdist, left, -, h⟩ := bind_inv h
  obtain ⟨hclen, left, -, h⟩ := bind_inv h
  split at h
  · cases h
  · exact readCodes_legal h

theorem reader_readStored : Reader 8 readStored :=
  reader_then reader_align fun _ => reader_then (reader_num 16) fun len => reader_then (reader_num 16) fun nlen => by
    split
    · exact reader_pure _
    · exact reader_fail

theorem fixed_bounded : ∀ n ∈ fixedCodes.lit, n ≤ 15 := by decide +kernel

theorem fixed_kraft : kraft fixedCodes.lit 15 = 2 ^ 15 ∧ kraft fixedCodes.dist 15 = 2 ^ 15 := by decide +kernel

theorem fixed_legal : fixedCodes.Legal :=
  ⟨⟨fixed_bounded, Nat.le_of_eq fixed_kraft.1⟩, ⟨by decide, Nat.le_of_eq fixed_kraft.2⟩⟩

theorem reader_readKind (kind : Nat) : Reader 8 (readKind kind) := by
  rw [readKind]
  split
  · exact reader_readStored
  split
  · exact reader_pure _
  split
  · exact reader_then reader_readDynamic fun _ => reader_pure _
  · exact reader_fail

theorem reader_readBlock : Reader 8 readBlock :=
  reader_then (reader_num 1) fun _ => reader_then (reader_num 2) fun kind =>
    reader_then (reader_readKind kind) fun _ => reader_pure _

theorem readBlock_legal {bits rest : List Bool} {final : Bool} {codes : Codes}
    (h : readBlock bits = .ok (final, .coded codes) rest) : codes.Legal := by
  obtain ⟨_, left, -, h⟩ := bind_inv h
  obtain ⟨kind, left, -, h⟩ := bind_inv h
  obtain ⟨block, left, parsed, h⟩ := bind_inv h
  cases h
  rw [readKind] at parsed
  split at parsed
  · obtain ⟨_, left, -, parsed⟩ := bind_inv parsed
    obtain ⟨_, left, -, parsed⟩ := bind_inv parsed
    obtain ⟨_, left, -, parsed⟩ := bind_inv parsed
    split at parsed <;> cases parsed
  split at parsed
  · cases parsed
    exact fixed_legal
  split at parsed
  · obtain ⟨codes, left, dynamic, parsed⟩ := bind_inv parsed
    cases parsed
    exact readDynamic_legal dynamic
  · cases parsed

theorem reader_readMatch {codes : Codes} (legal : codes.Legal) (sym : Nat) : Reader unit (readMatch codes sym) := by
  refine reader_then (reader_num _) fun extra => reader_then (reader_decodeSym legal.2 _) fun distSym => ?_
  split
  · exact reader_fail
  · exact reader_then (reader_num _) fun _ => reader_pure _

theorem reader_readToken {codes : Codes} (legal : codes.Legal) : Reader unit (readToken codes) := by
  refine reader_then (reader_decodeSym legal.1 286) fun sym => ?_
  split
  · exact reader_pure _
  split
  · exact reader_pure _
  · exact reader_readMatch legal sym

/-- The codes of a block under way can be decoded with. -/
def State.Legal (s : State) : Prop := ∀ codes final, s.mode = .coded codes final → codes.Legal

/-- The same state with more input to come. -/
def State.extend (s : State) (ext : List Bool) : State := { s with bits := s.bits ++ ext }

theorem outcome_next {parsed : Parse α} {next : α → List Bool → Outcome} {t : State}
    (h : Parse.outcome parsed next = .next t) : ∃ value rest, parsed = .ok value rest ∧ next value rest = .next t := by
  cases parsed with
  | ok value rest => exact ⟨value, rest, rfl, h⟩
  | more => cases h
  | bad => cases h

theorem boundary_ne_coded {final final' : Bool} {codes : Codes} : boundary final ≠ .coded codes final' := by
  cases final <;> exact nofun

theorem step_legal {s t : State} (legal : s.Legal) (h : step s = .next t) : t.Legal := by
  intro codes final mode
  obtain ⟨smode, bits, out⟩ := s
  cases smode with
  | done => cases h
  | header =>
    obtain ⟨⟨last, block⟩, rest, parsed, h⟩ := outcome_next h
    cases block with
    | stored n =>
      cases n with
      | zero => cases h; exact absurd mode boundary_ne_coded
      | succ n => cases h; cases mode
    | coded codes' =>
      cases h
      cases mode
      exact readBlock_legal parsed
  | stored left last =>
    obtain ⟨byte, rest, -, h⟩ := outcome_next h
    cases h
    dsimp only at mode
    split at mode
    · exact absurd mode boundary_ne_coded
    · cases mode
  | coded codes' last =>
    obtain ⟨token, rest, -, h⟩ := outcome_next h
    have here := legal codes' last rfl
    cases token with
    | literal byte => cases h; cases mode; exact here
    | endOfBlock => cases h; exact absurd mode boundary_ne_coded
    | copy length dist =>
      dsimp only at h
      split at h
      · cases h
      · cases h; cases mode; exact here

theorem step_extend {s t : State} (legal : s.Legal) {ext : List Bool} (bytes : 8 ∣ ext.length)
    (h : step s = .next t) : step (s.extend ext) = .next (t.extend ext) := by
  obtain ⟨mode, bits, out⟩ := s
  cases mode with
  | done => cases h
  | header =>
    obtain ⟨⟨last, block⟩, rest, parsed, h⟩ := outcome_next h
    simp only [step, State.extend, reader_readBlock.ok bytes parsed, Parse.outcome]
    cases block with
    | stored n =>
      cases n with
      | zero => cases h; rfl
      | succ n => cases h; rfl
    | coded codes => cases h; rfl
  | stored left last =>
    obtain ⟨byte, rest, parsed, h⟩ := outcome_next h
    cases h
    simp only [step, State.extend, (reader_num 8).ok bytes parsed, Parse.outcome]
  | coded codes last =>
    obtain ⟨token, rest, parsed, h⟩ := outcome_next h
    simp only [step, State.extend, (reader_readToken (legal codes last rfl)).ok bytes parsed, Parse.outcome]
    cases token with
    | literal byte => cases h; rfl
    | endOfBlock => cases h; rfl
    | copy length dist =>
      dsimp only at h ⊢
      split at h
      · cases h
      · rename_i reach
        cases h
        exact if_neg reach

theorem step_extend_bad {s : State} (legal : s.Legal) {ext : List Bool} (bytes : 8 ∣ ext.length)
    (h : step s = .bad) : step (s.extend ext) = .bad := by
  obtain ⟨mode, bits, out⟩ := s
  cases mode with
  | done => cases h
  | header =>
    simp only [step, State.extend] at h ⊢
    cases parsed : readBlock bits with
    | ok value rest =>
      rw [parsed] at h
      obtain ⟨last, block⟩ := value
      cases block with
      | stored n => cases n <;> cases h
      | coded codes => cases h
    | more => rw [parsed] at h; cases h
    | bad => rw [reader_readBlock.bad bytes parsed]; rfl
  | stored left last =>
    simp only [step, State.extend] at h ⊢
    cases parsed : num 8 bits with
    | ok value rest => rw [parsed] at h; cases h
    | more => rw [parsed] at h; cases h
    | bad => rw [(reader_num 8).bad bytes parsed]; rfl
  | coded codes last =>
    have reader : Reader 8 (readToken codes) := reader_readToken (legal codes last rfl)
    simp only [step, State.extend] at h ⊢
    cases parsed : readToken codes bits with
    | ok token rest =>
      rw [parsed] at h
      rw [reader.ok bytes parsed]
      cases token with
      | literal byte => cases h
      | endOfBlock => cases h
      | copy length dist =>
        simp only [Parse.outcome] at h ⊢
        split at h
        · rename_i reach
          exact if_pos reach
        · cases h
    | more => rw [parsed] at h; cases h
    | bad => rw [reader.bad bytes parsed]; rfl

theorem decodeSym_shrinks {lens : List Nat} {limit sym : Nat} {bits rest : List Bool}
    (h : decodeSym lens limit bits = .ok sym rest) : rest.length < bits.length := by
  rw [decodeSym] at h
  split at h
  · rename_i found
    cases h
    obtain ⟨next, enough⟩ := Valid.find_sound found
    have := next.used
    rw [List.length_drop]
    omega
  · split at h <;> cases h

theorem num_shrinks {n value : Nat} {bits rest : List Bool} (h : num n bits = .ok value rest) :
    rest.length + n = bits.length := by
  by_cases short : bits.length < n
  · rw [num_more short] at h; cases h
  · rw [num_ok (by omega)] at h
    cases h
    rw [List.length_drop]
    omega

theorem copyMatch_eq (dist length : Nat) (out : List UInt8) :
    ∃ copied, copyMatch dist length out = out ++ copied ∧ copied.length = length := by
  induction length generalizing out with
  | zero => exact ⟨[], by simp [copyMatch]⟩
  | succ length ih =>
    obtain ⟨copied, whole, count⟩ := ih (out ++ [out[out.length - dist]?.getD 0])
    exact ⟨out[out.length - dist]?.getD 0 :: copied, by simp [copyMatch, whole], by simp [count]⟩

theorem copyMatch_length (dist length : Nat) (out : List UInt8) :
    (copyMatch dist length out).length = out.length + length := by
  obtain ⟨copied, whole, count⟩ := copyMatch_eq dist length out
  rw [whole, List.length_append, count]

/-- Every step consumes bits and keeps what has been produced. -/
theorem step_progress {s t : State} (legal : s.Legal) (h : step s = .next t) :
    t.bits.length < s.bits.length ∧ s.out <+: t.out := by
  obtain ⟨mode, bits, out⟩ := s
  cases mode with
  | done => cases h
  | header =>
    obtain ⟨⟨last, block⟩, rest, parsed, h⟩ := outcome_next h
    dsimp only at parsed
    have shorter : rest.length < bits.length := by
      obtain ⟨_, left, field, parsed⟩ := bind_inv parsed
      obtain ⟨kind, left', field', parsed⟩ := bind_inv parsed
      obtain ⟨_, left'', inner, parsed⟩ := bind_inv parsed
      cases parsed
      have := num_shrinks field
      have := num_shrinks field'
      have := ((reader_readKind kind).suffix inner).length_le
      omega
    cases block with
    | stored n =>
      cases n with
      | zero => cases h; exact ⟨shorter, List.prefix_rfl⟩
      | succ n => cases h; exact ⟨shorter, List.prefix_rfl⟩
    | coded codes => cases h; exact ⟨shorter, List.prefix_rfl⟩
  | stored left last =>
    obtain ⟨byte, rest, parsed, h⟩ := outcome_next h
    dsimp only at parsed
    have := num_shrinks parsed
    cases h
    exact ⟨by dsimp only; omega, List.prefix_append _ _⟩
  | coded codes last =>
    obtain ⟨token, rest, parsed, h⟩ := outcome_next h
    dsimp only at parsed
    have shorter : rest.length < bits.length := by
      obtain ⟨sym, left, field, parsed⟩ := bind_inv parsed
      have := decodeSym_shrinks field
      split at parsed
      · cases parsed; exact this
      split at parsed
      · cases parsed; exact this
      · have reader : Reader 8 (readMatch codes sym) := reader_readMatch (legal codes last rfl) sym
        have := (reader.suffix parsed).length_le
        omega
    cases token with
    | literal byte => cases h; exact ⟨shorter, List.prefix_append _ _⟩
    | endOfBlock => cases h; exact ⟨shorter, List.prefix_rfl⟩
    | copy length dist =>
      dsimp only at h
      split at h
      · cases h
      · cases h
        obtain ⟨copied, whole, -⟩ := copyMatch_eq dist length out
        exact ⟨shorter, by rw [whole]; exact List.prefix_append _ _⟩

/-- A run of the reference decoder. -/
def Steps : State → State → Prop := Relation.ReflTransGen fun s t => step s = .next t

theorem Steps.refl (s : State) : Steps s s := Relation.ReflTransGen.refl

theorem Steps.head {s t u : State} (first : step s = .next t) (rest : Steps t u) : Steps s u :=
  Relation.ReflTransGen.head first rest

theorem Steps.trans {s t u : State} (first : Steps s t) (rest : Steps t u) : Steps s u :=
  Relation.ReflTransGen.trans first rest

theorem Steps.single {s t : State} (h : step s = .next t) : Steps s t := Relation.ReflTransGen.single h

theorem Steps.legal {s t : State} (run : Steps s t) (legal : s.Legal) : t.Legal := by
  induction run with
  | refl => exact legal
  | tail _ last ih => exact step_legal ih last

theorem Steps.extend {s t : State} (run : Steps s t) (legal : s.Legal) {ext : List Bool} (bytes : 8 ∣ ext.length) :
    Steps (s.extend ext) (t.extend ext) := by
  induction run with
  | refl => exact .refl _
  | tail first last ih => exact ih.trans (.single (step_extend (Steps.legal first legal) bytes last))

theorem Steps.output {s t : State} (run : Steps s t) (legal : s.Legal) : s.out <+: t.out := by
  induction run with
  | refl => exact List.prefix_rfl
  | tail first last ih => exact ih.trans (step_progress (Steps.legal first legal) last).2

theorem Steps.shrinks {s t : State} (run : Steps s t) (legal : s.Legal) : t.bits.length ≤ s.bits.length := by
  induction run with
  | refl => exact Nat.le_refl _
  | tail first last ih => exact Nat.le_trans (Nat.le_of_lt (step_progress (Steps.legal first legal) last).1) ih

/-- Two runs from one state: the one that is shorter goes on to the other. -/
theorem Steps.total {s t u : State} (first : Steps s t) (second : Steps s u) : Steps t u ∨ Steps u t :=
  Relation.ReflTransGen.total_of_right_unique (fun _ _ _ one two => by
    rw [one] at two
    exact Outcome.next.inj two) first second

/-- A state from which no step leads on is where all runs end. -/
theorem Steps.ended {s t u : State} (first : Steps s t) (second : Steps s u) (last : ∀ v, step t ≠ .next v) :
    Steps u t := by
  rcases first.total second with onward | back
  · cases Relation.ReflTransGen.cases_head onward with
    | inl same => rw [same]; exact .refl _
    | inr more =>
      obtain ⟨v, next, -⟩ := more
      exact absurd next (last v)
  · exact back

theorem initial_legal (bits : List Bool) (out : List UInt8) : State.Legal ⟨.header, bits, out⟩ := fun _ _ => nofun

/-- Every run ends. -/
theorem exists_last (s : State) (legal : s.Legal) : ∃ t, Steps s t ∧ ∀ u, step t ≠ .next u := by
  induction size : s.bits.length using Nat.strongRecOn generalizing s with
  | ind n ih =>
    subst size
    by_cases stuck : ∀ u, step s ≠ .next u
    · exact ⟨s, .refl s, stuck⟩
    · simp only [ne_eq, not_forall, not_not] at stuck
      obtain ⟨u, next⟩ := stuck
      obtain ⟨t, run, last⟩ := ih _ (step_progress legal next).1 u (step_legal legal next) rfl
      exact ⟨t, .head next run, last⟩

theorem run_steps {s t : State} (path : Steps s t) (legal : s.Legal) (fuel : Nat) (enough : s.bits.length < fuel) :
    ∃ less, t.bits.length < less ∧ run fuel s = run less t := by
  induction path with
  | refl => exact ⟨fuel, enough, rfl⟩
  | tail first last ih =>
    obtain ⟨less, enough, same⟩ := ih
    have shorter := (step_progress (Steps.legal first legal) last).1
    obtain ⟨fewer, rfl⟩ : ∃ fewer, less = fewer + 1 := ⟨less - 1, by omega⟩
    refine ⟨fewer, by omega, ?_⟩
    rw [same, run, last]

theorem step_done {s : State} (h : step s = .done) : s.mode = .done := by
  obtain ⟨mode, bits, out⟩ := s
  cases mode with
  | done => rfl
  | header =>
    simp only [step] at h
    cases parsed : readBlock bits with
    | ok value rest =>
      rw [parsed] at h
      obtain ⟨final, block⟩ := value
      cases block with
      | stored n => cases n <;> cases h
      | coded codes => cases h
    | more => rw [parsed] at h; cases h
    | bad => rw [parsed] at h; cases h
  | stored left final =>
    simp only [step] at h
    cases parsed : num 8 bits with
    | ok value rest => rw [parsed] at h; cases h
    | more => rw [parsed] at h; cases h
    | bad => rw [parsed] at h; cases h
  | coded codes final =>
    simp only [step] at h
    cases parsed : readToken codes bits with
    | ok token rest =>
      rw [parsed] at h
      cases token with
      | literal byte => cases h
      | endOfBlock => cases h
      | copy length dist =>
        simp only [Parse.outcome] at h
        split at h <;> cases h
    | more => rw [parsed] at h; cases h
    | bad => rw [parsed] at h; cases h

/-- A decoder that has finished has run to the end of the stream. -/
theorem run_finished {fuel : Nat} {s t : State} (h : run fuel s = (.finished, t)) : Steps s t ∧ t.mode = .done := by
  induction fuel generalizing s with
  | zero => cases h
  | succ fuel ih =>
    rw [run] at h
    split at h
    · rename_i u next
      exact ⟨.head next (ih h).1, (ih h).2⟩
    · rename_i done
      cases h
      exact ⟨.refl _, step_done done⟩
    · cases h
    · cases h

/-- How the decoding of some input ends, without fuel. -/
theorem decode_eq {input : List UInt8} {t : State} (path : Steps ⟨.header, bytesBits input, []⟩ t)
    {verdict : Verdict} (last : match step t with
      | .next _ => False
      | .done => verdict = .finished
      | .more => verdict = .incomplete
      | .bad => verdict = .invalid) : decode input = (verdict, t) := by
  obtain ⟨less, enough, same⟩ := run_steps path (initial_legal _ _) (8 * input.length + 1) (by simp)
  obtain ⟨fewer, rfl⟩ : ∃ fewer, less = fewer + 1 := ⟨less - 1, by omega⟩
  rw [decode, same, run]
  cases outcome : step t <;> simp only [outcome] at last <;> rw [last]

end Isal.Rfc1951
