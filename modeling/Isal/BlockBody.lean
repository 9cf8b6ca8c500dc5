import Isal.DecodeRound

/-! The body of a block: the decoding loop and the copying of stored bytes, each next to a
run of the reference decoder. -/
namespace Isal.Inflate

open Isal.Bits Isal.PrefixCode Isal.Rfc1951

variable {window : Nat} {hidden : List UInt8}

section Again

variable {saved s : InflateState}

/-- The stream ends before the distance does. -/
def CutOff (huffCode : LookupTable) (inp : InStream) : Prop :=
  let (nextDist, inp) := decodeNextDist huffCode inp
  inp.readInLength < 0 ∨
    nextDist < distLen ∧ (inflateInReadBits (distExtraBitCount[nextDist]?.getD 0) inp).2.readInLength < 0

theorem copyRepeat_ret (length dist : Nat) (s : InflateState) : (copyRepeat length dist s).1 ≠ some .endInput := by
  rw [copyRepeat]
  split
  · simp
  · dsimp only
    split
    · split <;> simp
    · split <;> simp

theorem decodeRepeat_cut {val : Nat} :
    (decodeRepeat saved val s).1 = some .endInput ↔ CutOff s.distHuffCode s.toInStream := by
  simp only [decodeRepeat, CutOff]
  generalize decodeNextDist s.distHuffCode s.toInStream = found
  obtain ⟨nextDist, inp⟩ := found
  by_cases negative : inp.readInLength < 0
  · have below : ¬0 ≤ (s.withIn inp).readInLength := Int.not_le.mpr negative
    simp only [below, false_and, if_false, negative, true_or, iff_true]
    rw [if_pos (show ((s.withIn inp).withIn (s.withIn inp).toInStream).readInLength < 0 from negative)]
  · have above : 0 ≤ (s.withIn inp).readInLength := Int.not_lt.mp negative
    simp only [above, true_and, if_true, negative, false_or]
    by_cases illegal : distLen ≤ nextDist
    · rw [if_pos illegal]
      exact ⟨fun h => (by cases h), fun h => absurd h.1 (by omega)⟩
    · rw [if_neg illegal]
      change (if (inflateInReadBits _ inp).2.readInLength < 0 then _ else _ : Option ReturnCode × InflateState).1 = _ ↔ _
      split
      · rename_i cut
        exact ⟨fun _ => ⟨by omega, cut⟩, fun _ => rfl⟩
      · rename_i whole
        exact ⟨fun h => absurd h (copyRepeat_ret _ _ _), fun h => absurd h.2 whole⟩

/-- Whether an entry's last symbol is cut off does not depend on the output. -/
theorem writeSymbols_cut (bytes : List UInt8) {val : Nat} (small : val < 2 ^ 16) :
    (writeSymbols saved (bytes.length + 1) (packed (bytes.map UInt8.toNat ++ [val])) s).1 = some .endInput ↔
      256 < val ∧ val ≤ 512 ∧ CutOff s.distHuffCode s.toInStream := by
  rw [writeSymbols_eq]
  split
  · by_cases literal : val < 256
    · rw [writeSymbols_literal _ _ literal]
      split
      · exact ⟨fun h => (by cases h), fun h => absurd h.1 (by omega)⟩
      · exact ⟨fun h => (by cases h), fun h => absurd h.1 (by omega)⟩
    by_cases last : val = 256
    · rw [last, writeSymbols_end]
      exact ⟨fun h => (by cases h), fun h => absurd h.1 (by omega)⟩
    by_cases legal : val ≤ 512
    · rw [writeSymbols_match _ _ (by omega) legal, decodeRepeat_cut]
      exact ⟨fun h => ⟨by omega, legal, h⟩, fun h => h.2.2⟩
    · rw [writeSymbols_illegal _ _ (by omega) small]
      exact ⟨fun h => (by cases h), fun h => absurd h.2.1 legal⟩
  · rename_i short
    have left : bytes.length + 1 - s.availOut = (bytes.drop s.availOut).length + 1 := by
      rw [List.length_drop]
      omega
    rw [left, overflowLits_eq]
    dsimp only
    split
    · exact ⟨fun h => (by cases h), fun h => absurd h.1 (by omega)⟩
    split
    · exact ⟨fun h => (by cases h), fun h => absurd h.1 (by omega)⟩
    · rw [Nat.mod_eq_of_lt small, decodeNonLiteral, if_neg (by omega)]
      split
      · rename_i legal
        rw [decodeRepeat_cut]
        exact ⟨fun h => ⟨by omega, legal, h⟩, fun h => h.2.2⟩
      · rename_i illegal
        exact ⟨fun h => (by cases h), fun h => absurd h.2.1 illegal⟩

theorem inflateInLoad_empty {s : InStream} (h : s.availIn = 0) : inflateInLoad s = s := by
  rw [inflateInLoad]
  split
  · rfl
  · rw [if_neg (by omega), h, loadBytes]

theorem Symbols.value_le {syms : List (Nat × Nat)} {lens : List Nat} {v n : Nat} (chain : Symbols lens syms v n)
    {p : Nat × Nat} (member : p ∈ syms) : litValue p.1 p.2 ≤ maxLitLenSym := by
  induction chain with
  | nil => simp at member
  | @cons sym v n syms legal next rest ih =>
    rcases List.mem_cons.mp member with rfl | later
    · exact litValue_le legal (Nat.mod_lt (v / 2 ^ lengthOf lens sym) (Nat.two_pow_pos (extraWidth sym)))
    · exact ih later

/-- An entry that was cut off is found cut off again, however much room there is. -/
theorem writeSymbols_again {saved saved' s s' : InflateState} {lens : List Nat} {syms : List (Nat × Nat)} {v n : Nat}
    (chain : Symbols lens syms v n) (some_ : syms ≠ []) (literals : ∀ p ∈ syms.dropLast, p.1 < 256)
    (inp : s'.toInStream = s.toInStream) (dist : s'.distHuffCode = s.distHuffCode)
    (cut : (writeSymbols saved syms.length (packed (syms.map fun p => litValue p.1 p.2)) s).1 = some .endInput) :
    (writeSymbols saved' syms.length (packed (syms.map fun p => litValue p.1 p.2)) s').1 = some .endInput := by
  obtain ⟨lits, p, rfl⟩ : ∃ lits p, syms = lits ++ [p] := ⟨_, _, (List.dropLast_append_getLast some_).symm⟩
  rw [List.dropLast_concat] at literals
  have small := chain.value_le (p := p) (by simp)
  rw [maxLitLenSym] at small
  have count : (literalBytes lits).length = lits.length := List.length_map _
  rw [List.map_append, List.map_singleton, literal_values literals, List.length_append, List.length_singleton, ← count,
    writeSymbols_cut _ (by omega)] at cut ⊢
  rwa [inp, dist]

theorem decodeSymbols_eq {s : InflateState} {lits count : Nat} {inp : InStream}
    (lookup : decodeNextLitLen s.litHuffCode (inflateInLoad s.toInStream) = (lits, count, inp)) :
    decodeSymbols s =
      if count = 0 then (some .invalidSymbol, (s.withIn (inflateInLoad s.toInStream)).withIn inp)
      else if inp.readInLength < 0 then (some .endInput, s.withIn (inflateInLoad s.toInStream))
      else writeSymbols (s.withIn (inflateInLoad s.toInStream)) count lits
        ((s.withIn (inflateInLoad s.toInStream)).withIn inp) := by
  have lookup' : decodeNextLitLen (s.withIn (inflateInLoad s.toInStream)).litHuffCode
      (s.withIn (inflateInLoad s.toInStream)).toInStream = (lits, count, inp) := lookup
  simp only [decodeSymbols, lookup']
  rfl

/-- Where the input ended in the middle of an entry, decoding stays. -/
theorem decodeSymbols_again {s t : InflateState} {r : State} (sim : Sim window hidden s r) (state : s.blockState = .coded)
    (calm : Calm s) (cut : (decodeSymbols s).1 = some .endInput) (same : t.toInStream = inflateInLoad s.toInStream)
    (tables : t.reading = (s.withIn (inflateInLoad s.toInStream)).reading) (calm' : Calm t) :
    decodeSymbols t = (some .endInput, t) := by
  have empty : t.availIn = 0 := by
    have round := (decodeSymbols_spec sim state calm).1
    generalize decodeSymbols s = result at round cut
    cases round with
    | endInput r' run more within empty => rw [same]; exact empty
    | _ => cases cut
  have fixed : inflateInLoad t.toInStream = t.toInStream := inflateInLoad_empty empty
  have lit : t.litHuffCode = s.litHuffCode := congrArg (·.litHuffCode) tables
  have dist : t.distHuffCode = s.distHuffCode := congrArg (·.distHuffCode) tables
  have again : (decodeSymbols t).1 = some .endInput := by
    obtain ⟨views, loaded⟩ := sim.views.load
    obtain ⟨codes, final, limit, mode, tables⟩ := sim.mode.tables state
    have found := tables.lit _ _ _ views loaded
    generalize lookup : decodeNextLitLen s.litHuffCode (inflateInLoad s.toInStream) = result at found
    have lookup' : decodeNextLitLen t.litHuffCode (inflateInLoad t.toInStream) = result := by rw [fixed, lit, same, lookup]
    obtain ⟨lits, count, inp⟩ := result
    rw [decodeSymbols_eq lookup] at cut
    rw [decodeSymbols_eq lookup']
    cases found with
    | found syms total inp chain some_ three width literals views =>
      have many := List.length_pos_iff.mpr some_
      rw [if_neg (by omega)] at cut ⊢
      by_cases short : inp.readInLength < 0
      · rw [if_pos short]
      · rw [if_neg short] at cut ⊢
        exact writeSymbols_again (s := (s.withIn (inflateInLoad s.toInStream)).withIn inp) chain some_ literals rfl dist cut
    | missing lits count inp none views sign =>
      have invalid := missing_invalid (s.withIn (inflateInLoad s.toInStream)) views sign
      cases (congrArg Prod.fst invalid).symm.trans cut
  have alone : Sim window [] t ⟨r.mode, r.bits, t.out⟩ := by
    refine ⟨?_, ?_, Or.inl rfl, ?_⟩
    · rw [same]
      exact sim.views.load.1
    · rw [calm'.produced, List.nil_append]
    · exact (sim.mode.loaded state _).reading tables
  have state' : t.blockState = .coded := (congrArg (·.blockState) tables).trans state
  have round := (decodeSymbols_spec alone state' calm').1
  generalize decodeSymbols t = result at round again
  cases round with
  | endInput r' run more within empty => rw [fixed]; rfl
  | _ => cases again

end Again

/-- There is output that has found no room. -/
def Overfull (s : InflateState) : Prop :=
  0 < s.writeOverflowLen + s.copyOverflowLength ∨ s.blockState = .type0 ∧ 0 < s.count

/-- The body of a block, as all loops over blocks decode it. -/
def decodeBody (s : InflateState) : Option (ReturnCode × InflateState) :=
  if s.blockState = .type0 then some (decodeLiteralBlock s) else decodeHuffmanCodeBlockStatelessBase s

/-- Decoding the body again changes nothing, however much room there is. -/
def Stays (s : InflateState) : Prop :=
  ∀ t : InflateState, t.reading = s.reading → Calm t → decodeBody t = some (.endInput, t)

/-- How the decoding of a block's body ends. -/
inductive BodyRead (window : Nat) (hidden : List UInt8) (start : InflateState) (r : State) :
    ReturnCode × InflateState → Prop
  | ended (s : InflateState) (r' : State) (run : Runs window r r') (sim : Sim window hidden s r') (calm : Calm s)
      (state : s.blockState = .newHdr ∨ s.blockState = .inputDone) : BodyRead window hidden start r (.decompOk, s)
  | outOverflow (s : InflateState) (r' : State) (run : Runs window r r') (sim : Sim window hidden s r') (spill : Spill s)
      (full : s.availOut = 0) (excess : Overfull s) : BodyRead window hidden start r (.outOverflow, s)
  | endInput (s : InflateState) (r' r'' : State) (run : Runs window r r') (sim : Sim window hidden s r') (calm : Calm s)
      (further : Runs window r' r'') (more : step r'' = .more) (empty : s.availIn = 0)
      (rests : s.blockState = .newHdr ∧ r'.bits = [] ∨ s.blockState ≠ .newHdr ∧ Stays s ∧ r''.mode ≠ .header) :
      BodyRead window hidden start r (.endInput, s)
  | invalidSymbol (s : InflateState) (r' : State) (run : Runs window r r')
      (bad : step r' = .bad ∨ r'.BeyondWindow start.maxDist) (within : r'.mode ≠ .header) (out : r'.out = s.produced hidden) (spill : Spill s) :
      BodyRead window hidden start r (.invalidSymbol, s)
  | invalidLookback (s : InflateState) (r' : State) (run : Runs window r r') (bad : r'.BeyondOutput)
      (out : r'.out = s.produced hidden) (spill : Spill s) : BodyRead window hidden start r (.invalidLookback, s)
  | pendingLookback (s : InflateState) (r' : State) (length dist : Nat) (run : Runs window r r')
      (copies : r'.Copies length dist) (full : s.availOut = 0) (beyond : s.out.length < dist)
      (inside : dist ≤ r'.out.length) (few : r'.out.length ≤ s.out.length + 2) (all : hidden = [])
      (out : r'.out = s.produced hidden) (spill : Spill s) :
      BodyRead window hidden start r (.invalidLookback, s)

theorem Calm.uncopied {s : InflateState} (calm : Calm s) :
    { s with copyOverflowLength := 0, copyOverflowDistance := 0 } = s := by
  have := calm.copy
  have := calm.distance
  cases s
  simp_all

section Loop

variable {start s : InflateState} {r : State}

theorem BodyRead.after {r₁ : State} {result : ReturnCode × InflateState}
    (first : Runs window r r₁) (h : BodyRead window hidden start r₁ result) : BodyRead window hidden start r result := by
  cases h with
  | ended s r' run sim calm state => exact .ended s r' (first.trans run) sim calm state
  | outOverflow s r' run sim spill full excess => exact .outOverflow s r' (first.trans run) sim spill full excess
  | endInput s r' r'' run sim calm further more empty rests =>
    exact .endInput s r' r'' (first.trans run) sim calm further more empty rests
  | invalidSymbol s r' run bad within out spill => exact .invalidSymbol s r' (first.trans run) bad within out spill
  | invalidLookback s r' run bad out spill => exact .invalidLookback s r' (first.trans run) bad out spill
  | pendingLookback s r' length dist run copies full beyond inside few all out spill =>
    exact .pendingLookback s r' length dist (first.trans run) copies full beyond inside few all out spill

/-- The decoding loop. -/
theorem decodeLoop_spec (rounds : Nat) (h : Sim window hidden s r) (calm : Calm s) (state : s.blockState ≠ .type0)
    (maxDist : s.maxDist = start.maxDist) (enough : r.bits.length < rounds) :
    ∃ result, decodeLoop rounds s = some result ∧ BodyRead window hidden start r result ∧ Frame s result.2 := by
  induction rounds generalizing s r with
  | zero => omega
  | succ rounds ih =>
    rw [decodeLoop]
    by_cases coded : s.blockState = .coded
    · rw [if_neg (not_not.mpr coded)]
      obtain ⟨round, frame⟩ := decodeSymbols_spec h coded calm
      have load : Frame s (s.withIn (inflateInLoad s.toInStream)) := .of_eq rfl (inflateInLoad_buf _) rfl rfl rfl
      have frame := load.trans frame
      generalize decoded : decodeSymbols s = result at round frame
      cases round with
      | goesOn t r' run sim calm shrinks block =>
        obtain ⟨result, done, read, frame'⟩ := ih sim calm block (frame.maxDist.trans maxDist) (by omega)
        exact ⟨result, done, read.after run, frame.trans frame'⟩
      | outOverflow t r' run sim spill full excess =>
        exact ⟨_, rfl, .outOverflow t r' run sim spill full (Or.inl excess), frame⟩
      | endInput r' run more within empty =>
        have again : Stays (s.withIn (inflateInLoad s.toInStream)) := by
          intro u same calm'
          have coded' : u.blockState = .coded := (congrArg (·.blockState) same).trans coded
          have stream : u.toInStream = inflateInLoad s.toInStream := congrArg (·.toInStream) same
          rw [decodeBody, if_neg (by rw [coded']; simp), decodeHuffmanCodeBlockStatelessBase, calm'.uncopied,
            decodeLoop, if_neg (not_not.mpr coded'),
            decodeSymbols_again h coded calm (by rw [decoded]) stream same calm']
        exact ⟨_, rfl, .endInput _ r r' (.refl _) ⟨h.views.load.1, h.out, h.enough, h.mode.loaded coded _⟩
          ⟨calm.lits, calm.len, calm.copy, calm.distance⟩ run more empty (Or.inr ⟨fun header => (by cases coded.symm.trans header), again, within⟩), frame⟩
      | invalidSymbol t r' run bad within out spill =>
        exact ⟨_, rfl, .invalidSymbol t r' run (maxDist ▸ bad) within out spill, frame⟩
      | invalidLookback t r' run bad out spill =>
        exact ⟨_, rfl, .invalidLookback t r' run bad out spill, frame⟩
      | pendingLookback t r' length dist run copies full beyond inside few all out spill =>
        exact ⟨_, rfl, .pendingLookback t r' length dist run copies full beyond inside few all out spill, frame⟩
    · rw [if_pos coded]
      refine ⟨_, rfl, .ended s r (.refl _) h calm ?_, .refl s⟩
      exact h.mode.resting state coded

theorem Sim.bitsLeft (h : Sim window hidden s r) : s.bitsLeft = r.bits.length := by
  have count := h.views.count
  rw [InStream.bitsLeft]
  omega

theorem decodeHuffmanCodeBlock_spec (h : Sim window hidden s r) (calm : Calm s) (state : s.blockState ≠ .type0) :
    ∃ result, decodeHuffmanCodeBlockStatelessBase s = some result ∧ BodyRead window hidden s r result ∧
      Frame s result.2 := by
  rw [decodeHuffmanCodeBlockStatelessBase, calm.uncopied, h.bitsLeft]
  exact decodeLoop_spec _ h calm state rfl (by omega)

end Loop

section Stored

variable {s : InflateState} {bits : List Bool}

/-- The bytes of a stored block that are still to be copied. -/
def InStream.bytesLeft (s : InStream) : List UInt8 := toLeBytes s.readIn (s.readInLength / 8).toNat ++ s.pending

theorem Views.nonneg {s : InStream} (h : Views s (bitsVal bits) bits.length) : 0 ≤ s.readInLength := by
  have := h.negative
  omega

/-- At a byte boundary the bits that are left are bytes. -/
theorem Views.bytes {s : InStream} (h : Views s (bitsVal bits) bits.length) (aligned : 8 ∣ s.readInLength) :
    bits = bytesBits s.bytesLeft := by
  have nonneg := h.nonneg
  have count := h.count
  have whole : s.readInLength.toNat = 8 * (s.readInLength / 8).toNat := by omega
  apply bitsVal_inj
  · rw [InStream.bytesLeft, bytesBits_length, List.length_append, toLeBytes_length, pending_length h]
    omega
  · have value := h.value
    have peek := h.peek (k := s.readInLength.toNat) (Or.inl (by omega))
    rw [whole] at value peek
    rw [bitsVal_bytesBits, InStream.bytesLeft, bytesVal_append, toLeBytes_length, bytesVal_toLeBytes, peek, ← value,
      Nat.mod_add_div]

theorem bytesLeft_length {s : InStream} (h : Views s (bitsVal bits) bits.length) :
    s.bytesLeft.length = (s.readInLength / 8).toNat + s.availIn := by
  rw [InStream.bytesLeft, List.length_append, toLeBytes_length, pending_length h]

/-- The stored bytes that a call copies, from the buffered bits first. -/
def copyStored (len : Nat) (s : InflateState) : Nat × InflateState :=
  let (len, bytes, s) := copyReadIn len (s.readInLength / 8).toNat s
  (bytes, { s.write ((s.buf.drop s.nextIn.toNat).take len) with
    nextIn := s.nextIn + len
    availIn := s.availIn - len
    count := s.count - len })

theorem decodeLiteralBlock_eq (s : InflateState) :
    decodeLiteralBlock s =
      let (len, blockState) := literalExtent (s.readInLength / 8).toNat s
      let (bytes, s) := copyStored len { s with blockState }
      if s.availIn + bytes = 0 ∧ s.blockState ≠ .inputDone then (.endInput, s)
      else if s.availOut = 0 ∧ 0 < s.count then (.outOverflow, s)
      else (.decompOk, s) := rfl

theorem copyStored_spec (h : Views s.toInStream (bitsVal bits) bits.length) (aligned : 8 ∣ s.readInLength)
    (clear : s.readInLength = 0 → s.readIn = 0) {len : Nat} (inside : len ≤ s.bytesLeft.length) :
    ∃ bytes inp, copyStored len s = (bytes, { s.write (s.bytesLeft.take len) with toInStream := inp, count := s.count - len }) ∧
      Views inp (bitsVal (bits.drop (8 * len))) (bits.drop (8 * len)).length ∧ 8 ∣ inp.readInLength ∧
      (inp.readInLength = 0 → inp.readIn = 0) ∧ inp.buf = s.buf ∧ bytes = (inp.readInLength / 8).toNat := by
  have nonneg := h.nonneg
  have count := h.count
  rw [bytesLeft_length h] at inside
  obtain ⟨b, whole⟩ : ∃ b : Nat, s.readInLength = 8 * b := ⟨(s.readInLength / 8).toNat, by omega⟩
  have bytes : (s.readInLength / 8).toNat = b := by omega
  have window : ∀ k, k ≤ s.availIn → (s.buf.drop s.nextIn.toNat).take k = s.pending.take k := by
    intro k enough
    rw [InStream.pending, List.take_take, Nat.min_eq_left enough]
  rw [bytes] at inside
  rw [copyStored, copyReadIn, bytes, InStream.bytesLeft, bytes]
  have skip : ∀ k : Nat, b + k = len → Views { s.toInStream with
      nextIn := s.nextIn + k, availIn := s.availIn - k, readInLength := 0, readIn := 0 }
      (bitsVal (bits.drop (8 * len))) (bits.drop (8 * len)).length := by
    intro k sum
    have skipped := h.skipBytes k (by omega)
    rw [Nat.div_div_eq_div_mul, ← Nat.pow_add, show s.readInLength.toNat + 8 * k = 8 * len by omega,
      show (bits.length : Int) - s.readInLength - 8 * k = bits.length - (8 * len : Nat) by omega] at skipped
    exact skipped.drop (by omega)
  by_cases empty : s.readInLength = 0
  · have none : b = 0 := by omega
    have buffered : (⟨s.readIn, s.readInLength, s.buf, s.nextIn + len, s.availIn - len⟩ : InStream) =
        { s.toInStream with nextIn := s.nextIn + len, availIn := s.availIn - len, readInLength := 0, readIn := 0 } := by
      rw [clear empty, empty]
    rw [if_neg (not_not.mpr empty), none, toLeBytes, List.nil_append]
    refine ⟨0, ⟨s.readIn, s.readInLength, s.buf, s.nextIn + len, s.availIn - len⟩, ?_, ?_, ?_, fun _ => clear empty, rfl, ?_⟩
    · simp only [window len (by omega)]
      rfl
    · rw [buffered]
      exact skip len (by omega)
    · exact aligned
    · simp [empty]
  · rw [if_pos empty]
    by_cases all : b ≤ len
    · rw [if_pos all]
      refine ⟨0, ⟨0, 0, s.buf, s.nextIn + (len - b : Nat), s.availIn - (len - b)⟩, ?_, skip (len - b) (by omega),
        dvd_zero 8, fun _ => rfl, rfl, rfl⟩
      have first : (toLeBytes s.readIn b).take len = toLeBytes s.readIn b := List.take_of_length_le (by simp; exact all)
      rw [List.take_append, toLeBytes_length, first, ← write_write, ← window _ (show len - b ≤ s.availIn by omega),
        show s.count - len = s.count - b - (len - b) by omega]
      rfl
    · rw [if_neg all]
      have consumed := (h.consume (k := 8 * len) (Or.inl (by omega))).drop (by omega)
      refine ⟨b - len, s.toInStream.consume (8 * len), ?_, consumed, ?_, ?_, rfl, ?_⟩
      · rw [List.take_append_of_le_length (by simp; omega), toLeBytes_take _ (by omega)]
        simp [InflateState.write, InStream.consume]
      · simp only [consume_readInLength]
        omega
      · simp only [consume_readInLength]
        omega
      · simp only [consume_readInLength]
        omega

theorem literalExtent_eq (bytes : Nat) (s : InflateState) :
    literalExtent bytes s =
      let len := min (min s.count s.availOut) (s.availIn + bytes)
      (len, if len < s.count then .type0 else s.endBlock.blockState) := by
  simp only [literalExtent]
  by_cases full : s.availOut < s.count
  · simp only [full, if_true, Nat.min_eq_right (Nat.le_of_lt full)]
    split
    · rename_i few
      rw [Nat.min_eq_right (Nat.le_of_lt few), if_pos (by omega)]
    · rename_i enough
      rw [Nat.min_eq_left (by omega), if_pos full]
  · simp only [full, if_false, Nat.min_eq_left (Nat.le_of_not_lt full)]
    split
    · rename_i few
      rw [Nat.min_eq_right (Nat.le_of_lt few), if_pos few]
    · rename_i enough
      rw [Nat.min_eq_left (by omega), if_neg (Nat.lt_irrefl _)]

theorem stepWithin_stored {left : Nat} {final : Bool} {byte : UInt8} {out : List UInt8} :
    StepWithin window ⟨storedMode (left + 1) final, byteBits byte ++ bits, out⟩ ⟨storedMode left final, bits, out ++ [byte]⟩ := by
  have field : num 8 (byteBits byte ++ bits) = .ok byte.toNat bits := by
    rw [num_ok (by simp), ← bitsVal_take, List.take_left' (byteBits_length byte), List.drop_left' (byteBits_length byte),
      bitsVal_byteBits]
  have same : UInt8.ofNat byte.toNat = byte := UInt8.ofNat_toNat
  refine ⟨?_, ?_⟩
  · cases left with
    | zero => simp [step, storedMode, field, Parse.outcome, same]
    | succ left => simp [step, storedMode, field, Parse.outcome, same]
  · rintro length dist ⟨codes, final', rest, mode, parsed⟩
    cases mode

/-- The reference decoder takes the bytes of a stored block one by one. -/
theorem stored_run {left : Nat} {final : Bool} {xs : List UInt8} {out : List UInt8} (upTo : xs.length ≤ left) :
    Runs window ⟨storedMode left final, bytesBits xs ++ bits, out⟩ ⟨storedMode (left - xs.length) final, bits, out ++ xs⟩ := by
  induction xs generalizing left out with
  | nil => simpa using Runs.refl _
  | cons x xs ih =>
    obtain ⟨n, rfl⟩ : ∃ n, left = n + 1 := ⟨left - 1, by simp at upTo; omega⟩
    have rest := @ih n (out ++ [x]) (by simpa using upTo)
    rw [bytesBits_cons, List.append_assoc, List.length_cons, Nat.add_sub_add_right]
    refine .head stepWithin_stored ?_
    simpa using rest

/-- A stored block without input stays as it is. -/
theorem decodeLiteralBlock_empty {s : InflateState} (state : s.blockState = .type0) (more : 0 < s.count)
    (empty : s.availIn = 0) (none : s.readInLength = 0) : decodeLiteralBlock s = (.endInput, s) := by
  have extent : literalExtent (s.readInLength / 8).toNat s = (0, .type0) := by
    rw [literalExtent_eq, none, empty]
    simp [more]
  rw [decodeLiteralBlock_eq, extent]
  have same : copyStored 0 { s with blockState := .type0 } = (0, s) := by
    obtain ⟨⟨readIn, readInLength, buf, nextIn, availIn⟩⟩ := s
    obtain rfl := state
    obtain rfl : readInLength = 0 := none
    simp [copyStored, copyReadIn, InflateState.write]
  simp [same, empty, state]

theorem step_stored_empty {left : Nat} {final : Bool} {out : List UInt8} (more : 0 < left) :
    step ⟨storedMode left final, [], out⟩ = .more := by
  obtain ⟨n, rfl⟩ : ∃ n, left = n + 1 := ⟨left - 1, by omega⟩
  rfl

theorem step_header_empty {out : List UInt8} : step ⟨.header, [], out⟩ = .more := rfl

/-- The body of a stored block. -/
theorem decodeLiteralBlock_spec {r : State} (h : Sim window hidden s r) (calm : Calm s) (state : s.blockState = .type0) :
    BodyRead window hidden s r (decodeLiteralBlock s) ∧ Frame s (decodeLiteralBlock s).2 := by
  obtain ⟨final, mode, bfinal, aligned, clear⟩ := h.mode.ofStored state
  obtain ⟨_, bits, out⟩ := r
  obtain rfl := mode
  have views : Views s.toInStream (bitsVal bits) bits.length := h.views
  have size := bytesLeft_length views
  rw [decodeLiteralBlock_eq, literalExtent_eq]
  obtain ⟨len, isLen⟩ : ∃ len, len = min (min s.count s.availOut) (s.availIn + (s.readInLength / 8).toNat) := ⟨_, rfl⟩
  rw [← isLen]
  obtain ⟨b, inp, copied, left, aligned', clear', buf, isB⟩ :=
    copyStored_spec (s := { s with blockState := if len < s.count then .type0 else s.endBlock.blockState }) views aligned clear
      (show len ≤ s.bytesLeft.length by omega)
  dsimp only
  rw [copied]
  have taken : (s.bytesLeft.take len).length = len := by
    rw [List.length_take, size]
    omega
  have run : Runs window ⟨storedMode s.count final, bits, out⟩
      ⟨storedMode (s.count - len) final, bits.drop (8 * len), out ++ s.bytesLeft.take len⟩ := by
    have steps := @stored_run window (bytesBits (s.bytesLeft.drop len)) s.count final (s.bytesLeft.take len) out (by omega)
    rwa [← bytesBits_append, List.take_append_drop, bytesBits_drop, ← views.bytes aligned, taken] at steps
  have isState : ∀ st : BlockState, ({ s with blockState := st } : InflateState).bytesLeft = s.bytesLeft := fun _ => rfl
  rw [isState]
  obtain ⟨t, isT⟩ : ∃ t : InflateState, t = { ({ s with
      blockState := if len < s.count then .type0 else s.endBlock.blockState } : InflateState).write (s.bytesLeft.take len) with
    toInStream := inp, count := s.count - len } := ⟨_, rfl⟩
  have blockState : t.blockState = if len < s.count then .type0 else s.endBlock.blockState := by rw [isT]; rfl
  have count : t.count = s.count - len := by rw [isT]
  have room : t.availOut = s.availOut - (s.bytesLeft.take len).length := by rw [isT]; rfl
  rw [taken] at room
  have stream : t.toInStream = inp := by rw [isT]
  have calm' : Calm t := by rw [isT]; exact ⟨calm.lits, calm.len, calm.copy, calm.distance⟩
  have written : t.out = s.out ++ s.bytesLeft.take len := by rw [isT]; rfl
  have ended : ¬len < s.count →
      t.blockState = .inputDone ∧ final = true ∨ t.blockState = .newHdr ∧ final = false := by
    intro whole
    rw [blockState, if_neg whole]
    cases final with
    | true => exact Or.inl ⟨if_pos (bfinal.mpr rfl), rfl⟩
    | false => exact Or.inr ⟨if_neg fun nonzero => Bool.false_ne_true (bfinal.mp nonzero), rfl⟩
  have mode : ModeSim window t (storedMode (s.count - len) final) := by
    by_cases part : len < s.count
    · rw [if_pos part] at blockState
      refine .stored final _ (by rw [count]) ?_ blockState (by rw [stream]; exact aligned') (by rw [stream]; exact clear')
      rw [isT]
      exact bfinal
    · rw [storedMode, if_pos (by omega)]
      rcases ended part with ⟨done, rfl⟩ | ⟨header, rfl⟩
      · exact .done done
      · exact .header header
  have sim : Sim window hidden t
      ⟨storedMode (s.count - len) final, bits.drop (8 * len), out ++ s.bytesLeft.take len⟩ := by
    refine ⟨by rw [stream]; exact left, ?_, ?_, mode⟩
    · have whole : out = s.produced hidden := h.out
      rw [calm.produced] at whole
      rw [calm'.produced, written, whole, List.append_assoc]
    · refine h.enough.imp id fun long => Nat.le_trans long ?_
      rw [written]
      simp
  have frame : Frame s t := by
    refine ⟨by rw [isT]; rfl, by rw [stream]; exact buf, by rw [written]; exact List.prefix_append _ _, ?_, ?_⟩
    · rw [written, List.length_append, taken, room]
      omega
    · rw [written, List.length_append, Nat.add_sub_cancel_left, isT]
      rfl
  rw [← isT]
  have leftCount := left.count
  have leftNonneg := left.nonneg
  by_cases none : t.availIn + b = 0 ∧ t.blockState ≠ .inputDone
  · rw [if_pos none]
    rw [stream] at none
    have empty : bits.drop (8 * len) = [] := List.length_eq_zero_iff.mp (by omega)
    have more : step ⟨storedMode (s.count - len) final, bits.drop (8 * len), out ++ s.bytesLeft.take len⟩ = .more := by
      rw [empty]
      by_cases part : len < s.count
      · exact step_stored_empty (by omega)
      · rcases ended part with ⟨done, -⟩ | ⟨-, last⟩
        · exact absurd done none.2
        · rw [show s.count - len = 0 by omega, last]
          exact step_header_empty
    refine ⟨.endInput t _ _ run sim calm' (.refl _) more (by rw [stream]; omega) ?_, frame⟩
    by_cases part : len < s.count
    · rw [if_pos part] at blockState
      refine Or.inr ⟨by rw [blockState]; simp, fun u same _ => ?_, ?_⟩
      · have state' : u.blockState = .type0 := (congrArg (·.blockState) same).trans blockState
        have stream' : u.toInStream = inp := (congrArg (·.toInStream) same).trans stream
        have count' : u.count = t.count := congrArg (·.count) same
        rw [decodeBody, if_pos state', decodeLiteralBlock_empty state' (by omega) (by rw [stream']; omega) (by rw [stream']; omega)]
      · rw [storedMode, if_neg (by omega)]
        simp
    · rcases ended part with ⟨done, -⟩ | ⟨header, -⟩
      · exact absurd done none.2
      · exact Or.inl ⟨header, empty⟩
  rw [if_neg none]
  by_cases full : t.availOut = 0 ∧ 0 < t.count
  · rw [if_pos full]
    refine ⟨.outOverflow t _ run sim calm'.spill full.1 (Or.inr ⟨?_, full.2⟩), frame⟩
    rw [blockState, if_pos (by omega)]
  · rw [if_neg full]
    refine ⟨.ended t _ run sim calm' ?_, frame⟩
    have whole : ¬len < s.count := by
      intro part
      rw [blockState, if_pos part, stream] at none
      have input : inp.availIn + b ≠ 0 := fun empty => none ⟨empty, by simp⟩
      have before := views.count
      have nonneg := views.nonneg
      rw [List.length_drop] at leftCount
      omega
    rcases ended whole with ⟨done, -⟩ | ⟨header, -⟩
    · exact Or.inr done
    · exact Or.inl header

end Stored

theorem decodeBody_spec {s : InflateState} {r : State} (h : Sim window hidden s r) (calm : Calm s) :
    ∃ result, decodeBody s = some result ∧ BodyRead window hidden s r result ∧ Frame s result.2 := by
  rw [decodeBody]
  split
  · rename_i state
    exact ⟨_, rfl, decodeLiteralBlock_spec h calm state⟩
  · rename_i state
    exact decodeHuffmanCodeBlock_spec h calm state

section Header

variable {s t : InflateState} {r : State}

/-- A dynamic block that opens with the library's own header. -/
def OwnHeader (bits : List Bool) : Prop :=
  bitsVal (bits.drop 1) % 2 ^ 2 = 2 ∧ ∃ rest, bits.drop 3 = hdrBits ++ rest

/-- A block whose tables are kept ready -/
def ReadyHeader (bits : List Bool) : Prop := bitsVal (bits.drop 1) % 2 ^ 2 = 1 ∧ 3 ≤ bits.length ∨ OwnHeader bits

theorem takesReady_header {s : InStream} {bits : List Bool} (views : Views s (bitsVal bits) bits.length)
    (takes : s.takesReady = true) : ReadyHeader bits := by
  simp only [InStream.takesReady, Bool.or_eq_true, Bool.and_eq_true, decide_eq_true_eq] at takes
  obtain ⟨nonneg, takes⟩ := takes
  rcases readBits_num views (show 1 ≤ 57 by decide) with ⟨first, views⟩ | ⟨-, v, n, excess, below⟩
  · have one := num_shrinks first
    rcases readBits_num views (show 2 ≤ 57 by decide) with ⟨second, views⟩ | ⟨-, excess⟩
    · have two := num_shrinks second
      have kind := second
      rw [num_ok (by omega)] at kind
      have kind := (Parse.ok.inj kind).1
      rcases takes with static | ⟨dynamic, known⟩
      · left
        simp only [List.length_drop] at one two
        exact ⟨kind.trans static, by omega⟩
      · right
        obtain ⟨inp, known⟩ := Option.isSome_iff_exists.mp known
        rw [InStream.knownHeader] at known
        split at known
        · rename_i plenty
          obtain ⟨rest, whole, -⟩ := headerMatchesPregen_spec views plenty known
          rw [List.drop_drop] at whole
          exact ⟨kind.trans dynamic, rest, whole⟩
        · cases known
    · have negative := excess.negative
      omega
  · have negative := (readBits_views excess (show 2 ≤ 57 by decide)).2.negative
    omega

/-- Every distance table of the blocks to come stays within the window. -/
def Bounded (window : Nat) (s : InflateState) (r : State) : Prop :=
  Reaches s.maxDist window ∧ (Reaches distLen window ∨ ∀ r', Steps r r' → r'.mode = .header → ¬ReadyHeader r'.bits)

theorem Bounded.after {r' : State} (h : Bounded window s r) (run : Steps r r') (same : t.maxDist = s.maxDist) :
    Bounded window t r' :=
  ⟨same ▸ h.1, h.2.imp id fun never r'' further => never r'' (run.trans further)⟩

theorem maxDist_le (s : InflateState) : s.maxDist ≤ distLen := by
  rw [InflateState.maxDist, distLen]
  split <;> omega

theorem Bounded.reaches (h : Bounded window s r) (views : Views s.toInStream (bitsVal r.bits) r.bits.length)
    (mode : r.mode = .header) : s.maxDist ≤ s.distLimit ∧ s.distLimit ≤ distLen ∧ Reaches s.distLimit window := by
  rw [InflateState.distLimit]
  split
  · rename_i takes
    refine ⟨maxDist_le s, Nat.le_refl _, ?_⟩
    exact h.2.resolve_right fun never => never r (.refl r) mode (takesReady_header views takes)
  · exact ⟨Nat.le_refl _, maxDist_le s, h.1⟩

theorem Kept.calm (h : Kept s t) (calm : Calm s) (hidden : List UInt8) :
    Calm t ∧ t.produced hidden = s.produced hidden := by
  obtain ⟨same, -⟩ := h
  have out : t.out = s.out := congrArg (·.out) same
  have calm' : Calm t := ⟨(congrArg (·.writeOverflowLits) same).trans calm.lits,
    (congrArg (·.writeOverflowLen) same).trans calm.len, (congrArg (·.copyOverflowLength) same).trans calm.copy,
    (congrArg (·.copyOverflowDistance) same).trans calm.distance⟩
  exact ⟨calm', by rw [calm.produced, calm'.produced, out]⟩

/-- A header that has been read is a step of the reference decoder. -/
theorem BlockRead.enters (h : BlockRead s r.bits (.decompOk, t)) (views : Views s.toInStream (bitsVal r.bits) r.bits.length)
    (isOut : r.out = s.produced hidden) (enough : hidden = [] ∨ histSize ≤ s.out.length) (calm : Calm s)
    (mode : r.mode = .header) (bounded : Bounded window s r) :
    ∃ r', StepWithin window r r' ∧ Sim window hidden t r' ∧ Calm t ∧ Frame s t := by
  have noMatch : ∀ length dist, r.Copies length dist → dist ≤ window := by
    rintro length dist ⟨codes, final, rest, coded, -⟩
    rw [mode] at coded
    cases coded
  have carried : ∀ {u}, Kept s u → Calm u ∧ u.produced hidden = s.produced hidden ∧ u.out = s.out ∧ u.maxDist = s.maxDist :=
    fun kept => ⟨(kept.calm calm hidden).1, (kept.calm calm hidden).2, congrArg (·.out) kept.1, kept.frame.maxDist⟩
  obtain ⟨bound, small, reach⟩ := bounded.reaches views mode
  cases h with
  | coded final codes rest _ ok tables views state bfinal kept =>
    obtain ⟨calm', produced, out, maxDist⟩ := carried kept
    refine ⟨⟨.coded codes final, rest, r.out⟩, ⟨?_, noMatch⟩, ⟨views, ?_, ?_, ?_⟩, calm', kept.frame⟩
    · rw [Rfc1951.step, mode]
      simp only [ok, Parse.outcome]
    · rw [produced]
      exact isOut
    · rw [out]
      exact enough
    · exact .coded codes final s.distLimit bfinal state tables (maxDist ▸ bound) small reach
  | stored final length rest _ ok count aligned clear views state bfinal kept =>
    obtain ⟨calm', produced, out, maxDist⟩ := carried kept
    refine ⟨⟨storedMode length final, rest, r.out⟩, ⟨?_, noMatch⟩, ⟨views, ?_, ?_, ?_⟩, calm', kept.frame⟩
    · rw [Rfc1951.step, mode]
      simp only [ok, Parse.outcome]
      cases length <;> rfl
    · rw [produced]
      exact isOut
    · rw [out]
      exact enough
    · exact .stored final _ (by rw [count]) bfinal state aligned clear
  | failed _ _ fails kind kept => rcases kind with kind | kind <;> cases kind

theorem BlockRead.step (h : BlockRead s r.bits (.decompOk, t)) (sim : Sim window hidden s r) (calm : Calm s)
    (mode : r.mode = .header) (bounded : Bounded window s r) :
    ∃ r', StepWithin window r r' ∧ Sim window hidden t r' ∧ Calm t ∧ Frame s t :=
  h.enters sim.views sim.out sim.enough calm mode bounded

/-- The return value of `read_header` for these bits -/
def HeaderRet (bits : List Bool) (ret : ReturnCode) : Prop :=
  ∃ s : InflateState, Views s.toInStream (bitsVal bits) bits.length ∧ (readHeader s).1 = ret

end Header

end Isal.Inflate
