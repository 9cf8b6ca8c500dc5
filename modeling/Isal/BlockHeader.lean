import Isal.DynamicHeader

/-! A block header of any kind is read as the reference decoder reads it. -/
namespace Isal.Inflate

open Isal.Bits Isal.Loops Isal.PrefixCode Isal.Rfc1951

/-- `max_dist`: the distance symbols that the window of `hist_bits` leaves. -/
def InflateState.maxDist (s : InflateState) : Nat :=
  if s.histBits ≠ 0 ∧ s.histBits < 15 then 2 * s.histBits else distLen

/-- The decoding tables belong to the two codes, with distance symbols below `limit` only. -/
structure Tables (codes : Codes) (limit : Nat) (lit dist : LookupTable) : Prop where
  litValid : Valid codes.lit 15
  distValid : Valid codes.dist 15
  lit : ∀ s v n, Views s v n → Loaded s → LitFound codes.lit v n (decodeNextLitLen lit s)
  dist : ∀ s v n, Views s v n → DistFound codes.dist limit v n (decodeNextDist dist s)
  /-- No bits on the way to a symbol end up at a reserved one. -/
  apart : ∀ s t bits, s < 286 → 286 ≤ t → lengthOf codes.lit s ≠ 0 → bits <+: codeword codes.lit s →
    ¬Matches codes.lit t (bitsVal bits)

/-- What reading a header leaves alone. -/
def InflateState.withoutHeader (s : InflateState) : InflateState :=
  { s with
    toInStream := {}
    litHuffCode := ⟨.const 0, .const 0⟩
    distHuffCode := ⟨.const 0, .const 0⟩
    blockState := .newHdr
    bfinal := 0
    count := 0 }

def Kept (s s' : InflateState) : Prop := s'.withoutHeader = s.withoutHeader ∧ s'.buf = s.buf

/-- A code that the decompressor takes: not oversubscribed. -/
theorem oversubscribed_iff {lens : List Nat} : oversubscribed lens = true ↔ 2 ^ 15 < kraft lens 15 := by
  simp [oversubscribed]

theorem not_oversubscribed {lens : List Nat} (valid : Valid lens 15) : oversubscribed lens = false := by
  rw [Bool.eq_false_iff, Ne, oversubscribed_iff]
  have := valid.kraft_le
  omega

section Dynamic

variable {lens : List Nat} {hlit hdist : Nat} {lengths : LengthState} {s : InflateState}

theorem LengthsPut.litLengths (h : LengthsPut hlit lens lengths) :
    HasLengths lengths.litAndDistHuff litLen (lens.take (litEnd hlit)) := by
  intro p inside
  rw [h.place, lengthAt]
  split
  · rename_i before
    simp [lengthOf, before]
  · rename_i after
    rw [lengthOf_beyond]
    simp; omega

theorem LengthsPut.distLengths (h : LengthsPut hlit lens lengths) (legal : hlit ≤ 29) (tableLength : Nat) :
    HasLengths (lengths.litAndDistHuff.from_ litLen) tableLength (lens.drop (litEnd hlit)) := by
  intro p _
  have := litEnd_le legal
  rw [Arr.from_get, h.place, lengthAt, if_neg (by omega), if_neg (by omega)]
  rw [lengthOf, lengthOf, List.getElem?_drop, Nat.add_sub_cancel_left, Nat.add_comm]

/-- The tables are made unless a code is oversubscribed. -/
theorem setupCodes_spec (h : LengthsPut hlit lens lengths) (legal : hlit ≤ 29) (legalDist : hdist ≤ 29)
    (full : lens.length = lengthsTotal hlit hdist) (multisym : Nat) :
    let codes : Codes := ⟨lens.take (litEnd hlit), lens.drop (litEnd hlit)⟩
    let r := setupCodes multisym lengths s
    (r = (.invalidBlock, { s with distHuffCode := r.2.distHuffCode }) ∧
        (oversubscribed codes.dist = true ∨ oversubscribed codes.lit = true)) ∨
      (r = (.decompOk, { s with
          litHuffCode := r.2.litHuffCode, distHuffCode := r.2.distHuffCode, blockState := .coded }) ∧
        oversubscribed codes.dist = false ∧ oversubscribed codes.lit = false ∧
        Tables codes s.maxDist r.2.litHuffCode r.2.distHuffCode) := by
  have room := litEnd_le legal
  have litBounded : ∀ n ∈ lens.take (litEnd hlit), n ≤ 15 := fun n member => h.bounded n (List.mem_of_mem_take member)
  have distBounded : ∀ n ∈ lens.drop (litEnd hlit), n ≤ 15 := fun n member => h.bounded n (List.mem_of_mem_drop member)
  simp only [setupCodes]
  rcases setCodes_spec (h.distLengths legal distLen) distBounded h.dist with ⟨none, excess⟩ | ⟨distHuff, some_, distValid, distCanonical⟩
  · simp only [none]
    exact Or.inl ⟨trivial, Or.inl (oversubscribed_iff.mpr excess)⟩
  simp only [some_]
  rcases setAndExpand_spec litLen h.litLengths litBounded h.lit h.expand with
    ⟨none, excess⟩ | ⟨codes, found, litValid, sorted, expanded⟩
  · simp only [none]
    exact Or.inl ⟨trivial, Or.inr (oversubscribed_iff.mpr excess)⟩
  simp only [found]
  refine Or.inr ⟨trivial, not_oversubscribed distValid, not_oversubscribed litValid, litValid, distValid, ?_, ?_, ?_⟩
  · intro t v n views loaded
    exact decodeNextLitLen_spec views loaded litValid sorted expanded multisym _
  · intro t v n views
    have few : (lens.drop (litEnd hlit)).length ≤ distLen := by
      simp only [List.length_drop, full, lengthsTotal, litEnd, isalDefLitSymbols, distLen]
      omega
    exact decodeNextDist_spec distValid distCanonical few h.dist views (Nat.le_trans few (by decide)) _ _
  · intro _ t _ _ reserved _ _ next
    have := used_lt next.used
    simp only [List.length_take] at this
    have : litEnd hlit ≤ 286 := room
    omega

/-- What the code length of the end-of-block symbol is checked on. -/
theorem LengthsPut.endOfBlock (h : LengthsPut hlit lens lengths) :
    (lengths.litAndDistHuff 256).length = lengthOf (lens.take (litEnd hlit)) 256 :=
  h.litLengths 256 (by decide)

end Dynamic

/-- What reading the rest of a header gives, next to the reference decoder; `limit` is where
the distance table of a coded block ends. -/
inductive HeaderRead (start : InflateState) (limit : Nat) (parsed : Parse Block) : ReturnCode × InflateState → Prop
  | coded (codes : Codes) (rest : List Bool) (s : InflateState) (ok : parsed = .ok (.coded codes) rest)
      (tables : Tables codes limit s.litHuffCode s.distHuffCode)
      (views : Views s.toInStream (bitsVal rest) rest.length)
      (state : s.blockState = .coded) (bfinal : s.bfinal = start.bfinal) (kept : Kept start s) :
      HeaderRead start limit parsed (.decompOk, s)
  | stored (length : Nat) (rest : List Bool) (s : InflateState) (ok : parsed = .ok (.stored length) rest)
      (count : s.count = length) (aligned : 8 ∣ s.readInLength) (clear : s.readInLength = 0 → s.readIn = 0)
      (views : Views s.toInStream (bitsVal rest) rest.length)
      (state : s.blockState = .type0) (bfinal : s.bfinal = start.bfinal) (kept : Kept start s) :
      HeaderRead start limit parsed (.decompOk, s)
  | failed (s : InflateState) (ret : ReturnCode) (fails : Parse.Fails parsed)
      (kind : ret = .endInput ∨ ret = .invalidBlock) (kept : Kept start s) : HeaderRead start limit parsed (ret, s)

theorem readDynamic_short {bits : List Bool} (short : bits.length < 14) : Parse.Fails (readDynamic bits) := by
  rw [readDynamic]
  by_cases five : 5 ≤ bits.length
  · rw [bind_ok (num_ok five)]
    by_cases ten : 5 ≤ (bits.drop 5).length
    · rw [bind_ok (num_ok ten), bind_more (num_more (by simp at ten ⊢; omega))]
      exact fails_more
    · rw [bind_more (num_more (by omega))]
      exact fails_more
  · rw [bind_more (num_more (by omega))]
    exact fails_more

theorem decodeNextHeader_buf (huffCode : LookupTable) (s : InStream) : (decodeNextHeader huffCode s).2.buf = s.buf := by
  have load : (loadForCode s).buf = s.buf := by rw [loadForCode]; split <;> simp
  simp only [decodeNextHeader]
  split <;> simp [load]

theorem decodeLength_buf (huffCode : LookupTable) (hlit last : Nat) (s : LengthState) :
    (decodeLength huffCode hlit last s).2.inp.buf = s.inp.buf := by
  have next := decodeNextHeader_buf huffCode s.inp
  rw [decodeLength]
  generalize decodeNextHeader huffCode s.inp = found at next
  obtain ⟨symbol, inp⟩ := found
  dsimp only at next ⊢
  split
  · split <;> exact next
  split
  · rw [put_inp]; exact next
  split
  · split
    · simpa using next
    · split
      · simpa using next
      · rw [repeat_inp]; simpa using next
  split
  · rw [skip_inp]; simpa using next
  split
  · rw [skip_inp]; simpa using next
  · exact next

theorem decodeLengths_buf (huffCode : LookupTable) (hlit last rounds : Nat) (s : LengthState) :
    (decodeLengths huffCode hlit last rounds s).2.inp.buf = s.inp.buf := by
  induction rounds generalizing s with
  | zero => rfl
  | succ rounds ih =>
    rw [decodeLengths]
    split
    · have step := decodeLength_buf huffCode hlit last s
      generalize decodeLength huffCode hlit last s = result at step
      obtain ⟨ret, t⟩ := result
      cases ret with
      | none => exact (ih t).trans step
      | some ret => exact step
    · rfl

theorem readCodeLengths_buf (first last : Nat) (c : CodeLengths) (s : InStream) :
    (forRange first last readCodeLength (c, s)).2.buf = s.buf :=
  forRange_keeps (fun t : CodeLengths × InStream => t.2.buf = s.buf) rfl fun _ _ _ _ same => same

/-- A field that is buffered. -/
theorem readBitsUnsafe_num {s : InStream} {bits : List Bool} (h : Views s (bitsVal bits) bits.length) (k : Nat)
    (enough : (k : Int) ≤ s.readInLength ∨ s.availIn = 0) (room : k ≤ bits.length) :
    ∃ value t, inflateInReadBitsUnsafe k s = (value, t) ∧ num k bits = .ok value (bits.drop k) ∧ value < 2 ^ k ∧
      Views t (bitsVal (bits.drop k)) (bits.drop k).length ∧
      t.readInLength = s.readInLength - k ∧ t.availIn = s.availIn ∧ t.buf = s.buf := by
  obtain ⟨value, views⟩ := readBitsUnsafe_views h enough
  refine ⟨_, _, rfl, ?_, Nat.mod_lt _ (Nat.two_pow_pos k), views.drop room, rfl, rfl, rfl⟩
  change (inflateInReadBitsUnsafe k s).1 = _ at value
  rw [num_ok room, ← value]
  rfl

/-- The lengths of the code-length code: the two loops with a load between them. -/
theorem readCodeLengths_spec {s : InStream} {v : Nat} {n : Int} (h : Views s v n)
    (enough : 12 ≤ s.readInLength ∨ s.availIn = 0) {last : Nat} (low : 4 ≤ last) (high : last ≤ 19) :
    let first := forRange 0 4 readCodeLength ({}, s)
    let r := forRange 4 last readCodeLength (first.1, inflateInLoad first.2)
    CodeLengthsRead v n last last r.1 r.2 ∧ r.2.buf = s.buf := by
  have zero : codeLengthCode [] = List.replicate 19 0 := by decide
  have initial : CodeLengthsRead v n 4 0 {} s := by
    constructor
    · simpa using h
    · simpa using enough
    · intro i _
      rw [List.range_zero, List.map_nil, zero, lengthOf, List.getElem?_replicate]
      split <;> rfl
    · intro m low _
      simp [zero, show 0 ≠ m by omega]
    · simp [zero]
  intro first r
  have half : CodeLengthsRead v n 4 4 first.1 first.2 := codeLengths_read initial (by decide) (by decide)
  obtain ⟨views, loaded⟩ := half.views.load
  have loaded : CodeLengthsRead v n last 4 first.1 (inflateInLoad first.2) :=
    { half with views, enough := loaded.imp (fun many => by omega) id }
  refine ⟨codeLengths_read loaded low high, ?_⟩
  rw [readCodeLengths_buf, inflateInLoad_buf, readCodeLengths_buf]

theorem digit_lt (k v i : Nat) : digit k v i < 2 ^ k := Nat.mod_lt _ (Nat.two_pow_pos k)

theorem codeLengthCode_le (v n : Nat) : ∀ m ∈ codeLengthCode ((List.range n).map (digit 3 v)), m ≤ 7 := by
  intro m member
  obtain ⟨sym, -, rfl⟩ := List.mem_map.mp member
  rw [List.getElem?_map]
  cases (List.range n)[Rfc1951.codeLengthOrder.idxOf sym]? with
  | none => exact Nat.zero_le _
  | some i => exact Nat.le_of_lt_succ (digit_lt 3 v i)

theorem readDynamicHeader_spec {s : InflateState} {bits : List Bool} (multisym : Nat)
    (views : Views s.toInStream (bitsVal bits) bits.length) :
    HeaderRead s s.maxDist ((readDynamic >>= fun codes => pure (.coded codes)) bits) (readDynamicHeader multisym s) := by
  obtain ⟨views, loaded⟩ := views.load
  rw [Loaded] at loaded
  have buf := inflateInLoad_buf s.toInStream
  have count := views.count
  rw [readDynamicHeader]
  dsimp only
  generalize inflateInLoad s.toInStream = inp at views loaded buf count
  have fails_of : ∀ {inp' : InStream} {ret}, Parse.Fails (readDynamic bits) → ret = .endInput ∨ ret = .invalidBlock →
      inp'.buf = s.buf → HeaderRead s s.maxDist ((readDynamic >>= fun codes => pure (.coded codes)) bits) (ret, s.withIn inp') :=
    fun fails kind same => .failed _ _ (bind_fails fails) kind ⟨rfl, same⟩
  split
  · rename_i few
    refine fails_of (readDynamic_short ?_) (Or.inl rfl) buf
    rcases loaded with many | none <;> omega
  rename_i plenty
  have long : 14 ≤ bits.length := by omega
  obtain ⟨hlit, inp₁, eq₁, parsed₁, -, views, left₁, avail₁, buf₁⟩ :=
    readBitsUnsafe_num views 5 (by omega) (by omega)
  obtain ⟨hdist, inp₂, eq₂, parsed₂, -, views, left₂, avail₂, buf₂⟩ :=
    readBitsUnsafe_num views 5 (by omega) (by simp; omega)
  obtain ⟨hclen, inp₃, eq₃, parsed₃, small, views, left₃, avail₃, buf₃⟩ :=
    readBitsUnsafe_num views 4 (by omega) (by simp; omega)
  simp only [eq₁, eq₂, eq₃]
  have reference : readDynamic bits =
      (if 29 < hlit ∨ 29 < hdist then fail else readCodes hlit hdist hclen : Get Codes)
        (((bits.drop 5).drop 5).drop 4) := by
    rw [readDynamic, bind_ok parsed₁, bind_ok parsed₂, bind_ok parsed₃]
  have same : inp₃.buf = s.buf := by rw [buf₃, buf₂, buf₁, buf]
  generalize ((bits.drop 5).drop 5).drop 4 = rest at views reference
  by_cases illegal : 29 < hlit ∨ 29 < hdist
  · rw [if_pos (illegal.imp id .inl)]
    refine fails_of ?_ (Or.inr rfl) same
    rw [reference, if_pos illegal]
    exact fails_bad
  rw [if_neg (by omega)]
  rw [if_neg illegal] at reference
  have lengthsRead := readCodeLengths_spec views (by omega) (show 4 ≤ hclen + 4 by omega) (by omega)
  dsimp only at lengthsRead
  generalize forRange 4 (hclen + 4) readCodeLength _ = r at lengthsRead ⊢
  obtain ⟨c, inp₄⟩ := r
  obtain ⟨⟨views, -, table, counts, flag⟩, buf₄⟩ := lengthsRead
  dsimp only at views table counts flag buf₄ ⊢
  have same := buf₄.trans same
  split
  · rename_i negative
    refine fails_of ?_ (Or.inl rfl) same
    have short := views.negative.mp negative
    rw [reference, readCodes, bind_more (nums_more (by omega))]
    exact fails_more
  rename_i nonneg
  have enough : 3 * (hclen + 4) ≤ rest.length := by
    have := mt views.negative.mpr nonneg
    omega
  replace views := views.drop enough
  rw [readCodes, bind_ok (nums_ok enough)] at reference
  have bounded := codeLengthCode_le (bitsVal rest) (hclen + 4)
  have nineteen := codeLengthCode_length ((List.range (hclen + 4)).map (digit 3 (bitsVal rest)))
  generalize codeLengthCode ((List.range (hclen + 4)).map (digit 3 (bitsVal rest))) = clens at *
  generalize rest.drop (3 * (hclen + 4)) = rest at views reference
  have allZero : clens.all (· = 0) = true ↔ c.flag = 0 := by rw [flag]; simp
  split
  · rename_i zero
    refine fails_of ?_ (Or.inr rfl) same
    rw [reference, allZero.mpr zero]
    exact fails_bad
  rename_i nonzero
  rw [Bool.eq_false_iff.mpr (mt allZero.mp nonzero), Bool.false_or] at reference
  rcases setCodes_spec table (fun m member => Nat.le_trans (bounded m member) (by decide)) counts with
    ⟨none, excess⟩ | ⟨codeHuff, found, valid, canonical⟩
  · rw [none]
    refine fails_of ?_ (Or.inr rfl) same
    rw [reference, oversubscribed_iff.mpr excess]
    exact fails_bad
  rw [found]
  rw [not_oversubscribed valid, if_neg Bool.false_ne_true,
    show hlit + 257 + (hdist + 1) = lengthsTotal hlit hdist from rfl] at reference
  dsimp only
  have finds : FindsHeader clens (makeInflateHuffCodeHeader ⟨.const 0, .const 0⟩ codeHuff codeLenCodes c.codeCount
      codeLenCodes) := fun t v n views =>
    decodeNextHeader_spec valid canonical (Nat.le_of_eq nineteen) counts views (Nat.le_of_eq nineteen) bounded _
  generalize makeInflateHuffCodeHeader _ codeHuff codeLenCodes c.codeCount codeLenCodes = huffCode at finds ⊢
  have legal : hlit ≤ 29 := by omega
  have rounds : lengthsTotal hlit hdist ≤ lengthsEnd hdist := by
    simp only [lengthsTotal, lengthsEnd, litLen]; omega
  have read : LengthsRead hlit hdist (readLengths clens (lengthsTotal hlit hdist) (lengthsTotal hlit hdist + 1) [] rest)
      (decodeLengths huffCode hlit (lengthsEnd hdist) (lengthsEnd hdist) { inp := inp₄ }) :=
    decodeLengths_spec finds valid nineteen legal _ _ (lengths_initial hlit inp₄) views (by simpa using rounds) (by simp)
  have buf₅ := decodeLengths_buf huffCode hlit (lengthsEnd hdist) (lengthsEnd hdist) { inp := inp₄ }
  have folded : decodeLengths huffCode hlit (litLen + hdist + 1) (litLen + hdist + 1) { inp := inp₄ } =
    decodeLengths huffCode hlit (lengthsEnd hdist) (lengthsEnd hdist) { inp := inp₄ } := rfl
  rw [folded]
  generalize decodeLengths huffCode hlit (lengthsEnd hdist) (lengthsEnd hdist) { inp := inp₄ } = result at read buf₅ ⊢
  cases read with
  | failed lengths ret fails kind =>
    refine fails_of ?_ kind (buf₅.trans same)
    rw [reference]
    exact bind_fails fails
  | stopped lengths fails why =>
    have fails : Parse.Fails (readDynamic bits) := by
      rw [reference]
      exact bind_fails fails
    dsimp only
    split
    · exact fails_of fails (Or.inr rfl) (buf₅.trans same)
    · rename_i short
      rw [if_pos (why.resolve_left fun beyond => short (Or.inl beyond))]
      exact fails_of fails (Or.inl rfl) (buf₅.trans same)
  | read lens rest lengths ok full lengthsPut views =>
    have ended : ¬lengthsEnd hdist < lengths.current := by
      rw [(lengthsPut.current_lt legal).2]
      omega
    have nonneg : ¬lengths.inp.readInLength < 0 := by rw [views.negative]; omega
    rw [bind_ok ok, show hlit + 257 = litEnd hlit from Nat.add_comm ..] at reference
    dsimp only
    rw [← lengthsPut.endOfBlock] at reference
    by_cases noEnd : (lengths.litAndDistHuff 256).length = 0
    · rw [if_pos (Or.inr noEnd)]
      refine fails_of ?_ (Or.inr rfl) (buf₅.trans same)
      rw [reference]
      simp [noEnd, fails_bad, fail_eq]
    have goesOn : ¬(litLen + hdist + 1 < lengths.current ∨ (lengths.litAndDistHuff 256).length = 0) :=
      not_or.mpr ⟨ended, noEnd⟩
    rw [if_neg goesOn, if_neg nonneg]
    rcases setupCodes_spec (s := (s.withIn inp₄).withIn lengths.inp) lengthsPut legal (show hdist ≤ 29 by omega) full
        multisym with ⟨result, excess⟩ | ⟨result, distFits, litFits, tables⟩
    · rw [result]
      refine .failed _ _ (bind_fails ?_) (Or.inr rfl) ⟨rfl, buf₅.trans same⟩
      rw [reference]
      rcases excess with excess | excess <;> simp [excess, fails_bad, fail_eq]
    · rw [result]
      dsimp only at distFits litFits
      have parsed : readDynamic bits = .ok ⟨lens.take (litEnd hlit), lens.drop (litEnd hlit)⟩ rest := by
        rw [reference]
        simp [noEnd, distFits, litFits, pure_eq]
      exact .coded _ rest _ (by rw [bind_ok parsed, pure_eq]) tables views rfl rfl ⟨rfl, buf₅.trans same⟩

end Isal.Inflate
