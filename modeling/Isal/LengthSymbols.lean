import Isal.HeaderVerdict

/-! The loop over the code lengths of a dynamic header against the lengths that its sequence of
symbols stands for, and where the loop writes. -/
namespace Isal.Rfc1951
open Bits PrefixCode

/-- A symbol of the code-length code with the value of its extra bits. -/
structure LengthSymbol where
  symbol : Nat
  extra : Nat := 0

namespace LengthSymbol

def extraBits (op : LengthSymbol) : Nat :=
  if op.symbol = 16 then 2 else if op.symbol = 17 then 3 else if op.symbol = 18 then 7 else 0

/-- How many lengths it stands for. -/
def size (op : LengthSymbol) : Nat :=
  if op.symbol < 16 then 1 else if op.symbol = 18 then 11 + op.extra else 3 + op.extra

/-- A symbol that the code-length code has a codeword for. -/
structure Legal (clens : List Nat) (op : LengthSymbol) : Prop where
  coded : lengthOf clens op.symbol ≠ 0
  narrow : op.extra < 2 ^ op.extraBits

/-- The lengths up to and with this symbol; a repeat needs one before it. -/
def assign (lens : List Nat) (op : LengthSymbol) : Option (List Nat) :=
  if op.symbol < 16 then some (lens ++ [op.symbol])
  else if op.symbol = 16 then
    lens.getLast?.map fun previous => lens ++ List.replicate op.size previous
  else some (lens ++ List.replicate op.size 0)

/-- The codeword and the extra bits as they stand in the stream. -/
def bits (clens : List Nat) (op : LengthSymbol) : List Bool :=
  codeword clens op.symbol ++ (List.range op.extraBits).map op.extra.testBit

end LengthSymbol

/-- The lengths that a sequence stands for, up to the symbol that completes them. -/
def assigned (total : Nat) : List LengthSymbol → List Nat → Option (List Nat)
  | [], lens => some lens
  | op :: ops, lens =>
    if total ≤ lens.length then some lens else (op.assign lens).bind (assigned total ops)

end Isal.Rfc1951

namespace Isal.Inflate
open Bits Loops PrefixCode CountingSort Rfc1951

theorem bitsVal_testBit (value width : Nat) : bitsVal ((List.range width).map value.testBit) = value % 2 ^ width := by
  apply Nat.eq_of_testBit_eq
  intro i
  rw [testBit_bitsVal, Nat.testBit_mod_two_pow, List.getElem?_map]
  by_cases inside : i < width
  · rw [List.getElem?_range inside]
    simp [inside]
  · rw [List.getElem?_eq_none (by simp; omega)]
    simp [inside]

variable {clens lens : List Nat} {hlit hdist : Nat} {huffCode : LookupTable} {s : LengthState} {op : LengthSymbol}
  {rest : List Bool}

/-- The stream behind the codeword of a symbol, and behind its extra bits. -/
theorem legal_read (legal : op.Legal clens) (rest : List Bool) :
    Matches clens op.symbol (bitsVal (op.bits clens ++ rest)) ∧
      lengthOf clens op.symbol ≤ (op.bits clens ++ rest).length ∧
      bitsVal (op.bits clens ++ rest) / 2 ^ lengthOf clens op.symbol % 2 ^ op.extraBits = op.extra ∧
      bitsVal (op.bits clens ++ rest) / 2 ^ lengthOf clens op.symbol / 2 ^ op.extraBits = bitsVal rest ∧
      (op.bits clens ++ rest).length = lengthOf clens op.symbol + op.extraBits + rest.length := by
  have length : (codeword clens op.symbol).length = lengthOf clens op.symbol := by rw [codeword, msbBits_length]
  have extra : ((List.range op.extraBits).map op.extra.testBit).length = op.extraBits := by simp
  have begins : codeword clens op.symbol <+: op.bits clens ++ rest :=
    ⟨(List.range op.extraBits).map op.extra.testBit ++ rest, by rw [LengthSymbol.bits, List.append_assoc]⟩
  obtain ⟨next, enough⟩ := matches_of_prefix legal.coded begins
  have behind : bitsVal (op.bits clens ++ rest) / 2 ^ lengthOf clens op.symbol =
      op.extra + 2 ^ op.extraBits * bitsVal rest := by
    rw [← bitsVal_drop, LengthSymbol.bits, List.append_assoc, ← length, List.drop_left, bitsVal_append, extra,
      bitsVal_testBit, Nat.mod_eq_of_lt legal.narrow]
  refine ⟨next, enough, ?_, ?_, ?_⟩
  · rw [behind, Nat.add_mul_mod_self_left, Nat.mod_eq_of_lt legal.narrow]
  · rw [behind, Nat.add_mul_div_left _ _ (Nat.two_pow_pos _), Nat.div_eq_of_lt legal.narrow, Nat.zero_add]
  · rw [LengthSymbol.bits, List.length_append, List.length_append, length, extra]

theorem assign_length {lens more : List Nat} (assigns : op.assign lens = some more) :
    more.length = lens.length + op.size := by
  rw [LengthSymbol.assign] at assigns
  by_cases literal : op.symbol < 16
  · rw [if_pos literal, Option.some.injEq] at assigns
    rw [← assigns, LengthSymbol.size, if_pos literal]
    simp
  rw [if_neg literal] at assigns
  split at assigns
  · obtain ⟨previous, -, rfl⟩ := Option.map_eq_some_iff.mp assigns
    simp
  · rw [← Option.some.inj assigns]
    simp

/-- One round puts the lengths of one symbol, or refuses it. -/
theorem decodeLength_assign (hdist : Nat) (finds : FindsHeader clens huffCode) (valid : Valid clens 15)
    (nineteen : clens.length = 19) (small : hlit ≤ 29) (lengths : LengthsPut hlit lens s) (legal : op.Legal clens)
    (views : Views s.inp (bitsVal (op.bits clens ++ rest)) (op.bits clens ++ rest).length) :
    (∃ more t, op.assign lens = some more ∧ decodeLength huffCode hlit (lengthsEnd hdist) s = (none, t) ∧
      LengthsPut hlit more t ∧ Views t.inp (bitsVal rest) rest.length) ∨
    ((decodeLength huffCode hlit (lengthsEnd hdist) s).1 = some .invalidBlock ∧
      ∀ more, op.assign lens = some more → lengthsTotal hlit hdist < more.length) := by
  obtain ⟨next, enough, value, behind, length⟩ := legal_read legal rest
  have taken := decodeLength_taken hdist finds valid nineteen small lengths views next (by omega)
  have inside : op.symbol < 19 := by
    rw [← nineteen]
    exact used_lt legal.coded
  generalize decodeLength huffCode hlit (lengthsEnd hdist) s = result at taken
  cases taken with
  | put t literal lengths views =>
    have none : op.extraBits = 0 := by
      rw [LengthSymbol.extraBits, if_neg (by omega), if_neg (by omega), if_neg (by omega)]
    rw [none, Nat.pow_zero, Nat.div_one] at behind
    refine Or.inl ⟨_, t, if_pos literal, rfl, lengths, ?_⟩
    rw [behind] at views
    convert views using 1
    omega
  | again t previous sixteen last lengths views =>
    have two : op.extraBits = 2 := if_pos sixteen
    rw [two] at value behind
    rw [value] at lengths
    have size : op.size = 3 + op.extra := by rw [LengthSymbol.size, if_neg (by omega), if_neg (by omega)]
    refine Or.inl ⟨_, t, ?_, rfl, lengths, ?_⟩
    · rw [LengthSymbol.assign, if_neg (by omega), if_pos sixteen, last, size]
      rfl
    · rw [behind] at views
      convert views using 1
      omega
  | zeroes t base width kind lengths views =>
    have same : op.extraBits = width := by
      rw [LengthSymbol.extraBits]
      rcases kind with ⟨here, -, rfl⟩ | ⟨here, -, rfl⟩ <;> simp [here]
    have size : op.size = base + op.extra := by
      rw [LengthSymbol.size]
      rcases kind with ⟨here, rfl, -⟩ | ⟨here, rfl, -⟩ <;> simp [here]
    rw [same] at value behind
    rw [value] at lengths
    refine Or.inl ⟨_, t, ?_, rfl, lengths, ?_⟩
    · rw [LengthSymbol.assign, if_neg (by omega), if_neg (by omega), size]
    · rw [behind] at views
      convert views using 1
      omega
  | noPrevious t sixteen last =>
    refine Or.inr ⟨rfl, ?_⟩
    intro more assigns
    rw [LengthSymbol.assign, if_neg (by omega), if_pos sixteen, last] at assigns
    cases assigns
  | beyond t sixteen excess =>
    have two : op.extraBits = 2 := if_pos sixteen
    rw [two] at value
    rw [value] at excess
    refine Or.inr ⟨rfl, ?_⟩
    intro more assigns
    rw [assign_length assigns, LengthSymbol.size, if_neg (by omega), if_neg (by omega)]
    exact excess

/-- A sequence of symbols with enough lengths is put as a whole or rejected, the latter when
the lengths are too many, lack one for a repeat or leave the end of the block without a code. -/
theorem decodeLengths_assigned (finds : FindsHeader clens huffCode) (valid : Valid clens 15)
    (nineteen : clens.length = 19) (small : hlit ≤ 29) (ops : List LengthSymbol) (rounds : Nat)
    (lengths : LengthsPut hlit lens s) (legal : ∀ op ∈ ops, op.Legal clens)
    (views : Views s.inp (bitsVal (ops.flatMap (·.bits clens) ++ rest)) (ops.flatMap (·.bits clens) ++ rest).length)
    (covers : lengthsTotal hlit hdist ≤ lens.length + (ops.map (·.size)).sum)
    (enough : lengthsTotal hlit hdist ≤ lens.length + rounds) :
    (∃ all t, assigned (lengthsTotal hlit hdist) ops lens = some all ∧
      decodeLengths huffCode hlit (lengthsEnd hdist) rounds s = (none, t) ∧ LengthsPut hlit all t ∧
      lengthsTotal hlit hdist ≤ all.length) ∨
    ((decodeLengths huffCode hlit (lengthsEnd hdist) rounds s).1 = some .invalidBlock ∧
      ∀ all, assigned (lengthsTotal hlit hdist) ops lens = some all → lengthsTotal hlit hdist < all.length) := by
  induction ops generalizing lens s rounds with
  | nil =>
    have all : lengthsTotal hlit hdist ≤ lens.length := by simpa using covers
    refine Or.inl ⟨lens, s, rfl, decodeLengths_end ?_, lengths, all⟩
    exact mt (lengths.current_lt small).1.mp (Nat.not_lt.mpr all)
  | cons op ops ih =>
    by_cases before : s.current < lengthsEnd hdist
    · have more := (lengths.current_lt small).1.mp before
      obtain ⟨less, rfl⟩ : ∃ less, rounds = less + 1 := ⟨rounds - 1, by omega⟩
      rw [List.flatMap_cons, List.append_assoc] at views
      rw [List.map_cons, List.sum_cons] at covers
      rw [assigned, if_neg (Nat.not_le.mpr more)]
      rcases decodeLength_assign hdist finds valid nineteen small lengths (legal op (List.mem_cons_self ..)) views with
        ⟨grown, t, assigns, on, put, views⟩ | ⟨stop, excess⟩
      · have length := assign_length assigns
        have positive : 0 < op.size := by
          rw [LengthSymbol.size]
          split
          · decide
          · split <;> omega
        rw [decodeLengths_on before on, assigns, Option.bind_some]
        exact ih less put (fun op member => legal op (List.mem_cons_of_mem _ member)) views (by omega) (by omega)
      · refine Or.inr ⟨decodeLengths_stop less before stop, ?_⟩
        intro all assigns
        obtain ⟨grown, first, last⟩ := Option.bind_eq_some_iff.mp assigns
        have beyond := excess grown first
        have done : assigned (lengthsTotal hlit hdist) ops grown = some grown := by
          cases ops with
          | nil => rfl
          | cons _ _ => rw [assigned, if_pos (Nat.le_of_lt beyond)]
        rw [done, Option.some.injEq] at last
        rw [← last]
        exact beyond
    · have all := Nat.le_of_not_lt (mt (lengths.current_lt small).1.mpr before)
      refine Or.inl ⟨lens, s, ?_, decodeLengths_end before, lengths, all⟩
      rw [assigned, if_pos all]

section Frame

variable {k : Nat}

/-- A length goes where the loop stands, or to the first distance. -/
theorem put_outside (hlit : Nat) (code : HuffCode) (s : LengthState) (outside : max s.current litLen < k) :
    (s.put hlit code).litAndDistHuff k = s.litAndDistHuff k ∧
      (s.put hlit code).current ≤ max s.current litLen + 1 := by
  have place : (s.switch hlit).current ≤ max s.current litLen := by
    rw [LengthState.switch]
    split
    · exact Nat.le_max_right _ _
    · exact Nat.le_max_left _ _
  have table : (s.switch hlit).litAndDistHuff = s.litAndDistHuff := by
    rw [LengthState.switch]
    split <;> rfl
  have entry : ((s.switch hlit).litAndDistHuff.set (s.switch hlit).current code) k = s.litAndDistHuff k := by
    rw [Arr.set_other (by omega), table]
  rw [LengthState.put]
  split <;> exact ⟨entry, Nat.succ_le_succ place⟩

theorem repeat_outside (hlit i : Nat) (code : HuffCode) (s : LengthState) (outside : max s.current litLen + i ≤ k) :
    (forRange 0 i (fun _ s => s.put hlit code) s).litAndDistHuff k = s.litAndDistHuff k := by
  have run := forRange_invariant (a := 0) (b := i) (f := fun _ (s : LengthState) => s.put hlit code) (s := s)
    (fun j t => t.litAndDistHuff k = s.litAndDistHuff k ∧ t.current ≤ max s.current litLen + j) (Nat.zero_le i)
    ⟨rfl, Nat.le_max_left _ _⟩
    (by
      intro j t _ more ⟨same, place⟩
      obtain ⟨kept, next⟩ := put_outside hlit code t (k := k) (by omega)
      exact ⟨kept.trans same, by omega⟩)
  exact run.1

theorem skip_table (hlit i : Nat) (s : LengthState) : (s.skip hlit i).litAndDistHuff = s.litAndDistHuff := by
  simp only [LengthState.skip]
  split
  · split <;> rfl
  · rfl

theorem decodeLength_outside (huffCode : LookupTable) (hlit : Nat) {last : Nat} (s : LengthState)
    (few : last ≤ lengthsEnd 29) (before : s.current < last) (outside : litLenElems ≤ k) :
    (decodeLength huffCode hlit last s).2.litAndDistHuff k = s.litAndDistHuff k := by
  have room : litLen + 30 + 6 ≤ litLenElems := by decide
  have ends : lengthsEnd 29 = litLen + 30 := rfl
  rw [decodeLength]
  generalize decodeNextHeader huffCode s.inp = found
  obtain ⟨symbol, inp⟩ := found
  dsimp only
  split
  · split <;> rfl
  split
  · exact (put_outside hlit _ _ (by dsimp only; omega)).1
  split
  · have extra : (inflateInReadBits 2 inp).1 < 2 ^ 2 := Nat.mod_lt _ (by decide)
    split
    · rfl
    · split
      · rfl
      · exact repeat_outside hlit _ _ _ (by dsimp only; omega)
  split
  · exact congrArg (fun table : Arr HuffCode => table k) (skip_table hlit _ _)
  split
  · exact congrArg (fun table : Arr HuffCode => table k) (skip_table hlit _ _)
  · rfl

/-- Whatever the input is, the loop writes inside of `lit_and_dist_huff`. -/
theorem decodeLengths_outside (huffCode : LookupTable) (hlit rounds : Nat) {last : Nat} (s : LengthState)
    (few : last ≤ lengthsEnd 29) (outside : litLenElems ≤ k) :
    (decodeLengths huffCode hlit last rounds s).2.litAndDistHuff k = s.litAndDistHuff k := by
  induction rounds generalizing s with
  | zero => rfl
  | succ rounds ih =>
    rw [decodeLengths]
    split
    · rename_i before
      have step := decodeLength_outside huffCode hlit s few before outside
      generalize decodeLength huffCode hlit last s = result at step
      obtain ⟨ret, t⟩ := result
      cases ret with
      | some ret => exact step
      | none => exact (ih t).trans step
    · rfl

end Frame

/-- How many entries of length `n` the literal/length symbols get: one for each value of the
extra bits, which count as part of the length. -/
def expandedHistogram (lens : List Nat) (n : Nat) : Nat :=
  ((List.range lens.length).map fun sym => entriesOf sym (lengthOf lens sym) n).sum

theorem expandedHistogram_append (lens : List Nat) (x n : Nat) :
    expandedHistogram (lens ++ [x]) n = expandedHistogram lens n + entriesOf lens.length x n := by
  have before : ∀ sym ∈ List.range lens.length, entriesOf sym (lengthOf (lens ++ [x]) sym) n =
      entriesOf sym (lengthOf lens sym) n := by
    intro sym inside
    rw [lengthOf_append, if_neg (Nat.ne_of_lt (List.mem_range.mp inside))]
  rw [expandedHistogram, List.length_append, List.length_singleton, List.range_succ, List.map_append, List.sum_append,
    List.map_congr_left before, List.map_singleton, List.sum_singleton, lengthOf_append, if_pos rfl]
  rfl

theorem entryItems_histogram (lens : List Nat) {n : Nat} (positive : 1 ≤ n) :
    (keyed (entryItems lens) n).length = expandedHistogram lens n := by
  induction lens using List.reverseRecOn with
  | nil =>
    have none : ∀ j, lengthItems [] j = [] := by
      intro j
      induction j with
      | zero => rfl
      | succ j ih => simp [lengthItems, ih, lengthOf]
    have unused : (List.range 257).filter (used []) = [] := by simp [used, lengthOf]
    simp [entryItems, none, symbolItems, unused, expandedHistogram]
  | append_singleton lens x ih => rw [keyed_entryItems_grow lens x positive, ih, expandedHistogram_append]

/-- What the loop leaves behind: the lengths at their places, the histograms of the lengths
from one on, and of the expanded lengths the difference, modulo `2 ^ 16`, to `lit_count`. -/
structure LengthVectors (hlit : Nat) (lens : List Nat) (s : LengthState) : Prop where
  place : ∀ p, (s.litAndDistHuff p).length = lengthAt hlit lens p
  lit : Counts s.litCount (lens.take (litEnd hlit))
  dist : Counts s.distCount (lens.drop (litEnd hlit))
  expand : ∀ n, 1 ≤ n → n ≤ 21 → ((if n ≤ 15 then s.litCount n else 0) + s.litExpandCount n) % 2 ^ 16 =
    expandedHistogram (lens.take (litEnd hlit)) n % 2 ^ 16

theorem LengthsPut.vectors (lengths : LengthsPut hlit lens s) : LengthVectors hlit lens s where
  place := lengths.place
  lit := lengths.lit
  dist := lengths.dist
  expand n low high := by
    rw [← entryItems_histogram _ low]
    exact lengths.expand n low high

/-- The loop in `setup_dynamic_header`, on the bits of a sequence of symbols that stands for
enough lengths. -/
theorem decodeLengths_vectors {table codeHuff : Arr HuffCode} {count : Arr Nat}
    (lengths : HasLengths table codeLenCodes clens) (nineteen : clens.length = codeLenCodes)
    (brief : ∀ m ∈ clens, m ≤ 7) (counts : Counts count clens)
    (accepted : setCodes table codeLenCodes count = some codeHuff) (result : LookupTable) (small : hlit ≤ 29)
    (smallDist : hdist ≤ 29) (ops : List LengthSymbol) (legal : ∀ op ∈ ops, op.Legal clens)
    (covers : lengthsTotal hlit hdist ≤ (ops.map (·.size)).sum) {inp : InStream}
    (views : Views inp (bitsVal (ops.flatMap (·.bits clens) ++ rest)) (ops.flatMap (·.bits clens) ++ rest).length) :
    let huffCode := makeInflateHuffCodeHeader result codeHuff codeLenCodes count codeLenCodes
    let r := decodeLengths huffCode hlit (lengthsEnd hdist) (lengthsEnd hdist) { inp }
    let lens := assigned (lengthsTotal hlit hdist) ops []
    (Rejects hdist r ↔ lens = none ∨
      ∃ all, lens = some all ∧ (lengthsTotal hlit hdist < all.length ∨ lengthOf all 256 = 0)) ∧
    (¬Rejects hdist r → ∃ all, lens = some all ∧ all.length = lengthsTotal hlit hdist ∧
      r.1 = none ∧ LengthVectors hlit all r.2) ∧
    ∀ (memory : Arr HuffCode) (k : Nat), litLenElems ≤ k →
      (decodeLengths huffCode hlit (lengthsEnd hdist) (lengthsEnd hdist)
        { inp, litAndDistHuff := memory }).2.litAndDistHuff k = memory k := by
  intro huffCode r lens
  rcases setCodes_spec lengths (fun m member => Nat.le_trans (brief m member) (by decide)) counts with
    ⟨refused, -⟩ | ⟨codeHuff', built, valid, canonical⟩
  · rw [refused] at accepted
    cases accepted
  rw [built, Option.some.injEq] at accepted
  subst accepted
  have finds : FindsHeader clens huffCode := fun t v n views =>
    decodeNextHeader_spec valid canonical (Nat.le_of_eq nineteen) counts views (Nat.le_of_eq nineteen) brief result
  have run := @decodeLengths_assigned clens [] hlit hdist huffCode _ rest finds valid nineteen small ops (lengthsEnd hdist)
    (lengths_initial hlit inp) legal views (by simpa using covers)
    (by simp only [lengthsTotal, lengthsEnd, litLen, List.length_nil]; omega)
  change (∃ all t, lens = some all ∧ r = (none, t) ∧ _) ∨ (r.1 = some .invalidBlock ∧ ∀ all, lens = some all → _) at run
  have kept (memory : Arr HuffCode) (k : Nat) (outside : litLenElems ≤ k) :
      (decodeLengths huffCode hlit (lengthsEnd hdist) (lengthsEnd hdist)
        { inp, litAndDistHuff := memory }).2.litAndDistHuff k = memory k :=
    decodeLengths_outside huffCode hlit _ _ (by simp only [lengthsEnd]; omega) outside
  rcases run with ⟨all, t, assigns, ended, put, full⟩ | ⟨stop, excess⟩
  · have long : 256 < all.length := by rw [lengthsTotal] at full; omega
    have doomed : Rejects hdist r ↔ lengthsTotal hlit hdist < all.length ∨ lengthOf all 256 = 0 := by
      rw [ended, put.rejects small full, Doomed]
      simp only [long, true_and]
      exact or_comm
    refine ⟨?_, ?_, kept⟩
    · rw [doomed, assigns]
      simp
    · intro accepts
      have exact_ := mt doomed.mpr accepts
      refine ⟨all, assigns, by omega, ?_, ?_⟩
      · rw [ended]
      · rw [ended]
        exact put.vectors
  · have rejects : Rejects hdist r := Or.inl stop
    refine ⟨⟨fun _ => ?_, fun _ => rejects⟩, fun accepts => absurd rejects accepts, kept⟩
    cases found : lens with
    | none => exact Or.inl rfl
    | some all => exact Or.inr ⟨all, rfl, Or.inl (excess all found)⟩

/-- 256 literals without a code, the end of the block and one distance. -/
def briefOps : List LengthSymbol := [⟨18, 127⟩, ⟨18, 107⟩, ⟨1, 0⟩, ⟨1, 0⟩]

/-- A code-length code with codewords for a length of one and for long runs of zeroes. -/
def briefClens : List Nat := (List.replicate 19 0).set 1 1 |>.set 18 1

theorem briefOps_legal : ∀ op ∈ briefOps, op.Legal briefClens := by
  have all : ∀ op ∈ briefOps, lengthOf briefClens op.symbol ≠ 0 ∧ op.extra < 2 ^ op.extraBits := by decide
  exact fun op member => ⟨(all op member).1, (all op member).2⟩

def briefBytes : List UInt8 := [255, 215, 0]
def briefLens : List Nat := List.replicate 256 0 ++ [1, 1]

theorem briefOps_bits : bytesBits briefBytes =
    briefOps.flatMap (·.bits briefClens) ++ [false, false, false, false, false, false] := by decide

theorem briefOps_assigned : assigned (lengthsTotal 0 0) briefOps [] = some briefLens := by decide +kernel

theorem briefLens_fit : ¬Doomed 0 0 briefLens := by
  rw [Doomed]
  decide +kernel

/-- `lit_expand_count` alone is no histogram: the code of the end of the block has an entry of
one bit that it does not count. -/
theorem decodeLengths_vectors_difference : ∃ codeHuff,
    setCodes ⟨fun i => { length := lengthOf briefClens i }⟩ codeLenCodes ⟨briefClens.count⟩ = some codeHuff ∧
    ∀ result,
      let r := decodeLengths (makeInflateHuffCodeHeader result codeHuff codeLenCodes ⟨briefClens.count⟩ codeLenCodes)
        0 (lengthsEnd 0) (lengthsEnd 0) { inp := ⟨0, 0, briefBytes, 0, briefBytes.length⟩ }
      ¬Rejects 0 r ∧ assigned (lengthsTotal 0 0) briefOps [] = some briefLens ∧
        r.2.litExpandCount 1 ≠ expandedHistogram (briefLens.take (litEnd 0)) 1 := by
  have lengths : HasLengths ⟨fun i => { length := lengthOf briefClens i }⟩ codeLenCodes briefClens := fun _ _ => rfl
  have counts : Counts ⟨briefClens.count⟩ briefClens := fun _ _ _ => rfl
  rcases setCodes_spec lengths (by decide) counts with ⟨-, excess⟩ | ⟨codeHuff, built, valid, canonical⟩
  · exact absurd excess (by decide)
  refine ⟨codeHuff, built, fun result => ?_⟩
  have finds : FindsHeader briefClens
      (makeInflateHuffCodeHeader result codeHuff codeLenCodes ⟨briefClens.count⟩ codeLenCodes) := fun t v n views =>
    decodeNextHeader_spec valid canonical (by decide) counts views (by decide) (by decide) result
  have views := views_initial briefBytes
  rw [briefOps_bits] at views
  have run := @decodeLengths_assigned _ [] 0 0 _ _ _ finds valid rfl (Nat.zero_le 29) briefOps (lengthsEnd 0)
    (lengths_initial 0 _) briefOps_legal views (by decide) (by decide)
  rw [briefOps_assigned] at run
  rcases run with ⟨all, t, assigns, ended, put, full⟩ | ⟨-, excess⟩
  · cases assigns
    intro r
    change r = (none, t) at ended
    rw [ended]
    refine ⟨?_, briefOps_assigned, ?_⟩
    · rw [put.rejects (Nat.zero_le 29) full]
      exact briefLens_fit
    · have counted := put.vectors.lit 1 (by decide) (by decide)
      have expanded := put.vectors.expand 1 (by decide) (by decide)
      have one : expandedHistogram (briefLens.take (litEnd 0)) 1 = 1 := by decide +kernel
      have once : (briefLens.take (litEnd 0)).count 1 = 1 := by decide +kernel
      rw [if_pos (by decide), counted, once, one] at expanded
      rw [one]
      dsimp only
      omega
  · have length : briefLens.length = lengthsTotal 0 0 := by decide +kernel
    have := excess _ rfl
    omega

/-- The same sequence is put as a whole. -/
theorem decodeLengths_vectors_brief : ∃ codeHuff,
    setCodes ⟨fun i => { length := lengthOf briefClens i }⟩ codeLenCodes ⟨briefClens.count⟩ = some codeHuff ∧
    ∀ result, ¬Rejects 0
      (decodeLengths (makeInflateHuffCodeHeader result codeHuff codeLenCodes ⟨briefClens.count⟩ codeLenCodes)
        0 (lengthsEnd 0) (lengthsEnd 0) { inp := ⟨0, 0, briefBytes, 0, briefBytes.length⟩ }) := by
  have lengths : HasLengths ⟨fun i => { length := lengthOf briefClens i }⟩ codeLenCodes briefClens := fun _ _ => rfl
  have counts : Counts ⟨briefClens.count⟩ briefClens := fun _ _ _ => rfl
  rcases setCodes_spec lengths (by decide) counts with ⟨-, excess⟩ | ⟨codeHuff, built, -⟩
  · exact absurd excess (by decide)
  refine ⟨codeHuff, built, fun result => ?_⟩
  have views := views_initial briefBytes
  rw [briefOps_bits] at views
  rw [(decodeLengths_vectors lengths rfl (by decide) counts built result (Nat.zero_le 29) (Nat.zero_le 29) briefOps
    briefOps_legal (by decide) views).1, briefOps_assigned]
  rintro (none | ⟨all, same, doomed⟩)
  · cases none
  · cases same
    exact absurd doomed (by decide +kernel)

end Isal.Inflate
