import Isal.HeaderWriter

/-! What is read back from a header that has been written: the lengths that went into it. -/
namespace Isal.PrefixCode

/-- The same share of the longer strings -/
theorem kraft_scale {lens : List Nat} {depth depth' : Nat} (bounded : ∀ n ∈ lens, n ≤ depth) (longer : depth ≤ depth') :
    kraft lens depth' = 2 ^ (depth' - depth) * kraft lens depth := by
  induction lens with
  | nil => simp [kraft]
  | cons n lens ih =>
    have tail := ih fun n member => bounded n (List.mem_cons_of_mem _ member)
    have upTo := bounded n (List.mem_cons_self ..)
    rw [kraft, kraft] at tail ⊢
    by_cases used : n ≠ 0
    · rw [List.filter_cons_of_pos (by simpa using used), List.map_cons, List.map_cons, List.sum_cons, List.sum_cons, tail,
        Nat.mul_add, ← Nat.pow_add]
      congr 2
      omega
    · rw [List.filter_cons_of_neg (by simpa using used)]
      exact tail

/-- A longer limit -/
theorem Valid.longer {lens : List Nat} {depth depth' : Nat} (valid : Valid lens depth) (longer : depth ≤ depth') :
    Valid lens depth' := by
  refine ⟨fun n member => Nat.le_trans (valid.bounded n member) longer, ?_⟩
  rw [kraft_scale valid.bounded longer]
  calc 2 ^ (depth' - depth) * kraft lens depth ≤ 2 ^ (depth' - depth) * 2 ^ depth := Nat.mul_le_mul_left _ valid.kraft_le
    _ = 2 ^ depth' := by rw [← Nat.pow_add, Nat.sub_add_cancel longer]

/-- A codeword is decoded as its symbol. -/
theorem Valid.decodeSym_codeword {lens : List Nat} {depth limit s : Nat} (valid : Valid lens depth) (legal : s < limit)
    (used : lengthOf lens s ≠ 0) (rest : List Bool) : decodeSym lens limit (codeword lens s ++ rest) = .ok s rest := by
  obtain ⟨found, enough⟩ := matches_of_prefix used (List.prefix_append (codeword lens s) rest)
  rw [valid.decodeSym_ok legal found enough, List.drop_left' (by rw [codeword, Bits.msbBits_length])]

end Isal.PrefixCode

namespace Isal.Rfc1951
open Bits HuffCodes PrefixCode

theorem num_lowBits {width value : Nat} (small : value < 2 ^ width) (rest : List Bool) :
    num width (lowBits width value ++ rest) = .ok value rest := by
  have length := lowBits_length width value
  rw [num, if_neg (by rw [List.length_append]; omega), List.take_left' length, List.drop_left' length,
    bitsVal_lowBits_of_lt small]

theorem nums_lowBits {width : Nat} (values : List Nat) (small : ∀ value ∈ values, value < 2 ^ width) (rest : List Bool) :
    nums width values.length (values.flatMap (lowBits width) ++ rest) = .ok values rest := by
  induction values with
  | nil => rfl
  | cons value values ih =>
    rw [List.flatMap_cons, List.append_assoc, List.length_cons, nums,
      bind_ok (num_lowBits (small value (List.mem_cons_self ..)) _),
      bind_ok (ih fun value member => small value (List.mem_cons_of_mem _ member))]
    rfl

/-- The symbols of the code-length code and their extra bits, one after the other -/
theorem readLengths_expand {clens : List Nat} {depth total : Nat} (valid : Valid clens depth) (nineteen : clens.length = 19)
    (ops : List LengthSymbol) (legal : ∀ op ∈ ops, op.Legal clens) {lens all : List Nat} (fuel : Nat)
    (stands : expand ops lens = some all) (complete : all.length = total) (enough : total < lens.length + fuel)
    (rest : List Bool) :
    readLengths clens total fuel lens (ops.flatMap (·.bits clens) ++ rest) = .ok all rest := by
  induction ops generalizing lens fuel with
  | nil =>
    rw [expand_nil, Option.some.injEq] at stands
    subst stands
    obtain ⟨fuel, rfl⟩ : ∃ f, fuel = f + 1 := ⟨fuel - 1, by omega⟩
    rw [readLengths, if_neg (by omega), if_pos complete]
    rfl
  | cons op ops ih =>
    rw [expand_cons] at stands
    obtain ⟨more, assigns, stands⟩ := Option.bind_eq_some_iff.mp stands
    have grows := Inflate.assign_length assigns
    have upTo := expand_length stands
    have positive := size_pos op
    obtain ⟨fuel, rfl⟩ : ∃ f, fuel = f + 1 := ⟨fuel - 1, by omega⟩
    have legal_ := legal op (List.mem_cons_self ..)
    have after := ih (fun op member => legal op (List.mem_cons_of_mem _ member)) fuel stands (by omega)
    have inside : op.symbol < 19 := by
      rw [← nineteen]
      exact used_lt legal_.coded
    have code : decodeSym clens 19 (codeword clens op.symbol ++
        (lowBits op.extraBits op.extra ++ (ops.flatMap (·.bits clens) ++ rest))) =
          .ok op.symbol (lowBits op.extraBits op.extra ++ (ops.flatMap (·.bits clens) ++ rest)) :=
      valid.decodeSym_codeword inside legal_.coded _
    have extra : num op.extraBits (lowBits op.extraBits op.extra ++ (ops.flatMap (·.bits clens) ++ rest)) =
        .ok op.extra (ops.flatMap (·.bits clens) ++ rest) := num_lowBits legal_.narrow _
    have split : (op :: ops).flatMap (·.bits clens) ++ rest =
        codeword clens op.symbol ++ (lowBits op.extraBits op.extra ++ (ops.flatMap (·.bits clens) ++ rest)) := by
      rw [List.flatMap_cons, LengthSymbol.bits, List.append_assoc, List.append_assoc]
      rfl
    rw [split, readLengths, if_neg (by omega), if_neg (by omega), bind_ok code]
    rw [LengthSymbol.assign] at assigns
    by_cases literal : op.symbol < 16
    · rw [if_pos literal, Option.some.injEq] at assigns
      have none_ : op.extraBits = 0 := by
        rw [LengthSymbol.extraBits, if_neg (by omega), if_neg (by omega), if_neg (by omega)]
      rw [if_pos literal, assigns, none_]
      exact after
    rw [if_neg literal] at assigns ⊢
    have size : op.symbol ≠ 18 → op.size = 3 + op.extra := fun other => by
      rw [LengthSymbol.size, if_neg literal, if_neg other]
    by_cases sixteen : op.symbol = 16
    · rw [if_pos sixteen] at assigns ⊢
      obtain ⟨previous, last, rfl⟩ := Option.map_eq_some_iff.mp assigns
      have two : op.extraBits = 2 := if_pos sixteen
      rw [two] at extra ⊢
      rw [size (by omega)] at after
      rw [last]
      dsimp only
      rw [bind_ok extra]
      exact after
    rw [if_neg sixteen, Option.some.injEq] at assigns
    rw [if_neg sixteen, ← assigns] at *
    by_cases seventeen : op.symbol = 17
    · have three : op.extraBits = 3 := by
        rw [LengthSymbol.extraBits, if_neg sixteen, if_pos seventeen]
      rw [three] at extra ⊢
      rw [size (by omega)] at after
      rw [if_pos seventeen, bind_ok extra]
      exact after
    · have eighteen : op.symbol = 18 := by omega
      have seven : op.extraBits = 7 := by
        rw [LengthSymbol.extraBits, if_neg sixteen, if_neg seventeen, if_pos eighteen]
      have many : op.size = 11 + op.extra := by
        rw [LengthSymbol.size, if_neg literal, if_pos eighteen]
      rw [seven] at extra ⊢
      rw [many] at after
      rw [if_neg seventeen, bind_ok extra]
      exact after

theorem codeLengthCode_given {clens : List Nat} (nineteen : clens.length = 19) {n : Nat}
    (zeros : ∀ i, n ≤ i → i < 19 → lengthOf clens (orderAt i) = 0) :
    codeLengthCode ((List.range n).map fun i => lengthOf clens (orderAt i)) = clens := by
  have place : ∀ sym < 19, codeLengthOrder.idxOf sym < 19 ∧ orderAt (codeLengthOrder.idxOf sym) = sym := by decide
  apply List.ext_getElem
  · rw [codeLengthCode, List.length_map, List.length_range, nineteen]
  · intro sym inside inside'
    have length : clens[sym] = lengthOf clens sym := (lengthOf_eq inside').symm
    obtain ⟨index, same⟩ := place sym (by omega)
    simp only [codeLengthCode, List.getElem_map, List.getElem_range, length]
    by_cases listed : codeLengthOrder.idxOf sym < n
    · rw [List.getElem?_map, List.getElem?_range listed]
      simp [same]
    · have zero := zeros _ (Nat.le_of_not_lt listed) index
      rw [same] at zero
      rw [List.getElem?_eq_none (by simp; omega), zero]
      rfl

/-- A header of a dynamic block is read back. -/
theorem readBlock_headerStart {clens : List Nat} (valid : Valid clens 7) (nineteen : clens.length = 19)
    (coded : ∃ n ∈ clens, n ≠ 0) {hclen hlit hdist : Nat} (few : hclen < 16) (litLegal : hlit ≤ 29) (distLegal : hdist ≤ 29)
    (zeros : ∀ i, hclen + 4 ≤ i → i < 19 → lengthOf clens (orderAt i) = 0) (ops : List LengthSymbol)
    (legal : ∀ op ∈ ops, op.Legal clens) {all : List Nat} (stands : expand ops [] = some all)
    (complete : all.length = hlit + 257 + (hdist + 1)) (hasEnd : lengthOf (all.take (hlit + 257)) 256 ≠ 0)
    (litValid : oversubscribed (all.take (hlit + 257)) = false) (distValid : oversubscribed (all.drop (hlit + 257)) = false)
    (endOfBlock : Nat) (rest : List Bool) :
    readBlock (headerStart endOfBlock hclen hlit hdist clens ++ (ops.flatMap (·.bits clens) ++ rest)) =
      .ok (decide (endOfBlock ≠ 0), .coded ⟨all.take (hlit + 257), all.drop (hlit + 257)⟩) rest := by
  have bit : (if endOfBlock ≠ 0 then 1 else 0) < 2 ^ 1 := by
    split <;> decide
  have narrow : ∀ value ∈ (List.range (hclen + 4)).map (fun i => lengthOf clens (orderAt i)), value < 2 ^ 3 := by
    intro value member
    obtain ⟨i, -, rfl⟩ := List.mem_map.mp member
    have := valid.length_le (orderAt i)
    omega
  have given := nums_lowBits _ narrow (ops.flatMap (·.bits clens) ++ rest)
  rw [List.length_map, List.length_range, List.flatMap_map] at given
  have lengths := readLengths_expand valid nineteen ops legal (hlit + 257 + (hdist + 1) + 1) stands complete
    (by rw [List.length_nil]; omega) rest
  have some_ : clens.all (· = 0) = false := by
    obtain ⟨n, member, used⟩ := coded
    rw [List.all_eq_false]
    exact ⟨n, member, by simpa using used⟩
  have notOver : oversubscribed clens = false := by
    have bounded : ∀ n ∈ clens, n ≤ 7 := valid.bounded
    have scaled := kraft_scale bounded (by decide : 7 ≤ 15)
    have := valid.kraft_le
    rw [oversubscribed, decide_eq_false_iff_not, scaled]
    omega
  have codes : readCodes hlit hdist hclen
      (((List.range (hclen + 4)).flatMap fun i => lowBits 3 (lengthOf clens (orderAt i))) ++
        (ops.flatMap (·.bits clens) ++ rest)) = .ok ⟨all.take (hlit + 257), all.drop (hlit + 257)⟩ rest := by
    rw [readCodes, bind_ok given, codeLengthCode_given nineteen zeros, some_, notOver]
    simp only [Bool.or_self, Bool.false_eq_true, if_false]
    rw [bind_ok lengths, litValid, distValid, decide_eq_false hasEnd]
    rfl
  have dynamic : readDynamic (lowBits 5 hlit ++ (lowBits 5 hdist ++ (lowBits 4 hclen ++
      (((List.range (hclen + 4)).flatMap fun i => lowBits 3 (lengthOf clens (orderAt i))) ++
        (ops.flatMap (·.bits clens) ++ rest))))) = .ok ⟨all.take (hlit + 257), all.drop (hlit + 257)⟩ rest := by
    rw [readDynamic, bind_ok (num_lowBits (by omega) _), bind_ok (num_lowBits (by omega) _), bind_ok (num_lowBits few _),
      if_neg (by omega)]
    exact codes
  rw [headerStart]
  simp only [List.append_assoc]
  rw [readBlock, bind_ok (num_lowBits bit _), bind_ok (num_lowBits (by decide : 2 < 2 ^ 2) _), readKind, if_neg (by decide),
    if_neg (by decide), if_pos rfl]
  have block : (do return Block.coded (← readDynamic) : Get Block) (lowBits 5 hlit ++ (lowBits 5 hdist ++ (lowBits 4 hclen ++
      (((List.range (hclen + 4)).flatMap fun i => lowBits 3 (lengthOf clens (orderAt i))) ++
        (ops.flatMap (·.bits clens) ++ rest))))) = .ok (.coded ⟨all.take (hlit + 257), all.drop (hlit + 257)⟩) rest :=
    bind_ok dynamic
  rw [bind_ok block]
  by_cases final : endOfBlock ≠ 0
  · rw [if_pos final]
    simp [pure_eq, final]
  · rw [if_neg final]
    simp [pure_eq, final]

end Isal.Rfc1951

namespace Isal.HuffCodes
open Bits Deflate PrefixCode Rfc1951

theorem lastCodeLength_spec (length : Arr Nat) {i : Nat} (low : 3 ≤ i) :
    3 ≤ lastCodeLength length i ∧ lastCodeLength length i ≤ i ∧
      ∀ j, lastCodeLength length i < j → j ≤ i → length (orderAt j) = 0 := by
  induction i with
  | zero => omega
  | succ i ih =>
    rw [lastCodeLength]
    by_cases more : 3 < i + 1
    · rw [if_pos more]
      by_cases used : length (orderAt (i + 1)) ≠ 0
      · rw [if_pos used]
        exact ⟨low, le_refl _, fun j after upTo => by omega⟩
      · rw [if_neg used]
        obtain ⟨low', high, zeros⟩ := ih (by omega)
        refine ⟨low', by omega, ?_⟩
        intro j after upTo
        rcases Nat.lt_succ_iff_lt_or_eq.mp (Nat.lt_succ_of_le upTo) with before | rfl
        · exact zeros j after (by omega)
        · exact not_not.mp used
    · rw [if_neg more]
      exact ⟨low, le_refl _, fun j after upTo => by omega⟩

theorem included_of_chosen {chosen : Nat → Bool} {histogram : Arr Nat} {histSize s : Nat}
    (member : s ∈ (Finset.range histSize).filter fun s => chosen s) : s ∈ includedSymbols chosen histogram histSize := by
  rw [includedSymbols]
  by_cases few : ((Finset.range histSize).filter fun s => chosen s).card < 2
  · have some_ : ((Finset.range histSize).filter fun s => chosen s).card ≠ 0 := Finset.card_ne_zero_of_mem member
    rw [if_pos few, if_neg some_]
    exact Finset.mem_insert_of_mem member
  · rw [if_neg few]
    exact member

/-- The counts of a complete code are those that the code assignment goes by. -/
theorem CompleteCode.tallied {symbols : Finset Nat} {limit count : Nat} {codes blCount : Arr Nat}
    (code : CompleteCode symbols limit count codes blCount) (inside : ∀ s ∈ symbols, s < count) :
    Tallied blCount ((List.range count).map codes) limit := by
  refine ⟨code.zero, ?_⟩
  intro l low high
  have same : symbols.filter (fun s => codes s = l) = (Finset.range count).filter fun s => codes s = l := by
    ext s
    rw [Finset.mem_filter, Finset.mem_filter, Finset.mem_range]
    constructor
    · intro both
      exact ⟨inside s both.1, both.2⟩
    · intro both
      refine ⟨?_, both.2⟩
      by_contra outside
      have := code.others s both.1 outside
      omega
  rw [code.counts l low high, same, List.count, List.countP_map, List.countP_eq_length_filter]
  exact congrArg List.length (List.filter_congr fun s _ => (beq_eq_decide (codes s) l).symm)

section

variable {me : BitBuf2} {start : Nat} {written : List Bool} {s : RlCodes} {codes : List Nat}

/-- The code for the run-length codes, and the header that it and they make up -/
theorem createHeader_written (codeLenCount : Arr Nat) (encodes : Encodes s codes) {hlit hdist : Nat} (small : hlit < 32)
    (small' : hdist < 32) (endOfBlock : Nat) (holds : me.Written start written) :
    ∃ clens hclen count me', Valid clens 7 ∧ clens.length = 19 ∧ (∃ n ∈ clens, n ≠ 0) ∧ hclen < 16 ∧
      (∀ i, hclen + 4 ≤ i → i < 19 → lengthOf clens (orderAt i) = 0) ∧
      (∀ rl ∈ s.out, lengthOf clens rl.code ≠ 0) ∧
      createHeader codeLenCount me s.out s.counts hlit hdist endOfBlock = some (count, me') ∧
      me'.Written start (written ++
        (headerStart endOfBlock hclen hlit hdist clens ++ s.out.flatMap fun rl => rl.symbol.bits clens)) ∧
      count = (headerStart endOfBlock hclen hlit hdist clens ++ s.out.flatMap fun rl => rl.symbol.bits clens).length %
        2 ^ 32 := by
  have usual : Usual (fun i => s.counts i ≠ 0) s.counts huffLen := Or.inr fun i _ => by simp
  obtain ⟨heapSize, m, root, m', result, -, size, -, lengths⟩ :=
    histogram_code usual (by decide) (by decide : 7 < 2 ^ 8) codeLenCount (.const 0) huffLen
  have inside : ∀ i ∈ includedSymbols (fun i => s.counts i ≠ 0) s.counts huffLen, i < huffLen := by
    intro i member
    have := included_lt member
    rw [huffLen] at this ⊢
    omega
  have few : heapSize ≤ 2 ^ 7 := by
    have upTo := Finset.card_le_card fun i member => Finset.mem_range.mpr (inside i member)
    rw [Finset.card_range, ← size, huffLen] at upTo
    omega
  obtain ⟨length, blCount, generated, code, -⟩ := lengths few
  have valid := code.valid inside
  have canonical : Canonical ((List.range huffLen).map length)
      (setHuffCodes { code := .const 0, length } huffLen blCount).2 huffLen :=
    setHuffCodes_canonical valid (by decide) (code.tallied inside) fun i below => (lengthOf_range length below).symm
  obtain ⟨low, high, zeros⟩ := lastCodeLength_spec length (by decide : 3 ≤ huffLen - 1)
  have hclen : lastCodeLength length (huffLen - 1) - 3 < 16 := by
    rw [huffLen] at high ⊢
    omega
  have coded : ∀ rl ∈ s.out, lengthOf ((List.range huffLen).map length) rl.code ≠ 0 := by
    intro rl member
    have fits := encodes.fits rl member
    have occurs : s.counts rl.code ≠ 0 := by
      rw [encodes.counts]
      exact (List.count_pos_iff.mpr (List.mem_map_of_mem member)).ne'
    have included : rl.code ∈ includedSymbols (fun i => s.counts i ≠ 0) s.counts huffLen :=
      included_of_chosen (mem_chosen.mpr ⟨fits.code, by simpa using occurs⟩)
    have := (code.within rl.code included).1
    rw [lengthOf_range length (show rl.code < huffLen from fits.code)]
    omega
  obtain ⟨count, me', result', written', total⟩ :=
    createHuffmanHeader_written canonical valid.bounded s.out encodes.fits coded endOfBlock hclen small small' holds
  refine ⟨(List.range huffLen).map length, lastCodeLength length (huffLen - 1) - 3, count, me', valid, ?_, ?_, hclen, ?_, coded, ?_,
    written', total⟩
  · rw [List.length_map, List.length_range]
    rfl
  · obtain ⟨i, member⟩ : (includedSymbols (fun i => s.counts i ≠ 0) s.counts huffLen).Nonempty := by
      rw [← Finset.card_pos]
      have := two_le_included usual
      omega
    have := (code.within i member).1
    exact ⟨length i, List.mem_map_of_mem (List.mem_range.mpr (inside i member)), by omega⟩
  · intro i after below
    rw [lengthOf_range length (show orderAt i < huffLen from orderAt_lt i)]
    exact zeros i (by omega) (by rw [huffLen]; omega)
  · rw [createHeader, initHeap64, result]
    simp only [Option.bind_eq_bind, Option.bind_some]
    rw [generated, Option.bind_some]
    exact congrArg some result'

theorem headerStart_length (endOfBlock hclen hlit hdist : Nat) (clens : List Nat) :
    (headerStart endOfBlock hclen hlit hdist clens).length = 17 + 3 * (hclen + 4) := by
  have fields : ((List.range (hclen + 4)).flatMap fun i => lowBits 3 (lengthOf clens (orderAt i))).length = 3 * (hclen + 4) := by
    simp [List.length_flatMap, Nat.mul_comm]
  simp only [headerStart, List.length_append, lowBits_length]
  omega

/-- No symbol takes more bits than seven for each length that it stands for. -/
theorem bits_length_le {clens : List Nat} (valid : Valid clens 7) (op : LengthSymbol) :
    (op.bits clens).length ≤ 7 * op.size := by
  have short := valid.length_le op.symbol
  have length : (op.bits clens).length = lengthOf clens op.symbol + op.extraBits := by
    rw [LengthSymbol.bits, List.length_append, codeword, msbBits_length, List.length_map, List.length_range]
  rw [length, LengthSymbol.extraBits, LengthSymbol.size]
  split_ifs <;> omega

theorem flatMap_bits_length_le {clens : List Nat} (valid : Valid clens 7) (ops : List LengthSymbol) :
    (ops.flatMap (·.bits clens)).length ≤ 7 * (ops.map (·.size)).sum := by
  induction ops with
  | nil => exact le_refl 0
  | cons op ops ih =>
    have first := bits_length_le valid op
    rw [List.flatMap_cons, List.length_append, List.map_cons, List.sum_cons]
    omega

/-- The lengths up to the last symbol use no more of the code space than all of them. -/
theorem kraft_range_le (lengths : Nat → Nat) {count count' : Nat} (fewer : count ≤ count') (depth : Nat) :
    kraft ((List.range count).map lengths) depth ≤ kraft ((List.range count').map lengths) depth := by
  rw [kraft_range, kraft_range]
  apply Finset.sum_le_sum_of_subset
  apply Finset.filter_subset_filter
  exact Finset.range_mono fewer

theorem not_oversubscribed_range {lengths : Nat → Nat} {count count' : Nat} (valid : Valid ((List.range count').map lengths) 15)
    (fewer : count ≤ count') : oversubscribed ((List.range count).map lengths) = false := by
  have upTo := Nat.le_trans (kraft_range_le lengths fewer 15) valid.kraft_le
  rw [oversubscribed, decide_eq_false_iff_not]
  omega

end

/-- The header for the lengths of two codes, and what the reference decoder makes of it if there is an
end of block -/
theorem encodeHeader_read (lit dist : Arr Nat) (litValid : Valid ((List.range 286).map lit) 15)
    (distValid : Valid ((List.range 30).map dist) 15) (maxLitLenSym maxDistSym : Nat) (low : 256 ≤ maxLitLenSym)
    (high : maxLitLenSym < 286) (inside : maxDistSym < 30) (codeLenCount : Arr Nat) {me : BitBuf2} {start : Nat}
    {written : List Bool} (holds : me.Written start written) (endOfBlock : Nat) :
    ∃ count me' bits, encodeHeader codeLenCount me lit dist maxLitLenSym maxDistSym endOfBlock = some (count, me') ∧
      me'.Written start (written ++ bits) ∧ count = bits.length ∧ count ≤ 2286 ∧
      (lit 256 ≠ 0 → ∀ rest, readBlock (bits ++ rest) = .ok (decide (endOfBlock ≠ 0),
        .coded ⟨(List.range (maxLitLenSym + 1)).map lit, (List.range (maxDistSym + 1)).map dist⟩) rest) := by
  obtain ⟨hlit, rfl⟩ : ∃ hlit, maxLitLenSym = hlit + 256 := ⟨maxLitLenSym - 256, by omega⟩
  set combined := (List.range (hlit + 257)).map lit ++ (List.range (maxDistSym + 1)).map dist with combined_eq
  have bounded : ∀ len ∈ combined, len ≤ 15 := by
    intro len member
    rcases List.mem_append.mp member with first | second
    · obtain ⟨s, place, rfl⟩ := List.mem_map.mp first
      have := List.mem_range.mp place
      exact litValid.bounded _ (List.mem_map_of_mem (List.mem_range.mpr (by omega)))
    · obtain ⟨s, place, rfl⟩ := List.mem_map.mp second
      have := List.mem_range.mp place
      exact distValid.bounded _ (List.mem_map_of_mem (List.mem_range.mpr (by omega)))
  have total : combined.length = hlit + 257 + (maxDistSym + 1) := by simp [combined_eq]
  have some_ : combined ≠ [] := by
    intro none_
    rw [none_, List.length_nil] at total
    omega
  obtain ⟨rl, encoded, encodes⟩ := rlEncode_encodes some_ bounded
  obtain ⟨clens, hclen, count, me', valid, nineteen, coded, few, zeros, used, result, written', counted⟩ :=
    createHeader_written codeLenCount encodes (by omega : hlit < 32) (by omega : maxDistSym < 32) endOfBlock holds
  set ops := rl.out.map RlCode.symbol with ops_eq
  have symbols : (rl.out.flatMap fun rl => rl.symbol.bits clens) = ops.flatMap (·.bits clens) := by
    rw [ops_eq, List.flatMap_map]
  have short : (headerStart endOfBlock hclen hlit maxDistSym clens ++ ops.flatMap (·.bits clens)).length ≤ 2286 := by
    have sizes := expand_length encodes.stands
    have most := flatMap_bits_length_le valid ops
    rw [List.length_nil, total, ← ops_eq] at sizes
    rw [List.length_append, headerStart_length]
    omega
  rw [symbols] at written' counted
  rw [Nat.mod_eq_of_lt (by omega)] at counted
  refine ⟨count, me', _, ?_, written', counted, counted ▸ short, ?_⟩
  · rw [encodeHeader, Nat.add_sub_cancel, Nat.add_comm 257, Nat.add_comm 1, ← combined_eq, encoded]
    exact result
  · intro hasEnd rest
    have litTake : combined.take (hlit + 257) = (List.range (hlit + 257)).map lit := List.take_left' (by simp)
    have distDrop : combined.drop (hlit + 257) = (List.range (maxDistSym + 1)).map dist := List.drop_left' (by simp)
    have legal : ∀ op ∈ ops, op.Legal clens := by
      intro op member
      obtain ⟨rl', place, rfl⟩ := List.mem_map.mp member
      exact ⟨used rl' place, (encodes.fits rl' place).narrow⟩
    have read := readBlock_headerStart valid nineteen coded few (by omega) (by omega) zeros ops legal encodes.stands total (by
        rw [litTake, lengthOf_range lit (by omega)]
        exact hasEnd) (by
        rw [litTake]
        exact not_oversubscribed_range litValid (by omega)) (by
        rw [distDrop]
        exact not_oversubscribed_range distValid (by omega)) endOfBlock rest
    rw [litTake, distDrop] at read
    rw [List.append_assoc]
    exact read

/-- Dynamic header round trip: the lengths of two codes that have an end of block and a distance come
back from the header written for them, and nothing else is consumed. -/
theorem encodeHeader_roundTrip (lit dist : Arr Nat) (litValid : Valid ((List.range 286).map lit) 15)
    (distValid : Valid ((List.range 30).map dist) 15) (hasEnd : lit 256 ≠ 0) {maxLitLenSym maxDistSym : Nat}
    (litLast : IsGreatest {s | s < 286 ∧ lit s ≠ 0} maxLitLenSym)
    (distLast : IsGreatest {s | s < 30 ∧ dist s ≠ 0} maxDistSym) (codeLenCount : Arr Nat) {me : BitBuf2}
    {start : Nat} {written : List Bool} (holds : me.Written start written) (endOfBlock : Nat) :
    ∃ count me' bits, encodeHeader codeLenCount me lit dist maxLitLenSym maxDistSym endOfBlock = some (count, me') ∧
      me'.Written start (written ++ bits) ∧ count = bits.length ∧ count ≤ 8 * 328 ∧
      ∀ rest, readBlock (bits ++ rest) = .ok (decide (endOfBlock ≠ 0),
          .coded ⟨(List.range (maxLitLenSym + 1)).map lit, (List.range (maxDistSym + 1)).map dist⟩) rest ∧
        ∀ s : Inflate.InflateState, Inflate.Views s.toInStream (bitsVal (bits ++ rest)) (bits ++ rest).length →
          ∃ t, Inflate.readHeader s = (.decompOk, t) ∧ t.blockState = .coded ∧ (t.bfinal ≠ 0 ↔ endOfBlock ≠ 0) ∧
            Inflate.Tables ⟨(List.range (maxLitLenSym + 1)).map lit, (List.range (maxDistSym + 1)).map dist⟩ s.distLimit
              t.litHuffCode t.distHuffCode ∧
            Inflate.Views t.toInStream (bitsVal rest) rest.length := by
  have endUpTo : 256 ≤ maxLitLenSym := litLast.2 ⟨by decide, hasEnd⟩
  obtain ⟨count, me', bits, result, written', counted, short, reads⟩ :=
    encodeHeader_read lit dist litValid distValid _ _ endUpTo litLast.1.1 distLast.1.1 codeLenCount holds endOfBlock
  refine ⟨count, me', bits, result, written', counted, by omega, ?_⟩
  intro rest
  have read := reads hasEnd rest
  refine ⟨read, ?_⟩
  intro s views
  have spec := Inflate.readHeader_spec views
  generalize Inflate.readHeader s = r at spec
  cases spec with
  | coded final codes rest' t ok tables views' state bfinal kept =>
    rw [read] at ok
    obtain ⟨⟨rfl, rfl⟩, rfl⟩ : (decide (endOfBlock ≠ 0) = final ∧
        (⟨(List.range (maxLitLenSym + 1)).map lit, (List.range (maxDistSym + 1)).map dist⟩ : Codes) = codes) ∧
          rest = rest' := by
      simpa using ok
    exact ⟨t, rfl, state, by simpa using bfinal, tables, views'⟩
  | stored final length rest' t ok =>
    rw [read] at ok
    cases ok
  | failed t ret fails =>
    exact absurd read (fails _ _)

/-- One literal, one distance and the end of block -/
def twoLengths : Arr Nat := ⟨fun s => if s = 0 ∨ s = 256 then 1 else 0⟩

def oneLength : Arr Nat := ⟨fun s => if s = 0 then 1 else 0⟩

theorem encodeHeader_roundTrip_two :
    ∃ count me' bits, encodeHeader (.const 0) (.setBuf (.const 0) 0) twoLengths oneLength 256 0 1 = some (count, me') ∧
      me'.Written 0 ([] ++ bits) ∧ count = bits.length ∧ count ≤ 8 * 328 ∧
      ∀ rest, readBlock (bits ++ rest) = .ok (decide (1 ≠ 0),
          .coded ⟨(List.range (256 + 1)).map twoLengths, (List.range (0 + 1)).map oneLength⟩) rest ∧
        ∀ s : Inflate.InflateState, Inflate.Views s.toInStream (bitsVal (bits ++ rest)) (bits ++ rest).length →
          ∃ t, Inflate.readHeader s = (.decompOk, t) ∧ t.blockState = .coded ∧ (t.bfinal ≠ 0 ↔ 1 ≠ 0) ∧
            Inflate.Tables ⟨(List.range (256 + 1)).map twoLengths, (List.range (0 + 1)).map oneLength⟩ s.distLimit
              t.litHuffCode t.distHuffCode ∧
            Inflate.Views t.toInStream (bitsVal rest) rest.length := by
  apply encodeHeader_roundTrip twoLengths oneLength
  · exact ⟨by decide +kernel, by decide +kernel⟩
  · exact ⟨by decide, by decide⟩
  · decide
  · refine ⟨⟨by decide, by decide⟩, ?_⟩
    rintro s ⟨-, used⟩
    by_contra beyond
    exact used (if_neg (by omega))
  · refine ⟨⟨by decide, by decide⟩, ?_⟩
    rintro s ⟨-, used⟩
    by_contra beyond
    exact used (if_neg (by omega))
  · exact BitBuf2.setBuf_written _ _

end Isal.HuffCodes
