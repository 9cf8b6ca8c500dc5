import Isal.BitWriter
import Isal.CodeAssignment
import Isal.HistogramCodes
import Isal.RunLengths

/-! The header of a dynamic block, as `create_header` in `huff_codes.c` writes it. -/
namespace Isal.HuffCodes
open Bits Deflate Loops PrefixCode Rfc1951

def huffLen : Nat := 19
def dynHdrStartLen : Nat := 17

def codeLengthCodeOrder : List Nat := [16, 17, 18, 0, 8, 7, 9, 6, 10, 5, 11, 4, 12, 3, 13, 2, 14, 1, 15]

/-- `code_length_code_order[i]` -/
def orderAt (i : Nat) : Nat := codeLengthCodeOrder[i]?.getD 0

/-- The symbol and its extra bits -/
def writeRlCode (lookupTable : HuffTable) (me : BitBuf2) (rl : RlCode) : BitBuf2 :=
  let me := me.writeBits (lookupTable.code rl.code) (lookupTable.length rl.code)
  if 15 < rl.code then me.writeBits rl.extraBits ([2, 3, 7][rl.code - 16]?.getD 0) else me

/-- `create_huffman_header` gives the number of bits written. -/
def createHuffmanHeader (me : BitBuf2) (lookupTable : HuffTable) (huffmanRep : List RlCode)
    (endOfBlock hclen hlit hdist : Nat) : Nat × BitBuf2 :=
  let before := me.bufferBitsUsed
  let data := (if endOfBlock ≠ 0 then 5 else 4) ||| hlit <<< 3 ||| hdist <<< 8 ||| hclen <<< 13
  let data := data ||| lookupTable.length (orderAt 0) <<< dynHdrStartLen
  let me := me.writeBits data (dynHdrStartLen + 3)
  -- there are 18 lengths of three bits at most
  let data := forDown (fun i data => data <<< 3 ||| lookupTable.length (orderAt (i + 1))) (hclen + 3) 0
  let me := me.writeBits data ((hclen + 3) * 3)
  let me := huffmanRep.foldl (writeRlCode lookupTable) me
  ((me.bufferBitsUsed + 2 ^ 32 - before) % 2 ^ 32, me)

/-- The loop `for (i = CODE_LEN_CODES - 1; i > 3; i--)` from index `i` on -/
def lastCodeLength (length : Arr Nat) : (i : Nat) → Nat
  | 0 => 0
  | i + 1 =>
    if 3 < i + 1 then
      if length (orderAt (i + 1)) ≠ 0 then i + 1 else lastCodeLength length i
    else i + 1

/-- `create_header`; `codeLenCount` is what the array holds before it is set. -/
def createHeader (codeLenCount : Arr Nat) (me : BitBuf2) (huffmanRep : List RlCode) (histogram : Arr Nat)
    (hlit hdist endOfBlock : Nat) : Option (Nat × BitBuf2) := do
  let (heapSize, m) ← initHeap64 histogram huffLen
  let (length, codeLenCount) ← genHuffCodeLens m heapSize codeLenCount (.const 0) huffLen 7
  let (_, lookupTable) := setHuffCodes { code := .const 0, length } huffLen codeLenCount
  let hclen := lastCodeLength lookupTable.length (huffLen - 1) - 3
  return createHuffmanHeader me lookupTable huffmanRep endOfBlock hclen hlit hdist

/-- What `isal_create_hufftables` does to write the header: the lengths of both codes up to their last
symbols, as one run. -/
def encodeHeader (codeLenCount : Arr Nat) (me : BitBuf2) (litLengths distLengths : Arr Nat)
    (maxLitLenSym maxDistSym endOfBlock : Nat) : Option (Nat × BitBuf2) := do
  let hlit := maxLitLenSym - 256
  let hdist := maxDistSym
  let combinedTable := (List.range (257 + hlit)).map litLengths ++ (List.range (1 + hdist)).map distLengths
  let rl ← rlEncode combinedTable
  createHeader codeLenCount me rl.out rl.counts hlit hdist endOfBlock

section

variable {clens : List Nat} {lookupTable : HuffTable} {me : BitBuf2} {start : Nat} {written : List Bool}

/-- The first field of a header, and the lengths of the code-length code in their order -/
def headerStart (endOfBlock hclen hlit hdist : Nat) (clens : List Nat) : List Bool :=
  lowBits 1 (if endOfBlock ≠ 0 then 1 else 0) ++ (lowBits 2 2 ++ (lowBits 5 hlit ++ (lowBits 5 hdist ++ (lowBits 4 hclen ++
    (List.range (hclen + 4)).flatMap fun i => lowBits 3 (lengthOf clens (orderAt i))))))

theorem orderAt_lt (i : Nat) : orderAt i < 19 := by
  rw [orderAt]
  rcases Nat.lt_or_ge i 19 with inside | beyond
  · exact (by decide : ∀ i < 19, codeLengthCodeOrder[i]?.getD 0 < 19) i inside
  · rw [List.getElem?_eq_none (show codeLengthCodeOrder.length ≤ i from beyond)]
    decide

/-- Fields from the last one down give a number that has the first one lowest. -/
theorem forDown_fields {f : Nat → Nat} {width : Nat} (small : ∀ i, f i < 2 ^ 3) (n : Nat) {data : Nat}
    (narrow : data < 2 ^ width) :
    forDown (fun i data => data <<< 3 ||| f i) n data < 2 ^ (3 * n + width) ∧
      lowBits (3 * n + width) (forDown (fun i data => data <<< 3 ||| f i) n data) =
        ((List.range n).flatMap fun i => lowBits 3 (f i)) ++ lowBits width data := by
  induction n generalizing data width with
  | zero =>
    rw [Nat.mul_zero, Nat.zero_add]
    exact ⟨narrow, rfl⟩
  | succ n ih =>
    have joined : data <<< 3 ||| f n = f n + 2 ^ 3 * data := by
      rw [Nat.lor_comm, or_shiftLeft (small n)]
    have sum : 3 * (n + 1) + width = 3 * n + (3 + width) := by omega
    rw [forDown, sum, joined]
    obtain ⟨bound, fields⟩ := ih (add_shifted_lt (small n) narrow)
    refine ⟨bound, ?_⟩
    rw [fields, lowBits_add 3 (small n), List.range_succ, List.flatMap_append, List.append_assoc]
    simp

/-- The number that the first field is written as -/
theorem startField_eq (endOfBlock first : Nat) {hclen hlit hdist : Nat} (small : hlit < 32) (small' : hdist < 32) (small'' : hclen < 16) :
    (if endOfBlock ≠ 0 then 5 else 4) ||| hlit <<< 3 ||| hdist <<< 8 ||| hclen <<< 13 ||| first <<< 17 =
      (if endOfBlock ≠ 0 then 1 else 0) + 2 ^ 1 * (2 + 2 ^ 2 * (hlit + 2 ^ 5 * (hdist + 2 ^ 5 * (hclen + 2 ^ 4 * first)))) := by
  have kind : (if endOfBlock ≠ 0 then 5 else 4) = 4 + (if endOfBlock ≠ 0 then 1 else 0) := by
    split <;> rfl
  have bit : (if endOfBlock ≠ 0 then 1 else 0) < 2 := by
    split <;> decide
  rw [kind]
  generalize (if endOfBlock ≠ 0 then 1 else 0) = final at bit
  have withHlit : 4 + final ||| hlit <<< 3 = 4 + final + 2 ^ 3 * hlit := or_shiftLeft (by omega) hlit
  rw [withHlit, or_shiftLeft (by omega : 4 + final + 2 ^ 3 * hlit < 2 ^ 8),
    or_shiftLeft (by omega : 4 + final + 2 ^ 3 * hlit + 2 ^ 8 * hdist < 2 ^ 13),
    or_shiftLeft (by omega : 4 + final + 2 ^ 3 * hlit + 2 ^ 8 * hdist + 2 ^ 13 * hclen < 2 ^ 17)]
  omega

/-- The first two fields -/
theorem startField_bits {endOfBlock hclen hlit hdist : Nat} (small : hlit < 32) (small' : hdist < 32) (small'' : hclen < 16) :
    lowBits 20 ((if endOfBlock ≠ 0 then 1 else 0) + 2 ^ 1 * (2 + 2 ^ 2 * (hlit + 2 ^ 5 * (hdist + 2 ^ 5 *
        (hclen + 2 ^ 4 * lengthOf clens (orderAt 0)))))) ++
      ((List.range (hclen + 3)).flatMap fun i => lowBits 3 (lengthOf clens (orderAt (i + 1)))) =
        headerStart endOfBlock hclen hlit hdist clens := by
  have bit : (if endOfBlock ≠ 0 then 1 else 0) < 2 ^ 1 := by
    split <;> decide
  have first : (List.range (hclen + 3 + 1)).flatMap (fun i => lowBits 3 (lengthOf clens (orderAt i))) =
      lowBits 3 (lengthOf clens (orderAt 0)) ++
        (List.range (hclen + 3)).flatMap fun i => lowBits 3 (lengthOf clens (orderAt (i + 1))) := by
    rw [List.range_succ_eq_map, List.flatMap_cons, List.flatMap_map]
  rw [show 20 = 1 + (2 + (5 + (5 + (4 + 3)))) from rfl, lowBits_add 1 bit, lowBits_add 2 (by decide), lowBits_add 5 small,
    lowBits_add 5 small', lowBits_add 4 small'', headerStart, first]
  simp only [List.append_assoc]

/-- Each code stands in the stream with its extra bits. -/
theorem writeRlCode_written (canonical : Canonical clens lookupTable 19) (brief : ∀ n ∈ clens, n ≤ 7) {rl : RlCode}
    (fits : rl.Fits) (coded : lengthOf clens rl.code ≠ 0) (holds : me.Written start written) :
    (writeRlCode lookupTable me rl).Written start (written ++ rl.symbol.bits clens) := by
  have length := canonical.length rl.code fits.code
  have short : lengthOf clens rl.code ≤ 7 := by
    rw [lengthOf_eq (used_lt coded)]
    exact brief _ (List.getElem_mem (used_lt coded))
  have code := holds.writeBits (lookupTable.code rl.code) (lookupTable.length rl.code) (by
    rw [canonical.code rl.code fits.code coded, length]
    exact revBits_lt _ _) (by omega)
  rw [canonical.code rl.code fits.code coded, length, lowBits_revBits] at code
  have narrow := fits.narrow
  have inside := fits.code
  rw [writeRlCode, canonical.code rl.code fits.code coded, length]
  by_cases extra : 15 < rl.code
  · rw [if_pos extra]
    have width : [2, 3, 7][rl.code - 16]?.getD 0 = rl.symbol.extraBits := by
      rw [LengthSymbol.extraBits, RlCode.symbol]
      rcases (by omega : rl.code = 16 ∨ rl.code = 17 ∨ rl.code = 18) with here | here | here <;> simp [here]
    have few : rl.symbol.extraBits ≤ 56 := by
      rw [LengthSymbol.extraBits]
      split_ifs <;> omega
    rw [width]
    have both := code.writeBits _ _ narrow few
    rw [List.append_assoc] at both
    exact both
  · rw [if_neg extra]
    have none_ : rl.symbol.extraBits = 0 := by
      rw [LengthSymbol.extraBits, RlCode.symbol]
      dsimp only
      rw [if_neg (by omega), if_neg (by omega), if_neg (by omega)]
    rw [LengthSymbol.bits, none_, List.range_zero, List.map_nil, List.append_nil]
    exact code

theorem writeRlCodes_written (canonical : Canonical clens lookupTable 19) (brief : ∀ n ∈ clens, n ≤ 7) (rep : List RlCode)
    (fits : ∀ rl ∈ rep, rl.Fits) (coded : ∀ rl ∈ rep, lengthOf clens rl.code ≠ 0) (holds : me.Written start written) :
    (rep.foldl (writeRlCode lookupTable) me).Written start (written ++ rep.flatMap fun rl => rl.symbol.bits clens) := by
  induction rep generalizing me written with
  | nil =>
    rw [List.flatMap_nil, List.append_nil]
    exact holds
  | cons rl rep ih =>
    have first := writeRlCode_written canonical brief (fits rl (List.mem_cons_self ..)) (coded rl (List.mem_cons_self ..)) holds
    rw [List.foldl_cons, List.flatMap_cons, ← List.append_assoc]
    exact ih (fun rl member => fits rl (List.mem_cons_of_mem _ member))
      (fun rl member => coded rl (List.mem_cons_of_mem _ member)) first

/-- The whole header -/
theorem createHuffmanHeader_written (canonical : Canonical clens lookupTable 19) (brief : ∀ n ∈ clens, n ≤ 7)
    (rep : List RlCode) (fits : ∀ rl ∈ rep, rl.Fits) (coded : ∀ rl ∈ rep, lengthOf clens rl.code ≠ 0) (endOfBlock : Nat)
    {hclen hlit hdist : Nat} (few : hclen < 16) (small : hlit < 32) (small' : hdist < 32) (holds : me.Written start written) :
    ∃ count me', createHuffmanHeader me lookupTable rep endOfBlock hclen hlit hdist = (count, me') ∧
      me'.Written start (written ++ (headerStart endOfBlock hclen hlit hdist clens ++ rep.flatMap fun rl => rl.symbol.bits clens)) ∧
      count = (headerStart endOfBlock hclen hlit hdist clens ++ rep.flatMap fun rl => rl.symbol.bits clens).length % 2 ^ 32 := by
  have narrow : ∀ i, lengthOf clens i < 2 ^ 3 := by
    intro i
    by_cases used : lengthOf clens i = 0
    · rw [used]
      decide
    · rw [lengthOf_eq (used_lt used)]
      exact Nat.lt_succ_of_le (brief _ (List.getElem_mem (used_lt used)))
  have lengths : ∀ i, lookupTable.length (orderAt i) = lengthOf clens (orderAt i) := fun i => canonical.length _ (orderAt_lt i)
  have start := startField_eq endOfBlock (lengthOf clens (orderAt 0)) small small' few
  have written₁ := holds.writeBits ((if endOfBlock ≠ 0 then 1 else 0) + 2 ^ 1 * (2 + 2 ^ 2 * (hlit + 2 ^ 5 * (hdist +
    2 ^ 5 * (hclen + 2 ^ 4 * lengthOf clens (orderAt 0)))))) 20 (by
      have := narrow (orderAt 0)
      have bit : (if endOfBlock ≠ 0 then 1 else 0) < 2 := by
        split <;> decide
      omega) (by decide)
  obtain ⟨bound, fields⟩ := forDown_fields (fun i => narrow (orderAt (i + 1))) (hclen + 3) (Nat.two_pow_pos 0)
  have written₂ := written₁.writeBits _ ((hclen + 3) * 3) (by rwa [Nat.add_zero, Nat.mul_comm] at bound) (by omega)
  rw [Nat.add_zero, Nat.mul_comm] at fields
  have written₃ := writeRlCodes_written canonical brief rep fits coded written₂
  have split : written ++ lowBits 20 ((if endOfBlock ≠ 0 then 1 else 0) + 2 ^ 1 * (2 + 2 ^ 2 * (hlit + 2 ^ 5 * (hdist +
      2 ^ 5 * (hclen + 2 ^ 4 * lengthOf clens (orderAt 0)))))) ++
      lowBits ((hclen + 3) * 3) (forDown (fun i data => data <<< 3 ||| lengthOf clens (orderAt (i + 1))) (hclen + 3) 0) =
        written ++ headerStart endOfBlock hclen hlit hdist clens := by
    have none_ : lowBits 0 0 = [] := rfl
    rw [fields, none_, List.append_nil, List.append_assoc, startField_bits small small' few]
  rw [split, List.append_assoc] at written₃
  refine ⟨_, _, rfl, ?_, ?_⟩
  · simp only [lengths, dynHdrStartLen]
    rw [start]
    exact written₃
  · have used := holds.bufferBitsUsed
    have used' := written₃.bufferBitsUsed
    simp only [lengths, dynHdrStartLen]
    rw [start, used, used', List.length_append]
    omega

end
end Isal.HuffCodes
