import Isal.Arr
import Isal.Loops

/-! Construction of the decoding tables: canonical codes, the literal/length code with its
length extra bits expanded into it, and the two-level lookup tables. -/
namespace Isal.Inflate

open Isal.Loops

def maxHuffTreeDepth : Nat := 15 -- MAX_HUFF_TREE_DEPTH
def litLen : Nat := 286 -- LIT_LEN
def distLen : Nat := 30 -- DIST_LEN
def codeLenCodes : Nat := 19 -- CODE_LEN_CODES
def isalDefLitSymbols : Nat := 257 -- ISAL_DEF_LIT_SYMBOLS, LIT_TABLE_SIZE
def litLenElems : Nat := 514 -- LIT_LEN_ELEMS
def maxLitLenCount : Nat := 23 -- MAX_LIT_LEN_COUNT
def maxLitLenSym : Nat := 512 -- MAX_LIT_LEN_SYM
def isalDecodeLongBits : Nat := 12 -- ISAL_DECODE_LONG_BITS
def isalDecodeShortBits : Nat := 10 -- ISAL_DECODE_SHORT_BITS
def tripleSymFlag : Nat := 0
def doubleSymFlag : Nat := 1
def singleSymFlag : Nat := 2

/-! `rfc_lookup_table` -/

def distExtraBitCount : List Nat := [
  0x00, 0x00, 0x00, 0x00, 0x01, 0x01, 0x02, 0x02, 0x03, 0x03, 0x04, 0x04, 0x05, 0x05, 0x06, 0x06,
  0x07, 0x07, 0x08, 0x08, 0x09, 0x09, 0x0a, 0x0a, 0x0b, 0x0b, 0x0c, 0x0c, 0x0d, 0x0d, 0x00, 0x00]

def distStart : List Nat := [
  0x0001, 0x0002, 0x0003, 0x0004, 0x0005, 0x0007, 0x0009, 0x000d, 0x0011, 0x0019, 0x0021, 0x0031,
  0x0041, 0x0061, 0x0081, 0x00c1, 0x0101, 0x0181, 0x0201, 0x0301, 0x0401, 0x0601, 0x0801, 0x0c01,
  0x1001, 0x1801, 0x2001, 0x3001, 0x4001, 0x6001, 0x0000, 0x0000]

def lenExtraBitCount : List Nat := [
  0x00, 0x00, 0x00, 0x00, 0x00, 0x00, 0x00, 0x00, 0x01, 0x01, 0x01, 0x01, 0x02, 0x02, 0x02, 0x02,
  0x03, 0x03, 0x03, 0x03, 0x04, 0x04, 0x04, 0x04, 0x05, 0x05, 0x05, 0x05, 0x00, 0x00, 0x00, 0x00]

def bitrevTable : List Nat := [
  0x00, 0x80, 0x40, 0xc0, 0x20, 0xa0, 0x60, 0xe0, 0x10, 0x90, 0x50, 0xd0, 0x30, 0xb0, 0x70,
  0xf0, 0x08, 0x88, 0x48, 0xc8, 0x28, 0xa8, 0x68, 0xe8, 0x18, 0x98, 0x58, 0xd8, 0x38, 0xb8,
  0x78, 0xf8, 0x04, 0x84, 0x44, 0xc4, 0x24, 0xa4, 0x64, 0xe4, 0x14, 0x94, 0x54, 0xd4, 0x34,
  0xb4, 0x74, 0xf4, 0x0c, 0x8c, 0x4c, 0xcc, 0x2c, 0xac, 0x6c, 0xec, 0x1c, 0x9c, 0x5c, 0xdc,
  0x3c, 0xbc, 0x7c, 0xfc, 0x02, 0x82, 0x42, 0xc2, 0x22, 0xa2, 0x62, 0xe2, 0x12, 0x92, 0x52,
  0xd2, 0x32, 0xb2, 0x72, 0xf2, 0x0a, 0x8a, 0x4a, 0xca, 0x2a, 0xaa, 0x6a, 0xea, 0x1a, 0x9a,
  0x5a, 0xda, 0x3a, 0xba, 0x7a, 0xfa, 0x06, 0x86, 0x46, 0xc6, 0x26, 0xa6, 0x66, 0xe6, 0x16,
  0x96, 0x56, 0xd6, 0x36, 0xb6, 0x76, 0xf6, 0x0e, 0x8e, 0x4e, 0xce, 0x2e, 0xae, 0x6e, 0xee,
  0x1e, 0x9e, 0x5e, 0xde, 0x3e, 0xbe, 0x7e, 0xfe, 0x01, 0x81, 0x41, 0xc1, 0x21, 0xa1, 0x61,
  0xe1, 0x11, 0x91, 0x51, 0xd1, 0x31, 0xb1, 0x71, 0xf1, 0x09, 0x89, 0x49, 0xc9, 0x29, 0xa9,
  0x69, 0xe9, 0x19, 0x99, 0x59, 0xd9, 0x39, 0xb9, 0x79, 0xf9, 0x05, 0x85, 0x45, 0xc5, 0x25,
  0xa5, 0x65, 0xe5, 0x15, 0x95, 0x55, 0xd5, 0x35, 0xb5, 0x75, 0xf5, 0x0d, 0x8d, 0x4d, 0xcd,
  0x2d, 0xad, 0x6d, 0xed, 0x1d, 0x9d, 0x5d, 0xdd, 0x3d, 0xbd, 0x7d, 0xfd, 0x03, 0x83, 0x43,
  0xc3, 0x23, 0xa3, 0x63, 0xe3, 0x13, 0x93, 0x53, 0xd3, 0x33, 0xb3, 0x73, 0xf3, 0x0b, 0x8b,
  0x4b, 0xcb, 0x2b, 0xab, 0x6b, 0xeb, 0x1b, 0x9b, 0x5b, 0xdb, 0x3b, 0xbb, 0x7b, 0xfb, 0x07,
  0x87, 0x47, 0xc7, 0x27, 0xa7, 0x67, 0xe7, 0x17, 0x97, 0x57, 0xd7, 0x37, 0xb7, 0x77, 0xf7,
  0x0f, 0x8f, 0x4f, 0xcf, 0x2f, 0xaf, 0x6f, 0xef, 0x1f, 0x9f, 0x5f, 0xdf, 0x3f, 0xbf, 0x7f,
  0xff]

def bitReverse2 (bits length : Nat) : Nat :=
  (bitrevTable[bits >>> 8]?.getD 0 ||| (bitrevTable[bits % 2 ^ 8]?.getD 0) <<< 8) >>> (16 - length)

/-- The bit fields of `struct huff_code`: the 24-bit code with its extra bits and the length. -/
structure HuffCode where
  codeAndExtra : Nat := 0
  length : Nat := 0
  deriving Repr, DecidableEq

/-- The 16-bit member `code` of the union, the low part of `code_and_extra`. -/
def HuffCode.code (h : HuffCode) : Nat := h.codeAndExtra % 2 ^ 16

def HuffCode.setCode (h : HuffCode) (code : Nat) : HuffCode :=
  { h with codeAndExtra := h.codeAndExtra / 2 ^ 16 * 2 ^ 16 + code }

def writeHuffCode (code length : Nat) : HuffCode := ⟨code % 2 ^ 24, length⟩

/-- `next_code` as both code assignments set it up. -/
def firstCodes (count : Arr Nat) : Arr Nat :=
  forRange 2 (maxHuffTreeDepth + 1) (fun i next => next.set i ((next (i - 1) + count (i - 1)) <<< 1)) (.const 0)

structure Assigned where
  table : Arr HuffCode
  nextCode : Arr Nat

/-- One round of the loop that calculates the code of a symbol. -/
def assignCode (i : Nat) (s : Assigned) : Assigned :=
  let length := (s.table i).length
  if length = 0 then s
  else
    { table := s.table.set i (writeHuffCode (bitReverse2 (s.nextCode length) length) length)
      nextCode := s.nextCode.set length (s.nextCode length + 1) }

/-- `set_codes`; `none` is the return value `ISAL_INVALID_BLOCK`. -/
def setCodes (table : Arr HuffCode) (tableLength : Nat) (count : Arr Nat) : Option (Arr HuffCode) :=
  let nextCode := firstCodes count
  if 1 <<< maxHuffTreeDepth < nextCode maxHuffTreeDepth + count maxHuffTreeDepth then none
  else some (forRange 0 tableLength assignCode ⟨table, nextCode⟩).table

structure PrefixCount where
  countTotal : Nat
  countTmp : Nat
  expandCount : Arr Nat

/-- One round of the loops that turn the 16-bit `expand_count` into prefix sums. -/
def accumulate (added : Nat) (i : Nat) (s : PrefixCount) : PrefixCount :=
  let countTotal := added + s.countTmp + s.countTotal
  { countTotal, countTmp := s.expandCount (i + 1)
    expandCount := s.expandCount.set (i + 1) (countTotal % 2 ^ 16) }

def accumulateCounts (count expandCount : Arr Nat) : Arr Nat :=
  let s : PrefixCount := ⟨0, expandCount 1, (expandCount.set 0 0).set 1 0⟩
  let s := forRange 1 maxHuffTreeDepth (fun i => accumulate (count i) i) s
  let s := { s with countTmp := count maxHuffTreeDepth + s.countTmp }
  (forRange maxHuffTreeDepth (maxLitLenCount - 1) (accumulate 0) s).expandCount

/-- The arrays that `set_and_expand_lit_len_huffcode` fills in. -/
structure Expansion where
  assigned : Assigned
  expandCount : Arr Nat
  codeList : Arr Nat

def expandLiteral (i : Nat) (s : Expansion) : Expansion :=
  let codeLen := (s.assigned.table i).length
  if codeLen = 0 then s
  else
    let insertIndex := s.expandCount codeLen
    { assigned := assignCode i s.assigned
      codeList := s.codeList.set insertIndex i
      expandCount := s.expandCount.set codeLen (insertIndex + 1) }

/-- One length symbol, from where its `1 << extra_count` entries go; the code is looked up
in the copy `tmp_table` of the lengths. -/
def expandLength (tmpTable : Arr HuffCode) (lenSym : Nat) : Expansion × Nat → Expansion × Nat
  | (s, expandNext) =>
    let extraCount := lenExtraBitCount[lenSym]?.getD 0
    let lenSize := 1 <<< extraCount
    let codeLen := (tmpTable lenSym).length
    if codeLen = 0 then (s, expandNext + lenSize)
    else
      let code := bitReverse2 (s.assigned.nextCode codeLen) codeLen
      let expandLen := codeLen + extraCount
      let nextCode := s.assigned.nextCode.set codeLen (s.assigned.nextCode codeLen + 1)
      let insertIndex := s.expandCount expandLen
      let expandCount := s.expandCount.set expandLen (insertIndex + lenSize)
      let entries := forRange 0 lenSize (fun extra (table, codeList) =>
        (table.set (expandNext + extra) (writeHuffCode (code ||| extra <<< codeLen) expandLen),
          codeList.set (insertIndex + extra) (expandNext + extra))) (s.assigned.table, s.codeList)
      (⟨⟨entries.1, nextCode⟩, expandCount, entries.2⟩, expandNext + lenSize)

/-- `huff_code_table`, `code_list` and `count_total` as the table constructions take them. -/
structure CodeSet where
  table : Arr HuffCode
  codeList : Arr Nat
  countTotal : Arr Nat

/-- `set_and_expand_lit_len_huffcode`; `none` is the return value `ISAL_INVALID_BLOCK`. -/
def setAndExpandLitLenHuffcode (table : Arr HuffCode) (tableLength : Nat) (count expandCount : Arr Nat) :
    Option CodeSet :=
  let nextCode := firstCodes count
  let expandCount := accumulateCounts count expandCount
  let count := if litLen < tableLength then count.set 8 ((count 8 + (2 ^ 16 - 2)) % 2 ^ 16) else count
  if 1 <<< maxHuffTreeDepth < nextCode maxHuffTreeDepth + count maxHuffTreeDepth then none
  else
    let tmpTable := table.from_ isalDefLitSymbols
    let cleared := table.fill isalDefLitSymbols (litLenElems - isalDefLitSymbols) {}
    let s : Expansion := ⟨⟨cleared, nextCode⟩, expandCount, .const 0⟩
    let s := forRange 0 isalDefLitSymbols expandLiteral s
    let s := (forRange 0 (litLen - isalDefLitSymbols) (expandLength tmpTable) (s, isalDefLitSymbols)).1
    some ⟨s.assigned.table, s.codeList, expandCount⟩

/-- A two-level table; the second level is reached through pointers in the first. -/
structure LookupTable where
  short : Arr Nat
  long : Arr Nat

/-- How one of the three table constructions writes its entries. -/
structure TableFormat where
  /-- Width of the first level. -/
  directBits : Nat
  /-- The member of the union that holds the code. -/
  code : HuffCode → Nat
  /-- What the code is set to once it has been placed. -/
  invalidCode : Nat
  mark : HuffCode → HuffCode
  /-- Entry of a symbol in the first level, if it gets one, from its length. -/
  shortEntry : (sym length : Nat) → Option Nat
  longEntry : (sym length : Nat) → Nat
  pointer : (offset maxLength : Nat) → Nat
  /-- The longest length of a group, from that so far and that of the next code. -/
  longer : Nat → Nat → Nat

/-- `memcpy(t + size, t, size)` -/
def copyForward (size : Nat) (t : Arr Nat) : Arr Nat :=
  ⟨fun i => if size ≤ i ∧ i < 2 * size then t (i - size) else t i⟩

def encodeSingletons (fmt : TableFormat) (codes : CodeSet) (lastLength : Nat) (short : Arr Nat) :
    Arr Nat :=
  forRange (codes.countTotal lastLength) (codes.countTotal (lastLength + 1)) (fun k short =>
    let sym := codes.codeList k
    match fmt.shortEntry sym (codes.table sym).length with
    | none => short
    | some entry => short.set (codes.table sym).code entry) short

/-- The first level: shorter codes are copied forward, then those of the next length and,
by `encodeMore`, their combinations are written. -/
def fillShort (fmt : TableFormat) (codes : CodeSet)
    (encodeMore : (minLength lastLength : Nat) → Arr Nat → Arr Nat) (short : Arr Nat) : Arr Nat :=
  let first := (codes.table (codes.codeList 0)).length
  let first := if fmt.directBits < first then fmt.directBits + 1 else first
  let copySize := 1 <<< (first - 1)
  (forRange first (fmt.directBits + 1) (fun lastLength (short, copySize) =>
    let short := copyForward copySize short
    let short := encodeSingletons fmt codes lastLength short
    (encodeMore first lastLength short, copySize * 2)) (short.fill 0 copySize 0, copySize)).1

structure LongState where
  table : Arr HuffCode
  lookup : LookupTable
  lookupLength : Nat

/-- The codes after `sym` in the list that share its first bits, and the longest length. -/
def collectGroup (fmt : TableFormat) (table : Arr HuffCode) (sym : Nat) (rest : List Nat) :
    Nat × List Nat :=
  let firstBits := fmt.code (table sym) % 2 ^ fmt.directBits
  rest.foldl (fun (maxLength, group) j =>
    if (table j).code % 2 ^ fmt.directBits = firstBits then
      (fmt.longer maxLength (table j).length, group ++ [j])
    else (maxLength, group)) ((table sym).length, [sym])

/-- Repeats an entry with stride `minIncrement` up to the end of its group's region. -/
def fillStride (offset size minIncrement entry longBits : Nat) (long : Arr Nat) : Arr Nat :=
  forNext size (fun longBits long => (longBits + minIncrement, long.set (offset + longBits) entry))
    size longBits long

def placeGroup (fmt : TableFormat) (offset maxLength : Nat) (group : List Nat) (s : LongState) : LongState :=
  group.foldl (fun s sym =>
    let codeLength := (s.table sym).length
    let long := fillStride offset (1 <<< (maxLength - fmt.directBits))
      (1 <<< (codeLength - fmt.directBits)) (fmt.longEntry sym codeLength)
      (fmt.code (s.table sym) >>> fmt.directBits) s.lookup.long
    { s with table := s.table.set sym (fmt.mark (s.table sym)), lookup := { s.lookup with long } }) s

/-- The second level, one region for each group of long codes with the same first bits. -/
def fillLong (fmt : TableFormat) : List Nat → LongState → LongState
  | [], s => s
  | sym :: rest, s =>
    if fmt.code (s.table sym) = fmt.invalidCode then fillLong fmt rest s
    else
      let firstBits := fmt.code (s.table sym) % 2 ^ fmt.directBits
      let (maxLength, group) := collectGroup fmt s.table sym rest
      let size := 1 <<< (maxLength - fmt.directBits)
      let s' := placeGroup fmt s.lookupLength maxLength group
        { s with lookup := { s.lookup with long := s.lookup.long.fill s.lookupLength size 0 } }
      fillLong fmt rest
        { s' with
          lookup := { s'.lookup with
            short := s'.lookup.short.set firstBits (fmt.pointer s.lookupLength maxLength) }
          lookupLength := s.lookupLength + size }

/-- What `make_inflate_huff_code_lit_len`, `_dist` and `_header` have in common. -/
def makeInflateHuffCode (fmt : TableFormat) (codes : CodeSet) (codeListLen : Nat)
    (encodeMore : (minLength lastLength : Nat) → Arr Nat → Arr Nat) (result : LookupTable) :
    LookupTable :=
  if codeListLen = 0 then { result with short := result.short.fill 0 (2 ^ fmt.directBits) 0 }
  else
    let short := fillShort fmt codes encodeMore result.short
    let index1 := codes.countTotal (fmt.directBits + 1)
    let longCodeList := (List.range' index1 (codeListLen - index1)).map codes.codeList
    (fillLong fmt longCodeList ⟨codes.table, { result with short }, 0⟩).lookup

def indexToSym (index : Nat) : Nat := if index ≠ 513 then index else 512

def invalidCode : Nat := 0xFFFFFF -- INVALID_CODE

/-- Literal/length entries: up to three symbols of 8 bits, the last of up to 10, the bit
`LARGE_FLAG_BIT` for a pointer, the number of symbols and the length. -/
def litLenFormat : TableFormat where
  directBits := isalDecodeLongBits
  code := HuffCode.codeAndExtra
  invalidCode := invalidCode
  mark h := { h with codeAndExtra := invalidCode }
  shortEntry index length :=
    if maxLitLenSym < indexToSym index then none
    else some (indexToSym index ||| length <<< 28 ||| 1 <<< 26)
  longEntry index length := indexToSym index ||| length <<< 10
  pointer offset maxLength := offset ||| maxLength <<< 26 ||| 1 <<< 25
  longer _ length := length

/-- Two symbols whose lengths add up to `lastLength`; the first has to be a literal. -/
def encodePairs (codes : CodeSet) (minLength lastLength : Nat) (short : Arr Nat) : Arr Nat :=
  let hi := codes.countTotal (lastLength - minLength + 1)
  forNext hi (fun index1 short =>
    let sym1Index := codes.codeList index1
    let sym1 := indexToSym sym1Index
    let sym1Len := (codes.table sym1Index).length
    let sym1Code := (codes.table sym1Index).code
    if 256 ≤ sym1 then (codes.countTotal (sym1Len + 1), short)
    else
      let sym2Len := lastLength - sym1Len
      let hi := codes.countTotal (sym2Len + 1)
      (index1 + 1, forNext hi (fun index2 short =>
        let sym2Index := codes.codeList index2
        let sym2 := indexToSym sym2Index
        if maxLitLenSym < sym2 then (hi, short)
        else
          let sym2Code := (codes.table sym2Index).code
          let code := sym1Code ||| sym2Code <<< sym1Len
          let codeLength := sym1Len + sym2Len
          (index2 + 1,
            short.set code (sym1 ||| sym2 <<< 8 ||| codeLength <<< 28 ||| 2 <<< 26)))
        hi (codes.countTotal sym2Len) short))
    hi (codes.countTotal minLength) short

/-- Three symbols, the first two of them literals. -/
def encodeTriples (codes : CodeSet) (minLength lastLength : Nat) (short : Arr Nat) : Arr Nat :=
  let hi1 := codes.countTotal (lastLength - 2 * minLength + 1)
  forNext hi1 (fun index1 short =>
    let sym1Index := codes.codeList index1
    let sym1 := indexToSym sym1Index
    let sym1Len := (codes.table sym1Index).length
    let sym1Code := (codes.table sym1Index).code
    if 256 ≤ sym1 then (codes.countTotal (sym1Len + 1), short)
    else if lastLength - sym1Len < 2 * minLength then (hi1, short)
    else
      let hi2 := codes.countTotal (lastLength - sym1Len - minLength + 1)
      (index1 + 1, forNext hi2 (fun index2 short =>
        let sym2Index := codes.codeList index2
        let sym2 := indexToSym sym2Index
        let sym2Len := (codes.table sym2Index).length
        let sym2Code := (codes.table sym2Index).code
        if 256 ≤ sym2 then (codes.countTotal (sym2Len + 1), short)
        else
          let sym3Len := lastLength - sym1Len - sym2Len
          let hi3 := codes.countTotal (sym3Len + 1)
          (index2 + 1, forNext hi3 (fun index3 short =>
            let sym3Index := codes.codeList index3
            let sym3 := indexToSym sym3Index
            let sym3Code := (codes.table sym3Index).code
            if maxLitLenSym - 1 < sym3 then (hi3, short)
            else
              let code := sym1Code ||| sym2Code <<< sym1Len ||| sym3Code <<< (sym2Len + sym1Len)
              let codeLength := sym1Len + sym2Len + sym3Len
              (index3 + 1, short.set code
                (sym1 ||| sym2 <<< 8 ||| sym3 <<< 16 ||| codeLength <<< 28 ||| 3 <<< 26)))
            hi3 (codes.countTotal sym3Len) short))
        hi2 (codes.countTotal minLength) short))
    hi1 (codes.countTotal minLength) short

/-- The part of the first level's loop that packs several symbols into an entry. -/
def encodeMultisym (codes : CodeSet) (multisym minLength lastLength : Nat) (short : Arr Nat) : Arr Nat :=
  if singleSymFlag ≤ multisym ∨ lastLength < 2 * minLength then short
  else
    let short := encodePairs codes minLength lastLength short
    if doubleSymFlag ≤ multisym ∨ lastLength < 3 * minLength then short
    else encodeTriples codes minLength lastLength short

def makeInflateHuffCodeLitLen (result : LookupTable) (codes : CodeSet) (multisym : Nat) : LookupTable :=
  makeInflateHuffCode litLenFormat codes (codes.countTotal (maxLitLenCount - 1))
    (encodeMultisym codes multisym) result

/-- Distance entries: symbol, number of extra bits and length; a symbol from `maxSymbol`
on gives its length in place of the symbol and no length. -/
def distFormat (maxSymbol : Nat) : TableFormat where
  directBits := isalDecodeShortBits
  code := HuffCode.code
  invalidCode := 0xFFFF
  mark h := h.setCode 0xFFFF
  shortEntry sym length :=
    if maxSymbol ≤ sym then some length
    else some (sym ||| (distExtraBitCount[sym]?.getD 0) <<< 5 ||| length <<< 11)
  longEntry sym length :=
    if maxSymbol ≤ sym then length
    else sym ||| (distExtraBitCount[sym]?.getD 0) <<< 5 ||| length <<< 10
  pointer offset maxLength := offset ||| maxLength <<< 11 ||| 1 <<< 10
  longer _ length := length

def headerFormat (maxSymbol : Nat) : TableFormat where
  directBits := isalDecodeShortBits
  code := HuffCode.code
  invalidCode := 0xFFFF
  mark h := h.setCode 0xFFFF
  shortEntry sym length := if maxSymbol ≤ sym then none else some (sym ||| length <<< 11)
  longEntry sym length := sym ||| length <<< 10
  pointer offset maxLength := offset ||| maxLength <<< 11 ||| 1 <<< 10
  longer maxLength length := if maxLength < length then length else maxLength

/-- `count_total` of the two small tables. -/
def countTotals (count : Arr Nat) : Arr Nat :=
  forRange 2 17 (fun i total => total.set i (total (i - 1) + count (i - 1))) (.const 0)

/-- The symbols in order of length. -/
def sortCodes (table : Arr HuffCode) (tableLength : Nat) (countTotal : Arr Nat) : Arr Nat :=
  (forRange 0 tableLength (fun i (codeList, countTotalTmp) =>
    let codeLength := (table i).length
    if codeLength = 0 then (codeList, countTotalTmp)
    else
      let insertIndex := countTotalTmp codeLength
      (codeList.set insertIndex i, countTotalTmp.set codeLength (insertIndex + 1)))
    (.const 0, countTotal)).1

def makeSmall (fmt : TableFormat) (result : LookupTable) (table : Arr HuffCode) (tableLength : Nat)
    (count : Arr Nat) : LookupTable :=
  let countTotal := countTotals count
  makeInflateHuffCode fmt ⟨table, sortCodes table tableLength countTotal, countTotal⟩ (countTotal 16)
    (fun _ _ short => short) result

def makeInflateHuffCodeDist (result : LookupTable) (table : Arr HuffCode) (tableLength : Nat)
    (count : Arr Nat) (maxSymbol : Nat) : LookupTable :=
  makeSmall (distFormat maxSymbol) result table tableLength count

def makeInflateHuffCodeHeader (result : LookupTable) (table : Arr HuffCode) (tableLength : Nat)
    (count : Arr Nat) (maxSymbol : Nat) : LookupTable :=
  makeSmall (headerFormat maxSymbol) result table tableLength count

end Isal.Inflate
