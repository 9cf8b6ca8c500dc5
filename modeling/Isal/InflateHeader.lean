import Isal.InflateState

/-! Reading a block header: the stored, static and dynamic kinds. -/
namespace Isal.Inflate

open Isal.Bits Isal.Loops

def codeLengthOrder : List Nat := [
  0x10, 0x11, 0x12, 0x00, 0x08, 0x07, 0x09, 0x06, 0x0a, 0x05, 0x0b, 0x04, 0x0c, 0x03, 0x0d, 0x02, 0x0e, 0x01,
  0x0f]

/-- `hufftables_default.deflate_hdr` up to its last, incomplete byte. -/
def deflateHdr : List UInt8 := [
  0xed, 0xfd, 0x09, 0x80, 0x1c, 0x45, 0xf9, 0xbf, 0x81, 0xf7, 0x66, 0x37, 0xd7, 0x24, 0x9b, 0x04, 0x40, 0x45,
  0x45, 0x52, 0x04, 0x20, 0x09, 0xcc, 0x2e, 0xbb, 0x9b, 0x3b, 0x81, 0x24, 0xbb, 0xb9, 0x21, 0x17, 0x49, 0xb8,
  0x04, 0x85, 0xde, 0x99, 0xde, 0x9d, 0x26, 0x33, 0xd3, 0x43, 0xf7, 0x4c, 0x36, 0x8b, 0x08, 0xf1, 0x56, 0x51,
  0xc1, 0xfb, 0x56, 0x54, 0xc4, 0x5b, 0x51, 0xf1, 0x16, 0x0d, 0x89, 0x8a, 0x37, 0x78, 0xdf, 0x1a, 0x45, 0x05,
  0xef, 0x20, 0xaa, 0xa0, 0x90, 0xfd, 0xff, 0x9f, 0xf7, 0xad, 0x9e, 0xa9, 0xdd, 0xdd, 0x70, 0xfa, 0xfd, 0xfd,
  0xbe, 0xbf, 0xff, 0xdf, 0xcd, 0x66, 0x67, 0xba, 0xbb, 0xaa, 0xea, 0x7d, 0xdf, 0x7a, 0xeb, 0xad, 0x4f, 0xbd,
  0xf5, 0x56, 0x35]

def deflateHdrCount : Nat := 110
def deflateHdrExtraBits : Nat := 6

/-- Code lengths of the code-length code, their histogram and the bitwise or of all of them. -/
structure CodeLengths where
  codeHuff : Arr HuffCode := .const {}
  codeCount : Arr Nat := .const 0
  flag : Nat := 0

def readCodeLength (i : Nat) : CodeLengths × InStream → CodeLengths × InStream
  | (c, s) =>
    let (length, s) := inflateInReadBitsUnsafe 3 s
    ({ codeHuff := c.codeHuff.set (codeLengthOrder[i]?.getD 0) (writeHuffCode 0 length)
       codeCount := c.codeCount.set length (c.codeCount length + 1)
       flag := c.flag ||| length }, s)

/-- The variables of the loop that decodes the code lengths of both alphabets. `inDist`
tells which histogram `count` points to. -/
structure LengthState where
  inp : InStream
  litAndDistHuff : Arr HuffCode := .const {}
  litCount : Arr Nat := .const 0
  litExpandCount : Arr Nat := .const 0
  distCount : Arr Nat := .const 0
  inDist : Bool := false
  previous : Option Nat := none
  current : Nat := 0

/-- Switch code upon completion of the literal/length table. -/
def LengthState.switch (hlit : Nat) (s : LengthState) : LengthState :=
  if s.current = isalDefLitSymbols + hlit then { s with current := litLen, inDist := true } else s

/-- The 16-bit `lit_expand_count` after a length symbol with extra bits got a code. -/
def expandLengthCount (symbol length : Nat) (expandCount : Arr Nat) : Arr Nat :=
  let extraCount := lenExtraBitCount[symbol - isalDefLitSymbols]?.getD 0
  let expandCount := expandCount.set length ((expandCount length + (2 ^ 16 - 1)) % 2 ^ 16)
  expandCount.set (length + extraCount) ((expandCount (length + extraCount) + 1 <<< extraCount) % 2 ^ 16)

/-- `*current = rep_code` with what goes along with it. -/
def LengthState.put (hlit : Nat) (code : HuffCode) (s : LengthState) : LengthState :=
  let s := s.switch hlit
  let position := s.current
  let s := { s with
    litAndDistHuff := s.litAndDistHuff.set position code
    litCount := if s.inDist then s.litCount else s.litCount.set code.length (s.litCount code.length + 1)
    distCount := if s.inDist then s.distCount.set code.length (s.distCount code.length + 1) else s.distCount
    previous := some position
    current := position + 1 }
  if code.length = 0 ∨ isalDefLitSymbols + hlit ≤ position ∨ position < 264 then s
  else { s with litExpandCount := expandLengthCount position code.length s.litExpandCount }

/-- A repeat of zeroes, which are in the table already. -/
def LengthState.skip (hlit i : Nat) (s : LengthState) : LengthState :=
  let s := { s with current := s.current + i, previous := some (s.current + i - 1) }
  if s.inDist = false ∧ isalDefLitSymbols + hlit < s.current then
    let s := { s with current := s.current + (litLen - isalDefLitSymbols - hlit), inDist := true }
    if litLen < s.current then { s with previous := some (s.current - 1) } else s
  else s

/-- One symbol of the code-length code. -/
def decodeLength (huffCode : LookupTable) (hlit last : Nat) (s : LengthState) :
    Option ReturnCode × LengthState :=
  let (symbol, inp) := decodeNextHeader huffCode s.inp
  let s := { s with inp }
  if inp.readInLength < 0 then
    if 256 < s.current ∧ (s.litAndDistHuff 256).length = 0 then (some .invalidBlock, s)
    else (some .endInput, s)
  else if symbol < 16 then (none, s.put hlit (writeHuffCode 0 symbol))
  else if symbol = 16 then
    let (extra, inp) := inflateInReadBits 2 s.inp
    let s := { s with inp }
    let i := 3 + extra
    match s.previous with
    | none => (some .invalidBlock, s)
    | some previous =>
      if last < s.current + i then (some .invalidBlock, s)
      else
        let repCode := s.litAndDistHuff previous
        (none, forRange 0 i (fun _ s => s.put hlit repCode) s)
  else if symbol = 17 then
    let (extra, inp) := inflateInReadBits 3 s.inp
    (none, { s with inp }.skip hlit (3 + extra))
  else if symbol = 18 then
    let (extra, inp) := inflateInReadBits 7 s.inp
    (none, { s with inp }.skip hlit (11 + extra))
  else (some .invalidBlock, s)

/-- `while (current < end)`; every round moves `current` forward. -/
def decodeLengths (huffCode : LookupTable) (hlit last : Nat) :
    (rounds : Nat) → LengthState → Option ReturnCode × LengthState
  | 0, s => (none, s)
  | rounds + 1, s =>
    if s.current < last then
      match decodeLength huffCode hlit last s with
      | (some ret, s) => (some ret, s)
      | (none, s) => decodeLengths huffCode hlit last rounds s
    else (none, s)

/-- What follows once the two vectors of code lengths are there: the decoding tables. -/
def setupCodes (multisym : Nat) (lengths : LengthState) (s : InflateState) : ReturnCode × InflateState :=
  match setCodes (lengths.litAndDistHuff.from_ litLen) distLen lengths.distCount with
  | none => (.invalidBlock, s)
  | some distHuff =>
    let maxDist := if s.histBits ≠ 0 ∧ s.histBits < 15 then 2 * s.histBits else distLen
    let s := { s with
      distHuffCode := makeInflateHuffCodeDist s.distHuffCode distHuff distLen lengths.distCount maxDist }
    match setAndExpandLitLenHuffcode lengths.litAndDistHuff litLen lengths.litCount lengths.litExpandCount with
    | none => (.invalidBlock, s)
    | some codes =>
      (.decompOk, { s with
        litHuffCode := makeInflateHuffCodeLitLen s.litHuffCode codes multisym
        blockState := .coded })

/-- `setup_dynamic_header` from the point where a known header has been ruled out. -/
def readDynamicHeader (multisym : Nat) (s : InflateState) : ReturnCode × InflateState :=
  let inp := inflateInLoad s.toInStream
  if inp.readInLength < 14 then (.endInput, s.withIn inp)
  else
    let (hlit, inp) := inflateInReadBitsUnsafe 5 inp
    let (hdist, inp) := inflateInReadBitsUnsafe 5 inp
    let (hclen, inp) := inflateInReadBitsUnsafe 4 inp
    if 29 < hlit ∨ 29 < hdist ∨ 15 < hclen then (.invalidBlock, s.withIn inp)
    else
      let (c, inp) := forRange 0 4 readCodeLength ({}, inp)
      let (c, inp) := forRange 4 (hclen + 4) readCodeLength (c, inflateInLoad inp)
      let s := s.withIn inp
      if inp.readInLength < 0 then (.endInput, s)
      else if c.flag = 0 then (.invalidBlock, s)
      else
        match setCodes c.codeHuff codeLenCodes c.codeCount with
        | none => (.invalidBlock, s)
        | some codeHuff =>
          let huffCode := makeInflateHuffCodeHeader ⟨.const 0, .const 0⟩ codeHuff codeLenCodes
            c.codeCount codeLenCodes
          let last := litLen + hdist + 1
          match decodeLengths huffCode hlit last last { inp } with
          | (some ret, lengths) => (ret, s.withIn lengths.inp)
          | (none, lengths) =>
            let s := s.withIn lengths.inp
            if last < lengths.current ∨ (lengths.litAndDistHuff 256).length = 0 then (.invalidBlock, s)
            else if lengths.inp.readInLength < 0 then (.endInput, s)
            else setupCodes multisym lengths s

/-- `header_matches_pregen`; `none` is its return value 0. -/
def headerMatchesPregen (s : InStream) : Option InStream :=
  let bitsReadMask := s.readInLength.toNat
  let hdrStash := (bytesVal (deflateHdr.take 8) >>> 3) % 2 ^ bitsReadMask
  let inStash := s.readIn % 2 ^ bitsReadMask
  let bytesReadIn := (s.readInLength.toNat + 3) / 8
  if hdrStash ≠ inStash then none
  else if (s.readInLength + 3) % 8 ≠ 0 then none
  else if (s.buf.drop s.nextIn.toNat).take (deflateHdrCount - bytesReadIn) ≠
      (deflateHdr.take deflateHdrCount).drop bytesReadIn then none
  else
    let inEndBits := (s.buf[s.nextIn.toNat + (deflateHdrCount - bytesReadIn)]?.getD 0).toNat % 2 ^ deflateHdrExtraBits
    let hdrEndBits := (deflateHdr[deflateHdrCount]?.getD 0).toNat % 2 ^ deflateHdrExtraBits
    if inEndBits = hdrEndBits then
      some (inflateInReadBits deflateHdrExtraBits { s with
        nextIn := s.nextIn + (deflateHdrCount - bytesReadIn : Nat)
        availIn := s.availIn - (deflateHdrCount - bytesReadIn)
        readInLength := 0
        readIn := 0 }).2
    else none

/-- The state in which `generate_static_inflate` has the decompressor read this header: the
three bits before `setup_dynamic_header` are gone. -/
def pregenStart : InflateState :=
  ({} : InflateState).withIn (inflateInReadBits 3 ⟨0, 0, deflateHdr, 0, deflateHdr.length⟩).2

/-- `pregen_lit_huff_code` and `pregen_dist_huff_code`, which are written out as numbers in
`static_inflate.h`; that program got them with `DOUBLE_SYM_FLAG`. -/
def pregen : InflateState := (readDynamicHeader doubleSymFlag pregenStart).2

def setupPregenHeader (s : InflateState) : ReturnCode × InflateState :=
  (.decompOk, { s with
    litHuffCode := pregen.litHuffCode
    distHuffCode := pregen.distHuffCode
    blockState := .coded })

def setupDynamicHeader (s : InflateState) : ReturnCode × InflateState :=
  let known := if deflateHdrCount + 8 < s.availIn then headerMatchesPregen s.toInStream else none
  match known with
  | some inp => setupPregenHeader (s.withIn inp)
  | none =>
    let multisym := if s.bfinal ≠ 0 ∧ s.availIn ≤ 2 * 1024 then singleSymFlag
      else if s.bfinal ≠ 0 ∧ s.availIn ≤ 4 * 1024 then doubleSymFlag
      else tripleSymFlag
    readDynamicHeader multisym s

def staticLitLength (i : Nat) : Nat :=
  if i < 144 then 8 else if i < 256 then 9 else if i < 280 then 7 else if i < litLen + 2 then 8 else 0

def staticLitCount : List Nat := [0, 0, 0, 0, 0, 0, 0, 24, 152, 112]
def staticLitExpandCount : List Nat := [0, 0, 0, 0, 0, 0, 0, 2 ^ 16 - 15, 1, 16, 32, 48, 16, 128]

/-- `setup_static_header`. It copies the tables that `static_inflate.h` has as numbers; the program that wrote
them had no window set. -/
def setupStaticHeader (s : InflateState) : ReturnCode × InflateState :=
  let distCount := (Arr.const 0).set 5 32
  let s := match setAndExpandLitLenHuffcode ⟨fun i => ⟨0, staticLitLength i⟩⟩ (litLen + 2)
      ⟨fun i => staticLitCount[i]?.getD 0⟩ ⟨fun i => staticLitExpandCount[i]?.getD 0⟩ with
    | none => s
    | some codes => { s with litHuffCode := makeInflateHuffCodeLitLen s.litHuffCode codes singleSymFlag }
  let s := match setCodes (.const ⟨0, 5⟩) (distLen + 2) distCount with
    | none => s
    | some distHuff => { s with
      distHuffCode := makeInflateHuffCodeDist s.distHuffCode distHuff (distLen + 2) distCount distLen }
  (.decompOk, { s with blockState := .coded })

/-- The lengths of a stored block, from the next byte boundary on. -/
def readStoredHeader (s : InflateState) : ReturnCode × InflateState :=
  let s := s.withIn (inflateInLoad s.toInStream)
  let bytes := (s.readInLength / 8).toNat
  if bytes < 4 then (.endInput, s)
  else
    let readIn := s.readIn >>> (s.readInLength % 8).toNat
    let len := readIn % 2 ^ 16
    let nlen := (readIn >>> 16) % 2 ^ 16
    let s := { s with readIn := readIn >>> 32, readInLength := bytes * 8 - 32 }
    if len ≠ 2 ^ 16 - 1 - nlen then (.invalidBlock, s)
    else (.decompOk, { s with count := len, blockState := .type0 })

def readHeader (s : InflateState) : ReturnCode × InflateState :=
  let (bfinal, inp) := inflateInReadBits 1 s.toInStream
  let (btype, inp) := inflateInReadBits 2 inp
  let s := { s.withIn inp with bfinal }
  if s.readInLength < 0 then (.endInput, s)
  else if btype = 0 then readStoredHeader s
  else if btype = 1 then setupStaticHeader s
  else if btype = 2 then setupDynamicHeader s
  else (.invalidBlock, s)

end Isal.Inflate
