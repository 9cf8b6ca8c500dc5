import Isal.InflateBits
import Isal.InflateTables

/-! `struct inflate_state` and lookups in the decoding tables. -/
namespace Isal.Inflate

/-- `enum isal_block_state` -/
inductive BlockState where
  | newHdr | hdr | type0 | coded | inputDone | finish
  | gzipExtraLen | gzipExtra | gzipName | gzipComment | gzipHcrc | zlibDict | checksumCheck
  deriving Repr, DecidableEq

/-- The values of `crc_flag`. -/
inductive CrcFlag where
  | deflate | gzip | gzipNoHdr | zlib | zlibNoHdr | zlibNoHdrVer | gzipNoHdrVer
  deriving Repr, DecidableEq

/-- Inflate return values. -/
inductive ReturnCode where
  | decompOk | endInput | outOverflow | nameOverflow | commentOverflow | extraOverflow | needDict
  | invalidBlock | invalidSymbol | invalidLookback | invalidWrapper | unsupportedMethod
  | incorrectChecksum
  deriving Repr, DecidableEq

def histSize : Nat := 32 * 1024 -- ISAL_DEF_HIST_SIZE

/-- Output pointers are kept as contents: `out` is what lies between the `start_out` of the
current decoding loop and `next_out`, `tmpOut` the first `tmp_out_valid` bytes of
`tmp_out_buffer` and `tmpIn` the first `tmp_in_size` of `tmp_in_buffer`. -/
structure InflateState extends InStream where
  out : List UInt8 := []
  availOut : Nat := 0
  totalOut : UInt32 := 0
  litHuffCode : LookupTable := ⟨.const 0, .const 0⟩
  distHuffCode : LookupTable := ⟨.const 0, .const 0⟩
  blockState : BlockState := .newHdr
  dictLength : Nat := 0
  bfinal : Nat := 0
  crcFlag : CrcFlag := .deflate
  crc : Nat := 0
  histBits : Nat := 0
  /-- The union of `type0_block_len`, `count` and `dict_id`. -/
  count : Nat := 0
  writeOverflowLits : Nat := 0
  writeOverflowLen : Nat := 0
  copyOverflowLength : Nat := 0
  copyOverflowDistance : Nat := 0
  wrapperFlag : Bool := false
  tmpIn : List UInt8 := []
  tmpOut : List UInt8 := []
  tmpOutProcessed : Nat := 0

def InflateState.withIn (s : InflateState) (inp : InStream) : InflateState := { s with toInStream := inp }

/-- The state a block ends in. -/
def InflateState.endBlock (s : InflateState) : InflateState :=
  { s with blockState := if s.bfinal ≠ 0 then .inputDone else .newHdr }

def invalidSymbol : Nat := 0x1FFF -- INVALID_SYMBOL

/-- The lookups start with this; `inflate_in_load` is called when a code may not fit. -/
def loadForCode (s : InStream) : InStream :=
  if s.readInLength ≤ maxCodeLen then inflateInLoad s else s

/-- The packed symbols, their number, and the stream behind them. -/
def decodeNextLitLen (huffCode : LookupTable) (s : InStream) : Nat × Nat × InStream :=
  let s := loadForCode s
  let nextSym := huffCode.short (s.readIn % 2 ^ isalDecodeLongBits)
  if nextSym.testBit 25 = false then
    let bitCount := nextSym >>> 28
    let nextSym := if bitCount = 0 then invalidSymbol else nextSym
    (nextSym % 2 ^ 25, (nextSym >>> 26) % 2 ^ 2, s.consume bitCount)
  else
    let nextBits := s.readIn % 2 ^ (nextSym >>> 26)
    let nextSym := huffCode.long (nextSym % 2 ^ 25 + nextBits >>> isalDecodeLongBits)
    let bitCount := nextSym >>> 10
    ((if bitCount = 0 then invalidSymbol else nextSym) % 2 ^ 10, 1, s.consume bitCount)

/-- An entry without a length holds the length of a symbol that must not be used. -/
def takeDist (nextSym bitCount : Nat) (s : InStream) : Nat × InStream :=
  let s := s.consume bitCount
  if bitCount = 0 then (invalidSymbol % 2 ^ 5, { s with readInLength := s.readInLength - nextSym })
  else (nextSym % 2 ^ 5, s)

def decodeNextDist (huffCode : LookupTable) (s : InStream) : Nat × InStream :=
  let s := loadForCode s
  let nextSym := huffCode.short (s.readIn % 2 ^ isalDecodeShortBits)
  if nextSym.testBit 10 = false then takeDist nextSym (nextSym >>> 11) s
  else
    let nextBits := s.readIn % 2 ^ ((nextSym - 1 <<< 10) >>> 11)
    let nextSym := huffCode.long (nextSym % 2 ^ 9 + nextBits >>> isalDecodeShortBits)
    takeDist nextSym (nextSym >>> 10) s

def decodeNextHeader (huffCode : LookupTable) (s : InStream) : Nat × InStream :=
  let s := loadForCode s
  let nextSym := huffCode.short (s.readIn % 2 ^ isalDecodeShortBits)
  if nextSym.testBit 10 = false then
    let bitCount := nextSym >>> 11
    ((if bitCount = 0 then invalidSymbol else nextSym) % 2 ^ 9, s.consume bitCount)
  else
    let nextBits := s.readIn % 2 ^ ((nextSym - 1 <<< 10) >>> 11)
    let nextSym := huffCode.long (nextSym % 2 ^ 9 + nextBits >>> isalDecodeShortBits)
    (nextSym % 2 ^ 9, s.consume (nextSym >>> 10))

end Isal.Inflate
