import Isal.InflateHeader

/-! Decoding the body of a block: stored bytes, and symbols of the two Huffman codes. -/
namespace Isal.Inflate

open Isal.Bits

/-- Bytes written at `next_out`. -/
def InflateState.write (s : InflateState) (bytes : List UInt8) : InflateState :=
  { s with
    out := s.out ++ bytes
    availOut := s.availOut - bytes.length
    totalOut := s.totalOut + .ofNat bytes.length }

/-- How many bytes of a stored block can be copied, and the state that leaves the block in. -/
def literalExtent (bytes : Nat) (s : InflateState) : Nat × BlockState :=
  let (len, state) := (s.count, s.endBlock.blockState)
  let (len, state) := if s.availOut < len then (s.availOut, .type0) else (len, state)
  if s.availIn + bytes < len then (s.availIn + bytes, .type0) else (len, state)

/-- The bytes that are in `read_in`. -/
def copyReadIn (len bytes : Nat) (s : InflateState) : Nat × Nat × InflateState :=
  if s.readInLength ≠ 0 then
    if bytes ≤ len then
      (len - bytes, 0,
        { s.write (toLeBytes s.readIn bytes) with count := s.count - bytes, readIn := 0, readInLength := 0 })
    else
      (0, bytes - len,
        { s.write (toLeBytes s.readIn len) with
          count := s.count - len
          readIn := s.readIn >>> (8 * len)
          readInLength := s.readInLength - 8 * len })
  else (len, bytes, s)

def decodeLiteralBlock (s : InflateState) : ReturnCode × InflateState :=
  let bytes := (s.readInLength / 8).toNat
  let (len, blockState) := literalExtent bytes s
  let (len, bytes, s) := copyReadIn len bytes { s with blockState }
  let s := { s.write ((s.buf.drop s.nextIn.toNat).take len) with
    nextIn := s.nextIn + len
    availIn := s.availIn - len
    count := s.count - len }
  if s.availIn + bytes = 0 ∧ s.blockState ≠ .inputDone then (.endInput, s)
  else if s.availOut = 0 ∧ 0 < s.count then (.outOverflow, s)
  else (.decompOk, s)

def byteCopy (lookbackDistance : Nat) : (repeatLength : Nat) → List UInt8 → List UInt8
  | 0, out => out
  | repeatLength + 1, out =>
    byteCopy lookbackDistance repeatLength (out ++ [out[out.length - lookbackDistance]?.getD 0])

/-- The copy of a match that has been found to lie within the output. -/
def copyMatch (lookBackDist repeatLength : Nat) (out : List UInt8) : List UInt8 :=
  if repeatLength < lookBackDist then out ++ (out.drop (out.length - lookBackDist)).take repeatLength
  else byteCopy lookBackDist repeatLength out

/-- `saved` is what the loop stored before it decoded the symbol. -/
def InflateState.restore (saved s : InflateState) : InflateState :=
  { s with
    readIn := saved.readIn
    readInLength := saved.readInLength
    nextIn := saved.nextIn
    availIn := saved.availIn }

/-- The check of a distance and the copy. -/
def copyRepeat (repeatLength lookBackDist : Nat) (s : InflateState) : Option ReturnCode × InflateState :=
  if s.out.length < lookBackDist then (some .invalidLookback, s)
  else
    let fits := min repeatLength s.availOut
    let s := if s.availOut < repeatLength then
      { s with copyOverflowLength := repeatLength - s.availOut, copyOverflowDistance := lookBackDist }
      else s
    let s := { s with
      out := copyMatch lookBackDist fits s.out
      availOut := s.availOut - fits
      totalOut := s.totalOut + .ofNat fits }
    if 0 < s.copyOverflowLength then (some .outOverflow, s) else (none, s)

/-- A repeat length: its distance symbol and the extra bits of that. -/
def decodeRepeat (saved : InflateState) (nextLit : Nat) (s : InflateState) : Option ReturnCode × InflateState :=
  let repeatLength := nextLit - 254
  let (nextDist, inp) := decodeNextDist s.distHuffCode s.toInStream
  let s := s.withIn inp
  if 0 ≤ s.readInLength ∧ distLen ≤ nextDist then (some .invalidSymbol, s)
  else
    let (extra, inp) := if 0 ≤ s.readInLength
      then inflateInReadBits (distExtraBitCount[nextDist]?.getD 0) s.toInStream else (0, s.toInStream)
    let lookBackDist := distStart[nextDist]?.getD 0 + extra
    let s := s.withIn inp
    if s.readInLength < 0 then
      (some .endInput, { saved.restore s with
        out := saved.out
        availOut := saved.availOut
        totalOut := saved.totalOut
        writeOverflowLits := 0
        writeOverflowLen := 0 })
    else copyRepeat repeatLength lookBackDist s

/-- The last symbol of an entry when it is not a literal. -/
def decodeNonLiteral (saved : InflateState) (nextLit : Nat) (s : InflateState) :
    Option ReturnCode × InflateState :=
  if nextLit = 256 then (none, s.endBlock)
  else if nextLit ≤ maxLitLenSym then decodeRepeat saved nextLit s
  else (some .invalidSymbol, s)

/-- A literal is to be written but there is no room: what is left of the entry is kept in
`write_overflow_lits`, and a repeat length among it is decoded all the same. -/
def overflowLits (saved : InflateState) (symCount nextLits : Nat) (s : InflateState) :
    Option ReturnCode × InflateState :=
  let s := { s with writeOverflowLits := nextLits, writeOverflowLen := symCount }
  let lastLit := nextLits >>> (8 * (symCount - 1))
  if lastLit < 256 then (some .outOverflow, s)
  else
    let s := { s with writeOverflowLen := symCount - 1 }
    if lastLit = 256 then (some .outOverflow, s.endBlock)
    else decodeNonLiteral saved (lastLit % 2 ^ 16) s

/-- `while (sym_count > 0)` -/
def writeSymbols (saved : InflateState) : (symCount nextLits : Nat) → InflateState →
    Option ReturnCode × InflateState
  | 0, _, s => (none, s)
  | symCount + 1, nextLits, s =>
    let nextLit := nextLits % 2 ^ 16
    if nextLit < 256 ∨ 0 < symCount then
      if s.availOut < 1 then overflowLits saved (symCount + 1) nextLits s
      else writeSymbols saved symCount (nextLits >>> 8) (s.write [UInt8.ofNat nextLit])
    else
      match decodeNonLiteral saved nextLit s with
      | (some ret, s) => (some ret, s)
      | (none, s) => writeSymbols saved symCount (nextLits >>> 8) s

/-- One round of the decoding loop. -/
def decodeSymbols (s : InflateState) : Option ReturnCode × InflateState :=
  let saved := s.withIn (inflateInLoad s.toInStream)
  let (nextLits, symCount, inp) := decodeNextLitLen saved.litHuffCode saved.toInStream
  let s := saved.withIn inp
  if symCount = 0 then (some .invalidSymbol, s)
  else if s.readInLength < 0 then (some .endInput, saved)
  else writeSymbols saved symCount nextLits s

/-- Bits that are still to be decoded. -/
def InStream.bitsLeft (s : InStream) : Nat := (s.readInLength + 8 * s.availIn).toNat

def decodeLoop : (rounds : Nat) → InflateState → Option (ReturnCode × InflateState)
  | 0, _ => none
  | rounds + 1, s =>
    if s.blockState ≠ .coded then some (.decompOk, s)
    else
      match decodeSymbols s with
      | (some ret, s) => some (ret, s)
      | (none, s) => decodeLoop rounds s

/-- Every round decodes a bit at least; `none` would mean that the loop has not ended. -/
def decodeHuffmanCodeBlockStatelessBase (s : InflateState) : Option (ReturnCode × InflateState) :=
  decodeLoop (s.bitsLeft + 2) { s with copyOverflowLength := 0, copyOverflowDistance := 0 }

/-- The loop over the blocks of `isal_inflate_stateless`, again `none` if it has not ended. -/
def inflateBlocks : (rounds : Nat) → InflateState → Option (ReturnCode × InflateState)
  | 0, _ => none
  | rounds + 1, s =>
    if s.blockState = .finish then some (.decompOk, s)
    else
      let (ret, s) := if s.blockState = .newHdr then readHeader s else (.decompOk, s)
      if ret ≠ .decompOk then some (ret, s)
      else
        match if s.blockState = .type0 then some (decodeLiteralBlock s)
          else decodeHuffmanCodeBlockStatelessBase s with
        | none => none
        | some (ret, s) =>
          if ret ≠ .decompOk then some (ret, s)
          else inflateBlocks rounds (if s.blockState = .inputDone then { s with blockState := .finish } else s)

/-- The pointers that are set to `NULL` are empty buffers here. -/
def isalInflateInit (s : InflateState) : InflateState :=
  { s with
    readIn := 0, readInLength := 0, buf := [], nextIn := 0, availIn := 0, out := [], availOut := 0, totalOut := 0
    dictLength := 0, blockState := .newHdr, bfinal := 0, crcFlag := .deflate, crc := 0, histBits := 0, count := 0
    writeOverflowLits := 0, writeOverflowLen := 0, copyOverflowLength := 0, copyOverflowDistance := 0
    wrapperFlag := false, tmpIn := [], tmpOut := [], tmpOutProcessed := 0 }

/-- The next piece of input and the next piece of room for output. -/
def InflateState.given (s : InflateState) (input : List UInt8) (room : Nat) : InflateState :=
  { s with buf := input, nextIn := 0, availIn := input.length, out := [], availOut := room }

/-- Undo count stuff of bytes read into the read buffer. -/
def InStream.unread (s : InStream) : InStream :=
  { s with
    nextIn := s.nextIn - s.readInLength.tdiv 8
    availIn := ((s.availIn + s.readInLength.tdiv 8) % 2 ^ 32).toNat
    readInLength := 0
    readIn := 0 }

end Isal.Inflate
