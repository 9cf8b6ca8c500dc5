import Isal.InflateWrapper

/-! Decompression over several calls: input that holds only part of a block header and output
that has found no room are kept in the state from one call to the next. -/
namespace Isal.Inflate

open Isal.Bits

def maxHdrSize : Nat := 328 -- ISAL_DEF_MAX_HDR_SIZE
def lookAhead : Nat := 288 -- ISAL_LOOK_AHEAD
def tmpOutSize : Nat := 2 * histSize + lookAhead

/-- The values of the return codes; the errors are negative. -/
def ReturnCode.value : ReturnCode → Int
  | .decompOk => 0
  | .endInput => 1
  | .outOverflow => 2
  | .nameOverflow => 3
  | .commentOverflow => 4
  | .extraOverflow => 5
  | .needDict => 6
  | .invalidBlock => -1
  | .invalidSymbol => -2
  | .invalidLookback => -3
  | .invalidWrapper => -4
  | .unsupportedMethod => -5
  | .incorrectChecksum => -6

/-- What a call of `isal_inflate` returns for what its parts returned. -/
def ReturnCode.settle (ret : ReturnCode) : ReturnCode := if 0 < ret.value then .decompOk else ret

/-- The errors that decoding a block can end in. -/
def ReturnCode.invalid (ret : ReturnCode) : Prop :=
  ret = .invalidLookback ∨ ret = .invalidBlock ∨ ret = .invalidSymbol

instance (ret : ReturnCode) : Decidable ret.invalid := inferInstanceAs (Decidable (_ ∨ _))

/-- Reading on in `tmp_in_buffer`, to which as much input is copied as it holds. -/
def InflateState.enterTmpIn (s : InflateState) : InflateState :=
  let copySize := min (maxHdrSize - s.tmpIn.length) s.availIn
  { s with buf := s.tmpIn ++ s.pending.take copySize, nextIn := 0, availIn := s.tmpIn.length + copySize }

/-- Back in the buffer of the caller, at the place that corresponds. -/
def InflateState.leaveTmpIn (start s : InflateState) : InflateState :=
  let bytesRead := (s.nextIn - start.tmpIn.length).toNat
  { s with buf := start.buf, nextIn := start.nextIn + bytesRead, availIn := start.availIn - bytesRead }

/-- Where the input ends within the header all of it is put aside, to be read again. -/
def readHeaderStateful (s : InflateState) : ReturnCode × InflateState :=
  let (ret, t) :=
    if s.blockState = .hdr then
      let (ret, t) := readHeader s.enterTmpIn
      (ret, s.leaveTmpIn t)
    else readHeader s
  if ret = .endInput then
    (ret, { t with
      readIn := s.readIn
      readInLength := s.readInLength
      tmpIn := s.tmpIn ++ s.pending
      nextIn := s.nextIn + s.availIn
      availIn := 0
      blockState := .hdr })
  else (ret, { t with tmpIn := [] })

/-- The loop over the blocks of `isal_inflate`; `none` if it has not ended. -/
def decodeBlocks (ret : ReturnCode) : (rounds : Nat) → InflateState → Option (ReturnCode × InflateState)
  | 0, _ => none
  | rounds + 1, s =>
    if s.blockState = .inputDone then some (ret, s)
    else
      let (ret, s) := if s.blockState = .newHdr ∨ s.blockState = .hdr then readHeaderStateful s else (.decompOk, s)
      if ret ≠ .decompOk then some (ret, s)
      else
        match if s.blockState = .type0 then some (decodeLiteralBlock s)
          else decodeHuffmanCodeBlockStatelessBase s with
        | none => none
        | some (ret, s) => if ret ≠ .decompOk then some (ret, s) else decodeBlocks ret rounds s

/-- Every block takes up a bit at least. -/
def InflateState.blockRounds (s : InflateState) : Nat := 8 * s.tmpIn.length + s.bitsLeft + 2

/-- What has overflowed is stored behind `bytes`. -/
def InflateState.storeOverflow (s : InflateState) (bytes : List UInt8) : List UInt8 × InflateState :=
  let (bytes, s) := if s.writeOverflowLen ≠ 0 then
      (bytes ++ toLeBytes s.writeOverflowLits s.writeOverflowLen, { s with
        totalOut := s.totalOut + .ofNat s.writeOverflowLen
        writeOverflowLits := 0
        writeOverflowLen := 0 })
    else (bytes, s)
  if s.copyOverflowLength ≠ 0 then
    (byteCopy s.copyOverflowDistance s.copyOverflowLength bytes, { s with
      totalOut := s.totalOut + .ofNat s.copyOverflowLength
      copyOverflowDistance := 0
      copyOverflowLength := 0 })
  else (bytes, s)

/-- Decode into internal buffer until exit, if there is space in it. -/
def fillTmpOut (s : InflateState) : Option (ReturnCode × InflateState) :=
  if s.tmpOut.length < 2 * histSize then
    let start := { s with out := s.tmpOut, availOut := tmpOutSize - lookAhead - s.tmpOut.length }
    match decodeBlocks .decompOk start.blockRounds start with
    | none => none
    | some (ret, t) =>
      let (tmpOut, t) := t.storeOverflow t.out
      some (ret, { t with tmpOut, out := s.out, availOut := s.availOut })
  else some (.decompOk, s)

/-- Copy data from tmp_out buffer into out_buffer. -/
def copyTmpOut (s : InflateState) : InflateState :=
  let copySize := min (s.tmpOut.length - s.tmpOutProcessed) s.availOut
  { s with
    out := s.out ++ (s.tmpOut.drop s.tmpOutProcessed).take copySize
    tmpOutProcessed := s.tmpOutProcessed + copySize
    availOut := s.availOut - copySize }

/-- Save decompression history in tmp_out buffer; `availOut` is the room at the start of the call. -/
def saveHistory (availOut : Nat) (s : InflateState) : InflateState :=
  if s.blockState ≠ .inputDone ∨ tmpOutSize < s.copyOverflowLength + s.writeOverflowLen + s.tmpOut.length then
    if s.tmpOut.length = s.tmpOutProcessed ∧ histSize ≤ availOut - s.availOut then
      { s with tmpOut := s.out.drop (s.out.length - histSize), tmpOutProcessed := histSize }
    else if histSize ≤ s.tmpOutProcessed then
      let shiftSize := min (s.tmpOut.length - histSize) s.tmpOutProcessed
      { s with tmpOut := s.tmpOut.drop shiftSize, tmpOutProcessed := s.tmpOutProcessed - shiftSize }
    else s
  else s

/-- Write overflow data into tmp buffer. -/
def overflowToTmpOut (s : InflateState) : InflateState :=
  let (tmpOut, s) := s.storeOverflow s.tmpOut
  { s with tmpOut }

/-- Set total_out to not count data in tmp_out_buffer. -/
def InflateState.uncountTmpOut (s : InflateState) : InflateState :=
  { s with totalOut := s.totalOut - .ofNat (s.tmpOut.length - s.tmpOutProcessed) }

/-- The stream is finished when all of its output has been handed over. -/
def finishStream (ret : ReturnCode) (s : InflateState) : ReturnCode × InflateState :=
  if s.blockState = .inputDone ∧ s.tmpOut.length = s.tmpOutProcessed then
    let (ret, s) := checkTrailer { s with blockState := .finish }
    (ret, s.withIn s.unread)
  else (ret, s)

/-- `isal_inflate` where the wrapper header has been read. -/
def inflateStream (s : InflateState) : Option (ReturnCode × InflateState) :=
  if s.blockState = .finish then some (.decompOk, s)
  else
    let availOut := s.availOut
    match fillTmpOut { s with totalOut := s.totalOut + .ofNat (s.tmpOut.length - s.tmpOutProcessed) } with
    | none => none
    | some (ret, s) =>
      let s := copyTmpOut s
      if ret.invalid then some (ret, updateChecksum s.out s.uncountTmpOut)
      else
        match if s.tmpOutProcessed = s.tmpOut.length then decodeBlocks ret s.blockRounds s else some (ret, s) with
        | none => none
        | some (ret, s) =>
          let s := overflowToTmpOut (saveHistory availOut (updateChecksum s.out s))
          if ret.invalid then some (ret, s.uncountTmpOut)
          else
            let (ret, s) := finishStream ret s
            some (ret.settle, s.uncountTmpOut)

/-- The check of a trailer that the input has ended in. -/
def resumeTrailer (s : InflateState) : ReturnCode × InflateState :=
  match s.crcFlag with
  | .zlib | .zlibNoHdrVer => checkZlibChecksum s
  | .gzip | .gzipNoHdrVer => checkGzipChecksum s
  | _ => (.decompOk, s)

/-- One call of `isal_inflate`; `out` is what it has written from its initial `next_out` on. -/
def isalInflate (s : InflateState) : Option (ReturnCode × InflateState) :=
  let s := { s with out := [] }
  if s.wrapperFlag = false ∧ s.crcFlag = .gzip then
    let (ret, _, s) := isalReadGzipHeader isalGzipHeaderInit s
    if ret.value < 0 then some (ret, s)
    else if 0 < ret.value then some (.decompOk, s)
    else inflateStream s
  else if s.wrapperFlag = false ∧ s.crcFlag = .zlib then
    let (ret, zHdr, s) := isalReadZlibHeader isalZlibHeaderInit s
    if ret.value < 0 then some (ret, s)
    else if 0 < ret.value then some (.decompOk, s)
    else if zHdr.dictFlag then some (.needDict, { s with count := zHdr.dictId })
    else inflateStream s
  else if s.blockState = .checksumCheck then
    let (ret, s) := resumeTrailer s
    some (ret.settle, s)
  else inflateStream s

end Isal.Inflate
