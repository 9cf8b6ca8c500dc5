import Isal.DeflateBody
import Isal.RepeatedChar

/-! A pass of the level 0 compressor over its states, and the call without state that is made of one pass. -/
namespace Isal.Deflate
open Inflate Bits Checksum HuffCodes

def forceFlush : Nat := 64
def minRepeatLen : Nat := 4 * 1024
def lvl0HashMask : Nat := 8 * 1024 - 1

namespace BitBuf2

def checkSpace (me : BitBuf2) (numBits : Nat) : BitBuf2 :=
  if (63 + 2 ^ 32 - me.bitCount) % 2 ^ 32 < numBits then me.flushBits else me

end BitBuf2

namespace DeflateStream

/-- `set_dist_mask` -/
def setDistMask (b : Build) (s : DeflateStream) : DeflateStream :=
  let histBits := if isalDefMaxHistBits < s.histBits ∨ s.histBits = 0 then isalDefMaxHistBits else s.histBits
  let distMask := 2 ^ histBits - 1
  { s with
    histBits
    distMask := if b.histSize < 32 * 1024 ∧ b.histSize - 1 < distMask then b.histSize - 1 else distMask }

/-- `set_hash_mask` -/
def setHashMask (b : Build) (s : DeflateStream) : DeflateStream :=
  if s.level = 3 then { s with hashMask := b.histSize - 1 }
  else if s.level = 2 then { s with hashMask := b.histSize - 1 }
  else if s.level = 1 then { s with hashMask := 8 * 1024 - 1 }
  else if s.level = 0 then { s with hashMask := lvl0HashMask }
  else s

/-- `reset_match_history` at level 0. What is set has at least the size of a `wchar_t`. -/
def resetMatchHistory (s : DeflateStream) : DeflateStream :=
  let hashTableSize := 2 * (s.hashMask + 1)
  let hashTableSize := if hashTableSize ≤ 4 then 4 else hashTableSize
  { s with hasHist := igzipNoHist, head := s.head.fill 0 (hashTableSize / 2) (s.totalIn % 2 ^ 16) }

def updateChecksum (s : DeflateStream) (data : List UInt8) : DeflateStream :=
  { s with toStatelessStream := Deflate.updateChecksum s.toStatelessStream data }

end DeflateStream

def syncFlush (s : DeflateStream) : DeflateStream :=
  if 8 ≤ s.availOut then
    let flushSize := (8 - (s.bitCount + 3) % 8) % 8
    let bitsToWrite := 0xFFFF0000 <<< (flushSize + 3) % 2 ^ 64
    let bitsLen := 32 + flushSize + 3
    { s.setBitbuf (s.bitbuf.writeBits bitsToWrite bitsLen) with
      state := .newHdr
      hasEob := 0
      hasHist := if s.flush = fullFlush then igzipNoHist else s.hasHist }
  else s

def flushWriteBuffer (s : DeflateStream) : DeflateStream :=
  if 8 ≤ s.availOut then { s.setBitbuf s.bitbuf.flush with state := .newHdr } else s

/-- `count` says how much of the header earlier calls have written. -/
def writeStreamHeader (s : DeflateStream) : DeflateStream :=
  if s.hasWrapHdr ≠ 0 then s
  else
    let hdrBytes := if s.gzipFlag = zlib then zlibHdrBytes else gzipHdrBytes
    let bytesToWrite := (hdrBytes + 2 ^ 32 - s.count) % 2 ^ 32
    let bytesToWrite := if s.availOut < bytesToWrite then s.availOut else bytesToWrite
    let t := s.put (((streamHeader s.toStatelessStream).drop s.count).take bytesToWrite)
    if s.count + bytesToWrite = hdrBytes then { t with count := 0, hasWrapHdr := 1 }
    else { t with count := s.count + bytesToWrite }

/-- The part of `write_header` behind the header of the wrapper: the bytes of the block header that fit, of which the
first one is changed for a block that is not the last, and then the bits behind them. -/
def writeBlockHeader (s : DeflateStream) (deflateHdr : Arr UInt8) (deflateHdrCount extraBitsCount : Nat) (nextState : Zstate)
    (toggleEndOfStream : Bool) : DeflateStream :=
  let hdrExtraBits := (deflateHdr deflateHdrCount).toNat
  let count := (deflateHdrCount + 2 ^ 32 - s.count) % 2 ^ 32
  let toggled := if s.hasEobHdr = 0 then 1 else 0
  let (s, count, hdrExtraBits) :=
    if count ≠ 0 then
      let count := if s.availOut < count then s.availOut else count
      let bytes := bytesAt deflateHdr s.count count
      let t : DeflateStream :=
        if toggleEndOfStream ∧ s.count = 0 ∧ 0 < count then { s.put (bytes.modifyHead (· ^^^ 1)) with hasEobHdr := toggled }
        else s.put bytes
      let t := { t with count := t.count + count }
      (t, (deflateHdrCount + 2 ^ 32 - t.count) % 2 ^ 32, hdrExtraBits)
    else if toggleEndOfStream ∧ deflateHdrCount = 0 then ({ s with hasEobHdr := toggled }, count, hdrExtraBits ^^^ 1)
    else (s, count, hdrExtraBits)
  if count = 0 ∧ 8 ≤ s.availOut then
    { s.setBitbuf (s.bitbuf.writeBits hdrExtraBits extraBitsCount) with state := nextState, count := 0 }
  else s

def writeHeader (s : DeflateStream) (deflateHdr : Arr UInt8) (deflateHdrCount extraBitsCount : Nat) (nextState : Zstate)
    (toggleEndOfStream : Bool) : DeflateStream :=
  let s : DeflateStream := { s with state := .hdr }
  if s.bitCount ≠ 0 ∧ s.availOut < 8 then s
  else
    let s := if s.bitCount ≠ 0 then s.setBitbuf s.bitbuf.flush else s
    let s := if s.gzipFlag = gzip ∨ s.gzipFlag = zlib then writeStreamHeader s else s
    writeBlockHeader s deflateHdr deflateHdrCount extraBitsCount nextState toggleEndOfStream

/-- The states that write blocks -/
def writeStates (b : HashBuild) (s : DeflateStream) : DeflateStream :=
  let s :=
    if s.state = .newHdr ∨ s.state = .hdr then
      let s := if s.count = 0 then { s with hasEobHdr := 1 } else s
      writeHeader s s.hufftables.deflateHdr s.hufftables.deflateHdrCount s.hufftables.deflateHdrExtraBits .body (s.endOfStream = 0)
    else s
  let s := if s.state = .body then isalDeflateBodyBase b s else s
  let s := if s.state = .flushReadBuffer then isalDeflateFinishBase b s else s
  let s := if s.state = .syncFlush then syncFlush s else s
  if s.state = .flushWriteBuffer then flushWriteBuffer s else s

def isalDeflatePass (b : HashBuild) (s : DeflateStream) : DeflateStream :=
  let startIn := s.nextIn
  let s := writeStates b s
  let s := if s.gzipFlag ≠ 0 then s.updateChecksum (bytesAt s.input startIn (s.nextIn - startIn)) else s
  if s.state = .trl then { s with toStatelessStream := writeTrailer s.toStatelessStream } else s

/-- A block header at the start of a byte, for which there must be room -/
def writeDeflateHeaderStateless (s : DeflateStream) : DeflateStream :=
  let h := s.hufftables
  let hdrExtraBits := (h.deflateHdr h.deflateHdrCount).toNat
  if s.availOut ≤ h.deflateHdrCount + 8 then s
  else
    let bytes := bytesAt h.deflateHdr 0 h.deflateHdrCount
    let last := s.endOfStream ≠ 0
    let bytes := if last then bytes else bytes.modifyHead (· - 1)
    let hdrExtraBits := if ¬last ∧ h.deflateHdrCount = 0 then hdrExtraBits - 1 else hdrExtraBits
    let s : DeflateStream := { s.put bytes with hasEobHdr := if last then 1 else s.hasEobHdr }
    { s.setBitbuf (s.bitbuf.writeBits hdrExtraBits h.deflateHdrExtraBits) with state := .body }

/-- The loop over the words of a block header -/
def writeHeaderWords (deflateHdr : Arr UInt8) : (left headerNext headerBits : Nat) → BitBuf2 → Nat × BitBuf2
  | 0, _, headerBits, me => (headerBits, me)
  | left + 1, headerNext, headerBits, me =>
    writeHeaderWords deflateHdr left (headerNext + 8) (loadLeU64 deflateHdr headerNext)
      ((me.writeBits headerBits 32).writeBits (headerBits >>> 32) 32)

def writeDeflateHeaderUnalignedStateless (s : DeflateStream) : DeflateStream :=
  let h := s.hufftables
  if s.bitCount = 0 then writeDeflateHeaderStateless s
  else if s.availOut ≤ h.deflateHdrCount + 16 then s
  else
    let last := s.endOfStream ≠ 0
    let headerBits := loadLeU64 h.deflateHdr 0
    let headerBits := if last then headerBits else (headerBits + 2 ^ 64 - 1) % 2 ^ 64
    let (headerBits, me) := writeHeaderWords h.deflateHdr (h.deflateHdrCount / 8) 8 headerBits s.bitbuf
    let bitCount := h.deflateHdrCount % 8 * 8 + h.deflateHdrExtraBits
    let (headerBits, bitCount, me) :=
      if maxBitbufBitWrite < bitCount then
        (headerBits >>> maxBitbufBitWrite, bitCount - maxBitbufBitWrite, me.writeBits headerBits maxBitbufBitWrite)
      else (headerBits, bitCount, me)
    { s.setBitbuf ((me.writeBits headerBits bitCount).checkSpace forceFlush) with
      hasEobHdr := if last then 1 else s.hasEobHdr
      state := .body }

/-- `write_constant_compressed_stateless` with the checksum of the run -/
def writeConstantCompressed (s : DeflateStream) (repeatedLength : Nat) : DeflateStream :=
  if s.availOut < headerLength + maxFixupCodeLength + (repeatedLength - 1) / 258 * 2 / 8 + 8 then s
  else
    let t : DeflateStream := { s with toZstream := writeConstantCompressedStateless s.toZstream repeatedLength }
    if s.gzipFlag ≠ 0 then t.updateChecksum (bytesAt s.input s.nextIn repeatedLength) else t

/-- What `isal_deflate_int_stateless` does behind the header of the wrapper, for level 0 -/
def compressLevel0 (b : HashBuild) (s : DeflateStream) : CompRet × DeflateStream :=
  let word := loadLeU64 s.input s.nextIn
  let s :=
    if 8 ≤ s.availIn ∧ (word = 0 ∨ word = 2 ^ 64 - 1) then
      let repeatLength := detectRepeatedCharLength s.input s.nextIn s.availIn
      if s.availIn = repeatLength ∨ minRepeatLen ≤ repeatLength then writeConstantCompressed s repeatLength else s
    else s
  let atHeader := s.state = .newHdr ∨ s.state = .hdr
  let s := if atHeader then writeDeflateHeaderUnalignedStateless s else s
  if s.state = .newHdr ∨ s.state = .hdr then (.statelessOverflow, s)
  else
    let s := if atHeader then s.resetMatchHistory else s
    let s := isalDeflatePass b s
    (if s.state = .end_ ∨ s.state = .newHdr ∧ s.flush = fullFlush then .compOk else .statelessOverflow, s)

/-- The stream with its tables and masks, as `isal_deflate_stateless` sets them for level 0 -/
def withTables (b : HashBuild) (hufftables : Hufftables) (head : Arr Nat) (s : StatelessStream) : DeflateStream :=
  let t : DeflateStream := { toStatelessStream := s, hufftables, head, distMask := 0, hashMask := 0, hasHist := igzipNoHist }
  let t := (t.setDistMask b.toBuild).setHashMask b.toBuild
  { t with hashMask := if 2 * s.availIn % 2 ^ 32 < t.hashMask then 2 ^ bsr s.availIn - 1 else t.hashMask }

/-- The compressor for a stream without state, as far as it is that of level 0 -/
def compressStateless (b : HashBuild) (hufftables : Hufftables) (head : Arr Nat)
    (otherLevels : StatelessStream → CompRet × StatelessStream) (s : StatelessStream) : CompRet × StatelessStream :=
  if s.level = 0 then
    let (ret, t) := compressLevel0 b (withTables b hufftables head s)
    (ret, t.toStatelessStream)
  else otherLevels s

end Isal.Deflate
