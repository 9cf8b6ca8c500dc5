import Isal.StoredRuns
import Isal.Checksum

/-! One-shot compression, which falls back to stored blocks when the compressed data does not fit. -/
namespace Isal.Deflate
open Inflate Bits Checksum

def noFlush : Nat := 0
def fullFlush : Nat := 2

def gzip : Nat := 1 -- IGZIP_GZIP
def gzipNoHdr : Nat := 2
def zlib : Nat := 3
def zlibNoHdr : Nat := 4

def gzipHdrBytes : Nat := 10
def gzipTrlBytes : Nat := 8
def zlibHdrBytes : Nat := 2
def zlibTrlBytes : Nat := 4

def type0BlkHdrLen : Nat := 5
def isalDefMaxHistBits : Nat := 15

/-- The sizes that are asked of the buffers of the levels, and that of the buffers in the state itself -/
def isalDefLvl1Min : Nat := 4 * 1024 + 2 * (8 * 1024) + 4 * 1024
def isalDefLvl2Min : Nat := 4 * 1024 + 2 * (32 * 1024) + 4 * 1024
def isalDefLvl3Min : Nat := 4 * 1024 + 4 * 4 * 1024 + 2 * (32 * 1024) + 4 * 1024
def stateBufSize : Nat := (2 * (32 * 1024) + 288) + 2 * (8 * 1024)

inductive CompRet where
  | compOk | invalidFlush | statelessOverflow | invalidLevel | invalidLevelBuf
  deriving DecidableEq, Repr

/-- `struct isal_zstream` with what a call without state looks at. The size of the level buffer is missing
when there is no buffer. -/
structure StatelessStream extends Zstream where
  flush : Nat
  gzipFlag : Nat
  level : Nat
  levelBuf : Option Nat
  histBits : Nat
  hasWrapHdr : Nat
  crc : Nat

namespace StatelessStream

def put (s : StatelessStream) (bytes : List UInt8) : StatelessStream := { s with toOutStream := s.toOutStream.put bytes }

def setBitbuf (s : StatelessStream) (me : BitBuf2) : StatelessStream := { s with toZstream := s.toZstream.setBitbuf me }

end StatelessStream

def checkLevelReq (s : StatelessStream) : CompRet :=
  if s.level = 0 then .compOk
  else
    match s.levelBuf with
    | none => .invalidLevelBuf
    | some size =>
      if s.level = 3 then if size < isalDefLvl3Min then .invalidLevel else .compOk
      else if s.level = 2 then if size < isalDefLvl2Min then .invalidLevel else .compOk
      else if s.level = 1 then if size < isalDefLvl1Min then .invalidLevel else .compOk
      else .invalidLevel

/-- The bytes of `_zlib_header_in_buffer` -/
def zlibHeaderInBuffer (s : StatelessStream) : List UInt8 :=
  let histBits := if s.histBits = 0 then isalDefMaxHistBits else s.histBits
  let info := if 8 < histBits then (histBits - 8) % 256 else 0
  let level := if s.level = 0 then 0 else 1
  let cmf := (8 ||| info <<< 4) % 256
  let flg := level <<< 6
  let flg := (flg + (31 - (256 * cmf + flg) % 31)) % 256
  [.ofNat cmf, .ofNat flg]

/-- The header that `write_stream_header_stateless` copies -/
def streamHeader (s : StatelessStream) : List UInt8 :=
  if s.gzipFlag = zlib then zlibHeaderInBuffer s
  else [0x1f, 0x8b, 0x08, 0x00, 0x00, 0x00, 0x00, 0x00, if s.level = 0 then 0x04 else 0x00, 0xff]

def writeStreamHeaderStateless (s : StatelessStream) : CompRet × StatelessStream :=
  if s.hasWrapHdr ≠ 0 then (.compOk, s)
  else
    let hdrBytes := if s.gzipFlag = zlib then zlibHdrBytes else gzipHdrBytes
    if s.availOut ≤ hdrBytes then (.statelessOverflow, s)
    else (.compOk, { s.put (streamHeader s) with hasWrapHdr := 1 })

/-- What follows the last block: the checksum, with the size of the input for gzip -/
def streamTrailer (s : StatelessStream) : List UInt8 :=
  if s.gzipFlag = gzip ∨ s.gzipFlag = gzipNoHdr then toLeBytes s.crc 4 ++ toLeBytes s.totalIn 4
  else if s.gzipFlag = zlib ∨ s.gzipFlag = zlibNoHdr then
    (toLeBytes (s.crc / 2 ^ 16 * 2 ^ 16 ||| (s.crc % 2 ^ 16 + 1) % adlerMod) 4).reverse
  else []

def writeTrailer (s : StatelessStream) : StatelessStream :=
  if s.hasEobHdr = 0 ∧ s.availOut < 8 then s
  else
    -- a static block with nothing in it, if no block was the final one
    let final := s.bitbuf.writeBits 0x003 10
    let bitbuf := if s.hasEobHdr = 0 then final else s.bitbuf
    if s.hasEobHdr = 0 ∧ s.nextOut + s.availOut - 8 < final.outBuf then { s.setBitbuf bitbuf with hasEobHdr := 1 }
    else if bitbuf.bitCount ≠ 0 ∧ s.availOut < 8 then s
    else
      let bitbuf := if bitbuf.bitCount ≠ 0 then bitbuf.flush else bitbuf
      let s := { s.setBitbuf bitbuf with hasEobHdr := if s.hasEobHdr = 0 then 1 else s.hasEobHdr }
      if s.availOut < (streamTrailer s).length then s else { s.put (streamTrailer s) with state := .end_ }

/-- `update_checksum` -/
def updateChecksum (s : StatelessStream) (data : List UInt8) : StatelessStream :=
  if s.gzipFlag = gzip ∨ s.gzipFlag = gzipNoHdr then { s with crc := crc32GzipRefl s.crc data }
  else if s.gzipFlag = zlib ∨ s.gzipFlag = zlibNoHdr then { s with crc := isalAdler32Bam1 s.crc data }
  else s

/-- The bytes that the wrapper adds -/
def wrapperBytes (gzipFlag : Nat) : Nat :=
  if gzipFlag = gzip then gzipHdrBytes + gzipTrlBytes
  else if gzipFlag = gzipNoHdr then gzipTrlBytes
  else if gzipFlag = zlib then zlibHdrBytes + zlibTrlBytes
  else if gzipFlag = zlibNoHdr then zlibTrlBytes
  else 0

/-- `stored_len`, in 32 bits -/
def storedLen (availIn gzipFlag : Nat) : Nat :=
  let storedLen :=
    if availIn = 0 then type0BlkHdrLen
    else
      let storedLen := type0BlkHdrLen * ((availIn + type0MaxBlkLen - 1) % 2 ^ 32 / type0MaxBlkLen) % 2 ^ 32
      (storedLen + availIn) % 2 ^ 32
  (storedLen + wrapperBytes gzipFlag) % 2 ^ 32

/-- The stream that `isal_deflate_stateless` hands to the compressor, but for the bound on its output -/
def statelessStart (s : StatelessStream) : StatelessStream :=
  { s with
    blockNext := s.totalIn
    blockEnd := s.totalIn
    hasEobHdr := 0
    bits := 0
    bitCount := 0
    state := .newHdr
    crc := 0
    endOfStream := if s.flush = noFlush then 1 else s.endOfStream
    levelBuf := if s.level = 1 ∧ s.levelBuf = none then some stateBufSize else s.levelBuf }

/-- The stream that the stored blocks are written to. Of what the compressor has done only the bytes in
the output are left. -/
def storedStart (s : StatelessStream) (memory : Arr UInt8) : StatelessStream :=
  { statelessStart s with
    memory := memory
    nextIn := s.nextIn + s.availIn
    availIn := 0
    totalIn := s.availIn
    blockNext := 0
    blockEnd := s.availIn
    count := 0 }

/-- What is done behind the stored blocks -/
def finishStored (s t : StatelessStream) : StatelessStream :=
  let t := { t with totalIn := (s.totalIn + s.availIn) % 2 ^ 32 }
  let t := if t.gzipFlag ≠ 0 then updateChecksum { t with crc := 0 } (bytesAt s.input s.nextIn s.availIn) else t
  if t.endOfStream ≠ 0 then writeTrailer t else t

/-- The fallback -/
def storeStateless (s : StatelessStream) (memory : Arr UInt8) : Option StatelessStream := do
  let t := storedStart s memory
  let t := if t.gzipFlag = gzip ∨ t.gzipFlag = zlib then (writeStreamHeaderStateless t).2 else t
  let (_, block) ← writeStoredBlock { t.toZstream with state := .type0Hdr }
  return finishStored s { t with toZstream := block }

/-- The call of the compressor. What it does behind the header of the wrapper is a parameter; it only reads
the input. -/
def isalDeflateIntStateless (compress : StatelessStream → CompRet × StatelessStream) (s : StatelessStream) :
    CompRet × StatelessStream :=
  if s.gzipFlag = gzip ∨ s.gzipFlag = zlib then
    if (writeStreamHeaderStateless s).1 ≠ .compOk then (.statelessOverflow, (writeStreamHeaderStateless s).2)
    else compress (writeStreamHeaderStateless s).2
  else compress s

/-- The stream for the compressor, whose room is bounded by the size of the stored blocks -/
def compressStart (s : StatelessStream) : StatelessStream :=
  { statelessStart s with
    availOut := if storedLen s.availIn s.gzipFlag ≤ s.availOut then storedLen s.availIn s.gzipFlag else s.availOut }

def isalDeflateStateless (compress : StatelessStream → CompRet × StatelessStream) (s : StatelessStream) :
    Option (CompRet × StatelessStream) :=
  if s.flush ≠ noFlush ∧ s.flush ≠ fullFlush then some (.invalidFlush, statelessStart s)
  else if checkLevelReq (statelessStart s) ≠ .compOk then some (checkLevelReq (statelessStart s), statelessStart s)
  else
    let storedLen := storedLen s.availIn s.gzipFlag
    let (ret, t) := isalDeflateIntStateless compress (compressStart s)
    let t := { t with availOut := if storedLen ≤ s.availOut then t.availOut + (s.availOut - storedLen) else t.availOut }
    if ret = .compOk then some (.compOk, t)
    else if s.availOut < storedLen then some (.statelessOverflow, { t with hasEobHdr := 0 })
    else (storeStateless s t.memory).map fun t => (.compOk, t)

end Isal.Deflate
