import Isal.Checksum
import Isal.InflateDecode

/-! The gzip and zlib wrappers around a deflate stream, and decompression in one call. -/
namespace Isal.Inflate

open Isal.Bits Isal.Checksum

/-- `struct isal_gzip_header`; a buffer is absent where its pointer is `NULL`. -/
structure GzipHeader where
  text : Nat := 0
  time : Nat := 0
  xflags : Nat := 0
  os : Nat := 0xff
  extra : Option (Arr UInt8) := none
  extraBufLen : Nat := 0
  extraLen : Nat := 0
  name : Option (Arr UInt8) := none
  nameBufLen : Nat := 0
  comment : Option (Arr UInt8) := none
  commentBufLen : Nat := 0
  hcrc : Nat := 0
  flags : Nat := 0

structure ZlibHeader where
  info : Nat := 0
  level : Nat := 0
  dictId : Nat := 0
  dictFlag : Bool := false
  deriving Repr, DecidableEq

def isalGzipHeaderInit : GzipHeader := {}
def isalZlibHeaderInit : ZlibHeader := {}

/-- Moving `next_in` over `n` bytes. -/
def InflateState.skip (s : InflateState) (n : Nat) : InflateState :=
  { s with nextIn := s.nextIn + n, availIn := s.availIn - n }

/-- `fixed_size_read`: the bytes, gathered in `tmp_in_buffer` where they come in pieces;
`none` is the return value `ISAL_END_INPUT`. -/
def fixedSizeRead (readSize : Nat) (s : InflateState) : Option (List UInt8) × InflateState :=
  if s.availIn + s.tmpIn.length < readSize then
    (none, { s.skip s.availIn with tmpIn := s.tmpIn ++ s.pending })
  else
    let fromInput := readSize - s.tmpIn.length
    (some (s.tmpIn ++ s.pending.take fromInput), { s.skip fromInput with tmpIn := [] })

def storeBytes (buf : Arr UInt8) (offset : Nat) (bytes : List UInt8) : Arr UInt8 :=
  ⟨fun i => if offset ≤ i then bytes[i - offset]?.getD (buf i) else buf i⟩

def bufferHeaderCopy (inLen : Nat) (buf : Option (Arr UInt8)) (bufferLen offset : Nat) (bufError : ReturnCode)
    (s : InflateState) : ReturnCode × Option (Arr UInt8) × InflateState :=
  let len := min inLen s.availIn
  let bufLen := bufferLen - offset
  if buf.isSome ∧ bufLen < len then
    (bufError, buf.map (storeBytes · offset (s.pending.take bufLen)),
      { s.skip bufLen with count := inLen - bufLen })
  else
    (if len = inLen then .decompOk else .endInput, buf.map (storeBytes · offset (s.pending.take len)),
      { s.skip len with count := inLen - len })

def stringHeaderCopy (strBuf : Option (Arr UInt8)) (strLen offset : Nat) (strError : ReturnCode)
    (s : InflateState) : ReturnCode × Option (Arr UInt8) × InflateState :=
  let maxLen := if s.availIn < strLen - offset ∨ strBuf = none then s.availIn else strLen - offset
  let text := (s.pending.take maxLen).takeWhile (· ≠ 0)
  let len := text.length
  let strBuf := strBuf.map (storeBytes · offset text)
  let s := { s.skip len with count := s.count + len }
  if strBuf.isSome ∧ len = strLen - offset then (strError, strBuf, s)
  else if s.availIn = 0 then (.endInput, strBuf, s)
  else (.decompOk, strBuf.map (·.set (offset + len) 0), { s.skip 1 with count := 0 })

def hcrcFlag : Nat := 1 -- bit of HCRC_FLAG
def extraFlag : Nat := 2
def nameFlag : Nat := 3
def commentFlag : Nat := 4

/-- What `isal_read_gzip_header` keeps in local variables. -/
structure GzipRead where
  state : InflateState
  gzHdr : GzipHeader
  /-- All ones where it is undefined. -/
  flags : Nat
  hcrc : Nat
  startIn : Int

def GzipRead.consumed (g : GzipRead) : List UInt8 :=
  (g.state.buf.drop g.startIn.toNat).take (g.state.nextIn - g.startIn).toNat

/-- The part after the switch. -/
def GzipRead.stop (ret : ReturnCode) (g : GzipRead) : ReturnCode × GzipHeader × InflateState :=
  let gzHdr := if g.flags.testBit hcrcFlag
    then { g.gzHdr with hcrc := crc32GzipRefl g.hcrc g.consumed } else g.gzHdr
  (ret, gzHdr, g.state)

def readHcrc (g : GzipRead) : ReturnCode × GzipHeader × InflateState :=
  match fixedSizeRead 2 g.state with
  | (none, s) => (.endInput, g.gzHdr, { s with blockState := .gzipHcrc })
  | (some bytes, s) =>
    if g.hcrc % 2 ^ 16 ≠ bytesVal bytes then (.incorrectChecksum, g.gzHdr, s)
    else (.decompOk, g.gzHdr, { s with wrapperFlag := true, blockState := .newHdr })

def readAfterComment (g : GzipRead) : ReturnCode × GzipHeader × InflateState :=
  if g.flags.testBit hcrcFlag then
    let hcrc := crc32GzipRefl g.hcrc g.consumed
    readHcrc { g with hcrc, gzHdr := { g.gzHdr with hcrc } }
  else (.decompOk, g.gzHdr, { g.state with wrapperFlag := true, blockState := .newHdr })

def readComment (g : GzipRead) : ReturnCode × GzipHeader × InflateState :=
  let (ret, comment, state) := stringHeaderCopy g.gzHdr.comment g.gzHdr.commentBufLen g.state.count
    .commentOverflow g.state
  let g := { g with gzHdr := { g.gzHdr with comment }, state }
  if ret ≠ .decompOk then { g with state := { state with blockState := .gzipComment } }.stop ret
  else readAfterComment g

def readAfterName (g : GzipRead) : ReturnCode × GzipHeader × InflateState :=
  if g.flags.testBit commentFlag then readComment g else readAfterComment g

def readName (g : GzipRead) : ReturnCode × GzipHeader × InflateState :=
  let (ret, name, state) := stringHeaderCopy g.gzHdr.name g.gzHdr.nameBufLen g.state.count
    .nameOverflow g.state
  let g := { g with gzHdr := { g.gzHdr with name }, state }
  if ret ≠ .decompOk then { g with state := { state with blockState := .gzipName } }.stop ret
  else readAfterName g

def readAfterExtra (g : GzipRead) : ReturnCode × GzipHeader × InflateState :=
  if g.flags.testBit nameFlag then readName g else readAfterName g

def readExtra (count : Nat) (g : GzipRead) : ReturnCode × GzipHeader × InflateState :=
  let (ret, extra, state) := bufferHeaderCopy count g.gzHdr.extra g.gzHdr.extraBufLen
    (g.gzHdr.extraLen - count) .extraOverflow g.state
  let g := { g with gzHdr := { g.gzHdr with extra }, state }
  if ret ≠ .decompOk then { g with state := { state with blockState := .gzipExtra } }.stop ret
  else readAfterExtra g

def readExtraLen (g : GzipRead) : ReturnCode × GzipHeader × InflateState :=
  match fixedSizeRead 2 g.state with
  | (none, s) => { g with state := { s with blockState := .gzipExtraLen } }.stop .endInput
  | (some bytes, state) =>
    let xlen := bytesVal bytes
    readExtra xlen { g with state, gzHdr := { g.gzHdr with extraLen := xlen } }

def readGzipBase (g : GzipRead) : ReturnCode × GzipHeader × InflateState :=
  let g := { g with
    state := { g.state with count := 0 }
    flags := 2 ^ 32 - 1
    hcrc := if g.state.tmpIn.length = 0 then 0 else g.hcrc }
  match fixedSizeRead 10 g.state with
  | (none, state) => { g with state }.stop .endInput
  | (some nextIn, state) =>
    let byte := fun i => (nextIn[i]?.getD 0).toNat
    let flags := byte 3
    let gzHdr := { g.gzHdr with
      time := bytesVal ((nextIn.drop 4).take 4), xflags := byte 8, os := byte 9 }
    if byte 0 ≠ 0x1f ∨ byte 1 ≠ 0x8b then (.invalidWrapper, gzHdr, state)
    else if byte 2 ≠ 8 then (.unsupportedMethod, gzHdr, state)
    else
      let gzHdr := { gzHdr with text := flags % 2, flags }
      let g := { g with state, gzHdr, flags }
      if flags.testBit extraFlag then readExtraLen g
      else readAfterExtra { g with gzHdr := { gzHdr with extraLen := 0 } }

/-- `isal_read_gzip_header`, entered where the last call stopped. -/
def isalReadGzipHeader (gzHdr : GzipHeader) (state : InflateState) : ReturnCode × GzipHeader × InflateState :=
  let g : GzipRead := { state, gzHdr, flags := gzHdr.flags, hcrc := gzHdr.hcrc, startIn := state.nextIn }
  match state.blockState with
  | .newHdr => readGzipBase g
  | .gzipExtraLen => readExtraLen g
  | .gzipExtra => readExtra state.count g
  | .gzipName => readName g
  | .gzipComment => readComment g
  | .gzipHcrc => readHcrc g
  | _ => g.stop .decompOk

def readDictId (zlibHdr : ZlibHeader) (s : InflateState) : ReturnCode × ZlibHeader × InflateState :=
  match fixedSizeRead 4 s with
  | (none, s) => (.endInput, zlibHdr, { s with blockState := .zlibDict })
  | (some bytes, s) =>
    (.decompOk, { zlibHdr with dictId := bytesVal bytes.reverse },
      { s with wrapperFlag := true, blockState := .newHdr })

def isalReadZlibHeader (zlibHdr : ZlibHeader) (s : InflateState) : ReturnCode × ZlibHeader × InflateState :=
  match s.blockState with
  | .newHdr =>
    match fixedSizeRead 2 s with
    | (none, s) => (.endInput, { zlibHdr with dictFlag := false }, s)
    | (some nextIn, s) =>
      let cmf := (nextIn[0]?.getD 0).toNat
      let flags := (nextIn[1]?.getD 0).toNat
      let zlibHdr := { zlibHdr with info := cmf >>> 4, dictFlag := flags.testBit 5, level := flags >>> 6 }
      if cmf % 2 ^ 4 ≠ 8 then (.unsupportedMethod, zlibHdr, s)
      else if (256 * cmf + flags) % 31 ≠ 0 then (.incorrectChecksum, zlibHdr, s)
      else if zlibHdr.dictFlag then readDictId zlibHdr s
      else (.decompOk, zlibHdr, { s with wrapperFlag := true, blockState := .newHdr })
  | .zlibDict => readDictId zlibHdr s
  | _ => (.decompOk, zlibHdr, s)

def updateChecksum (bytes : List UInt8) (s : InflateState) : InflateState :=
  match s.crcFlag with
  | .gzip | .gzipNoHdr | .gzipNoHdrVer => { s with crc := crc32GzipRefl s.crc bytes }
  | .zlib | .zlibNoHdr | .zlibNoHdrVer => { s with crc := isalAdler32Bam1 s.crc bytes }
  | .deflate => s

def finalizeAdler32 (s : InflateState) : InflateState :=
  { s with crc := s.crc / 2 ^ 16 * 2 ^ 16 ||| (s.crc % 2 ^ 16 + 1) % adlerMod }

/-- Whole bytes of `read_in` go to `tmp_in_buffer`, before the bytes that are still to come. -/
def stashReadIn (s : InflateState) : InflateState :=
  if 8 ≤ s.readInLength then
    { s with
      tmpIn := s.tmpIn ++ toLeBytes (s.readIn >>> (s.readInLength % 8).toNat) (s.readInLength / 8).toNat
      readIn := 0
      readInLength := 0 }
  else s

def checkGzipChecksum (s : InflateState) : ReturnCode × InflateState :=
  let (trailer, s) :=
    if 64 ≤ s.readInLength then (some (s.readIn % 2 ^ 64), { s with readIn := 0, readInLength := 0 })
    else
      let (bytes, s) := fixedSizeRead 8 (stashReadIn s)
      (bytes.map bytesVal, s)
  match trailer with
  | none => (.endInput, { s with blockState := .checksumCheck })
  | some trailer =>
    (if trailer = s.crc ||| s.totalOut.toNat <<< 32 then .decompOk else .incorrectChecksum,
      { s with blockState := .finish })

def checkZlibChecksum (s : InflateState) : ReturnCode × InflateState :=
  let (trailer, s) :=
    if 32 ≤ s.readInLength then
      let inp := s.toInStream.consume (s.readInLength % 8).toNat
      (some (toLeBytes inp.readIn 4), s.withIn (inp.consume 32))
    else fixedSizeRead 4 (stashReadIn s)
  match trailer with
  | none => (.endInput, { s with blockState := .checksumCheck })
  | some trailer =>
    (if bytesVal trailer.reverse = s.crc then .decompOk else .incorrectChecksum,
      { s with blockState := .finish })

/-- The header that comes first, by `crc_flag`. -/
def readWrapper (s : InflateState) : ReturnCode × InflateState :=
  match s.crcFlag with
  | .gzip =>
    let (ret, _, s) := isalReadGzipHeader isalGzipHeaderInit s
    (ret, s)
  | .zlib =>
    let (ret, zHdr, s) := isalReadZlibHeader isalZlibHeaderInit s
    (if ret = .decompOk ∧ zHdr.dictFlag then .needDict else ret, s)
  | _ => (.decompOk, s)

/-- The checks at the end of a stream. -/
def checkTrailer (s : InflateState) : ReturnCode × InflateState :=
  match s.crcFlag with
  | .zlib | .zlibNoHdrVer => checkZlibChecksum (finalizeAdler32 s)
  | .zlibNoHdr => (.decompOk, finalizeAdler32 s)
  | .gzip | .gzipNoHdrVer => checkGzipChecksum s
  | _ => (.decompOk, s)

/-- Decompression in one call; `out` is what has been written from the initial `next_out` on. -/
def isalInflateStateless (s : InflateState) : Option (ReturnCode × InflateState) :=
  let s := { s with
    readIn := 0, readInLength := 0, blockState := .newHdr, dictLength := 0, bfinal := 0, crc := 0
    totalOut := 0, histBits := 0, tmpIn := [], out := [] }
  let (ret, s) := readWrapper s
  if ret ≠ .decompOk then some (ret, s)
  else
    match inflateBlocks (s.bitsLeft + 2) s with
    | none => none
    | some (ret, s) =>
      let s := s.withIn s.unread
      if ret = .decompOk ∧ s.crcFlag ≠ .deflate then some (checkTrailer (updateChecksum s.out s))
      else some (ret, s)

/-- A raw stream has neither a header of its own nor a trailer. -/
theorem isalInflateStateless_raw {s t : InflateState} {ret : ReturnCode} (raw : s.crcFlag = .deflate)
    (kept : t.crcFlag = .deflate)
    (blocks :
      let start := { s with
        readIn := 0, readInLength := 0, blockState := .newHdr, dictLength := 0, bfinal := 0, crc := 0
        totalOut := 0, histBits := 0, tmpIn := [], out := [] }
      inflateBlocks (start.bitsLeft + 2) start = some (ret, t)) :
    isalInflateStateless s = some (ret, t.withIn t.unread) := by
  dsimp only at blocks
  simp only [isalInflateStateless, readWrapper, raw, ne_eq, not_true, if_false] at blocks ⊢
  rw [blocks]
  exact if_neg fun h => h.2 kept

end Isal.Inflate
