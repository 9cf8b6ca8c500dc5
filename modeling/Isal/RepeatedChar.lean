import Isal.StoredWriter

/-! The block that the stateless compressor writes for a run of one character at the start of its input. -/
namespace Isal.Deflate
open Inflate Bits

def codeLit : Nat := 0x1
def codeLitLength : Nat := 0x2
def code10 : Nat := 0x3
def code10Length : Nat := 0x4
def code280 : Nat := 0x0f
def code280Length : Nat := 0x4
def code280TotalLength : Nat := code280Length + 4 + 1
def endOfBlockCode : Nat := 0x7
def endOfBlockLen : Nat := 0x4
def headerLength : Nat := 16
def maxFixupCodeLength : Nat := 8

/-- The headers for 0x00 and 0xFF, with the first literal -/
def repeatedCharHeader (row : Nat) : List Nat :=
  if row = 0 then [0x0121c0ec, 0xc30c0000, 0x7d57fab0, 0x49270938] else [0x0121c0ec, 0xc30c0000, 0x7baaff30, 0x49270938]

/-- The loop over words: the position after those that equal `w` -/
def repeatedWords (input : Arr UInt8) (start length w p : Nat) : Nat :=
  if p + 8 ≤ length ∧ w = bytesVal (bytesAt input (start + p) 8) then repeatedWords input start length w (p + 8) else p
termination_by length - p

/-- The loop over bytes -/
def repeatedBytes (input : Arr UInt8) (start length : Nat) (c : UInt8) (p : Nat) : Nat :=
  if p < length ∧ c = input (start + p) then repeatedBytes input start length c (p + 1) else p
termination_by length - p

def detectRepeatedCharLength (input : Arr UInt8) (start length : Nat) : Nat :=
  let w := bytesVal (bytesAt input start 8)
  repeatedBytes input start length (.ofNat w) (repeatedWords input start length w 0)

/-- `while (rep_extra > 130 && rep_extra < 230)` -/
def write10sAbove130 (me : BitBuf2) (repExtra : Nat) : BitBuf2 × Nat :=
  if 130 < repExtra ∧ repExtra < 230 then write10sAbove130 (me.writeBits code10 code10Length) (repExtra - 10) else (me, repExtra)
termination_by repExtra

/-- `while (rep_extra >= 10)` -/
def write10s (me : BitBuf2) (repExtra : Nat) : BitBuf2 × Nat :=
  if 10 ≤ repExtra then write10s (me.writeBits code10 code10Length) (repExtra - 10) else (me, repExtra)
termination_by repExtra

def writeLits (me : BitBuf2) : (repExtra : Nat) → BitBuf2
  | 0 => me
  | repExtra + 1 => writeLits (me.writeBits codeLit codeLitLength) repExtra

/-- The repeats that are left over from those of length 258 -/
def writeRepExtra (me : BitBuf2) (repExtra : Nat) : BitBuf2 :=
  if 115 < repExtra then
    let (me, repExtra) := write10sAbove130 me repExtra
    let (me, repExtra) :=
      if 230 ≤ repExtra then
        (me.writeBits (code280 ||| (repExtra / 2 - 115) <<< code280Length) code280TotalLength, repExtra - repExtra / 2)
      else (me, repExtra)
    me.writeBits (code280 ||| (repExtra - 115) <<< code280Length) code280TotalLength
  else
    let (me, repExtra) := write10s me repExtra
    writeLits me repExtra

/-- `write_constant_compressed_stateless`, but for the checksum of the run -/
def writeConstantCompressedStateless (s : Zstream) (repeatedLength : Nat) : Zstream :=
  let repBits := (repeatedLength - 1) / 258 * 2
  let repBytes := repBits / 8
  let repExtra := (repeatedLength - 1) % 258
  let repeatedChar := (s.input s.nextIn).toNat
  if s.availOut < headerLength + maxFixupCodeLength + repBytes + 8 then s
  else
    let last := s.availIn = repeatedLength ∧ 0 < s.endOfStream
    let header := (repeatedCharHeader (repeatedChar &&& 1)).flatMap (toLeBytes · 4)
    let header := if last then header.modifyHead (· ||| 1) else header
    let s : Zstream := if last then { s with hasEobHdr := 1, hasEob := 1, state := .trl } else { s with state := .newHdr }
    let s := s.put (header ++ List.replicate repBytes 0)
    let bitbuf := writeRepExtra { s.bitbuf with bits := 0, bitCount := repBits % 8 } repExtra
    let s := s.setBitbuf (bitbuf.writeBits endOfBlockCode endOfBlockLen)
    { s with
      nextIn := s.nextIn + repeatedLength
      availIn := s.availIn - repeatedLength
      totalIn := (s.totalIn + repeatedLength) % 2 ^ 32
      blockEnd := (s.blockEnd + repeatedLength) % 2 ^ 32 }

end Isal.Deflate
