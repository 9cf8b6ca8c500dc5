import Isal.HeaderRoundTrip

/-! The tables for a custom code, as `isal_create_hufftables` and its variant for a subset of the
literals in `huff_codes.c` fill them, and the functions of `huffman.h` that take a code out of them. -/
namespace Isal.HuffCodes
open Bits Deflate Loops

def litLen : Nat := 286
def distLen : Nat := 30
def isalDefLitSymbols : Nat := 257
def lengthBits : Nat := 5
def maxBitbufBitWrite : Nat := 56
/-- What the build sets: `LONGER_HUFFTABLE` and `IGZIP_HIST_SIZE` -/
structure Build where
  longerHufftable : Bool
  histSize : Nat

def Build.distTableSize (b : Build) : Nat := if b.longerHufftable then 8 * 1024 else 2

/-- `DCODE_OFFSET` and `IGZIP_DECODE_OFFSET` -/
def Build.dcodeOffset (b : Build) : Nat := if b.longerHufftable then 26 else 0

/-- `struct isal_hufftables` -/
structure Hufftables where
  deflateHdr : Arr UInt8
  deflateHdrCount : Nat
  deflateHdrExtraBits : Nat
  distTable : Arr Nat
  lenTable : Arr Nat
  litTable : Arr Nat
  litTableSizes : Arr Nat
  dcodes : Arr Nat
  dcodesSizes : Arr Nat

/-- The number of bits of `val` -/
def bsr (val : Nat) : Nat := if val = 0 then 0 else Nat.log2 val + 1

/-- A packed table, and how far the loops over symbols have come -/
structure Packing where
  table : Arr Nat := .const 0
  count : Nat := 0
  extraBitsCount : Nat := 0
  gainExtraBits : Nat

/-- An entry of a packed table -/
def packedCode (hufftable : HuffTable) (i extraBits extraBitsCount : Nat) : Nat :=
  (extraBits <<< (hufftable.length i + lengthBits) ||| hufftable.code i <<< lengthBits |||
    (hufftable.length i + extraBitsCount)) % 2 ^ 32

/-- The loop over the values of the extra bits. It ends early when the table is full, and so does
what comes after it. -/
def packExtraBits (hufftable : HuffTable) (size i : Nat) (s : Packing) : Packing :=
  forRange 0 (1 <<< s.extraBitsCount) (fun extraBits s =>
    if size ≤ s.count then s
    else { s with table := s.table.set s.count (packedCode hufftable i extraBits s.extraBitsCount), count := s.count + 1 }) s

/-- One symbol of a packed table; the number of extra bits grows every `interval` symbols. -/
def packSymbol (hufftable : HuffTable) (size interval i : Nat) (s : Packing) : Packing :=
  let s := packExtraBits hufftable size i s
  if i = s.gainExtraBits then
    { s with gainExtraBits := s.gainExtraBits + interval, extraBitsCount := s.extraBitsCount + 1 }
  else s

/-- A greatest length with extra bits, and how far the loop over symbols has come -/
structure Longest where
  maxCodeLen : Nat := 0
  extraBits : Nat := 0
  gainExtraBits : Nat

/-- One symbol of a loop for the greatest length -/
def longestSymbol (length : Arr Nat) (interval i : Nat) (s : Longest) : Longest :=
  let s := if s.maxCodeLen < length i + s.extraBits then { s with maxCodeLen := length i + s.extraBits } else s
  if i = s.gainExtraBits then
    { s with gainExtraBits := s.gainExtraBits + interval, extraBits := s.extraBits + 1 }
  else s

/-- `compute_dist_code`: a code and its length -/
def Hufftables.computeDistCode (h : Hufftables) (b : Build) (dist : Nat) : Nat × Nat :=
  let dist := dist - 1
  let numExtraBits := bsr dist - 2
  let extraBits := dist % 2 ^ numExtraBits
  let sym := dist >>> numExtraBits + 2 * numExtraBits
  let code := h.dcodes (sym - b.dcodeOffset)
  let len := h.dcodesSizes (sym - b.dcodeOffset)
  (code ||| extraBits <<< len, len + numExtraBits)

def Hufftables.getDistCode (h : Hufftables) (b : Build) (dist : Nat) : Nat × Nat :=
  if dist ≤ b.distTableSize then
    (h.distTable (dist - 1) >>> 5, h.distTable (dist - 1) % 2 ^ 5)
  else h.computeDistCode b dist

def Hufftables.getLenCode (h : Hufftables) (length : Nat) : Nat × Nat :=
  (h.lenTable (length - 3) >>> 5, h.lenTable (length - 3) % 2 ^ 5)

def Hufftables.getLitCode (h : Hufftables) (lit : Nat) : Nat × Nat := (h.litTable lit, h.litTableSizes lit)

end Isal.HuffCodes
