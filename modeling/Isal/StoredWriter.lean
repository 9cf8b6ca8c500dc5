import Isal.GzipWriter
import Isal.StoredBlocks

/-! The stored-block writer of the compressor, which may have to stop wherever the output is full. -/
namespace Isal.Deflate
open Inflate Bits Rfc1951

def type0HdrLen : Nat := 4
def type0MaxBlkLen : Nat := 65535

/-- `enum isal_zstate_state`, without the states for output that waits in the internal buffer -/
inductive Zstate where
  | newHdr | hdr | createHdr | body | flushReadBuffer | flushIcfBuffer | type0Hdr | type0Body | syncFlush
  | flushWriteBuffer | trl | end_
  deriving DecidableEq, Repr

/-- The parts of `struct isal_zstream` and of its state that the writers of single blocks look at.
`input` is the memory that `next_in` points to. -/
structure Zstream extends OutStream where
  input : Arr UInt8
  nextIn : Nat
  availIn : Nat
  totalIn : Nat
  endOfStream : Nat
  blockNext : Nat
  blockEnd : Nat
  state : Zstate
  bits : Nat
  bitCount : Nat
  hasEobHdr : Nat
  hasEob : Nat
  count : Nat

/-- `write_bits_flush` -/
def BitBuf2.writeBitsFlush (me : BitBuf2) (code count : Nat) : BitBuf2 :=
  flush { me with bits := (me.bits ||| code <<< me.bitCount) % 2 ^ 64, bitCount := me.bitCount + count }

/-- `set_buf` on the bit buffer of a stream -/
def Zstream.bitbuf (s : Zstream) : BitBuf2 where
  bits := s.bits
  bitCount := s.bitCount
  memory := s.memory
  outBuf := s.nextOut
  outStart := s.nextOut

/-- The output is where the bit buffer has come to. -/
def Zstream.setBitbuf (s : Zstream) (me : BitBuf2) : Zstream :=
  { s with
    memory := me.memory
    nextOut := me.outBuf
    availOut := s.availOut - (me.outBuf - me.outStart)
    totalOut := (s.totalOut + (me.outBuf - me.outStart)) % 2 ^ 32
    bits := me.bits
    bitCount := me.bitCount }

def Zstream.put (s : Zstream) (bytes : List UInt8) : Zstream := { s with toOutStream := s.toOutStream.put bytes }

/-- `block_end - block_next` and `total_in - block_next` in 32 bits -/
@[irreducible] def Zstream.blockInSize (s : Zstream) : Nat := (s.blockEnd + 2 ^ 32 - s.blockNext) % 2 ^ 32

@[irreducible] def Zstream.blockNextOffset (s : Zstream) : Nat := (s.totalIn + 2 ^ 32 - s.blockNext) % 2 ^ 32

/-- The bytes of the output that both forms of the header are copied from, but for the type of the block -/
def storedBlkHdr (blockInSize : Nat) : Nat :=
  if type0MaxBlkLen < blockInSize then 0xFFFF else (2 ^ 32 - 1 - blockInSize) <<< 16 ||| blockInSize % 2 ^ 16

def writeType0Header (s : Zstream) : Zstream :=
  let blockInSize := s.blockInSize
  let copySize := if type0MaxBlkLen < blockInSize then type0MaxBlkLen else blockInSize
  let availIn := (s.availIn + s.blockNextOffset) % 2 ^ 32
  let s := if ¬ type0MaxBlkLen < blockInSize ∧ s.endOfStream ≠ 0 ∧ availIn = blockInSize then { s with hasEobHdr := 1 } else s
  if s.bitCount = 0 ∧ type0HdrLen + 1 ≤ s.availOut then
    { s.put (toLeBytes (storedBlkHdr blockInSize <<< 8 ||| s.hasEobHdr) (type0HdrLen + 1)) with
      state := .type0Body, count := copySize }
  else if 8 ≤ s.availOut then
    { (s.setBitbuf (s.bitbuf.writeBitsFlush s.hasEobHdr 3)).put (toLeBytes (storedBlkHdr blockInSize) type0HdrLen) with
      state := .type0Body, count := copySize }
  else { s with hasEobHdr := 0 }

/-- The rest of the loop in `write_stored_block`: bytes of a block are copied, without the match history,
which is forgotten after a full flush. -/
def copyStored (s : Zstream) : Zstream :=
  let nextIn := s.nextIn - s.blockNextOffset
  let availIn := (s.availIn + s.blockNextOffset) % 2 ^ 32
  let whole := ¬ (s.availOut < s.count ∨ availIn < s.count)
  let copySize := if whole then s.count else if s.availOut ≤ availIn then s.availOut else availIn
  let s : Zstream := { s with count := s.count - copySize, state := if whole then .type0Hdr else s.state }
  let s : Zstream := { s.put (bytesAt s.input nextIn copySize) with blockNext := (s.blockNext + copySize) % 2 ^ 32 }
  if s.blockNext = s.blockEnd then { s with state := if s.hasEobHdr ≠ 0 then .trl else .newHdr } else s

/-- The loop, which is entered at most `rounds` times; `none` would be one more. -/
def storedLoop : (rounds : Nat) → Zstream → Option Zstream
  | 0, _ => none
  | rounds + 1, s =>
    let s := if s.state = .type0Hdr then writeType0Header s else s
    if s.state = .type0Hdr then some s
    else
      let s := copyStored s
      if s.state = .type0Hdr then storedLoop rounds s else some s

/-- The bytes of the block that are left, and the stream after the call -/
def writeStoredBlock (s : Zstream) : Option (Nat × Zstream) := do
  let s ← storedLoop (s.blockInSize + 1) s
  return (s.blockInSize, s)

end Isal.Deflate
