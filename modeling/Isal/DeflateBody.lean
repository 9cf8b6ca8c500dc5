import Isal.StatelessWriter
import Isal.MatchMap
import Isal.CustomTables

/-! The compressor of level 0, as `igzip_base.c` has it: a hash table of positions finds a candidate, and what it has in
common with the input is written with the codes of the stream, or else a literal. -/
namespace Isal.Deflate
open Inflate Bits HuffCodes

def igzipNoHist : Nat := 0
def igzipHist : Nat := 1
def limitHashUpdate : Nat := 3 -- ISAL_LIMIT_HASH_UPDATE

/-- The build with the hash function that its processor has -/
structure HashBuild extends Build where
  computeHash : Nat → Nat

/-- `compute_hash` where the processor has no instruction for a checksum -/
def computeHash (data : Nat) : Nat :=
  let hash := (data * 0xB2D06057 % 2 ^ 64) >>> 16
  ((hash * 0xB2D06057 % 2 ^ 64) >>> 16) % 2 ^ 32

/-- The stream with what the compressor of level 0 looks at. The entries of `head` have 16 bits. -/
structure DeflateStream extends StatelessStream where
  hufftables : Hufftables
  head : Arr Nat
  distMask : Nat
  hashMask : Nat
  hasHist : Nat

namespace DeflateStream

def setBitbuf (s : DeflateStream) (me : BitBuf2) : DeflateStream := { s with toZstream := s.toZstream.setBitbuf me }

def put (s : DeflateStream) (bytes : List UInt8) : DeflateStream := { s with toOutStream := s.toOutStream.put bytes }

end DeflateStream

/-- `load_le_u32` -/
def loadLeU32 (memory : Arr UInt8) (p : Nat) : Nat := bytesVal (bytesAt memory p 4)

/-- `compare` behind a bound -/
def compare258 (memory : Arr UInt8) (str1 str2 maxLength : Nat) : Nat :=
  compare memory str1 str2 (if 258 < maxLength then 258 else maxLength)

/-- `is_full`, where the buffer is that of the stream -/
def Zstream.isFull (s : Zstream) (me : BitBuf2) : Prop := s.nextOut + s.availOut < me.outBuf + 8

instance (s : Zstream) (me : BitBuf2) : Decidable (s.isFull me) := inferInstanceAs (Decidable (_ < _))

/-- What the loops over the input change -/
structure Matcher where
  nextIn : Nat
  lastSeen : Arr Nat
  bitbuf : BitBuf2

section

variable (b : HashBuild) (s : DeflateStream)

def DeflateStream.matcher : Matcher where
  nextIn := s.nextIn
  lastSeen := s.head
  bitbuf := s.bitbuf

def DeflateStream.hashAt (p : Nat) : Nat := b.computeHash (loadLeU32 s.input p) &&& s.hashMask

/-- `next_in - file_start` -/
def DeflateStream.position (p : Nat) : Nat := s.totalIn + (p - s.nextIn)

/-- The loops over `next_hash` -/
def updateHashes : (left nextHash : Nat) → Arr Nat → Arr Nat
  | 0, _, lastSeen => lastSeen
  | left + 1, nextHash, lastSeen =>
    updateHashes left (nextHash + 1) (lastSeen.set (s.hashAt b nextHash) (s.position nextHash % 2 ^ 16))

def writeLiteral (literal : Nat) (m : Matcher) : Matcher :=
  let (code, codeLen) := s.hufftables.getLitCode (literal % 2 ^ 8)
  { m with nextIn := m.nextIn + 1, bitbuf := m.bitbuf.writeBits code codeLen }

def writeMatch (matchLength dist : Nat) (m : Matcher) : Matcher :=
  let (code, codeLen) := s.hufftables.getLenCode matchLength
  let (code2, codeLen2) := s.hufftables.getDistCode b.toBuild dist
  { m with
    nextIn := m.nextIn + matchLength
    bitbuf := m.bitbuf.writeBits ((code ||| code2 <<< codeLen) % 2 ^ 64) (codeLen + codeLen2) }

/-- The distance of the candidate -/
def candidate (m : Matcher) : Nat :=
  (s.position m.nextIn + 2 ^ 16 - m.lastSeen (s.hashAt b m.nextIn)) % 2 ^ 16

/-- A round of the loops that look for matches. They compare up to `maxLength` bytes, and enter `hashes` positions
behind that of a match. -/
def matchRound (maxLength hashes : Nat) (m : Matcher) : Matcher :=
  let dist := candidate b s m
  let m := { m with lastSeen := m.lastSeen.set (s.hashAt b m.nextIn) (s.position m.nextIn % 2 ^ 16) }
  let matchLength := compare258 s.input (m.nextIn - dist) m.nextIn maxLength
  if (dist + 2 ^ 32 - 1) % 2 ^ 32 < s.distMask ∧ shortestMatch ≤ matchLength then
    writeMatch b s matchLength dist { m with lastSeen := updateHashes b s hashes (m.nextIn + 1) m.lastSeen }
  else writeLiteral s (loadLeU32 s.input m.nextIn) m

/-- The loops while more than `ahead` bytes are left, each round of which takes one at least. The result says whether
they were left because the output is full. -/
def matchLoop (ahead : Nat) (maxLength : Nat → Nat) (hashes : Nat) : (rounds : Nat) → Matcher → Bool × Matcher
  | 0, m => (false, m)
  | rounds + 1, m =>
    if m.nextIn + ahead < s.nextIn + s.availIn then
      if s.isFull m.bitbuf then (true, m)
      else matchLoop ahead maxLength hashes rounds (matchRound b s (maxLength m.nextIn) hashes m)
    else (false, m)

def literalLoop : (rounds : Nat) → Matcher → Bool × Matcher
  | 0, m => (false, m)
  | rounds + 1, m =>
    if m.nextIn < s.nextIn + s.availIn then
      if s.isFull m.bitbuf then (true, m) else literalLoop rounds (writeLiteral s (s.input m.nextIn).toNat m)
    else (false, m)

def updateState (m : Matcher) : DeflateStream :=
  { s.setBitbuf m.bitbuf with
    head := m.lastSeen
    hasHist := if 0 < m.nextIn - s.nextIn then igzipHist else s.hasHist
    nextIn := m.nextIn
    totalIn := (s.totalIn + (m.nextIn - s.nextIn)) % 2 ^ 32
    availIn := s.nextIn + s.availIn - m.nextIn }

/-- The loop of `isal_deflate_body_base` -/
def bodyLoop : Bool × Matcher := matchLoop b s lookAhead (fun _ => 258) (limitHashUpdate - 1) s.availIn s.matcher

def isalDeflateBodyBase : DeflateStream :=
  if s.availIn = 0 then if s.endOfStream ≠ 0 ∨ s.flush ≠ noFlush then { s with state := .flushReadBuffer } else s
  else
    let (full, m) := bodyLoop b s
    if full then updateState s m
    else if s.endOfStream ≠ 0 ∨ s.flush ≠ noFlush then { updateState s m with state := .flushReadBuffer }
    else updateState s m

/-- Both loops of `isal_deflate_finish_base`, the first of which enters no further positions -/
def finishLoops : Bool × Matcher :=
  if s.availIn ≠ 0 then
    let (full, m) := matchLoop b s 3 (fun nextIn => s.nextIn + s.availIn - nextIn) (limitHashUpdate - 3 - 1) s.availIn s.matcher
    if full then (true, m) else literalLoop s s.availIn m
  else (false, s.matcher)

def isalDeflateFinishBase : DeflateStream :=
  let (full, m) := finishLoops b s
  if full then updateState s m
  else if s.isFull m.bitbuf then updateState s m
  else
    let (code, codeLen) := s.hufftables.getLitCode 256
    { updateState s { m with bitbuf := m.bitbuf.writeBits code codeLen } with
      hasEob := 1
      state := if s.endOfStream = 1 then .trl else .syncFlush }

end

end Isal.Deflate
