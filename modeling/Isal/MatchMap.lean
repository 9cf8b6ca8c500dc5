import Isal.BitWriter

/-! The match map of level 3: an entry for each position of the input, and how its long matches are found. -/
namespace Isal.Deflate
open Bits

def litLenBitCount : Nat := 10
def distLitBitCount : Nat := 9
def icfCodeLen : Nat := 32
def minMatch : Nat := 3 -- ISAL_DEF_MIN_MATCH
def maxMatch : Nat := 258 -- ISAL_DEF_MAX_MATCH
def icfLenStart : Nat := 257
def lenOffset : Nat := icfLenStart - minMatch
def lenMax : Nat := lenOffset + maxMatch
def shortestMatch : Nat := 4
def lookAhead : Nat := 288 -- ISAL_LOOK_AHEAD
def matchBufSize : Nat := 4 * 1024

/-- The fields of `struct deflate_icf`, which is a word of 32 bits -/
def icfLitLen (icf : Nat) : Nat := icf % 2 ^ litLenBitCount
def icfLitDist (icf : Nat) : Nat := icf / 2 ^ litLenBitCount % 2 ^ distLitBitCount
def icfDistExtra (icf : Nat) : Nat :=
  icf / 2 ^ (litLenBitCount + distLitBitCount) % 2 ^ (icfCodeLen - distLitBitCount - litLenBitCount)

/-- The word that `write_deflate_icf` stores -/
def deflateIcf (icfLitLen icfLitDist extraBits : Nat) : Nat :=
  (icfLitLen ||| icfLitDist <<< litLenBitCount ||| extraBits <<< (litLenBitCount + distLitBitCount)) % 2 ^ 32

/-- The last branch of `tzbytecnt` -/
def tzbytecntLoop : (cnt : Nat) → (val : Nat) → Nat
  | 0, _ => 0
  | cnt + 1, val => if 0 < val then tzbytecntLoop cnt (val <<< 8 % 2 ^ 64) else cnt + 1

def tzbytecnt (val : Nat) : Nat := tzbytecntLoop 8 val

/-- `load_le_u64` -/
def loadLeU64 (memory : Arr UInt8) (p : Nat) : Nat := bytesVal (bytesAt memory p 8)

/-- The cases of the switch in `compare`, each of which falls through to the next -/
def compareBytes (memory : Arr UInt8) (str1 str2 : Nat) : (left : Nat) → (count : Nat) → Nat
  | 0, count => count
  | left + 1, count =>
    if memory str1 ≠ memory str2 then count else compareBytes memory (str1 + 1) (str2 + 1) left (count + 1)

/-- The loop in `compare`, of which `words` rounds are left, and what comes after it -/
def compareWords (memory : Arr UInt8) (maxLength : Nat) (str1 str2 : Nat) : (words : Nat) → (count : Nat) → Nat
  | 0, count => compareBytes memory str1 str2 (maxLength % 8) count
  | words + 1, count =>
    let test := loadLeU64 memory str1 ^^^ loadLeU64 memory str2
    if test ≠ 0 then count + tzbytecnt test else compareWords memory maxLength (str1 + 8) (str2 + 8) words (count + 8)

def compare (memory : Arr UInt8) (str1 str2 maxLength : Nat) : Nat :=
  compareWords memory maxLength str1 str2 (maxLength / 8) 0

/-- The distances that the distance symbols start at; the last two are no symbols. -/
def distStartIcf : List Nat :=
  [0x0001, 0x0002, 0x0003, 0x0004, 0x0005, 0x0007, 0x0009, 0x000d, 0x0011, 0x0019, 0x0021, 0x0031, 0x0041, 0x0061, 0x0081,
    0x00c1, 0x0101, 0x0181, 0x0201, 0x0301, 0x0401, 0x0601, 0x0801, 0x0c01, 0x1001, 0x1801, 0x2001, 0x3001, 0x4001, 0x6001,
    0x0000, 0x0000]

/-- The map, the entry that comes next, which is that of `next_in`, and the entries that have been written -/
structure MatchLookup where
  map : Arr Nat
  next : Nat
  written : List Nat

/-- The inner loop: a long match goes on with the entries that follow, each one byte shorter. -/
def spreadMatch (distCode extra : Nat) : (matchLen : Nat) → MatchLookup → MatchLookup
  | 0, s => s
  | matchLen + 1, s =>
    if icfLitLen (s.map s.next) < matchLen + 1 ∧ lenOffset + shortestMatch ≤ matchLen + 1 then
      spreadMatch distCode extra matchLen {
        map := s.map.set s.next (deflateIcf (if lenMax < matchLen + 1 then lenMax else matchLen + 1) distCode extra)
        next := s.next + 1
        written := s.next :: s.written }
    else s

/-- The match of an entry, whose position is `next` bytes after `nextIn`, is extended beyond the eight bytes that are known to be equal. -/
def longMatch (memory : Arr UInt8) (nextIn endIn : Nat) (s : MatchLookup) : MatchLookup :=
  let distCode := icfLitDist (s.map s.next)
  let extra := icfDistExtra (s.map s.next)
  let dist := distStartIcf[distCode]?.getD 0 + extra
  if 8 + lenOffset ≤ icfLitLen (s.map s.next) then
    let p := nextIn + s.next + 8
    let maxLength := (endIn + 2 ^ 32 - (s.next + 8)) % 2 ^ 32
    spreadMatch distCode extra ((compare memory (p - dist) p maxLength + lenOffset + 8) % 2 ^ 32) s
  else s

theorem spreadMatch_next (distCode extra matchLen : Nat) (s : MatchLookup) :
    s.next ≤ (spreadMatch distCode extra matchLen s).next := by
  induction matchLen generalizing s with
  | zero => exact Nat.le_refl _
  | succ matchLen ih =>
    rw [spreadMatch]
    split
    · exact Nat.le_of_succ_le (ih { map := _, next := s.next + 1, written := _ })
    · exact Nat.le_refl _

theorem longMatch_next (memory : Arr UInt8) (nextIn endIn : Nat) (s : MatchLookup) :
    s.next ≤ (longMatch memory nextIn endIn s).next := by
  rw [longMatch]
  dsimp only
  split
  · exact spreadMatch_next ..
  · exact Nat.le_refl _

/-- The outer loop, up to the entries that have been processed -/
def setLongIcfFgLoop (memory : Arr UInt8) (nextIn processed endIn : Nat) (s : MatchLookup) : MatchLookup :=
  if s.next < processed then
    setLongIcfFgLoop memory nextIn processed endIn
      { longMatch memory nextIn endIn s with next := (longMatch memory nextIn endIn s).next + 1 }
  else s
termination_by processed - s.next
decreasing_by
  have ahead := longMatch_next memory nextIn endIn s
  omega

def setLongIcfFgBase (memory : Arr UInt8) (nextIn processed inputSize : Nat) (matchLookup : Arr Nat) : MatchLookup :=
  let endIn := if processed + lookAhead < inputSize then processed + lookAhead else inputSize
  setLongIcfFgLoop memory nextIn processed endIn { map := matchLookup, next := 0, written := [] }

end Isal.Deflate
