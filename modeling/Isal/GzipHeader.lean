import Isal.InflateWrapper

/-! The header of the gzip format: what it says, and how a caller reads it in pieces. -/
namespace Isal.Inflate

open Isal.Bits Isal.Checksum

namespace Rfc1952

/-- A header as RFC 1952 lays it out; strings are given without their zero byte. -/
structure Header where
  text : Bool
  time : UInt32
  xflags : UInt8
  os : UInt8
  extra : Option (List UInt8)
  name : Option (List UInt8)
  comment : Option (List UInt8)
  /-- The checksum that is stored, right or wrong. -/
  hcrc : Option UInt16
  extra_short : ∀ field ∈ extra, field.length < 2 ^ 16
  name_text : ∀ text ∈ name, 0 ∉ text
  comment_text : ∀ text ∈ comment, 0 ∉ text

variable (h : Header)

def Header.flags : Nat :=
  h.text.toNat + 2 * h.hcrc.isSome.toNat + 4 * h.extra.isSome.toNat + 8 * h.name.isSome.toNat +
    16 * h.comment.isSome.toNat

def Header.base : List UInt8 :=
  [0x1f, 0x8b, 8, .ofNat h.flags] ++ toLeBytes h.time.toNat 4 ++ [h.xflags, h.os]

def extraBytes : Option (List UInt8) → List UInt8
  | none => []
  | some field => toLeBytes field.length 2 ++ field

def stringBytes : Option (List UInt8) → List UInt8
  | none => []
  | some text => text ++ [0]

def hcrcBytes : Option UInt16 → List UInt8
  | none => []
  | some sum => toLeBytes sum.toNat 2

/-- The bytes that the header's checksum is taken over. -/
def Header.covered : List UInt8 := h.base ++ extraBytes h.extra ++ stringBytes h.name ++ stringBytes h.comment

def Header.bytes : List UInt8 := h.covered ++ hcrcBytes h.hcrc

/-- The checksum, if there is one, is right. -/
def Header.Intact : Prop := ∀ sum ∈ h.hcrc, crc32 h.covered % 2 ^ 16 = sum.toNat

instance : Decidable h.Intact := by
  unfold Header.Intact
  infer_instance

end Rfc1952

open Rfc1952

/-- A buffer, if the caller has given one, has room for the bytes and starts with them. -/
def Stored (buf : Option (Arr UInt8)) (bufLen : Nat) (bytes : List UInt8) : Prop :=
  ∀ b ∈ buf, bytes.length ≤ bufLen ∧ ∀ i (inside : i < bytes.length), b i = bytes[i]

/-- The structure holds the fields of the header. -/
structure Holds (h : Header) (hdr : GzipHeader) : Prop where
  time : hdr.time = h.time.toNat
  xflags : hdr.xflags = h.xflags.toNat
  os : hdr.os = h.os.toNat
  text : hdr.text = h.text.toNat
  extraLen : hdr.extraLen = (h.extra.getD []).length
  extra : Stored hdr.extra hdr.extraBufLen (h.extra.getD [])
  name : Stored hdr.name hdr.nameBufLen (stringBytes h.name)
  comment : Stored hdr.comment hdr.commentBufLen (stringBytes h.comment)

/-- The next piece of input. -/
def InflateState.feed (s : InflateState) (input : List UInt8) : InflateState :=
  { s with buf := input, nextIn := 0, availIn := input.length }

/-- What the caller keeps between two calls, and the input that is still to be given. -/
structure Reading where
  hdr : GzipHeader
  state : InflateState
  later : List (List UInt8)

/-- The buffer that was too small is replaced by a larger one with the same contents. -/
inductive Enlarged : ReturnCode → GzipHeader → GzipHeader → Prop
  | extra {hdr : GzipHeader} {old : Arr UInt8} (buf : Arr UInt8) (len : Nat) (there : hdr.extra = some old)
      (larger : hdr.extraBufLen < len) (kept : ∀ i < hdr.extraBufLen, buf i = old i) :
      Enlarged .extraOverflow hdr { hdr with extra := some buf, extraBufLen := len }
  | name {hdr : GzipHeader} {old : Arr UInt8} (buf : Arr UInt8) (len : Nat) (there : hdr.name = some old)
      (larger : hdr.nameBufLen < len) (kept : ∀ i < hdr.nameBufLen, buf i = old i) :
      Enlarged .nameOverflow hdr { hdr with name := some buf, nameBufLen := len }
  | comment {hdr : GzipHeader} {old : Arr UInt8} (buf : Arr UInt8) (len : Nat) (there : hdr.comment = some old)
      (larger : hdr.commentBufLen < len) (kept : ∀ i < hdr.commentBufLen, buf i = old i) :
      Enlarged .commentOverflow hdr { hdr with comment := some buf, commentBufLen := len }

/-- A call that does not end the parse, and what the caller does about it. A new piece of input
may also be given with a larger buffer, when the last one is used up. -/
inductive Call : Reading → Reading → Prop
  | more {hdr hdr' : GzipHeader} {s s' : InflateState} {piece : List UInt8} {later : List (List UInt8)}
      (ret : isalReadGzipHeader hdr s = (.endInput, hdr', s')) :
      Call ⟨hdr, s, piece :: later⟩ ⟨hdr', s'.feed piece, later⟩
  | full {hdr hdr' larger : GzipHeader} {s s' : InflateState} {later : List (List UInt8)} {code : ReturnCode}
      (ret : isalReadGzipHeader hdr s = (code, hdr', s')) (grown : Enlarged code hdr' larger) :
      Call ⟨hdr, s, later⟩ ⟨larger, s', later⟩
  | fullMore {hdr hdr' larger : GzipHeader} {s s' : InflateState} {piece : List UInt8} {later : List (List UInt8)}
      {code : ReturnCode} (ret : isalReadGzipHeader hdr s = (code, hdr', s')) (grown : Enlarged code hdr' larger)
      (used : s'.availIn = 0) : Call ⟨hdr, s, piece :: later⟩ ⟨larger, s'.feed piece, later⟩

/-- A number of calls one after the other. -/
inductive Calls : Nat → Reading → Reading → Prop
  | refl (c : Reading) : Calls 0 c c
  | tail {n : Nat} {c c' c'' : Reading} (run : Calls n c c') (last : Call c' c'') : Calls (n + 1) c c''

/-- The bytes that the buffers are short of. -/
def lacking (h : Header) (hdr : GzipHeader) : Nat :=
  ((h.extra.getD []).length - hdr.extraBufLen) + ((stringBytes h.name).length - hdr.nameBufLen) +
    ((stringBytes h.comment).length - hdr.commentBufLen)

end Isal.Inflate
