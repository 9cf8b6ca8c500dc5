import Isal.CustomCodes

/-! The tables for a custom code against the header that goes with them: what the tables hold for a
literal, a length or a distance is read back with the codes of the header. -/
namespace Isal.HuffCodes
open Bits Deflate PrefixCode Rfc1951

/-- The bits of a code as the functions of `huffman.h` give it, with its length -/
def codeBits (code : Nat × Nat) : List Bool := lowBits code.2 code.1

/-- The header as it is stored: whole bytes and the bits behind them -/
def Hufftables.headerBits (h : Hufftables) : List Bool :=
  (bytesBits (bytesAt h.deflateHdr 0 328)).take (8 * h.deflateHdrCount + h.deflateHdrExtraBits)

/-- The tables belong to two codes, `needed` says which literals must have one. -/
structure Consistent (b : Build) (needed : Nat → Prop) (h : Hufftables) (codes : Codes) : Prop where
  extraBits : h.deflateHdrExtraBits < 8
  header : ∀ rest, readBlock (h.headerBits ++ rest) = .ok (true, .coded codes) rest
  sizes : ∀ l, l ≤ 256 → (h.getLitCode l).2 = lengthOf codes.lit l
  literals : ∀ l, l < 256 → lengthOf codes.lit l ≠ 0 → ∀ rest,
    readToken codes (codeBits (h.getLitCode l) ++ rest) = .ok (.literal (UInt8.ofNat l)) rest
  endOfBlock : ∀ rest, readToken codes (codeBits (h.getLitCode 256) ++ rest) = .ok .endOfBlock rest
  copies : ∀ len dist, 3 ≤ len → len ≤ 258 → 1 ≤ dist → dist ≤ 32768 → ∀ rest,
    readToken codes (codeBits (h.getLenCode len) ++ (codeBits (h.getDistCode b dist) ++ rest)) = .ok (.copy len dist) rest
  dcodes : ∀ i, b.dcodeOffset + i < 30 →
    codeBits (h.dcodes i, h.dcodesSizes i) = codeword codes.dist (b.dcodeOffset + i)
  coded : ∀ s, 256 ≤ s → s < 286 → lengthOf codes.lit s ≠ 0
  codedDist : ∀ s, s < 30 → lengthOf codes.dist s ≠ 0
  needed : ∀ l, l < 256 → needed l → lengthOf codes.lit l ≠ 0

section

variable {symbols litSymbols : Finset Nat} {limit litLimit distLimit n max : Nat} {table : HuffTable}

/-- The entry of a symbol is its codeword. -/
theorem HeapCode.bits (code : HeapCode symbols limit n max table) {s : Nat} (inside : s < n) (used : table.length s ≠ 0) :
    lowBits (table.length s) (table.code s) = codeword ((List.range n).map table.length) s ∧
      table.code s < 2 ^ table.length s ∧ table.length s ≤ limit := by
  have own := lengthOf_range table.length inside
  have entry := code.canonical.code s inside (by rw [own]; exact used)
  have upTo := code.valid.length_le s
  rw [own] at upTo
  rw [entry, codeword, own]
  exact ⟨lowBits_revBits _ _, revBits_lt _ _, upTo⟩

variable {b : Build} {lit dist : HuffTable} {h : Hufftables}

end

end Isal.HuffCodes
