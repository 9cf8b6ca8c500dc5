import Isal.PackedTables

/-! The two codes that the tables are made from: complete, within the limit, and canonical. -/
namespace Isal.HuffCodes
open Huffman PrefixCode

/-- A canonical code for exactly the symbols that a heap has been filled with -/
structure HeapCode (symbols : Finset Nat) (limit tableLength max : Nat) (table : HuffTable) : Prop where
  valid : Valid ((List.range tableLength).map table.length) limit
  canonical : Canonical ((List.range tableLength).map table.length) table tableLength
  used : ∀ s, s < tableLength → (table.length s ≠ 0 ↔ s ∈ symbols)
  last : IsGreatest {s | s ∈ symbols} max

section

variable {chosen : Nat → Bool} {histogram : Arr Nat} {limit : Nat}

end

section


end
end Isal.HuffCodes
