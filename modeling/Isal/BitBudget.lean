import Isal.TableConsistency

/-! A literal, a length and a distance of a custom code are put into the bit buffer together. -/
namespace Isal.HuffCodes
open Bits Deflate PrefixCode

section

variable {symbols : Finset Nat} {limit n max : Nat} {b : Build} {lit dist table : HuffTable} {h : Hufftables}

theorem HeapCode.length_le (code : HeapCode symbols limit n max table) {s : Nat} (inside : s < n) : table.length s ≤ limit := by
  have upTo := code.valid.length_le s
  rwa [lengthOf_range table.length inside] at upTo

end

end Isal.HuffCodes
