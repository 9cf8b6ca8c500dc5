import Isal.GzipWriter

/-! A gzip header that is written is read back, if its strings end within their buffers and its
size is counted right. -/
namespace Isal.Deflate
open Inflate Bits Checksum Rfc1952

section

variable {gzHdr hdr : GzipHeader} {str : Arr UInt8} {n : Nat}

end

section

variable {gzHdr : GzipHeader}

/-- Only the bytes that are written matter. -/
theorem toLeBytes_mod (value n : Nat) : toLeBytes (value % 2 ^ (8 * n)) n = toLeBytes value n := by
  induction n generalizing value with
  | zero => rfl
  | succ n ih =>
    have power : 2 ^ (8 * (n + 1)) = 256 * 2 ^ (8 * n) := by rw [Nat.mul_succ, Nat.pow_add, Nat.mul_comm]
    have first : UInt8.ofNat (value % 2 ^ (8 * (n + 1))) = UInt8.ofNat value := by
      apply UInt8.toNat_inj.mp
      rw [UInt8.toNat_ofNat', UInt8.toNat_ofNat', power]
      exact Nat.mod_mul_right_mod ..
    rw [toLeBytes, toLeBytes, first, power, Nat.mod_mul_right_div_self, ih]

theorem copied_length (buf : Arr UInt8) (n : Nat) : (copied (some buf) n).length = n := by
  rw [copied, Option.elim_some, List.length_map, List.length_range]

variable (short : gzHdr.extra.isSome → gzHdr.extraLen < 2 ^ 16) {name comment : Option (List UInt8)} {hcrc : Option UInt16}
  (plain : ∀ text ∈ name, 0 ∉ text) (plain' : ∀ text ∈ comment, 0 ∉ text)

theorem Stored.copied {buf : Option (Arr UInt8)} {bufLen : Nat} {bytes : List UInt8} (stored : Stored buf bufLen bytes)
    (there : buf.isSome) : copied buf bytes.length = bytes := by
  obtain ⟨b, rfl⟩ := Option.isSome_iff_exists.mp there
  apply List.ext_getElem
  · exact copied_length b _
  · intro i inside inside'
    rw [← (stored b rfl).2 i inside']
    simp only [Deflate.copied, Option.elim_some, List.getElem_map, List.getElem_range]

end

end Isal.Deflate
