import Isal.Lz77
import Isal.TableConsistency

/-! Literals and copies as the tables of a code write them, and the reference decoder that reads them back. -/
namespace Isal.HuffCodes
open Bits Deflate PrefixCode Rfc1951 Lz77

/-- What is written for a literal or a copy -/
def Hufftables.itemBits (h : Hufftables) (b : Build) : Item UInt8 → List Bool
  | .literal byte => codeBits (h.getLitCode byte.toNat)
  | .copy length dist => codeBits (h.getLenCode length) ++ codeBits (h.getDistCode b dist)

/-- The header of a block that is the last one or not; the stored header is that of a last one. -/
def Hufftables.blockHeader (h : Hufftables) (final : Bool) : List Bool := final :: h.headerBits.tail

/-- A literal that has a code, or a copy of a length and a distance that have symbols -/
def Allowed (needed : Nat → Prop) : Item UInt8 → Prop
  | .literal byte => needed byte.toNat
  | .copy length dist => 3 ≤ length ∧ length ≤ 258 ∧ dist ≤ 32768

/-- No code that is needed has bits beyond its length, and none is too long for one call of `write_bits`; there is nothing
behind the last bit of the header. -/
structure Writable (b : Build) (needed : Nat → Prop) (h : Hufftables) : Prop where
  header : h.deflateHdrCount < 328
  extraBits : (h.deflateHdr h.deflateHdrCount).toNat < 2 ^ h.deflateHdrExtraBits
  behind : ∀ i, h.deflateHdrCount < i → i < h.deflateHdrCount + 8 → h.deflateHdr i = 0
  lit : ∀ l, l < 256 → needed l → (h.getLitCode l).1 < 2 ^ (h.getLitCode l).2 ∧ (h.getLitCode l).2 ≤ 56
  endOfBlock : (h.getLitCode 256).1 < 2 ^ (h.getLitCode 256).2 ∧ (h.getLitCode 256).2 ≤ 56
  len : ∀ l, 3 ≤ l → l ≤ 258 → (h.getLenCode l).1 < 2 ^ (h.getLenCode l).2
  dist : ∀ d, 1 ≤ d → d ≤ 32768 → (h.getDistCode b d).1 < 2 ^ (h.getDistCode b d).2
  copy : ∀ l d, 3 ≤ l → l ≤ 258 → 1 ≤ d → d ≤ 32768 → (h.getLenCode l).2 + (h.getDistCode b d).2 ≤ 56

variable {b : Build} {needed : Nat → Prop} {h : Hufftables} {codes : Codes} {item : Item UInt8} {items : List (Item UInt8)}
  {out out' : List UInt8} {final : Bool} {length dist : Nat}

theorem copyMatch_of_adds (adds : Adds (.copy length dist) out out') : copyMatch dist length out = out' := by
  induction length generalizing out with
  | zero => simp [copyMatch, adds.copy_zero]
  | succ length ih =>
    obtain ⟨a, first, rest⟩ := adds.copy_cons
    simpa [copyMatch, first] using ih rest

theorem Consistent.adds (tables : Consistent b needed h codes) (allowed : Allowed needed item) (adds : Adds item out out')
    (rest : List Bool) : step ⟨.coded codes final, h.itemBits b item ++ rest, out⟩ = .next ⟨.coded codes final, rest, out'⟩ := by
  cases adds with
  | literal byte =>
    have small := byte.toNat_lt
    have read := tables.literals byte.toNat (by omega) (tables.needed _ (by omega) allowed) rest
    rw [step_coded rfl read]
    simp [Parse.outcome]
  | @copy length dist _ more some_ inside size back =>
    obtain ⟨low, high, near⟩ := allowed
    have read := tables.copies length dist low high some_ near rest
    have bits : h.itemBits b (.copy length dist) ++ rest =
        codeBits (h.getLenCode length) ++ (codeBits (h.getDistCode b dist) ++ rest) := List.append_assoc ..
    rw [bits, step_coded rfl read]
    simp [Parse.outcome, Nat.not_lt.mpr inside, copyMatch_of_adds (.copy some_ inside size back)]

/-- Allowed items are read back one after the other. -/
theorem Consistent.factors (tables : Consistent b needed h codes) (factors : Factors items out out')
    (allowed : ∀ item ∈ items, Allowed needed item) (rest : List Bool) :
    Steps ⟨.coded codes final, items.flatMap (h.itemBits b) ++ rest, out⟩ ⟨.coded codes final, rest, out'⟩ := by
  induction factors with
  | nil => exact .refl _
  | @cons item items _ _ _ first _ ih =>
    rw [List.flatMap_cons, List.append_assoc]
    exact .head (tables.adds (allowed item (by simp)) first _) (ih fun item later => allowed item (by simp [later]))

theorem Consistent.endOfBlock_step (tables : Consistent b needed h codes) (rest : List Bool) :
    step ⟨.coded codes final, codeBits (h.getLitCode 256) ++ rest, out⟩ = .next ⟨boundary final, rest, out⟩ := by
  rw [step_coded rfl (tables.endOfBlock rest)]
  simp [Parse.outcome]

theorem readBlock_cons {bits : List Bool} : readBlock (final :: bits) = (num 2 >>= fun kind => readKind kind >>= fun block =>
    pure (final, block)) bits := by
  have first : num 1 (final :: bits) = .ok final.toNat bits := by cases final <;> simp [num, bitsVal]
  have flag : decide (final.toNat = 1) = final := by cases final <;> rfl
  rw [readBlock, bind_ok first, flag]

/-- The stored header is that of a last block. -/
theorem Consistent.headerBits_eq (tables : Consistent b needed h codes) : h.headerBits = h.blockHeader true := by
  have stored := tables.header []
  rw [Hufftables.blockHeader]
  cases bits : h.headerBits with
  | nil => simp [bits, readBlock, num, bind_more] at stored
  | cons first more =>
    rw [bits, List.cons_append, readBlock_cons] at stored
    obtain ⟨kind, left, isKind, stored⟩ := bind_inv stored
    obtain ⟨block, left', isBlock, stored⟩ := bind_inv stored
    simp only [pure_eq, Parse.ok.injEq, Prod.mk.injEq] at stored
    rw [stored.1.1, List.tail_cons]

/-- The first bit of the header says which blocks are last, and nothing else. -/
theorem Consistent.readBlock (tables : Consistent b needed h codes) (final : Bool) (rest : List Bool) :
    Rfc1951.readBlock (h.blockHeader final ++ rest) = .ok (final, .coded codes) rest := by
  have stored := tables.header rest
  rw [tables.headerBits_eq, Hufftables.blockHeader, List.cons_append, readBlock_cons] at stored
  rw [Hufftables.blockHeader, List.cons_append, readBlock_cons]
  obtain ⟨kind, left, isKind, stored⟩ := bind_inv stored
  obtain ⟨block, left', isBlock, stored⟩ := bind_inv stored
  rw [bind_ok isKind, bind_ok isBlock]
  simp only [pure_eq, Parse.ok.injEq, Prod.mk.injEq] at stored
  rw [pure_eq, stored.1.2, stored.2]

theorem Consistent.header_step (tables : Consistent b needed h codes) (final : Bool) (rest : List Bool) :
    step ⟨.header, h.blockHeader final ++ rest, out⟩ = .next ⟨.coded codes final, rest, out⟩ := by
  simp [step, tables.readBlock, Parse.outcome]

end Isal.HuffCodes
