import Isal.ItemCodes
import Isal.RepeatedCharBlock

/-! How far a decoder has come that has read what was sent so far, block by block. -/
namespace Isal.Rfc1951
open Bits PrefixCode HuffCodes Lz77

/-- A decoder that starts with `dict` and has read what was sent is in `mode` and has put out `out`, whatever comes next. -/
def Reaches (dict : List UInt8) (sent : List Bool) (mode : Mode) (out : List UInt8) : Prop :=
  ∀ rest : List Bool, 8 ∣ (sent ++ rest).length → Steps ⟨.header, sent ++ rest, dict⟩ ⟨mode, rest, out⟩

/-- The bits of `sync_flush` for `used` bits of the last byte, and those of the empty block of `write_trailer` -/
def flushBits (used : Nat) : List Bool := lowBits (32 + blockPad used + 3) (0xFFFF0000 <<< (blockPad used + 3))

def emptyBlockBits : List Bool := lowBits 10 0x003

variable {dict out : List UInt8} {sent bits : List Bool} {mode mode' : Mode} {b : Build} {needed : Nat → Prop} {h : Hufftables}
  {codes : Codes} {final : Bool}

theorem Reaches.nil (dict : List UInt8) : Reaches dict [] .header dict := fun _ _ => .refl _

theorem Reaches.append {out' : List UInt8} (reaches : Reaches dict sent mode out)
    (next : ∀ rest : List Bool, 8 ∣ (sent ++ bits ++ rest).length → Steps ⟨mode, bits ++ rest, out⟩ ⟨mode', rest, out'⟩) :
    Reaches dict (sent ++ bits) mode' out' := by
  intro rest aligned
  have before := reaches (bits ++ rest) (by rwa [← List.append_assoc])
  rw [← List.append_assoc] at before
  exact before.trans (next rest aligned)

theorem Reaches.header (reaches : Reaches dict sent .header out) (tables : Consistent b needed h codes) (final : Bool) :
    Reaches dict (sent ++ h.blockHeader final) (.coded codes final) out :=
  reaches.append fun rest _ => .single (tables.header_step final rest)

theorem Reaches.factors {items : List (Item UInt8)} {out' : List UInt8} (reaches : Reaches dict sent (.coded codes final) out)
    (tables : Consistent b needed h codes) (factors : Factors items out out') (allowed : ∀ item ∈ items, Allowed needed item) :
    Reaches dict (sent ++ items.flatMap (h.itemBits b)) (.coded codes final) out' :=
  reaches.append fun rest _ => tables.factors factors allowed rest

theorem Reaches.endOfBlock (reaches : Reaches dict sent (.coded codes final) out) (tables : Consistent b needed h codes) :
    Reaches dict (sent ++ codeBits (h.getLitCode 256)) (boundary final) out :=
  reaches.append fun rest _ => .single (tables.endOfBlock_step rest)

theorem blockPad_mod (used : Nat) : blockPad (used % 8) = blockPad used := by
  simp [blockPad, Nat.add_mod]

/-- A flush is an empty stored block. -/
theorem flushBits_eq (used : Nat) : flushBits used = storedBlock false used [] := by
  have small : blockPad used < 8 := Nat.mod_lt _ (by decide)
  rw [flushBits, storedBlock]
  generalize blockPad used = pad at small
  have every : ∀ pad < 8, lowBits (32 + pad + 3) (0xFFFF0000 <<< (pad + 3)) =
      lowBits 3 false.toNat ++ (List.replicate pad false ++
        bytesBits (toLeBytes ([] : List UInt8).length 2 ++ toLeBytes (storedMax - ([] : List UInt8).length) 2 ++ [])) := by
    decide +kernel
  exact every pad small

/-- The output ends with a byte behind a flush. -/
theorem flushBits_length (sent : List Bool) : 8 ∣ (sent ++ flushBits (sent.length % 8)).length := by
  have length := storedBlock_length false (sent.length % 8) []
  rw [← flushBits_eq] at length
  rw [List.length_append, length, blockPad]
  omega

theorem Reaches.flush (reaches : Reaches dict sent .header out) :
    Reaches dict (sent ++ flushBits (sent.length % 8)) .header out := by
  have whole := flushBits_length sent
  refine reaches.append fun rest aligned => ?_
  rw [List.length_append] at aligned
  have block := Steps.storedBlock false (sent.length % 8) (show ([] : List UInt8).length ≤ storedMax from Nat.zero_le _) ((Nat.dvd_add_right whole).mp aligned) out
  rw [List.append_nil] at block
  rwa [flushBits_eq]

theorem Reaches.emptyBlock (reaches : Reaches dict sent .header out) : Reaches dict (sent ++ emptyBlockBits) .done out := by
  refine reaches.append fun rest _ => ?_
  have bits : emptyBlockBits = lowBits 1 1 ++ (lowBits 2 1 ++ List.replicate 7 false) := by decide
  have header : readBlock (emptyBlockBits ++ rest) = .ok (true, .coded fixedCodes) (List.replicate 7 false ++ rest) := by
    rw [bits, List.append_assoc, List.append_assoc, readBlock, bind_ok (num_lowBits (by decide) _), bind_ok (num_lowBits (by decide) _)]
    rfl
  have word : codeword fixedCodes.lit 256 = List.replicate 7 false := by decide +kernel
  have symbol := Isal.Deflate.decodeSym_codeword fixed_legal.1 (by decide : 256 < 286) word (by decide) rest
  have token : readToken fixedCodes (List.replicate 7 false ++ rest) = .ok .endOfBlock rest := by
    rw [readToken, bind_ok symbol]
    rfl
  have ends : ∀ codes, readToken codes (List.replicate 7 false ++ rest) = .ok .endOfBlock rest →
      step ⟨.coded codes true, List.replicate 7 false ++ rest, out⟩ = .next ⟨.done, rest, out⟩ := by
    intro codes read
    rw [step_coded rfl read]
    simp [Parse.outcome, boundary]
  exact .head (by simp [step, header, Parse.outcome]) (.single (ends _ token))

/-- A stream that has ended, and the rest of its last byte -/
theorem Reaches.decode {bytes : List UInt8} {pad : List Bool} (reaches : Reaches [] sent .done out)
    (split : bytesBits bytes = sent ++ pad) (behind : List UInt8) :
    decode (bytes ++ behind) = (.finished, ⟨.done, pad ++ bytesBits behind, out⟩) := by
  have whole : bytesBits (bytes ++ behind) = sent ++ (pad ++ bytesBits behind) := by
    rw [bytesBits_append, split, List.append_assoc]
  have aligned : 8 ∣ (sent ++ (pad ++ bytesBits behind)).length := by
    rw [← whole, bytesBits_length]
    exact Nat.dvd_mul_right ..
  have path := reaches _ aligned
  rw [← whole] at path
  exact decode_eq path rfl

end Isal.Rfc1951
