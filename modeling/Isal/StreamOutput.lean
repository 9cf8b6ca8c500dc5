import Isal.RepeatedCharBlock
import Isal.DeflateBody

/-! The bits that a stream has put out, those that still wait in its bit buffer included. -/
namespace Isal.Deflate
open Inflate Bits

/-- The bits that wait for the rest of a byte -/
def Zstream.waiting (s : Zstream) : List Bool := lowBits s.bitCount s.bits

/-- Less than a byte waits, and there is nothing above it. -/
structure Zstream.Clean (s : Zstream) : Prop where
  few : s.bitCount < 8
  low : s.bits < 2 ^ s.bitCount

/-- Bits have been added to the output of a stream, within its room. -/
structure Emits (s t : Zstream) (bits : List Bool) : Prop where
  clean : t.Clean
  appends : ∃ bytes, Appends s.toOutStream t.toOutStream bytes ∧ s.waiting ++ bits = bytesBits bytes ++ t.waiting

/-- Bits have been written through the bit buffer of a stream, which may not be back in the stream yet. -/
structure Zstream.Wrote (s : Zstream) (me : BitBuf2) (bits : List Bool) : Prop where
  written : me.Written s.nextOut (s.waiting ++ bits)
  inside : me.outBuf ≤ s.nextOut + s.availOut
  kept : ∀ i, i < s.nextOut ∨ s.nextOut + s.availOut ≤ i → me.memory i = s.memory i

section

variable {s t u : Zstream} {me : BitBuf2} {bits bits' : List Bool} {code count : Nat}

theorem Emits.refl (clean : s.Clean) : Emits s s [] where
  clean := clean
  appends := ⟨[], .refl _, by simp⟩

theorem Emits.trans (first : Emits s t bits) (second : Emits t u bits') : Emits s u (bits ++ bits') := by
  obtain ⟨bytes, added, split⟩ := first.appends
  obtain ⟨bytes', added', split'⟩ := second.appends
  refine ⟨second.clean, bytes ++ bytes', added.trans added', ?_⟩
  rw [← List.append_assoc, split, List.append_assoc, split', bytesBits_append, List.append_assoc]

/-- Only the output and the bits that wait are looked at. -/
theorem Emits.congr {t' : Zstream} (h : Emits s t bits) (out : t'.toOutStream = t.toOutStream) (bits_ : t'.bits = t.bits)
    (count : t'.bitCount = t.bitCount) : Emits s t' bits := by
  obtain ⟨⟨few, low⟩, appends⟩ := h
  refine ⟨⟨by omega, by rwa [bits_, count]⟩, ?_⟩
  rwa [out, Zstream.waiting, Zstream.waiting, bits_, count]

theorem Emits.ofPut {bytes : List UInt8} (clean : s.Clean) (aligned : s.bitCount = 0) (fits : bytes.length ≤ s.availOut) :
    Emits s (s.put bytes) (bytesBits bytes) where
  clean := ⟨clean.few, clean.low⟩
  appends := by
    have none_ : s.waiting = [] := List.length_eq_zero_iff.mp (by simpa [Zstream.waiting] using aligned)
    have none_' : (s.put bytes).waiting = [] := none_
    refine ⟨bytes, put_appends _ _ fits, ?_⟩
    rw [none_, none_', List.nil_append, List.append_nil]

theorem Zstream.Wrote.start (clean : s.Clean) : s.Wrote s.bitbuf [] where
  written := by
    rw [List.append_nil]
    refine ⟨rfl, Nat.le_refl _, ?_, clean.few, ?_⟩
    · simp [Zstream.bitbuf, Zstream.waiting]
    · simp [Zstream.bitbuf, Zstream.waiting, bytesAt, bitsVal_lowBits_of_lt clean.low]
  inside := Nat.le_add_right _ _
  kept := fun _ _ => rfl

/-- A code goes out where the buffer has room for a word. -/
theorem Zstream.Wrote.writeBits (h : s.Wrote me bits) (free : ¬ s.isFull me) (small : code < 2 ^ count) (few : count ≤ 56) :
    s.Wrote (me.writeBits code count) (bits ++ lowBits count code) := by
  have waiting := h.written.few
  have ahead := h.written.ahead
  rw [Zstream.isFull] at free
  constructor
  · rw [← List.append_assoc]
    exact h.written.writeBits code count small few
  · simp only [BitBuf2.writeBits, BitBuf2.flushBits]
    omega
  · intro i outside
    have same : (me.writeBits code count).memory i = me.memory i := by
      refine if_neg ?_
      dsimp only
      omega
    rw [same, h.kept i outside]

theorem Zstream.Wrote.emits (h : s.Wrote me bits) : Emits s (s.setBitbuf me) bits := by
  have ahead := h.written.ahead
  have origin := h.written.origin
  have inside := h.inside
  refine ⟨⟨h.written.few, h.written.bits_lt⟩, bytesAt me.memory s.nextOut (me.outBuf - s.nextOut), ⟨?_, ?_, ?_, ?_, ?_⟩, ?_⟩
  · rw [bytesAt_length]
    dsimp only [Zstream.setBitbuf]
    omega
  · rw [bytesAt_length]
    dsimp only [Zstream.setBitbuf]
    omega
  · exact fun i before => h.kept i (.inl before)
  · exact fun i after => h.kept i (.inr after)
  · rw [bytesAt_length]
    rfl
  · exact h.written.split

end

end Isal.Deflate
