import Isal.DeflateHeaders

/-! What the states behind the blocks put out: the empty block of a flush, and the trailer. -/
namespace Isal.Deflate
open Inflate Bits HuffCodes Rfc1951

/-- The bits up to the end of a byte -/
def toByte (used : Nat) : List Bool := List.replicate ((8 - used % 8) % 8) false

section

variable {s : Zstream} {me : BitBuf2} {bits : List Bool}

theorem Zstream.Wrote.flush (h : s.Wrote me bits) (free : me.bitCount ≠ 0 → ¬ s.isFull me) :
    s.Wrote me.flush (bits ++ toByte me.bitCount) ∧ me.flush.bitCount = 0 := by
  have few := h.written.few
  have ahead := h.written.ahead
  have count := h.written.count
  obtain ⟨n, place, -, enough, value⟩ := h.written.flush
  have fields : me.flush.bits = 0 ∧ me.flush.bitCount = 0 ∧ me.flush.outStart = me.outStart ∧
      me.flush.outBuf = me.outBuf + (me.bitCount + 7) / 8 := by
    rw [BitBuf2.flush]
    by_cases waiting : me.bitCount ≠ 0
    · rw [if_pos waiting]
      exact ⟨rfl, rfl, rfl, rfl⟩
    · rw [if_neg waiting]
      refine ⟨rfl, rfl, rfl, ?_⟩
      dsimp only
      omega
  obtain ⟨none_, none_', origin, outBuf⟩ := fields
  have inside := h.inside
  simp only [Zstream.isFull] at free
  refine ⟨⟨⟨?_, ?_, ?_, ?_, ?_⟩, ?_, ?_⟩, none_'⟩
  · exact origin.trans h.written.origin
  · omega
  · rw [none_', ← List.append_assoc, List.length_append, count, toByte, List.length_replicate, outBuf]
    omega
  · omega
  · have behind : me.flush.outBuf - s.nextOut = n := by omega
    rw [none_, behind, value, ← List.append_assoc, bitsVal_append, toByte, bitsVal_zeros]
    simp
  · omega
  · intro i outside
    have same : me.flush.memory i = me.memory i := by
      rw [BitBuf2.flush]
      by_cases waiting : me.bitCount ≠ 0
      · rw [if_pos waiting]
        have room := free waiting
        exact if_neg (by omega)
      · rw [if_neg waiting]
    rw [same, h.kept i outside]

end

/-- A flush is put out, or there is no room for it. -/
theorem syncFlush_spec {s : DeflateStream} (clean : s.Clean) : s.availOut < 8 ∧ syncFlush s = s ∨
    Emits s.toZstream (syncFlush s).toZstream (flushBits s.bitCount) ∧ (syncFlush s).bitCount = 0 ∧
      syncFlush s = { s with
        toOutStream := (syncFlush s).toOutStream
        bits := (syncFlush s).bits
        bitCount := (syncFlush s).bitCount
        state := .newHdr
        hasEob := 0
        hasHist := if s.flush = fullFlush then igzipNoHist else s.hasHist } := by
  rw [syncFlush]
  by_cases room : 8 ≤ s.availOut
  · right
    rw [if_pos room]
    dsimp only
    have pad : (8 - (s.bitCount + 3) % 8) % 8 = blockPad s.bitCount := rfl
    rw [pad]
    have short : blockPad s.bitCount < 8 := Nat.mod_lt _ (by decide)
    have small : 0xFFFF0000 <<< (blockPad s.bitCount + 3) < 2 ^ (32 + blockPad s.bitCount + 3) := by
      rw [Nat.shiftLeft_eq, Nat.add_assoc, Nat.pow_add 2 32]
      exact Nat.mul_lt_mul_of_pos_right (by decide : 0xFFFF0000 < 2 ^ 32) (Nat.two_pow_pos _)
    have word : 2 ^ (32 + blockPad s.bitCount + 3) ≤ 2 ^ 64 := Nat.pow_le_pow_right (by decide) (by omega)
    rw [Nat.mod_eq_of_lt (by omega)]
    have start := Zstream.Wrote.start clean
    have few := clean.few
    have wrote := start.writeBits (start.free (by simp only [List.length_nil]; omega)) small (by omega)
    refine ⟨wrote.emits.congr rfl rfl rfl, ?_, rfl⟩
    have total := wrote.written.count
    have left := wrote.written.few
    rw [List.length_append, List.nil_append, lowBits_length, Zstream.waiting, lowBits_length] at total
    change (s.bitbuf.writeBits (0xFFFF0000 <<< (blockPad s.bitCount + 3)) (32 + blockPad s.bitCount + 3)).bitCount = 0
    have pads : (s.bitCount + blockPad s.bitCount + 3) % 8 = 0 := by
      rw [blockPad]
      omega
    omega
  · rw [if_neg room]
    exact .inl ⟨by omega, rfl⟩

/-- The empty block that stands for a last one, if there was none -/
def lastBlockBits (s : Zstream) : List Bool := if s.hasEobHdr = 0 then emptyBlockBits else []

/-- What a call of `write_trailer` has put out. The trailer waits until all of it fits. -/
inductive TrailerStep (s : StatelessStream) : StatelessStream → Prop where
  | stay : TrailerStep s s
  | block (t : StatelessStream) (missing : s.hasEobHdr = 0) (emits : Emits s.toZstream t.toZstream emptyBlockBits)
      (frame : t = { s with toOutStream := t.toOutStream, bits := t.bits, bitCount := t.bitCount, hasEobHdr := 1 }) : TrailerStep s t
  | flushed (t : StatelessStream) (emits : Emits s.toZstream t.toZstream
        (lastBlockBits s.toZstream ++ toByte (s.bitCount + (lastBlockBits s.toZstream).length))) (aligned : t.bitCount = 0)
      (frame : t = { s with
        toOutStream := t.toOutStream, bits := t.bits, bitCount := t.bitCount
        hasEobHdr := if s.hasEobHdr = 0 then 1 else s.hasEobHdr }) : TrailerStep s t
  | ended (t : StatelessStream) (emits : Emits s.toZstream t.toZstream
        (lastBlockBits s.toZstream ++ toByte (s.bitCount + (lastBlockBits s.toZstream).length) ++ bytesBits (streamTrailer s)))
      (aligned : t.bitCount = 0) (frame : t = { s with
        toOutStream := t.toOutStream, bits := t.bits, bitCount := t.bitCount, state := .end_
        hasEobHdr := if s.hasEobHdr = 0 then 1 else s.hasEobHdr }) : TrailerStep s t

theorem toByte_congr {used used' : Nat} (same : used % 8 = used' % 8) : toByte used = toByte used' := by
  rw [toByte, toByte, same]

theorem writeTrailer_spec {s : StatelessStream} (clean : s.Clean) : TrailerStep s (writeTrailer s) := by
  rw [writeTrailer]
  by_cases short : s.hasEobHdr = 0 ∧ s.availOut < 8
  · rw [if_pos short]
    exact .stay
  rw [if_neg short]
  dsimp only
  have start := Zstream.Wrote.start clean
  have few := clean.few
  -- the bit buffer with the last block
  obtain ⟨me, isMe⟩ : ∃ me, me = if s.hasEobHdr = 0 then s.bitbuf.writeBits 0x003 10 else s.bitbuf := ⟨_, rfl⟩
  have wrote : s.toZstream.Wrote me (lastBlockBits s.toZstream) := by
    rw [isMe, lastBlockBits]
    by_cases missing : s.hasEobHdr = 0
    · rw [if_pos missing, if_pos missing]
      exact start.writeBits (start.free (by simp only [List.length_nil]; omega)) (by decide) (by decide)
    · rw [if_neg missing, if_neg missing]
      exact start
  rw [← isMe]
  by_cases full : s.hasEobHdr = 0 ∧ s.nextOut + s.availOut - 8 < (s.bitbuf.writeBits 0x003 10).outBuf
  · rw [if_pos full]
    rw [lastBlockBits, if_pos full.1] at wrote
    exact .block _ full.1 (wrote.emits.congr rfl rfl rfl) rfl
  rw [if_neg full]
  by_cases waits : me.bitCount ≠ 0 ∧ s.availOut < 8
  · rw [if_pos waits]
    exact .stay
  rw [if_neg waits]
  have free : me.bitCount ≠ 0 → ¬ s.toZstream.isFull me := by
    intro some_
    rw [Zstream.isFull, isMe]
    by_cases missing : s.hasEobHdr = 0
    · rw [if_pos missing]
      omega
    · rw [if_neg missing]
      simp only [Zstream.bitbuf]
      omega
  obtain ⟨flushed, aligned⟩ := wrote.flush free
  have padded : toByte me.bitCount = toByte (s.bitCount + (lastBlockBits s.toZstream).length) := by
    have count := wrote.written.count
    rw [List.length_append, Zstream.waiting, lowBits_length] at count
    exact toByte_congr (by omega)
  rw [padded] at flushed
  obtain ⟨me', isMe'⟩ : ∃ me', me' = if me.bitCount ≠ 0 then me.flush else me := ⟨_, rfl⟩
  have done : s.toZstream.Wrote me' (lastBlockBits s.toZstream ++ toByte (s.bitCount + (lastBlockBits s.toZstream).length)) ∧
      me'.bitCount = 0 := by
    rw [isMe']
    by_cases some_ : me.bitCount ≠ 0
    · rw [if_pos some_]
      exact ⟨flushed, aligned⟩
    · have zero : me.bitCount = 0 := not_not.mp some_
      rw [if_neg some_, ← padded, toByte, zero]
      exact ⟨by simpa using wrote, rfl⟩
  obtain ⟨flushed', aligned'⟩ := done
  rw [← isMe']
  have emits := flushed'.emits
  have trailer : ∀ hasEobHdr, streamTrailer { s.setBitbuf me' with hasEobHdr } = streamTrailer s := fun _ => rfl
  rw [trailer]
  by_cases room : (s.setBitbuf me').availOut < (streamTrailer s).length
  · rw [if_pos room]
    exact .flushed _ (emits.congr rfl rfl rfl) aligned' rfl
  · rw [if_neg room]
    have sent := emits.trans (Emits.ofPut emits.clean aligned' (Nat.not_lt.mp room))
    exact .ended _ (sent.congr rfl rfl rfl) aligned' rfl

/-- A table whose entries are all the position that comes next finds nothing. -/
theorem resetMatchHistory_recent (s : DeflateStream) : Recent s.resetMatchHistory.hashMask 0 s.totalIn s.resetMatchHistory.head := by
  intro slot below
  have listed : slot ≤ s.hashMask := below
  have entry : s.resetMatchHistory.head slot = s.totalIn % 2 ^ 16 := by
    rw [DeflateStream.resetMatchHistory]
    refine if_pos ⟨Nat.zero_le _, ?_⟩
    split <;> omega
  rw [entry]
  exact ⟨Nat.mod_lt _ (by decide), 0, Nat.le_refl _, Nat.mod_modEq _ _⟩

end Isal.Deflate
