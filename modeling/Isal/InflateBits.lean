import Isal.Bits

/-! The 64-bit read-ahead of the decompressor. Bits above `readInLength` may already
hold part of the next bytes; `Views` is the invariant under which every lookup sees
the zero-padded stream all the same. -/
namespace Isal.Inflate

open Isal.Bits

/-- The input fields of `struct inflate_state`: `nextIn` is an offset into `buf`, the
buffer that the pointer `next_in` refers to. -/
structure InStream where
  readIn : Nat := 0
  readInLength : Int := 0
  buf : List UInt8 := []
  nextIn : Int := 0
  availIn : Nat := 0
  deriving Repr, DecidableEq

def maxCodeLen : Nat := 15 -- ISAL_DEF_MAX_CODE_LEN

def loadLe64 (s : InStream) : Nat := bytesVal ((s.buf.drop s.nextIn.toNat).take 8)

/-- The byte at a time loop of `inflate_in_load`; every round takes a byte, so
`availIn` rounds are enough. -/
def loadBytes : (rounds : Nat) → InStream → InStream
  | 0, s => s
  | rounds + 1, s =>
    if s.readInLength < 57 ∧ 0 < s.availIn then
      loadBytes rounds { s with
        readIn := (s.readIn ||| ((s.buf[s.nextIn.toNat]?.getD 0).toNat <<< s.readInLength.toNat)) % 2 ^ 64
        nextIn := s.nextIn + 1
        availIn := s.availIn - 1
        readInLength := s.readInLength + 8 }
    else s

/-- `inflate_in_load`; its `min_required` argument is not used there either. -/
def inflateInLoad (s : InStream) : InStream :=
  if 64 ≤ s.readInLength then s
  else if 8 ≤ s.availIn then
    let newBytes := 8 - (s.readInLength + 7) / 8
    { s with
      readIn := (s.readIn ||| (loadLe64 s <<< s.readInLength.toNat)) % 2 ^ 64
      nextIn := s.nextIn + newBytes
      availIn := s.availIn - newBytes.toNat
      readInLength := s.readInLength + newBytes * 8 }
  else loadBytes s.availIn s

/-- `state->read_in >>= bit_count; state->read_in_length -= bit_count` -/
def InStream.consume (s : InStream) (bitCount : Nat) : InStream :=
  { s with readIn := s.readIn >>> bitCount, readInLength := s.readInLength - bitCount }

def inflateInReadBitsUnsafe (bitCount : Nat) (s : InStream) : Nat × InStream :=
  (s.readIn % 2 ^ bitCount, s.consume bitCount)

def inflateInReadBits (bitCount : Nat) (s : InStream) : Nat × InStream :=
  inflateInReadBitsUnsafe bitCount (inflateInLoad s)

/-- The bytes at `next_in` that are still to be read. -/
def InStream.pending (s : InStream) : List UInt8 := (s.buf.drop s.nextIn.toNat).take s.availIn

/-- `s` stands for the stream with value `v` of which `n` bits are left; a negative `n`
counts the bits consumed beyond the end of the input. -/
structure Views (s : InStream) (v : Nat) (n : Int) : Prop where
  start : 0 ≤ s.nextIn
  inside : s.nextIn.toNat + s.availIn = s.buf.length
  small : s.readInLength ≤ 64
  count : n = s.readInLength + 8 * s.availIn
  drained : s.readInLength < 0 → s.availIn = 0
  value : v / 2 ^ s.readInLength.toNat = bytesVal s.pending
  buffered : ∃ m, s.readInLength.toNat ≤ m ∧ m ≤ 64 ∧ s.readIn = v % 2 ^ m

/-- Enough is buffered for any field of a symbol, or everything is. -/
def Loaded (s : InStream) : Prop := 57 ≤ s.readInLength ∨ s.availIn = 0

variable {s : InStream} {v : Nat} {n : Int}

@[simp] theorem consume_buf (s : InStream) (k : Nat) : (s.consume k).buf = s.buf := rfl
@[simp] theorem consume_nextIn (s : InStream) (k : Nat) : (s.consume k).nextIn = s.nextIn := rfl
@[simp] theorem consume_availIn (s : InStream) (k : Nat) : (s.consume k).availIn = s.availIn := rfl
@[simp] theorem consume_pending (s : InStream) (k : Nat) : (s.consume k).pending = s.pending := rfl
@[simp] theorem consume_readInLength (s : InStream) (k : Nat) :
    (s.consume k).readInLength = s.readInLength - k := rfl
@[simp] theorem consume_readIn (s : InStream) (k : Nat) : (s.consume k).readIn = s.readIn >>> k := rfl
@[simp] theorem consume_zero (s : InStream) : s.consume 0 = s := by simp [InStream.consume]

theorem loadBytes_buf (rounds : Nat) (s : InStream) : (loadBytes rounds s).buf = s.buf := by
  induction rounds generalizing s with
  | zero => rfl
  | succ rounds ih =>
    rw [loadBytes]
    split
    · exact ih _
    · rfl

@[simp] theorem inflateInLoad_buf (s : InStream) : (inflateInLoad s).buf = s.buf := by
  rw [inflateInLoad]
  split
  · rfl
  split
  · rfl
  · exact loadBytes_buf _ _

@[simp] theorem readBitsUnsafe_buf (k : Nat) (s : InStream) : (inflateInReadBitsUnsafe k s).2.buf = s.buf := rfl

@[simp] theorem readBits_buf (k : Nat) (s : InStream) : (inflateInReadBits k s).2.buf = s.buf := by
  simp [inflateInReadBits]

theorem pending_length (h : Views s v n) : s.pending.length = s.availIn := by
  have := h.inside
  simp [InStream.pending]; omega

namespace Views

/-- Taking `k` more bytes into the buffer leaves the stream as it was. -/
theorem refill (h : Views s v n) (k m : Nat) (enough : k ≤ s.availIn) (nonneg : 0 ≤ s.readInLength)
    (counted : s.readInLength.toNat + 8 * k ≤ m) (width : m ≤ 64) :
    Views { s with readIn := v % 2 ^ m, nextIn := s.nextIn + k, availIn := s.availIn - k,
                   readInLength := s.readInLength + 8 * k } v n where
  start := by have := h.start; simp only; omega
  inside := by have := h.start; have := h.inside; simp only; omega
  small := by simp only; omega
  count := by have := h.count; simp only; omega
  drained := by simp only; omega
  value := by
    have := h.start
    simp only [InStream.pending]
    rw [show (s.readInLength + 8 * (k : Int)).toNat = s.readInLength.toNat + 8 * k by omega, Nat.pow_add,
      ← Nat.div_div_eq_div_mul, h.value, ← bytesVal_drop, InStream.pending, List.drop_take, List.drop_drop,
      show (s.nextIn + (k : Int)).toNat = s.nextIn.toNat + k by omega]
  buffered := ⟨m, by simp only; omega, width, rfl⟩

theorem window (h : Views s v n) (k : Nat) (enough : k ≤ s.availIn) :
    bytesVal ((s.buf.drop s.nextIn.toNat).take k) = v / 2 ^ s.readInLength.toNat % 2 ^ (8 * k) := by
  rw [h.value, ← bytesVal_take, InStream.pending, List.take_take, Nat.min_eq_left enough]

theorem loadBytes (rounds : Nat) (h : Views s v n) (nonneg : 0 ≤ s.readInLength) :
    Views (loadBytes rounds s) v n ∧ (s.availIn ≤ rounds → Loaded (Inflate.loadBytes rounds s)) := by
  induction rounds generalizing s with
  | zero => exact ⟨h, fun few => Or.inr (by simp only [Inflate.loadBytes]; omega)⟩
  | succ rounds ih =>
    rw [Inflate.loadBytes]
    split
    · rename_i more
      obtain ⟨m, low, high, buffered⟩ := h.buffered
      have byte : (s.buf[s.nextIn.toNat]?.getD 0).toNat = v / 2 ^ s.readInLength.toNat % 2 ^ 8 := by
        have first := h.window 1 (by omega)
        have inside : s.nextIn.toNat < s.buf.length := by have := h.inside; omega
        rw [List.drop_eq_getElem_cons inside, List.take_succ_cons] at first
        simpa [inside, bytesVal_cons] using first
      have joined : (s.readIn ||| ((s.buf[s.nextIn.toNat]?.getD 0).toNat <<< s.readInLength.toNat)) % 2 ^ 64 =
          v % 2 ^ max m (s.readInLength.toNat + 8) := by
        rw [buffered, byte, mod_or_shifted low, mod_mod_two_pow]
        congr 2; omega
      have next := h.refill 1 (max m (s.readInLength.toNat + 8)) (by omega) nonneg (by omega) (by omega)
      rw [← joined] at next
      obtain ⟨views, loaded⟩ := ih next (by simp only; omega)
      exact ⟨views, fun few => loaded (by simp only; omega)⟩
    · rename_i stop
      refine ⟨h, fun _ => ?_⟩
      simp only [Loaded]; omega

theorem load (h : Views s v n) : Views (inflateInLoad s) v n ∧ Loaded (inflateInLoad s) := by
  have negative := h.drained
  rw [inflateInLoad]
  split
  · exact ⟨h, Or.inl (by omega)⟩
  split
  · rename_i short plenty
    obtain ⟨m, low, high, buffered⟩ := h.buffered
    have joined : (s.readIn ||| (loadLe64 s <<< s.readInLength.toNat)) % 2 ^ 64 = v % 2 ^ 64 := by
      rw [buffered, loadLe64, h.window 8 plenty, mod_or_shifted low, mod_mod_two_pow]
      congr 2; omega
    have next := h.refill (8 - (s.readInLength + 7) / 8).toNat 64 (by omega) (by omega) (by omega) (by omega)
    simp only
    rw [joined]
    rw [show ((8 - (s.readInLength + 7) / 8).toNat : Int) = 8 - (s.readInLength + 7) / 8 by omega,
      Int.mul_comm] at next
    exact ⟨next, Or.inl (by simp only; omega)⟩
  · by_cases nonneg : 0 ≤ s.readInLength
    · exact ⟨(h.loadBytes _ nonneg).1, (h.loadBytes _ nonneg).2 (Nat.le_refl _)⟩
    · have empty := negative (by omega)
      rw [empty]
      exact ⟨h, Or.inr empty⟩

/-- A lookup sees the stream, zero-padded where the input ends. -/
theorem peek (h : Views s v n) {k : Nat} (enough : (k : Int) ≤ s.readInLength ∨ s.availIn = 0) :
    s.readIn % 2 ^ k = v % 2 ^ k := by
  obtain ⟨m, low, high, buffered⟩ := h.buffered
  rcases enough with enough | empty
  · rw [buffered, mod_mod_two_pow]
    congr 2; omega
  · have none := h.value
    rw [InStream.pending, empty, List.take_zero, bytesVal_nil] at none
    have small : v < 2 ^ s.readInLength.toNat := (Nat.div_eq_zero_iff_lt (Nat.two_pow_pos _)).mp none
    rw [buffered, Nat.mod_eq_of_lt (Nat.lt_of_lt_of_le small (Nat.pow_le_pow_right (by omega) low))]

theorem consume (h : Views s v n) {k : Nat} (enough : (k : Int) ≤ s.readInLength ∨ s.availIn = 0) :
    Views (s.consume k) (v / 2 ^ k) (n - k) where
  start := h.start
  inside := h.inside
  small := by have := h.small; simp; omega
  count := by have := h.count; simp; omega
  drained := by have := h.drained; simp; omega
  value := by
    simp only [consume_readInLength, consume_pending, Nat.div_div_eq_div_mul, ← Nat.pow_add]
    by_cases inside : (k : Int) ≤ s.readInLength
    · rw [show k + (s.readInLength - k).toNat = s.readInLength.toNat by omega, h.value]
    · have empty : s.availIn = 0 := by omega
      have none := h.value
      rw [InStream.pending, empty, List.take_zero, bytesVal_nil] at none ⊢
      rw [Nat.div_eq_zero_iff_lt (Nat.two_pow_pos _)] at none ⊢
      exact Nat.lt_of_lt_of_le none (Nat.pow_le_pow_right (by omega) (by omega))
  buffered := by
    obtain ⟨m, low, high, buffered⟩ := h.buffered
    refine ⟨m - k, by simp; omega, by omega, ?_⟩
    rw [consume_readIn, buffered, Nat.shiftRight_eq_div_pow]
    by_cases inside : k ≤ m
    · rw [← Nat.mod_mul_right_div_self, ← Nat.pow_add, Nat.add_sub_cancel' inside]
    · rw [show m - k = 0 by omega, Nat.pow_zero, Nat.mod_one, Nat.div_eq_zero_iff_lt (Nat.two_pow_pos _)]
      exact Nat.lt_of_lt_of_le (Nat.mod_lt _ (Nat.two_pow_pos m)) (Nat.pow_le_pow_right (by omega) (by omega))

theorem value_lt (h : Views s v n) : v < 2 ^ n.toNat := by
  have drained := h.drained
  have count := h.count
  have bytes := bytesVal_lt s.pending
  rw [← h.value, pending_length h, Nat.div_lt_iff_lt_mul (Nat.two_pow_pos _), ← Nat.pow_add] at bytes
  refine Nat.lt_of_lt_of_le bytes (Nat.pow_le_pow_right (by omega) (by omega))

/-- Bits that were there have been consumed. -/
theorem drop {bits : List Bool} {k : Nat} (h : Views s (bitsVal bits / 2 ^ k) (bits.length - k))
    (enough : k ≤ bits.length) : Views s (bitsVal (bits.drop k)) (bits.drop k).length := by
  rw [bitsVal_drop, List.length_drop, Int.ofNat_sub enough]
  exact h

/-- At the end of the input no look-ahead bits are left over. -/
theorem cleared (h : Views s v n) (none : s.availIn = 0) (read : s.readInLength ≤ 0) : s.readIn = 0 := by
  obtain ⟨m, -, -, buffered⟩ := h.buffered
  have value := h.value
  rw [InStream.pending, none, List.take_zero, bytesVal_nil, show s.readInLength.toNat = 0 by omega, Nat.pow_zero,
    Nat.div_one] at value
  rw [buffered, value, Nat.zero_mod]

/-- The code sees that it has consumed too much. -/
theorem negative (h : Views s v n) : s.readInLength < 0 ↔ n < 0 := by
  have := h.drained
  have := h.count
  omega

end Views

/-- More has been consumed than there was. -/
def Overrun (s : InStream) : Prop := ∃ v n, Views s v n ∧ n < 0

theorem Overrun.negative (h : Overrun s) : s.readInLength < 0 := by
  obtain ⟨v, n, views, below⟩ := h
  exact views.negative.mpr below

/-- A field of `k` bits, read where the buffer is loaded on demand. -/
theorem readBits_views (h : Views s v n) {k : Nat} (hk : k ≤ 57) :
    (inflateInReadBits k s).1 = v % 2 ^ k ∧ Views (inflateInReadBits k s).2 (v / 2 ^ k) (n - k) := by
  obtain ⟨views, loaded⟩ := h.load
  have enough : (k : Int) ≤ (inflateInLoad s).readInLength ∨ (inflateInLoad s).availIn = 0 :=
    loaded.imp (fun h => by omega) id
  exact ⟨views.peek enough, views.consume enough⟩

theorem readBitsUnsafe_views (h : Views s v n) {k : Nat}
    (enough : (k : Int) ≤ s.readInLength ∨ s.availIn = 0) :
    (inflateInReadBitsUnsafe k s).1 = v % 2 ^ k ∧
      Views (inflateInReadBitsUnsafe k s).2 (v / 2 ^ k) (n - k) :=
  ⟨h.peek enough, h.consume enough⟩

theorem views_initial (input : List UInt8) :
    Views ⟨0, 0, input, 0, input.length⟩ (bitsVal (bytesBits input)) (bytesBits input).length where
  start := by simp
  inside := by simp
  small := by simp
  count := by simp
  drained := by simp
  value := by simp [InStream.pending, bitsVal_bytesBits]
  buffered := ⟨0, by simp, by simp, by simp [Nat.mod_one]⟩

end Isal.Inflate
