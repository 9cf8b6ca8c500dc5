import Isal.Arr
import Isal.Bits

/-! The bit buffer that the compressor writes through, as `bitbuf2.h` has it, and the bits that have
been written through it. -/
namespace Isal.Bits

/-- The low `width` bits of a number, the lowest first. -/
def lowBits (width value : Nat) : List Bool := (List.range width).map value.testBit

@[simp] theorem lowBits_length (width value : Nat) : (lowBits width value).length = width := by
  simp [lowBits]

theorem bitsVal_lowBits (width value : Nat) : bitsVal (lowBits width value) = value % 2 ^ width := by
  apply Nat.eq_of_testBit_eq
  intro i
  rw [testBit_bitsVal, Nat.testBit_mod_two_pow, lowBits, List.getElem?_map]
  by_cases inside : i < width
  · rw [List.getElem?_range inside]
    simp [inside]
  · rw [List.getElem?_eq_none (by simp; omega)]
    simp [inside]

theorem bitsVal_lowBits_of_lt {width value : Nat} (small : value < 2 ^ width) : bitsVal (lowBits width value) = value := by
  rw [bitsVal_lowBits, Nat.mod_eq_of_lt small]

theorem lowBits_bitsVal (bits : List Bool) : lowBits bits.length (bitsVal bits) = bits := by
  apply bitsVal_inj
  · exact lowBits_length _ _
  · exact bitsVal_lowBits_of_lt (bitsVal_lt bits)

/-- A field above another one -/
theorem or_shiftLeft {low width : Nat} (small : low < 2 ^ width) (value : Nat) :
    low ||| value <<< width = low + 2 ^ width * value := by
  rw [Nat.shiftLeft_eq, Nat.lor_comm, Nat.mul_comm, ← Nat.two_pow_add_eq_or_of_lt small, Nat.add_comm]

theorem add_shifted_lt {low width value width' : Nat} (small : low < 2 ^ width) (small' : value < 2 ^ width') :
    low + 2 ^ width * value < 2 ^ (width + width') := by
  have next : 2 ^ width * (value + 1) ≤ 2 ^ width * 2 ^ width' := Nat.mul_le_mul_left _ small'
  rw [Nat.pow_add]
  rw [Nat.mul_add] at next
  omega

/-- Two fields side by side -/
theorem lowBits_add {low value : Nat} (width : Nat) (small : low < 2 ^ width) (width' : Nat) :
    lowBits (width + width') (low + 2 ^ width * value) = lowBits width low ++ lowBits width' value := by
  apply bitsVal_inj
  · simp
  · rw [bitsVal_append, bitsVal_lowBits, bitsVal_lowBits, bitsVal_lowBits, lowBits_length, Nat.mod_eq_of_lt small, Nat.pow_add,
      Nat.mod_mul, Nat.add_mul_mod_self_left, Nat.mod_eq_of_lt small, Nat.add_mul_div_left _ _ (Nat.two_pow_pos _),
      Nat.div_eq_of_lt small, Nat.zero_add]

/-- A reversed number stands in the stream with its highest bit first. -/
theorem lowBits_revBits (width value : Nat) : lowBits width (revBits width value) = msbBits value width := by
  apply bitsVal_inj
  · simp
  · exact bitsVal_lowBits_of_lt (revBits_lt _ _)

/-- The `n` bytes from index `p` on -/
def bytesAt (memory : Arr UInt8) (p n : Nat) : List UInt8 := (List.range n).map fun i => memory (p + i)

@[simp] theorem bytesAt_length (memory : Arr UInt8) (p n : Nat) : (bytesAt memory p n).length = n := by
  simp [bytesAt]

theorem bytesAt_add (memory : Arr UInt8) (p n k : Nat) :
    bytesAt memory p (n + k) = bytesAt memory p n ++ bytesAt memory (p + n) k := by
  simp [bytesAt, List.range_add, Nat.add_assoc, Function.comp_def]

theorem bytesAt_congr {memory memory' : Arr UInt8} {p n : Nat} (same : ∀ i, p ≤ i → i < p + n → memory' i = memory i) :
    bytesAt memory' p n = bytesAt memory p n := by
  apply List.map_congr_left
  intro i member
  have := List.mem_range.mp member
  exact same _ (by omega) (by omega)

theorem bytesVal_inj {x y : List UInt8} (length : x.length = y.length) (same : bytesVal x = bytesVal y) : x = y := by
  induction x generalizing y with
  | nil => exact (List.length_eq_zero_iff.mp length.symm).symm
  | cons a x ih =>
    cases y with
    | nil => exact absurd length (Nat.succ_ne_zero _)
    | cons b y =>
      have low := a.toNat_lt
      have low' := b.toNat_lt
      rw [bytesVal_cons, bytesVal_cons] at same
      rw [List.length_cons, List.length_cons] at length
      have first : a = b := UInt8.toNat_inj.mp (by omega)
      have more : x = y := ih (by omega) (by omega)
      rw [first, more]

/-- Two words are equal byte by byte. -/
theorem bytesAt_inj {memory : Arr UInt8} {p q n : Nat} (same : bytesVal (bytesAt memory p n) = bytesVal (bytesAt memory q n)) :
    ∀ i < n, memory (p + i) = memory (q + i) := by
  have bytes : bytesAt memory p n = bytesAt memory q n := by
    apply bytesVal_inj
    · rw [bytesAt_length, bytesAt_length]
    · exact same
  intro i below
  exact List.map_inj_left.mp bytes i (List.mem_range.mpr below)

end Isal.Bits

namespace Isal.Deflate
open Bits

/-- `struct BitBuf2`, without the end of the buffer, which only `is_full` looks at. -/
structure BitBuf2 where
  bits : Nat
  bitCount : Nat
  memory : Arr UInt8
  outBuf : Nat
  outStart : Nat

/-- `store_le_u64` -/
def storeLeU64 (memory : Arr UInt8) (p value : Nat) : Arr UInt8 :=
  ⟨fun i => if p ≤ i ∧ i < p + 8 then UInt8.ofNat (value >>> (8 * (i - p))) else memory i⟩

namespace BitBuf2

/-- `init` and `set_buf` -/
def setBuf (memory : Arr UInt8) (buf : Nat) : BitBuf2 where
  bits := 0
  bitCount := 0
  memory := memory
  outBuf := buf
  outStart := buf

def bufferBitsUsed (me : BitBuf2) : Nat := (8 * (me.outBuf - me.outStart) + me.bitCount) % 2 ^ 32

def flushBits (me : BitBuf2) : BitBuf2 :=
  let bits := me.bitCount / 8 * 8
  { me with
    memory := storeLeU64 me.memory me.outBuf me.bits
    bitCount := me.bitCount - bits
    outBuf := me.outBuf + bits / 8
    bits := me.bits >>> bits }

def writeBits (me : BitBuf2) (code count : Nat) : BitBuf2 :=
  flushBits { me with
    bits := (me.bits ||| code <<< me.bitCount) % 2 ^ 64
    bitCount := me.bitCount + count }

def flush (me : BitBuf2) : BitBuf2 :=
  if me.bitCount ≠ 0 then
    { me with
      memory := storeLeU64 me.memory me.outBuf me.bits
      outBuf := me.outBuf + (me.bitCount + 7) / 8
      bits := 0
      bitCount := 0 }
  else
    { me with bits := 0, bitCount := 0 }

/-- Bytes of the buffer from `start` on, and bits that wait for the rest of a byte -/
structure Written (me : BitBuf2) (start : Nat) (bits : List Bool) : Prop where
  origin : me.outStart = start
  ahead : start ≤ me.outBuf
  count : bits.length = 8 * (me.outBuf - start) + me.bitCount
  few : me.bitCount < 8
  value : bitsVal bits = bytesVal (bytesAt me.memory start (me.outBuf - start)) + 2 ^ (8 * (me.outBuf - start)) * me.bits

variable {me : BitBuf2} {start : Nat} {written : List Bool}

theorem bytesVal_storeLeU64 (memory : Arr UInt8) (p value : Nat) {n : Nat} (few : n ≤ 8) :
    bytesVal (bytesAt (storeLeU64 memory p value) p n) = value % 2 ^ (8 * n) := by
  induction n with
  | zero => simp [bytesAt, Nat.mod_one]
  | succ n ih =>
    have byte : bytesAt (storeLeU64 memory p value) (p + n) 1 = [UInt8.ofNat (value >>> (8 * n))] := by
      simp only [bytesAt, List.range_one, List.map_cons, List.map_nil, storeLeU64]
      rw [if_pos (by omega), Nat.add_zero, Nat.add_sub_cancel_left]
    have last : bytesVal [UInt8.ofNat (value >>> (8 * n))] = value / 2 ^ (8 * n) % 2 ^ 8 := by
      rw [bytesVal_cons, bytesVal_nil, UInt8.toNat_ofNat', Nat.shiftRight_eq_div_pow, Nat.mul_zero, Nat.add_zero]
    rw [bytesAt_add, bytesVal_append, byte, ih (by omega), last, bytesAt_length, Nat.mul_succ, Nat.pow_add, Nat.mod_mul]

theorem bytesAt_storeLeU64 (memory : Arr UInt8) {p start : Nat} (value : Nat) (before : start ≤ p) :
    bytesAt (storeLeU64 memory p value) start (p - start) = bytesAt memory start (p - start) := by
  apply bytesAt_congr
  intro i _ below
  exact if_neg (by omega)

theorem setBuf_written (memory : Arr UInt8) (buf : Nat) : Written (setBuf memory buf) buf [] := by
  constructor <;> simp [setBuf, bytesAt]

theorem Written.bits_lt (holds : Written me start written) : me.bits < 2 ^ me.bitCount := by
  have bound := bitsVal_lt written
  rw [holds.value, holds.count, Nat.pow_add] at bound
  have part : 2 ^ (8 * (me.outBuf - start)) * me.bits < 2 ^ (8 * (me.outBuf - start)) * 2 ^ me.bitCount := by omega
  exact Nat.lt_of_mul_lt_mul_left part

theorem Written.bufferBitsUsed (holds : Written me start written) : me.bufferBitsUsed = written.length % 2 ^ 32 := by
  rw [BitBuf2.bufferBitsUsed, holds.origin, ← holds.count]

/-- Whole bytes go to the buffer. -/
theorem flushBits_written (same : me.outStart = start) (ahead : start ≤ me.outBuf)
    (count : written.length = 8 * (me.outBuf - start) + me.bitCount) (room : me.bitCount ≤ 64)
    (value : bitsVal written = bytesVal (bytesAt me.memory start (me.outBuf - start)) +
      2 ^ (8 * (me.outBuf - start)) * me.bits) : Written me.flushBits start written := by
  have further : me.outBuf + me.bitCount / 8 * 8 / 8 - start = me.outBuf - start + me.bitCount / 8 := by omega
  have bytes : bytesVal (bytesAt (storeLeU64 me.memory me.outBuf me.bits) start (me.outBuf - start + me.bitCount / 8)) =
      bytesVal (bytesAt me.memory start (me.outBuf - start)) +
        2 ^ (8 * (me.outBuf - start)) * (me.bits % 2 ^ (8 * (me.bitCount / 8))) := by
    rw [bytesAt_add, bytesVal_append, bytesAt_length, bytesAt_storeLeU64 _ _ ahead, Nat.add_sub_cancel' ahead,
      bytesVal_storeLeU64 _ _ _ (by omega)]
  constructor
  · exact same
  · simp only [flushBits]
    omega
  · simp only [flushBits, further]
    omega
  · simp only [flushBits]
    omega
  · simp only [flushBits, further]
    rw [value, bytes, Nat.mul_comm (me.bitCount / 8) 8, Nat.shiftRight_eq_div_pow, Nat.mul_add 8, Nat.pow_add, Nat.mul_assoc,
      Nat.add_assoc, ← Nat.mul_add, Nat.mod_add_div]

/-- Fields follow each other in the stream. -/
theorem Written.writeBits (holds : Written me start written) (code count : Nat) (small : code < 2 ^ count)
    (few : count ≤ 56) : Written (me.writeBits code count) start (written ++ lowBits count code) := by
  have waiting := holds.few
  have low := holds.bits_lt
  have joined : (me.bits ||| code <<< me.bitCount) % 2 ^ 64 = me.bits + 2 ^ me.bitCount * code := by
    have bound := add_shifted_lt low small
    have room : 2 ^ (me.bitCount + count) ≤ 2 ^ 64 := Nat.pow_le_pow_right (by omega) (by omega)
    rw [or_shiftLeft low, Nat.mod_eq_of_lt (by omega)]
  apply flushBits_written
  · exact holds.origin
  · exact holds.ahead
  · rw [List.length_append, lowBits_length, holds.count]
    dsimp only
    omega
  · dsimp only
    omega
  · dsimp only
    rw [bitsVal_append, holds.value, holds.count, bitsVal_lowBits_of_lt small, joined, Nat.pow_add]
    ring

/-- The rest of the last byte is zero. -/
theorem Written.flush (holds : Written me start written) :
    ∃ n, me.flush.outBuf = start + n ∧ n ≤ written.length / 8 + 1 ∧ written.length ≤ 8 * n ∧
      bytesVal (bytesAt me.flush.memory start n) = bitsVal written := by
  have ahead := holds.ahead
  have count := holds.count
  have few := holds.few
  by_cases waiting : me.bitCount ≠ 0
  · refine ⟨me.outBuf - start + 1, ?_, by omega, by omega, ?_⟩
    · rw [BitBuf2.flush, if_pos waiting]
      dsimp only
      omega
    · have low : me.bits < 2 ^ (8 * 1) :=
        Nat.lt_of_lt_of_le holds.bits_lt (Nat.pow_le_pow_right (by omega) (by omega))
      rw [BitBuf2.flush, if_pos waiting]
      dsimp only
      rw [bytesAt_add, bytesVal_append, bytesAt_length, bytesAt_storeLeU64 _ _ ahead, Nat.add_sub_cancel' ahead,
        bytesVal_storeLeU64 _ _ _ (by omega), Nat.mod_eq_of_lt low, holds.value]
  · have none_ : me.bitCount = 0 := by omega
    refine ⟨me.outBuf - start, ?_, by omega, by omega, ?_⟩
    · rw [BitBuf2.flush, if_neg waiting]
      dsimp only
      omega
    · have zero : me.bits = 0 := by
        have low := holds.bits_lt
        rw [none_, Nat.pow_zero] at low
        omega
      rw [BitBuf2.flush, if_neg waiting, holds.value, zero, Nat.mul_zero, Nat.add_zero]

end BitBuf2
end Isal.Deflate
