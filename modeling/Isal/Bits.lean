import Mathlib

/-! Bit strings read least significant bit first, and the numbers they denote.
A reader that pads an exhausted string with zeros sees exactly `bitsVal`, so a
lookup of `k` bits is `bitsVal bits % 2 ^ k` whether or not `k` bits are left. -/
namespace Isal.Bits

/-- The number whose bit `i` is the `i`-th bit of the string. -/
def bitsVal (bits : List Bool) : Nat := Nat.ofDigits 2 (bits.map Bool.toNat)

/-- Little-endian value of a byte string. -/
def bytesVal (bytes : List UInt8) : Nat := Nat.ofDigits 256 (bytes.map UInt8.toNat)

def byteBits (byte : UInt8) : List Bool := (List.range 8).map byte.toNat.testBit

def bytesBits (bytes : List UInt8) : List Bool := bytes.flatMap byteBits

/-- The low `n` bits of a number, most significant first. -/
def msbBits (value : Nat) : Nat → List Bool
  | 0 => []
  | n + 1 => value.testBit n :: msbBits value n

/-- Reversal of the low `n` bits. -/
def revBits (n value : Nat) : Nat := bitsVal (msbBits value n)

@[simp] theorem bitsVal_nil : bitsVal [] = 0 := rfl

theorem bitsVal_cons (b : Bool) (bits : List Bool) :
    bitsVal (b :: bits) = b.toNat + 2 * bitsVal bits := by
  simp [bitsVal, Nat.ofDigits_cons]

theorem bitsVal_append (xs ys : List Bool) :
    bitsVal (xs ++ ys) = bitsVal xs + 2 ^ xs.length * bitsVal ys := by
  simp [bitsVal, Nat.ofDigits_append]

theorem bitsVal_lt (bits : List Bool) : bitsVal bits < 2 ^ bits.length := by
  induction bits with
  | nil => simp
  | cons b bits ih =>
    rw [bitsVal_cons, List.length_cons, Nat.pow_succ]
    have := b.toNat_le
    omega

theorem bitsVal_take (bits : List Bool) (k : Nat) : bitsVal (bits.take k) = bitsVal bits % 2 ^ k := by
  rcases Nat.le_total k bits.length with h | h
  · have split := bitsVal_append (bits.take k) (bits.drop k)
    have small := bitsVal_lt (bits.take k)
    rw [List.take_append_drop] at split
    rw [List.length_take, Nat.min_eq_left h] at split small
    rw [split, Nat.add_mul_mod_self_left, Nat.mod_eq_of_lt small]
  · have small := Nat.lt_of_lt_of_le (bitsVal_lt bits) (Nat.pow_le_pow_right (by omega) h)
    rw [List.take_of_length_le h, Nat.mod_eq_of_lt small]

theorem bitsVal_drop (bits : List Bool) (k : Nat) : bitsVal (bits.drop k) = bitsVal bits / 2 ^ k := by
  rcases Nat.le_total k bits.length with h | h
  · have split := bitsVal_append (bits.take k) (bits.drop k)
    have small := bitsVal_lt (bits.take k)
    rw [List.take_append_drop] at split
    rw [List.length_take, Nat.min_eq_left h] at split small
    rw [split, Nat.add_mul_div_left _ _ (Nat.two_pow_pos k), Nat.div_eq_of_lt small, Nat.zero_add]
  · have small := Nat.lt_of_lt_of_le (bitsVal_lt bits) (Nat.pow_le_pow_right (by omega) h)
    rw [List.drop_of_length_le h, Nat.div_eq_of_lt small, bitsVal_nil]

theorem testBit_bitsVal (bits : List Bool) (i : Nat) :
    (bitsVal bits).testBit i = bits[i]?.getD false := by
  induction bits generalizing i with
  | nil => simp
  | cons b bits ih =>
    rw [bitsVal_cons]
    cases i with
    | zero => cases b <;> simp
    | succ i =>
      have half : (b.toNat + 2 * bitsVal bits) / 2 = bitsVal bits := by
        have := b.toNat_le; have : b.toNat < 2 := by omega
        omega
      rw [Nat.testBit_succ, half, ih, List.getElem?_cons_succ]

theorem bitsVal_inj {xs ys : List Bool} (length : xs.length = ys.length)
    (value : bitsVal xs = bitsVal ys) : xs = ys := by
  apply List.ext_getElem length
  intro i hx hy
  have same := congrArg (·.testBit i) value
  simpa [testBit_bitsVal, hx, hy] using same

/-- A string is a prefix exactly when the zero-padded lookup of its length finds its value. -/
theorem prefix_iff {xs bits : List Bool} :
    xs <+: bits ↔ xs.length ≤ bits.length ∧ bitsVal bits % 2 ^ xs.length = bitsVal xs := by
  constructor
  · intro h
    refine ⟨h.length_le, ?_⟩
    rw [← bitsVal_take, ← List.prefix_iff_eq_take.mp h]
  · rintro ⟨length, value⟩
    rw [List.prefix_iff_eq_take]
    apply bitsVal_inj (by simp [length])
    rw [bitsVal_take, value]

@[simp] theorem bytesVal_nil : bytesVal [] = 0 := rfl

theorem bytesVal_cons (b : UInt8) (bytes : List UInt8) :
    bytesVal (b :: bytes) = b.toNat + 256 * bytesVal bytes := by
  simp [bytesVal, Nat.ofDigits_cons]

@[simp] theorem byteBits_length (b : UInt8) : (byteBits b).length = 8 := by simp [byteBits]

theorem bitsVal_byteBits (b : UInt8) : bitsVal (byteBits b) = b.toNat := by
  apply Nat.eq_of_testBit_eq
  intro i
  rw [testBit_bitsVal, byteBits, List.getElem?_map]
  by_cases h : i < 8
  · simp [h]
  · have small : b.toNat < 2 ^ i := Nat.lt_of_lt_of_le b.toNat_lt (Nat.pow_le_pow_right (by omega) (by omega))
    simp [h, Nat.testBit_lt_two_pow small]

@[simp] theorem bytesBits_nil : bytesBits [] = [] := rfl

@[simp] theorem bytesBits_cons (b : UInt8) (bytes : List UInt8) :
    bytesBits (b :: bytes) = byteBits b ++ bytesBits bytes := rfl

@[simp] theorem bytesBits_append (xs ys : List UInt8) :
    bytesBits (xs ++ ys) = bytesBits xs ++ bytesBits ys := by simp [bytesBits]

@[simp] theorem bytesBits_length (bytes : List UInt8) : (bytesBits bytes).length = 8 * bytes.length := by
  induction bytes with
  | nil => rfl
  | cons b bytes ih => simp [ih]; omega

theorem bytesBits_whole (bytes : List UInt8) : 8 ∣ (bytesBits bytes).length :=
  bytesBits_length bytes ▸ Nat.dvd_mul_right _ _

theorem bitsVal_bytesBits (bytes : List UInt8) : bitsVal (bytesBits bytes) = bytesVal bytes := by
  induction bytes with
  | nil => rfl
  | cons b bytes ih => simp [bitsVal_append, bytesVal_cons, bitsVal_byteBits, ih]

theorem bytesVal_lt (bytes : List UInt8) : bytesVal bytes < 2 ^ (8 * bytes.length) := by
  rw [← bitsVal_bytesBits, ← bytesBits_length]
  exact bitsVal_lt _

theorem bytesVal_append (xs ys : List UInt8) :
    bytesVal (xs ++ ys) = bytesVal xs + 2 ^ (8 * xs.length) * bytesVal ys := by
  rw [← bitsVal_bytesBits, bytesBits_append, bitsVal_append, bytesBits_length, bitsVal_bytesBits,
    bitsVal_bytesBits]

theorem bytesBits_take (bytes : List UInt8) (k : Nat) :
    bytesBits (bytes.take k) = (bytesBits bytes).take (8 * k) := by
  induction bytes generalizing k with
  | nil => simp
  | cons b bytes ih =>
    cases k with
    | zero => simp
    | succ k => simp [ih, List.take_append, Nat.mul_succ, List.take_of_length_le]

theorem bytesBits_drop (bytes : List UInt8) (k : Nat) :
    bytesBits (bytes.drop k) = (bytesBits bytes).drop (8 * k) := by
  induction bytes generalizing k with
  | nil => simp
  | cons b bytes ih =>
    cases k with
    | zero => simp
    | succ k => simp [ih, List.drop_append, Nat.mul_succ, List.drop_of_length_le]

theorem bytesVal_take (bytes : List UInt8) (k : Nat) :
    bytesVal (bytes.take k) = bytesVal bytes % 2 ^ (8 * k) := by
  rw [← bitsVal_bytesBits, bytesBits_take, bitsVal_take, bitsVal_bytesBits]

theorem bytesVal_drop (bytes : List UInt8) (k : Nat) :
    bytesVal (bytes.drop k) = bytesVal bytes / 2 ^ (8 * k) := by
  rw [← bitsVal_bytesBits, bytesBits_drop, bitsVal_drop, bitsVal_bytesBits]

@[simp] theorem msbBits_length (value n : Nat) : (msbBits value n).length = n := by
  induction n with
  | zero => rfl
  | succ n ih => simp [msbBits, ih]

theorem revBits_lt (n value : Nat) : revBits n value < 2 ^ n := by
  simpa [revBits] using bitsVal_lt (msbBits value n)

theorem testBit_revBits (n value i : Nat) :
    (revBits n value).testBit i = (decide (i < n) && value.testBit (n - 1 - i)) := by
  induction n generalizing i with
  | zero => simp [revBits, msbBits]
  | succ n ih =>
    rw [revBits, testBit_bitsVal, msbBits]
    cases i with
    | zero => simp
    | succ i =>
      rw [List.getElem?_cons_succ, ← testBit_bitsVal]
      change (revBits n value).testBit i = _
      rw [ih, show n + 1 - 1 - (i + 1) = n - 1 - i by omega]
      simp

theorem revBits_revBits (n value : Nat) : revBits n (revBits n value) = value % 2 ^ n := by
  apply Nat.eq_of_testBit_eq
  intro i
  simp only [testBit_revBits, Nat.testBit_mod_two_pow]
  by_cases h : i < n
  · simp [h, show n - 1 - i < n by omega, show n - 1 - (n - 1 - i) = i by omega]
  · simp [h]

/-- The first `k` bits of a reversed number are its `k` most significant bits, reversed. -/
theorem revBits_mod {k n : Nat} (value : Nat) (h : k ≤ n) :
    revBits n value % 2 ^ k = revBits k (value / 2 ^ (n - k)) := by
  apply Nat.eq_of_testBit_eq
  intro i
  simp only [testBit_revBits, Nat.testBit_mod_two_pow, Nat.testBit_div_two_pow]
  by_cases hi : i < k
  · simp [hi, show i < n by omega, show k - 1 - i + (n - k) = n - 1 - i by omega]
  · simp [hi]

theorem revBits_inj {n a b : Nat} (ha : a < 2 ^ n) (hb : b < 2 ^ n)
    (h : revBits n a = revBits n b) : a = b := by
  have twice := congrArg (revBits n) h
  rwa [revBits_revBits, revBits_revBits, Nat.mod_eq_of_lt ha, Nat.mod_eq_of_lt hb] at twice

/-- Padding with zeros at the end shifts the most significant first reading up. -/
theorem revBits_of_lt {k n : Nat} (value : Nat) (h : k ≤ n) (small : value < 2 ^ k) :
    revBits n value = revBits k value * 2 ^ (n - k) := by
  apply Nat.eq_of_testBit_eq
  intro i
  rw [testBit_revBits, Nat.testBit_mul_two_pow, testBit_revBits]
  by_cases low : n - k ≤ i
  · by_cases hi : i < n
    · simp [low, hi, show i - (n - k) < k by omega, show k - 1 - (i - (n - k)) = n - 1 - i by omega]
    · simp [hi, show ¬i - (n - k) < k by omega]
  · have high : value < 2 ^ (n - 1 - i) := Nat.lt_of_lt_of_le small (Nat.pow_le_pow_right (by omega) (by omega))
    simp [low, Nat.testBit_lt_two_pow high]

theorem mod_mod_two_pow (v a b : Nat) : v % 2 ^ a % 2 ^ b = v % 2 ^ min a b := by
  apply Nat.eq_of_testBit_eq
  intro i
  simp only [Nat.testBit_mod_two_pow, Nat.lt_min, Bool.decide_and]
  rw [← Bool.and_assoc, Bool.and_comm (decide (i < b))]

/-- Joining a low field with a copy of the bits above it changes nothing: this is
why a refill may leave look-ahead bits beyond the counted ones. -/
theorem mod_or_shifted {v m k n : Nat} (hk : k ≤ m) :
    (v % 2 ^ m ||| ((v / 2 ^ k % 2 ^ n) <<< k)) = v % 2 ^ max m (k + n) := by
  apply Nat.eq_of_testBit_eq
  intro i
  rw [Nat.testBit_or, Nat.testBit_shiftLeft, Nat.testBit_mod_two_pow, Nat.testBit_mod_two_pow,
    Nat.testBit_mod_two_pow, Nat.testBit_div_two_pow]
  by_cases low : i < m
  · by_cases hi : k ≤ i
    · rw [show i - k + k = i by omega]
      cases v.testBit i <;> simp [low, hi]
    · simp [low, hi]
  · have hi : k ≤ i := by omega
    by_cases inside : i < k + n
    · simp [low, hi, inside, show i - k < n by omega]
    · simp [low, inside, show ¬i - k < n by omega]

/-- The low `n` bytes of a number, the lowest first. -/
def toLeBytes (value : Nat) : (n : Nat) → List UInt8
  | 0 => []
  | n + 1 => UInt8.ofNat value :: toLeBytes (value / 256) n

@[simp] theorem toLeBytes_length (value n : Nat) : (toLeBytes value n).length = n := by
  induction n generalizing value with
  | zero => rfl
  | succ n ih => simp [toLeBytes, ih]

theorem bytesVal_toLeBytes (value n : Nat) : bytesVal (toLeBytes value n) = value % 2 ^ (8 * n) := by
  induction n generalizing value with
  | zero => simp [toLeBytes, Nat.mod_one]
  | succ n ih =>
    have split : 2 ^ (8 * (n + 1)) = 256 * 2 ^ (8 * n) := by
      rw [show 8 * (n + 1) = 8 + 8 * n by omega, Nat.pow_add]
    rw [toLeBytes, bytesVal_cons, ih, split, Nat.mod_mul, UInt8.toNat_ofNat']

theorem toLeBytes_take (value : Nat) {n k : Nat} (short : k ≤ n) : (toLeBytes value n).take k = toLeBytes value k := by
  induction k generalizing value n with
  | zero => rfl
  | succ k ih =>
    obtain ⟨m, rfl⟩ : ∃ m, n = m + 1 := ⟨n - 1, by omega⟩
    rw [toLeBytes, List.take_succ_cons, ih _ (by omega)]
    rfl

end Isal.Bits
