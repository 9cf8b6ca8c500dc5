import Mathlib

/-! Bit-serial division by a polynomial over words of any width, in both bit orders, and the
step that divides by eight bits at once. -/
namespace Isal.Division

variable {w : Nat}

/-- The remainder moves towards its lowest bit. -/
def shiftDown (poly c : BitVec w) : BitVec w := if c.getLsbD 0 then (c >>> 1) ^^^ poly else c >>> 1

/-- The remainder moves towards its highest bit. -/
def shiftUp (poly c : BitVec w) : BitVec w := if c.msb then (c <<< 1) ^^^ poly else c <<< 1

/-- The same division in the lowest `n` bits of a wider word; what leaves them is kept above. -/
def shiftWide (n : Nat) (poly c : BitVec w) : BitVec w :=
  if (c <<< 1).getLsbD n then (c <<< 1) ^^^ poly else c <<< 1

variable {poly a b c : BitVec w}

theorem xor_swap (a b p q : BitVec w) : a ^^^ p ^^^ (b ^^^ q) = a ^^^ b ^^^ (p ^^^ q) := by
  ac_rfl

theorem shiftDown_xor : shiftDown poly (a ^^^ b) = shiftDown poly a ^^^ shiftDown poly b := by
  have plain (x : BitVec w) : shiftDown poly x = (x >>> 1) ^^^ (if x.getLsbD 0 then poly else 0) := by
    rw [shiftDown]
    split <;> simp
  rw [plain, plain, plain, xor_swap, BitVec.ushiftRight_xor_distrib, BitVec.getLsbD_xor]
  cases a.getLsbD 0 <;> cases b.getLsbD 0 <;> simp

theorem shiftUp_xor : shiftUp poly (a ^^^ b) = shiftUp poly a ^^^ shiftUp poly b := by
  have plain (x : BitVec w) : shiftUp poly x = (x <<< 1) ^^^ (if x.msb then poly else 0) := by
    rw [shiftUp]
    split <;> simp
  rw [plain, plain, plain, xor_swap, BitVec.shiftLeft_xor_distrib, BitVec.msb_xor]
  cases a.msb <;> cases b.msb <;> simp

theorem iterate_xor {f : BitVec w → BitVec w} (linear : ∀ a b, f (a ^^^ b) = f a ^^^ f b) (n : Nat)
    (a b : BitVec w) : f^[n] (a ^^^ b) = f^[n] a ^^^ f^[n] b := by
  induction n generalizing a b with
  | zero => rfl
  | succ n ih => simp only [Function.iterate_succ_apply, linear, ih]

/-- Clear low bits leave as they are. -/
theorem shiftDown_clear (n : Nat) (clear : ∀ i < n, c.getLsbD i = false) :
    (shiftDown poly)^[n] c = c >>> n := by
  induction n generalizing c with
  | zero => simp
  | succ n ih =>
    have first : shiftDown poly c = c >>> 1 := by
      rw [shiftDown, clear 0 (Nat.succ_pos n), if_neg (by simp)]
    rw [Function.iterate_succ_apply, first, ih, ← BitVec.shiftRight_add, Nat.add_comm]
    intro i low
    rw [BitVec.getLsbD_ushiftRight]
    exact clear _ (by omega)

/-- Clear high bits leave as they are. -/
theorem shiftUp_clear (n : Nat) (clear : ∀ i < n, c.getMsbD i = false) :
    (shiftUp poly)^[n] c = c <<< n := by
  induction n generalizing c with
  | zero => simp
  | succ n ih =>
    have first : shiftUp poly c = c <<< 1 := by
      rw [shiftUp, BitVec.msb, clear 0 (Nat.succ_pos n), if_neg (by simp)]
    rw [Function.iterate_succ_apply, first, ih, ← BitVec.shiftLeft_add, Nat.add_comm]
    intro i low
    rw [BitVec.getMsbD_shiftLeft]
    exact clear _ (by omega)

/-- Eight divisions take the lowest byte away; the others only move. -/
theorem shiftDown_byte (c b : BitVec w) :
    (shiftDown poly)^[8] (c ^^^ b) = (c >>> 8) ^^^ (shiftDown poly)^[8] ((c &&& 255) ^^^ b) := by
  have split : c ^^^ b = (c &&& ~~~255) ^^^ ((c &&& 255) ^^^ b) := by
    rw [← BitVec.xor_assoc]
    congr 1
    apply BitVec.eq_of_getLsbD_eq
    intro i inside
    simp only [BitVec.getLsbD_xor, BitVec.getLsbD_and, BitVec.getLsbD_not, inside]
    cases c.getLsbD i <;> cases (255 : BitVec w).getLsbD i <;> rfl
  have byte (i : Nat) : (255 : BitVec w).getLsbD i = (decide (i < w) && decide (i < 8)) := by
    change (BitVec.ofNat w 255).getLsbD i = _
    rw [BitVec.getLsbD_ofNat, show 255 = 2 ^ 8 - 1 by rfl, Nat.testBit_two_pow_sub_one]
  rw [split, iterate_xor (fun _ _ => shiftDown_xor), shiftDown_clear]
  · congr 1
    apply BitVec.eq_of_getLsbD_eq
    intro i inside
    simp only [BitVec.getLsbD_ushiftRight, BitVec.getLsbD_and, BitVec.getLsbD_not, byte]
    by_cases within : 8 + i < w
    · simp [within]
    · simp [BitVec.getLsbD_of_ge c (8 + i) (by omega)]
  · intro i low
    simp only [BitVec.getLsbD_and, BitVec.getLsbD_not, byte]
    by_cases within : i < w
    · simp [within, low]
    · simp [within]

/-- Eight divisions take the highest byte away; the others only move. -/
theorem shiftUp_byte (wide : 8 ≤ w) (c b : BitVec w) :
    (shiftUp poly)^[8] (c ^^^ (b <<< (w - 8))) =
      (c <<< 8) ^^^ (shiftUp poly)^[8] ((((c >>> (w - 8)) ^^^ b) &&& 255) <<< (w - 8)) := by
  have byte (i : Nat) : (255 : BitVec w).getLsbD i = (decide (i < w) && decide (i < 8)) := by
    change (BitVec.ofNat w 255).getLsbD i = _
    rw [BitVec.getLsbD_ofNat, show 255 = 2 ^ 8 - 1 by rfl, Nat.testBit_two_pow_sub_one]
  have split : c ^^^ (b <<< (w - 8)) =
      ((c <<< 8) >>> 8) ^^^ ((((c >>> (w - 8)) ^^^ b) &&& 255) <<< (w - 8)) := by
    apply BitVec.eq_of_getLsbD_eq
    intro i inside
    simp only [BitVec.getLsbD_xor, BitVec.getLsbD_shiftLeft, BitVec.getLsbD_ushiftRight,
      BitVec.getLsbD_and, byte]
    by_cases high : w - 8 ≤ i
    · have place : w - 8 + (i - (w - 8)) = i := by omega
      simp [place, inside, show ¬ (8 + i < w) by omega, show ¬ (i < w - 8) by omega,
        show i - (w - 8) < w by omega, show i - (w - 8) < 8 by omega]
    · simp [inside, show 8 + i < w by omega, show i < w - 8 by omega]
  rw [split, iterate_xor (fun _ _ => shiftUp_xor), shiftUp_clear]
  · congr 1
    apply BitVec.eq_of_getLsbD_eq
    intro i inside
    simp only [BitVec.getLsbD_shiftLeft, BitVec.getLsbD_ushiftRight]
    by_cases low : i < 8
    · simp [low]
    · have place : 8 + (i - 8) = i := by omega
      simp [inside, low, place]
  · intro i low
    rw [BitVec.getMsbD_ushiftRight]
    simp [low]

/-- The low bits of the wide division are the narrow division. -/
theorem shiftWide_setWidth {n : Nat} (positive : 0 < n) (narrow : n < w) (poly c : BitVec w) :
    (shiftWide n poly c).setWidth n = shiftUp (poly.setWidth n) (c.setWidth n) := by
  have top : (c <<< 1).getLsbD n = (c.setWidth n).msb := by
    rw [BitVec.getLsbD_shiftLeft, BitVec.msb_eq_getLsbD_last, BitVec.getLsbD_setWidth]
    simp [narrow, positive, show ¬ n < 1 by omega]
  have moved : (c <<< 1).setWidth n = (c.setWidth n) <<< 1 := by
    apply BitVec.eq_of_getLsbD_eq
    intro i inside
    simp only [BitVec.getLsbD_setWidth, BitVec.getLsbD_shiftLeft, inside, show i < w by omega,
      show i - 1 < n by omega, decide_true, Bool.true_and]
  rw [shiftWide, shiftUp, top]
  split
  · rw [BitVec.setWidth_xor, moved]
  · exact moved

theorem shiftWide_iterate {n : Nat} (positive : 0 < n) (narrow : n < w) (poly c : BitVec w) (k : Nat) :
    ((shiftWide n poly)^[k] c).setWidth n = (shiftUp (poly.setWidth n))^[k] (c.setWidth n) := by
  induction k generalizing c with
  | zero => rfl
  | succ k ih =>
    rw [Function.iterate_succ_apply, Function.iterate_succ_apply, ih, shiftWide_setWidth positive narrow]

/-- A division towards the low end never fills the bits above its own width. -/
theorem shiftDown_setWidth {v : Nat} (wider : w ≤ v) (poly c : BitVec w) :
    shiftDown (poly.setWidth v) (c.setWidth v) = (shiftDown poly c).setWidth v := by
  have lowest : (c.setWidth v).getLsbD 0 = c.getLsbD 0 := by
    rw [BitVec.getLsbD_setWidth]
    rcases Nat.eq_zero_or_pos v with zero | positive
    · simp [BitVec.getLsbD_of_ge c 0 (by omega)]
    · simp [positive]
  have moved : (c.setWidth v) >>> 1 = (c >>> 1).setWidth v := by
    apply BitVec.eq_of_getLsbD_eq
    intro i inside
    rw [BitVec.getLsbD_ushiftRight, BitVec.getLsbD_setWidth, BitVec.getLsbD_setWidth,
      BitVec.getLsbD_ushiftRight]
    by_cases within : 1 + i < v
    · simp [within, inside]
    · simp [within, BitVec.getLsbD_of_ge c (1 + i) (by omega)]
  rw [shiftDown, shiftDown, lowest, moved]
  split
  · rw [BitVec.setWidth_xor]
  · rfl

theorem shiftDown_iterate {v : Nat} (wider : w ≤ v) (poly c : BitVec w) (k : Nat) :
    (shiftDown (poly.setWidth v))^[k] (c.setWidth v) = ((shiftDown poly)^[k] c).setWidth v := by
  induction k generalizing c with
  | zero => rfl
  | succ k ih =>
    rw [Function.iterate_succ_apply, Function.iterate_succ_apply, shiftDown_setWidth wider, ih]

/-- The values of a linear function below `2 ^ k`, made from its values at powers of two. -/
def byXor (f : Nat → BitVec w) : Nat → List (BitVec w)
  | 0 => [f 0]
  | k + 1 => byXor f k ++ (byXor f k).map (f (2 ^ k) ^^^ ·)

theorem byXor_length (f : Nat → BitVec w) (k : Nat) : (byXor f k).length = 2 ^ k := by
  induction k with
  | zero => rfl
  | succ k ih => rw [byXor, List.length_append, List.length_map, ih, Nat.pow_succ, Nat.mul_two]

theorem byXor_get (f : Nat → BitVec w) (linear : ∀ i j, f (i ^^^ j) = f i ^^^ f j) (k i : Nat)
    (inside : i < 2 ^ k) : (byXor f k)[i]? = some (f i) := by
  induction k generalizing i with
  | zero =>
    obtain rfl : i = 0 := by omega
    rfl
  | succ k ih =>
    rw [byXor]
    rcases Nat.lt_or_ge i (2 ^ k) with low | high
    · rw [List.getElem?_append_left (by rw [byXor_length]; exact low), ih i low]
    · have rest : i - 2 ^ k < 2 ^ k := by
        rw [Nat.pow_succ] at inside
        omega
      have sum : i = 2 ^ k ^^^ (i - 2 ^ k) := by
        have apart := Nat.two_pow_add_eq_or_of_lt rest 1
        rw [Nat.mul_one] at apart
        have disjoint : 2 ^ k ||| (i - 2 ^ k) = 2 ^ k ^^^ (i - 2 ^ k) := by
          apply Nat.eq_of_testBit_eq
          intro j
          rw [Nat.testBit_or, Nat.testBit_xor, Nat.testBit_two_pow]
          by_cases here : k = j
          · subst here
            simp [Nat.testBit_lt_two_pow rest]
          · simp [here]
        omega
      rw [List.getElem?_append_right (by rw [byXor_length]; exact high), byXor_length,
        List.getElem?_map, ih _ rest, Option.map_some, ← linear, ← sum]

end Isal.Division
