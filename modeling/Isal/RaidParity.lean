import Isal.CodingTables

/-! RAID-6 parity: generated a word of eight bytes at a time, checked byte by byte. -/
namespace Isal.Erasure
open Loops

def notbit0 : UInt64 := 0xfefefefefefefefe
def bit7 : UInt64 := 0x8080808080808080
def gf8poly : UInt64 := 0x1d1d1d1d1d1d1d1d

/-- The little-endian word at a byte position. -/
def loadWord (t : Arr UInt8) (at_ : Nat) : UInt64 :=
  forRange 0 8 (fun l w => w ||| ((t (at_ + l)).toUInt64 <<< (8 * l).toUInt64)) 0

structure Parity (β : Type) where
  p : β
  q : β

/-- Every byte of `q` doubled in the field and added to `s`. -/
def pqGenStep (s : UInt64) (r : Parity UInt64) : Parity UInt64 :=
  ⟨r.p ^^^ s, s ^^^ (((r.q <<< 1) &&& notbit0) ^^^
    ((((r.q &&& bit7) <<< 1) - ((r.q &&& bit7) >>> 7)) &&& gf8poly))⟩

def pqGenBase (vects len : Nat) (array : Buffers) : Nat × Buffers :=
  if vects < 4 then (1, array)
  else
    (0, forRange 0 (len / 8) (fun i src =>
      let last := loadWord (src (vects - 3)) (8 * i)
      let r := forDown (fun j r => pqGenStep (loadWord (src j) (8 * i)) r) (vects - 3) ⟨last, last⟩
      let src := src.set (vects - 2) (storeWord (src (vects - 2)) (8 * i) r.p)
      src.set (vects - 1) (storeWord (src (vects - 1)) (8 * i) r.q)) array)

def pqCheckStep (s : UInt8) (r : Parity UInt8) : Parity UInt8 := ⟨r.p ^^^ s, s ^^^ gfDouble r.q⟩

/-- The parity bytes of one byte position. -/
def pqBytes (vects : Nat) (array : Buffers) (i : Nat) : Parity UInt8 :=
  forDown (fun j r => pqCheckStep ((array j) i) r) (vects - 3)
    ⟨(array (vects - 3)) i, (array (vects - 3)) i⟩

/-- 0, or the position of the first wrong byte with its lowest bits marking P or Q. -/
def pqCheckBase (vects len : Nat) (array : Buffers) : Nat :=
  if vects < 4 then 1
  else
    forRange 0 len (fun i ret =>
      if ret ≠ 0 then ret
      else if (array (vects - 2)) i ≠ (pqBytes vects array i).p then i ||| 1
      else if (array (vects - 1)) i ≠ (pqBytes vects array i).q then i ||| 2
      else 0) 0

/-- Byte `l` of a word. -/
def lane (w : UInt64) (l : Nat) : UInt8 := (w >>> (8 * l).toUInt64).toUInt8

theorem lane_xor (v w : UInt64) (l : Nat) : lane (v ^^^ w) l = lane v l ^^^ lane w l := by
  simp only [lane, UInt64.shiftRight_xor, UInt64.toUInt8_xor]

theorem lane_and (v w : UInt64) (l : Nat) : lane (v &&& w) l = lane v l &&& lane w l := by
  simp only [lane, UInt64.shiftRight_and, UInt64.toUInt8_and]

theorem lane_or (v w : UInt64) (l : Nat) : lane (v ||| w) l = lane v l ||| lane w l := by
  simp only [lane, UInt64.shiftRight_or, UInt64.toUInt8_or]

theorem lane_toNat (w : UInt64) {l : Nat} (within : l < 8) :
    (lane w l).toNat = w.toNat / 256 ^ l % 256 := by
  have amount : ((8 * l).toUInt64).toNat % 64 = 8 * l := by
    rw [Nat.toUInt64_eq, UInt64.toNat_ofNat']
    omega
  rw [lane, UInt64.toNat_toUInt8, UInt64.toNat_shiftRight, amount, Nat.shiftRight_eq_div_pow,
    Nat.pow_mul]

/-- A word is the sum of its bytes at their places. -/
theorem word_lanes (w : UInt64) : w.toNat = (lane w 0).toNat + 2 ^ 8 * (lane w 1).toNat +
    2 ^ 16 * (lane w 2).toNat + 2 ^ 24 * (lane w 3).toNat + 2 ^ 32 * (lane w 4).toNat +
    2 ^ 40 * (lane w 5).toNat + 2 ^ 48 * (lane w 6).toNat + 2 ^ 56 * (lane w 7).toNat := by
  have bound := w.toNat_lt
  rw [lane_toNat w (by decide), lane_toNat w (by decide), lane_toNat w (by decide),
    lane_toNat w (by decide), lane_toNat w (by decide), lane_toNat w (by decide),
    lane_toNat w (by decide), lane_toNat w (by decide)]
  omega

/-- A byte shifted to its lane leaves the other lanes clear. -/
theorem lane_shifted (c : UInt8) : ∀ l < 8, ∀ l' < 8,
    lane (c.toUInt64 <<< (8 * l').toUInt64) l = if l = l' then c else 0 := by
  intro l within l' within'
  apply UInt8.toNat_inj.mp
  have amount : ((8 * l').toUInt64).toNat % 64 = 8 * l' := by
    rw [Nat.toUInt64_eq, UInt64.toNat_ofNat']
    omega
  have bound := c.toNat_lt
  rw [lane_toNat _ within, UInt64.toNat_shiftLeft, amount, UInt8.toNat_toUInt64,
    Nat.shiftLeft_eq, apply_ite UInt8.toNat]
  interval_cases l <;> interval_cases l' <;> simp <;> omega

theorem loadWord_lane (t : Arr UInt8) (at_ : Nat) {l : Nat} (within : l < 8) :
    lane (loadWord t at_) l = t (at_ + l) := by
  have loop : lane (loadWord t at_) l = if l < 8 then t (at_ + l) else 0 := by
    rw [loadWord]
    apply forRange_invariant (fun n w => lane w l = if l < n then t (at_ + l) else 0) (Nat.zero_le 8)
    · rw [if_neg (Nat.not_lt_zero _)]
      interval_cases l <;> rfl
    · intro n w _ inside before
      rw [lane_or, before, lane_shifted _ l within n inside]
      by_cases here : l = n
      · subst here
        simp
      · rw [if_neg here, UInt8.or_zero]
        by_cases low : l < n
        · rw [if_pos low, if_pos (by omega)]
        · rw [if_neg low, if_neg (by omega)]
  rw [loop, if_pos within]

theorem high_lane (w : UInt64) (l : Nat) (within : l < 8) :
    lane (w &&& bit7) l = lane w l &&& 0x80 := by
  rw [lane_and]
  congr 1
  interval_cases l <;> rfl

/-- The difference of the two shifts sets exactly the lanes whose highest bit is set: what a
lane takes away from the next is what that lane was given. -/
theorem mask_lane (w : UInt64) {l : Nat} (within : l < 8) :
    lane (((w &&& bit7) <<< 1) - ((w &&& bit7) >>> 7)) l =
      if lane w l &&& 0x80 ≠ 0 then 0xff else 0 := by
  have bit (l : Nat) (within : l < 8) : ∃ b ≤ 1, (lane (w &&& bit7) l).toNat = 128 * b ∧
      (if lane w l &&& 0x80 ≠ 0 then (0xff : UInt8) else 0).toNat = 255 * b := by
    rw [high_lane w l within]
    rcases high_bit (lane w l) with clear | set
    · exact ⟨0, by decide, by rw [clear]; rfl, by simp [clear]⟩
    · exact ⟨1, by decide, by rw [set]; rfl, by simp [set]⟩
  choose b small high mask using bit
  have total := word_lanes (w &&& bit7)
  rw [high 0 (by decide), high 1 (by decide), high 2 (by decide), high 3 (by decide),
    high 4 (by decide), high 5 (by decide), high 6 (by decide), high 7 (by decide)] at total
  have small0 := small 0 (by decide)
  have small1 := small 1 (by decide)
  have small2 := small 2 (by decide)
  have small3 := small 3 (by decide)
  have small4 := small 4 (by decide)
  have small5 := small 5 (by decide)
  have small6 := small 6 (by decide)
  have small7 := small 7 (by decide)
  apply UInt8.toNat_inj.mp
  rw [mask l within]
  generalize w &&& bit7 = h at total
  have difference : ((h <<< 1) - (h >>> 7)).toNat = 255 * (h.toNat / 128) := by
    rw [UInt64.toNat_sub, UInt64.toNat_shiftLeft, UInt64.toNat_shiftRight]
    change (2 ^ 64 - h.toNat >>> 7 + h.toNat <<< 1 % 2 ^ 64) % 2 ^ 64 = _
    rw [Nat.shiftRight_eq_div_pow, Nat.shiftLeft_eq]
    omega
  have places : 255 * (h.toNat / 128) = Nat.ofDigits 256 [255 * b 0 (by decide), 255 * b 1 (by decide),
      255 * b 2 (by decide), 255 * b 3 (by decide), 255 * b 4 (by decide), 255 * b 5 (by decide),
      255 * b 6 (by decide), 255 * b 7 (by decide)] := by
    simp only [Nat.ofDigits_cons, Nat.ofDigits_nil]
    omega
  rw [lane_toNat _ within, difference, places, Nat.ofDigits_div_pow_eq_ofDigits_drop l (by decide)]
  · interval_cases l <;> simp only [List.drop, Nat.ofDigits_cons] <;> omega
  · simp only [List.mem_cons, List.not_mem_nil, or_false]
    omega

/-- Every lane of the word is doubled by itself. -/
theorem pqGenStep_lane (s : UInt64) (r : Parity UInt64) {l : Nat} (within : l < 8) :
    (⟨lane (pqGenStep s r).p l, lane (pqGenStep s r).q l⟩ : Parity UInt8) =
      pqCheckStep (lane s l) ⟨lane r.p l, lane r.q l⟩ := by
  have shifted : lane ((r.q <<< 1) &&& notbit0) l = lane r.q l <<< 1 := by
    have even : lane notbit0 l = 0xfe := by
      interval_cases l <;> rfl
    have clears : ∀ x < 256, x &&& 254 = x / 2 * 2 := by decide +kernel
    apply UInt8.toNat_inj.mp
    rw [lane_and, even, UInt8.toNat_and, lane_toNat _ within, UInt64.toNat_shiftLeft,
      UInt8.toNat_shiftLeft, lane_toNat _ within]
    change r.q.toNat <<< 1 % 2 ^ 64 / 256 ^ l % 256 &&& 254 = (r.q.toNat / 256 ^ l % 256) <<< 1 % 2 ^ 8
    rw [clears _ (Nat.mod_lt _ (by decide)), Nat.shiftLeft_eq, Nat.shiftLeft_eq]
    interval_cases l <;> omega
  have poly : lane gf8poly l = 0x1d := by
    interval_cases l <;> rfl
  rw [pqGenStep, pqCheckStep, gfDouble]
  simp only [lane_xor, shifted, lane_and, mask_lane r.q within, poly]
  congr 3
  split <;> rfl

/-- The word loop and the byte loop of one position. -/
theorem pqGen_bytes (vects : Nat) (array : Buffers) (i : Nat) {l : Nat} (within : l < 8) :
    let last := loadWord (array (vects - 3)) (8 * i)
    let r := forDown (fun j r => pqGenStep (loadWord (array j) (8 * i)) r) (vects - 3) ⟨last, last⟩
    (⟨lane r.p l, lane r.q l⟩ : Parity UInt8) = pqBytes vects array (8 * i + l) := by
  intro last r
  apply forDown_related fun (w : Parity UInt64) (c : Parity UInt8) =>
    (⟨lane w.p l, lane w.q l⟩ : Parity UInt8) = c
  · simp only [last, loadWord_lane _ _ within]
  · rintro j _ w _ rfl
    rw [pqGenStep_lane _ _ within, loadWord_lane _ _ within]

theorem storeWord_lane (tbl : Arr UInt8) (at_ : Nat) (w : UInt64) (p : Nat) :
    (storeWord tbl at_ w) p = if at_ ≤ p ∧ p < at_ + 8 then lane w (p - at_) else tbl p :=
  storeWord_get tbl at_ w p

/-- The parity bytes depend on the data alone. -/
theorem pqBytes_data {vects : Nat} {array array' : Buffers} (enough : 4 ≤ vects) (i : Nat)
    (same : ∀ j < vects - 2, (array j) i = (array' j) i) :
    pqBytes vects array i = pqBytes vects array' i := by
  rw [pqBytes, pqBytes, same (vects - 3) (by omega)]
  apply forDown_related (fun (r r' : Parity UInt8) => r = r') _ rfl
  rintro j low r _ rfl
  rw [same j (by omega)]

/-- The generator writes the parity bytes of every whole word and leaves the data alone. -/
theorem pqGenBase_written {vects len : Nat} (enough : 4 ≤ vects) (array : Buffers) :
    (∀ j < vects - 2, (pqGenBase vects len array).2 j = array j) ∧
    ∀ i < 8 * (len / 8),
      (((pqGenBase vects len array).2 (vects - 2)) i = (pqBytes vects array i).p ∧
        ((pqGenBase vects len array).2 (vects - 1)) i = (pqBytes vects array i).q) := by
  rw [pqGenBase, if_neg (by omega)]
  apply forRange_invariant (fun n (src : Buffers) => (∀ j < vects - 2, src j = array j) ∧
    ∀ i < 8 * n, ((src (vects - 2)) i = (pqBytes vects array i).p ∧
      (src (vects - 1)) i = (pqBytes vects array i).q)) (Nat.zero_le _)
  · exact ⟨fun _ _ => rfl, fun i low => absurd low (by omega)⟩
  · rintro n src _ _ ⟨data, before⟩
    simp only
    have word {l : Nat} (within : l < 8) := pqGen_bytes vects src n within
    simp only [pqBytes_data enough _ fun j low => congrArg (Arr.get · _) (data j low)] at word
    generalize forDown (fun j r => pqGenStep (loadWord (src j) (8 * n)) r) (vects - 3)
      ⟨loadWord (src (vects - 3)) (8 * n), loadWord (src (vects - 3)) (8 * n)⟩ = r at word ⊢
    constructor
    · intro j low
      rw [Arr.set_other (by omega), Arr.set_other (by omega), data j low]
    · intro i low
      rw [Arr.set_self, Arr.set_other (by omega), Arr.set_self, Arr.set_other (by omega),
        storeWord_lane, storeWord_lane]
      by_cases here : 8 * n ≤ i ∧ i < 8 * n + 8
      · rw [if_pos here, if_pos here]
        have bytes := word (l := i - 8 * n) (by omega)
        rw [show 8 * n + (i - 8 * n) = i by omega] at bytes
        exact ⟨congrArg Parity.p bytes, congrArg Parity.q bytes⟩
      · rw [if_neg here, if_neg here]
        exact before i (by omega)

/-- The check passes exactly when both parity bytes are right everywhere. -/
theorem pqCheckBase_zero_iff {vects : Nat} (enough : 4 ≤ vects) (len : Nat) (array : Buffers) :
    pqCheckBase vects len array = 0 ↔ ∀ i < len,
      (array (vects - 2)) i = (pqBytes vects array i).p ∧
        (array (vects - 1)) i = (pqBytes vects array i).q := by
  rw [pqCheckBase, if_neg (by omega)]
  apply forRange_invariant (fun n (ret : Nat) => ret = 0 ↔ ∀ i < n,
    (array (vects - 2)) i = (pqBytes vects array i).p ∧
      (array (vects - 1)) i = (pqBytes vects array i).q) (Nat.zero_le len)
  · exact ⟨fun _ i low => absurd low (Nat.not_lt_zero i), fun _ => rfl⟩
  · intro n ret _ _ before
    by_cases failed : ret ≠ 0
    · rw [if_pos failed]
      refine ⟨fun zero => absurd zero failed, fun all => ?_⟩
      exact before.mpr fun i low => all i (by omega)
    · rw [if_neg failed]
      have passed := before.mp (not_not.mp failed)
      have marked (bit : Nat) (positive : 0 < bit) : n ||| bit ≠ 0 :=
        Nat.ne_of_gt (Nat.lt_of_lt_of_le positive Nat.right_le_or)
      split
      · rename_i wrong
        refine ⟨fun zero => absurd zero (marked 1 (by decide)), fun all => ?_⟩
        exact absurd (all n (Nat.lt_succ_self n)).1 wrong
      · rename_i rightP
        split
        · rename_i wrong
          refine ⟨fun zero => absurd zero (marked 2 (by decide)), fun all => ?_⟩
          exact absurd (all n (Nat.lt_succ_self n)).2 wrong
        · rename_i rightQ
          refine ⟨fun _ i low => ?_, fun _ => rfl⟩
          rcases Nat.lt_succ_iff_lt_or_eq.mp low with earlier | rfl
          · exact passed i earlier
          · exact ⟨not_not.mp rightP, not_not.mp rightQ⟩

/-- Horner's rule: the loop down sums the data, and the data times powers of two. -/
theorem forDown_horner (s : Nat → UInt8) (n : Nat) (r : Parity UInt8) :
    (⟨(forDown (fun j r => pqCheckStep (s j) r) n r).p⟩ : Gf) = ⟨r.p⟩ + ∑ j ∈ Finset.range n, ⟨s j⟩ ∧
    (⟨(forDown (fun j r => pqCheckStep (s j) r) n r).q⟩ : Gf) =
      ⟨2⟩ ^ n * ⟨r.q⟩ + ∑ j ∈ Finset.range n, ⟨2⟩ ^ j * ⟨s j⟩ := by
  induction n generalizing r with
  | zero => simp [forDown]
  | succ n ih =>
    obtain ⟨sum, weighted⟩ := ih (pqCheckStep (s n) r)
    have stepP : (⟨(pqCheckStep (s n) r).p⟩ : Gf) = ⟨r.p⟩ + ⟨s n⟩ := rfl
    have stepQ : (⟨(pqCheckStep (s n) r).q⟩ : Gf) = ⟨s n⟩ + ⟨2⟩ * ⟨r.q⟩ := by
      apply Gf.ext
      rw [Gf.add_byte, mul_comm, Gf.mul_byte, pqCheckStep, gfDouble_eq]
    rw [forDown, sum, weighted, Finset.sum_range_succ, Finset.sum_range_succ, stepP, stepQ]
    constructor
    · ring
    · ring

/-- P is the sum of the data and Q the sum of the data times powers of two. -/
theorem pqBytes_sums {vects : Nat} (enough : 4 ≤ vects) (array : Buffers) (i : Nat) :
    (⟨(pqBytes vects array i).p⟩ : Gf) = ∑ j ∈ Finset.range (vects - 2), ⟨(array j) i⟩ ∧
    (⟨(pqBytes vects array i).q⟩ : Gf) = ∑ j ∈ Finset.range (vects - 2), ⟨2⟩ ^ j * ⟨(array j) i⟩ := by
  obtain ⟨sum, weighted⟩ := forDown_horner (fun j => (array j) i) (vects - 3)
    ⟨(array (vects - 3)) i, (array (vects - 3)) i⟩
  rw [show vects - 2 = vects - 3 + 1 by omega, Finset.sum_range_succ, Finset.sum_range_succ]
  constructor
  · rw [pqBytes, sum, add_comm]
  · rw [pqBytes, weighted, add_comm]


end Isal.Erasure
