import Isal.CustomTables

/-! What the tables for a custom code hold for every symbol and every value of its extra bits. -/
namespace Isal.HuffCodes
open Bits Deflate Loops PrefixCode

/-- The extra bits of `n` symbols from `base` on grow by one every `interval` symbols after `first`. -/
structure Growth (base first interval n : Nat) (extra : Nat → Nat) : Prop where
  zero : extra 0 = 0
  grows : ∀ j, j + 1 < n → extra (j + 1) = if base + j = first + interval * extra j then extra j + 1 else extra j

section

variable {hufftable : HuffTable} {size base first interval n : Nat} {extra start : Nat → Nat}

theorem packExtraBits_spec (hufftable : HuffTable) (i : Nat) {s : Packing} (room : s.count ≤ size) :
    let s' := packExtraBits hufftable size i s
    s'.count = min (s.count + 2 ^ s.extraBitsCount) size ∧ s'.extraBitsCount = s.extraBitsCount ∧
      s'.gainExtraBits = s.gainExtraBits ∧ (∀ k, k < s.count → s'.table k = s.table k) ∧
      ∀ x, x < 2 ^ s.extraBitsCount → s.count + x < size →
        s'.table (s.count + x) = packedCode hufftable i x s.extraBitsCount := by
  rw [packExtraBits, Nat.shiftLeft_eq, Nat.one_mul]
  apply forRange_invariant (fun y (s' : Packing) => s'.count = min (s.count + y) size ∧
    s'.extraBitsCount = s.extraBitsCount ∧ s'.gainExtraBits = s.gainExtraBits ∧ (∀ k, k < s.count → s'.table k = s.table k) ∧
      ∀ x, x < y → s.count + x < size → s'.table (s.count + x) = packedCode hufftable i x s.extraBitsCount) (Nat.zero_le _)
  · refine ⟨by omega, rfl, rfl, fun _ _ => rfl, ?_⟩
    intro x below
    omega
  · rintro y s' - - ⟨count, extraBits, gain, kept, packed⟩
    by_cases full : size ≤ s'.count
    · rw [if_pos full]
      refine ⟨by omega, extraBits, gain, kept, ?_⟩
      intro x below inside
      exact packed x (by omega) inside
    · rw [if_neg full]
      have place : s'.count = s.count + y := by omega
      refine ⟨?_, extraBits, gain, ?_, ?_⟩
      · dsimp only
        omega
      · intro k below
        dsimp only
        rw [Arr.set_other (by omega)]
        exact kept k below
      · intro x below inside
        dsimp only
        rcases Nat.lt_succ_iff_lt_or_eq.mp below with before | rfl
        · rw [Arr.set_other (by omega)]
          exact packed x before inside
        · rw [place, Arr.set_self, extraBits]

/-- What is packed before symbol `base + j` -/
structure Packed (hufftable : HuffTable) (size base first interval n : Nat) (extra start : Nat → Nat) (j : Nat)
    (s : Packing) : Prop where
  count : s.count = min (start j) size
  extraBits : j < n → s.extraBitsCount = extra j ∧ s.gainExtraBits = first + interval * extra j
  entries : ∀ i, i < j → ∀ x, x < 2 ^ extra i → start i + x < size →
    s.table (start i + x) = packedCode hufftable (base + i) x (extra i)

theorem Packed.step (growth : Growth base first interval n extra) (begins : ∀ j, j < n → start (j + 1) = start j + 2 ^ extra j)
    {j : Nat} {s : Packing} (packed : Packed hufftable size base first interval n extra start j s) (inside : j < n) :
    Packed hufftable size base first interval n extra start (j + 1) (packSymbol hufftable size interval (base + j) s) := by
  have count := packed.count
  obtain ⟨extraBits, gain⟩ := packed.extraBits inside
  obtain ⟨count', extraBits', gain', kept, entries⟩ := packExtraBits_spec hufftable (base + j)
    (show s.count ≤ size by omega)
  have next := begins j inside
  have positive := Nat.two_pow_pos (extra j)
  have both : ∀ s', s'.count = (packExtraBits hufftable size (base + j) s).count →
      s'.table = (packExtraBits hufftable size (base + j) s).table →
      (j + 1 < n → s'.extraBitsCount = extra (j + 1) ∧ s'.gainExtraBits = first + interval * extra (j + 1)) →
      Packed hufftable size base first interval n extra start (j + 1) s' := by
    intro s' sameCount sameTable grown
    constructor
    · rw [sameCount, count', count, extraBits, next]
      omega
    · exact grown
    · intro i before x narrow fits
      rw [sameTable]
      rcases Nat.lt_succ_iff_lt_or_eq.mp before with earlier | rfl
      · have monotone : start (i + 1) ≤ start j := by
          have chain : ∀ k, i + 1 + k ≤ j → start (i + 1) ≤ start (i + 1 + k) := by
            intro k upTo
            induction k with
            | zero => exact le_refl _
            | succ k ih =>
              have step := begins (i + 1 + k) (by omega)
              have upTo := ih (by omega)
              have positive := Nat.two_pow_pos (extra (i + 1 + k))
              rw [← Nat.add_assoc, step]
              omega
          have := chain (j - (i + 1)) (by omega)
          rwa [Nat.add_sub_cancel' (by omega)] at this
        have own := begins i (by omega)
        rw [kept _ (by omega)]
        exact packed.entries i earlier x narrow fits
      · have place : s.count = start i := by omega
        rw [← place, ← extraBits]
        exact entries x (by rw [extraBits]; exact narrow) (by omega)
  rw [packSymbol]
  by_cases gains : base + j = (packExtraBits hufftable size (base + j) s).gainExtraBits
  · rw [if_pos gains]
    apply both
    · rfl
    · rfl
    · intro more
      rw [gain', gain] at gains
      rw [growth.grows j more, if_pos gains]
      dsimp only
      rw [extraBits', gain', extraBits, gain]
      exact ⟨rfl, by ring⟩
  · rw [if_neg gains]
    apply both
    · rfl
    · rfl
    · intro more
      rw [gain', gain] at gains
      rw [growth.grows j more, if_neg gains, extraBits', gain', extraBits, gain]
      exact ⟨rfl, rfl⟩

/-- Places of a loop for the greatest length, up to symbol `base + j` -/
structure LongestOf (length : Arr Nat) (base first interval n : Nat) (extra : Nat → Nat) (j : Nat) (s : Longest) : Prop where
  bound : ∀ m, s.maxCodeLen ≤ m ↔ ∀ i, i < j → length (base + i) + extra i ≤ m
  extraBits : j < n → s.extraBits = extra j ∧ s.gainExtraBits = first + interval * extra j

theorem LongestOf.step {length : Arr Nat} (growth : Growth base first interval n extra) {j : Nat} {s : Longest}
    (longest : LongestOf length base first interval n extra j s) (inside : j < n) :
    LongestOf length base first interval n extra (j + 1) (longestSymbol length interval (base + j) s) := by
  obtain ⟨extraBits, gain⟩ := longest.extraBits inside
  have bound : ∀ m, max s.maxCodeLen (length (base + j) + s.extraBits) ≤ m ↔
      ∀ i, i < j + 1 → length (base + i) + extra i ≤ m := by
    intro m
    rw [Nat.max_le, longest.bound, extraBits]
    constructor
    · rintro ⟨earlier, here⟩ i before
      rcases Nat.lt_succ_iff_lt_or_eq.mp before with before | rfl
      · exact earlier i before
      · exact here
    · intro all
      exact ⟨fun i before => all i (by omega), all j (Nat.lt_succ_self j)⟩
  set s' := if s.maxCodeLen < length (base + j) + s.extraBits then
    { s with maxCodeLen := length (base + j) + s.extraBits } else s with s'_eq
  have greatest : s'.maxCodeLen = max s.maxCodeLen (length (base + j) + s.extraBits) := by
    rw [s'_eq]
    split
    · rename_i less
      exact (Nat.max_eq_right (Nat.le_of_lt less)).symm
    · rename_i more
      exact (Nat.max_eq_left (Nat.le_of_not_lt more)).symm
  have same : s'.extraBits = s.extraBits ∧ s'.gainExtraBits = s.gainExtraBits := by
    rw [s'_eq]
    split <;> exact ⟨rfl, rfl⟩
  rw [longestSymbol, ← s'_eq, same.2, gain]
  by_cases gains : base + j = first + interval * extra j
  · rw [if_pos gains]
    constructor
    · dsimp only
      rw [greatest]
      exact bound
    · intro more
      rw [growth.grows j more, if_pos gains]
      dsimp only
      rw [same.1, extraBits]
      exact ⟨rfl, by ring⟩
  · rw [if_neg gains]
    constructor
    · rw [greatest]
      exact bound
    · intro more
      rw [growth.grows j more, if_neg gains, same.1, same.2, extraBits, gain]
      exact ⟨rfl, rfl⟩

end

end Isal.HuffCodes
