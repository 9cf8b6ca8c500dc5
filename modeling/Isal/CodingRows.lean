import Isal.ErasureRecovery
import Isal.CodingMatrices

/-! The two generated coding matrices: what they hold, and that any rows of them can be
inverted, for Cauchy's matrix always and for the powers of powers of two within the documented
sizes. -/
namespace Isal.Erasure
open Loops Matrix

/-- The generated matrices start as zeros with ones on the diagonal. -/
theorem identityAbove_get (a : Arr UInt8) {m k r c : Nat} (row : r < m) (column : c < k) :
    (identityAbove a m k) (k * r + c) = if r = c then 1 else 0 := by
  have ones : (identityAbove a m k) (k * r + c) = if r = c ∧ r < k then 1 else 0 := by
    rw [identityAbove]
    apply forRange_invariant (fun i (b : Arr UInt8) => b (k * r + c) = if r = c ∧ r < i then 1 else 0)
      (Nat.zero_le k)
    · have inside : k * r + k ≤ k * m := by
        rw [← Nat.mul_succ]
        exact Nat.mul_le_mul_left _ row
      rw [Arr.fill_get, if_pos (by omega), if_neg (fun h => Nat.not_lt_zero _ h.2)]
    · intro i b _ within before
      simp only [Arr.set_get, Nat.mul_comm k, cell_eq column within]
      by_cases here : r = i ∧ c = i
      · rw [if_pos here, if_pos ⟨here.1.trans here.2.symm, by omega⟩]
      · rw [if_neg here, Nat.mul_comm r, before]
        have shift : (r = c ∧ r < i) ↔ (r = c ∧ r < i + 1) := by omega
        simp only [shift]
  rw [ones]
  by_cases same : r = c
  · rw [if_pos ⟨same, by omega⟩, if_pos same]
  · rw [if_neg (fun h => same h.1), if_neg same]

/-- The rows below the identity are written in order and the identity is kept. -/
structure ParityWritten (k : Nat) (start : Arr UInt8) (entry : Nat → Nat → UInt8) (i j : Nat)
    (a : Arr UInt8) : Prop where
  kept : ∀ r < k, ∀ c < k, a (k * r + c) = start (k * r + c)
  rows : ∀ r, k ≤ r → ∀ c < k, r < i ∨ r = i ∧ c < j → a (k * r + c) = entry r c

theorem ParityWritten.set {k : Nat} {start a : Arr UInt8} {entry : Nat → Nat → UInt8} {i j : Nat}
    (written : ParityWritten k start entry i j a) (low : k ≤ i) (column : j < k) {x : UInt8}
    (value : x = entry i j) : ParityWritten k start entry i (j + 1) (a.set (k * i + j) x) := by
  obtain ⟨kept, rows⟩ := written
  constructor
  · intro r above c inRow
    rw [Arr.set_other, kept r above c inRow]
    rw [Nat.mul_comm k, Nat.mul_comm k, ne_eq, cell_eq inRow column]
    omega
  · intro r below c inRow before
    simp only [Arr.set_get, Nat.mul_comm k, cell_eq inRow column]
    by_cases here : r = i ∧ c = j
    · rw [if_pos here, value, here.1, here.2]
    · rw [if_neg here, Nat.mul_comm r, rows r below c inRow (by omega)]

theorem ParityWritten.wrap {k : Nat} {start a : Arr UInt8} {entry : Nat → Nat → UInt8} {i : Nat}
    (written : ParityWritten k start entry i k a) : ParityWritten k start entry (i + 1) 0 a :=
  ⟨written.kept, fun r below c inRow before => written.rows r below c inRow (by omega)⟩

theorem ParityWritten.start {k : Nat} {a : Arr UInt8} {entry : Nat → Nat → UInt8} :
    ParityWritten k a entry k 0 a :=
  ⟨fun _ _ _ _ => rfl, fun r below c inRow before => by omega⟩

theorem gfGenCauchy1Matrix_written (a : Arr UInt8) {m k : Nat} (le : k ≤ m) :
    ParityWritten k (identityAbove a m k) (fun i j => gfInv (i ^^^ j).toUInt8) m 0
      (gfGenCauchy1Matrix a m k) := by
  have loop : ∀ w : CauchyWriter, w = forRange k m (fun i w =>
      forRange 0 k (fun j w => ⟨w.p + 1, w.a.set w.p (gfInv (i ^^^ j).toUInt8)⟩) w)
      (⟨k * k, identityAbove a m k⟩ : CauchyWriter) → w.p = k * m ∧
      ParityWritten k (identityAbove a m k) (fun i j => gfInv (i ^^^ j).toUInt8) m 0 w.a := by
    rintro w rfl
    apply forRange_invariant (fun i (w : CauchyWriter) => w.p = k * i ∧
      ParityWritten k (identityAbove a m k) (fun i j => gfInv (i ^^^ j).toUInt8) i 0 w.a) le
    · exact ⟨rfl, ParityWritten.start⟩
    · rintro i w low _ ⟨pointer, before⟩
      have row : ∀ w' : CauchyWriter, w' = forRange 0 k (fun j w =>
          (⟨w.p + 1, w.a.set w.p (gfInv (i ^^^ j).toUInt8)⟩ : CauchyWriter)) w → w'.p = k * i + k ∧
          ParityWritten k (identityAbove a m k) (fun i j => gfInv (i ^^^ j).toUInt8) i k w'.a := by
        rintro w' rfl
        apply forRange_invariant (fun j (w : CauchyWriter) => w.p = k * i + j ∧
          ParityWritten k (identityAbove a m k) (fun i j => gfInv (i ^^^ j).toUInt8) i j w.a)
          (Nat.zero_le k)
        · exact ⟨pointer, before⟩
        · rintro j w' _ column ⟨pointer, before⟩
          refine ⟨by rw [pointer]; rfl, ?_⟩
          simp only [pointer]
          exact before.set low column rfl
      obtain ⟨after, written⟩ := row _ rfl
      exact ⟨after.trans (Nat.mul_succ k i).symm, written.wrap⟩
  exact (loop _ rfl).2

/-- Two to the power of the row's distance from the identity, to the power of the column. -/
def rsEntry (k i j : Nat) : UInt8 := (((⟨2⟩ : Gf) ^ (i - k)) ^ j).byte

theorem gfGenRsMatrix_written (a : Arr UInt8) {m k : Nat} (le : k ≤ m) :
    ParityWritten k (identityAbove a m k) (rsEntry k) m 0 (gfGenRsMatrix a m k) := by
  rw [gfGenRsMatrix]
  have loop : ∀ s : RsRows, s = forRange k m (fun i s =>
      let row := forRange 0 k (fun j w => ⟨gfMul w.p s.gen, w.a.set (k * i + j) w.p⟩)
        (⟨1, s.a⟩ : RsWriter)
      ⟨gfMul s.gen 2, row.a⟩) (⟨1, identityAbove a m k⟩ : RsRows) →
      s.gen = ((⟨2⟩ : Gf) ^ (m - k)).byte ∧
        ParityWritten k (identityAbove a m k) (rsEntry k) m 0 s.a := by
    rintro s rfl
    apply forRange_invariant (fun i (s : RsRows) => s.gen = ((⟨2⟩ : Gf) ^ (i - k)).byte ∧
      ParityWritten k (identityAbove a m k) (rsEntry k) i 0 s.a) le
    · refine ⟨?_, ParityWritten.start⟩
      rw [Nat.sub_self, pow_zero]
      rfl
    · rintro i s low _ ⟨gen, before⟩
      have row : ∀ w : RsWriter, w = forRange 0 k (fun j w =>
          ⟨gfMul w.p s.gen, w.a.set (k * i + j) w.p⟩) (⟨1, s.a⟩ : RsWriter) →
          w.p = rsEntry k i k ∧ ParityWritten k (identityAbove a m k) (rsEntry k) i k w.a := by
        rintro w rfl
        apply forRange_invariant (fun j (w : RsWriter) => w.p = rsEntry k i j ∧
          ParityWritten k (identityAbove a m k) (rsEntry k) i j w.a) (Nat.zero_le k)
        · refine ⟨?_, before⟩
          rw [rsEntry, pow_zero]
          rfl
        · rintro j w _ column ⟨p, before⟩
          refine ⟨?_, before.set low column p⟩
          rw [p, gen, rsEntry, ← Gf.mul_byte, ← pow_succ]
          rfl
      refine ⟨?_, (row _ rfl).2.wrap⟩
      rw [gen, Nat.sub_add_comm low, pow_succ, Gf.mul_byte]
  exact (loop _ rfl).2

/-- A choice of `k` distinct rows out of `m`. -/
structure Choice (k m : Nat) (decodeIndex : Arr Nat) : Prop where
  below : ∀ i < k, decodeIndex i < m
  distinct : ∀ i < k, ∀ j < k, decodeIndex i = decodeIndex j → i = j

variable {k m : Nat} {entry : Nat → Nat → UInt8} {start a b : Arr UInt8} {decodeIndex : Arr Nat}

/-- A generated matrix is systematic, so its square parity parts decide. -/
theorem chosen_regular (written : ParityWritten k (identityAbove start m k) entry m 0 a)
    (choice : Choice k m decodeIndex)
    (parity : ∀ (t : Nat) (r c : Fin t → Nat), Function.Injective r → Function.Injective c →
      (∀ s, k ≤ r s ∧ r s < m) → (∀ s, c s < k) →
      (Matrix.of fun s u => (⟨entry (r s) (c u)⟩ : Gf)).det ≠ 0) :
    (toMatrix k (survivingRows k a decodeIndex b)).det ≠ 0 := by
  have rowDistinct : Function.Injective fun i : Fin k => decodeIndex i :=
    fun i j same => Fin.ext (choice.distinct i i.isLt j j.isLt same)
  have cell (r c : Fin k) : toMatrix k (survivingRows k a decodeIndex b) r c =
      ⟨a (k * decodeIndex r + c)⟩ := congrFun (survivingRows_eq decodeIndex b r) c
  apply systematic_regular rowDistinct
  · intro r c unit
    rw [cell, written.kept _ unit c c.isLt, identityAbove_get start (choice.below r r.isLt) c.isLt]
    split <;> rfl
  · intro t r c distinctR distinctC below
    have part : (toMatrix k (survivingRows k a decodeIndex b)).submatrix r c =
        Matrix.of fun s u => (⟨entry (decodeIndex (r s)) (c u)⟩ : Gf) := by
      apply Matrix.ext
      intro s u
      have inside := choice.below (r s) (r s).isLt
      rw [submatrix_apply, cell, written.rows _ (below s) _ (c u).isLt (Or.inl inside)]
      rfl
    rw [part]
    apply parity
    · exact fun s s' same => distinctR (rowDistinct same)
    · exact fun u u' same => distinctC (Fin.ext same)
    · exact fun s => ⟨below s, choice.below (r s) (r s).isLt⟩
    · exact fun u => (c u).isLt

theorem byte_inj {i j : Nat} (first : i < 256) (second : j < 256) (same : i.toUInt8 = j.toUInt8) : i = j := by
  have values := congrArg UInt8.toNat same
  simp only [Nat.toUInt8_eq, UInt8.toNat_ofNat'] at values
  rwa [Nat.mod_eq_of_lt first, Nat.mod_eq_of_lt second] at values

/-- Bytes of indices: their XOR is the difference in the field. -/
theorem cauchy_entry (i j : Nat) :
    (⟨gfInv (i ^^^ j).toUInt8⟩ : Gf) = ((⟨i.toUInt8⟩ : Gf) - ⟨j.toUInt8⟩)⁻¹ := by
  apply Gf.ext
  rw [Gf.inv_byte]
  exact congrArg gfInv (UInt8.ofNat_xor i j)

/-- Any `k` rows of Cauchy's matrix are regular and the inversion of them succeeds. -/
theorem gfGenCauchy1Matrix_invertible (more : k < m) (bound : m ≤ 256) (a b outMat : Arr UInt8)
    (choice : Choice k m decodeIndex) :
    (toMatrix k (survivingRows k (gfGenCauchy1Matrix a m k) decodeIndex b)).det ≠ 0 ∧
    (gfInvertMatrix (survivingRows k (gfGenCauchy1Matrix a m k) decodeIndex b) outMat k).1 = 0 := by
  have regular : (toMatrix k (survivingRows k (gfGenCauchy1Matrix a m k) decodeIndex b)).det ≠ 0 := by
    apply chosen_regular (gfGenCauchy1Matrix_written a more.le) choice
    intro t r c distinctR distinctC rowRange columnRange
    simp only [cauchy_entry]
    apply cauchy_regular
    · intro s s' same
      exact distinctR (byte_inj ((rowRange s).2.trans_le bound) ((rowRange s').2.trans_le bound)
        (congrArg Gf.byte same))
    · intro u u' same
      have first := columnRange u
      have second := columnRange u'
      exact distinctC (byte_inj (by omega) (by omega) (congrArg Gf.byte same))
    · intro s u same
      have column := columnRange u
      have row := rowRange s
      have equal := byte_inj (by omega) (by omega) (congrArg Gf.byte same)
      omega
  exact ⟨regular, (gfInvertMatrix_zero_iff _ outMat k).mpr regular⟩

/-- The last two rows of four, out of the two data rows and two parity rows. -/
theorem gfGenCauchy1Matrix_invertible_parity :
    (gfInvertMatrix (survivingRows 2 (gfGenCauchy1Matrix (Arr.const 0) 4 2) ⟨fun i => i + 2⟩
      (Arr.const 0)) (Arr.const 0) 2).1 = 0 := by
  apply (gfGenCauchy1Matrix_invertible (k := 2) (m := 4) (by decide) (by decide) _ _ _ ?_).2
  constructor
  · decide
  · decide

namespace Gf

theorem pow_byte (i : Nat) : (⟨2⟩ : Gf) ^ i = powersOfTwo.power i := by
  induction i with
  | zero => rfl
  | succ i ih =>
    rw [pow_succ, ih, Nat.add_comm, Powers.power_add]
    exact powersOfTwo.mul_power (powersOfTwo.power i) 1

/-- Two has order 255. -/
theorem two_pow_inj {i j : Nat} (first : i < 255) (second : j < 255)
    (same : (⟨2⟩ : Gf) ^ i = (⟨2⟩ : Gf) ^ j) : i = j := by
  have back : ∀ i < 255, (gflogBase.getD (gffBase.getD i 0).toNat 0).toNat % 255 = i := by
    decide +kernel
  have bytes := congrArg Gf.byte same
  have entry (i : Nat) (within : i < 255) : ((⟨2⟩ : Gf) ^ i).byte = gffBase.getD i 0 := by
    rw [pow_byte]
    exact gffBase_power i within.le
  rw [entry i first, entry j second] at bytes
  rw [← back i first, bytes, back j second]

theorem two_pow_ne (i : Nat) : (⟨2⟩ : Gf) ^ i ≠ 0 := by
  rw [pow_byte]
  exact powersOfTwo.power_ne i

/-- Squaring is injective since every element is its own negative. -/
theorem square_inj (x y : Gf) (same : x ^ 2 = y ^ 2) : x = y := by
  have negative : x + y = x - y := rfl
  have product : (x - y) * (x - y) = 0 := by
    rw [← sub_eq_zero, sq_sub_sq, negative] at same
    exact same
  exact sub_eq_zero.mp (mul_self_eq_zero.mp product)

end Gf

/-- The sizes for which the documentation promises that every choice of rows is regular. -/
def SafeRange (k m : Nat) : Prop := k ≤ 3 ∧ m - k ≤ 255 ∨ m - k ≤ 3 ∧ k ≤ 255

theorem rs_regular (safe : SafeRange k m) (le : k ≤ m) (choice : Choice k m decodeIndex)
    (a b : Arr UInt8) :
    (toMatrix k (survivingRows k (gfGenRsMatrix a m k) decodeIndex b)).det ≠ 0 := by
  apply chosen_regular (gfGenRsMatrix_written a le) choice
  intro t r c distinctR distinctC rowRange columnRange
  have squares {x : Fin t → Gf} : ∀ s u, x s ^ 2 = x u ^ 2 → x s = x u :=
    fun s u => Gf.square_inj _ _
  rcases safe with ⟨columns, rows⟩ | ⟨rows, columns⟩
  · apply powers_regular (x := fun s => (⟨2⟩ : Gf) ^ (r s - k)) (e := c)
    · intro s s' same
      have first := rowRange s
      have second := rowRange s'
      have equal := Gf.two_pow_inj (by omega) (by omega) same
      exact distinctR (by omega)
    · exact fun s => Gf.two_pow_ne _
    · exact squares
    · exact distinctC
    · exact fun u => Nat.lt_of_lt_of_le (columnRange u) columns
  · rw [← det_transpose]
    have flipped : (Matrix.of fun s u => (⟨rsEntry k (r s) (c u)⟩ : Gf))ᵀ =
        Matrix.of fun u s => ((⟨2⟩ : Gf) ^ c u) ^ (r s - k) := by
      apply Matrix.ext
      intro u s
      exact (pow_right_comm _ _ _)
    rw [flipped]
    apply powers_regular
    · intro u u' same
      have first := columnRange u
      have second := columnRange u'
      exact distinctC (Gf.two_pow_inj (by omega) (by omega) same)
    · exact fun u => Gf.two_pow_ne _
    · exact squares
    · intro s s' same
      have first := rowRange s
      have second := rowRange s'
      change r s - k = r s' - k at same
      exact distinctR (by omega)
    · intro s
      have row := rowRange s
      omega

/-- As long as no more than `m - k` fragments are lost, `k` of them survive. -/
theorem survivors_exist (le : k ≤ m) (lost : Finset Nat) (few : lost.card ≤ m - k) :
    ∃ decodeIndex : Arr Nat, Choice k m decodeIndex ∧ ∀ i < k, decodeIndex i ∉ lost := by
  have many : k ≤ (Finset.range m \ lost).card := by
    have split := Finset.le_card_sdiff lost (Finset.range m)
    rw [Finset.card_range] at split
    omega
  obtain ⟨kept, within, card⟩ := Finset.exists_subset_card_eq many
  let index (i : Nat) : Nat := if h : i < k then kept.orderEmbOfFin card ⟨i, h⟩ else 0
  have value {i : Nat} (h : i < k) : index i = kept.orderEmbOfFin card ⟨i, h⟩ := dif_pos h
  have member {i : Nat} (h : i < k) : index i ∈ Finset.range m \ lost := by
    rw [value h]
    exact within (Finset.orderEmbOfFin_mem kept card ⟨i, h⟩)
  refine ⟨⟨index⟩, ⟨?_, ?_⟩, ?_⟩
  · intro i h
    exact Finset.mem_range.mp (Finset.mem_sdiff.mp (member h)).1
  · intro i h j h' same
    change index i = index j at same
    rw [value h, value h'] at same
    exact congrArg Fin.val ((kept.orderEmbOfFin card).injective same)
  · intro i h
    exact (Finset.mem_sdiff.mp (member h)).2

/-- Within the documented sizes any `k` rows of the matrix are regular, so whatever at most
`m - k` lost fragments leave can be inverted. -/
theorem gfGenRsMatrix_decodable (safe : SafeRange k m) (le : k ≤ m) (a b outMat : Arr UInt8) :
    (∀ decodeIndex, Choice k m decodeIndex →
      (toMatrix k (survivingRows k (gfGenRsMatrix a m k) decodeIndex b)).det ≠ 0) ∧
    ∀ lost : Finset Nat, lost.card ≤ m - k →
      ∃ decodeIndex, Choice k m decodeIndex ∧ (∀ i < k, decodeIndex i ∉ lost) ∧
        (gfInvertMatrix (survivingRows k (gfGenRsMatrix a m k) decodeIndex b) outMat k).1 = 0 := by
  constructor
  · intro decodeIndex choice
    exact rs_regular safe le choice a b
  · intro lost few
    obtain ⟨decodeIndex, choice, kept⟩ := survivors_exist le lost few
    exact ⟨decodeIndex, choice, kept,
      (gfInvertMatrix_zero_iff _ outMat k).mpr (rs_regular safe le choice a b)⟩

theorem gfGenRsMatrix_decodable_pair :
    ∃ decodeIndex, Choice 2 4 decodeIndex ∧ (∀ i < 2, decodeIndex i ∉ ({0, 3} : Finset Nat)) ∧
      (gfInvertMatrix (survivingRows 2 (gfGenRsMatrix (Arr.const 0) 4 2) decodeIndex (Arr.const 0))
        (Arr.const 0) 2).1 = 0 :=
  (gfGenRsMatrix_decodable (k := 2) (m := 4) (Or.inl (by decide)) (by decide) _ _ _).2 {0, 3} (by decide)

end Isal.Erasure
