import Isal.PowerField

/-! The field GF(2^8) as the erasure code computes in it: bytes, added by XOR and multiplied
through a table of the powers of two modulo 0x11d and a table of logarithms. -/
namespace Isal.Erasure

def gffBase : List UInt8 :=
  [0x01, 0x02, 0x04, 0x08, 0x10, 0x20, 0x40, 0x80, 0x1d, 0x3a, 0x74, 0xe8, 0xcd, 0x87, 0x13, 0x26,
   0x4c, 0x98, 0x2d, 0x5a, 0xb4, 0x75, 0xea, 0xc9, 0x8f, 0x03, 0x06, 0x0c, 0x18, 0x30, 0x60, 0xc0,
   0x9d, 0x27, 0x4e, 0x9c, 0x25, 0x4a, 0x94, 0x35, 0x6a, 0xd4, 0xb5, 0x77, 0xee, 0xc1, 0x9f, 0x23,
   0x46, 0x8c, 0x05, 0x0a, 0x14, 0x28, 0x50, 0xa0, 0x5d, 0xba, 0x69, 0xd2, 0xb9, 0x6f, 0xde, 0xa1,
   0x5f, 0xbe, 0x61, 0xc2, 0x99, 0x2f, 0x5e, 0xbc, 0x65, 0xca, 0x89, 0x0f, 0x1e, 0x3c, 0x78, 0xf0,
   0xfd, 0xe7, 0xd3, 0xbb, 0x6b, 0xd6, 0xb1, 0x7f, 0xfe, 0xe1, 0xdf, 0xa3, 0x5b, 0xb6, 0x71, 0xe2,
   0xd9, 0xaf, 0x43, 0x86, 0x11, 0x22, 0x44, 0x88, 0x0d, 0x1a, 0x34, 0x68, 0xd0, 0xbd, 0x67, 0xce,
   0x81, 0x1f, 0x3e, 0x7c, 0xf8, 0xed, 0xc7, 0x93, 0x3b, 0x76, 0xec, 0xc5, 0x97, 0x33, 0x66, 0xcc,
   0x85, 0x17, 0x2e, 0x5c, 0xb8, 0x6d, 0xda, 0xa9, 0x4f, 0x9e, 0x21, 0x42, 0x84, 0x15, 0x2a, 0x54,
   0xa8, 0x4d, 0x9a, 0x29, 0x52, 0xa4, 0x55, 0xaa, 0x49, 0x92, 0x39, 0x72, 0xe4, 0xd5, 0xb7, 0x73,
   0xe6, 0xd1, 0xbf, 0x63, 0xc6, 0x91, 0x3f, 0x7e, 0xfc, 0xe5, 0xd7, 0xb3, 0x7b, 0xf6, 0xf1, 0xff,
   0xe3, 0xdb, 0xab, 0x4b, 0x96, 0x31, 0x62, 0xc4, 0x95, 0x37, 0x6e, 0xdc, 0xa5, 0x57, 0xae, 0x41,
   0x82, 0x19, 0x32, 0x64, 0xc8, 0x8d, 0x07, 0x0e, 0x1c, 0x38, 0x70, 0xe0, 0xdd, 0xa7, 0x53, 0xa6,
   0x51, 0xa2, 0x59, 0xb2, 0x79, 0xf2, 0xf9, 0xef, 0xc3, 0x9b, 0x2b, 0x56, 0xac, 0x45, 0x8a, 0x09,
   0x12, 0x24, 0x48, 0x90, 0x3d, 0x7a, 0xf4, 0xf5, 0xf7, 0xf3, 0xfb, 0xeb, 0xcb, 0x8b, 0x0b, 0x16,
   0x2c, 0x58, 0xb0, 0x7d, 0xfa, 0xe9, 0xcf, 0x83, 0x1b, 0x36, 0x6c, 0xd8, 0xad, 0x47, 0x8e, 0x01]

def gflogBase : List UInt8 :=
  [0x00, 0xff, 0x01, 0x19, 0x02, 0x32, 0x1a, 0xc6, 0x03, 0xdf, 0x33, 0xee, 0x1b, 0x68, 0xc7, 0x4b,
   0x04, 0x64, 0xe0, 0x0e, 0x34, 0x8d, 0xef, 0x81, 0x1c, 0xc1, 0x69, 0xf8, 0xc8, 0x08, 0x4c, 0x71,
   0x05, 0x8a, 0x65, 0x2f, 0xe1, 0x24, 0x0f, 0x21, 0x35, 0x93, 0x8e, 0xda, 0xf0, 0x12, 0x82, 0x45,
   0x1d, 0xb5, 0xc2, 0x7d, 0x6a, 0x27, 0xf9, 0xb9, 0xc9, 0x9a, 0x09, 0x78, 0x4d, 0xe4, 0x72, 0xa6,
   0x06, 0xbf, 0x8b, 0x62, 0x66, 0xdd, 0x30, 0xfd, 0xe2, 0x98, 0x25, 0xb3, 0x10, 0x91, 0x22, 0x88,
   0x36, 0xd0, 0x94, 0xce, 0x8f, 0x96, 0xdb, 0xbd, 0xf1, 0xd2, 0x13, 0x5c, 0x83, 0x38, 0x46, 0x40,
   0x1e, 0x42, 0xb6, 0xa3, 0xc3, 0x48, 0x7e, 0x6e, 0x6b, 0x3a, 0x28, 0x54, 0xfa, 0x85, 0xba, 0x3d,
   0xca, 0x5e, 0x9b, 0x9f, 0x0a, 0x15, 0x79, 0x2b, 0x4e, 0xd4, 0xe5, 0xac, 0x73, 0xf3, 0xa7, 0x57,
   0x07, 0x70, 0xc0, 0xf7, 0x8c, 0x80, 0x63, 0x0d, 0x67, 0x4a, 0xde, 0xed, 0x31, 0xc5, 0xfe, 0x18,
   0xe3, 0xa5, 0x99, 0x77, 0x26, 0xb8, 0xb4, 0x7c, 0x11, 0x44, 0x92, 0xd9, 0x23, 0x20, 0x89, 0x2e,
   0x37, 0x3f, 0xd1, 0x5b, 0x95, 0xbc, 0xcf, 0xcd, 0x90, 0x87, 0x97, 0xb2, 0xdc, 0xfc, 0xbe, 0x61,
   0xf2, 0x56, 0xd3, 0xab, 0x14, 0x2a, 0x5d, 0x9e, 0x84, 0x3c, 0x39, 0x53, 0x47, 0x6d, 0x41, 0xa2,
   0x1f, 0x2d, 0x43, 0xd8, 0xb7, 0x7b, 0xa4, 0x76, 0xc4, 0x17, 0x49, 0xec, 0x7f, 0x0c, 0x6f, 0xf6,
   0x6c, 0xa1, 0x3b, 0x52, 0x29, 0x9d, 0x55, 0xaa, 0xfb, 0x60, 0x86, 0xb1, 0xbb, 0xcc, 0x3e, 0x5a,
   0xcb, 0x59, 0x5f, 0xb0, 0x9c, 0xa9, 0xa0, 0x51, 0x0b, 0xf5, 0x16, 0xeb, 0x7a, 0x75, 0x2c, 0xd7,
   0x4f, 0xae, 0xd5, 0xe9, 0xe6, 0xe7, 0xad, 0xe8, 0x74, 0xd6, 0xf4, 0xea, 0xa8, 0x50, 0x58, 0xaf]

def gfMul (a b : UInt8) : UInt8 :=
  if a = 0 ∨ b = 0 then 0
  else
    let i := (gflogBase.getD a.toNat 0).toNat + (gflogBase.getD b.toNat 0).toNat
    gffBase.getD (if i > 254 then i - 255 else i) 0

def gfInv (a : UInt8) : UInt8 :=
  if a = 0 then 0 else gffBase.getD (255 - (gflogBase.getD a.toNat 0).toNat) 0

/-- `(c << 1) ^ ((c & 0x80) ? 0x1d : 0)` -/
def gfDouble (c : UInt8) : UInt8 := (c <<< 1) ^^^ (if c &&& 0x80 ≠ 0 then 0x1d else 0)

/-- A byte as an element of the field. -/
@[ext] structure Gf where
  byte : UInt8
deriving DecidableEq, Repr

namespace Gf

instance : Zero Gf := ⟨⟨0⟩⟩
instance : Add Gf := ⟨fun x y => ⟨x.byte ^^^ y.byte⟩⟩

instance : AddCommGroup Gf where
  neg x := x
  nsmul := nsmulRec
  zsmul := @zsmulRec Gf _ _ ⟨id⟩ nsmulRec
  add_assoc x y z := Gf.ext (UInt8.xor_assoc _ _ _)
  zero_add x := Gf.ext UInt8.zero_xor
  add_zero x := Gf.ext UInt8.xor_zero
  add_comm x y := Gf.ext (UInt8.xor_comm _ _)
  neg_add_cancel x := Gf.ext UInt8.xor_self

@[simp] theorem zero_byte : (0 : Gf).byte = 0 := rfl

@[simp] theorem add_byte (x y : Gf) : (x + y).byte = x.byte ^^^ y.byte := rfl

end Gf

theorem every_byte {P : UInt8 → Prop} (checked : ∀ n < 256, P (UInt8.ofNat n)) (c : UInt8) : P c := by
  have here := checked c.toNat c.toNat_lt
  rwa [UInt8.ofNat_toNat] at here

theorem high_bit (c : UInt8) : c &&& 0x80 = 0 ∨ c &&& 0x80 = 0x80 := by
  revert c
  exact every_byte (by decide +kernel)

theorem xor_and_byte (a b c : UInt8) : (a ^^^ b) &&& c = (a &&& c) ^^^ (b &&& c) := by
  apply UInt8.toBitVec_inj.mp
  apply BitVec.eq_of_getLsbD_eq
  intro i _
  simp [Bool.and_xor_distrib_right]

theorem gfDouble_xor (a b : UInt8) : gfDouble (a ^^^ b) = gfDouble a ^^^ gfDouble b := by
  have shift : (a ^^^ b) <<< 1 = a <<< 1 ^^^ b <<< 1 := UInt8.shiftLeft_xor
  simp only [gfDouble, shift, xor_and_byte]
  have swap (p q u v : UInt8) : (p ^^^ q) ^^^ (u ^^^ v) = (p ^^^ u) ^^^ (q ^^^ v) := by
    rw [UInt8.xor_assoc, ← UInt8.xor_assoc q, UInt8.xor_comm q u, UInt8.xor_assoc u, UInt8.xor_assoc]
  rw [← swap]
  congr 1
  rcases high_bit a with clearA | setA <;> rcases high_bit b with clearB | setB <;>
    simp_all

namespace Gf

def double : Gf →+ Gf where
  toFun x := ⟨gfDouble x.byte⟩
  map_zero' := rfl
  map_add' _ _ := Gf.ext (gfDouble_xor _ _)

theorem double_byte (x : Gf) : (double x).byte = gfDouble x.byte := rfl

theorem gffBase_next : ∀ i < 255, gffBase.getD (i + 1) 0 = gfDouble (gffBase.getD i 0) := by
  decide +kernel

/-- The first table holds the powers of two. -/
theorem gffBase_power (i : Nat) (within : i ≤ 255) : (double^[i] ⟨1⟩).byte = gffBase.getD i 0 := by
  induction i with
  | zero => rfl
  | succ i ih =>
    rw [Function.iterate_succ_apply', double_byte, ih (by omega), gffBase_next i (by omega)]

theorem gffBase_gflogBase (x : UInt8) :
    x ≠ 0 → gffBase.getD (gflogBase.getD x.toNat 0).toNat 0 = x := by
  revert x
  exact every_byte (by decide +kernel)

theorem gfDouble_zero (x : UInt8) : gfDouble x = 0 → x = 0 := by
  revert x
  exact every_byte (by decide +kernel)

theorem double_ne (i : Nat) : double^[i] ⟨1⟩ ≠ 0 := by
  induction i with
  | zero => decide
  | succ i ih =>
    rw [Function.iterate_succ_apply']
    intro zero
    exact ih (Gf.ext (gfDouble_zero _ (congrArg Gf.byte zero)))

def logarithm (x : Gf) : Nat := (gflogBase.getD x.byte.toNat 0).toNat

theorem logarithm_le (x : Gf) : logarithm x ≤ 255 := Nat.le_of_lt_succ (UInt8.toNat_lt _)

/-- Two generates the field: doubling from one leads to every nonzero byte. -/
def powersOfTwo : Powers Gf where
  step := double
  unit := ⟨1⟩
  log := logarithm
  period := 255
  reaches x different := by
    apply Gf.ext
    rw [gffBase_power _ (logarithm_le x)]
    exact gffBase_gflogBase x.byte fun zero => different (Gf.ext zero)
  nonzero := double_ne
  returns := Gf.ext (gffBase_power 255 (by decide))
  within x _ := logarithm_le x

instance : Field Gf := powersOfTwo.field

theorem power_byte (i : Nat) (within : i ≤ 510) :
    (powersOfTwo.power i).byte = gffBase.getD (if i > 254 then i - 255 else i) 0 := by
  split
  · rename_i large
    have around : powersOfTwo.power i = powersOfTwo.power (i - 255) := by
      rw [← Nat.sub_add_cancel (show 255 ≤ i by omega), Powers.power_add, Nat.add_sub_cancel]
      exact congrArg _ powersOfTwo.returns
    rw [around]
    exact gffBase_power _ (by omega)
  · exact gffBase_power _ (by omega)

/-- The table product is the product of the field. -/
@[simp] theorem mul_byte (x y : Gf) : (x * y).byte = gfMul x.byte y.byte := by
  change (powersOfTwo.mul x y).byte = _
  rw [Powers.mul, gfMul]
  have zero (z : Gf) : z = 0 ↔ z.byte = 0 := Gf.ext_iff
  simp only [zero]
  split
  · rfl
  · have first := logarithm_le x
    have second := logarithm_le y
    exact power_byte _ (show logarithm x + logarithm y ≤ 510 by omega)

@[simp] theorem inv_byte (x : Gf) : (x⁻¹).byte = gfInv x.byte := by
  change (powersOfTwo.inv x).byte = _
  rw [Powers.inv, gfInv]
  have zero : x = 0 ↔ x.byte = 0 := Gf.ext_iff
  simp only [zero]
  split
  · rfl
  · exact gffBase_power _ (Nat.sub_le _ _)

@[simp] theorem one_byte : (1 : Gf).byte = 1 := rfl

end Gf
end Isal.Erasure
