import Isal.Loops
import Isal.Arr
import Isal.GaloisBytes

/-! The base functions of the erasure code: coding matrices, their inversion, the tables made
of a matrix and the encoding of buffers with them. Matrices are row after row in one array. -/
namespace Isal.Erasure
open Loops

/-- The eight bytes of a little-endian word. -/
def storeWord (tbl : Arr UInt8) (at_ : Nat) (w : UInt64) : Arr UInt8 :=
  forRange 0 8 (fun i tbl => tbl.set (at_ + i) (w >>> (8 * i).toUInt64).toUInt8) tbl

/-- The table of one factor: its products with 0 to 15, then with 0x00 to 0xf0. -/
def gfVectMulInitBase (c : UInt8) (tbl : Arr UInt8) (at_ : Nat) : Arr UInt8 :=
  let c2 := gfDouble c
  let c4 := gfDouble c2
  let c8 := gfDouble c4
  let v1 := c.toUInt64 * 0x0100010001000100
  let v2 := c2.toUInt64 * 0x0101000001010000
  let v4 := c4.toUInt64 * 0x0101010100000000
  let v8 := c8.toUInt64 * 0x0101010101010101
  let v4 := v1 ^^^ v2 ^^^ v4
  let tbl := storeWord tbl at_ v4
  let tbl := storeWord tbl (at_ + 8) (v8 ^^^ v4)
  let c17 := gfDouble c8
  let c18 := gfDouble c17
  let c20 := gfDouble c18
  let c24 := gfDouble c20
  let v10 := c17.toUInt64 * 0x0100010001000100
  let v20 := c18.toUInt64 * 0x0101000001010000
  let v40 := c20.toUInt64 * 0x0101010100000000
  let v80 := c24.toUInt64 * 0x0101010101010101
  let v40 := v10 ^^^ v20 ^^^ v40
  let tbl := storeWord tbl (at_ + 16) v40
  storeWord tbl (at_ + 24) (v80 ^^^ v40)

/-- The pointers into the matrix and into the tables move on with every factor. -/
structure TableWriter where
  a : Nat
  gTbls : Nat
  tables : Arr UInt8

def ecInitTablesBase (k rows : Nat) (a : Arr UInt8) (gTbls : Arr UInt8) : Arr UInt8 :=
  let writer := forRange 0 rows (fun _ w =>
    forRange 0 k (fun _ w =>
      ⟨w.a + 1, w.gTbls + 32, gfVectMulInitBase (a w.a) w.tables w.gTbls⟩) w)
    (⟨0, 0, gTbls⟩ : TableWriter)
  writer.tables

/-- `memset(a, 0, k * m)` and ones on the diagonal of the upper square. -/
def identityAbove (a : Arr UInt8) (m k : Nat) : Arr UInt8 :=
  forRange 0 k (fun i a => a.set (k * i + i) 1) (a.fill 0 (k * m) 0)

structure RsWriter where
  p : UInt8
  a : Arr UInt8

structure RsRows where
  gen : UInt8
  a : Arr UInt8

def gfGenRsMatrix (a : Arr UInt8) (m k : Nat) : Arr UInt8 :=
  let rows := forRange k m (fun i s =>
    let row := forRange 0 k (fun j w => ⟨gfMul w.p s.gen, w.a.set (k * i + j) w.p⟩)
      (⟨1, s.a⟩ : RsWriter)
    ⟨gfMul s.gen 2, row.a⟩) (⟨1, identityAbove a m k⟩ : RsRows)
  rows.a

structure CauchyWriter where
  p : Nat
  a : Arr UInt8

/-- `i ^ j` is cut to a byte by the call of `gf_inv`. -/
def gfGenCauchy1Matrix (a : Arr UInt8) (m k : Nat) : Arr UInt8 :=
  let writer := forRange k m (fun i w =>
    forRange 0 k (fun j w => ⟨w.p + 1, w.a.set w.p (gfInv (i ^^^ j).toUInt8)⟩) w)
    (⟨k * k, identityAbove a m k⟩ : CauchyWriter)
  writer.a

/-- `in_mat` and `out_mat`. -/
structure Mats where
  inMat : Arr UInt8
  outMat : Arr UInt8

def swapEntry (n i j k : Nat) (a : Arr UInt8) : Arr UInt8 :=
  let temp := a (i * n + k)
  (a.set (i * n + k) (a (j * n + k))).set (j * n + k) temp

def scaleEntry (n i : Nat) (temp : UInt8) (j : Nat) (a : Arr UInt8) : Arr UInt8 :=
  a.set (i * n + j) (gfMul (a (i * n + j)) temp)

def addEntry (n i j : Nat) (temp : UInt8) (k : Nat) (a : Arr UInt8) : Arr UInt8 :=
  a.set (j * n + k) (a (j * n + k) ^^^ gfMul temp (a (i * n + k)))

/-- The first row below `i` that is not zero in column `i`, or `n`. -/
def findPivot (n i : Nat) (inMat : Arr UInt8) : Nat :=
  ((List.range' (i + 1) (n - (i + 1))).find? fun j => inMat (j * n + i) ≠ 0).getD n

def swapRows (n i j : Nat) (s : Mats) : Mats :=
  forRange 0 n (fun k s => ⟨swapEntry n i j k s.inMat, swapEntry n i j k s.outMat⟩) s

def scaleRow (n i : Nat) (s : Mats) : Mats :=
  let temp := gfInv (s.inMat (i * n + i))
  forRange 0 n (fun j s => ⟨scaleEntry n i temp j s.inMat, scaleEntry n i temp j s.outMat⟩) s

def addRow (n i j : Nat) (s : Mats) : Mats :=
  let temp := s.inMat (j * n + i)
  forRange 0 n (fun k s => ⟨addEntry n i j temp k s.inMat, addEntry n i j temp k s.outMat⟩) s

def clearColumn (n i : Nat) (s : Mats) : Mats :=
  forRange 0 n (fun j s => if j = i then s else addRow n i j s) (scaleRow n i s)

/-- One round of the inversion: the result is -1 when column `i` has no pivot. -/
def invertColumn (n i : Nat) (s : Mats) : Int × Mats :=
  if s.inMat (i * n + i) = 0 then
    let j := findPivot n i s.inMat
    if j = n then (-1, s) else (0, clearColumn n i (swapRows n i j s))
  else (0, clearColumn n i s)

def gfInvertMatrix (inMat outMat : Arr UInt8) (n : Nat) : Int × Mats :=
  let outMat := forRange 0 n (fun i out => out.set (i * n + i) 1)
    (forRange 0 (n * n) (fun i out => out.set i 0) outMat)
  forRange 0 n (fun i r => if r.1 = 0 then invertColumn n i r.2 else r) (0, ⟨inMat, outMat⟩)

/-- Buffers by index, bytes by index within a buffer. -/
abbrev Buffers := Arr (Arr UInt8)

def ecEncodeDataBase (len srcs dests : Nat) (v : Arr UInt8) (src dest : Buffers) : Buffers :=
  forRange 0 dests (fun l dest =>
    forRange 0 len (fun i dest =>
      let s := forRange 0 srcs (fun j s =>
        s ^^^ gfMul ((src j) i) (v (j * 32 + l * srcs * 32 + 1))) 0
      dest.set l ((dest l).set i s)) dest) dest

def gfVectDotProdBase (len vlen : Nat) (v : Arr UInt8) (src : Buffers) (dest : Arr UInt8) : Arr UInt8 :=
  forRange 0 len (fun i dest =>
    let s := forRange 0 vlen (fun j s => s ^^^ gfMul ((src j) i) (v (j * 32 + 1))) 0
    dest.set i s) dest

def gfVectMadBase (len vecI : Nat) (v : Arr UInt8) (src dest : Arr UInt8) : Arr UInt8 :=
  forRange 0 len (fun i dest =>
    let s := dest i
    dest.set i (s ^^^ gfMul (src i) (v (vecI * 32 + 1)))) dest

def ecEncodeDataUpdateBase (len k rows vecI : Nat) (v data : Arr UInt8) (dest : Buffers) : Buffers :=
  forRange 0 rows (fun l dest =>
    forRange 0 len (fun i dest =>
      let s := (dest l) i
      dest.set l ((dest l).set i (s ^^^ gfMul (data i) (v (vecI * 32 + l * k * 32 + 1))))) dest) dest

/-- The matrix of the surviving rows, in the order in which their fragments are read. -/
def survivingRows (k : Nat) (encodeMatrix : Arr UInt8) (decodeIndex : Arr Nat) (b : Arr UInt8) :
    Arr UInt8 :=
  forRange 0 k (fun i b =>
    forRange 0 k (fun j b => b.set (k * i + j) (encodeMatrix (k * decodeIndex i + j))) b) b

/-- The decode rows: the row of the inverse for lost data, the coding row times the inverse
for lost parity. -/
def decodeRows (k nerrs : Nat) (encodeMatrix invertMatrix : Arr UInt8) (srcErrList : Arr Nat)
    (decodeMatrix : Arr UInt8) : Arr UInt8 :=
  forRange 0 nerrs (fun p decode =>
    forRange 0 k (fun i decode =>
      decode.set (k * p + i)
        (if srcErrList p < k then invertMatrix (k * srcErrList p + i)
        else forRange 0 k (fun j s =>
          s ^^^ gfMul (invertMatrix (j * k + i)) (encodeMatrix (k * srcErrList p + j))) 0))
      decode) decodeMatrix

end Isal.Erasure
