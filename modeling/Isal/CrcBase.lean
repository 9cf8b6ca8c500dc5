import Isal.Arr
import Isal.Checksum
import Isal.CrcTables
import Isal.CrcDivision

/-! The CRC base functions with their byte tables, and the bit-serial reference functions. Both
walk a buffer that their counters can count, one of less than 2^31 bytes. -/
namespace Isal.Checksum
open Division

variable {w : Nat}

def widen (w : Nat) (byte : UInt8) : BitVec w := byte.toBitVec.setWidth w

/-- `crc = (crc >> 8) ^ table[(crc & 0xff) ^ byte]` -/
def reflTableStep (table : List Nat) (crc : BitVec w) (byte : UInt8) : BitVec w :=
  (crc >>> 8) ^^^ BitVec.ofNat w (table.getD ((crc &&& 255) ^^^ widen w byte).toNat 0)

/-- `crc = (crc << 8) ^ table[((crc >> (w - 8)) ^ byte) & 0xff]` -/
def normTableStep (table : List Nat) (crc : BitVec w) (byte : UInt8) : BitVec w :=
  (crc <<< 8) ^^^ BitVec.ofNat w (table.getD (((crc >>> (w - 8)) ^^^ widen w byte) &&& 255).toNat 0)

def reflBitStep (poly rem : BitVec w) (byte : UInt8) : BitVec w :=
  (shiftDown poly)^[8] (rem ^^^ widen w byte)

def normBitStep (poly rem : BitVec w) (byte : UInt8) : BitVec w :=
  (shiftUp poly)^[8] (rem ^^^ (widen w byte <<< (w - 8)))

/-- The remainder of `n` bits in a word of 64, tested above its highest bit. -/
def wideBitStep (n : Nat) (poly rem : BitVec 64) (byte : UInt8) : BitVec 64 :=
  (shiftWide n poly)^[8] (rem ^^^ (widen 64 byte <<< (n - 8)))

def crc16T10difBase (seed : BitVec 16) (buf : List UInt8) : BitVec 16 :=
  buf.foldl (normTableStep crc16tab) seed

structure CopyState (σ : Type) where
  crc : σ
  next : Nat
  dst : Arr UInt8

/-- The checksum of `src` with every byte also copied to `dst`. -/
def copying (step : σ → UInt8 → σ) (seed : σ) (dst : Arr UInt8) (src : List UInt8) : CopyState σ :=
  src.foldl (fun s byte => ⟨step s.crc byte, s.next + 1, s.dst.set s.next byte⟩) ⟨seed, 0, dst⟩

def crc16T10difCopyBase (seed : BitVec 16) (dst : Arr UInt8) (src : List UInt8) :
    BitVec 16 × Arr UInt8 :=
  let s := copying (normTableStep crc16tab) seed dst src
  (s.crc, s.dst)

def crc32IscsiBase (buffer : List UInt8) (crcInit : BitVec 32) : BitVec 32 :=
  buffer.foldl (reflTableStep crc32TableIscsiRefl) crcInit

def crc32IeeeBase (seed : BitVec 32) (buf : List UInt8) : BitVec 32 :=
  ~~~(buf.foldl (normTableStep crc32TableIeeeNorm) (~~~seed))

def crc32GzipReflBase (seed : BitVec 32) (buf : List UInt8) : BitVec 32 :=
  ~~~(buf.foldl (reflTableStep crc32TableGzipRefl) (~~~seed))

def crc64EcmaReflBase (seed : BitVec 64) (buf : List UInt8) : BitVec 64 :=
  ~~~(buf.foldl (reflTableStep crc64EcmaReflTable) (~~~seed))

def crc64EcmaNormBase (seed : BitVec 64) (buf : List UInt8) : BitVec 64 :=
  ~~~(buf.foldl (normTableStep crc64EcmaNormTable) (~~~seed))

def crc64IsoReflBase (seed : BitVec 64) (buf : List UInt8) : BitVec 64 :=
  ~~~(buf.foldl (reflTableStep crc64IsoReflTable) (~~~seed))

def crc64IsoNormBase (seed : BitVec 64) (buf : List UInt8) : BitVec 64 :=
  ~~~(buf.foldl (normTableStep crc64IsoNormTable) (~~~seed))

def crc64JonesReflBase (seed : BitVec 64) (buf : List UInt8) : BitVec 64 :=
  ~~~(buf.foldl (reflTableStep crc64JonesReflTable) (~~~seed))

def crc64JonesNormBase (seed : BitVec 64) (buf : List UInt8) : BitVec 64 :=
  ~~~(buf.foldl (normTableStep crc64JonesNormTable) (~~~seed))

def crc64RocksoftReflBase (seed : BitVec 64) (buf : List UInt8) : BitVec 64 :=
  ~~~(buf.foldl (reflTableStep crc64RocksoftReflTable) (~~~seed))

def crc64RocksoftNormBase (seed : BitVec 64) (buf : List UInt8) : BitVec 64 :=
  ~~~(buf.foldl (normTableStep crc64RocksoftNormTable) (~~~seed))

def crc16T10difRef (seed : BitVec 16) (buf : List UInt8) : BitVec 16 :=
  (buf.foldl (wideBitStep 16 0x8bb7) (seed.setWidth 64)).setWidth 16

def crc16T10difCopyRef (seed : BitVec 16) (dst : Arr UInt8) (src : List UInt8) :
    BitVec 16 × Arr UInt8 :=
  let s := copying (wideBitStep 16 0x8bb7) (seed.setWidth 64) dst src
  (s.crc.setWidth 16, s.dst)

def crc32IscsiRef (buffer : List UInt8) (crcInit : BitVec 32) : BitVec 32 :=
  buffer.foldl (reflBitStep 0x82F63B78) crcInit

def crc32IeeeRef (seed : BitVec 32) (buf : List UInt8) : BitVec 32 :=
  (~~~(buf.foldl (wideBitStep 32 0x04C11DB7) ((~~~seed).setWidth 64))).setWidth 32

def crc32GzipReflRef (seed : BitVec 32) (buf : List UInt8) : BitVec 32 :=
  (~~~(buf.foldl (reflBitStep (0xEDB88320 : BitVec 64)) ((~~~seed).setWidth 64))).setWidth 32

def crc64EcmaReflRef (seed : BitVec 64) (buf : List UInt8) : BitVec 64 :=
  ~~~(buf.foldl (reflBitStep 0xC96C5795D7870F42) (~~~seed))

def crc64EcmaNormRef (seed : BitVec 64) (buf : List UInt8) : BitVec 64 :=
  ~~~(buf.foldl (normBitStep 0x42F0E1EBA9EA3693) (~~~seed))

def crc64IsoReflRef (seed : BitVec 64) (buf : List UInt8) : BitVec 64 :=
  ~~~(buf.foldl (reflBitStep 0xD800000000000000) (~~~seed))

def crc64IsoNormRef (seed : BitVec 64) (buf : List UInt8) : BitVec 64 :=
  ~~~(buf.foldl (normBitStep 0x000000000000001B) (~~~seed))

def crc64JonesReflRef (seed : BitVec 64) (buf : List UInt8) : BitVec 64 :=
  ~~~(buf.foldl (reflBitStep 0x95ac9329ac4bc9b5) (~~~seed))

def crc64JonesNormRef (seed : BitVec 64) (buf : List UInt8) : BitVec 64 :=
  ~~~(buf.foldl (normBitStep 0xad93d23594c935a9) (~~~seed))

def crc64RocksoftReflRef (seed : BitVec 64) (buf : List UInt8) : BitVec 64 :=
  ~~~(buf.foldl (reflBitStep 0x9a6c9329ac4bc9b5) (~~~seed))

def crc64RocksoftNormRef (seed : BitVec 64) (buf : List UInt8) : BitVec 64 :=
  ~~~(buf.foldl (normBitStep 0xad93d23594c93659) (~~~seed))

/-- A table holds the remainders of all bytes. -/
def ReflTable (table : List Nat) (poly : BitVec w) : Prop :=
  ∀ i < 256, BitVec.ofNat w (table.getD i 0) = (shiftDown poly)^[8] (BitVec.ofNat w i)

def NormTable (table : List Nat) (poly : BitVec w) : Prop :=
  ∀ i < 256, BitVec.ofNat w (table.getD i 0) = (shiftUp poly)^[8] (BitVec.ofNat w i <<< (w - 8))

/-- The remainders are linear, so a table is right if it is made by XOR from eight of them. -/
def ReflMade (table : List Nat) (poly : BitVec w) : Prop :=
  table.map (BitVec.ofNat w) = byXor (fun i => (shiftDown poly)^[8] (BitVec.ofNat w i)) 8

def NormMade (table : List Nat) (poly : BitVec w) : Prop :=
  table.map (BitVec.ofNat w) =
    byXor (fun i => (shiftUp poly)^[8] (BitVec.ofNat w i <<< (w - 8))) 8

instance (table : List Nat) (poly : BitVec w) : Decidable (ReflMade table poly) :=
  inferInstanceAs (Decidable (_ = _))

instance (table : List Nat) (poly : BitVec w) : Decidable (NormMade table poly) :=
  inferInstanceAs (Decidable (_ = _))

theorem made_get {table : List Nat} {f : Nat → BitVec w} (linear : ∀ i j, f (i ^^^ j) = f i ^^^ f j)
    (made : table.map (BitVec.ofNat w) = byXor f 8) {i : Nat} (inside : i < 256) :
    BitVec.ofNat w (table.getD i 0) = f i := by
  have entry := byXor_get f linear 8 i inside
  rw [← made, List.getElem?_map] at entry
  obtain ⟨value, found, same⟩ := Option.map_eq_some_iff.mp entry
  rw [List.getD_eq_getElem?_getD, found, Option.getD_some, same]

theorem ReflMade.right {table : List Nat} {poly : BitVec w} (made : ReflMade table poly) :
    ReflTable table poly := by
  intro i inside
  apply made_get (f := fun i => (shiftDown poly)^[8] (BitVec.ofNat w i)) ?_ made inside
  intro i j
  rw [BitVec.ofNat_xor, iterate_xor fun _ _ => shiftDown_xor]

theorem NormMade.right {table : List Nat} {poly : BitVec w} (made : NormMade table poly) :
    NormTable table poly := by
  intro i inside
  apply made_get (f := fun i => (shiftUp poly)^[8] (BitVec.ofNat w i <<< (w - 8))) ?_ made inside
  intro i j
  rw [BitVec.ofNat_xor, BitVec.shiftLeft_xor_distrib, iterate_xor fun _ _ => shiftUp_xor]

theorem crc32Tables_made : NormMade crc16tab (0x8bb7 : BitVec 16) ∧
    ReflMade crc32TableIscsiRefl (0x82F63B78 : BitVec 32) ∧
    NormMade crc32TableIeeeNorm (0x04C11DB7 : BitVec 32) ∧
    ReflMade crc32TableGzipRefl (0xEDB88320 : BitVec 32) ∧
    ∀ entry ∈ crc32TableGzipRefl, entry < 2 ^ 32 := by
  decide +kernel

theorem crc64Tables_made : ReflMade crc64EcmaReflTable (0xC96C5795D7870F42 : BitVec 64) ∧
    NormMade crc64EcmaNormTable (0x42F0E1EBA9EA3693 : BitVec 64) ∧
    ReflMade crc64IsoReflTable (0xD800000000000000 : BitVec 64) ∧
    NormMade crc64IsoNormTable (0x000000000000001B : BitVec 64) ∧
    ReflMade crc64JonesReflTable (0x95ac9329ac4bc9b5 : BitVec 64) ∧
    NormMade crc64JonesNormTable (0xad93d23594c935a9 : BitVec 64) ∧
    ReflMade crc64RocksoftReflTable (0x9a6c9329ac4bc9b5 : BitVec 64) ∧
    NormMade crc64RocksoftNormTable (0xad93d23594c93659 : BitVec 64) := by
  decide +kernel

theorem widen_toNat (byte : UInt8) : (widen w byte).toNat < 256 := by
  rw [widen, BitVec.toNat_setWidth]
  exact Nat.lt_of_le_of_lt (Nat.mod_le _ _) byte.toNat_lt

theorem masked_toNat (c : BitVec w) : (c &&& 255).toNat < 256 := by
  rw [BitVec.toNat_and]
  apply Nat.lt_of_le_of_lt Nat.and_le_right
  change (BitVec.ofNat w 255).toNat < 256
  rw [BitVec.toNat_ofNat]
  exact Nat.lt_of_le_of_lt (Nat.mod_le _ _) (by decide)

/-- A byte step through a right table is eight bit steps. -/
theorem reflTableStep_eq {table : List Nat} {poly : BitVec w} (right : ReflTable table poly)
    (crc : BitVec w) (byte : UInt8) : reflTableStep table crc byte = reflBitStep poly crc byte := by
  have bound : ((crc &&& 255) ^^^ widen w byte).toNat < 256 := by
    rw [BitVec.toNat_xor]
    exact Nat.xor_lt_two_pow (n := 8) (masked_toNat crc) (widen_toNat byte)
  rw [reflTableStep, reflBitStep, shiftDown_byte, right _ bound, BitVec.ofNat_toNat, BitVec.setWidth_eq]

theorem normTableStep_eq {table : List Nat} {poly : BitVec w} (wide : 8 ≤ w)
    (right : NormTable table poly) (crc : BitVec w) (byte : UInt8) :
    normTableStep table crc byte = normBitStep poly crc byte := by
  rw [normTableStep, normBitStep, shiftUp_byte wide, right _ (masked_toNat _), BitVec.ofNat_toNat,
    BitVec.setWidth_eq]

theorem refl_fold {table : List Nat} {poly : BitVec w} (right : ReflTable table poly) (crc : BitVec w)
    (buf : List UInt8) : buf.foldl (reflTableStep table) crc = buf.foldl (reflBitStep poly) crc := by
  have step : reflTableStep table = reflBitStep poly := by
    funext crc byte
    exact reflTableStep_eq right crc byte
  rw [step]

theorem norm_fold {table : List Nat} {poly : BitVec w} (wide : 8 ≤ w) (right : NormTable table poly)
    (crc : BitVec w) (buf : List UInt8) :
    buf.foldl (normTableStep table) crc = buf.foldl (normBitStep poly) crc := by
  have step : normTableStep table = normBitStep poly := by
    funext crc byte
    exact normTableStep_eq wide right crc byte
  rw [step]

/-- The low bits of a remainder kept in a wider word. -/
theorem wideBitStep_setWidth {n : Nat} (byteWide : 8 ≤ n) (narrow : n < 64) (poly rem : BitVec 64)
    (byte : UInt8) : (wideBitStep n poly rem byte).setWidth n =
      normBitStep (poly.setWidth n) (rem.setWidth n) byte := by
  have placed : (widen 64 byte <<< (n - 8)).setWidth n = widen n byte <<< (n - 8) := by
    apply BitVec.eq_of_getLsbD_eq
    intro i inside
    simp only [widen, BitVec.getLsbD_setWidth, BitVec.getLsbD_shiftLeft, inside,
      show i < 64 by omega, show i - (n - 8) < 64 by omega, show i - (n - 8) < n by omega,
      decide_true, Bool.true_and]
  rw [wideBitStep, normBitStep, shiftWide_iterate (by omega) narrow, BitVec.setWidth_xor, placed]

theorem wide_fold {n : Nat} (byteWide : 8 ≤ n) (narrow : n < 64) (poly rem : BitVec 64)
    (buf : List UInt8) : (buf.foldl (wideBitStep n poly) rem).setWidth n =
      buf.foldl (normBitStep (poly.setWidth n)) (rem.setWidth n) :=
  (List.foldl_hom (fun rem : BitVec 64 => rem.setWidth n)
    fun rem byte => (wideBitStep_setWidth byteWide narrow poly rem byte).symm).symm

/-- A reflected remainder in a wider word is the remainder itself. -/
theorem refl_wide_fold (poly rem : BitVec 32) (buf : List UInt8) :
    buf.foldl (reflBitStep (poly.setWidth 64)) (rem.setWidth 64) =
      (buf.foldl (reflBitStep poly) rem).setWidth 64 := by
  apply List.foldl_hom (fun rem : BitVec 32 => rem.setWidth 64)
  intro rem byte
  have same : widen 64 byte = (widen 32 byte).setWidth 64 := by
    apply BitVec.eq_of_toNat_eq
    have small := byte.toNat_lt
    simp only [widen, BitVec.toNat_setWidth, UInt8.toNat_toBitVec]
    omega
  rw [reflBitStep, reflBitStep, same, ← BitVec.setWidth_xor, shiftDown_iterate (by decide)]

/-- A checksum function against its definition: equal results, and pieces in sequence. -/
structure Computes (base ref : BitVec w → List UInt8 → BitVec w) : Prop where
  equal : ∀ seed buf, base seed buf = ref seed buf
  composes : ∀ seed a b, base (base seed a) b = base seed (a ++ b)

/-- Without inversion the pieces are those of the fold. -/
theorem Computes.plain {step : BitVec w → UInt8 → BitVec w} {ref : BitVec w → List UInt8 → BitVec w}
    (equal : ∀ seed buf, buf.foldl step seed = ref seed buf) :
    Computes (fun seed buf => buf.foldl step seed) ref :=
  ⟨equal, fun _ _ _ => List.foldl_append.symm⟩

/-- The inversion after one piece is undone before the next. -/
theorem Computes.inverted {step : BitVec w → UInt8 → BitVec w}
    {ref : BitVec w → List UInt8 → BitVec w}
    (equal : ∀ seed buf, ~~~(buf.foldl step (~~~seed)) = ref seed buf) :
    Computes (fun seed buf => ~~~(buf.foldl step (~~~seed))) ref := by
  refine ⟨equal, fun seed a b => ?_⟩
  simp only [BitVec.not_not, List.foldl_append]

theorem Computes.refl {table : List Nat} {poly : BitVec w} (right : ReflTable table poly) :
    Computes (fun seed buf => ~~~(buf.foldl (reflTableStep table) (~~~seed)))
      fun seed buf => ~~~(buf.foldl (reflBitStep poly) (~~~seed)) :=
  .inverted fun _ _ => congrArg (~~~ ·) (refl_fold right _ _)

theorem Computes.norm {table : List Nat} {poly : BitVec w} (wide : 8 ≤ w)
    (right : NormTable table poly) :
    Computes (fun seed buf => ~~~(buf.foldl (normTableStep table) (~~~seed)))
      fun seed buf => ~~~(buf.foldl (normBitStep poly) (~~~seed)) :=
  .inverted fun _ _ => congrArg (~~~ ·) (norm_fold wide right _ _)

theorem crc16T10dif_computes : Computes crc16T10difBase crc16T10difRef := by
  apply Computes.plain
  intro seed buf
  rw [crc16T10difRef, wide_fold (by decide) (by decide), norm_fold (by decide) crc32Tables_made.1.right]
  rw [BitVec.setWidth_setWidth_of_le _ (by decide), BitVec.setWidth_eq]
  rfl

theorem crc32Iscsi_computes : Computes (fun seed buf => crc32IscsiBase buf seed)
    fun seed buf => crc32IscsiRef buf seed := by
  apply Computes.plain
  intro seed buf
  exact refl_fold crc32Tables_made.2.1.right seed buf

theorem crc32Ieee_computes : Computes crc32IeeeBase crc32IeeeRef := by
  apply Computes.inverted
  intro seed buf
  rw [crc32IeeeRef, BitVec.setWidth_not (by decide), wide_fold (by decide) (by decide),
    norm_fold (by decide) crc32Tables_made.2.2.1.right,
    BitVec.setWidth_setWidth_of_le _ (by decide), BitVec.setWidth_eq]
  rfl

theorem crc32GzipRefl_computes : Computes crc32GzipReflBase crc32GzipReflRef := by
  apply Computes.inverted
  intro seed buf
  have poly : (0xEDB88320 : BitVec 64) = (0xEDB88320 : BitVec 32).setWidth 64 := by decide
  rw [crc32GzipReflRef, poly, refl_wide_fold, BitVec.setWidth_not (by decide),
    BitVec.setWidth_setWidth_of_le _ (by decide), BitVec.setWidth_eq,
    refl_fold crc32Tables_made.2.2.2.1.right]

theorem crc64EcmaRefl_computes : Computes crc64EcmaReflBase crc64EcmaReflRef :=
  Computes.refl crc64Tables_made.1.right

theorem crc64EcmaNorm_computes : Computes crc64EcmaNormBase crc64EcmaNormRef :=
  Computes.norm (by decide) crc64Tables_made.2.1.right

theorem crc64IsoRefl_computes : Computes crc64IsoReflBase crc64IsoReflRef :=
  Computes.refl crc64Tables_made.2.2.1.right

theorem crc64IsoNorm_computes : Computes crc64IsoNormBase crc64IsoNormRef :=
  Computes.norm (by decide) crc64Tables_made.2.2.2.1.right

theorem crc64JonesRefl_computes : Computes crc64JonesReflBase crc64JonesReflRef :=
  Computes.refl crc64Tables_made.2.2.2.2.1.right

theorem crc64JonesNorm_computes : Computes crc64JonesNormBase crc64JonesNormRef :=
  Computes.norm (by decide) crc64Tables_made.2.2.2.2.2.1.right

theorem crc64RocksoftRefl_computes : Computes crc64RocksoftReflBase crc64RocksoftReflRef :=
  Computes.refl crc64Tables_made.2.2.2.2.2.2.1.right

theorem crc64RocksoftNorm_computes : Computes crc64RocksoftNormBase crc64RocksoftNormRef :=
  Computes.norm (by decide) crc64Tables_made.2.2.2.2.2.2.2.right

/-- What a copying loop computes besides the checksum. -/
theorem copying_eq {σ : Type} (step : σ → UInt8 → σ) (seed : σ) (dst : Arr UInt8) (src : List UInt8) :
    (copying step seed dst src).crc = src.foldl step seed ∧
    ∀ i, (copying step seed dst src).dst i = src.getD i (dst i) := by
  have loop (s : CopyState σ) (src : List UInt8) : ∀ e, e = src.foldl (fun s byte =>
      (⟨step s.crc byte, s.next + 1, s.dst.set s.next byte⟩ : CopyState σ)) s →
      e.crc = src.foldl step s.crc ∧
      ∀ i, e.dst i = if s.next ≤ i then src.getD (i - s.next) (s.dst i) else s.dst i := by
    induction src generalizing s with
    | nil =>
      rintro e rfl
      exact ⟨rfl, fun i => by simp⟩
    | cons byte src ih =>
      intro e last
      obtain ⟨crc, copied⟩ := ih _ e last
      refine ⟨crc, fun i => ?_⟩
      rw [copied i]
      simp only [Arr.set_get]
      rcases Nat.lt_trichotomy i s.next with before | here | after
      · rw [if_neg (by omega), if_neg (by omega), if_neg (by omega)]
      · rw [if_neg (by omega), if_pos here, if_pos (by omega), here, Nat.sub_self, List.getD_cons_zero]
      · rw [if_pos (by omega), if_neg (by omega), if_pos (by omega),
          show i - s.next = i - (s.next + 1) + 1 by omega, List.getD_cons_succ]
  obtain ⟨crc, copied⟩ := loop ⟨seed, 0, dst⟩ src _ rfl
  refine ⟨crc, fun i => ?_⟩
  rw [copying, copied i, if_pos (Nat.zero_le i), Nat.sub_zero]

/-- The copying variant has the checksum of the other and copies the whole buffer. -/
theorem crc16T10difCopyBase_eq (seed : BitVec 16) (dst : Arr UInt8) (src : List UInt8) :
    (crc16T10difCopyBase seed dst src).1 = crc16T10difBase seed src ∧
    ∀ i, (crc16T10difCopyBase seed dst src).2 i = src.getD i (dst i) :=
  copying_eq _ seed dst src

theorem crc16T10difCopyRef_eq (seed : BitVec 16) (dst : Arr UInt8) (src : List UInt8) :
    (crc16T10difCopyRef seed dst src).1 = crc16T10difRef seed src ∧
    ∀ i, (crc16T10difCopyRef seed dst src).2 i = src.getD i (dst i) := by
  obtain ⟨crc, copied⟩ := copying_eq (wideBitStep 16 0x8bb7) (seed.setWidth 64) dst src
  exact ⟨congrArg (BitVec.setWidth 16) crc, copied⟩

theorem crc16T10difCopy_equal (seed : BitVec 16) (dst : Arr UInt8) (src : List UInt8) :
    crc16T10difCopyBase seed dst src = crc16T10difCopyRef seed dst src := by
  obtain ⟨crc, copied⟩ := crc16T10difCopyBase_eq seed dst src
  obtain ⟨crcRef, copiedRef⟩ := crc16T10difCopyRef_eq seed dst src
  generalize crc16T10difCopyBase seed dst src = base at *
  generalize crc16T10difCopyRef seed dst src = ref at *
  obtain ⟨baseCrc, ⟨baseDst⟩⟩ := base
  obtain ⟨refCrc, ⟨refDst⟩⟩ := ref
  have sameCrc : baseCrc = refCrc :=
    crc.trans ((crc16T10dif_computes.equal seed src).trans crcRef.symm)
  have sameDst : baseDst = refDst := funext fun i => (copied i).trans (copiedRef i).symm
  rw [sameCrc, sameDst]

/-- The checksum that the wrappers of compressed streams use is the same function. -/
theorem crc32GzipRefl_toNat (seed : BitVec 32) (buf : List UInt8) :
    crc32GzipRefl seed.toNat buf = (crc32GzipReflBase seed buf).toNat := by
  have inverted (c : BitVec 32) : (~~~c).toNat = 2 ^ 32 - 1 ^^^ c.toNat := by
    rw [← BitVec.allOnes_xor, BitVec.toNat_xor, BitVec.toNat_allOnes]
  have entries (i : Nat) : crc32TableGzipRefl.getD i 0 < 2 ^ 32 := by
    rw [List.getD_eq_getElem?_getD]
    cases found : crc32TableGzipRefl[i]? with
    | none => exact Nat.two_pow_pos 32
    | some entry => exact crc32Tables_made.2.2.2.2 entry (List.mem_of_getElem? found)
  have fold : buf.foldl (fun crc byte =>
      (crc >>> 8) ^^^ crc32TableGzipRefl[(crc % 2 ^ 8) ^^^ byte.toNat]?.getD 0) (~~~seed).toNat =
      (buf.foldl (reflTableStep crc32TableGzipRefl) (~~~seed)).toNat := by
    apply List.foldl_hom (fun c : BitVec 32 => c.toNat)
    intro c byte
    have index : ((c &&& 255) ^^^ widen 32 byte).toNat = (c.toNat % 2 ^ 8) ^^^ byte.toNat := by
      have byteBound := byte.toNat_lt
      rw [BitVec.toNat_xor, BitVec.toNat_and, widen, BitVec.toNat_setWidth]
      change (c.toNat &&& 2 ^ 8 - 1) ^^^ byte.toNat % 2 ^ 32 = _
      rw [Nat.and_two_pow_sub_one_eq_mod, Nat.mod_eq_of_lt (show byte.toNat < 2 ^ 32 by omega)]
    rw [reflTableStep, index, BitVec.toNat_xor, BitVec.toNat_ushiftRight, BitVec.toNat_ofNat,
      Nat.mod_eq_of_lt (entries _), List.getD_eq_getElem?_getD]
  rw [crc32GzipRefl, crc32GzipReflBase, inverted, ← fold, inverted]

/-- Every base function computes what its reference defines, in one piece or in several. -/
theorem crc_base_computes :
    Computes crc16T10difBase crc16T10difRef ∧
    (∀ seed dst src, crc16T10difCopyBase seed dst src = crc16T10difCopyRef seed dst src) ∧
    (∀ seed dst dst' dst'' a b, (crc16T10difCopyBase (crc16T10difCopyBase seed dst a).1 dst' b).1 =
      (crc16T10difCopyBase seed dst'' (a ++ b)).1) ∧
    Computes (fun seed buf => crc32IscsiBase buf seed) (fun seed buf => crc32IscsiRef buf seed) ∧
    Computes crc32IeeeBase crc32IeeeRef ∧
    Computes crc32GzipReflBase crc32GzipReflRef ∧
    Computes crc64EcmaReflBase crc64EcmaReflRef ∧ Computes crc64EcmaNormBase crc64EcmaNormRef ∧
    Computes crc64IsoReflBase crc64IsoReflRef ∧ Computes crc64IsoNormBase crc64IsoNormRef ∧
    Computes crc64JonesReflBase crc64JonesReflRef ∧ Computes crc64JonesNormBase crc64JonesNormRef ∧
    Computes crc64RocksoftReflBase crc64RocksoftReflRef ∧
    Computes crc64RocksoftNormBase crc64RocksoftNormRef := by
  refine ⟨crc16T10dif_computes, crc16T10difCopy_equal, ?_, crc32Iscsi_computes, crc32Ieee_computes,
    crc32GzipRefl_computes, crc64EcmaRefl_computes, crc64EcmaNorm_computes, crc64IsoRefl_computes,
    crc64IsoNorm_computes, crc64JonesRefl_computes, crc64JonesNorm_computes,
    crc64RocksoftRefl_computes, crc64RocksoftNorm_computes⟩
  intro seed dst dst' dst'' a b
  have first := (crc16T10difCopyBase_eq seed dst a).1
  have second := (crc16T10difCopyBase_eq (crc16T10difCopyBase seed dst a).1 dst' b).1
  have whole := (crc16T10difCopyBase_eq seed dst'' (a ++ b)).1
  calc
    _ = crc16T10difBase (crc16T10difCopyBase seed dst a).1 b := second
    _ = crc16T10difBase (crc16T10difBase seed a) b := congrArg (crc16T10difBase · b) first
    _ = crc16T10difBase seed (a ++ b) := crc16T10dif_computes.composes seed a b
    _ = _ := whole.symm

end Isal.Checksum
