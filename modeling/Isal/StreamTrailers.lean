import Isal.StatelessSizes
import Isal.GzipRoundTrip
import Isal.TrailerRuns

/-! The trailer that a compressed stream ends with, which has the checksum that its formats define. -/
namespace Isal.Deflate
open Inflate Bits Checksum

/-- The checksum of a stream while it goes on is that of `data`, in the form that its format keeps it in. -/
structure Totals (gzipFlag crc : Nat) (data : List UInt8) : Prop where
  gzip : gzipFlag = gzip ∨ gzipFlag = gzipNoHdr → crc = crc32 data
  zlib : gzipFlag = zlib ∨ gzipFlag = zlibNoHdr → plain crc = Checksum.adler32 1 data ∧ crc % 2 ^ 16 < 65521

/-- The trailer behind `size` bytes of which the checksum is that of `data` -/
def trailerFor (gzipFlag : Nat) (data : List UInt8) (size : Nat) : List UInt8 :=
  if gzipFlag = gzip ∨ gzipFlag = gzipNoHdr then toLeBytes (crc32 data) 4 ++ toLeBytes size 4
  else if gzipFlag = zlib ∨ gzipFlag = zlibNoHdr then (toLeBytes (Rfc1950.adler32 1 0 data) 4).reverse
  else []

variable {s : StatelessStream} {data more : List UInt8} {gzipFlag crc size : Nat}

theorem Totals.start (gzipFlag : Nat) : Totals gzipFlag 0 [] where
  gzip := fun _ => rfl
  zlib := fun _ => ⟨by rw [adler32_eq]; rfl, by decide⟩

/-- The fields that a checksum leaves alone -/
theorem updateChecksum_frame (s : StatelessStream) (data : List UInt8) :
    updateChecksum s data = { s with crc := (updateChecksum s data).crc } := by
  rw [updateChecksum]
  split_ifs <;> rfl

/-- Without a wrapper there is no checksum to be computed. -/
theorem updateChecksum_ite (s : StatelessStream) (data : List UInt8) :
    (if s.gzipFlag ≠ 0 then updateChecksum s data else s) = updateChecksum s data := by
  by_cases wrapped : s.gzipFlag ≠ 0
  · exact if_pos wrapped
  · simp [updateChecksum, not_not.mp wrapped, Deflate.gzip, gzipNoHdr, Deflate.zlib, zlibNoHdr]

theorem Totals.append (sum : Totals s.gzipFlag s.crc data) (more : List UInt8) :
    Totals s.gzipFlag (updateChecksum s more).crc (data ++ more) := by
  constructor
  · intro flag
    rw [updateChecksum, if_pos flag]
    simp only [sum.gzip flag]
    rw [← crc32GzipRefl_eq, crc32GzipRefl_append, crc32GzipRefl_eq]
  · intro flag
    obtain ⟨same, stored⟩ := sum.zlib flag
    obtain ⟨next, stored'⟩ := isalAdler32Bam1_plain stored more
    have other : ¬ (s.gzipFlag = Deflate.gzip ∨ s.gzipFlag = gzipNoHdr) := by
      rcases flag with flag | flag <;> rw [flag] <;> decide
    rw [updateChecksum, if_neg other, if_pos flag]
    exact ⟨by rw [next, same, adler32_append], stored'⟩

/-- The trailer is that of the data. Of the size only the low 32 bits are in it. -/
theorem streamTrailer_eq (sum : Totals s.gzipFlag s.crc data) (total : s.totalIn ≡ size [MOD 2 ^ 32]) :
    streamTrailer s = trailerFor s.gzipFlag data size := by
  rw [streamTrailer, trailerFor]
  by_cases isGzip : s.gzipFlag = gzip ∨ s.gzipFlag = gzipNoHdr
  · have low : toLeBytes s.totalIn 4 = toLeBytes size 4 := by
      rw [← toLeBytes_mod s.totalIn, ← toLeBytes_mod size]
      exact congrArg (toLeBytes · 4) total
    rw [if_pos isGzip, if_pos isGzip, sum.gzip isGzip, low]
  · rw [if_neg isGzip, if_neg isGzip]
    by_cases isZlib : s.gzipFlag = zlib ∨ s.gzipFlag = zlibNoHdr
    · have low : (s.crc % 2 ^ 16 + 1) % 65521 < 2 ^ 16 := Nat.lt_trans (Nat.mod_lt _ (by decide)) (by decide)
      have joined : s.crc / 2 ^ 16 * 2 ^ 16 ||| (s.crc % 2 ^ 16 + 1) % adlerMod = plain s.crc := by
        rw [adlerMod, ← Nat.shiftLeft_eq, ← Nat.shiftLeft_add_eq_or_of_lt low, Nat.shiftLeft_eq]
        rfl
      rw [if_pos isZlib, if_pos isZlib, joined, (sum.zlib isZlib).1, adler32_eq]
      rfl
    · rw [if_neg isZlib, if_neg isZlib]

end Isal.Deflate
