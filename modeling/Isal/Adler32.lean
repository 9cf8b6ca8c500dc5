import Isal.InflateWrapper
import Mathlib.Algebra.BigOperators.Intervals
import Mathlib.Data.Nat.ModEq

/-! Adler-32 as RFC 1950 defines it, and as it is computed: in words of 64 bits that are reduced once
for each block, and with the low half stored as one less. -/
namespace Isal

namespace Rfc1950

/-- The sum of all bytes -/
def s1 (start : Nat) (data : List UInt8) : Nat := (start + (data.map UInt8.toNat).sum) % 65521

/-- The sum of all values of `s1` -/
def s2 (start start' : Nat) (data : List UInt8) : Nat :=
  (start' + ∑ i ∈ Finset.range data.length, s1 start (data.take (i + 1))) % 65521

def adler32 (start start' : Nat) (data : List UInt8) : Nat := s2 start start' data * 65536 + s1 start data

end Rfc1950

namespace Checksum
open Inflate

/-- The loop over bytes in `adler32_base` with its accumulators of 64 bits -/
def adlerSums64 (buf : List UInt8) (sums : UInt64 × UInt64) : UInt64 × UInt64 :=
  buf.foldl (fun sums byte => (sums.1 + byte.toUInt64, sums.2 + (sums.1 + byte.toUInt64))) sums

def adlerBlocks64 : (rounds : Nat) → List UInt8 → UInt64 × UInt64 → UInt64 × UInt64
  | 0, buf, sums => adlerSums64 buf sums
  | rounds + 1, buf, sums =>
    if maxAdlerBuf < buf.length then
      let sums := adlerSums64 (buf.take maxAdlerBuf) sums
      adlerBlocks64 rounds (buf.drop maxAdlerBuf) (sums.1 % 65521, sums.2 % 65521)
    else adlerSums64 buf sums

def adlerHalves (adler32 : UInt32) : UInt64 × UInt64 := ((adler32 &&& 0xffff).toUInt64, (adler32 >>> 16).toUInt64)

def adler32Base (adler32 : UInt32) (start : List UInt8) : UInt32 :=
  let sums := adlerBlocks64 (start.length / maxAdlerBuf) start (adlerHalves adler32)
  (((sums.2 % 65521) <<< 16) ||| (sums.1 % 65521)).toUInt32

/-- No addition of the loop over bytes wraps around. -/
def SumsFit (buf : List UInt8) (sums : UInt64 × UInt64) : Prop :=
  ∀ front byte rest, buf = front ++ byte :: rest →
    let sums := adlerSums64 front sums
    sums.1.toNat + byte.toNat < 2 ^ 64 ∧ sums.2.toNat + (sums.1 + byte.toUInt64).toNat < 2 ^ 64

/-- None does before the end of `adler32_base`. -/
def BlocksFit : (rounds : Nat) → List UInt8 → UInt64 × UInt64 → Prop
  | 0, buf, sums => SumsFit buf sums
  | rounds + 1, buf, sums =>
    if maxAdlerBuf < buf.length then
      let next := adlerSums64 (buf.take maxAdlerBuf) sums
      SumsFit (buf.take maxAdlerBuf) sums ∧ BlocksFit rounds (buf.drop maxAdlerBuf) (next.1 % 65521, next.2 % 65521)
    else SumsFit buf sums

/-- Sums of words as sums of numbers -/
def wide (sums : UInt64 × UInt64) : Nat × Nat := (sums.1.toNat, sums.2.toNat)

section

variable {buf x y : List UInt8} {sums : Nat × Nat}

theorem adlerSums_cons (byte : UInt8) (buf : List UInt8) (sums : Nat × Nat) :
    adlerSums (byte :: buf) sums = adlerSums buf (sums.1 + byte.toNat, sums.2 + (sums.1 + byte.toNat)) := rfl

theorem adlerSums_append (x y : List UInt8) (sums : Nat × Nat) : adlerSums (x ++ y) sums = adlerSums y (adlerSums x sums) :=
  List.foldl_append

/-- The sums in closed form -/
theorem adlerSums_eq (buf : List UInt8) (sums : Nat × Nat) :
    adlerSums buf sums = (sums.1 + (buf.map UInt8.toNat).sum,
      sums.2 + ∑ i ∈ Finset.range buf.length, (sums.1 + ((buf.take (i + 1)).map UInt8.toNat).sum)) := by
  induction buf generalizing sums with
  | nil => simp [adlerSums]
  | cons byte buf ih =>
    rw [adlerSums_cons, ih, List.length_cons, Finset.sum_range_succ']
    simp only [List.map_cons, List.sum_cons, List.take_succ_cons, List.take_zero, List.map_nil, List.sum_nil, Nat.add_zero]
    refine Prod.ext (by omega) ?_
    dsimp only
    rw [Nat.add_assoc, Nat.add_comm (sums.1 + byte.toNat)]
    simp only [Nat.add_assoc]

/-- Between two reductions the sums stay within 64 bits. -/
theorem adlerSums_lt (short : buf.length ≤ maxAdlerBuf) (low : sums.1 < 2 ^ 16) (low' : sums.2 < 2 ^ 16) :
    (adlerSums buf sums).1 < 2 ^ 37 ∧ (adlerSums buf sums).2 < 2 ^ 64 := by
  have bytes : ∀ data : List UInt8, (data.map UInt8.toNat).sum ≤ 255 * data.length := by
    intro data
    induction data with
    | nil => rfl
    | cons byte data ih =>
      have := byte.toNat_lt
      rw [List.map_cons, List.sum_cons, List.length_cons]
      omega
  have first := bytes buf
  have second : ∑ i ∈ Finset.range buf.length, (sums.1 + ((buf.take (i + 1)).map UInt8.toNat).sum) ≤
      ∑ _i ∈ Finset.range buf.length, (2 ^ 16 + 255 * maxAdlerBuf) := by
    apply Finset.sum_le_sum
    intro i _
    have upTo := bytes (buf.take (i + 1))
    have := List.length_take_le (i + 1) buf
    have := List.length_take_le' (i + 1) buf
    omega
  rw [Finset.sum_const, Finset.card_range, smul_eq_mul] at second
  have total : buf.length * (2 ^ 16 + 255 * maxAdlerBuf) ≤ maxAdlerBuf * (2 ^ 16 + 255 * maxAdlerBuf) :=
    Nat.mul_le_mul_right _ short
  rw [adlerSums_eq]
  rw [maxAdlerBuf] at *
  constructor
  · dsimp only
    omega
  · dsimp only
    omega

theorem le_adlerSums (buf : List UInt8) (sums : Nat × Nat) :
    sums.1 ≤ (adlerSums buf sums).1 ∧ sums.2 ≤ (adlerSums buf sums).2 := by
  rw [adlerSums_eq]
  exact ⟨Nat.le_add_right .., Nat.le_add_right ..⟩

/-- Words that the sums fit in hold the sums. -/
theorem adlerSums64_wide {sums : UInt64 × UInt64} (fits : (adlerSums buf (wide sums)).1 < 2 ^ 64)
    (fits' : (adlerSums buf (wide sums)).2 < 2 ^ 64) :
    SumsFit buf sums ∧ wide (adlerSums64 buf sums) = adlerSums buf (wide sums) := by
  induction buf generalizing sums with
  | nil =>
    refine ⟨?_, rfl⟩
    intro front byte rest split
    simp at split
  | cons byte buf ih =>
    rw [adlerSums_cons] at fits fits' ⊢
    obtain ⟨upTo, upTo'⟩ := le_adlerSums buf ((wide sums).1 + byte.toNat, (wide sums).2 + ((wide sums).1 + byte.toNat))
    have first : sums.1.toNat + byte.toNat < 2 ^ 64 := by
      simp only [wide] at upTo fits
      omega
    have exact_ : (sums.1 + byte.toUInt64).toNat = sums.1.toNat + byte.toNat := by
      rw [UInt64.toNat_add, UInt8.toNat_toUInt64, Nat.mod_eq_of_lt first]
    have second : sums.2.toNat + (sums.1 + byte.toUInt64).toNat < 2 ^ 64 := by
      rw [exact_]
      simp only [wide] at upTo' fits'
      omega
    have next : wide (sums.1 + byte.toUInt64, sums.2 + (sums.1 + byte.toUInt64)) =
        ((wide sums).1 + byte.toNat, (wide sums).2 + ((wide sums).1 + byte.toNat)) := by
      refine Prod.ext exact_ ?_
      dsimp only [wide]
      rw [UInt64.toNat_add, Nat.mod_eq_of_lt second, exact_]
    rw [← next] at fits fits' ⊢
    obtain ⟨rest_, same⟩ := ih fits fits'
    refine ⟨?_, same⟩
    intro front byte' rest split
    cases front with
    | nil =>
      obtain ⟨rfl, -⟩ := List.cons.inj split
      exact ⟨first, second⟩
    | cons byte'' front =>
      obtain ⟨rfl, split'⟩ := List.cons.inj split
      exact rest_ front byte' rest split'

/-- The blocks, of which all but the last are of the greatest length -/
theorem adlerBlocks64_wide (buf : List UInt8) (sums : UInt64 × UInt64) (low : (wide sums).1 < 2 ^ 16) (low' : (wide sums).2 < 2 ^ 16)
    {rounds : Nat} (enough : buf.length / maxAdlerBuf ≤ rounds) :
    BlocksFit rounds buf sums ∧ wide (adlerBlocks64 rounds buf sums) = adlerBlocks rounds buf (wide sums) := by
  induction rounds generalizing buf sums with
  | zero =>
    have short : buf.length ≤ maxAdlerBuf := by
      rw [maxAdlerBuf] at *
      omega
    obtain ⟨fits, fits'⟩ := adlerSums_lt short low low'
    exact adlerSums64_wide (by omega) fits'
  | succ rounds ih =>
    rw [BlocksFit, adlerBlocks64, adlerBlocks]
    by_cases more : maxAdlerBuf < buf.length
    · rw [if_pos more, if_pos more, if_pos more]
      have short : (buf.take maxAdlerBuf).length ≤ maxAdlerBuf := List.length_take_le ..
      obtain ⟨fits, fits'⟩ := adlerSums_lt short low low'
      obtain ⟨first, same⟩ := adlerSums64_wide (by omega) fits'
      have reduced : wide ((adlerSums64 (buf.take maxAdlerBuf) sums).1 % 65521, (adlerSums64 (buf.take maxAdlerBuf) sums).2 % 65521) =
          ((adlerSums (buf.take maxAdlerBuf) (wide sums)).1 % adlerMod,
            (adlerSums (buf.take maxAdlerBuf) (wide sums)).2 % adlerMod) := by
        rw [← same]
        rfl
      have less : ∀ n, n % adlerMod < 2 ^ 16 := fun n => Nat.lt_trans (Nat.mod_lt _ (by decide)) (by decide)
      obtain ⟨others, same'⟩ := ih (buf.drop maxAdlerBuf) ((adlerSums64 (buf.take maxAdlerBuf) sums).1 % 65521,
        (adlerSums64 (buf.take maxAdlerBuf) sums).2 % 65521) (by rw [reduced]; exact less _) (by rw [reduced]; exact less _) (by
          rw [List.length_drop]
          rw [maxAdlerBuf] at *
          omega)
      refine ⟨⟨first, others⟩, ?_⟩
      rw [same', reduced]
    · rw [if_neg more, if_neg more, if_neg more]
      obtain ⟨fits, fits'⟩ := adlerSums_lt (Nat.le_of_not_lt more) low low'
      exact adlerSums64_wide (by omega) fits'

/-- Both sums have the same remainders. -/
def SameSums (sums sums' : Nat × Nat) : Prop := sums.1 ≡ sums'.1 [MOD 65521] ∧ sums.2 ≡ sums'.2 [MOD 65521]

theorem SameSums.adlerSums {sums sums' : Nat × Nat} (same : SameSums sums sums') (buf : List UInt8) :
    SameSums (adlerSums buf sums) (adlerSums buf sums') := by
  induction buf generalizing sums sums' with
  | nil => exact same
  | cons byte buf ih =>
    have first := same.1.add_right byte.toNat
    exact ih ⟨first, same.2.add first⟩

theorem SameSums.trans {sums sums' sums'' : Nat × Nat} (same : SameSums sums sums') (same' : SameSums sums' sums'') :
    SameSums sums sums'' :=
  ⟨same.1.trans same'.1, same.2.trans same'.2⟩

/-- Reductions in between change no remainder. -/
theorem adlerBlocks_same (rounds : Nat) (buf : List UInt8) (sums : Nat × Nat) :
    SameSums (adlerBlocks rounds buf sums) (adlerSums buf sums) := by
  induction rounds generalizing buf sums with
  | zero => exact ⟨rfl, rfl⟩
  | succ rounds ih =>
    rw [adlerBlocks]
    split
    · have reduced : SameSums ((adlerSums (buf.take maxAdlerBuf) sums).1 % adlerMod,
          (adlerSums (buf.take maxAdlerBuf) sums).2 % adlerMod) (adlerSums (buf.take maxAdlerBuf) sums) :=
        ⟨Nat.mod_modEq _ _, Nat.mod_modEq _ _⟩
      have whole := reduced.adlerSums (buf.drop maxAdlerBuf)
      rw [← adlerSums_append, List.take_append_drop] at whole
      exact (ih _ _).trans whole
    · exact ⟨rfl, rfl⟩

/-- The sums as they are defined, reduced at every step -/
theorem adlerSums_mod (buf : List UInt8) (sums : Nat × Nat) :
    (adlerSums buf sums).1 % 65521 = Rfc1950.s1 sums.1 buf ∧ (adlerSums buf sums).2 % 65521 = Rfc1950.s2 sums.1 sums.2 buf := by
  rw [adlerSums_eq]
  refine ⟨rfl, ?_⟩
  rw [Rfc1950.s2, Nat.add_mod, Nat.add_mod sums.2 (∑ i ∈ _, Rfc1950.s1 _ _)]
  simp only [Rfc1950.s1]
  rw [Finset.sum_nat_mod]

theorem adler32_eq (adler : Nat) (buf : List UInt8) : adler32 adler buf = Rfc1950.adler32 (adler % 2 ^ 16) (adler / 2 ^ 16) buf := by
  obtain ⟨first, second⟩ := adlerBlocks_same (buf.length / maxAdlerBuf) buf (adler % 2 ^ 16, adler >>> 16)
  obtain ⟨s1, s2⟩ := adlerSums_mod buf (adler % 2 ^ 16, adler >>> 16)
  have low : (adlerBlocks (buf.length / maxAdlerBuf) buf (adler % 2 ^ 16, adler >>> 16)).1 % 65521 < 2 ^ 16 :=
    Nat.lt_trans (Nat.mod_lt _ (by decide)) (by decide)
  rw [adler32]
  dsimp only [adlerMod]
  rw [← Nat.shiftLeft_add_eq_or_of_lt low, Nat.shiftLeft_eq, first, second, s1, s2, Nat.shiftRight_eq_div_pow]
  rfl

/-- The words of `adler32_base` hold the sums. -/
theorem adler32Base_toNat (adler : UInt32) (start : List UInt8) :
    BlocksFit (start.length / maxAdlerBuf) start (adlerHalves adler) ∧
      (adler32Base adler start).toNat = adler32 adler.toNat start := by
  have halves : wide (adlerHalves adler) = (adler.toNat % 2 ^ 16, adler.toNat >>> 16) := by
    refine Prod.ext ?_ ?_
    · dsimp only [wide, adlerHalves]
      rw [UInt32.toNat_toUInt64, UInt32.toNat_and]
      exact Nat.and_two_pow_sub_one_eq_mod adler.toNat 16
    · dsimp only [wide, adlerHalves]
      rw [UInt32.toNat_toUInt64, UInt32.toNat_shiftRight]
      rfl
  have below := adler.toNat_lt
  obtain ⟨fits, same⟩ := adlerBlocks64_wide start (adlerHalves adler) (by
      rw [halves]
      exact Nat.mod_lt _ (by decide)) (by
      rw [halves, Nat.shiftRight_eq_div_pow]
      dsimp only
      omega) (le_refl _)
  refine ⟨fits, ?_⟩
  rw [adler32, ← halves, ← same, adler32Base]
  dsimp only [wide, adlerMod]
  generalize adlerBlocks64 (start.length / maxAdlerBuf) start (adlerHalves adler) = sums
  have reduced : ∀ n : UInt64, (n % 65521).toNat = n.toNat % 65521 ∧ (n % 65521).toNat < 2 ^ 16 := fun n =>
    ⟨rfl, Nat.lt_trans (Nat.mod_lt _ (by decide)) (by decide)⟩
  have shifted : ((sums.2 % 65521) <<< 16).toNat = (sums.2.toNat % 65521) <<< 16 := by
    have less := (reduced sums.2).2
    rw [UInt64.toNat_shiftLeft, (reduced sums.2).1, Nat.shiftLeft_eq, Nat.shiftLeft_eq]
    rw [(reduced sums.2).1] at less
    apply Nat.mod_eq_of_lt
    have sixteen : (16 : UInt64).toNat % 64 = 16 := rfl
    rw [sixteen]
    omega
  rw [UInt64.toNat_toUInt32, UInt64.toNat_or, shifted, (reduced sums.1).1]
  apply Nat.mod_eq_of_lt
  have less := (reduced sums.2).2
  have less' := (reduced sums.1).2
  rw [(reduced sums.2).1] at less
  rw [(reduced sums.1).1] at less'
  rw [← Nat.shiftLeft_add_eq_or_of_lt less', Nat.shiftLeft_eq]
  omega

/-- A checksum goes on where it stopped. -/
theorem adler32_append (adler : Nat) (x y : List UInt8) : adler32 (adler32 adler x) y = adler32 adler (x ++ y) := by
  have halves : ∀ adler buf, (adler32 adler buf) % 2 ^ 16 = (adlerSums buf (adler % 2 ^ 16, adler / 2 ^ 16)).1 % 65521 ∧
      (adler32 adler buf) / 2 ^ 16 = (adlerSums buf (adler % 2 ^ 16, adler / 2 ^ 16)).2 % 65521 := by
    intro adler buf
    obtain ⟨first, second⟩ : (adlerSums buf (adler % 2 ^ 16, adler / 2 ^ 16)).1 % 65521 = Rfc1950.s1 (adler % 2 ^ 16) buf ∧
        (adlerSums buf (adler % 2 ^ 16, adler / 2 ^ 16)).2 % 65521 = Rfc1950.s2 (adler % 2 ^ 16) (adler / 2 ^ 16) buf :=
      adlerSums_mod buf _
    have low : Rfc1950.s1 (adler % 2 ^ 16) buf < 65521 := Nat.mod_lt _ (by decide)
    rw [first, second, adler32_eq, Rfc1950.adler32]
    omega
  obtain ⟨low, high⟩ := halves adler x
  have low' := (halves (adler32 adler x) y).1
  have high' := (halves (adler32 adler x) y).2
  obtain ⟨low'', high''⟩ := halves adler (x ++ y)
  have same : SameSums ((adler32 adler x) % 2 ^ 16, (adler32 adler x) / 2 ^ 16)
      (adlerSums x (adler % 2 ^ 16, adler / 2 ^ 16)) := by
    rw [low, high]
    exact ⟨Nat.mod_modEq _ _, Nat.mod_modEq _ _⟩
  obtain ⟨first, second⟩ := same.adlerSums y
  rw [← adlerSums_append] at first second
  rw [← Nat.div_add_mod (adler32 (adler32 adler x) y) (2 ^ 16), ← Nat.div_add_mod (adler32 adler (x ++ y)) (2 ^ 16), low', high',
    low'', high'', first, second]

/-- A stored checksum with the low half as it is defined -/
def plain (adler : Nat) : Nat := adler / 2 ^ 16 * 2 ^ 16 + (adler % 2 ^ 16 + 1) % 65521

theorem isalAdler32Bam1_plain {adler : Nat} (stored : adler % 2 ^ 16 < 65521) (buf : List UInt8) :
    plain (isalAdler32Bam1 adler buf) = adler32 (plain adler) buf ∧ isalAdler32Bam1 adler buf % 2 ^ 16 < 65521 := by
  have joined : ∀ high low, low < 2 ^ 16 → high * 2 ^ 16 ||| low = high * 2 ^ 16 + low := by
    intro high low small
    rw [← Nat.shiftLeft_eq, Nat.shiftLeft_add_eq_or_of_lt small]
  have start : adler / 2 ^ 16 * 2 ^ 16 ||| (if adler % 2 ^ 16 = adlerMod - 1 then 0 else adler % 2 ^ 16 + 1) = plain adler := by
    rw [plain, adlerMod]
    split
    · rw [joined _ _ (by decide)]
      omega
    · rw [joined _ _ (by omega)]
      omega
  have low : adler32 (plain adler) buf % 2 ^ 16 < 65521 := by
    have less : Rfc1950.s1 (plain adler % 2 ^ 16) buf < 65521 := Nat.mod_lt _ (by decide)
    rw [adler32_eq, Rfc1950.adler32]
    omega
  rw [isalAdler32Bam1]
  rw [start, adlerMod]
  generalize adler32 (plain adler) buf = sum at low ⊢
  split
  · rw [joined _ _ (by decide), plain]
    omega
  · rw [joined _ _ (by omega), plain]
    omega

/-- The chunks of a buffer one after the other -/
theorem foldl_isalAdler32Bam1 (adler : Nat) (stored : adler % 2 ^ 16 < 65521) (reduced : adler32 (plain adler) [] = plain adler)
    (chunks : List (List UInt8)) : plain (chunks.foldl isalAdler32Bam1 adler) = adler32 (plain adler) chunks.flatten := by
  induction chunks generalizing adler with
  | nil => exact reduced.symm
  | cons chunk chunks ih =>
    obtain ⟨same, stored'⟩ := isalAdler32Bam1_plain stored chunk
    rw [List.foldl_cons, List.flatten_cons, ih _ stored' (by rw [same, adler32_append, List.append_nil]), same, adler32_append]

end

/-- Adler-32 is as it is defined, for any initial value, and no word overflows. With the low half stored
as one less it can be computed over any chunks. -/
theorem adler32Base_rfc1950 :
    (∀ (adler : UInt32) (start : List UInt8), BlocksFit (start.length / maxAdlerBuf) start (adlerHalves adler) ∧
      (adler32Base adler start).toNat = Rfc1950.adler32 (adler.toNat % 2 ^ 16) (adler.toNat / 2 ^ 16) start ∧
      (adler32Base adler start).toNat = adler32 adler.toNat start) ∧
    ∀ (s : InflateState) (chunks : List (List UInt8)),
      (finalizeAdler32 { s with crc := chunks.foldl isalAdler32Bam1 0 }).crc = Rfc1950.adler32 1 0 chunks.flatten := by
  constructor
  · intro adler start
    obtain ⟨fits, same⟩ := adler32Base_toNat adler start
    exact ⟨fits, same.trans (adler32_eq _ _), same⟩
  · intro s chunks
    have whole := foldl_isalAdler32Bam1 0 (by decide) (by rw [adler32_eq]; rfl) chunks
    rw [adler32_eq] at whole
    have low : ∀ n, (n % 2 ^ 16 + 1) % 65521 < 2 ^ 16 := fun n => Nat.lt_trans (Nat.mod_lt _ (by decide)) (by decide)
    rw [finalizeAdler32]
    dsimp only
    rw [adlerMod, ← Nat.shiftLeft_eq, ← Nat.shiftLeft_add_eq_or_of_lt (low _), Nat.shiftLeft_eq]
    exact whole

end Checksum
end Isal
