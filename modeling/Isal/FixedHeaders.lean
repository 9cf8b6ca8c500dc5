import Isal.BlockHeader
import Isal.ReferenceRuns

/-! The block headers whose tables do not come from code lengths in the stream: the static
codes and the library's own dynamic header. -/
namespace Isal.Inflate

open Isal.Bits Isal.Loops Isal.PrefixCode Isal.Rfc1951 Isal.CountingSort

section Static

theorem fixed_lit_eq : fixedCodes.lit = (List.range 288).map staticLitLength := by decide +kernel

theorem fixed_lengthOf {i : Nat} (inside : i < 288) : lengthOf fixedCodes.lit i = staticLitLength i := by
  rw [fixed_lit_eq]
  simp [lengthOf, inside]

theorem fixed_lengths (i : Nat) : i < litLen + 2 → staticLitLength i = lengthOf fixedCodes.lit i :=
  fun inside => (fixed_lengthOf inside).symm

/-- The code lengths of the length entries of the static code. -/
def fixedKeys : List Nat :=
  List.replicate 8 7 ++ List.replicate 8 8 ++ List.replicate 16 9 ++ List.replicate 32 10 ++ List.replicate 48 11 ++
    List.replicate 16 12 ++ List.replicate 128 13 ++ [8]

/-- The counts in the tables of the static code are those of its lengths, with the length entries and without them. -/
theorem fixed_tables : (∀ n < 16, 1 ≤ n → staticLitCount[n]?.getD 0 = fixedCodes.lit.count n) ∧
    (lengthItems fixedCodes.lit 29).map (·.2) = fixedKeys ∧ ∀ n < 22, 1 ≤ n →
      ((if n ≤ 15 then staticLitCount[n]?.getD 0 else 0) + staticLitExpandCount[n]?.getD 0) % 2 ^ 16 =
        ((fixedCodes.lit.take 257).count n + fixedKeys.count n) % 2 ^ 16 := by decide +kernel

theorem fixed_counts : ∀ n < 16, 1 ≤ n → staticLitCount[n]?.getD 0 = fixedCodes.lit.count n := fixed_tables.1

theorem fixed_keys : (lengthItems fixedCodes.lit 29).map (·.2) = fixedKeys := fixed_tables.2.1

theorem fixed_keyCounts : ∀ n < 22, 1 ≤ n →
    ((if n ≤ 15 then staticLitCount[n]?.getD 0 else 0) + staticLitExpandCount[n]?.getD 0) % 2 ^ 16 =
      ((fixedCodes.lit.take 257).count n + fixedKeys.count n) % 2 ^ 16 := fixed_tables.2.2

theorem keyed_length (items : List (Nat × Nat)) (n : Nat) : (keyed items n).length = (items.map (·.2)).count n := by
  induction items with
  | nil => rfl
  | cons item items ih =>
    obtain ⟨a, key⟩ := item
    rw [keyed_cons, List.length_append, ih, List.map_cons, List.count_cons]
    by_cases same : key = n <;> simp [same, Nat.add_comm]

theorem fixed_expandCounts :
    ExpandCounts ⟨fun i => staticLitCount[i]?.getD 0⟩ ⟨fun i => staticLitExpandCount[i]?.getD 0⟩ fixedCodes.lit := by
  intro n low high
  rw [entryItems, keyed_append, List.length_append, keyed_symbolItems, if_neg (show ¬n = 0 by omega), keyed_length, fixed_keys]
  exact fixed_keyCounts n (by omega) low

theorem fixed_places : (start fixedCodes.lit 7 = 0 ∧ start fixedCodes.lit 8 = 48 ∧ start fixedCodes.lit 9 = 400) ∧
    (fixedCodes.lit.take 286).count 8 = 150 ∧ (fixedCodes.lit.take 287).count 8 = 151 ∧ fixedCodes.lit.count 7 = 24 := by
  decide +kernel

theorem fixed_start : start fixedCodes.lit 7 = 0 ∧ start fixedCodes.lit 8 = 48 ∧ start fixedCodes.lit 9 = 400 := fixed_places.1

theorem fixed_ranks : (fixedCodes.lit.take 286).count 8 = 150 ∧ (fixedCodes.lit.take 287).count 8 = 151 ∧
    fixedCodes.lit.count 7 = 24 := fixed_places.2

theorem staticLitLength_cases {i : Nat} (inside : i < 288) :
    staticLitLength i = 7 ∨ staticLitLength i = 8 ∨ staticLitLength i = 9 := by
  rw [staticLitLength]
  split_ifs <;> simp_all [litLen]

/-- The first seven bits of the reserved codewords occur in no other codeword. -/
theorem fixed_tops {s : Nat} (legal : s < 286) :
    codeOf fixedCodes.lit s / 2 ^ (lengthOf fixedCodes.lit s - 7) ≠ 99 := by
  have last : lengthOf fixedCodes.lit 286 = 8 := fixed_lengthOf (by decide)
  have inside : s < fixedCodes.lit.length := by rw [fixed_lit_eq]; simp; omega
  have kinds := staticLitLength_cases (show s < 288 by omega)
  rw [← fixed_lengthOf (by omega)] at kinds
  obtain ⟨start7, start8, start9⟩ := fixed_start
  obtain ⟨rank, -, sevens⟩ := fixed_ranks
  rcases kinds with seven | eight | nine
  · have upper := codeOf_lt (show lengthOf fixedCodes.lit s ≠ 0 by omega)
    rw [seven, start7, PrefixCode.count, if_neg (by decide), sevens] at upper
    rw [seven, Nat.sub_self, Nat.pow_zero, Nat.div_one]
    omega
  · have upper := rank_lt inside legal
    rw [codeOf, eight, start8]
    rw [eight, rank] at upper
    omega
  · rw [codeOf, nine, start9]
    omega

theorem fixed_reserved {t : Nat} (reserved : 286 ≤ t) {v : Nat} (next : Matches fixedCodes.lit t v) :
    v % 2 ^ 7 = 99 := by
  have inside := used_lt next.used
  rw [fixed_lit_eq, List.length_map, List.length_range] at inside
  obtain ⟨-, start8, -⟩ := fixed_start
  obtain ⟨rank, rank', -⟩ := fixed_ranks
  have low := next.low
  rw [codeOf] at low
  have eight : lengthOf fixedCodes.lit t = 8 := by
    rw [fixed_lengthOf inside]
    rcases (by omega : t = 286 ∨ t = 287) with rfl | rfl <;> rfl
  rw [eight, start8] at low
  have value : revBits 8 (48 + 150) = 99 ∧ revBits 8 (48 + 151) = 227 := by decide
  rcases (by omega : t = 286 ∨ t = 287) with rfl | rfl
  · rw [rank, value.1] at low
    omega
  · rw [rank', value.2] at low
    omega

theorem fixed_apart (s t : Nat) (bits : List Bool) (legal : s < 286) (reserved : 286 ≤ t)
    (inUse : lengthOf fixedCodes.lit s ≠ 0) (cut : bits <+: codeword fixedCodes.lit s) :
    ¬Matches fixedCodes.lit t (bitsVal bits) := by
  intro next
  have low := fixed_reserved reserved next
  have small := bitsVal_lt bits
  have seven : 7 ≤ bits.length := by
    by_contra short
    have := Nat.pow_le_pow_right (show 0 < 2 by decide) (show bits.length ≤ 6 by omega)
    omega
  have long : 7 ≤ lengthOf fixedCodes.lit s := by
    have := cut.length_le
    rw [codeword, msbBits_length] at this
    omega
  obtain ⟨-, value⟩ := prefix_iff.mp cut
  have top : revBits 7 (codeOf fixedCodes.lit s / 2 ^ (lengthOf fixedCodes.lit s - 7)) = 99 := by
    rw [← revBits_mod _ long, revBits, ← codeword, ← low, ← value, mod_mod_two_pow, Nat.min_eq_right seven]
  have bounded := fixed_legal.1.codeOf_lt_pow inUse
  have same : revBits 7 99 = 99 := by decide
  refine fixed_tops legal (revBits_inj ?_ (by decide) (top.trans same.symm))
  rw [Nat.div_lt_iff_lt_mul (Nat.two_pow_pos _), ← Nat.pow_add, Nat.add_sub_cancel' long]
  exact bounded

/-- The tables of the static codes. -/
theorem setupStaticHeader_spec {s : InflateState} {bits : List Bool}
    (views : Views s.toInStream (bitsVal bits) bits.length) :
    HeaderRead s distLen (.ok (.coded fixedCodes) bits) (setupStaticHeader s) := by
  have litLengths : HasLengths ⟨fun i => ⟨0, staticLitLength i⟩⟩ litLen fixedCodes.lit :=
    fun i small => fixed_lengths i (Nat.lt_add_right 2 small)
  have litCounts : Counts ⟨fun i => staticLitCount[i]?.getD 0⟩ fixedCodes.lit :=
    fun n low high => fixed_counts n (by omega) low
  have distLengths : HasLengths (.const ⟨0, 5⟩) (distLen + 2) fixedCodes.dist := by
    intro i small
    change 5 = lengthOf (List.replicate 32 5) i
    rw [lengthOf, List.getElem?_replicate, if_pos (show i < 32 from small)]
    rfl
  have distCounts : Counts ((Arr.const 0).set 5 32) fixedCodes.dist := by
    intro n _ _
    rw [Arr.set_get, fixedCodes, List.count_replicate]
    by_cases five : n = 5
    · simp [five]
    · simp [five, Ne.symm five]
  rw [setupStaticHeader]
  rcases setAndExpand_spec (litLen + 2) litLengths fixed_bounded litCounts fixed_expandCounts with
    ⟨-, excess⟩ | ⟨codes, found, litValid, sorted, expanded⟩
  · have := fixed_kraft.1
    omega
  rcases setCodes_spec distLengths (by decide) distCounts with ⟨-, excess⟩ | ⟨distHuff, found', distValid, canonical⟩
  · have := fixed_kraft.2
    omega
  simp only [found, found']
  refine .coded fixedCodes bits _ rfl ⟨litValid, distValid, ?_, ?_, fixed_apart⟩ views rfl rfl ⟨rfl, rfl⟩
  · intro t v n views loaded
    exact decodeNextLitLen_spec views loaded litValid sorted expanded singleSymFlag _
  · intro t v n views
    exact decodeNextDist_spec distValid canonical (by decide) distCounts views (by decide) _ _

end Static

section Stored

theorem align_eq (bits : List Bool) : align bits = .ok () (bits.drop (bits.length % 8)) := rfl

/-- The lengths of a stored block. -/
theorem readStoredHeader_spec {s : InflateState} {bits : List Bool}
    (views : Views s.toInStream (bitsVal bits) bits.length) (limit : Nat) :
    HeaderRead s limit (readStored bits) (readStoredHeader s) := by
  obtain ⟨views, loaded⟩ := views.load
  have kept : Kept s (s.withIn (inflateInLoad s.toInStream)) := ⟨rfl, inflateInLoad_buf s.toInStream⟩
  have bfinal : (s.withIn (inflateInLoad s.toInStream)).bfinal = s.bfinal := rfl
  rw [readStoredHeader]
  change Views (s.withIn (inflateInLoad s.toInStream)).toInStream _ _ at views
  change Loaded (s.withIn (inflateInLoad s.toInStream)).toInStream at loaded
  generalize s.withIn (inflateInLoad s.toInStream) = t at *
  rw [Loaded] at loaded
  have count := views.count
  have drained := views.drained
  have width := views.small
  have nonneg : 0 ≤ t.readInLength := by omega
  have offset : (t.readInLength % 8).toNat = bits.length % 8 := by omega
  dsimp only
  by_cases few : (t.readInLength / 8).toNat < 4
  · rw [if_pos few]
    refine .failed _ _ ?_ (Or.inl rfl) kept
    rw [readStored, bind_ok (align_eq bits)]
    by_cases enough : 16 ≤ (bits.drop (bits.length % 8)).length
    · rw [bind_ok (num_ok enough), bind_more (num_more (by simp at enough ⊢; omega))]
      exact fails_more
    · rw [bind_more (num_more (by omega))]
      exact fails_more
  rw [if_neg few, offset]
  have aligned := (views.consume (k := bits.length % 8) (by omega)).drop (by omega)
  have long : 32 ≤ (bits.drop (bits.length % 8)).length := by simp; omega
  have left : (t.readInLength / 8).toNat * 8 - 32 = t.readInLength - (bits.length % 8 : Nat) - 32 := by omega
  rw [left]
  have left' : 32 ≤ (t.consume (bits.length % 8)).readInLength := by simp; omega
  have parsed : readStored bits = (num 16 >>= fun len => num 16 >>= fun nlen =>
      (if len + nlen = 2 ^ 16 - 1 then pure (.stored len) else fail : Get Block)) (bits.drop (bits.length % 8)) := by
    rw [readStored, bind_ok (align_eq bits)]
  generalize bits.drop (bits.length % 8) = rest at aligned long parsed
  have len := aligned.peek (k := 16) (by omega)
  have nlen := (aligned.consume (k := 16) (by omega)).peek (k := 16) (by simp at left' ⊢; omega)
  have behind := (aligned.consume (k := 32) (by omega)).drop long
  rw [bind_ok (num_ok (by omega)), bind_ok (num_ok (by simp; omega)), List.drop_drop, bitsVal_drop] at parsed
  rw [consume_readIn] at len nlen
  rw [consume_readIn] at nlen
  rw [len, nlen]
  have small := Nat.mod_lt (bitsVal rest) (Nat.two_pow_pos 16)
  have small' := Nat.mod_lt (bitsVal rest / 2 ^ 16) (Nat.two_pow_pos 16)
  by_cases mismatch : bitsVal rest % 2 ^ 16 ≠ 2 ^ 16 - 1 - bitsVal rest / 2 ^ 16 % 2 ^ 16
  · rw [if_pos mismatch]
    refine .failed _ _ ?_ (Or.inr rfl) kept
    rw [parsed, if_neg (by omega)]
    exact fails_bad
  · rw [if_neg mismatch]
    refine .stored (bitsVal rest % 2 ^ 16) (rest.drop 32) _ ?_ rfl ?_ ?_ behind rfl bfinal kept
    · rw [parsed, if_pos (by omega)]
      rfl
    · change (8 : Int) ∣ t.readInLength - (bits.length % 8 : Nat) - 32
      omega
    · intro zero
      change t.readInLength - (bits.length % 8 : Nat) - 32 = 0 at zero
      exact behind.cleared (by simp; omega) (by simp; omega)

end Stored

section Pregen

/-- The bits of the library's own header behind its block type. -/
def hdrBits : List Bool := ((bytesBits deflateHdr).drop 3).take (8 * deflateHdrCount + deflateHdrExtraBits - 3)

/-- The codes of a header that has been read. -/
def codesOf : Parse Codes → Codes
  | .ok codes _ => codes
  | _ => fixedCodes

def readWhole : Parse Codes → Bool
  | .ok _ rest => rest.isEmpty
  | _ => false

theorem readWhole_eq {parsed : Parse Codes} (whole : readWhole parsed = true) : parsed = .ok (codesOf parsed) [] := by
  cases parsed with
  | ok codes rest => rw [List.isEmpty_iff.mp whole]; rfl
  | more => cases whole
  | bad => cases whole

/-- The codes that the library's own header describes. -/
def pregenCodes : Codes := codesOf (readDynamic hdrBits)

theorem hdrBits_whole : readWhole (readDynamic hdrBits) = true := by decide +kernel

theorem hdrBits_parsed : readDynamic hdrBits = .ok pregenCodes [] := readWhole_eq hdrBits_whole

theorem hdrBits_length : hdrBits.length = 883 := by decide +kernel

theorem pregenStart_views : Views pregenStart.toInStream (bitsVal ((bytesBits deflateHdr).drop 3))
    ((bytesBits deflateHdr).drop 3).length :=
  (readBits_views (views_initial deflateHdr) (show 3 ≤ 57 by decide)).2.drop (by simp [deflateHdr])

theorem pregenStart_bits : ∃ rest, (bytesBits deflateHdr).drop 3 = hdrBits ++ rest :=
  ⟨_, (List.take_append_drop _ _).symm⟩

/-- The tables of `static_inflate.h` are those of the two codes. -/
theorem pregen_tables : Tables pregenCodes distLen pregen.litHuffCode pregen.distHuffCode := by
  obtain ⟨rest, bits⟩ := pregenStart_bits
  have parsed : readDynamic ((bytesBits deflateHdr).drop 3) = .ok pregenCodes rest := by
    rw [bits]
    exact reader_readDynamic.ok (one_dvd _) hdrBits_parsed
  have read := readDynamicHeader_spec doubleSymFlag pregenStart_views
  rw [bind_ok parsed, pure_eq] at read
  rw [pregen]
  generalize pregenCodes = expected at read ⊢
  generalize readDynamicHeader doubleSymFlag pregenStart = result at read ⊢
  cases read with
  | coded codes rest s ok tables views state bfinal kept =>
    cases ok
    exact tables
  | stored length rest s ok count aligned clear views state bfinal kept => cases ok
  | failed s ret fails kind kept => exact absurd rfl (fails _ _)

/-- Equal low digits and equal rests. -/
theorem mod_split {v w a b : Nat} (low : v % 2 ^ a = w % 2 ^ a) (high : v / 2 ^ a % 2 ^ b = w / 2 ^ a % 2 ^ b) :
    v % 2 ^ (a + b) = w % 2 ^ (a + b) := by
  rw [Nat.pow_add, Nat.mod_mul, Nat.mod_mul, low, high]

/-- A field that lies within the bits that are left. -/
theorem field_mod {v n k m : Nat} (inside : k + m ≤ n) : v % 2 ^ n / 2 ^ k % 2 ^ m = v / 2 ^ k % 2 ^ m := by
  obtain ⟨d, rfl⟩ := Nat.exists_eq_add_of_le (show k ≤ n by omega)
  rw [Nat.pow_add, Nat.mod_mul_right_div_self, mod_mod_two_pow, Nat.min_eq_right (by omega)]

theorem hdrStash_eq {n : Nat} (small : n ≤ 61) :
    (bytesVal (deflateHdr.take 8) >>> 3) % 2 ^ n = bytesVal deflateHdr / 2 ^ 3 % 2 ^ n := by
  rw [bytesVal_take, Nat.shiftRight_eq_div_pow, field_mod (by omega)]

theorem bytesVal_head {bytes : List UInt8} {k n : Nat} (small : n ≤ 8) :
    bytesVal bytes / 2 ^ (8 * k) % 2 ^ n = (bytes[k]?.getD 0).toNat % 2 ^ n := by
  rw [← bytesVal_drop]
  by_cases inside : k < bytes.length
  · rw [List.drop_eq_getElem_cons inside, bytesVal_cons, List.getElem?_eq_getElem inside, Option.getD_some]
    have split : 256 = 2 ^ n * 2 ^ (8 - n) := by rw [← Nat.pow_add, Nat.add_sub_cancel' small]
    rw [split, Nat.mul_assoc, Nat.add_mul_mod_self_left]
  · rw [List.drop_of_length_le (by omega), List.getElem?_eq_none (by omega)]
    rfl

/-- The stream behind whole bytes that have been compared in place. -/
theorem Views.skipBytes {s : InStream} {v : Nat} {n : Int} (h : Views s v n) (k : Nat)
    (enough : k ≤ s.availIn) :
    Views { s with nextIn := s.nextIn + k, availIn := s.availIn - k, readInLength := 0, readIn := 0 }
      (v / 2 ^ s.readInLength.toNat / 2 ^ (8 * k)) (n - s.readInLength - 8 * k) where
  start := by have := h.start; simp only; omega
  inside := by have := h.start; have := h.inside; simp only; omega
  small := by simp
  count := by have := h.count; simp only; omega
  drained := by simp
  value := by
    have := h.start
    simp only [InStream.pending, Int.toNat_zero, Nat.pow_zero, Nat.div_one]
    rw [h.value, ← bytesVal_drop, InStream.pending, List.drop_take, List.drop_drop,
      show (s.nextIn + (k : Int)).toNat = s.nextIn.toNat + k by omega]
  buffered := ⟨0, by simp, by simp, by simp [Nat.mod_one]⟩

theorem bitsVal_hdrBits :
    bitsVal hdrBits = bytesVal deflateHdr / 2 ^ 3 % 2 ^ (8 * deflateHdrCount + deflateHdrExtraBits - 3) := by
  rw [hdrBits, bitsVal_take, bitsVal_drop, bitsVal_bytesBits]

/-- The comparison with the header in memory is one with its bits. -/
theorem headerMatchesPregen_spec {s inp : InStream} {bits : List Bool} (views : Views s (bitsVal bits) bits.length)
    (plenty : deflateHdrCount + 8 < s.availIn) (found : headerMatchesPregen s = some inp) :
    ∃ rest, bits = hdrBits ++ rest ∧ Views inp (bitsVal rest) rest.length ∧ inp.buf = s.buf := by
  have drained := views.drained
  have count := views.count
  have width := views.small
  have inside := views.inside
  simp only [deflateHdrCount] at plenty
  simp only [headerMatchesPregen] at found
  split at found
  · cases found
  rename_i stash
  split at found
  · cases found
  rename_i whole
  split at found
  · cases found
  rename_i bytes
  split at found
  · rename_i ends
    have nonneg : 0 ≤ s.readInLength := by omega
    obtain ⟨b, readBits⟩ : ∃ b, s.readInLength.toNat + 3 = 8 * b := ⟨(s.readInLength.toNat + 3) / 8, by omega⟩
    have bytesRead : (s.readInLength.toNat + 3) / 8 = b := by omega
    have width' : s.readInLength.toNat ≤ 61 := by omega
    simp only [bytesRead, deflateHdrCount, deflateHdrExtraBits] at found bytes ends stash
    have low : bitsVal bits % 2 ^ s.readInLength.toNat = bytesVal deflateHdr / 2 ^ 3 % 2 ^ s.readInLength.toNat := by
      rw [← views.peek (Or.inl (Int.toNat_of_nonneg nonneg).le), ← hdrStash_eq width']
      exact (not_not.mp stash).symm
    have behind : bytesVal deflateHdr / 2 ^ 3 / 2 ^ s.readInLength.toNat = bytesVal (deflateHdr.drop b) := by
      rw [Nat.div_div_eq_div_mul, ← Nat.pow_add, Nat.add_comm, readBits, bytesVal_drop]
    have middle : bitsVal bits / 2 ^ s.readInLength.toNat % 2 ^ (8 * (110 - b)) =
        bytesVal deflateHdr / 2 ^ 3 / 2 ^ s.readInLength.toNat % 2 ^ (8 * (110 - b)) := by
      rw [views.value, behind, ← bytesVal_take, ← bytesVal_take, InStream.pending, List.take_take,
        Nat.min_eq_left (by omega), not_not.mp bytes, List.drop_take]
    have high : bitsVal bits / 2 ^ s.readInLength.toNat / 2 ^ (8 * (110 - b)) % 2 ^ 6 =
        bytesVal deflateHdr / 2 ^ 3 / 2 ^ s.readInLength.toNat / 2 ^ (8 * (110 - b)) % 2 ^ 6 := by
      rw [views.value, behind, bytesVal_head (by decide), bytesVal_head (by decide), InStream.pending,
        List.getElem?_take, if_pos (by omega), List.getElem?_drop, List.getElem?_drop,
        show b + (110 - b) = 110 by omega]
      exact ends
    have total : s.readInLength.toNat + (8 * (110 - b) + 6) = 8 * deflateHdrCount + deflateHdrExtraBits - 3 := by
      simp only [deflateHdrCount, deflateHdrExtraBits]
      omega
    have skipped := views.skipBytes (110 - b) (by omega)
    have read := (readBits_views skipped (show 6 ≤ 57 by decide)).2
    have left : (bits.length : Int) - s.readInLength - 8 * (110 - b : Nat) - (6 : Nat) = bits.length - hdrBits.length := by
      rw [hdrBits_length]
      omega
    have long : hdrBits.length ≤ bits.length := by
      rw [hdrBits_length]
      omega
    have length : hdrBits.length = 8 * deflateHdrCount + deflateHdrExtraBits - 3 := hdrBits_length
    clear bytes ends stash
    have all := mod_split low (mod_split middle high)
    rw [total, ← bitsVal_hdrBits, ← length] at all
    obtain ⟨rest, rfl⟩ := prefix_iff.mpr ⟨long, all⟩
    cases found
    refine ⟨rest, rfl, ?_, readBits_buf _ _⟩
    rw [left, Nat.div_div_eq_div_mul, Nat.div_div_eq_div_mul, ← Nat.pow_add, ← Nat.pow_add, total,
      ← length] at read
    have dropped := Views.drop read long
    rwa [List.drop_left] at dropped
  · cases found

/-- The check for the library's own header, as `setup_dynamic_header` makes it. -/
def InStream.knownHeader (s : InStream) : Option InStream :=
  if deflateHdrCount + 8 < s.availIn then headerMatchesPregen s else none

theorem setupDynamicHeader_spec {s : InflateState} {bits : List Bool}
    (views : Views s.toInStream (bitsVal bits) bits.length) :
    HeaderRead s (if s.knownHeader = none then s.maxDist else distLen)
      ((readDynamic >>= fun codes => pure (.coded codes)) bits) (setupDynamicHeader s) := by
  rw [setupDynamicHeader]
  dsimp only
  rw [show (if deflateHdrCount + 8 < s.availIn then headerMatchesPregen s.toInStream else none) = s.knownHeader from rfl]
  cases known : s.knownHeader with
  | none => exact readDynamicHeader_spec _ views
  | some inp =>
    rw [InStream.knownHeader] at known
    split at known
    · rename_i plenty
      obtain ⟨rest, rfl, left, same⟩ := headerMatchesPregen_spec views plenty known
      have parsed : readDynamic (hdrBits ++ rest) = .ok pregenCodes rest :=
        reader_readDynamic.ok (one_dvd _) hdrBits_parsed
      have tables := pregen_tables
      rw [if_neg (Option.some_ne_none inp), bind_ok parsed, pure_eq]
      simp only [setupPregenHeader]
      generalize pregen = built at tables ⊢
      exact .coded pregenCodes rest _ rfl tables left rfl rfl ⟨rfl, same⟩
    · cases known

end Pregen

/-- The stream behind the three bits that open a block. -/
def behindKind (s : InStream) : InStream := (inflateInReadBits 2 (inflateInReadBits 1 s).2).2

/-- The next block gets tables that are kept ready: it is a static one or has the library's own header. -/
def InStream.takesReady (s : InStream) : Bool :=
  let (btype, s) := inflateInReadBits 2 (inflateInReadBits 1 s).2
  0 ≤ s.readInLength && (btype = 1 || btype = 2 && s.knownHeader.isSome)

/-- Where the distance table of the next block ends. -/
def InflateState.distLimit (s : InflateState) : Nat := if s.takesReady then distLen else s.maxDist

/-- What reading a block header gives, next to the reference decoder. -/
inductive BlockRead (start : InflateState) (bits : List Bool) : ReturnCode × InflateState → Prop
  | coded (final : Bool) (codes : Codes) (rest : List Bool) (s : InflateState)
      (ok : readBlock bits = .ok (final, .coded codes) rest)
      (tables : Tables codes start.distLimit s.litHuffCode s.distHuffCode)
      (views : Views s.toInStream (bitsVal rest) rest.length)
      (state : s.blockState = .coded) (bfinal : s.bfinal ≠ 0 ↔ final = true) (kept : Kept start s) :
      BlockRead start bits (.decompOk, s)
  | stored (final : Bool) (length : Nat) (rest : List Bool) (s : InflateState)
      (ok : readBlock bits = .ok (final, .stored length) rest)
      (count : s.count = length) (aligned : 8 ∣ s.readInLength) (clear : s.readInLength = 0 → s.readIn = 0)
      (views : Views s.toInStream (bitsVal rest) rest.length)
      (state : s.blockState = .type0) (bfinal : s.bfinal ≠ 0 ↔ final = true) (kept : Kept start s) :
      BlockRead start bits (.decompOk, s)
  | failed (s : InflateState) (ret : ReturnCode) (fails : Parse.Fails (readBlock bits))
      (kind : ret = .endInput ∨ ret = .invalidBlock) (kept : Kept start s) : BlockRead start bits (ret, s)

/-- A block whose kind has been read. -/
theorem HeaderRead.block {start s : InflateState} {limit final : Nat} {bits rest : List Bool}
    {read : Get Block} {r : ReturnCode × InflateState} (h : HeaderRead start limit (read rest) r)
    (behind : readBlock bits = (read >>= fun block => pure (decide (final = 1), block)) rest)
    (bfinal : start.bfinal = final) (bit : final < 2) (same : Kept s start) (within : limit = s.distLimit) :
    BlockRead s bits r := by
  have isFinal : start.bfinal ≠ 0 ↔ decide (final = 1) = true := by
    rw [bfinal, decide_eq_true_eq]
    omega
  cases h with
  | coded codes rest t ok tables views state same_ kept =>
    rw [bind_ok ok, pure_eq] at behind
    exact .coded _ codes rest t behind (within ▸ tables) views state (same_ ▸ isFinal)
      ⟨kept.1.trans same.1, kept.2.trans same.2⟩
  | stored length rest t ok count aligned clear views state same_ kept =>
    rw [bind_ok ok, pure_eq] at behind
    exact .stored _ length rest t behind count aligned clear views state (same_ ▸ isFinal)
      ⟨kept.1.trans same.1, kept.2.trans same.2⟩
  | failed t ret fails kind kept =>
    exact .failed t ret (behind ▸ bind_fails fails) kind ⟨kept.1.trans same.1, kept.2.trans same.2⟩

/-- `read_header` reads what the reference decoder reads. -/
theorem readHeader_spec {s : InflateState} {bits : List Bool} (views : Views s.toInStream (bitsVal bits) bits.length) :
    BlockRead s bits (readHeader s) := by
  have buf : (behindKind s.toInStream).buf = s.buf := by rw [behindKind, readBits_buf, readBits_buf]
  have within : s.distLimit =
      if 0 ≤ (behindKind s.toInStream).readInLength ∧ ((inflateInReadBits 2 (inflateInReadBits 1 s.toInStream).2).1 = 1 ∨
        (inflateInReadBits 2 (inflateInReadBits 1 s.toInStream).2).1 = 2 ∧
          (behindKind s.toInStream).knownHeader.isSome) then distLen else s.maxDist := by
    simp only [InflateState.distLimit, InStream.takesReady, behindKind, Bool.or_eq_true, Bool.and_eq_true, decide_eq_true_eq]
    congr
  simp only [readHeader]
  rw [behindKind] at buf within
  rcases readBits_num views (show 1 ≤ 57 by decide) with ⟨first, views⟩ | ⟨short, excess⟩
  · have bit := num_lt first
    generalize inflateInReadBits 1 s.toInStream = one at first views buf within bit ⊢
    rcases readBits_num views (show 2 ≤ 57 by decide) with ⟨second, views⟩ | ⟨short, excess⟩
    · have small := num_lt second
      generalize inflateInReadBits 2 one.2 = two at second views buf within small ⊢
      have behind : readBlock bits = (readKind two.1 >>= fun block => pure (decide (one.1 = 1), block)) ((bits.drop 1).drop 2) := by
        rw [readBlock, bind_ok first, bind_ok second]
      have nonneg : ¬two.2.readInLength < 0 := by rw [views.negative]; omega
      have kept : Kept s { s.withIn two.2 with bfinal := one.1 } := ⟨rfl, buf⟩
      change Views ({ s.withIn two.2 with bfinal := one.1 } : InflateState).toInStream _ _ at views
      change BlockRead s bits (if two.2.readInLength < 0 then _ else _)
      rw [if_neg nonneg]
      have bfinal : ({ s.withIn two.2 with bfinal := one.1 } : InflateState).bfinal = one.1 := rfl
      have maxDist : ({ s.withIn two.2 with bfinal := one.1 } : InflateState).maxDist = s.maxDist := rfl
      have inp : ({ s.withIn two.2 with bfinal := one.1 } : InflateState).toInStream = two.2 := rfl
      generalize ({ s.withIn two.2 with bfinal := one.1 } : InflateState) = t at views kept bfinal maxDist inp ⊢
      rw [readKind] at behind
      by_cases stored : two.1 = 0
      · rw [if_pos stored] at behind ⊢
        exact (readStoredHeader_spec views s.distLimit).block behind bfinal bit kept rfl
      rw [if_neg stored] at behind ⊢
      by_cases static : two.1 = 1
      · rw [if_pos static] at behind ⊢
        have read : HeaderRead t distLen ((pure (.coded fixedCodes) : Get Block) _) (setupStaticHeader t) :=
          setupStaticHeader_spec views
        exact read.block behind bfinal bit kept (by rw [within, if_pos ⟨Int.not_lt.mp nonneg, Or.inl static⟩])
      rw [if_neg static] at behind ⊢
      by_cases dynamic : two.1 = 2
      · rw [if_pos dynamic] at behind ⊢
        refine (setupDynamicHeader_spec views).block behind bfinal bit kept ?_
        rw [within, maxDist, inp]
        cases two.2.knownHeader <;> simp [dynamic, Int.not_lt.mp nonneg]
      · rw [if_neg dynamic] at behind ⊢
        exact .failed t .invalidBlock (behind ▸ fails_bad) (Or.inr rfl) kept
    · change BlockRead s bits (if (inflateInReadBits 2 one.2).2.readInLength < 0 then _ else _)
      rw [if_pos excess.negative]
      refine .failed _ _ ?_ (Or.inl rfl) ⟨rfl, buf⟩
      rw [readBlock, bind_ok first, bind_more short]
      exact fails_more
  · have below : (inflateInReadBits 2 (inflateInReadBits 1 s.toInStream).2).2.readInLength < 0 := by
      obtain ⟨v, n, views, negative⟩ := excess
      rw [(readBits_views views (show 2 ≤ 57 by decide)).2.negative]
      omega
    change BlockRead s bits (if (inflateInReadBits 2 (inflateInReadBits 1 s.toInStream).2).2.readInLength < 0 then _ else _)
    rw [if_pos below]
    refine .failed _ _ ?_ (Or.inl rfl) ⟨rfl, buf⟩
    rw [readBlock, bind_more short]
    exact fails_more

end Isal.Inflate
