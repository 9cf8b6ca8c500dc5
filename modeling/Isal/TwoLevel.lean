import Isal.Bits
import Isal.InflateTables

/-! What the two-level tables hold. The first level is built by doubling: an entry that
uses `n` bits is right for every index that agrees with it in the low `n` bits, so copying
forward keeps it right. Long codes are grouped by their first bits into regions of their own. -/
namespace Isal.Inflate

open Isal.Bits Isal.Loops

/-- The stream with value `v` begins with the code of entry `i`. -/
def Hit (table : Arr HuffCode) (i v : Nat) : Prop :=
  v % 2 ^ (table i).length = (table i).codeAndExtra

/-- `codeList` holds the entries in use in order of length, those of length `n` from
`countTotal n` on. -/
structure SortedCodes (codes : CodeSet) (used : Nat → Prop) (maxLen : Nat) : Prop where
  first : codes.countTotal 1 = 0
  mono : ∀ n, 1 ≤ n → n ≤ maxLen → codes.countTotal n ≤ codes.countTotal (n + 1)
  listed : ∀ n p, 1 ≤ n → n ≤ maxLen → codes.countTotal n ≤ p → p < codes.countTotal (n + 1) →
    used (codes.codeList p) ∧ (codes.table (codes.codeList p)).length = n
  found : ∀ i, used i → ∃ p, codes.countTotal (codes.table i).length ≤ p ∧
    p < codes.countTotal ((codes.table i).length + 1) ∧ codes.codeList p = i
  bounded : ∀ i, used i → 1 ≤ (codes.table i).length ∧ (codes.table i).length ≤ maxLen

structure PrefixFree (table : Arr HuffCode) (used : Nat → Prop) : Prop where
  small : ∀ i, used i → (table i).codeAndExtra < 2 ^ (table i).length
  apart : ∀ i j v, used i → used j → Hit table i v → Hit table j v → i = j

/-- `Good n v e`: entry `e` says what the low `n` bits of `v` begin with. -/
structure Encodes (fmt : TableFormat) (codes : CodeSet) (used : Nat → Prop)
    (encodeMore : Nat → Nat → Arr Nat → Arr Nat) (Good : Nat → Nat → Nat → Prop) : Prop where
  nonzero : ∀ {n v e}, Good n v e → e ≠ 0
  local_ : ∀ {n v w e}, Good n v e → v % 2 ^ n = w % 2 ^ n → Good n w e
  mono : ∀ {n m v e}, n ≤ m → Good n v e → Good m v e
  single : ∀ i, used i → (codes.table i).length ≤ fmt.directBits →
    ∃ e, fmt.shortEntry i (codes.table i).length = some e ∧
      ∀ v, Hit codes.table i v → Good (codes.table i).length v e
  more : ∀ first n short, 1 ≤ first → first ≤ n → n ≤ fmt.directBits →
    ∀ x, encodeMore first n short x = short x ∨ Good n x (encodeMore first n short x)

variable {fmt : TableFormat} {codes : CodeSet} {used : Nat → Prop} {maxLen : Nat}
  {encodeMore : Nat → Nat → Arr Nat → Arr Nat} {Good : Nat → Nat → Nat → Prop} {short : Arr Nat}

theorem hit_mod {table : Arr HuffCode} {i v w n : Nat} (h : Hit table i v) (enough : (table i).length ≤ n)
    (same : v % 2 ^ n = w % 2 ^ n) : Hit table i w := by
  rw [Hit] at h ⊢
  rw [← h, ← Nat.mod_mod_of_dvd w (Nat.pow_dvd_pow 2 enough), ← same,
    Nat.mod_mod_of_dvd _ (Nat.pow_dvd_pow 2 enough)]

namespace SortedCodes

theorem le (sorted : SortedCodes codes used maxLen) {m n : Nat} (low : 1 ≤ m) (h : m ≤ n)
    (high : n ≤ maxLen + 1) : codes.countTotal m ≤ codes.countTotal n := by
  induction n, h using Nat.le_induction with
  | base => exact Nat.le_refl _
  | succ n h ih => exact Nat.le_trans (ih (by omega)) (sorted.mono n (by omega) (by omega))

/-- Every position in the list belongs to a length. -/
theorem position (sorted : SortedCodes codes used maxLen) {m n p : Nat} (low : 1 ≤ m) (order : m ≤ n)
    (high : n ≤ maxLen + 1) (lower : codes.countTotal m ≤ p) (upper : p < codes.countTotal n) :
    used (codes.codeList p) ∧ m ≤ (codes.table (codes.codeList p)).length ∧
      (codes.table (codes.codeList p)).length < n := by
  induction n, order using Nat.le_induction with
  | base => omega
  | succ n order ih =>
    by_cases below : p < codes.countTotal n
    · have := ih (by omega) below
      exact ⟨this.1, this.2.1, by omega⟩
    · have := sorted.listed n p (by omega) (by omega) (by omega) upper
      exact ⟨this.1, by omega, by omega⟩

/-- A listed code lies where the codes of its length do. -/
theorem block (sorted : SortedCodes codes used maxLen) {p : Nat} (inside : p < codes.countTotal (maxLen + 1)) :
    let n := (codes.table (codes.codeList p)).length
    1 ≤ n ∧ n ≤ maxLen ∧ codes.countTotal n ≤ p ∧ p < codes.countTotal (n + 1) := by
  intro n
  have low : codes.countTotal 1 ≤ p := by rw [sorted.first]; exact Nat.zero_le _
  have le : 1 ≤ maxLen + 1 := by omega
  have length := (sorted.position (Nat.le_refl 1) le (Nat.le_refl _) low inside).2
  have lower : codes.countTotal n ≤ p := by
    by_contra below
    have := sorted.position (p := p) (m := 1) (n := n) (by omega) (by omega) (by omega) low (by omega)
    omega
  have upper : p < codes.countTotal (n + 1) := by
    by_contra above
    have := sorted.position (p := p) (m := n + 1) (n := maxLen + 1) (by omega) (by omega) (by omega) (by omega) inside
    omega
  exact ⟨by omega, by omega, lower, upper⟩

end SortedCodes

/-- The table agrees with `short` but for entries that are right for `n` bits. -/
def Wrote (Good : Nat → Nat → Nat → Prop) (n : Nat) (short t : Arr Nat) : Prop :=
  ∀ x, t x = short x ∨ Good n x (t x)

theorem Wrote.refl {n : Nat} : Wrote Good n short short := fun _ => Or.inl rfl

theorem Wrote.set {n i e : Nat} {t : Arr Nat} (h : Wrote Good n short t) (good : Good n i e) :
    Wrote Good n short (t.set i e) := by
  intro x
  rw [Arr.set_get]
  split
  · rename_i same; rw [same]; exact Or.inr good
  · exact h x

theorem Wrote.trans {n : Nat} {t u : Arr Nat} (h : Wrote Good n short t) (k : Wrote Good n t u) :
    Wrote Good n short u := by
  intro x
  rcases k x with same | good
  · rw [same]; exact h x
  · exact Or.inr good

theorem hit_code {table : Arr HuffCode} {i x : Nat} (h : Hit table i x) (small : x < 2 ^ (table i).length)
    (width : (table i).length ≤ 16) : (table i).code = x := by
  rw [HuffCode.code, ← h, Nat.mod_eq_of_lt small,
    Nat.mod_eq_of_lt (Nat.lt_of_lt_of_le small (Nat.pow_le_pow_right (by omega) width))]

theorem hit_self {table : Arr HuffCode} (free : PrefixFree table used) {i : Nat} (h : used i)
    (width : (table i).length ≤ 16) : Hit table i (table i).code := by
  have small := free.small i h
  rw [Hit, HuffCode.code, Nat.mod_eq_of_lt (Nat.lt_of_lt_of_le small (Nat.pow_le_pow_right (by omega) width)),
    Nat.mod_eq_of_lt small]

/-- What the first level holds before the codes of length `n` are written: the first
`2 ^ (n - 1)` entries are right and know every shorter code. -/
structure Filled (Good : Nat → Nat → Nat → Prop) (codes : CodeSet) (used : Nat → Prop) (n : Nat)
    (short : Arr Nat) : Prop where
  sound : ∀ x, x < 2 ^ (n - 1) → short x = 0 ∨ Good (n - 1) x (short x)
  complete : ∀ i, used i → (codes.table i).length < n → ∀ x, x < 2 ^ (n - 1) → Hit codes.table i x →
    short x ≠ 0

theorem Filled.copyForward {n : Nat} (h : Filled Good codes used n short)
    (encodes : Encodes fmt codes used encodeMore Good) (low : 1 ≤ n) :
    (∀ x, x < 2 ^ n → copyForward (2 ^ (n - 1)) short x = 0 ∨ Good n x (copyForward (2 ^ (n - 1)) short x)) ∧
      ∀ i, used i → (codes.table i).length < n → ∀ x, x < 2 ^ n → Hit codes.table i x →
        copyForward (2 ^ (n - 1)) short x ≠ 0 := by
  have double : 2 ^ n = 2 * 2 ^ (n - 1) := by rw [← Nat.pow_succ', Nat.succ_eq_add_one, Nat.sub_add_cancel low]
  have source : ∀ x, x < 2 ^ n → Inflate.copyForward (2 ^ (n - 1)) short x = short (x % 2 ^ (n - 1)) := by
    intro x small
    simp only [Inflate.copyForward]
    split
    · congr 1; rw [Nat.mod_eq_sub_mod (by omega), Nat.mod_eq_of_lt (by omega)]
    · rw [Nat.mod_eq_of_lt (by omega)]
  have inside : ∀ x, x % 2 ^ (n - 1) < 2 ^ (n - 1) := fun x => Nat.mod_lt _ (Nat.two_pow_pos _)
  constructor
  · intro x small
    rw [source x small]
    exact (h.sound _ (inside x)).imp id fun good =>
      encodes.mono (Nat.sub_le n 1) (encodes.local_ good (Nat.mod_mod _ _))
  · intro i inUse shorter x small hit
    rw [source x small]
    exact h.complete i inUse shorter _ (inside x) (hit_mod hit (by omega) (Nat.mod_mod _ _).symm)

section Short

/-- The loop over the codes of one length, by what its body does for a code that is used. -/
theorem encodeSingletons_eq (fmt : TableFormat) (codes : CodeSet) (n : Nat) (short : Arr Nat) :
    ∃ put : Nat → Arr Nat → Arr Nat,
      encodeSingletons fmt codes n short = forRange (codes.countTotal n) (codes.countTotal (n + 1)) put short ∧
      ∀ k t {entry}, fmt.shortEntry (codes.codeList k) (codes.table (codes.codeList k)).length = some entry →
        put k t = t.set (codes.table (codes.codeList k)).code entry :=
  ⟨_, rfl, fun k t entry h => by simp only [h]⟩

variable (sorted : SortedCodes codes used maxLen) (free : PrefixFree codes.table used)
  (encodes : Encodes fmt codes used encodeMore Good) (width : fmt.directBits ≤ 16)
  (direct : fmt.directBits ≤ maxLen)

include sorted free encodes width direct

variable (short) in
theorem encodeSingletons_spec {n : Nat} (low : 1 ≤ n) (high : n ≤ fmt.directBits) :
    Wrote Good n short (encodeSingletons fmt codes n short) ∧
      ∀ i, used i → (codes.table i).length = n → ∀ x, x < 2 ^ n → Hit codes.table i x →
        encodeSingletons fmt codes n short x ≠ 0 := by
  obtain ⟨put, unfolds, puts⟩ := encodeSingletons_eq fmt codes n short
  have round : ∀ k, codes.countTotal n ≤ k → k ≤ codes.countTotal (n + 1) →
      let t := forRange (codes.countTotal n) k put short
      Wrote Good n short t ∧
        ∀ p, codes.countTotal n ≤ p → p < k → t (codes.table (codes.codeList p)).code ≠ 0 := by
    intro k lower
    induction k, lower using Nat.le_induction with
    | base => exact fun _ => by rw [forRange_done (Nat.le_refl _)]; exact ⟨.refl, fun p _ _ => by omega⟩
    | succ k lower ih =>
      intro upper
      obtain ⟨wrote, covered⟩ := ih (by omega)
      obtain ⟨inUse, length⟩ := sorted.listed n k low (by omega) lower (by omega)
      obtain ⟨e, entry, good⟩ := encodes.single _ inUse (by omega)
      have good := good _ (hit_self free inUse (by omega))
      rw [length] at good
      simp only [forRange_last lower, puts _ _ entry]
      refine ⟨wrote.set good, fun p hp upto => ?_⟩
      rw [Arr.set_get]
      split
      · exact encodes.nonzero good
      · rename_i different
        exact covered p hp (by rcases Nat.lt_succ_iff_lt_or_eq.mp upto with h | h; exact h; simp [h] at different)
  obtain ⟨wrote, covered⟩ := round _ (sorted.mono n low (by omega)) (Nat.le_refl _)
  rw [unfolds]
  refine ⟨wrote, fun i inUse length x small hit => ?_⟩
  obtain ⟨p, lower, upper, listed⟩ := sorted.found i inUse
  have := covered p (by rwa [← length]) (by rwa [← length])
  rwa [listed, hit_code hit (by rwa [length]) (by omega)] at this

theorem Filled.round {n first : Nat} (h : Filled Good codes used n short) (low : 1 ≤ first) (order : first ≤ n)
    (high : n ≤ fmt.directBits) : Filled Good codes used (n + 1)
      (encodeMore first n (encodeSingletons fmt codes n (Inflate.copyForward (2 ^ (n - 1)) short))) := by
  obtain ⟨sound, complete⟩ := h.copyForward encodes (by omega)
  obtain ⟨singles, covered⟩ := encodeSingletons_spec (Inflate.copyForward (2 ^ (n - 1)) short)
    sorted free encodes width direct (by omega : 1 ≤ n) high
  have more := encodes.more first n
    (encodeSingletons fmt codes n (Inflate.copyForward (2 ^ (n - 1)) short)) low order high
  have wrote := singles.trans more
  constructor
  · intro x small
    rcases wrote x with same | good
    · rw [same]; exact sound x small
    · exact Or.inr good
  · intro i inUse length x small hit
    rw [Nat.add_sub_cancel] at small
    rcases more x with same | good
    · rw [same]
      rcases Nat.lt_or_eq_of_le (Nat.le_of_lt_succ length) with shorter | equal
      · rcases singles x with same | good
        · rw [same]; exact complete i inUse shorter x small hit
        · exact encodes.nonzero good
      · exact covered i inUse equal x small hit
    · exact encodes.nonzero good

variable (short) in
theorem fillShort_spec (some_ : 0 < codes.countTotal (maxLen + 1)) :
    Filled Good codes used (fmt.directBits + 1) (fillShort fmt codes encodeMore short) := by
  have start := sorted.position (p := 0) (Nat.le_refl 1) (by omega) (Nat.le_refl _)
    (by rw [sorted.first]) some_
  have shortest : ∀ i, used i → (codes.table (codes.codeList 0)).length ≤ (codes.table i).length := by
    intro i inUse
    by_contra shorter
    obtain ⟨p, lower, upper, -⟩ := sorted.found i inUse
    have bounded := sorted.bounded i inUse
    have := (sorted.position (p := 0) (m := 1) (n := (codes.table i).length + 1) (Nat.le_refl 1) (by omega)
      (by omega) (by rw [sorted.first]) (by omega)).2.2
    omega
  rw [fillShort]
  generalize hfirst : (if fmt.directBits < (codes.table (codes.codeList 0)).length then fmt.directBits + 1
    else (codes.table (codes.codeList 0)).length) = first
  have low : 1 ≤ first := by split at hfirst <;> omega
  have high : first ≤ fmt.directBits + 1 := by split at hfirst <;> omega
  have least : ∀ i, used i → first ≤ fmt.directBits → first ≤ (codes.table i).length := by
    intro i inUse _
    have := shortest i inUse
    split at hfirst <;> omega
  have run := forRange_invariant (a := first) (b := fmt.directBits + 1)
    (f := fun lastLength (s : Arr Nat × Nat) =>
      (encodeMore first lastLength (encodeSingletons fmt codes lastLength (Inflate.copyForward s.2 s.1)), s.2 * 2))
    (s := (short.fill 0 (1 <<< (first - 1)) 0, 1 <<< (first - 1)))
    (fun n s => s.2 = 2 ^ (n - 1) ∧ Filled Good codes used n s.1) high ?_ ?_
  · exact run.2
  · refine ⟨by simp [Nat.shiftLeft_eq], ?_, ?_⟩
    · intro x small
      left
      simp [Arr.fill_get, Nat.shiftLeft_eq, small]
    · intro i inUse shorter x small hit
      by_cases inTable : first ≤ fmt.directBits
      · have := least i inUse inTable
        omega
      · have := shortest i inUse
        split at hfirst <;> omega
  · rintro n ⟨t, size⟩ lower upper ⟨rfl, filled⟩
    refine ⟨?_, filled.round sorted free encodes width direct low lower (by omega)⟩
    simp only [Nat.add_sub_cancel, ← Nat.pow_succ, Nat.succ_eq_add_one]
    rw [Nat.sub_add_cancel (by omega)]

end Short

/-- What the second level asks of a format: codes of up to `maxLen` bits fit the field and
differ from the mark. -/
structure TableFormat.Lawful (fmt : TableFormat) (maxLen : Nat) : Prop where
  width : fmt.directBits ≤ 16
  direct : fmt.directBits < maxLen
  code_eq : ∀ h : HuffCode, h.codeAndExtra < 2 ^ maxLen → fmt.code h = h.codeAndExtra
  mark_length : ∀ h, (fmt.mark h).length = h.length
  mark_mark : ∀ h, fmt.mark (fmt.mark h) = fmt.mark h
  mark_code : ∀ h, fmt.code (fmt.mark h) = fmt.invalidCode
  invalid : 2 ^ maxLen ≤ fmt.invalidCode
  longer_eq : ∀ a b, a ≤ b → fmt.longer a b = b
  longEntry_ne : ∀ sym length, 0 < length → fmt.longEntry sym length ≠ 0

theorem fillStride_spec {offset size inc entry pos : Nat} {long : Arr Nat} (forward : 0 < inc) :
    (∀ y, pos ≤ y → y < size → (y - pos) % inc = 0 →
      fillStride offset size inc entry pos long (offset + y) = entry) ∧
    ∀ k, (∀ y, k = offset + y → pos ≤ y → y < size → (y - pos) % inc ≠ 0) →
      fillStride offset size inc entry pos long k = long k := by
  obtain ⟨j, done, -, -, written, kept⟩ := forNext_invariant (b := size) (s := long)
    (g := fun longBits long => (longBits + inc, long.set (offset + longBits) entry))
    (fun i t => pos ≤ i ∧ (i - pos) % inc = 0 ∧
      (∀ y, pos ≤ y → y < i → y < size → (y - pos) % inc = 0 → t (offset + y) = entry) ∧
      ∀ k, (∀ y, k = offset + y → pos ≤ y → y < size → (y - pos) % inc ≠ 0) → t k = long k)
    size pos (Nat.le_add_left ..) ⟨Nat.le_refl _, by simp, by omega, fun _ _ => rfl⟩ (by
      rintro i t inside ⟨low, stride, written, kept⟩
      refine ⟨by simp; omega, by simp; omega, ?_, ?_, ?_⟩
      · simp only [show i + inc - pos = i - pos + inc by omega, Nat.add_mod_right, stride]
      · intro y hy upto small multiple
        rw [Arr.set_get]
        split
        · rfl
        · refine written y hy ?_ small multiple
          -- two multiples of the stride that are less than it apart are equal
          by_contra beyond
          have gap : (y - pos) = (i - pos) + (y - i) := by omega
          rw [gap, Nat.add_mod, stride, Nat.zero_add, Nat.mod_mod, Nat.mod_eq_of_lt (by simp at upto; omega)] at multiple
          omega
      · intro k apart
        rw [Arr.set_other, kept k apart]
        rintro rfl
        exact apart i rfl low inside stride)
  exact ⟨fun y low small => written y low (by omega) small, kept⟩

theorem stride_iff {inc pos y : Nat} (h : pos < inc) : y % inc = pos ↔ pos ≤ y ∧ (y - pos) % inc = 0 := by
  constructor
  · rintro rfl
    exact ⟨Nat.mod_le .., by rw [Nat.sub_mod_eq_zero_of_mod_eq (Nat.mod_mod ..).symm]⟩
  · rintro ⟨low, multiple⟩
    rw [← Nat.sub_add_cancel low, Nat.add_mod, multiple, Nat.zero_add, Nat.mod_mod, Nat.mod_eq_of_lt h]

/-- Place `y` of a region belongs to the long code of entry `i`. -/
def Covers (fmt : TableFormat) (table : Arr HuffCode) (i y : Nat) : Prop :=
  y % 2 ^ ((table i).length - fmt.directBits) = (table i).codeAndExtra / 2 ^ fmt.directBits

/-- A long code in use. -/
structure Long (fmt : TableFormat) (codes : CodeSet) (used : Nat → Prop) (i : Nat) : Prop where
  used : used i
  long : fmt.directBits < (codes.table i).length

def firstBits (fmt : TableFormat) (codes : CodeSet) (i : Nat) : Nat :=
  (codes.table i).codeAndExtra % 2 ^ fmt.directBits

section Group

variable (lawful : fmt.Lawful maxLen) (sorted : SortedCodes codes used maxLen)
  (free : PrefixFree codes.table used)

include sorted free

theorem Long.small {i : Nat} (h : Long fmt codes used i) : (codes.table i).codeAndExtra < 2 ^ maxLen :=
  Nat.lt_of_lt_of_le (free.small i h.used) (Nat.pow_le_pow_right (by omega) (sorted.bounded i h.used).2)

include lawful

theorem Long.marked_ne {i : Nat} (h : Long fmt codes used i) : fmt.mark (codes.table i) ≠ codes.table i := by
  intro same
  have code := lawful.mark_code (codes.table i)
  rw [same, lawful.code_eq _ (h.small sorted free)] at code
  have := h.small sorted free
  have := lawful.invalid
  omega

omit lawful sorted free in
/-- Any other bit of the stream than the first ones is looked up in the region. -/
theorem Long.covers_iff {i v m : Nat} (h : Long fmt codes used i) (upTo : (codes.table i).length ≤ m)
    (same : v % 2 ^ fmt.directBits = firstBits fmt codes i) :
    Covers fmt codes.table i (v % 2 ^ m / 2 ^ fmt.directBits) ↔ Hit codes.table i v := by
  have long := h.long
  have high : v % 2 ^ m / 2 ^ fmt.directBits % 2 ^ ((codes.table i).length - fmt.directBits) =
      v % 2 ^ (codes.table i).length / 2 ^ fmt.directBits := by
    rw [← Nat.mod_mul_right_div_self, ← Nat.pow_add, Nat.add_sub_cancel' (by omega),
      Nat.mod_mod_of_dvd _ (Nat.pow_dvd_pow 2 upTo)]
  have low : v % 2 ^ (codes.table i).length % 2 ^ fmt.directBits =
      (codes.table i).codeAndExtra % 2 ^ fmt.directBits := by
    rw [Nat.mod_mod_of_dvd _ (Nat.pow_dvd_pow 2 (by omega)), same, firstBits]
  rw [Covers, high, Hit]
  constructor
  · intro quotient
    rw [← Nat.div_add_mod (v % _) (2 ^ fmt.directBits), quotient, low, Nat.div_add_mod]
  · intro equal; rw [equal]

/-- The body of `placeGroup`. -/
def placeCode (fmt : TableFormat) (offset maxLength : Nat) (s : LongState) (sym : Nat) : LongState :=
  placeGroup fmt offset maxLength [sym] s

omit lawful sorted free in
theorem placeGroup_cons (offset m sym : Nat) (group : List Nat) (s : LongState) :
    placeGroup fmt offset m (sym :: group) s = placeGroup fmt offset m group (placeCode fmt offset m s sym) := rfl

/-- After some codes of a group have been placed. -/
structure Placing (fmt : TableFormat) (codes : CodeSet) (offset m : Nat) (s₀ : LongState) (done : List Nat)
    (s : LongState) : Prop where
  short : s.lookup.short = s₀.lookup.short
  lookupLength : s.lookupLength = s₀.lookupLength
  marked : ∀ i ∈ done, s.table i = fmt.mark (s₀.table i)
  unmarked : ∀ i, i ∉ done → s.table i = s₀.table i
  outside : ∀ k, k < offset ∨ offset + 2 ^ (m - fmt.directBits) ≤ k → s.lookup.long k = s₀.lookup.long k
  inside : ∀ y, y < 2 ^ (m - fmt.directBits) →
    (∃ i ∈ done, s₀.table i = codes.table i ∧ Covers fmt codes.table i y ∧
      s.lookup.long (offset + y) = fmt.longEntry i (codes.table i).length) ∨
    (s.lookup.long (offset + y) = 0 ∧
      ∀ i ∈ done, s₀.table i = codes.table i → ¬Covers fmt codes.table i y)

theorem Placing.step {offset m sym : Nat} {s₀ s : LongState} {done : List Nat}
    (h : Placing fmt codes offset m s₀ done s) (long : Long fmt codes used sym)
    (upTo : (codes.table sym).length ≤ m) (bounded : m ≤ maxLen)
    (known : s₀.table sym = codes.table sym ∨ s₀.table sym = fmt.mark (codes.table sym)) :
    Placing fmt codes offset m s₀ (done ++ [sym]) (placeCode fmt offset m s sym) := by
  have forward : 0 < 1 <<< ((s.table sym).length - fmt.directBits) := by
    rw [Nat.one_shiftLeft]; exact Nat.two_pow_pos _
  have stride := @fillStride_spec offset (1 <<< (m - fmt.directBits))
    (1 <<< ((s.table sym).length - fmt.directBits)) (fmt.longEntry sym (s.table sym).length)
    (fmt.code (s.table sym) >>> fmt.directBits) s.lookup.long forward
  have length : (s.table sym).length = (codes.table sym).length := by
    have : (s₀.table sym).length = (codes.table sym).length := by
      rcases known with same | same <;> rw [same]
      exact lawful.mark_length _
    by_cases old : sym ∈ done
    · rw [h.marked sym old, lawful.mark_length, this]
    · rw [h.unmarked sym old, this]
  simp only [placeCode, placeGroup, List.foldl_cons, List.foldl_nil]
  generalize fillStride offset _ _ _ _ s.lookup.long = filled at stride
  rw [Nat.one_shiftLeft, Nat.one_shiftLeft, Nat.shiftRight_eq_div_pow, length] at stride
  obtain ⟨written, kept⟩ := stride
  have marked : ∀ i ∈ done ++ [sym], (s.table.set sym (fmt.mark (s.table sym))) i = fmt.mark (s₀.table i) := by
    intro i member
    rw [Arr.set_get]
    by_cases same : i = sym
    · subst same
      rw [if_pos rfl]
      by_cases old : i ∈ done
      · rw [h.marked i old, lawful.mark_mark]
      · rw [h.unmarked i old]
    · rw [if_neg same, h.marked i (by simpa [same] using member)]
  refine ⟨h.short, h.lookupLength, marked, ?_, ?_, ?_⟩
  · intro i fresh
    simp only [List.mem_append, List.mem_singleton, not_or] at fresh
    rw [Arr.set_other fresh.2, h.unmarked i fresh.1]
  · intro k out
    rw [← h.outside k out]
    exact kept k fun y hk _ small => by omega
  · intro y small
    by_cases genuine : sym ∉ done ∧ s₀.table sym = codes.table sym
    · -- the code itself: its places in the region are those that it covers
      have code : fmt.code (s.table sym) = (codes.table sym).codeAndExtra := by
        rw [h.unmarked sym genuine.1, genuine.2, lawful.code_eq _ (long.small sorted free)]
      have position : (codes.table sym).codeAndExtra / 2 ^ fmt.directBits <
          2 ^ ((codes.table sym).length - fmt.directBits) := by
        have := long.long
        rw [Nat.div_lt_iff_lt_mul (Nat.two_pow_pos _), ← Nat.pow_add, Nat.sub_add_cancel (by omega)]
        exact free.small sym long.used
      rw [code] at written kept
      by_cases covers : Covers fmt codes.table sym y
      · left
        refine ⟨sym, by simp, genuine.2, covers, ?_⟩
        obtain ⟨low, multiple⟩ := (stride_iff position).mp covers
        exact written y low small multiple
      · have same : filled (offset + y) = s.lookup.long (offset + y) := by
          refine kept _ fun y' hy low _ multiple => covers ?_
          obtain rfl : y = y' := by omega
          exact (stride_iff position).mpr ⟨low, multiple⟩
        simp only [same]
        rcases h.inside y small with ⟨i, member, rest⟩ | ⟨zero, none⟩
        · exact Or.inl ⟨i, by simp [member], rest⟩
        · refine Or.inr ⟨zero, fun i member known => ?_⟩
          rcases List.mem_append.mp member with member | member
          · exact none i member known
          · rw [List.mem_singleton.mp member]; exact covers
    · -- a mark: its places would be beyond the region
      have code : fmt.code (s.table sym) = fmt.invalidCode := by
        by_cases old : sym ∈ done
        · rw [h.marked sym old, lawful.mark_code]
        · have := known.resolve_left fun same => genuine ⟨old, same⟩
          rw [h.unmarked sym old, this, lawful.mark_code]
      have beyond : 2 ^ (m - fmt.directBits) ≤ fmt.invalidCode / 2 ^ fmt.directBits := by
        have := lawful.direct
        rw [Nat.le_div_iff_mul_le (Nat.two_pow_pos _), ← Nat.pow_add]
        exact Nat.le_trans (Nat.pow_le_pow_right (by omega) (by omega)) lawful.invalid
      have same : filled (offset + y) = s.lookup.long (offset + y) := by
        refine kept _ fun y' hy low small => ?_
        rw [code] at low
        omega
      simp only [same]
      rcases h.inside y small with ⟨i, member, rest⟩ | ⟨zero, none⟩
      · exact Or.inl ⟨i, by simp [member], rest⟩
      · refine Or.inr ⟨zero, fun i member unmarked => ?_⟩
        rcases List.mem_append.mp member with member | member
        · exact none i member unmarked
        · obtain rfl := List.mem_singleton.mp member
          exact none i (by_contra fun fresh => genuine ⟨fresh, unmarked⟩) unmarked

theorem Placing.group {offset m : Nat} {s₀ s : LongState} (group : List Nat) {done : List Nat}
    (h : Placing fmt codes offset m s₀ done s) (bounded : m ≤ maxLen)
    (long : ∀ i ∈ group, Long fmt codes used i) (upTo : ∀ i ∈ group, (codes.table i).length ≤ m)
    (known : ∀ i, used i → s₀.table i = codes.table i ∨ s₀.table i = fmt.mark (codes.table i)) :
    Placing fmt codes offset m s₀ (done ++ group) (placeGroup fmt offset m group s) := by
  induction group generalizing done s with
  | nil => simpa [placeGroup] using h
  | cons sym group ih =>
    have first := h.step lawful sorted free (long sym (by simp)) (upTo sym (by simp)) bounded
      (known sym (long sym (by simp)).used)
    rw [placeGroup_cons, List.append_cons]
    exact ih first (fun i member => long i (by simp [member])) (fun i member => upTo i (by simp [member]))

omit sorted free in
theorem collectGroup_spec (table : Arr HuffCode) (sym : Nat) (rest : List Nat)
    (ordered : (sym :: rest).Pairwise (fun i j => (table i).length ≤ (table j).length)) :
    (collectGroup fmt table sym rest).2 = sym :: rest.filter (fun j =>
        (table j).code % 2 ^ fmt.directBits = fmt.code (table sym) % 2 ^ fmt.directBits) ∧
      (∀ j ∈ (collectGroup fmt table sym rest).2, (table j).length ≤ (collectGroup fmt table sym rest).1) ∧
      ∃ j ∈ (collectGroup fmt table sym rest).2, (collectGroup fmt table sym rest).1 = (table j).length := by
  obtain ⟨first, ordered⟩ := List.pairwise_cons.mp ordered
  simp only [collectGroup]
  generalize fmt.code (table sym) % 2 ^ fmt.directBits = bits
  -- the longest length so far is that of a code before the rest of the list
  have fold : ∀ (rest : List Nat) (m : Nat) (group : List Nat),
      (∀ j ∈ rest, m ≤ (table j).length) → (∀ j ∈ group, (table j).length ≤ m) →
      (∃ j ∈ group, m = (table j).length) →
      rest.Pairwise (fun i j => (table i).length ≤ (table j).length) →
      let r := rest.foldl (fun (acc : Nat × List Nat) j =>
        if (table j).code % 2 ^ fmt.directBits = bits then
          (fmt.longer acc.1 (table j).length, acc.2 ++ [j]) else acc) (m, group)
      r.2 = group ++ rest.filter (fun j => (table j).code % 2 ^ fmt.directBits = bits) ∧
        (∀ j ∈ r.2, (table j).length ≤ r.1) ∧ ∃ j ∈ r.2, r.1 = (table j).length := by
    intro rest
    induction rest with
    | nil => intro m group _ upTo origin _; exact ⟨by simp, upTo, origin⟩
    | cons j rest ih =>
      intro m group above upTo origin ordered
      obtain ⟨next, ordered⟩ := List.pairwise_cons.mp ordered
      rw [List.foldl_cons]
      by_cases member : (table j).code % 2 ^ fmt.directBits = bits
      · rw [if_pos member, lawful.longer_eq _ _ (above j (by simp))]
        obtain ⟨list, longest, origin⟩ := ih (table j).length (group ++ [j]) next (by
          intro i hi
          rcases List.mem_append.mp hi with hi | hi
          · exact Nat.le_trans (upTo i hi) (above j (by simp))
          · rw [List.mem_singleton.mp hi]) ⟨j, by simp, rfl⟩ ordered
        exact ⟨by rw [list]; simp [member], longest, origin⟩
      · rw [if_neg member]
        obtain ⟨list, longest, origin⟩ := ih m group (fun i hi => above i (by simp [hi])) upTo origin ordered
        exact ⟨by rw [list]; simp [member], longest, origin⟩
  obtain ⟨list, longest, origin⟩ := fold rest (table sym).length [sym] first (by simp) (by simp) ordered
  exact ⟨by simpa using list, longest, origin⟩

end Group

/-- The region that the entry at `x` points to holds the long codes that begin with `x`;
`others` are the first bits that regions before it belong to. -/
structure Region (fmt : TableFormat) (codes : CodeSet) (used : Nat → Prop) (maxLen x : Nat)
    (lookup : LookupTable) (offset m : Nat) (others : List Nat) : Prop where
  pointer : lookup.short x = fmt.pointer offset m
  long : fmt.directBits < m
  bounded : m ≤ maxLen
  upTo : ∀ i, Long fmt codes used i → firstBits fmt codes i = x → (codes.table i).length ≤ m
  entry : ∀ y, y < 2 ^ (m - fmt.directBits) →
    (∃ i, Long fmt codes used i ∧ firstBits fmt codes i = x ∧ Covers fmt codes.table i y ∧
      lookup.long (offset + y) = fmt.longEntry i (codes.table i).length) ∨
    (lookup.long (offset + y) = 0 ∧
      ∀ i, Long fmt codes used i → firstBits fmt codes i = x → ¬Covers fmt codes.table i y)
  distinct : others.Nodup
  apart : x ∉ others
  prefixes : ∀ z ∈ others, ∃ i, Long fmt codes used i ∧ firstBits fmt codes i = z
  offset_le : offset ≤ 2 ^ (maxLen - fmt.directBits) * others.length

/-- Where `fillLong` stands: `rest` is still to be placed, `placed` are the first bits that
have got their region. -/
structure Filling (fmt : TableFormat) (codes : CodeSet) (used : Nat → Prop) (maxLen : Nat) (short : Arr Nat)
    (rest placed : List Nat) (s : LongState) : Prop where
  known : ∀ i, used i → s.table i = codes.table i ∨ s.table i = fmt.mark (codes.table i)
  pending : ∀ i, Long fmt codes used i → firstBits fmt codes i ∉ placed → i ∈ rest
  marked : ∀ i, Long fmt codes used i →
    (s.table i = fmt.mark (codes.table i) ↔ firstBits fmt codes i ∈ placed)
  distinct : placed.Nodup
  prefixes : ∀ z ∈ placed, ∃ i, Long fmt codes used i ∧ firstBits fmt codes i = z
  regions : ∀ x ∈ placed, ∃ offset m others, Region fmt codes used maxLen x s.lookup offset m others ∧
    offset + 2 ^ (m - fmt.directBits) ≤ s.lookupLength
  untouched : ∀ x, x ∉ placed → s.lookup.short x = short x
  length_le : s.lookupLength ≤ 2 ^ (maxLen - fmt.directBits) * placed.length

theorem Region.keep {x offset m bound : Nat} {others : List Nat} {lookup lookup' : LookupTable}
    (h : Region fmt codes used maxLen x lookup offset m others) (below : offset + 2 ^ (m - fmt.directBits) ≤ bound)
    (short : lookup'.short x = lookup.short x) (long : ∀ k, k < bound → lookup'.long k = lookup.long k) :
    Region fmt codes used maxLen x lookup' offset m others where
  pointer := by rw [short, h.pointer]
  long := h.long
  bounded := h.bounded
  upTo := h.upTo
  entry := by
    intro y small
    rw [long _ (by omega)]
    exact h.entry y small
  distinct := h.distinct
  apart := h.apart
  prefixes := h.prefixes
  offset_le := h.offset_le

section Long

variable (lawful : fmt.Lawful maxLen) (sorted : SortedCodes codes used maxLen)
  (free : PrefixFree codes.table used)

include lawful

theorem Filling.length_eq {rest placed : List Nat} {s : LongState}
    (h : Filling fmt codes used maxLen short rest placed s) {i : Nat} (inUse : used i) :
    (s.table i).length = (codes.table i).length := by
  rcases h.known i inUse with same | same <;> rw [same]
  exact lawful.mark_length _

include sorted free

/-- The group that is collected for an unmarked code: the codes with its first bits and
perhaps some marks. -/
structure Collected (fmt : TableFormat) (codes : CodeSet) (used : Nat → Prop) (s : LongState) (sym : Nat)
    (rest : List Nat) (m : Nat) (group : List Nat) : Prop where
  sublist : group.Sublist (sym :: rest)
  marks : ∀ i ∈ group, i = sym ∨ (s.table i).code % 2 ^ fmt.directBits = firstBits fmt codes sym
  upTo : ∀ i ∈ group, (codes.table i).length ≤ m
  reached : ∃ j ∈ group, m = (codes.table j).length
  whole : ∀ i, Long fmt codes used i → firstBits fmt codes i = firstBits fmt codes sym →
    i ∈ group ∧ s.table i = codes.table i
  genuine : ∀ i ∈ group, s.table i = codes.table i → firstBits fmt codes i = firstBits fmt codes sym

theorem Filling.collected {sym : Nat} {rest placed : List Nat} {s : LongState}
    (h : Filling fmt codes used maxLen short (sym :: rest) placed s)
    (long : ∀ i ∈ sym :: rest, Long fmt codes used i)
    (ordered : (sym :: rest).Pairwise (fun i j => (codes.table i).length ≤ (codes.table j).length))
    (fresh : s.table sym = codes.table sym) :
    fmt.code (s.table sym) % 2 ^ fmt.directBits = firstBits fmt codes sym ∧ firstBits fmt codes sym ∉ placed ∧
      Collected fmt codes used s sym rest (collectGroup fmt s.table sym rest).1
        (collectGroup fmt s.table sym rest).2 := by
  have symLong := long sym (by simp)
  have lengths : ∀ i ∈ sym :: rest, (s.table i).length = (codes.table i).length :=
    fun i member => h.length_eq lawful (long i member).used
  obtain ⟨list, longest, origin⟩ := collectGroup_spec lawful s.table sym rest (by
    refine ordered.imp_of_mem fun {i j} hi hj le => ?_
    rwa [lengths i hi, lengths j hj])
  generalize collectGroup fmt s.table sym rest = collected at list longest origin
  obtain ⟨m, group⟩ := collected
  dsimp only at list longest origin ⊢
  have code : ∀ i, Long fmt codes used i → fmt.code (codes.table i) = (codes.table i).codeAndExtra :=
    fun i hi => lawful.code_eq _ (hi.small sorted free)
  have shortCode : ∀ i, Long fmt codes used i →
      (codes.table i).code % 2 ^ fmt.directBits = firstBits fmt codes i := by
    intro i _
    rw [HuffCode.code, firstBits, Nat.mod_mod_of_dvd _ (Nat.pow_dvd_pow 2 lawful.width)]
  have bits : fmt.code (s.table sym) % 2 ^ fmt.directBits = firstBits fmt codes sym := by
    rw [fresh, code sym symLong, firstBits]
  rw [bits] at list
  have sublist : group.Sublist (sym :: rest) := by
    rw [list]
    exact List.filter_sublist.cons_cons sym
  have unplaced : firstBits fmt codes sym ∉ placed := fun old =>
    symLong.marked_ne lawful sorted free (((h.marked sym symLong).mpr old).symm.trans fresh)
  have marks : ∀ i ∈ group, i = sym ∨ (s.table i).code % 2 ^ fmt.directBits = firstBits fmt codes sym := by
    intro i inGroup
    rw [list] at inGroup
    rcases List.mem_cons.mp inGroup with same | inRest
    · exact Or.inl same
    · exact Or.inr (by simpa using (List.mem_filter.mp inRest).2)
  refine ⟨bits, unplaced, sublist, marks, ?_, ?_, ?_, ?_⟩
  · intro i member
    rw [← lengths i (sublist.subset member)]
    exact longest i member
  · obtain ⟨j, member, same⟩ := origin
    exact ⟨j, member, by rw [same, lengths j (sublist.subset member)]⟩
  · intro i hi same
    have notMarked : s.table i = codes.table i := (h.known i hi.used).resolve_right fun old =>
      unplaced (same ▸ (h.marked i hi).mp old)
    refine ⟨?_, notMarked⟩
    rw [list]
    rcases List.mem_cons.mp (h.pending i hi (same ▸ unplaced)) with rfl | inRest
    · simp
    · refine List.mem_cons_of_mem _ (List.mem_filter.mpr ⟨inRest, ?_⟩)
      simpa [notMarked, shortCode i hi] using same
  · -- a marked code may be collected again, but an unmarked one only by its first bits
    intro i inGroup notMarked
    rcases marks i inGroup with rfl | same
    · rfl
    · rwa [notMarked, shortCode i (long i (sublist.subset inGroup))] at same

/-- Placing the group of an unmarked code gives its first bits their region. -/
theorem Filling.group {sym : Nat} {rest placed : List Nat} {s : LongState}
    (h : Filling fmt codes used maxLen short (sym :: rest) placed s)
    (long : ∀ i ∈ sym :: rest, Long fmt codes used i)
    (ordered : (sym :: rest).Pairwise (fun i j => (codes.table i).length ≤ (codes.table j).length))
    (fresh : s.table sym = codes.table sym) :
    let m := (collectGroup fmt s.table sym rest).1
    let size := 1 <<< (m - fmt.directBits)
    let s' := placeGroup fmt s.lookupLength m (collectGroup fmt s.table sym rest).2
      { s with lookup := { s.lookup with long := s.lookup.long.fill s.lookupLength size 0 } }
    Filling fmt codes used maxLen short rest (firstBits fmt codes sym :: placed)
      { s' with
        lookup := { s'.lookup with
          short := s'.lookup.short.set (fmt.code (s.table sym) % 2 ^ fmt.directBits)
            (fmt.pointer s.lookupLength m) }
        lookupLength := s.lookupLength + size } := by
  have symLong := long sym (by simp)
  obtain ⟨bits, unplaced, collected⟩ := h.collected lawful sorted free long ordered fresh
  generalize collectGroup fmt s.table sym rest = group at collected
  obtain ⟨m, group⟩ := group
  dsimp only at collected ⊢
  obtain ⟨sublist, -, upTo, ⟨j, reached, longest⟩, member, genuine⟩ := collected
  rw [bits, Nat.one_shiftLeft]
  have subset : ∀ i ∈ group, i ∈ sym :: rest := fun i inGroup => sublist.subset inGroup
  have bounded : m ≤ maxLen := by
    rw [longest]
    exact (sorted.bounded j (long j (subset j reached)).used).2
  have start : Placing fmt codes s.lookupLength m s []
      { s with lookup := { s.lookup with
        long := s.lookup.long.fill s.lookupLength (2 ^ (m - fmt.directBits)) 0 } } :=
    { short := rfl, lookupLength := rfl, marked := by simp, unmarked := by simp
      outside := fun k out => by simp only [Arr.fill_get]; rw [if_neg (by omega)]
      inside := fun y small => Or.inr ⟨by simp only [Arr.fill_get]; rw [if_pos (by omega)], by simp⟩ }
  have placing := start.group lawful sorted free group bounded (fun i hi => long i (subset i hi)) upTo h.known
  rw [List.nil_append] at placing
  generalize placeGroup fmt s.lookupLength m group _ = s' at placing
  have regionLong : fmt.directBits < m := by
    have := upTo sym (member sym symLong rfl).1
    have := symLong.long
    omega
  constructor
  · intro i inUse
    by_cases inGroup : i ∈ group
    · right
      rw [placing.marked i inGroup]
      rcases h.known i inUse with same | same <;> simp only [same, lawful.mark_mark]
    · simp only [placing.unmarked i inGroup]
      exact h.known i inUse
  · intro i hi other
    rw [List.mem_cons, not_or] at other
    rcases List.mem_cons.mp (h.pending i hi other.2) with rfl | inRest
    · exact absurd rfl other.1
    · exact inRest
  · intro i hi
    rw [List.mem_cons]
    by_cases inGroup : i ∈ group
    · simp only [placing.marked i inGroup]
      rcases h.known i hi.used with same | same
      · simp [same, genuine i inGroup same]
      · simp [same, lawful.mark_mark, (h.marked i hi).mp same]
    · simp only [placing.unmarked i inGroup, h.marked i hi]
      constructor
      · exact Or.inr
      · rintro (same | old)
        · exact absurd (member i hi same).1 inGroup
        · exact old
  · exact List.nodup_cons.mpr ⟨unplaced, h.distinct⟩
  · intro z hz
    rcases List.mem_cons.mp hz with rfl | hz
    · exact ⟨sym, symLong, rfl⟩
    · exact h.prefixes z hz
  · intro x hx
    rcases List.mem_cons.mp hx with rfl | hx
    · refine ⟨s.lookupLength, m, placed, ?_, Nat.le_refl _⟩
      refine ⟨Arr.set_self, regionLong, bounded, fun i hi same => upTo i (member i hi same).1, ?_,
        h.distinct, unplaced, h.prefixes, h.length_le⟩
      intro y small
      rcases placing.inside y small with ⟨i, inGroup, notMarked, covers, entry⟩ | ⟨zero, none⟩
      · exact Or.inl ⟨i, long i (subset i inGroup), genuine i inGroup notMarked, covers, entry⟩
      · exact Or.inr ⟨zero, fun i hi same => none i (member i hi same).1 (member i hi same).2⟩
    · obtain ⟨offset, m', others, region, below⟩ := h.regions x hx
      refine ⟨offset, m', others, region.keep below ?_ ?_, Nat.le_trans below (Nat.le_add_right ..)⟩
      · simp only [Arr.set_other (show x ≠ firstBits fmt codes sym from fun same => unplaced (same ▸ hx)),
          placing.short]
      · intro k small
        exact placing.outside k (Or.inl small)
  · intro x other
    rw [List.mem_cons, not_or] at other
    simp only [Arr.set_other other.1, placing.short]
    exact h.untouched x other.2
  · have := h.length_le
    have : 2 ^ (m - fmt.directBits) ≤ 2 ^ (maxLen - fmt.directBits) :=
      Nat.pow_le_pow_right (by omega) (by omega)
    simp only [List.length_cons, Nat.mul_succ]
    omega

theorem Filling.skip {sym : Nat} {rest placed : List Nat} {s : LongState}
    (h : Filling fmt codes used maxLen short (sym :: rest) placed s) (symLong : Long fmt codes used sym)
    (mark : fmt.code (s.table sym) = fmt.invalidCode) : Filling fmt codes used maxLen short rest placed s := by
  have isMarked : s.table sym = fmt.mark (codes.table sym) := by
    refine (h.known sym symLong.used).resolve_left fun same => ?_
    rw [same, lawful.code_eq _ (symLong.small sorted free)] at mark
    have := symLong.small sorted free
    have := lawful.invalid
    omega
  refine { h with pending := fun i hi other => ?_ }
  rcases List.mem_cons.mp (h.pending i hi other) with rfl | inRest
  · exact absurd ((h.marked i hi).mp isMarked) other
  · exact inRest

omit sorted free in
theorem Filling.fresh {sym : Nat} {rest placed : List Nat} {s : LongState}
    (h : Filling fmt codes used maxLen short (sym :: rest) placed s) (symLong : Long fmt codes used sym)
    (notMark : fmt.code (s.table sym) ≠ fmt.invalidCode) : s.table sym = codes.table sym :=
  (h.known sym symLong.used).resolve_right fun same => notMark (by rw [same, lawful.mark_code])

theorem fillLong_spec (rest : List Nat) {placed : List Nat} {s : LongState}
    (h : Filling fmt codes used maxLen short rest placed s) (long : ∀ i ∈ rest, Long fmt codes used i)
    (ordered : rest.Pairwise (fun i j => (codes.table i).length ≤ (codes.table j).length)) :
    ∃ placed', Filling fmt codes used maxLen short [] placed' (fillLong fmt rest s) := by
  induction rest generalizing placed s with
  | nil => exact ⟨placed, h⟩
  | cons sym rest ih =>
    have symLong := long sym (by simp)
    have later := fun i member => long i (List.mem_cons_of_mem sym member)
    rw [fillLong]
    split
    · -- already placed along with an earlier code
      rename_i mark
      exact ih (h.skip lawful sorted free symLong mark) later ordered.of_cons
    · rename_i notMark
      have fresh := h.fresh lawful symLong notMark
      exact ih (h.group lawful sorted free long ordered fresh) later ordered.of_cons

/-- The codes that do not fit in the first level, in order of length. -/
def longCodeList (fmt : TableFormat) (codes : CodeSet) (codeListLen : Nat) : List Nat :=
  let index1 := codes.countTotal (fmt.directBits + 1)
  (List.range' index1 (codeListLen - index1)).map codes.codeList

omit free in
theorem mem_longCodeList {i : Nat} :
    i ∈ longCodeList fmt codes (codes.countTotal (maxLen + 1)) ↔ Long fmt codes used i := by
  have direct := lawful.direct
  have ends := sorted.le (m := fmt.directBits + 1) (n := maxLen + 1) (by omega) (by omega) (Nat.le_refl _)
  simp only [longCodeList, List.mem_map, List.mem_range'_1]
  constructor
  · rintro ⟨p, range, rfl⟩
    have := sorted.position (m := fmt.directBits + 1) (n := maxLen + 1) (by omega) (by omega) (Nat.le_refl _)
      range.1 (by omega)
    exact ⟨this.1, by omega⟩
  · intro hi
    obtain ⟨p, lower, upper, at_⟩ := sorted.found i hi.used
    have bounded := sorted.bounded i hi.used
    have := hi.long
    have := sorted.le (m := fmt.directBits + 1) (n := (codes.table i).length) (by omega) (by omega) (by omega)
    have := sorted.le (m := (codes.table i).length + 1) (n := maxLen + 1) (by omega) (by omega) (Nat.le_refl _)
    exact ⟨p, by omega, at_⟩

omit free in
theorem longCodeList_ordered : (longCodeList fmt codes (codes.countTotal (maxLen + 1))).Pairwise
    (fun i j => (codes.table i).length ≤ (codes.table j).length) := by
  have direct := lawful.direct
  have ends := sorted.le (m := fmt.directBits + 1) (n := maxLen + 1) (by omega) (by omega) (Nat.le_refl _)
  rw [longCodeList, List.pairwise_map]
  refine (List.pairwise_lt_range' (s := codes.countTotal (fmt.directBits + 1))).imp_of_mem ?_
  intro p q hp hq less
  rw [List.mem_range'_1] at hp hq
  have first := sorted.block (p := p) (by omega)
  have second := sorted.block (p := q) (by omega)
  by_contra shorter
  have := sorted.le (m := (codes.table (codes.codeList q)).length + 1) (n := (codes.table (codes.codeList p)).length)
    (by omega) (by omega) (by omega)
  omega

/-- Before the first code is placed. -/
theorem Filling.start (result : LookupTable) :
    Filling fmt codes used maxLen result.short (longCodeList fmt codes (codes.countTotal (maxLen + 1))) []
      ⟨codes.table, result, 0⟩ where
  known := fun _ _ => Or.inl rfl
  pending := fun i hi _ => (mem_longCodeList lawful sorted).mpr hi
  marked := fun i hi => by simp [(hi.marked_ne lawful sorted free).symm]
  distinct := List.nodup_nil
  prefixes := by simp
  regions := by simp
  untouched := fun _ _ => rfl
  length_le := Nat.zero_le _

/-- What the tables say about a stream with value `v`. -/
inductive Looks (fmt : TableFormat) (codes : CodeSet) (used : Nat → Prop) (Good : Nat → Nat → Nat → Prop)
    (maxLen : Nat) (lookup : LookupTable) (v : Nat) : Prop
  | direct (good : Good fmt.directBits v (lookup.short (v % 2 ^ fmt.directBits)))
  | missing (zero : lookup.short (v % 2 ^ fmt.directBits) = 0) (none : ∀ i, used i → ¬Hit codes.table i v)
  | pointed (offset m : Nat) (others : List Nat)
      (region : Region fmt codes used maxLen (v % 2 ^ fmt.directBits) lookup offset m others)
      (nonempty : ∃ i, Long fmt codes used i ∧ firstBits fmt codes i = v % 2 ^ fmt.directBits)
      (short : ∀ i, used i → Hit codes.table i v → Long fmt codes used i)

theorem makeInflateHuffCode_spec (encodes : Encodes fmt codes used encodeMore Good) (result : LookupTable)
    (v : Nat) :
    Looks fmt codes used Good maxLen
      (makeInflateHuffCode fmt codes (codes.countTotal (maxLen + 1)) encodeMore result) v := by
  have direct := lawful.direct
  have inside : v % 2 ^ fmt.directBits < 2 ^ fmt.directBits := Nat.mod_lt _ (Nat.two_pow_pos _)
  rw [makeInflateHuffCode]
  split
  · rename_i empty
    refine .missing (by simp [Arr.fill_get, inside]) fun i inUse => ?_
    obtain ⟨p, -, upper, -⟩ := sorted.found i inUse
    have bounded := sorted.bounded i inUse
    have := sorted.le (m := (codes.table i).length + 1) (n := maxLen + 1) (by omega) (by omega) (Nat.le_refl _)
    omega
  · rename_i nonempty
    have filled := fillShort_spec result.short sorted free encodes lawful.width (by omega)
      (Nat.pos_of_ne_zero nonempty)
    dsimp only
    generalize fillShort fmt codes encodeMore result.short = short at filled
    have long : ∀ i ∈ longCodeList fmt codes (codes.countTotal (maxLen + 1)), Long fmt codes used i :=
      fun i member => (mem_longCodeList lawful sorted).mp member
    obtain ⟨placed, filling⟩ := fillLong_spec lawful sorted free _
      (Filling.start lawful sorted free { result with short }) long (longCodeList_ordered lawful sorted)
    change Filling fmt codes used maxLen short [] placed (fillLong fmt ((List.range' _ _).map _) _) at filling
    generalize fillLong fmt ((List.range' _ _).map _) _ = s at filling
    have same : v % 2 ^ fmt.directBits % 2 ^ fmt.directBits = v % 2 ^ fmt.directBits := Nat.mod_mod ..
    by_cases pointed : v % 2 ^ fmt.directBits ∈ placed
    · obtain ⟨offset, m, others, region, -⟩ := filling.regions _ pointed
      have nonempty := filling.prefixes _ pointed
      refine .pointed offset m others region nonempty fun i inUse hit => ⟨inUse, ?_⟩
      by_contra direct_
      obtain ⟨j, hj, first⟩ := nonempty
      have hitSelf : Hit codes.table j (codes.table j).codeAndExtra := Nat.mod_eq_of_lt (free.small j hj.used)
      obtain rfl := free.apart i j _ inUse hj.used (hit_mod hit (by omega) first.symm) hitSelf
      exact direct_ hj.long
    · have entry := filling.untouched _ pointed
      rcases filled.sound _ inside with zero | good
      · refine .missing (by rw [entry, zero]) fun i inUse hit => ?_
        by_cases hlong : fmt.directBits < (codes.table i).length
        · have first : firstBits fmt codes i = v % 2 ^ fmt.directBits := by
            rw [firstBits, ← hit, Nat.mod_mod_of_dvd _ (Nat.pow_dvd_pow 2 (by omega))]
          simpa using filling.pending i ⟨inUse, hlong⟩ (first ▸ pointed)
        · exact filled.complete i inUse (by omega) _ inside (hit_mod hit (by omega) same.symm) zero
      · exact .direct (by rw [entry]; exact encodes.local_ good same)

end Long

end Isal.Inflate
