import Isal.ExpandedCodes
import Isal.Rfc1951

/-! The tables of the literal/length code: a lookup finds up to three symbols, all but the
last of them literals, whose codewords and extra bits come next in the stream. -/
namespace Isal.Inflate

open Isal.Bits Isal.Loops Isal.PrefixCode

/-- The codes of the entries, one after the other, at the start of the stream `v`; they
take `n` bits. -/
inductive Chain (table : Arr HuffCode) (used : Nat → Prop) : List Nat → Nat → Nat → Prop
  | nil {v} : Chain table used [] v 0
  | cons {i is v n} (inUse : used i) (hit : Hit table i v)
      (rest : Chain table used is (v / 2 ^ (table i).length) n) :
      Chain table used (i :: is) v ((table i).length + n)

/-- Symbols in consecutive bytes. -/
def packed : List Nat → Nat
  | [] => 0
  | sym :: syms => sym ||| packed syms <<< 8

/-- An entry of the first level for the symbols of a chain. -/
structure LitGood (table : Arr HuffCode) (used : Nat → Prop) (n v e : Nat) : Prop where
  chain : ∃ is total, Chain table used is v total ∧ is ≠ [] ∧ is.length ≤ 3 ∧ total ≠ 0 ∧ total ≤ n ∧ total ≤ 12 ∧
    (∀ i ∈ is.dropLast, indexToSym i < 256) ∧ packed (is.map indexToSym) < 2 ^ 25 ∧
    e = packed (is.map indexToSym) ||| total <<< 28 ||| is.length <<< 26

variable {table : Arr HuffCode} {used : Nat → Prop} {codes : CodeSet}

theorem Chain.of_mod {is : List Nat} {v w n m : Nat} (h : Chain table used is v n) (enough : n ≤ m)
    (same : v % 2 ^ m = w % 2 ^ m) : Chain table used is w n := by
  induction h generalizing w m with
  | nil => exact .nil
  | @cons i is v n inUse hit rest ih =>
    refine .cons inUse (hit_mod hit (by omega) same) (ih (m := m - (table i).length) (by omega) ?_)
    have split : ∀ x : Nat, x / 2 ^ (table i).length % 2 ^ (m - (table i).length) =
        x % 2 ^ m / 2 ^ (table i).length := fun x => by
      rw [← Nat.mod_mul_right_div_self, ← Nat.pow_add, Nat.add_sub_cancel' (by omega)]
    rw [split, split, same]

theorem LitGood.fields {n v e : Nat} (h : LitGood table used n v e) :
    ∃ is, Chain table used is v (e >>> 28) ∧ is ≠ [] ∧ is.length ≤ 3 ∧ e >>> 28 ≠ 0 ∧ e >>> 28 ≤ n ∧
      e >>> 28 ≤ 12 ∧ (∀ i ∈ is.dropLast, indexToSym i < 256) ∧ e.testBit 25 = false ∧
      e % 2 ^ 25 = packed (is.map indexToSym) ∧ (e >>> 26) % 2 ^ 2 = is.length := by
  obtain ⟨is, total, chain, some_, three, positive, upTo, short, literals, small, rfl⟩ := h
  have value : packed (is.map indexToSym) ||| total <<< 28 ||| is.length <<< 26 =
      packed (is.map indexToSym) + is.length * 2 ^ 26 + total * 2 ^ 28 := by
    have low := or_shiftLeft (b := is.length) (show packed (is.map indexToSym) < 2 ^ 26 by omega)
    rw [Nat.or_assoc, Nat.or_comm (total <<< 28), ← Nat.or_assoc, low, or_shiftLeft (by omega)]
  rw [value]
  have length : (packed (is.map indexToSym) + is.length * 2 ^ 26 + total * 2 ^ 28) >>> 28 = total := by
    rw [Nat.shiftRight_eq_div_pow]; omega
  rw [length]
  refine ⟨is, chain, some_, three, positive, upTo, short, literals, ?_, by omega, ?_⟩
  · rw [Nat.testBit_eq_decide_div_mod_eq, decide_eq_false_iff_not]; omega
  · rw [Nat.shiftRight_eq_div_pow]; omega

theorem litLenFormat_lawful : litLenFormat.Lawful 21 where
  width := by decide
  direct := by decide
  code_eq _ _ := rfl
  mark_length _ := rfl
  mark_mark _ := rfl
  mark_code _ := rfl
  invalid := by decide
  longer_eq _ _ _ := rfl
  longEntry_ne sym length positive := by
    simp only [litLenFormat, ne_eq, Nat.or_eq_zero_iff, Nat.shiftLeft_eq]; omega

theorem SortedCodes.lt_next {maxLen p : Nat} (sorted : SortedCodes codes used maxLen)
    (inside : p < codes.countTotal (maxLen + 1)) :
    p < codes.countTotal ((codes.table (codes.codeList p)).length + 1) := by
  by_contra beyond
  have here := sorted.position (p := p) (m := 1) (n := maxLen + 1) (by omega) (by omega) (Nat.le_refl _)
    (by rw [sorted.first]; omega) inside
  have := sorted.position (p := p) (m := (codes.table (codes.codeList p)).length + 1) (n := maxLen + 1) (by omega)
    (by omega) (Nat.le_refl _) (by omega) inside
  omega

section Pack

variable (sorted : SortedCodes codes used 21) (free : PrefixFree codes.table used)
  (symbols : ∀ i, used i → indexToSym i ≤ 512)

theorem code_eq (free : PrefixFree table used) {i : Nat} (inUse : used i) (short : (table i).length ≤ 16) :
    (table i).code = (table i).codeAndExtra := by
  rw [HuffCode.code, Nat.mod_eq_of_lt]
  exact Nat.lt_of_lt_of_le (free.small i inUse) (Nat.pow_le_pow_right (by omega) short)

/-- Codewords joined as the table construction joins them are a chain. -/
theorem Chain.join (free : PrefixFree table used) {i : Nat} {is : List Nat} {w n : Nat} (inUse : used i)
    (short : (table i).length ≤ 16) (rest : Chain table used is w n) :
    Chain table used (i :: is) ((table i).code ||| w <<< (table i).length) ((table i).length + n) := by
  have small := free.small i inUse
  rw [code_eq free inUse short, or_shiftLeft small]
  refine .cons inUse ?_ ?_
  · rw [Hit, Nat.add_mul_mod_self_right, Nat.mod_eq_of_lt small]
  · rwa [Nat.add_mul_div_right _ _ (Nat.two_pow_pos _), Nat.div_eq_of_lt small, Nat.zero_add]

theorem Chain.single (free : PrefixFree table used) {i : Nat} (inUse : used i) (short : (table i).length ≤ 16) :
    Chain table used [i] (table i).code (table i).length := by
  have := Chain.join free inUse short (.nil (v := 0))
  simpa using this

include sorted free

theorem encodeTriples_wrote {first n : Nat} {short : Arr Nat} (low : 1 ≤ first) (thrice : 3 * first ≤ n)
    (high : n ≤ 12) : Wrote (LitGood codes.table used) n short (encodeTriples codes first n short) := by
  refine forNext_keeps _ _ _ (Nat.le_refl (codes.countTotal first)) .refl ?_
  intro p t lower upper wrote
  obtain ⟨inUse, minLen, maxLen⟩ := sorted.position (p := p) low (by omega) (by omega) lower upper
  have whole := sorted.le (m := n - 2 * first + 1) (n := 21 + 1) (by omega) (by omega) (Nat.le_refl _)
  simp only
  split
  · exact ⟨Nat.le_of_lt (sorted.lt_next (by omega)), wrote⟩
  rename_i literal
  split
  · exact ⟨Nat.le_of_lt upper, wrote⟩
  rename_i room
  refine ⟨Nat.le_succ _, ?_⟩
  refine forNext_keeps _ _ _ (Nat.le_refl (codes.countTotal first)) wrote ?_
  intro q t' lower' upper' wrote
  obtain ⟨inUse', minLen', maxLen'⟩ := sorted.position (p := q) low (by omega) (by omega) lower' upper'
  have whole' := sorted.le (m := n - (codes.table (codes.codeList p)).length - first + 1) (n := 21 + 1) (by omega)
    (by omega) (Nat.le_refl _)
  split
  · exact ⟨Nat.le_of_lt (sorted.lt_next (by omega)), wrote⟩
  rename_i literal'
  refine ⟨Nat.le_succ _, ?_⟩
  refine forNext_keeps _ _ _ (Nat.le_refl (codes.countTotal
    (n - (codes.table (codes.codeList p)).length - (codes.table (codes.codeList q)).length))) wrote ?_
  intro r t'' lower'' upper'' wrote
  obtain ⟨inUse'', length''⟩ := sorted.listed _ r (by omega) (by omega) lower'' upper''
  split
  · exact ⟨Nat.le_of_lt upper'', wrote⟩
  rename_i writable
  simp only [maxLitLenSym] at writable
  refine ⟨Nat.le_succ _, wrote.set ?_⟩
  have chain := Chain.join free inUse (by omega)
    (Chain.join free inUse' (by omega) (Chain.single free inUse'' (by omega)))
  rw [Nat.shiftLeft_or_distrib, ← Nat.shiftLeft_add, ← Nat.or_assoc] at chain
  have bound : packed ([codes.codeList p, codes.codeList q, codes.codeList r].map indexToSym) < 2 ^ 25 := by
    simp only [packed, List.map_cons, List.map_nil, Nat.zero_shiftLeft, Nat.or_zero]
    have inner := or_shiftLeft (b := indexToSym (codes.codeList r))
      (show indexToSym (codes.codeList q) < 2 ^ 8 by omega)
    rw [inner, or_shiftLeft (by omega)]; omega
  refine ⟨_, _, chain, by simp, by simp, by omega, by omega, by omega, ?_, bound, ?_⟩
  · simp only [List.dropLast, List.mem_cons, List.not_mem_nil, or_false, forall_eq_or_imp, forall_eq]
    omega
  · simp only [packed, List.map_cons, List.map_nil, Nat.zero_shiftLeft, Nat.or_zero, Nat.shiftLeft_or_distrib,
      ← Nat.shiftLeft_add, ← Nat.or_assoc, length'', List.length_cons, List.length_nil]
    rw [Nat.add_assoc]

include symbols

theorem encodePairs_wrote {first n : Nat} (short : Arr Nat) (low : 1 ≤ first) (twice : 2 * first ≤ n) (high : n ≤ 12) :
    Wrote (LitGood codes.table used) n short (encodePairs codes first n short) := by
  refine forNext_keeps _ _ _ (Nat.le_refl (codes.countTotal first)) .refl ?_
  intro p t lower upper wrote
  obtain ⟨inUse, minLen, maxLen⟩ := sorted.position (p := p) low (by omega) (by omega) lower upper
  have whole := sorted.le (m := n - first + 1) (n := 21 + 1) (by omega) (by omega) (Nat.le_refl _)
  simp only
  split
  · exact ⟨Nat.le_of_lt (sorted.lt_next (by omega)), wrote⟩
  rename_i literal
  refine ⟨Nat.le_succ _, ?_⟩
  refine forNext_keeps _ _ _ (Nat.le_refl (codes.countTotal (n - (codes.table (codes.codeList p)).length))) wrote ?_
  intro q t' lower' upper' wrote
  obtain ⟨inUse', length'⟩ := sorted.listed _ q (by omega) (by omega) lower' upper'
  have small := symbols _ inUse'
  rw [if_neg (by simp only [maxLitLenSym]; omega)]
  refine ⟨Nat.le_succ _, wrote.set ?_⟩
  have chain := Chain.join free inUse (by omega) (Chain.single free inUse' (by omega))
  have bound : packed ([codes.codeList p, codes.codeList q].map indexToSym) < 2 ^ 25 := by
    simp only [packed, List.map_cons, List.map_nil, Nat.zero_shiftLeft, Nat.or_zero]
    rw [or_shiftLeft (by omega)]; omega
  refine ⟨_, _, chain, by simp, by simp, by omega, by omega, by omega, ?_, bound, ?_⟩
  · simp only [List.dropLast, List.mem_singleton, forall_eq]
    omega
  · simp [packed, length']

theorem litLen_encodes (multisym : Nat) :
    Encodes litLenFormat codes used (encodeMultisym codes multisym) (LitGood codes.table used) where
  nonzero := by
    rintro n v e good rfl
    obtain ⟨is, -, -, -, positive, -⟩ := good.fields
    simp at positive
  local_ := by
    rintro n v w e ⟨is, total, chain, some_, three, positive, upTo, rest⟩ same
    exact ⟨is, total, chain.of_mod upTo same, some_, three, positive, upTo, rest⟩
  mono := by
    rintro n m v e le ⟨is, total, chain, some_, three, positive, upTo, rest⟩
    exact ⟨is, total, chain, some_, three, positive, Nat.le_trans upTo le, rest⟩
  single := by
    intro i inUse short
    have small := symbols i inUse
    have bounded := sorted.bounded i inUse
    simp only [litLenFormat, isalDecodeLongBits, maxLitLenSym] at short ⊢
    refine ⟨_, if_neg (by omega), fun v hit => ?_⟩
    refine ⟨[i], _, .cons inUse hit .nil, by simp, by simp, by omega, by omega, by omega, by simp, ?_, ?_⟩
    · simp [packed]; omega
    · simp [packed]
  more := by
    intro first n short low order high
    simp only [litLenFormat, isalDecodeLongBits] at high
    change Wrote (LitGood codes.table used) n short _
    rw [encodeMultisym]
    split
    · exact .refl
    rename_i pairs
    have wrote := encodePairs_wrote sorted free symbols short low (n := n) (by omega) high
    simp only
    split
    · exact wrote
    rename_i triples
    exact wrote.trans (encodeTriples_wrote sorted free low (by omega) high)

end Pack

/-- What an entry's symbol is written as: a length symbol as the length plus 254. -/
def litValue (s e : Nat) : Nat :=
  if s < 257 then s else Rfc1951.lenStart[s - 257]?.getD 0 + e + 254

/-- The symbols with their extra bits that come next in the stream, as one parses them one
at a time; they take `n` bits. -/
inductive Symbols (lens : List Nat) : List (Nat × Nat) → Nat → Nat → Prop
  | nil {v} : Symbols lens [] v 0
  | cons {s v n syms} (legal : s < 286) (next : Matches lens s v)
      (rest : Symbols lens syms (v / 2 ^ lengthOf lens s / 2 ^ extraWidth s) n) :
      Symbols lens ((s, v / 2 ^ lengthOf lens s % 2 ^ extraWidth s) :: syms) v (lengthOf lens s + extraWidth s + n)

theorem entry_values : ∀ j < 29, ∀ e < lenSize j,
    indexToSym (expandedFrom j + e) = Rfc1951.lenStart[j]?.getD 0 + e + 254 := by decide

variable {lens : List Nat}

theorem Entry.value {i s e : Nat} (entry : Entry lens i s e) : indexToSym i = litValue s e := by
  obtain ⟨rfl, legal, extra, -⟩ := entry
  simp only [litLen] at legal
  by_cases small : s < 257
  · simp only [entryIndex, litValue, small, if_true]
    rw [indexToSym, if_pos (by omega)]
  · simp only [entryIndex, litValue, small, if_false]
    refine entry_values _ (by omega) e ?_
    simpa [extraWidth, lenSize, small] using extra

theorem lenStart_le : ∀ j < 29, Rfc1951.lenStart[j]?.getD 0 + lenSize j ≤ 259 := by decide

theorem litValue_le {s e : Nat} (legal : s < 286) (extra : e < 2 ^ extraWidth s) : litValue s e ≤ 512 := by
  rw [litValue]
  split
  · omega
  · rename_i large
    have upTo := lenStart_le (s - 257) (by omega)
    simp only [extraWidth, large, if_false] at extra
    simp only [lenSize] at upTo
    omega

theorem le_lenStart : ∀ j < 29, 3 ≤ Rfc1951.lenStart[j]?.getD 0 := by decide

theorem litValue_lt {s e : Nat} (legal : s < 286) : litValue s e < 256 ↔ s < 256 := by
  rw [litValue]
  split
  · exact Iff.rfl
  · have := le_lenStart (s - 257) (by omega)
    omega

theorem Symbols.legal {syms : List (Nat × Nat)} {v n : Nat} (h : Symbols lens syms v n) :
    ∀ p ∈ syms, p.1 < 286 := by
  induction h with
  | nil => simp
  | cons legal _ _ ih => exact List.forall_mem_cons.mpr ⟨legal, ih⟩

theorem Chain.symbols (expanded : ∀ i s e, Entry lens i s e → Expanded table lens i s e) {is : List Nat}
    {v n : Nat} (h : Chain table (HasEntry lens) is v n) :
    ∃ syms, Symbols lens syms v n ∧ is.map indexToSym = syms.map (fun p => litValue p.1 p.2) := by
  induction h with
  | nil => exact ⟨[], .nil, rfl⟩
  | @cons i is v n inUse hit rest ih =>
    obtain ⟨s, e, entry⟩ := inUse
    obtain ⟨next, rfl⟩ := (hit_entry_iff entry (expanded i s e entry)).mp hit
    obtain ⟨syms, chain, same⟩ := ih
    have legal := entry.legal
    simp only [litLen] at legal
    rw [(expanded i s _ entry).1] at chain ⊢
    rw [Nat.pow_add, ← Nat.div_div_eq_div_mul] at chain
    exact ⟨_, .cons legal next chain, by simp only [List.map_cons, same, entry.value]⟩

/-- What `decode_next_lit_len` gives for a stream with value `v` and `n` bits: the symbols
that come next, or the sign that there is none. -/
inductive LitFound (lens : List Nat) (v : Nat) (n : Int) : Nat × Nat × InStream → Prop
  | found (syms : List (Nat × Nat)) (total : Nat) (s : InStream) (chain : Symbols lens syms v total)
      (some_ : syms ≠ []) (three : syms.length ≤ 3) (width : total ≤ 21) (literals : ∀ p ∈ syms.dropLast, p.1 < 256)
      (views : Views s (v / 2 ^ total) (n - total)) :
      LitFound lens v n (packed (syms.map fun p => litValue p.1 p.2), syms.length, s)
  | missing (lits count : Nat) (s : InStream) (none : ∀ i < 286, ¬Matches lens i v) (views : Views s v n)
      (sign : count = 0 ∨ count = 1 ∧ lits = 1023) : LitFound lens v n (lits, count, s)

theorem large_pointer_fields {offset m : Nat} (small : offset < 2 ^ 25) :
    (offset ||| m <<< 26 ||| 1 <<< 25).testBit 25 = true ∧ (offset ||| m <<< 26 ||| 1 <<< 25) % 2 ^ 25 = offset ∧
      (offset ||| m <<< 26 ||| 1 <<< 25) >>> 26 = m := by
  have value : offset ||| m <<< 26 ||| 1 <<< 25 = offset + 1 * 2 ^ 25 + m * 2 ^ 26 := by
    have flag := or_shiftLeft (b := 1) small
    rw [Nat.or_assoc, Nat.or_comm (m <<< 26), ← Nat.or_assoc, flag, or_shiftLeft (by omega)]
  rw [value]
  refine ⟨?_, by omega, ?_⟩
  · rw [Nat.testBit_eq_decide_div_mod_eq, decide_eq_true_eq]; omega
  · rw [Nat.shiftRight_eq_div_pow]; omega

/-- There are no more regions than first bits. -/
theorem Region.offset_lt {used : Nat → Prop} {x offset m : Nat} {others : List Nat} {lookup : LookupTable}
    (region : Region litLenFormat codes used 21 x lookup offset m others) : offset < 2 ^ 25 := by
  have few : others.length ≤ 2 ^ 12 := by
    have inside : others ⊆ List.range (2 ^ 12) := by
      intro z hz
      obtain ⟨i, -, rfl⟩ := region.prefixes z hz
      exact List.mem_range.mpr (Nat.mod_lt _ (by decide))
    simpa using (List.subperm_of_subset region.distinct inside).length_le
  have := region.offset_le
  simp only [litLenFormat, isalDecodeLongBits] at this
  omega

theorem decodeNextLitLen_spec {s : InStream} {v : Nat} {n : Int} (h : Views s v n) (loaded : Loaded s)
    (valid : Valid lens 15) (sorted : SortedCodes codes (HasEntry lens) 21)
    (expanded : ∀ i s e, Entry lens i s e → Expanded codes.table lens i s e) (multisym : Nat) (result : LookupTable) :
    LitFound lens v n (decodeNextLitLen (makeInflateHuffCodeLitLen result codes multisym) s) := by
  have free := expanded_free valid expanded
  have symbols : ∀ i, HasEntry lens i → indexToSym i ≤ 512 := by
    rintro i ⟨t, e, entry⟩
    have legal := entry.legal
    simp only [litLen] at legal
    rw [entry.value]
    exact litValue_le legal entry.extra
  have none_of : (∀ i, HasEntry lens i → ¬Hit codes.table i v) → ∀ t < 286, ¬Matches lens t v := by
    intro none t legal next
    have entry : Entry lens (entryIndex t (v / 2 ^ lengthOf lens t % 2 ^ extraWidth t)) t
        (v / 2 ^ lengthOf lens t % 2 ^ extraWidth t) :=
      ⟨rfl, legal, Nat.mod_lt _ (Nat.two_pow_pos _), next.used⟩
    exact none _ ⟨_, _, entry⟩ ((hit_entry_iff entry (expanded _ _ _ entry)).mpr ⟨next, rfl⟩)
  have looks := makeInflateHuffCode_spec litLenFormat_lawful sorted free
    (litLen_encodes sorted free symbols multisym) result v
  change Looks _ _ _ _ _ (makeInflateHuffCodeLitLen result codes multisym) v at looks
  generalize makeInflateHuffCodeLitLen result codes multisym = lookup at looks
  obtain ⟨views, enough⟩ : Views (loadForCode s) v n ∧
      ∀ k : Nat, k ≤ 21 → (k : Int) ≤ (loadForCode s).readInLength ∨ (loadForCode s).availIn = 0 := by
    rw [loadForCode]
    split
    · exact ⟨h.load.1, fun k small => h.load.2.imp (fun many => by omega) id⟩
    · exact ⟨h, fun k small => loaded.imp (fun many => by omega) id⟩
  rw [decodeNextLitLen]
  generalize loadForCode s = t at views enough ⊢
  simp only
  rw [views.peek (enough _ (by decide))]
  rcases looks with good | ⟨zero, none⟩ | ⟨offset, m, others, region, nonempty, allLong⟩
  · simp only [litLenFormat] at good
    obtain ⟨is, chain, some_, three, positive, -, short, literals, flag, low, count⟩ := good.fields
    obtain ⟨syms, chain, same⟩ := chain.symbols expanded
    have length : syms.length = is.length := by simpa using (congrArg List.length same).symm
    rw [if_pos flag, if_neg positive, low, count, same, ← length]
    refine .found syms _ _ chain ?_ (by omega) (by omega) ?_ (views.consume (enough _ (by omega)))
    · rintro rfl
      exact some_ (List.length_eq_zero_iff.mp length.symm)
    · intro p hp
      have member : litValue p.1 p.2 ∈ (is.map indexToSym).dropLast := by
        rw [same, ← List.map_dropLast]
        exact List.mem_map_of_mem hp
      rw [← List.map_dropLast, List.mem_map] at member
      obtain ⟨i, hi, value⟩ := member
      have := literals i hi
      rw [value, litValue_lt (chain.legal p (List.mem_of_mem_dropLast hp))] at this
      exact this
  · simp only [litLenFormat] at zero
    rw [zero]
    simp only [Nat.zero_testBit, if_true, Nat.zero_shiftRight, consume_zero]
    exact .missing _ _ _ (none_of none) views (Or.inl rfl)
  · have bounded := region.bounded
    have beyond : isalDecodeLongBits < m := region.long
    obtain ⟨flag, low, width⟩ := large_pointer_fields (m := m) region.offset_lt
    have pointer := region.pointer
    simp only [litLenFormat] at pointer
    rw [pointer, if_neg (by rw [flag]; decide), low, width, views.peek (enough m bounded),
      Nat.shiftRight_eq_div_pow (v % 2 ^ m) isalDecodeLongBits]
    have place : v % 2 ^ m / 2 ^ isalDecodeLongBits < 2 ^ (m - isalDecodeLongBits) := by
      rw [Nat.div_lt_iff_lt_mul (Nat.two_pow_pos _), ← Nat.pow_add, Nat.sub_add_cancel (Nat.le_of_lt beyond)]
      exact Nat.mod_lt _ (Nat.two_pow_pos _)
    rcases region.entry _ place with ⟨i, long, first, covers, entry⟩ | ⟨zero, none⟩
    · have hit := (long.covers_iff (region.upTo i long first) first.symm).mp covers
      have small := symbols i long.used
      have upTo := sorted.bounded i long.used
      simp only [litLenFormat] at entry
      rw [or_shiftLeft (by omega)] at entry
      have length : (indexToSym i + (codes.table i).length * 2 ^ 10) >>> 10 = (codes.table i).length := by
        rw [Nat.shiftRight_eq_div_pow]; omega
      rw [entry, length, if_neg (by omega)]
      obtain ⟨syms, chain, same⟩ := (Chain.cons long.used hit .nil).symbols expanded
      have value : (indexToSym i + (codes.table i).length * 2 ^ 10) % 2 ^ 10 =
          packed (syms.map fun p => litValue p.1 p.2) := by
        rw [← same]
        simp only [packed, List.map_cons, List.map_nil, Nat.zero_shiftLeft, Nat.or_zero]
        omega
      have one : syms.length = 1 := by simpa using (congrArg List.length same).symm
      rw [value, ← one]
      refine .found syms _ _ chain (by rintro rfl; simp at one) (by omega) (by omega) ?_ (views.consume (enough _ (by omega)))
      intro p hp
      obtain ⟨q, rfl⟩ := List.length_eq_one_iff.mp one
      simp at hp
    · rw [zero]
      simp only [Nat.zero_shiftRight, if_true, consume_zero]
      refine .missing _ _ _ (none_of fun i inUse hit => ?_) views (Or.inr ⟨rfl, rfl⟩)
      have long := allLong i inUse hit
      have first : v % 2 ^ litLenFormat.directBits = firstBits litLenFormat codes i := by
        rw [firstBits, ← hit, Nat.mod_mod_of_dvd _ (Nat.pow_dvd_pow 2 (Nat.le_of_lt long.long))]
      exact none i long first.symm ((long.covers_iff (region.upTo i long first.symm) first).mpr hit)

end Isal.Inflate
