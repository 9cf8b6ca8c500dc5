import Isal.DecodeRound

/-! Literals and lengths read round by round through the tables, as the decoding loop reads
them, against the canonical code read one symbol at a time. -/
namespace Isal.Rfc1951
open PrefixCode

/-- A symbol of the literal/length code and its extra bits. -/
def readLitLen (lens : List Nat) : Get (Nat × Nat) := do
  let sym ← decodeSym lens 286
  let extra ← num (if sym < 257 then 0 else lenExtra[sym - 257]?.getD 0)
  return (sym, extra)

def readLitLens (lens : List Nat) : Nat → Get (List (Nat × Nat))
  | 0 => pure []
  | n + 1 => do
    let first ← readLitLen lens
    let rest ← readLitLens lens n
    return first :: rest

end Isal.Rfc1951

namespace Isal.Inflate
open Bits CountingSort PrefixCode Rfc1951

/-- `while (sym_count > 0)`: all symbols of an entry but the last are bytes. -/
def unpackSyms : (symCount nextLits : Nat) → List Nat
  | 0, _ => []
  | 1, nextLits => [nextLits % 2 ^ 16]
  | symCount + 2, nextLits => nextLits % 2 ^ 8 :: unpackSyms (symCount + 1) (nextLits >>> 8)

/-- One entry of the tables, or `none` for an invalid symbol. -/
def litLenRound (lookup : LookupTable) (s : InStream) : Option (List Nat) × InStream :=
  let entry := decodeNextLitLen lookup (inflateInLoad s)
  let syms := unpackSyms entry.2.1 entry.1
  if entry.2.1 = 0 ∨ maxLitLenSym < syms.getLastD 0 then (none, entry.2.2) else (some syms, entry.2.2)

/-- The symbols of so many rounds, or up to the first invalid one. -/
def litLenRun (lookup : LookupTable) : (rounds : Nat) → InStream → List Nat × InStream
  | 0, s => ([], s)
  | rounds + 1, s =>
    let round := litLenRound lookup s
    round.1.elim ([], round.2) fun syms =>
      let rest := litLenRun lookup rounds round.2
      (syms ++ rest.1, rest.2)

theorem unpackSyms_packed {syms : List Nat} (bytes : ∀ x ∈ syms.dropLast, x < 256)
    (small : ∀ x ∈ syms, x < 2 ^ 16) : unpackSyms syms.length (packed syms) = syms := by
  induction syms with
  | nil => rfl
  | cons x syms ih =>
    cases syms with
    | nil =>
      have bound := small x (List.mem_singleton_self x)
      simp only [List.length_singleton, unpackSyms, packed, Nat.zero_shiftLeft, Nat.or_zero,
        Nat.mod_eq_of_lt bound]
    | cons y syms =>
      have byte : x < 2 ^ 8 := bytes x (by simp)
      have rest := ih (fun z member => bytes z (by
        rw [List.dropLast_cons_cons]
        exact List.mem_cons_of_mem _ member)) (fun z member => small z (List.mem_cons_of_mem _ member))
      have first : packed (x :: y :: syms) = x + packed (y :: syms) * 2 ^ 8 := or_shiftLeft byte
      have low : packed (x :: y :: syms) % 2 ^ 8 = x := by
        rw [first, Nat.add_mul_mod_self_right, Nat.mod_eq_of_lt byte]
      have high : packed (x :: y :: syms) >>> 8 = packed (y :: syms) := by
        rw [first, Nat.shiftRight_eq_div_pow]
        omega
      rw [List.length_cons, List.length_cons, unpackSyms, low, high]
      exact congrArg (x :: ·) rest

/-- What one round gives for a stream of value `v` and `n` bits. -/
inductive RoundFound (lens : List Nat) (v : Nat) (n : Int) : Option (List Nat) × InStream → Prop
  | found (syms : List (Nat × Nat)) (total : Nat) (s : InStream) (chain : Symbols lens syms v total)
      (nonempty : syms ≠ []) (views : Views s (v / 2 ^ total) (n - total)) :
      RoundFound lens v n (some (syms.map fun p => litValue p.1 p.2), s)
  | missing (s : InStream) (unused : ∀ i < 286, ¬Matches lens i v) (views : Views s v n) :
      RoundFound lens v n (none, s)

theorem Symbols.small {lens : List Nat} {syms : List (Nat × Nat)} {v n : Nat} (h : Symbols lens syms v n) :
    ∀ p ∈ syms, litValue p.1 p.2 ≤ 512 := by
  induction h with
  | nil => simp
  | cons legal _ _ ih =>
    exact List.forall_mem_cons.mpr ⟨litValue_le legal (Nat.mod_lt _ (Nat.two_pow_pos _)), ih⟩

theorem LitFound.round {lens : List Nat} {v : Nat} {n : Int} {lookup : LookupTable} {s : InStream}
    (found : LitFound lens v n (decodeNextLitLen lookup (inflateInLoad s))) :
    RoundFound lens v n (litLenRound lookup s) := by
  rw [litLenRound]
  generalize decodeNextLitLen lookup (inflateInLoad s) = entry at found
  cases found with
  | found syms total t chain some_ three width literals views =>
    have unpacked : unpackSyms syms.length (packed (syms.map fun p => litValue p.1 p.2)) =
        syms.map fun p => litValue p.1 p.2 := by
      have all : unpackSyms (syms.map fun p => litValue p.1 p.2).length
          (packed (syms.map fun p => litValue p.1 p.2)) = syms.map fun p => litValue p.1 p.2 :=
        unpackSyms_packed ?_ ?_
      · rwa [List.length_map] at all
      · intro x member
        rw [← List.map_dropLast] at member
        obtain ⟨p, inside, rfl⟩ := List.mem_map.mp member
        exact (litValue_lt (chain.legal p (List.mem_of_mem_dropLast inside))).mpr (literals p inside)
      · intro x member
        obtain ⟨p, inside, rfl⟩ := List.mem_map.mp member
        exact Nat.lt_of_le_of_lt (chain.small p inside) (by decide)
    have legal : ¬(syms.length = 0 ∨ maxLitLenSym < (syms.map fun p => litValue p.1 p.2).getLastD 0) := by
      rintro (empty | large)
      · exact some_ (List.length_eq_zero_iff.mp empty)
      · rw [List.getLastD_eq_getLast?, List.getLast?_map] at large
        cases last : syms.getLast? with
        | none =>
          rw [last] at large
          exact absurd large (by decide)
        | some p =>
          rw [last] at large
          exact absurd large (Nat.not_lt.mpr (chain.small p (List.mem_of_getLast? last)))
    simp only [unpacked]
    rw [if_neg legal]
    exact .found syms total t chain some_ views
  | missing lits count t none views sign =>
    have invalid : count = 0 ∨ maxLitLenSym < (unpackSyms count lits).getLastD 0 := by
      rcases sign with zero | ⟨rfl, rfl⟩
      · exact Or.inl zero
      · exact Or.inr (by decide)
    rw [if_pos invalid]
    exact .missing t none views

variable {lens : List Nat}

theorem Symbols.append {a b : List (Nat × Nat)} {v n m : Nat} (first : Symbols lens a v n)
    (second : Symbols lens b (v / 2 ^ n) m) : Symbols lens (a ++ b) v (n + m) := by
  induction first with
  | nil => simpa using second
  | @cons s v n syms legal next rest ih =>
    rw [List.cons_append, Nat.add_assoc]
    apply Symbols.cons legal next
    apply ih
    rw [Nat.div_div_eq_div_mul, Nat.div_div_eq_div_mul, ← Nat.pow_add, ← Nat.pow_add,
      Nat.add_assoc] at *
    exact second

theorem extraWidth_eq {s : Nat} (legal : s < 286) :
    extraWidth s = if s < 257 then 0 else Rfc1951.lenExtra[s - 257]?.getD 0 := by
  rw [extraWidth]
  split
  · rfl
  · exact lenExtra_eq _ (by omega)

theorem readLitLen_ok (valid : Valid lens 15) {s : Nat} {bits : List Bool} (legal : s < 286)
    (next : Matches lens s (bitsVal bits)) (enough : lengthOf lens s + extraWidth s ≤ bits.length) :
    readLitLen lens bits = .ok (s, bitsVal bits / 2 ^ lengthOf lens s % 2 ^ extraWidth s)
      (bits.drop (lengthOf lens s + extraWidth s)) := by
  rw [readLitLen, bind_ok (valid.decodeSym_ok legal next (by omega)), ← extraWidth_eq legal,
    bind_ok (num_ok (by rw [List.length_drop]; omega)), pure_eq, bitsVal_drop, List.drop_drop]

theorem readLitLen_more (valid : Valid lens 15) {s : Nat} {bits : List Bool} (legal : s < 286)
    (next : Matches lens s (bitsVal bits)) (short : bits.length < lengthOf lens s + extraWidth s) :
    readLitLen lens bits = .more := by
  rw [readLitLen]
  by_cases cut : bits.length < lengthOf lens s
  · rw [bind_more (valid.decodeSym_more legal next cut)]
  · rw [bind_ok (valid.decodeSym_ok legal next (by omega)), ← extraWidth_eq legal,
      bind_more (num_more (by rw [List.length_drop]; omega))]

/-- The symbols are what one reads one at a time, as far as the string reaches. -/
theorem Symbols.read (valid : Valid lens 15) {syms : List (Nat × Nat)} {v n : Nat}
    (h : Symbols lens syms v n) {bits : List Bool} (value : v = bitsVal bits) :
    (n ≤ bits.length → readLitLens lens syms.length bits = .ok syms (bits.drop n)) ∧
    (bits.length < n → readLitLens lens syms.length bits = .more) := by
  induction h generalizing bits with
  | nil => exact ⟨fun _ => rfl, fun short => absurd short (Nat.not_lt_zero _)⟩
  | @cons s v n syms legal next rest ih =>
    subst value
    rw [List.length_cons, readLitLens]
    by_cases inside : lengthOf lens s + extraWidth s ≤ bits.length
    · have later : bitsVal (bits.drop (lengthOf lens s + extraWidth s)) = _ := bitsVal_drop ..
      rw [Nat.pow_add, ← Nat.div_div_eq_div_mul] at later
      obtain ⟨whole, cut⟩ := ih later.symm
      rw [List.length_drop] at whole cut
      rw [bind_ok (readLitLen_ok valid legal next inside)]
      constructor
      · intro enough
        rw [bind_ok (whole (by omega)), pure_eq, List.drop_drop]
      · intro short
        rw [bind_more (cut (by omega))]
    · rw [bind_more (readLitLen_more valid legal next (by omega))]
      exact ⟨fun enough => absurd enough (by omega), fun _ => rfl⟩

/-- Without a reserved symbol no codeword comes next exactly when the reference finds none. -/
theorem unmatched_iff (valid : Valid lens 15) (few : lens.length ≤ 286) (bits : List Bool) :
    (∀ i < 286, ¬Matches lens i (bitsVal bits)) ↔ decodeSym lens 286 bits = .bad := by
  constructor
  · intro none
    apply valid.decodeSym_bad none
    intro s t _ reserved _ _ next
    exact absurd (used_lt next.used) (by omega)
  · intro bad i legal next
    by_cases enough : lengthOf lens i ≤ bits.length
    · rw [valid.decodeSym_ok legal next enough] at bad
      cases bad
    · rw [valid.decodeSym_more legal next (by omega)] at bad
      cases bad

/-- So many rounds over the bits: the symbols are those of the canonical code with their extra
bits, in order, the stream is left behind them, and the rounds end early only where the next
bits begin no codeword. -/
structure ReadAlike (lens : List Nat) (bits : List Bool) (rounds : Nat) (lookup : LookupTable)
    (values : List Nat) (stream : InStream) (syms : List (Nat × Nat)) (total : Nat) : Prop where
  values : values = syms.map fun p => litValue p.1 p.2
  whole : total ≤ bits.length → readLitLens lens syms.length bits = .ok syms (bits.drop total)
  cut : bits.length < total → readLitLens lens syms.length bits = .more ∧ stream.readInLength < 0
  views : Views stream (bitsVal (bits.drop total)) (bits.length - total)
  invalid : (litLenRound lookup stream).1 = none ↔ decodeSym lens 286 (bits.drop total) = .bad
  rounds : rounds ≤ syms.length ∨ (litLenRound lookup stream).1 = none

theorem litLenRun_symbols {lookup : LookupTable}
    (round : ∀ s v n, Views s v n → RoundFound lens v n (litLenRound lookup s)) (rounds : Nat)
    {s : InStream} {v : Nat} {n : Int} (views : Views s v n) :
    ∃ syms total, (litLenRun lookup rounds s).1 = syms.map (fun p => litValue p.1 p.2) ∧
      Symbols lens syms v total ∧
      Views (litLenRun lookup rounds s).2 (v / 2 ^ total) (n - total) ∧
      (rounds ≤ syms.length ∨ (litLenRound lookup (litLenRun lookup rounds s).2).1 = none) := by
  induction rounds generalizing s v n with
  | zero => exact ⟨[], 0, rfl, .nil, by simpa [litLenRun] using views, Or.inl (Nat.le_refl 0)⟩
  | succ rounds ih =>
    have found := round s v n views
    rw [litLenRun]
    generalize litLenRound lookup s = entry at found
    cases found with
    | found syms total t chain nonempty views =>
      obtain ⟨more, rest, values, chain', views', ends⟩ := ih views
      refine ⟨syms ++ more, total + rest, ?_, chain.append chain', ?_, ?_⟩
      · simp only [Option.elim_some, values, List.map_append]
      · rw [Nat.div_div_eq_div_mul, ← Nat.pow_add] at views'
        simp only [Option.elim_some]
        rw [Nat.cast_add, ← Int.sub_sub]
        exact views'
      · have positive := List.length_pos_iff.mpr nonempty
        rw [List.length_append]
        exact ends.imp (fun enough => by omega) id
    | missing t unused views =>
      refine ⟨[], 0, rfl, .nil, by simpa using views, Or.inr ?_⟩
      have again := round t v n views
      simp only [Option.elim_none]
      generalize litLenRound lookup t = entry at again
      cases again with
      | found syms total u chain nonempty views =>
        cases chain with
        | nil => exact absurd rfl nonempty
        | cons legal next rest => exact absurd next (unused _ legal)
      | missing u unused views => rfl

variable {table : Arr HuffCode} {count expandCount : Arr Nat}

/-- The tables of any literal/length code that is not oversubscribed read every string like
the canonical code itself, whatever number of symbols their entries hold. -/
theorem litLenRun_spec (tableLength : Nat) (lengths : HasLengths table litLen lens)
    (few : lens.length ≤ litLen) (bounded : ∀ n ∈ lens, n ≤ 15) (counts : Counts count lens)
    (expandCounts : ExpandCounts count expandCount lens) (fits : kraft lens 15 ≤ 2 ^ 15) :
    ∃ codes, setAndExpandLitLenHuffcode table tableLength count expandCount = some codes ∧
      ∀ (multisym : Nat) (result : LookupTable) (bits : List Bool) (s : InStream),
        Views s (bitsVal bits) bits.length → ∀ rounds,
          let lookup := makeInflateHuffCodeLitLen result codes multisym
          let run := litLenRun lookup rounds s
          ∃ syms total, ReadAlike lens bits rounds lookup run.1 run.2 syms total := by
  rcases setAndExpand_spec tableLength lengths bounded counts expandCounts with
    ⟨_, excess⟩ | ⟨codes, built, valid, sorted, expanded⟩
  · omega
  refine ⟨codes, built, fun multisym result bits s views rounds => ?_⟩
  intro lookup run
  have round : ∀ s v n, Views s v n → RoundFound lens v n (litLenRound lookup s) := by
    intro s v n views
    obtain ⟨loadedViews, loaded⟩ := views.load
    exact (decodeNextLitLen_spec loadedViews loaded valid sorted expanded multisym result).round
  obtain ⟨syms, total, values, chain, after, ends⟩ := litLenRun_symbols round rounds views
  obtain ⟨whole, cut⟩ := chain.read valid rfl
  have position : bitsVal (bits.drop total) = bitsVal bits / 2 ^ total := bitsVal_drop bits total
  rw [← position] at after
  refine ⟨syms, total, values, whole, ?_, after, ?_, ends⟩
  · intro short
    refine ⟨cut short, ?_⟩
    have left := after.count
    change (litLenRun lookup rounds s).2.readInLength < 0
    omega
  · rw [← unmatched_iff valid few]
    have found := round _ _ _ after
    generalize litLenRound lookup run.2 = entry at found
    cases found with
    | found syms total u chain nonempty views =>
      cases chain with
      | nil => exact absurd rfl nonempty
      | cons legal next rest =>
        refine ⟨fun invalid => absurd invalid (by simp), fun unused => absurd next (unused _ legal)⟩
    | missing u unused views => exact ⟨fun _ => unused, fun _ => rfl⟩

theorem tabled_lengths (lens : List Nat) (n : Nat) :
    HasLengths ⟨fun i => { length := lengthOf lens i }⟩ n lens := fun _ _ => rfl

theorem listed_counts (lens : List Nat) : Counts ⟨lens.count⟩ lens := fun _ _ _ => rfl

/-- A code of the end of block and of the shortest length. -/
theorem litLenRun_spec_two :
    (setAndExpandLitLenHuffcode ⟨fun i => { length := lengthOf (List.replicate 256 0 ++ [1, 1]) i }⟩ 258
      ⟨(List.replicate 256 0 ++ [1, 1]).count⟩ (.const 0)).isSome := by
  have all : ∀ n < 22, 1 ≤ n →
      ((if n ≤ 15 then (List.replicate 256 0 ++ [1, 1]).count n else 0) + 0) % 2 ^ 16 =
      (keyed (entryItems (List.replicate 256 0 ++ [1, 1])) n).length % 2 ^ 16 := by decide +kernel
  have expandCounts : ExpandCounts ⟨(List.replicate 256 0 ++ [1, 1]).count⟩ (.const 0)
      (List.replicate 256 0 ++ [1, 1]) := fun n low high => all n (by omega) low
  obtain ⟨codes, built, -⟩ := litLenRun_spec 258 (tabled_lengths (List.replicate 256 0 ++ [1, 1]) _)
    (by decide +kernel) (by decide +kernel) (listed_counts _) expandCounts (by decide +kernel)
  rw [built]
  rfl

end Isal.Inflate
