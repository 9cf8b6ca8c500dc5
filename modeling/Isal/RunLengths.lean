import Isal.Arr
import Isal.LengthSymbols

/-! The run-length coding of code lengths, as `rl_encode` in `huff_codes.c` does it, gives symbols that
stand for those lengths. -/
namespace Isal.HuffCodes
open Rfc1951

/-- `struct rl_code` -/
structure RlCode where
  code : Nat
  extraBits : Nat
  deriving Repr, DecidableEq

/-- The codes written so far, and how many there are of each -/
structure RlCodes where
  out : List RlCode := []
  counts : Arr Nat := .const 0

def RlCodes.put (s : RlCodes) (code extraBits : Nat) : RlCodes where
  out := s.out ++ [⟨code % 2 ^ 8, extraBits % 2 ^ 8⟩]
  counts := s.counts.set code (s.counts code + 1)

/-- The loop `while (run_len > 138)`. It ends with the rest of the run. -/
def writeZeros (runLen : Nat) (s : RlCodes) : Nat × RlCodes :=
  if 138 < runLen then writeZeros (runLen - 138) (s.put 18 (138 - 11)) else (runLen, s)
termination_by runLen

/-- The loop `while (run_len > 6)`. It ends with the rest of the run. -/
def writeRepeats (runLen : Nat) (s : RlCodes) : Nat × RlCodes :=
  if 6 < runLen then writeRepeats (runLen - 6) (s.put 16 (6 - 3)) else (runLen, s)
termination_by runLen

/-- `write_rl`; a failed assertion gives no result. -/
def writeRl (lastLen runLen : Nat) (s : RlCodes) : Option RlCodes :=
  if lastLen = 0 then
    let (runLen, s) := writeZeros runLen s
    if 10 < runLen then some (s.put 18 (runLen - 11))
    else if 2 < runLen then some (s.put 17 (runLen - 3))
    else if runLen = 1 then some (s.put 0 0)
    else if runLen = 2 then some ((s.put 0 0).put 0 0)
    else none
  else
    let s := s.put lastLen 0
    let runLen := runLen - 1
    if runLen ≠ 0 then
      let (runLen, s) := writeRepeats runLen s
      if runLen = 1 then some (s.put lastLen 0)
      else if runLen = 2 then some ((s.put lastLen 0).put lastLen 0)
      else some (s.put 16 (runLen - 3))
    else some s

/-- The loop of `rl_encode` over the codes behind a run, and the last `write_rl`. -/
def encodeRuns (lastLen runLen : Nat) : List Nat → RlCodes → Option RlCodes
  | [], s => writeRl lastLen runLen s
  | len :: codes, s =>
    if len = lastLen then encodeRuns lastLen (runLen + 1) codes s
    else do
      let s ← writeRl lastLen runLen s
      encodeRuns len 1 codes s

/-- `rl_encode`, which is given one code at least. -/
def rlEncode : List Nat → Option RlCodes
  | [] => none
  | code :: codes => encodeRuns code 1 codes {}

def RlCode.symbol (rl : RlCode) : LengthSymbol := ⟨rl.code, rl.extraBits⟩

/-- The extra bits fit, and there is an entry in the counts. -/
structure RlCode.Fits (rl : RlCode) : Prop where
  code : rl.code < 19
  narrow : rl.extraBits < 2 ^ rl.symbol.extraBits

/-- The lengths that a sequence of symbols stands for, all of them -/
def expand (ops : List LengthSymbol) (lens : List Nat) : Option (List Nat) := ops.foldlM LengthSymbol.assign lens

theorem expand_nil (lens : List Nat) : expand [] lens = some lens := rfl

theorem expand_cons (op : LengthSymbol) (ops : List LengthSymbol) (lens : List Nat) :
    expand (op :: ops) lens = (op.assign lens).bind (expand ops) := rfl

theorem expand_append (ops ops' : List LengthSymbol) (lens : List Nat) :
    expand (ops ++ ops') lens = (expand ops lens).bind (expand ops') := by
  rw [expand, List.foldlM_append]
  rfl

theorem size_pos (op : LengthSymbol) : 1 ≤ op.size := by
  rw [LengthSymbol.size]
  split_ifs <;> omega

theorem expand_length {ops : List LengthSymbol} {lens all : List Nat} (stands : expand ops lens = some all) :
    all.length = lens.length + (ops.map (·.size)).sum := by
  induction ops generalizing lens with
  | nil =>
    rw [expand_nil, Option.some.injEq] at stands
    rw [stands]
    rfl
  | cons op ops ih =>
    rw [expand_cons] at stands
    obtain ⟨more, assigns, stands⟩ := Option.bind_eq_some_iff.mp stands
    rw [ih stands, Inflate.assign_length assigns, List.map_cons, List.sum_cons, Nat.add_assoc]

/-- The codes so far stand for `lens`. -/
structure Encodes (s : RlCodes) (lens : List Nat) : Prop where
  stands : expand (s.out.map RlCode.symbol) [] = some lens
  fits : ∀ rl ∈ s.out, rl.Fits
  counts : ∀ c, s.counts c = (s.out.map RlCode.code).count c

section

variable {s : RlCodes} {lens : List Nat}

theorem Encodes.nothing : Encodes {} [] := by
  constructor
  · rfl
  · intro rl member
    cases member
  · intro c
    rfl

theorem Encodes.put (encodes : Encodes s lens) {code extraBits : Nat} {more : List Nat}
    (assigns : LengthSymbol.assign lens ⟨code, extraBits⟩ = some more) (fits : RlCode.Fits ⟨code, extraBits⟩) :
    Encodes (s.put code extraBits) more := by
  have byte : code % 2 ^ 8 = code := Nat.mod_eq_of_lt (Nat.lt_trans fits.code (by decide))
  have byte' : extraBits % 2 ^ 8 = extraBits := by
    have narrow : LengthSymbol.extraBits ⟨code, extraBits⟩ ≤ 8 := by
      rw [LengthSymbol.extraBits]
      split_ifs <;> omega
    exact Nat.mod_eq_of_lt (Nat.lt_of_lt_of_le fits.narrow (Nat.pow_le_pow_right (by omega) narrow))
  rw [RlCodes.put, byte, byte']
  constructor
  · rw [List.map_append, expand_append, encodes.stands, Option.bind_some]
    change (LengthSymbol.assign lens ⟨code, extraBits⟩).bind (expand []) = _
    rw [assigns]
    rfl
  · intro rl member
    rcases List.mem_append.mp member with old | new
    · exact encodes.fits rl old
    · rw [List.mem_singleton.mp new]
      exact fits
  · intro c
    rw [List.map_append, List.count_append, ← encodes.counts, Arr.set_get]
    by_cases same : c = code
    · subst same
      rw [if_pos rfl, List.map_singleton, List.count_singleton_self]
    · rw [if_neg same, List.map_singleton, List.count_singleton, beq_eq_false_iff_ne.mpr (Ne.symm same)]
      rfl

theorem Encodes.putLength (encodes : Encodes s lens) {code : Nat} (small : code ≤ 15) :
    Encodes (s.put code 0) (lens ++ [code]) := by
  apply encodes.put
  · exact if_pos (by dsimp only; omega)
  · constructor
    · dsimp only
      omega
    · exact Nat.two_pow_pos _

theorem Encodes.putZeros (encodes : Encodes s lens) {extra : Nat} (small : extra < 8) :
    Encodes (s.put 17 extra) (lens ++ List.replicate (3 + extra) 0) :=
  encodes.put rfl ⟨(by decide : 17 < 19), small⟩

theorem Encodes.putManyZeros (encodes : Encodes s lens) {extra : Nat} (small : extra < 128) :
    Encodes (s.put 18 extra) (lens ++ List.replicate (11 + extra) 0) :=
  encodes.put rfl ⟨(by decide : 18 < 19), small⟩

/-- Once more the last length -/
theorem Encodes.putRepeat (encodes : Encodes s lens) {previous extra : Nat} (last : lens.getLast? = some previous)
    (small : extra < 4) : Encodes (s.put 16 extra) (lens ++ List.replicate (3 + extra) previous) := by
  apply encodes.put _ ⟨(by decide : 16 < 19), small⟩
  rw [LengthSymbol.assign, if_neg (by dsimp only; omega), if_pos rfl, last]
  rfl

theorem writeZeros_encodes (runLen : Nat) (positive : 1 ≤ runLen) (encodes : Encodes s lens) :
    ∃ rest s' done, writeZeros runLen s = (rest, s') ∧ 1 ≤ rest ∧ rest ≤ 138 ∧ done + rest = runLen ∧
      Encodes s' (lens ++ List.replicate done 0) := by
  induction runLen using Nat.strong_induction_on generalizing s lens with
  | _ runLen ih =>
    rw [writeZeros]
    by_cases long : 138 < runLen
    · rw [if_pos long]
      obtain ⟨rest, s', done, wrote, low, high, sum, encodes'⟩ :=
        ih (runLen - 138) (by omega) (by omega) (encodes.putManyZeros (by decide : 138 - 11 < 128))
      refine ⟨rest, s', 138 + done, wrote, low, high, by omega, ?_⟩
      rw [List.replicate_add, ← List.append_assoc]
      exact encodes'
    · rw [if_neg long]
      refine ⟨runLen, s, 0, rfl, positive, by omega, by omega, ?_⟩
      rw [List.replicate_zero, List.append_nil]
      exact encodes

theorem writeRepeats_encodes {previous : Nat} (runLen : Nat) (positive : 1 ≤ runLen) (encodes : Encodes s lens)
    (last : lens.getLast? = some previous) :
    ∃ rest s' done, writeRepeats runLen s = (rest, s') ∧ 1 ≤ rest ∧ rest ≤ 6 ∧ done + rest = runLen ∧
      (lens ++ List.replicate done previous).getLast? = some previous ∧
      Encodes s' (lens ++ List.replicate done previous) := by
  induction runLen using Nat.strong_induction_on generalizing s lens with
  | _ runLen ih =>
    rw [writeRepeats]
    by_cases long : 6 < runLen
    · rw [if_pos long]
      have longer : (lens ++ List.replicate (3 + (6 - 3)) previous).getLast? = some previous := by
        rw [List.getLast?_append, List.getLast?_replicate]
        rfl
      obtain ⟨rest, s', done, wrote, low, high, sum, last', encodes'⟩ :=
        ih (runLen - 6) (by omega) (by omega) (encodes.putRepeat last (by decide : 6 - 3 < 4)) longer
      rw [List.append_assoc, ← List.replicate_add] at last' encodes'
      exact ⟨rest, s', 6 + done, wrote, low, high, by omega, last', encodes'⟩
    · rw [if_neg long]
      refine ⟨runLen, s, 0, rfl, positive, by omega, by omega, ?_⟩
      rw [List.replicate_zero, List.append_nil]
      exact ⟨last, encodes⟩

/-- A run of one length -/
theorem writeRl_encodes {lastLen runLen : Nat} (small : lastLen ≤ 15) (positive : 1 ≤ runLen) (encodes : Encodes s lens) :
    ∃ s', writeRl lastLen runLen s = some s' ∧ Encodes s' (lens ++ List.replicate runLen lastLen) := by
  rw [writeRl]
  by_cases zero : lastLen = 0
  · rw [if_pos zero]
    subst zero
    obtain ⟨rest, s', done, wrote, low, high, sum, encodes'⟩ := writeZeros_encodes runLen positive encodes
    rw [wrote, ← sum, List.replicate_add, ← List.append_assoc]
    dsimp only
    by_cases many : 10 < rest
    · rw [if_pos many]
      have put := encodes'.putManyZeros (by omega : rest - 11 < 128)
      rw [Nat.add_sub_cancel' (by omega)] at put
      exact ⟨_, rfl, put⟩
    · rw [if_neg many]
      by_cases some_ : 2 < rest
      · rw [if_pos some_]
        have put := encodes'.putZeros (by omega : rest - 3 < 8)
        rw [Nat.add_sub_cancel' (by omega)] at put
        exact ⟨_, rfl, put⟩
      · rw [if_neg some_]
        rcases (by omega : rest = 1 ∨ rest = 2) with rfl | rfl
        · exact ⟨_, rfl, encodes'.putLength small⟩
        · have put := (encodes'.putLength small).putLength small
          rw [List.append_assoc] at put
          exact ⟨_, rfl, put⟩
  · rw [if_neg zero]
    obtain ⟨more, rfl⟩ : ∃ more, runLen = 1 + more := ⟨runLen - 1, by omega⟩
    have first := encodes.putLength small
    have last : (lens ++ [lastLen]).getLast? = some lastLen := by
      rw [List.getLast?_append]
      rfl
    rw [Nat.add_sub_cancel_left, List.replicate_add, List.replicate_one, ← List.append_assoc]
    dsimp only
    by_cases one : more ≠ 0
    · rw [if_pos one]
      obtain ⟨rest, s', done, wrote, low, high, sum, last', encodes'⟩ :=
        writeRepeats_encodes more (by omega) first last
      rw [wrote, ← sum, List.replicate_add, ← List.append_assoc]
      dsimp only
      by_cases once : rest = 1
      · rw [if_pos once, once]
        exact ⟨_, rfl, encodes'.putLength small⟩
      · rw [if_neg once]
        by_cases twice : rest = 2
        · rw [if_pos twice, twice]
          have put := (encodes'.putLength small).putLength small
          rw [List.append_assoc] at put
          exact ⟨_, rfl, put⟩
        · rw [if_neg twice]
          have put := encodes'.putRepeat last' (by omega : rest - 3 < 4)
          rw [Nat.add_sub_cancel' (by omega)] at put
          exact ⟨_, rfl, put⟩
    · rw [if_neg one]
      obtain rfl : more = 0 := by omega
      rw [List.replicate_zero, List.append_nil]
      exact ⟨_, rfl, first⟩

theorem encodeRuns_encodes {lastLen runLen : Nat} (small : lastLen ≤ 15) (positive : 1 ≤ runLen) (codes : List Nat)
    (bounded : ∀ len ∈ codes, len ≤ 15) (encodes : Encodes s lens) :
    ∃ s', encodeRuns lastLen runLen codes s = some s' ∧ Encodes s' (lens ++ List.replicate runLen lastLen ++ codes) := by
  induction codes generalizing lastLen runLen s lens with
  | nil =>
    rw [List.append_nil]
    exact writeRl_encodes small positive encodes
  | cons len codes ih =>
    have rest : ∀ len ∈ codes, len ≤ 15 := fun len member => bounded len (List.mem_cons_of_mem _ member)
    rw [encodeRuns]
    by_cases same : len = lastLen
    · rw [if_pos same]
      obtain ⟨s', result, encodes'⟩ := ih small (by omega : 1 ≤ runLen + 1) rest encodes
      refine ⟨s', result, ?_⟩
      rw [List.replicate_add, List.replicate_one] at encodes'
      rw [same]
      simpa using encodes'
    · rw [if_neg same]
      obtain ⟨s₁, wrote, encodes₁⟩ := writeRl_encodes small positive encodes
      obtain ⟨s', result, encodes'⟩ := ih (bounded len (List.mem_cons_self ..)) (le_refl 1) rest encodes₁
      refine ⟨s', ?_, ?_⟩
      · rw [wrote]
        exact result
      · simpa using encodes'

/-- The codes stand for the lengths they were made from. -/
theorem rlEncode_encodes {codes : List Nat} (some_ : codes ≠ []) (bounded : ∀ len ∈ codes, len ≤ 15) :
    ∃ s, rlEncode codes = some s ∧ Encodes s codes := by
  cases codes with
  | nil => exact absurd rfl some_
  | cons code codes =>
    obtain ⟨s, result, encodes⟩ := encodeRuns_encodes (bounded code (List.mem_cons_self ..)) (le_refl 1) codes
      (fun len member => bounded len (List.mem_cons_of_mem _ member)) Encodes.nothing
    exact ⟨s, result, encodes⟩

end
end Isal.HuffCodes
