import Isal.PrefixCode

/-! A reference decoder for raw deflate streams: one symbol at a time with canonical
codes, as a state machine whose every step consumes bits. It says what a stream means
and is written without regard to how the library decodes. -/
namespace Isal.Rfc1951

open Isal.Bits Isal.PrefixCode

/-- A reader of bits. -/
abbrev Get (α : Type) := List Bool → Parse α

def Get.bind (first : Get α) (next : α → Get β) : Get β := fun bits =>
  match first bits with
  | .ok value rest => next value rest
  | .more => .more
  | .bad => .bad

instance : Monad Get where
  pure value := fun bits => .ok value bits
  bind := Get.bind

def fail : Get α := fun _ => .bad

def num (n : Nat) : Get Nat := fun bits =>
  if bits.length < n then .more else .ok (bitsVal (bits.take n)) (bits.drop n)

def nums (width : Nat) : Nat → Get (List Nat)
  | 0 => pure []
  | n + 1 => do
    let first ← num width
    let rest ← nums width n
    return first :: rest

/-- The input is a whole number of bytes, so the rest of the current byte is what is left over. -/
def align : Get Unit := fun bits => .ok () (bits.drop (bits.length % 8))

def lenStart : List Nat := [3, 4, 5, 6, 7, 8, 9, 10, 11, 13, 15, 17, 19, 23, 27, 31, 35, 43, 51, 59,
  67, 83, 99, 115, 131, 163, 195, 227, 258]
def lenExtra : List Nat := [0, 0, 0, 0, 0, 0, 0, 0, 1, 1, 1, 1, 2, 2, 2, 2, 3, 3, 3, 3, 4, 4, 4, 4,
  5, 5, 5, 5, 0]
def distStart : List Nat := [1, 2, 3, 4, 5, 7, 9, 13, 17, 25, 33, 49, 65, 97, 129, 193, 257, 385,
  513, 769, 1025, 1537, 2049, 3073, 4097, 6145, 8193, 12289, 16385, 24577]
def distExtra : List Nat := [0, 0, 0, 0, 1, 1, 2, 2, 3, 3, 4, 4, 5, 5, 6, 6, 7, 7, 8, 8, 9, 9, 10, 10,
  11, 11, 12, 12, 13, 13]

/-- Order in which a dynamic header gives the lengths of the code-length code. -/
def codeLengthOrder : List Nat := [16, 17, 18, 0, 8, 7, 9, 6, 10, 5, 11, 4, 12, 3, 13, 2, 14, 1, 15]

def codeLengthCode (given : List Nat) : List Nat :=
  (List.range 19).map fun sym => given[codeLengthOrder.idxOf sym]?.getD 0

def oversubscribed (lens : List Nat) : Bool := 2 ^ 15 < kraft lens 15

/-- The code lengths of both alphabets as one run; repeats may cross from one to the other. -/
def readLengths (clens : List Nat) (total : Nat) : (fuel : Nat) → List Nat → Get (List Nat)
  | 0, _ => fail
  | fuel + 1, lens =>
    if total < lens.length then fail
    else if lens.length = total then pure lens
    else do
      let sym ← decodeSym clens 19
      if sym < 16 then readLengths clens total fuel (lens ++ [sym])
      else if sym = 16 then
        match lens.getLast? with
        | none => fail
        | some previous => do
          let n ← num 2
          readLengths clens total fuel (lens ++ List.replicate (3 + n) previous)
      else if sym = 17 then do
        let n ← num 3
        readLengths clens total fuel (lens ++ List.replicate (3 + n) 0)
      else do
        let n ← num 7
        readLengths clens total fuel (lens ++ List.replicate (11 + n) 0)

structure Codes where
  lit : List Nat
  dist : List Nat
  deriving Repr, DecidableEq

def fixedCodes : Codes where
  lit := List.replicate 144 8 ++ List.replicate 112 9 ++ List.replicate 24 7 ++ List.replicate 8 8
  dist := List.replicate 32 5

/-- The two codes of a dynamic block, from the lengths of the code-length code on. -/
def readCodes (hlit hdist hclen : Nat) : Get Codes := do
  let given ← nums 3 (hclen + 4)
  let clens := codeLengthCode given
  if clens.all (· = 0) || oversubscribed clens then fail
  else do
    let total := hlit + 257 + (hdist + 1)
    let lens ← readLengths clens total (total + 1) []
    let lit := lens.take (hlit + 257)
    let dist := lens.drop (hlit + 257)
    if lengthOf lit 256 = 0 || oversubscribed dist || oversubscribed lit then fail
    else return ⟨lit, dist⟩

def readDynamic : Get Codes := do
  let hlit ← num 5
  let hdist ← num 5
  let hclen ← num 4
  if 29 < hlit ∨ 29 < hdist then fail else readCodes hlit hdist hclen

inductive Block where
  | stored (length : Nat)
  | coded (codes : Codes)
  deriving Repr, DecidableEq

def readStored : Get Block := do
  align
  let len ← num 16
  let nlen ← num 16
  if len + nlen = 2 ^ 16 - 1 then return .stored len else fail

def readKind (kind : Nat) : Get Block :=
  if kind = 0 then readStored
  else if kind = 1 then return .coded fixedCodes
  else if kind = 2 then do return .coded (← readDynamic)
  else fail

def readBlock : Get (Bool × Block) := do
  let final ← num 1
  let kind ← num 2
  let block ← readKind kind
  return (final = 1, block)

inductive Mode where
  | header
  | stored (left : Nat) (final : Bool)
  | coded (codes : Codes) (final : Bool)
  | done
  deriving Repr, DecidableEq

/-- Bits to come and bytes produced. -/
structure State where
  mode : Mode
  bits : List Bool
  out : List UInt8
  deriving Repr, DecidableEq

inductive Outcome where
  | next (s : State)
  | done
  | more
  | bad
  deriving Repr, DecidableEq

def boundary (final : Bool) : Mode := if final then .done else .header

/-- `length` bytes, each the one `dist` bytes back. -/
def copyMatch (dist : Nat) : (length : Nat) → List UInt8 → List UInt8
  | 0, out => out
  | length + 1, out => copyMatch dist length (out ++ [out[out.length - dist]?.getD 0])

inductive Token where
  | literal (byte : UInt8)
  | endOfBlock
  | copy (length dist : Nat)
  deriving Repr, DecidableEq

def readMatch (codes : Codes) (sym : Nat) : Get Token := do
  let extra ← num (lenExtra[sym - 257]?.getD 0)
  let distSym ← decodeSym codes.dist codes.dist.length
  if 29 < distSym then fail
  else do
    let distExtra ← num (distExtra[distSym]?.getD 0)
    return .copy (lenStart[sym - 257]?.getD 0 + extra) (distStart[distSym]?.getD 0 + distExtra)

def readToken (codes : Codes) : Get Token := do
  let sym ← decodeSym codes.lit 286
  if sym < 256 then return .literal (UInt8.ofNat sym)
  else if sym = 256 then return .endOfBlock
  else readMatch codes sym

def Parse.outcome (parsed : Parse α) (next : α → List Bool → Outcome) : Outcome :=
  match parsed with
  | .ok value rest => next value rest
  | .more => .more
  | .bad => .bad

def step (s : State) : Outcome :=
  match s.mode with
  | .done => .done
  | .header => Parse.outcome (readBlock s.bits) fun (final, block) rest =>
    match block with
    | .stored 0 => .next ⟨boundary final, rest, s.out⟩
    | .stored n => .next ⟨.stored n final, rest, s.out⟩
    | .coded codes => .next ⟨.coded codes final, rest, s.out⟩
  | .stored left final => Parse.outcome (num 8 s.bits) fun byte rest =>
    .next ⟨if left ≤ 1 then boundary final else .stored (left - 1) final, rest, s.out ++ [UInt8.ofNat byte]⟩
  | .coded codes final => Parse.outcome (readToken codes s.bits) fun token rest =>
    match token with
    | .literal byte => .next ⟨s.mode, rest, s.out ++ [byte]⟩
    | .endOfBlock => .next ⟨boundary final, rest, s.out⟩
    | .copy length dist =>
      if s.out.length < dist then .bad else .next ⟨s.mode, rest, copyMatch dist length s.out⟩

/-- In a coded block a step is what becomes of the next token. -/
theorem step_coded {s : State} {codes : Codes} {final : Bool} (mode : s.mode = .coded codes final)
    {parsed : Parse Token} (read : readToken codes s.bits = parsed) :
    step s = Parse.outcome parsed fun token rest =>
      match token with
      | .literal byte => .next ⟨s.mode, rest, s.out ++ [byte]⟩
      | .endOfBlock => .next ⟨boundary final, rest, s.out⟩
      | .copy length dist =>
        if s.out.length < dist then .bad else .next ⟨s.mode, rest, copyMatch dist length s.out⟩ := by
  subst read
  cases s
  cases mode
  rfl

/-- How a decoding ended, with the state in which it did. -/
inductive Verdict where
  | finished
  | incomplete
  | invalid
  deriving Repr, DecidableEq

def run : Nat → State → Verdict × State
  | 0, s => (.incomplete, s)
  | fuel + 1, s =>
    match step s with
    | .next s' => run fuel s'
    | .done => (.finished, s)
    | .more => (.incomplete, s)
    | .bad => (.invalid, s)

/-- Every step but the last consumes a bit, so the fuel never runs out. -/
def decode (input : List UInt8) : Verdict × State :=
  run (8 * input.length + 1) ⟨.header, bytesBits input, []⟩

/-- There is no result; whether more bits would help is left open. -/
def Parse.Fails (parsed : Parse α) : Prop := ∀ value rest, parsed ≠ .ok value rest

theorem fails_more : Parse.Fails (.more : Parse α) := fun _ _ => nofun

theorem fails_bad : Parse.Fails (.bad : Parse α) := fun _ _ => nofun

theorem pure_eq {value : α} {bits : List Bool} : (pure value : Get α) bits = .ok value bits := rfl

theorem fail_eq {bits : List Bool} : (fail : Get α) bits = .bad := rfl

theorem bind_ok {first : Get α} {next : α → Get β} {bits rest : List Bool} {value : α}
    (h : first bits = .ok value rest) : (first >>= next) bits = next value rest := by
  simp [Bind.bind, Get.bind, h]

theorem bind_more {first : Get α} {next : α → Get β} {bits : List Bool}
    (h : first bits = .more) : (first >>= next) bits = .more := by
  simp [Bind.bind, Get.bind, h]

theorem bind_bad {first : Get α} {next : α → Get β} {bits : List Bool}
    (h : first bits = .bad) : (first >>= next) bits = .bad := by
  simp [Bind.bind, Get.bind, h]

theorem bind_fails {first : Get α} {next : α → Get β} {bits : List Bool}
    (h : Parse.Fails (first bits)) : Parse.Fails ((first >>= next) bits) := by
  cases parsed : first bits with
  | ok value rest => exact absurd parsed (h value rest)
  | more => rw [bind_more parsed]; exact fails_more
  | bad => rw [bind_bad parsed]; exact fails_bad

theorem num_ok {k : Nat} {bits : List Bool} (enough : k ≤ bits.length) :
    num k bits = .ok (bitsVal bits % 2 ^ k) (bits.drop k) := by
  rw [num, if_neg (Nat.not_lt.mpr enough), bitsVal_take]

theorem num_more {k : Nat} {bits : List Bool} (short : bits.length < k) : num k bits = .more := by
  rw [num, if_pos short]

/-- The `i`th field of `k` bits. -/
def digit (k v i : Nat) : Nat := v / 2 ^ (k * i) % 2 ^ k

theorem nums_ok {k n : Nat} {bits : List Bool} (enough : k * n ≤ bits.length) :
    nums k n bits = .ok ((List.range n).map (digit k (bitsVal bits))) (bits.drop (k * n)) := by
  induction n generalizing bits with
  | zero => simp [nums, pure_eq]
  | succ n ih =>
    rw [Nat.mul_succ] at enough
    rw [nums, bind_ok (num_ok (by omega)), bind_ok (ih (by simp; omega)), pure_eq, List.range_succ_eq_map,
      List.drop_drop, Nat.mul_succ, Nat.add_comm]
    congr 1
    simp only [List.map_cons, List.map_map, digit, Nat.mul_zero, Nat.pow_zero, Nat.div_one, List.cons.injEq,
      true_and, bitsVal_drop]
    apply List.map_congr_left
    intro i _
    simp only [Function.comp_apply, digit, Nat.div_div_eq_div_mul, ← Nat.pow_add]
    rw [Nat.mul_succ, Nat.add_comm]

theorem nums_more {k n : Nat} {bits : List Bool} (short : bits.length < k * n) : nums k n bits = .more := by
  induction n generalizing bits with
  | zero => omega
  | succ n ih =>
    rw [Nat.mul_succ] at short
    rw [nums]
    by_cases enough : k ≤ bits.length
    · rw [bind_ok (num_ok enough), bind_more (ih (by simp; omega))]
    · exact bind_more (num_more (by omega))

end Isal.Rfc1951
