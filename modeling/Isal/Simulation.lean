import Isal.FixedHeaders
import Isal.InflateDecode
import Isal.ReferenceTokens

/-! How a state of the decompressor stands for one of the reference decoder. The output
between the two start pointers, what overflowed, and output that lies further back than any
match reaches are together the output of the reference decoder. -/
namespace Isal.Inflate

open Isal.Bits Isal.PrefixCode Isal.Rfc1951

section Bytes

theorem packed_cons_or (byte : UInt8) (rest : List Nat) :
    packed (byte.toNat :: rest) = byte.toNat + packed rest * 2 ^ 8 :=
  or_shiftLeft byte.toNat_lt

/-- Packed symbols are stored as the bytes they are, up to a last one that may be larger. -/
theorem toLeBytes_packed (bytes : List UInt8) (rest : List Nat) :
    toLeBytes (packed (bytes.map UInt8.toNat ++ rest)) bytes.length = bytes := by
  induction bytes with
  | nil => rfl
  | cons byte bytes ih =>
    rw [List.map_cons, List.cons_append, packed_cons_or, List.length_cons, toLeBytes,
      show (byte.toNat + packed (bytes.map UInt8.toNat ++ rest) * 2 ^ 8) / 256 = packed (bytes.map UInt8.toNat ++ rest) by
        have := byte.toNat_lt; omega, ih]
    congr 1
    apply UInt8.toNat_inj.mp
    rw [UInt8.toNat_ofNat', Nat.add_mul_mod_self_right, Nat.mod_eq_of_lt byte.toNat_lt]

theorem packed_shift (bytes : List UInt8) (rest : List Nat) :
    packed (bytes.map UInt8.toNat ++ rest) >>> (8 * bytes.length) = packed rest := by
  induction bytes with
  | nil => rfl
  | cons byte bytes ih =>
    rw [List.map_cons, List.cons_append, packed_cons_or, List.length_cons, Nat.mul_succ, Nat.add_comm (8 * bytes.length),
      Nat.shiftRight_add, Nat.shiftRight_eq_div_pow _ 8,
      show (byte.toNat + packed (bytes.map UInt8.toNat ++ rest) * 2 ^ 8) / 2 ^ 8 = packed (bytes.map UInt8.toNat ++ rest) by
        have := byte.toNat_lt; omega, ih]

end Bytes

section Copies

variable {dist n : Nat} {out : List UInt8}

theorem byteCopy_eq : byteCopy dist n out = Rfc1951.copyMatch dist n out := by
  induction n generalizing out with
  | zero => rfl
  | succ n ih => exact ih

/-- A copy that does not overlap what it writes. -/
theorem copyMatch_apart (short : n ≤ dist) (inside : dist ≤ out.length) :
    Rfc1951.copyMatch dist n out = out ++ (out.drop (out.length - dist)).take n := by
  induction n generalizing out with
  | zero => simp [Rfc1951.copyMatch]
  | succ n ih =>
    have here : out.length - dist < out.length := by omega
    rw [Rfc1951.copyMatch, ih (by omega) (by simp; omega), List.append_assoc, List.drop_eq_getElem_cons here,
      List.take_succ_cons, List.getElem?_eq_getElem here, Option.getD_some, List.length_append, List.length_singleton,
      List.drop_append_of_le_length (by omega), List.take_append_of_le_length (by simp; omega),
      show out.length + 1 - dist = out.length - dist + 1 by omega]
    rfl

theorem copyMatch_ref (inside : dist ≤ out.length) : copyMatch dist n out = Rfc1951.copyMatch dist n out := by
  rw [copyMatch]
  split
  · rw [copyMatch_apart (by omega) inside]
  · exact byteCopy_eq

/-- What lies before the bytes that are copied from plays no part. -/
theorem copyMatch_hidden (hidden : List UInt8) (inside : dist ≤ out.length) :
    Rfc1951.copyMatch dist n (hidden ++ out) = hidden ++ Rfc1951.copyMatch dist n out := by
  induction n generalizing out with
  | zero => rfl
  | succ n ih =>
    rw [Rfc1951.copyMatch, Rfc1951.copyMatch, List.append_assoc, ih (by simp; omega), List.length_append,
      Nat.add_sub_assoc inside, List.getElem?_append_right (Nat.le_add_right _ _), Nat.add_sub_cancel_left]

theorem copyMatch_add (m : Nat) :
    Rfc1951.copyMatch dist (n + m) out = Rfc1951.copyMatch dist m (Rfc1951.copyMatch dist n out) := by
  induction n generalizing out with
  | zero => rw [Nat.zero_add]; rfl
  | succ n ih => rw [Nat.succ_add]; exact ih

end Copies

/-- Literals that found no room. -/
def InflateState.pendingLits (s : InflateState) : List UInt8 := toLeBytes s.writeOverflowLits s.writeOverflowLen

/-- The output with all that overflowed. -/
def InflateState.produced (hidden : List UInt8) (s : InflateState) : List UInt8 :=
  Rfc1951.copyMatch s.copyOverflowDistance s.copyOverflowLength (hidden ++ s.out ++ s.pendingLits)

theorem produced_length (hidden : List UInt8) (s : InflateState) :
    (s.produced hidden).length = hidden.length + s.out.length + s.writeOverflowLen + s.copyOverflowLength := by
  rw [InflateState.produced, Rfc1951.copyMatch_length, List.length_append, List.length_append, InflateState.pendingLits,
    toLeBytes_length]

theorem produced_out (hidden : List UInt8) (s : InflateState) : hidden ++ s.out <+: s.produced hidden := by
  obtain ⟨copied, whole, -⟩ := copyMatch_eq s.copyOverflowDistance s.copyOverflowLength (hidden ++ s.out ++ s.pendingLits)
  rw [InflateState.produced, whole, List.append_assoc]
  exact List.prefix_append _ _

/-- Nothing has overflowed. -/
structure Calm (s : InflateState) : Prop where
  lits : s.writeOverflowLits = 0
  len : s.writeOverflowLen = 0
  copy : s.copyOverflowLength = 0
  distance : s.copyOverflowDistance = 0

theorem Calm.produced {s : InflateState} (calm : Calm s) (hidden : List UInt8) : s.produced hidden = hidden ++ s.out := by
  rw [InflateState.produced, InflateState.pendingLits, calm.len, calm.copy]
  simp [toLeBytes, Rfc1951.copyMatch]

/-- The distance symbols below `limit` are those of the distances up to `window`, or fewer. -/
def Reaches (limit window : Nat) : Prop :=
  ∀ i < limit, Rfc1951.distStart[i]?.getD 0 + 2 ^ Rfc1951.distExtra[i]?.getD 0 ≤ window + 1

theorem reaches_all {limit : Nat} (h : limit ≤ 30) : Reaches limit 32768 :=
  fun i small => distStart_le i (by omega)

/-- A stored block of length 0 is over for the reference decoder as soon as its header is read. -/
def storedMode (left : Nat) (final : Bool) : Mode := if left = 0 then boundary final else .stored left final

theorem storedMode_ne {left : Nat} {final final' : Bool} {codes : Codes} :
    Mode.coded codes final' ≠ storedMode left final := by
  rw [storedMode]
  split
  · exact boundary_ne_coded.symm
  · exact nofun

/-- The place in the stream. -/
inductive ModeSim (window : Nat) (s : InflateState) : Mode → Prop
  | header (state : s.blockState = .newHdr) : ModeSim window s .header
  | stored (final : Bool) (mode : Mode) (is_ : mode = storedMode s.count final)
      (bfinal : s.bfinal ≠ 0 ↔ final = true) (state : s.blockState = .type0) (aligned : 8 ∣ s.readInLength)
      (clear : s.readInLength = 0 → s.readIn = 0) : ModeSim window s mode
  | coded (codes : Codes) (final : Bool) (limit : Nat) (bfinal : s.bfinal ≠ 0 ↔ final = true)
      (state : s.blockState = .coded) (tables : Tables codes limit s.litHuffCode s.distHuffCode)
      (bound : s.maxDist ≤ limit) (small : limit ≤ distLen) (reach : Reaches limit window) :
      ModeSim window s (.coded codes final)
  | done (state : s.blockState = .inputDone) : ModeSim window s .done

/-- The state without its output. -/
def InflateState.unwritten (s : InflateState) : InflateState :=
  { s with
    out := [], availOut := 0, totalOut := 0
    writeOverflowLits := 0, writeOverflowLen := 0, copyOverflowLength := 0, copyOverflowDistance := 0 }

/-- What decoding of a block goes by, which neither the output nor its checksum is part of. -/
def InflateState.reading (s : InflateState) : InflateState :=
  { s.unwritten with crc := 0, tmpOut := [], tmpOutProcessed := 0 }

theorem reading_of_unwritten {s t : InflateState} (same : t.unwritten = s.unwritten) : t.reading = s.reading := by
  rw [InflateState.reading, InflateState.reading, same]

theorem ModeSim.reading {window : Nat} {s t : InflateState} {m : Mode} (h : ModeSim window s m)
    (same : t.reading = s.reading) : ModeSim window t m := by
  have there : ModeSim window t.reading m := by
    rw [same]
    cases h with
    | header state => exact .header state
    | stored final _ is_ bfinal state aligned clear => exact .stored final _ is_ bfinal state aligned clear
    | coded codes final limit bfinal state tables bound small reach =>
      exact .coded codes final limit bfinal state tables bound small reach
    | done state => exact .done state
  cases there with
  | header state => exact .header state
  | stored final _ is_ bfinal state aligned clear => exact .stored final _ is_ bfinal state aligned clear
  | coded codes final limit bfinal state tables bound small reach =>
    exact .coded codes final limit bfinal state tables bound small reach
  | done state => exact .done state

theorem ModeSim.unwritten {window : Nat} {s t : InflateState} {m : Mode} (h : ModeSim window s m)
    (same : t.unwritten = s.unwritten) : ModeSim window t m := h.reading (reading_of_unwritten same)

theorem ModeSim.notStored {window : Nat} {s : InflateState} {codes : Codes} {final : Bool}
    (h : ModeSim window s (.coded codes final)) : s.blockState ≠ .type0 := by
  cases h with
  | stored _ _ is_ => exact absurd is_ storedMode_ne
  | coded _ _ _ _ state => rw [state]; exact nofun

theorem ModeSim.notDone {window : Nat} {s : InflateState} {codes : Codes} {final : Bool}
    (h : ModeSim window s (.coded codes final)) : s.blockState ≠ .inputDone := by
  cases h with
  | stored _ _ is_ => exact absurd is_ storedMode_ne
  | coded _ _ _ _ state => rw [state]; exact nofun

theorem ModeSim.ofStored {window : Nat} {s : InflateState} {m : Mode} (h : ModeSim window s m)
    (state : s.blockState = .type0) : ∃ final, m = storedMode s.count final ∧ (s.bfinal ≠ 0 ↔ final = true) ∧
      8 ∣ s.readInLength ∧ (s.readInLength = 0 → s.readIn = 0) := by
  cases h with
  | header here => rw [state] at here; cases here
  | stored final _ is_ bfinal here aligned clear => exact ⟨final, is_, bfinal, aligned, clear⟩
  | coded _ _ _ _ here => rw [state] at here; cases here
  | done here => rw [state] at here; cases here

theorem ModeSim.resting {window : Nat} {s : InflateState} {m : Mode} (h : ModeSim window s m)
    (noStored : s.blockState ≠ .type0) (noCoded : s.blockState ≠ .coded) :
    s.blockState = .newHdr ∨ s.blockState = .inputDone := by
  cases h with
  | header here => exact Or.inl here
  | stored _ _ _ _ here => exact absurd here noStored
  | coded _ _ _ _ here => exact absurd here noCoded
  | done here => exact Or.inr here

/-- In a coded block a refill of the buffer changes nothing. -/
theorem ModeSim.loaded {window : Nat} {s : InflateState} {m : Mode} (h : ModeSim window s m)
    (state : s.blockState = .coded) (inp : InStream) : ModeSim window (s.withIn inp) m := by
  cases h with
  | header here => rw [state] at here; cases here
  | stored final _ is_ bfinal here => rw [state] at here; cases here
  | coded codes final limit bfinal here tables bound small reach =>
    exact .coded codes final limit bfinal here tables bound small reach
  | done here => rw [state] at here; cases here

theorem ModeSim.tables {window : Nat} {s : InflateState} {m : Mode} (h : ModeSim window s m)
    (state : s.blockState = .coded) :
    ∃ codes final limit, m = .coded codes final ∧ Tables codes limit s.litHuffCode s.distHuffCode := by
  cases h with
  | header here => rw [state] at here; cases here
  | stored final _ is_ bfinal here => rw [state] at here; cases here
  | coded codes final limit bfinal here tables => exact ⟨codes, final, limit, rfl, tables⟩
  | done here => rw [state] at here; cases here

/-- `hidden` is output before the first byte that `out` still holds. -/
structure Sim (window : Nat) (hidden : List UInt8) (s : InflateState) (r : State) : Prop where
  views : Views s.toInStream (bitsVal r.bits) r.bits.length
  out : r.out = s.produced hidden
  enough : hidden = [] ∨ histSize ≤ s.out.length
  mode : ModeSim window s r.mode

/-- What decoding leaves alone, apart from the input buffer and the output. -/
def InflateState.withoutBlock (s : InflateState) : InflateState :=
  { s.withoutHeader with
    out := [], availOut := 0, totalOut := 0
    writeOverflowLits := 0, writeOverflowLen := 0, copyOverflowLength := 0, copyOverflowDistance := 0 }

structure Frame (s s' : InflateState) : Prop where
  rest : s'.withoutBlock = s.withoutBlock
  buf : s'.buf = s.buf
  grows : s.out <+: s'.out
  room : s'.out.length + s'.availOut = s.out.length + s.availOut
  total : s'.totalOut = s.totalOut + .ofNat (s'.out.length - s.out.length)

theorem Frame.refl (s : InflateState) : Frame s s where
  rest := rfl
  buf := rfl
  grows := List.prefix_rfl
  room := rfl
  total := by simp

theorem Frame.trans {s t u : InflateState} (first : Frame s t) (second : Frame t u) : Frame s u where
  rest := second.rest.trans first.rest
  buf := second.buf.trans first.buf
  grows := first.grows.trans second.grows
  room := second.room.trans first.room
  total := by
    have := first.grows.length_le
    have := second.grows.length_le
    rw [second.total, first.total, UInt32.add_assoc, ← UInt32.ofNat_add]
    congr 2
    omega

theorem Frame.maxDist {s t : InflateState} (h : Frame s t) : t.maxDist = s.maxDist := by
  have same := congrArg InflateState.maxDist h.rest
  exact same

/-- A change of fields that decoding is free to change. -/
theorem Frame.of_eq {s t : InflateState} (rest : t.withoutBlock = s.withoutBlock) (buf : t.buf = s.buf)
    (out : t.out = s.out) (room : t.availOut = s.availOut) (total : t.totalOut = s.totalOut) : Frame s t where
  rest := rest
  buf := buf
  grows := by rw [out]
  room := by rw [out, room]
  total := by simp [out, total]

/-- Output that is written, with room for it. -/
theorem Frame.of_written {s t : InflateState} (same : t.unwritten = s.unwritten) {bytes : List UInt8}
    (out : t.out = s.out ++ bytes) (room : t.availOut + bytes.length = s.availOut)
    (total : t.totalOut = s.totalOut + .ofNat bytes.length) : Frame s t where
  rest := by
    have rest := congrArg InflateState.withoutBlock same
    exact rest
  buf := congrArg (·.buf) same
  grows := by rw [out]; exact List.prefix_append _ _
  room := by
    rw [out, List.length_append]
    omega
  total := by rw [out, List.length_append, Nat.add_sub_cancel_left, total]

theorem Kept.frame {s t : InflateState} (h : Kept s t) : Frame s t := by
  obtain ⟨same, buf⟩ := h
  refine .of_eq ?_ buf ?_ ?_ ?_
  · rw [InflateState.withoutBlock, InflateState.withoutBlock, same]
  · exact congrArg (·.out) same
  · exact congrArg (·.availOut) same
  · exact congrArg (·.totalOut) same

end Isal.Inflate
