import Isal.HeaderRoundTrip

/-! Stored blocks: how bytes stand in them, and that the reference decoder takes them out again. -/
namespace Isal.Rfc1951
open Bits

def storedMax : Nat := 2 ^ 16 - 1

/-- The rest of a byte of which `used` bits come before the type of a block -/
def blockPad (used : Nat) : Nat := (8 - (used + 3) % 8) % 8

/-- A stored block; its first two bytes are the length and the next two its complement. -/
def storedBlock (final : Bool) (used : Nat) (chunk : List UInt8) : List Bool :=
  lowBits 3 final.toNat ++ (List.replicate (blockPad used) false ++
    bytesBits (toLeBytes chunk.length 2 ++ toLeBytes (storedMax - chunk.length) 2 ++ chunk))

/-- Stored blocks one after the other, of which only the last one may be the final block -/
def storedBlocks (final : Bool) : (used : Nat) → List (List UInt8) → List Bool
  | _, [] => []
  | used, [chunk] => storedBlock final used chunk
  | used, chunk :: next :: chunks => storedBlock false used chunk ++ storedBlocks final 0 (next :: chunks)

/-- Bytes in pieces of the greatest length, and what is left over -/
def chunksOf (data : List UInt8) : List (List UInt8) :=
  if data.length ≤ storedMax then [data] else data.take storedMax :: chunksOf (data.drop storedMax)
termination_by data.length
decreasing_by
  rw [List.length_drop, storedMax] at *
  omega

theorem chunksOf_short {data : List UInt8} (short : data.length ≤ storedMax) : chunksOf data = [data] := by
  rw [chunksOf, if_pos short]

theorem chunksOf_long {data : List UInt8} (long : storedMax < data.length) :
    chunksOf data = data.take storedMax :: chunksOf (data.drop storedMax) := by
  rw [chunksOf, if_neg (Nat.not_le.mpr long)]

theorem chunksOf_spec (data : List UInt8) :
    chunksOf data ≠ [] ∧ (chunksOf data).flatten = data ∧ ∀ chunk ∈ chunksOf data, chunk.length ≤ storedMax := by
  induction data using chunksOf.induct with
  | case1 data short =>
    rw [chunksOf_short short]
    refine ⟨List.cons_ne_nil _ _, List.append_nil data, ?_⟩
    intro chunk member
    rw [List.mem_singleton.mp member]
    exact short
  | case2 data long ih =>
    obtain ⟨-, flat, small⟩ := ih
    rw [chunksOf_long (Nat.not_le.mp long)]
    refine ⟨List.cons_ne_nil _ _, ?_, ?_⟩
    · rw [List.flatten_cons, flat, List.take_append_drop]
    · intro chunk member
      rcases List.mem_cons.mp member with rfl | later
      · exact List.length_take_le ..
      · exact small chunk later

/-- The blocks of more bytes than one block holds -/
theorem storedBlocks_long (final : Bool) (used : Nat) {data : List UInt8} (long : storedMax < data.length) :
    storedBlocks final used (chunksOf data) =
      storedBlock false used (data.take storedMax) ++ storedBlocks final 0 (chunksOf (data.drop storedMax)) := by
  rw [chunksOf_long long]
  obtain ⟨next, chunks, split⟩ := List.exists_cons_of_ne_nil (chunksOf_spec (data.drop storedMax)).1
  rw [split, storedBlocks]

theorem storedBlocks_short (final : Bool) (used : Nat) {data : List UInt8} (short : data.length ≤ storedMax) :
    storedBlocks final used (chunksOf data) = storedBlock final used data := by
  rw [chunksOf_short short, storedBlocks]

/-- The header of a stored block is read, whatever stands in the byte before it. -/
theorem readBlock_stored (final : Bool) (used : Nat) {chunk : List UInt8} (short : chunk.length ≤ storedMax) {rest : List Bool}
    (bytes : 8 ∣ rest.length) : readBlock (storedBlock final used chunk ++ rest) =
      .ok (final, .stored chunk.length) (bytesBits chunk ++ rest) := by
  have first : lowBits 3 final.toNat = lowBits 1 final.toNat ++ lowBits 2 0 := by cases final <;> decide
  have pad : blockPad used < 8 := Nat.mod_lt _ (by decide)
  have lens : ∀ n, n ≤ storedMax → bytesBits (toLeBytes n 2) = lowBits 16 n := by
    intro n small
    rw [storedMax] at small
    apply bitsVal_inj
    · simp
    · rw [bitsVal_bytesBits, bytesVal_toLeBytes, bitsVal_lowBits]
  have aligned : ∀ more : List Bool, 8 ∣ more.length → align (List.replicate (blockPad used) false ++ more) = .ok () more := by
    intro more whole
    have left : (List.replicate (blockPad used) false ++ more).length % 8 = blockPad used := by
      rw [List.length_append, List.length_replicate]
      omega
    rw [align, left, List.drop_left' List.length_replicate]
  have stored : readStored (List.replicate (blockPad used) false ++
      (bytesBits (toLeBytes chunk.length 2 ++ toLeBytes (storedMax - chunk.length) 2 ++ chunk) ++ rest)) =
        .ok (.stored chunk.length) (bytesBits chunk ++ rest) := by
    have small : chunk.length < 2 ^ 16 := Nat.lt_succ_of_le short
    have small' : storedMax - chunk.length < 2 ^ 16 := Nat.lt_succ_of_le (Nat.sub_le ..)
    have whole : 8 ∣ (bytesBits (toLeBytes chunk.length 2 ++ toLeBytes (storedMax - chunk.length) 2 ++ chunk) ++ rest).length := by
      rw [List.length_append, bytesBits_length]
      exact Nat.dvd_add (Nat.dvd_mul_right ..) bytes
    rw [readStored, bind_ok (aligned _ whole), bytesBits_append, bytesBits_append, lens _ short, lens _ (Nat.sub_le ..),
      List.append_assoc, List.append_assoc, bind_ok (num_lowBits small _), bind_ok (num_lowBits small' _),
      if_pos (show chunk.length + (storedMax - chunk.length) = 2 ^ 16 - 1 from Nat.add_sub_cancel' short)]
    rfl
  rw [storedBlock, first, List.append_assoc, List.append_assoc, List.append_assoc, readBlock,
    bind_ok (num_lowBits (by cases final <;> decide) _), bind_ok (num_lowBits (by decide) _), readKind, if_pos rfl,
    bind_ok stored, pure_eq]
  cases final <;> rfl

/-- The bytes of a stored block -/
theorem Steps.bytes (final : Bool) (bytes out : List UInt8) (some_ : bytes ≠ []) (rest : List Bool) :
    Steps ⟨.stored bytes.length final, bytesBits bytes ++ rest, out⟩ ⟨boundary final, rest, out ++ bytes⟩ := by
  induction bytes generalizing out with
  | nil => exact absurd rfl some_
  | cons byte bytes ih =>
    have read : num 8 (bytesBits (byte :: bytes) ++ rest) = .ok byte.toNat (bytesBits bytes ++ rest) := by
      rw [bytesBits_cons, List.append_assoc, byteBits, ← lowBits]
      exact num_lowBits byte.toNat_lt _
    have next : step ⟨.stored (bytes.length + 1) final, bytesBits (byte :: bytes) ++ rest, out⟩ =
        .next ⟨if bytes.length + 1 ≤ 1 then boundary final else .stored bytes.length final, bytesBits bytes ++ rest,
          out ++ [byte]⟩ := by
      rw [step]
      dsimp only
      rw [read, Parse.outcome, UInt8.ofNat_toNat]
      rfl
    cases bytes with
    | nil => exact Steps.single next
    | cons byte' bytes =>
      have more := ih (out ++ [byte]) (List.cons_ne_nil _ _)
      rw [List.append_assoc] at more
      exact Steps.head next more

theorem Steps.storedBlock (final : Bool) (used : Nat) {chunk : List UInt8} (short : chunk.length ≤ storedMax) {rest : List Bool}
    (bytes : 8 ∣ rest.length) (out : List UInt8) :
    Steps ⟨.header, storedBlock final used chunk ++ rest, out⟩ ⟨boundary final, rest, out ++ chunk⟩ := by
  have read := readBlock_stored final used short bytes
  cases chunk with
  | nil =>
    apply Steps.single
    rw [step]
    dsimp only
    rw [read, List.append_nil]
    rfl
  | cons byte chunk =>
    refine Steps.head ?_ (Steps.bytes final (byte :: chunk) out (List.cons_ne_nil _ _) rest)
    rw [step]
    dsimp only
    rw [read]
    rfl

/-- A block ends with a byte. -/
theorem storedBlock_length (final : Bool) (used : Nat) (chunk : List UInt8) :
    (storedBlock final used chunk).length = 3 + blockPad used + 8 * (4 + chunk.length) := by
  rw [storedBlock, List.length_append, List.length_append, lowBits_length, List.length_replicate, bytesBits_length,
    List.length_append, List.length_append, toLeBytes_length, toLeBytes_length]
  omega

theorem storedBlocks_dvd (final : Bool) (chunks : List (List UInt8)) : 8 ∣ (storedBlocks final 0 chunks).length := by
  have block : ∀ final chunk, 8 ∣ (storedBlock final 0 chunk).length := by
    intro final chunk
    have pad : blockPad 0 = 5 := rfl
    rw [storedBlock_length, pad]
    omega
  induction chunks with
  | nil => exact Nat.dvd_zero 8
  | cons chunk chunks ih =>
    cases chunks with
    | nil => exact block final chunk
    | cons next chunks =>
      rw [storedBlocks, List.length_append]
      exact Nat.dvd_add (block false chunk) ih

/-- Five bytes for the header of each block, of which there is at least one -/
theorem storedBlocks_length (final : Bool) (data : List UInt8) : (storedBlocks final 0 (chunksOf data)).length =
    8 * (5 * max 1 ((data.length + (storedMax - 1)) / storedMax) + data.length) := by
  have pad : blockPad 0 = 5 := rfl
  induction data using chunksOf.induct with
  | case1 data short =>
    rw [storedBlocks_short _ _ short, storedBlock_length, pad]
    rw [storedMax] at *
    omega
  | case2 data long ih =>
    rw [storedBlocks_long _ _ (Nat.not_le.mp long), List.length_append, ih, storedBlock_length, pad, List.length_take,
      List.length_drop]
    rw [storedMax] at *
    omega

/-- The bytes of all the blocks come out, and the last block says whether it is the final one. -/
theorem Steps.storedBlocks (final : Bool) (used : Nat) {chunks : List (List UInt8)} (some_ : chunks ≠ [])
    (short : ∀ chunk ∈ chunks, chunk.length ≤ storedMax) {rest : List Bool} (bytes : 8 ∣ rest.length) (out : List UInt8) :
    Steps ⟨.header, storedBlocks final used chunks ++ rest, out⟩ ⟨boundary final, rest, out ++ chunks.flatten⟩ := by
  induction chunks generalizing used out with
  | nil => exact absurd rfl some_
  | cons chunk chunks ih =>
    cases chunks with
    | nil =>
      rw [List.flatten_singleton]
      exact Steps.storedBlock final used (short chunk (List.mem_singleton_self chunk)) bytes out
    | cons next chunks =>
      have later := ih 0 (List.cons_ne_nil _ _) (fun chunk member => short chunk (List.mem_cons_of_mem _ member)) (out ++ chunk)
      rw [List.append_assoc, ← List.flatten_cons] at later
      refine Steps.trans ?_ later
      rw [Rfc1951.storedBlocks, List.append_assoc]
      refine Steps.storedBlock false used (short chunk List.mem_cons_self) ?_ out
      rw [List.length_append]
      exact Nat.dvd_add (storedBlocks_dvd final _) bytes

end Isal.Rfc1951
