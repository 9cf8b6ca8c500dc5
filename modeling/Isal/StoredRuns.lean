import Isal.StoredWriter

/-! What the stored-block writer has written after any number of calls, and what it still has to write. -/
namespace Isal.Deflate
open Inflate Bits Rfc1951

section

variable {s s' s'' : OutStream} {x y bytes : List UInt8}

/-- Bytes have been added to the output, within its room. -/
structure Appends (s s' : OutStream) (bytes : List UInt8) : Prop where
  nextOut : s'.nextOut = s.nextOut + bytes.length
  availOut : s.availOut = s'.availOut + bytes.length
  kept : ∀ i, i < s.nextOut → s'.memory i = s.memory i
  beyond : ∀ i, s.nextOut + s.availOut ≤ i → s'.memory i = s.memory i
  written : bytesAt s'.memory s.nextOut bytes.length = bytes

theorem Appends.refl (s : OutStream) : Appends s s [] := ⟨rfl, rfl, fun _ _ => rfl, fun _ _ => rfl, rfl⟩

theorem Appends.trans (first : Appends s s' x) (second : Appends s' s'' y) : Appends s s'' (x ++ y) := by
  have out := first.nextOut
  have room := first.availOut
  have out' := second.nextOut
  have room' := second.availOut
  constructor
  · rw [List.length_append]
    omega
  · rw [List.length_append]
    omega
  · intro i before
    rw [second.kept i (by omega), first.kept i before]
  · intro i after
    rw [second.beyond i (by omega), first.beyond i after]
  · have front : bytesAt s''.memory s.nextOut x.length = x := by
      refine Eq.trans (bytesAt_congr ?_) first.written
      intro i _ below
      exact second.kept i (by omega)
    rw [List.length_append, bytesAt_add, front, ← out, second.written]

theorem put_appends (s : OutStream) (bytes : List UInt8) (fits : bytes.length ≤ s.availOut) : Appends s (s.put bytes) bytes := by
  constructor
  · rfl
  · exact (Nat.sub_add_cancel fits).symm
  · intro i before
    exact if_neg (by omega)
  · intro i after
    change storeBytes s.memory s.nextOut bytes i = _
    rw [storeBytes_get, if_pos (by omega), List.getElem?_eq_none (by omega), Option.getD_none]
  · apply List.ext_getElem
    · exact bytesAt_length ..
    · intro i inside inside'
      simp only [bytesAt, List.getElem_map, List.getElem_range]
      change storeBytes s.memory s.nextOut bytes (s.nextOut + i) = _
      rw [storeBytes_get, if_pos (Nat.le_add_right ..), Nat.add_sub_cancel_left, List.getElem?_eq_getElem inside',
        Option.getD_some]

end

/-- The bytes of the block that are still to be written -/
def Zstream.left (s : Zstream) : List UInt8 := bytesAt s.input (s.nextIn - s.blockNextOffset) s.blockInSize

/-- The stream ends with this block. -/
def Zstream.ends (s : Zstream) : Bool := s.endOfStream ≠ 0 ∧ s.availIn + s.blockNextOffset = s.blockInSize

/-- What is to be written: bits of earlier blocks, the bytes of a block that has been started, and
blocks that have not. -/
def Zstream.rest (s : Zstream) : List Bool :=
  if s.state = .type0Hdr then lowBits s.bitCount s.bits ++ storedBlocks s.ends s.bitCount (chunksOf s.left)
  else if s.state = .type0Body then
    bytesBits (s.left.take s.count) ++
      if s.count < s.blockInSize then storedBlocks s.ends 0 (chunksOf (s.left.drop s.count)) else []
  else []

/-- The block stands right before the input that follows. -/
structure Behind (s : Zstream) : Prop where
  order : s.blockNext ≤ s.blockEnd
  word : s.blockEnd < 2 ^ 32
  before : s.blockInSize ≤ s.blockNextOffset
  there : s.blockNextOffset ≤ s.nextIn
  -- the block and the input that follows are in one buffer, whose size is a 32-bit number
  small : s.availIn + s.blockNextOffset < 2 ^ 32

/-- The writer stands before the header of a block. -/
structure AtHeader (s : Zstream) : Prop extends Behind s where
  state : s.state = .type0Hdr
  fresh : s.hasEobHdr = 0
  -- with the type of the block, what waits is at most four bytes
  few : s.bitCount ≤ 29
  clean : s.bits < 2 ^ s.bitCount

/-- The writer stands between the bytes of a block. -/
structure InBody (s : Zstream) : Prop extends Behind s where
  state : s.state = .type0Body
  marked : s.hasEobHdr = if s.count = s.blockInSize then s.ends.toNat else 0
  within : s.count ≤ s.blockInSize
  some_ : s.count = 0 → s.blockInSize = 0
  few : s.bitCount = 0
  clean : s.bits = 0

section

variable {s s' s'' : Zstream}

theorem rest_header (state : s.state = .type0Hdr) :
    s.rest = lowBits s.bitCount s.bits ++ storedBlocks s.ends s.bitCount (chunksOf s.left) := by
  rw [Zstream.rest, if_pos state]

theorem rest_body (state : s.state = .type0Body) : s.rest = bytesBits (s.left.take s.count) ++
    if s.count < s.blockInSize then storedBlocks s.ends 0 (chunksOf (s.left.drop s.count)) else [] := by
  rw [Zstream.rest, if_neg (by rw [state]; decide), if_pos state]

theorem left_length (s : Zstream) : s.left.length = s.blockInSize := bytesAt_length ..

/-- The input and the end of the block are the same, and the block begins `n` bytes later. -/
structure Advanced (s s' : Zstream) (n : Nat) : Prop where
  input : s'.input = s.input
  nextIn : s'.nextIn = s.nextIn
  availIn : s'.availIn = s.availIn
  totalIn : s'.totalIn = s.totalIn
  endOfStream : s'.endOfStream = s.endOfStream
  blockEnd : s'.blockEnd = s.blockEnd
  blockNext : s'.blockNext = s.blockNext + n

theorem Behind.advance {n : Nat} (behind : Behind s) (inside : n ≤ s.blockInSize) (moved : Advanced s s' n) :
    Behind s' ∧ s'.blockInSize = s.blockInSize - n ∧ s'.left = s.left.drop n ∧ s'.ends = s.ends := by
  have order := behind.order
  have word := behind.word
  have before := behind.before
  have there := behind.there
  have small := behind.small
  have size : s.blockInSize = s.blockEnd - s.blockNext := by
    rw [Zstream.blockInSize]
    omega
  have size' : s'.blockInSize = s.blockInSize - n := by
    rw [size, Zstream.blockInSize, moved.blockEnd, moved.blockNext]
    omega
  have offset : s'.blockNextOffset = s.blockNextOffset - n := by
    rw [Zstream.blockNextOffset] at before ⊢
    rw [Zstream.blockNextOffset, moved.totalIn, moved.blockNext]
    omega
  refine ⟨⟨?_, ?_, ?_, ?_, ?_⟩, size', ?_, ?_⟩
  · rw [moved.blockNext, moved.blockEnd]
    omega
  · rw [moved.blockEnd]
    exact word
  · omega
  · rw [offset, moved.nextIn]
    omega
  · rw [offset, moved.availIn]
    omega
  · have start : s'.nextIn - s'.blockNextOffset = s.nextIn - s.blockNextOffset + n := by
      rw [offset, moved.nextIn]
      omega
    have whole := bytesAt_add s.input (s.nextIn - s.blockNextOffset) n (s.blockInSize - n)
    rw [Nat.add_sub_cancel' inside] at whole
    rw [Zstream.left, Zstream.left, start, size', moved.input, whole, List.drop_left' (bytesAt_length ..)]
  · rw [Zstream.ends, Zstream.ends, moved.endOfStream, moved.availIn, offset, size']
    congr 1
    exact propext (and_congr_right fun _ => by omega)

/-- Bytes of the headers and `n` bytes of the block go out. -/
structure Stores (s s' : Zstream) (bytes : List UInt8) (n : Nat) : Prop where
  appended : Appends s.toOutStream s'.toOutStream bytes
  rest : s.rest = bytesBits bytes ++ s'.rest
  advanced : Advanced s s' n
  inside : n ≤ s.blockInSize

/-- The bytes of a block's header after the byte with its type -/
theorem storedBlkHdr_bytes {n : Nat} (fits : n < 2 ^ 32) : toLeBytes (storedBlkHdr n) 4 =
    toLeBytes (min n storedMax) 2 ++ toLeBytes (storedMax - min n storedMax) 2 := by
  have byte : ∀ a b : Nat, a % 256 = b % 256 → UInt8.ofNat a = UInt8.ofNat b := by
    intro a b same
    apply UInt8.toNat_inj.mp
    rw [UInt8.toNat_ofNat', UInt8.toNat_ofNat']
    exact same
  obtain ⟨len, isLen⟩ : ∃ len, len = min n storedMax := ⟨_, rfl⟩
  have value : storedBlkHdr n % 2 ^ 32 = len + 2 ^ 16 * (storedMax - len) := by
    rw [storedBlkHdr, type0MaxBlkLen, isLen, storedMax]
    split
    · omega
    · rename_i short
      obtain ⟨k, room⟩ : ∃ k, 65535 = n + k := ⟨65535 - n, by omega⟩
      have high : 2 ^ 32 - 1 - n = k + 65535 * 2 ^ 16 := by omega
      have low : min n (2 ^ 16 - 1) = n := by omega
      have complement : 2 ^ 16 - 1 - n = k := by omega
      have sum : n + 2 ^ 16 * (k + 65535 * 2 ^ 16) = n + 2 ^ 16 * k + 2 ^ 32 * 65535 := by ring
      rw [Nat.lor_comm, Bits.or_shiftLeft (Nat.mod_lt _ (by decide)), high, low, complement,
        Nat.mod_eq_of_lt (by omega : n < 2 ^ 16), sum, Nat.add_mul_mod_self_left]
      exact Nat.mod_eq_of_lt (by omega)
  have upTo : len ≤ storedMax := by omega
  rw [storedMax] at value upTo
  rw [← isLen, storedMax]
  simp only [toLeBytes, List.cons_append, List.nil_append, List.cons.injEq, and_true]
  refine ⟨byte _ _ ?_, byte _ _ ?_, byte _ _ ?_, byte _ _ ?_⟩ <;> omega

/-- A byte in front of the bytes of a number -/
theorem toLeBytes_behind {flag : Nat} (small : flag < 2 ^ 8) (value n : Nat) :
    toLeBytes (value <<< 8 ||| flag) (n + 1) = UInt8.ofNat flag :: toLeBytes value n := by
  have sum : (flag + 2 ^ 8 * value) / 256 = value := by omega
  have low : UInt8.ofNat (flag + 2 ^ 8 * value) = UInt8.ofNat flag := by
    apply UInt8.toNat_inj.mp
    rw [UInt8.toNat_ofNat', UInt8.toNat_ofNat', Nat.add_mul_mod_self_left]
  rw [Nat.lor_comm, Bits.or_shiftLeft small, toLeBytes, sum, low]

theorem bitsVal_zeros (n : Nat) : bitsVal (List.replicate n false) = 0 := by
  have zeros : List.replicate n false = lowBits n 0 := by
    apply List.ext_getElem
    · simp
    · intro i inside inside'
      simp [lowBits]
  rw [zeros, bitsVal_lowBits, Nat.zero_mod]

/-- Bits with zeros behind them, as the bytes of a number -/
theorem bytesBits_padded {bytes : List UInt8} {bits : List Bool} {n : Nat} (length : bits.length + n = 8 * bytes.length)
    (value : bytesVal bytes = bitsVal bits) : bytesBits bytes = bits ++ List.replicate n false := by
  apply bitsVal_inj
  · rw [bytesBits_length, List.length_append, List.length_replicate, length]
  · rw [bitsVal_bytesBits, value, bitsVal_append, bitsVal_zeros, Nat.mul_zero, Nat.add_zero]

/-- The block that comes first, and those after it -/
theorem rest_split (s : Zstream) (used : Nat) : storedBlocks s.ends used (chunksOf s.left) =
    storedBlock (if min s.blockInSize storedMax = s.blockInSize then s.ends else false) used
        (s.left.take (min s.blockInSize storedMax)) ++
      if min s.blockInSize storedMax < s.blockInSize then
        storedBlocks s.ends 0 (chunksOf (s.left.drop (min s.blockInSize storedMax))) else [] := by
  have length := left_length s
  by_cases short : s.blockInSize ≤ storedMax
  · rw [Nat.min_eq_left short, if_pos rfl, if_neg (Nat.lt_irrefl _), List.append_nil, ← length, List.take_length,
      storedBlocks_short _ _ (by rwa [length])]
  · rw [Nat.min_eq_right (by omega), if_neg (by omega), if_pos (by omega), storedBlocks_long _ _ (by omega)]

/-- The bits that wait, the type of a block and the rest of the byte go out. -/
theorem writeBitsFlush_spec (s : Zstream) (few : s.bitCount ≤ 29) (clean : s.bits < 2 ^ s.bitCount) (room : 8 ≤ s.availOut)
    (final : Bool) : ∃ bytes, Appends s.toOutStream (s.setBitbuf (s.bitbuf.writeBitsFlush final.toNat 3)).toOutStream bytes ∧
      bytes.length ≤ 4 ∧ (s.setBitbuf (s.bitbuf.writeBitsFlush final.toNat 3)).bits = 0 ∧
      (s.setBitbuf (s.bitbuf.writeBitsFlush final.toNat 3)).bitCount = 0 ∧
      bytesBits bytes = lowBits s.bitCount s.bits ++ (lowBits 3 final.toNat ++ List.replicate (blockPad s.bitCount) false) := by
  have small : final.toNat < 2 ^ 3 := by cases final <;> decide
  have bound := add_shifted_lt clean small
  have power : 2 ^ (s.bitCount + 3) ≤ 2 ^ 32 := Nat.pow_le_pow_right (by decide) (by omega)
  have joined : (s.bits ||| final.toNat <<< s.bitCount) % 2 ^ 64 = s.bits + 2 ^ s.bitCount * final.toNat := by
    rw [Bits.or_shiftLeft clean, Nat.mod_eq_of_lt (by omega)]
  have result : s.bitbuf.writeBitsFlush final.toNat 3 = {
      bits := 0
      bitCount := 0
      memory := storeLeU64 s.memory s.nextOut (s.bits + 2 ^ s.bitCount * final.toNat)
      outBuf := s.nextOut + (s.bitCount + 3 + 7) / 8
      outStart := s.nextOut } := by
    rw [BitBuf2.writeBitsFlush, BitBuf2.flush, if_pos (Nat.succ_ne_zero _)]
    dsimp only [Zstream.bitbuf]
    rw [joined]
  rw [result]
  have moved : s.nextOut + (s.bitCount + 3 + 7) / 8 - s.nextOut = (s.bitCount + 3 + 7) / 8 := Nat.add_sub_cancel_left ..
  refine ⟨bytesAt (storeLeU64 s.memory s.nextOut (s.bits + 2 ^ s.bitCount * final.toNat)) s.nextOut ((s.bitCount + 3 + 7) / 8),
    ⟨?_, ?_, ?_, ?_, ?_⟩, ?_, rfl, rfl, ?_⟩
  · rw [bytesAt_length]
    rfl
  · rw [bytesAt_length]
    dsimp only [Zstream.setBitbuf]
    omega
  · intro i before
    exact if_neg (by omega)
  · intro i after
    exact if_neg (by omega)
  · rw [bytesAt_length]
    rfl
  · rw [bytesAt_length]
    omega
  · rw [← List.append_assoc]
    apply bytesBits_padded
    · rw [List.length_append, lowBits_length, lowBits_length, bytesAt_length, blockPad]
      omega
    · rw [BitBuf2.bytesVal_storeLeU64 _ _ _ (by omega), bitsVal_append, bitsVal_lowBits_of_lt clean,
        bitsVal_lowBits_of_lt small, lowBits_length]
      have wide : 2 ^ (s.bitCount + 3) ≤ 2 ^ (8 * ((s.bitCount + 3 + 7) / 8)) := Nat.pow_le_pow_right (by decide) (by omega)
      exact Nat.mod_eq_of_lt (by omega)

/-- A header is written, or the room is too small and nothing has changed. -/
theorem writeType0Header_spec (at_ : AtHeader s) :
    (writeType0Header s = s ∧ s.availOut < 8) ∨
      ∃ bytes, InBody (writeType0Header s) ∧ Stores s (writeType0Header s) bytes 0 := by
  obtain ⟨behind, state, fresh, few, clean⟩ := at_
  obtain ⟨flag, isFlag⟩ : ∃ flag : Bool, flag = if min s.blockInSize storedMax = s.blockInSize then s.ends else false := ⟨_, rfl⟩
  have small := behind.small
  have copySize : (if type0MaxBlkLen < s.blockInSize then type0MaxBlkLen else s.blockInSize) = min s.blockInSize storedMax := by
    rw [type0MaxBlkLen, storedMax]
    split <;> omega
  have marked : (if ¬ type0MaxBlkLen < s.blockInSize ∧ s.endOfStream ≠ 0 ∧ (s.availIn + s.blockNextOffset) % 2 ^ 32 = s.blockInSize
      then { s with hasEobHdr := 1 } else s) = { s with hasEobHdr := flag.toNat } := by
    rw [Nat.mod_eq_of_lt small]
    have short : min s.blockInSize storedMax = s.blockInSize ↔ ¬ type0MaxBlkLen < s.blockInSize := by
      rw [type0MaxBlkLen, storedMax]
      omega
    by_cases both : ¬ type0MaxBlkLen < s.blockInSize ∧ s.endOfStream ≠ 0 ∧ s.availIn + s.blockNextOffset = s.blockInSize
    · rw [if_pos both, isFlag, if_pos (short.mpr both.1), Zstream.ends, decide_eq_true both.2]
      rfl
    · have none_ : flag = false := by
        rw [isFlag]
        split
        · rename_i fits
          exact decide_eq_false fun other => both ⟨short.mp fits, other⟩
        · rfl
      rw [if_neg both, none_, Bool.toNat_false, ← fresh]
  have size : s.blockInSize < 2 ^ 32 := by
    rw [Zstream.blockInSize]
    exact Nat.mod_lt _ (by decide)
  have header := storedBlkHdr_bytes size
  have length := left_length s
  -- what is left to write after the two parts of the header
  have remains : ∀ front : List UInt8, bytesBits front = lowBits s.bitCount s.bits ++
      (lowBits 3 flag.toNat ++ List.replicate (blockPad s.bitCount) false) →
        s.rest = bytesBits (front ++ toLeBytes (storedBlkHdr s.blockInSize) 4) ++
          (bytesBits (s.left.take (min s.blockInSize storedMax)) ++
            if min s.blockInSize storedMax < s.blockInSize then
              storedBlocks s.ends 0 (chunksOf (s.left.drop (min s.blockInSize storedMax))) else []) := by
    intro front bits
    have taken : (s.left.take (min s.blockInSize storedMax)).length = min s.blockInSize storedMax := by
      rw [List.length_take, length]
      exact Nat.min_eq_left (Nat.min_le_left ..)
    rw [header, bytesBits_append front, bits, rest_header state, rest_split, ← isFlag, storedBlock, taken]
    simp only [bytesBits_append, List.append_assoc]
  have bits_flag : bytesBits [UInt8.ofNat flag.toNat] = lowBits 3 flag.toNat ++ List.replicate 5 false := by
    cases flag <;> decide
  -- what stands between the header and the bytes of the block
  have body : ∀ t : Zstream, t.state = .type0Body → t.count = min s.blockInSize storedMax → t.hasEobHdr = flag.toNat →
      t.bits = 0 → t.bitCount = 0 → Advanced s t 0 → ∀ front : List UInt8, bytesBits front = lowBits s.bitCount s.bits ++
        (lowBits 3 flag.toNat ++ List.replicate (blockPad s.bitCount) false) →
          Appends s.toOutStream t.toOutStream (front ++ toLeBytes (storedBlkHdr s.blockInSize) 4) →
            InBody t ∧ Stores s t (front ++ toLeBytes (storedBlkHdr s.blockInSize) 4) 0 := by
    intro t state' count' flag' bits' bitCount' moved front bits appended
    obtain ⟨behind', size', left', ends'⟩ := behind.advance (Nat.zero_le _) moved
    rw [Nat.sub_zero] at size'
    rw [List.drop_zero] at left'
    refine ⟨?_, appended, ?_, moved, Nat.zero_le _⟩
    · refine ⟨behind', state', ?_, ?_, ?_, bitCount', bits'⟩
      · rw [flag', isFlag, count', size', ends']
        split <;> rfl
      · rw [count', size']
        exact Nat.min_le_left ..
      · rw [count', size', Nat.min_eq_zero_iff]
        intro zero
        exact zero.resolve_right (by decide)
    · have rest' : t.rest = bytesBits (s.left.take (min s.blockInSize storedMax)) ++
          if min s.blockInSize storedMax < s.blockInSize then
            storedBlocks s.ends 0 (chunksOf (s.left.drop (min s.blockInSize storedMax))) else [] := by
        rw [rest_body state', count', left', size', ends']
      rw [rest']
      exact remains front bits
  rw [writeType0Header]
  dsimp only
  rw [marked, copySize]
  by_cases aligned : s.bitCount = 0 ∧ type0HdrLen + 1 ≤ s.availOut
  · right
    obtain ⟨none_, room⟩ := aligned
    rw [if_pos ⟨none_, room⟩]
    dsimp only
    rw [type0HdrLen, toLeBytes_behind (by cases flag <;> decide)]
    have zero : s.bits = 0 := by
      rw [none_] at clean
      exact Nat.lt_one_iff.mp clean
    refine ⟨_, body _ ?_ ?_ ?_ ?_ ?_ ?_ [UInt8.ofNat flag.toNat] ?_ (put_appends s.toOutStream _ ?_)⟩
    · rfl
    · rfl
    · rfl
    · exact zero
    · exact none_
    · exact ⟨rfl, rfl, rfl, rfl, rfl, rfl, rfl⟩
    · rw [bits_flag, none_]
      rfl
    · rw [List.length_cons, toLeBytes_length]
      exact room
  · rw [if_neg aligned]
    by_cases room : 8 ≤ s.availOut
    · right
      rw [if_pos room]
      obtain ⟨front, appended, short, zero, none_, bits⟩ :=
        writeBitsFlush_spec { s with hasEobHdr := flag.toNat } few clean room flag
      have out := appended.availOut
      refine ⟨_, body _ ?_ ?_ ?_ ?_ ?_ ?_ front bits (appended.trans (put_appends _ _ ?_))⟩
      · rfl
      · rfl
      · rfl
      · exact zero
      · exact none_
      · exact ⟨rfl, rfl, rfl, rfl, rfl, rfl, rfl⟩
      · rw [toLeBytes_length, type0HdrLen]
        dsimp only at out
        omega
    · left
      rw [if_neg room]
      refine ⟨?_, Nat.lt_of_not_le room⟩
      rw [← fresh]

/-- Nothing of the block is left. -/
structure Over (s : Zstream) : Prop where
  state : s.state = if s.ends then .trl else .newHdr
  nothing : s.blockNext = s.blockEnd
  marked : s.hasEobHdr = s.ends.toNat
  few : s.bitCount = 0

/-- Bytes are copied until the piece of the block ends or the output is full. -/
theorem copyStored_spec (body : InBody s) : ∃ n, Stores s (copyStored s) (s.left.take n) n ∧
    (Over (copyStored s) ∨ AtHeader (copyStored s) ∧ (copyStored s).bitCount = 0 ∧ 0 < n ∨
      InBody (copyStored s) ∧ n = s.availOut ∧ n < s.blockInSize) := by
  obtain ⟨behind, state, marked, within, some_, few, clean⟩ := body
  have before := behind.before
  have length := left_length s
  have order := behind.order
  have word := behind.word
  obtain ⟨n, isSize⟩ : ∃ n, n = min s.count s.availOut := ⟨_, rfl⟩
  have inside : n ≤ s.blockInSize := isSize ▸ Nat.le_trans (Nat.min_le_left ..) within
  have upTo : n ≤ s.count := isSize ▸ Nat.min_le_left ..
  have available : s.count ≤ s.availIn + s.blockNextOffset := by omega
  have size : s.blockInSize = s.blockEnd - s.blockNext := by
    rw [Zstream.blockInSize]
    omega
  have bytes : bytesAt s.input (s.nextIn - s.blockNextOffset) n = s.left.take n := by
    have whole := bytesAt_add s.input (s.nextIn - s.blockNextOffset) n (s.blockInSize - n)
    rw [Nat.add_sub_cancel' inside] at whole
    rw [Zstream.left, whole, List.take_left' (bytesAt_length ..)]
  -- the stream but for its state
  have result : ∃ t : Zstream, copyStored s = t ∧ Appends s.toOutStream t.toOutStream (s.left.take n) ∧ Advanced s t n ∧
      t.count = s.count - n ∧ t.bits = s.bits ∧ t.bitCount = s.bitCount ∧ t.hasEobHdr = s.hasEobHdr ∧
        t.state = if s.blockNext + n = s.blockEnd then (if s.hasEobHdr ≠ 0 then .trl else .newHdr)
          else if s.count ≤ s.availOut then .type0Hdr else .type0Body := by
    have sized : (if ¬ (s.availOut < s.count ∨ s.availIn + s.blockNextOffset < s.count) then s.count
        else if s.availOut ≤ s.availIn + s.blockNextOffset then s.availOut else s.availIn + s.blockNextOffset) = n := by
      rw [isSize]
      split
      · omega
      · split <;> omega
    have next : (s.blockNext + n) % 2 ^ 32 = s.blockNext + n := Nat.mod_eq_of_lt (by omega)
    have kept : (if ¬ (s.availOut < s.count ∨ s.availIn + s.blockNextOffset < s.count) then Zstate.type0Hdr else s.state) =
        if s.count ≤ s.availOut then .type0Hdr else .type0Body := by
      rw [state]
      by_cases whole : s.count ≤ s.availOut
      · rw [if_pos (by omega), if_pos whole]
      · rw [if_neg (by omega), if_neg whole]
    have copied : copyStored s =
        let t : Zstream := { s.put (s.left.take n) with
          count := s.count - n, blockNext := s.blockNext + n, state := if s.count ≤ s.availOut then .type0Hdr else .type0Body }
        if s.blockNext + n = s.blockEnd then { t with state := if s.hasEobHdr ≠ 0 then .trl else .newHdr } else t := by
      rw [copyStored]
      dsimp only [Zstream.put]
      rw [Nat.mod_eq_of_lt behind.small, sized, bytes, next, kept]
      rfl
    have fits : (s.left.take n).length ≤ s.availOut := by
      rw [List.length_take, isSize]
      omega
    refine ⟨copyStored s, rfl, ?_⟩
    rw [copied]
    by_cases done : s.blockNext + n = s.blockEnd
    · rw [if_pos done, if_pos done]
      exact ⟨put_appends s.toOutStream _ fits, ⟨rfl, rfl, rfl, rfl, rfl, rfl, rfl⟩, rfl, rfl, rfl, rfl, rfl⟩
    · rw [if_neg done, if_neg done]
      exact ⟨put_appends s.toOutStream _ fits, ⟨rfl, rfl, rfl, rfl, rfl, rfl, rfl⟩, rfl, rfl, rfl, rfl, rfl⟩
  obtain ⟨t, rfl, appended, moved, count', bits', bitCount', flag', state'⟩ := result
  obtain ⟨behind', size', left', ends'⟩ := behind.advance inside moved
  have started := rest_body state
  rw [few] at bitCount'
  rw [clean] at bits'
  by_cases done : s.blockNext + n = s.blockEnd
  · have whole : s.count = s.blockInSize := by omega
    have same : n = s.blockInSize := by omega
    rw [if_pos done] at state'
    rw [if_pos whole] at marked
    have finished : Over (copyStored s) := by
      refine ⟨?_, ?_, ?_, bitCount'⟩
      · rw [state', marked, ends']
        cases s.ends <;> rfl
      · rw [moved.blockNext, moved.blockEnd, done]
      · rw [flag', marked, ends']
    refine ⟨n, ⟨appended, ?_, moved, inside⟩, .inl finished⟩
    have nothing : (copyStored s).rest = [] := by
      rw [Zstream.rest, finished.state]
      cases (copyStored s).ends <;> rfl
    rw [started, nothing, whole, same, if_neg (Nat.lt_irrefl _)]
  · rw [if_neg done] at state'
    by_cases whole : s.count ≤ s.availOut
    · have same : n = s.count := by omega
      have more : s.count < s.blockInSize := by omega
      rw [if_pos whole] at state'
      rw [if_neg (Nat.ne_of_lt more)] at marked
      refine ⟨n, ⟨appended, ?_, moved, inside⟩, .inr (.inl ⟨⟨behind', state', ?_, ?_, ?_⟩, bitCount', ?_⟩)⟩
      · rw [started, rest_header state', if_pos more, bits', bitCount', left', ends', same]
        rfl
      · rw [flag', marked]
      · rw [bitCount']
        exact Nat.zero_le _
      · rw [bits', bitCount']
        exact Nat.one_pos
      · omega
    · have full : n = s.availOut := by omega
      rw [if_neg whole] at state'
      refine ⟨n, ⟨appended, ?_, moved, inside⟩, .inr (.inr ⟨⟨behind', state', ?_, ?_, ?_, bitCount', bits'⟩, full, ?_⟩)⟩
      · have split : s.left.take s.count = s.left.take n ++ (s.left.drop n).take (s.count - n) := by
          rw [← List.take_add, Nat.add_sub_cancel' upTo]
        have skip : (s.left.drop n).drop (s.count - n) = s.left.drop s.count := by
          rw [List.drop_drop, Nat.add_sub_cancel' upTo]
        rw [started, rest_body state', count', size', left', ends',
          split, skip, bytesBits_append, List.append_assoc]
        have later : (s.count - n < s.blockInSize - n) = (s.count < s.blockInSize) := propext (by omega)
        simp only [later]
      · have last : (s.count - n = s.blockInSize - n) = (s.count = s.blockInSize) := propext (by omega)
        simp only [flag', marked, count', size', ends', last]
      · omega
      · omega
      · omega

theorem Stores.trans {x y : List UInt8} {n m : Nat} (behind : Behind s) (first : Stores s s' x n) (second : Stores s' s'' y m) :
    Stores s s'' (x ++ y) (n + m) := by
  obtain ⟨-, size, -, -⟩ := behind.advance first.inside first.advanced
  have inside := second.inside
  have inside' := first.inside
  have a := first.advanced
  have b := second.advanced
  refine ⟨first.appended.trans second.appended, ?_, ⟨?_, ?_, ?_, ?_, ?_, ?_, ?_⟩, by omega⟩
  · rw [first.rest, second.rest, bytesBits_append, List.append_assoc]
  · rw [b.input, a.input]
  · rw [b.nextIn, a.nextIn]
  · rw [b.availIn, a.availIn]
  · rw [b.totalIn, a.totalIn]
  · rw [b.endOfStream, a.endOfStream]
  · rw [b.blockEnd, a.blockEnd]
  · rw [b.blockNext, a.blockNext, Nat.add_assoc]

/-- Of two streams that are within a block, the one with more of it to write -/
def Zstream.todo (s : Zstream) : Nat := 2 * s.blockInSize + if s.state = .type0Hdr then 1 else 0

theorem AtHeader.todo_eq (at_ : AtHeader s) : s.todo = 2 * s.blockInSize + 1 := by
  rw [Zstream.todo, if_pos at_.state]

theorem InBody.todo_eq (body : InBody s) : s.todo = 2 * s.blockInSize := by
  rw [Zstream.todo, if_neg (by rw [body.state]; decide), Nat.add_zero]

/-- A call ends before a header or within a block when there is no room, and otherwise after the last block. -/
def Stops (s s' : Zstream) : Prop :=
  Over s' ∨ (AtHeader s' ∨ InBody s') ∧ s'.todo ≤ s.todo ∧ (8 ≤ s.availOut → s'.todo < s.todo)

theorem storedLoop_spec (rounds : Nat) (start : AtHeader s ∨ InBody s) (enough : s.blockInSize < rounds) :
    ∃ s' bytes n, storedLoop rounds s = some s' ∧ Stores s s' bytes n ∧ Stops s s' := by
  induction rounds generalizing s with
  | zero => exact absurd enough (Nat.not_lt_zero _)
  | succ rounds ih =>
    -- the part of the loop after the header
    have copies : ∀ s : Zstream, InBody s → s.blockInSize < rounds + 1 → ∃ s' bytes n,
        (if (copyStored s).state = .type0Hdr then storedLoop rounds (copyStored s) else some (copyStored s)) = some s' ∧
          Stores s s' bytes n ∧ (Over s' ∨ (AtHeader s' ∨ InBody s') ∧ s'.todo ≤ s.todo ∧ (1 ≤ s.availOut → s'.todo < s.todo)) := by
      intro s body enough
      obtain ⟨n, stores, next⟩ := copyStored_spec body
      obtain ⟨-, size, -, -⟩ := body.toBehind.advance stores.inside stores.advanced
      have inside := stores.inside
      rcases next with finished | ⟨again, -, some_⟩ | ⟨full, all, -⟩
      · refine ⟨copyStored s, _, n, if_neg ?_, stores, .inl finished⟩
        rw [finished.state]
        cases (copyStored s).ends <;> decide
      · obtain ⟨s', bytes, m, run, stores', stops⟩ := ih (.inl again) (by omega)
        refine ⟨s', _, n + m, ?_, stores.trans body.toBehind stores', ?_⟩
        · rw [if_pos again.state, run]
        · rcases stops with finished | ⟨within, less, -⟩
          · exact .inl finished
          · rw [again.todo_eq] at less
            rw [body.todo_eq]
            exact .inr ⟨within, by omega, fun _ => by omega⟩
      · refine ⟨copyStored s, _, n, if_neg ?_, stores, .inr ⟨.inr full, ?_⟩⟩
        · rw [full.state]
          decide
        · rw [full.todo_eq, body.todo_eq]
          omega
    rw [storedLoop]
    dsimp only
    rcases start with at_ | body
    · rw [if_pos at_.state]
      rcases writeType0Header_spec at_ with ⟨same, full⟩ | ⟨header, body, stores⟩
      · refine ⟨s, [], 0, ?_, ⟨Appends.refl _, rfl, ⟨rfl, rfl, rfl, rfl, rfl, rfl, rfl⟩, Nat.zero_le _⟩, .inr ⟨.inl at_, ?_⟩⟩
        · rw [same, if_pos at_.state]
        · exact ⟨Nat.le_refl _, fun room => absurd room (Nat.not_le.mpr full)⟩
      · obtain ⟨-, size, -, -⟩ := at_.toBehind.advance stores.inside stores.advanced
        obtain ⟨s', bytes, n, run, stores', stops⟩ := copies (writeType0Header s) body (by omega)
        refine ⟨s', _, _, ?_, stores.trans at_.toBehind stores', ?_⟩
        · rw [if_neg (by rw [body.state]; decide), run]
        · rcases stops with finished | ⟨within, less, -⟩
          · exact .inl finished
          · rw [body.todo_eq] at less
            refine .inr ⟨within, ?_⟩
            rw [at_.todo_eq]
            exact ⟨by omega, fun _ => by omega⟩
    · have other : s.state ≠ .type0Hdr := by
        rw [body.state]
        decide
      obtain ⟨s', bytes, n, run, stores, stops⟩ := copies s body enough
      rw [if_neg other, if_neg other]
      refine ⟨s', bytes, n, run, stores, ?_⟩
      rcases stops with finished | ⟨within, less, more⟩
      · exact .inl finished
      · exact .inr ⟨within, less, fun room => more (by omega)⟩

theorem writeType0Header_aligned (few : s.bitCount = 0) (room : type0HdrLen + 1 ≤ s.availOut) :
    (writeType0Header s).state = .type0Body := by
  rw [writeType0Header]
  dsimp only
  split <;> rw [if_pos ⟨few, room⟩]

/-- With room for all that is to be written, the writer does not stop before the end of the last block. -/
theorem storedLoop_roomy (rounds : Nat) (start : AtHeader s ∧ s.bitCount = 0 ∨ InBody s) (room : s.rest.length ≤ 8 * s.availOut)
    (run : storedLoop rounds s = some s') : Over s' := by
  induction rounds generalizing s with
  | zero => cases run
  | succ rounds ih =>
    -- what has been written takes as much from the room as from the rest
    have less : ∀ {s t bytes n}, Stores s t bytes n → s.rest.length ≤ 8 * s.availOut → t.rest.length ≤ 8 * t.availOut := by
      intro s t bytes n stores room
      have out := stores.appended.availOut
      have rest := congrArg List.length stores.rest
      rw [List.length_append, bytesBits_length] at rest
      omega
    have copies : ∀ s : Zstream, InBody s → s.rest.length ≤ 8 * s.availOut →
        (if (copyStored s).state = .type0Hdr then storedLoop rounds (copyStored s) else some (copyStored s)) = some s' → Over s' := by
      intro s body room run
      obtain ⟨n, stores, next⟩ := copyStored_spec body
      have room' := less stores room
      rcases next with finished | ⟨again, few, -⟩ | ⟨full, all, more⟩
      · rw [if_neg] at run
        · cases run
          exact finished
        · rw [finished.state]
          cases (copyStored s).ends <;> decide
      · rw [if_pos again.state] at run
        exact ih (.inl ⟨again, few⟩) room' run
      · exfalso
        obtain ⟨-, size, -, -⟩ := body.toBehind.advance stores.inside stores.advanced
        have out := stores.appended.availOut
        have taken : (s.left.take n).length = n := by
          rw [List.length_take, left_length]
          omega
        have some_ := full.some_
        have within := full.within
        rw [rest_body full.state, List.length_append, bytesBits_length, List.length_take, left_length] at room'
        omega
    rw [storedLoop] at run
    dsimp only at run
    rcases start with ⟨at_, few⟩ | body
    · have five : type0HdrLen + 1 ≤ s.availOut := by
        have pad : blockPad 0 = 5 := rfl
        rw [rest_header at_.state, few, rest_split, List.length_append, List.length_append, storedBlock_length, pad] at room
        rw [type0HdrLen]
        omega
      have written := writeType0Header_aligned few five
      rcases writeType0Header_spec at_ with ⟨same, -⟩ | ⟨header, body, stores⟩
      · rw [same, at_.state] at written
        cases written
      · rw [if_pos at_.state, if_neg (by rw [written]; decide)] at run
        exact copies _ body (less stores room) run
    · have other : s.state ≠ .type0Hdr := by
        rw [body.state]
        decide
      rw [if_neg other, if_neg other] at run
      exact copies s body room run

theorem writeStoredBlock_spec (start : AtHeader s ∨ InBody s) : ∃ s' bytes n,
    writeStoredBlock s = some (s'.blockInSize, s') ∧ Stores s s' bytes n ∧ Stops s s' := by
  obtain ⟨s', bytes, n, run, stores, stops⟩ := storedLoop_spec (s.blockInSize + 1) start (Nat.lt_succ_self _)
  refine ⟨s', bytes, n, ?_, stores, stops⟩
  rw [writeStoredBlock, run]
  rfl

/-- One call with room for all of it writes the rest. -/
theorem writeStoredBlock_roomy (start : AtHeader s ∧ s.bitCount = 0 ∨ InBody s) (room : s.rest.length ≤ 8 * s.availOut) :
    ∃ s' bytes n, writeStoredBlock s = some (s'.blockInSize, s') ∧ Stores s s' bytes n ∧ Over s' ∧ s.rest = bytesBits bytes := by
  obtain ⟨s', bytes, n, run, stores, -⟩ := storedLoop_spec (s.blockInSize + 1) (start.imp_left (·.1)) (Nat.lt_succ_self _)
  have finished := storedLoop_roomy _ start room run
  have nothing : s'.rest = [] := by
    rw [Zstream.rest, finished.state]
    cases s'.ends <;> rfl
  refine ⟨s', bytes, n, ?_, stores, finished, ?_⟩
  · rw [writeStoredBlock, run]
    rfl
  · rw [stores.rest, nothing, List.append_nil]

end

/-- Calls of the writer, each with an output of its own, until it is past the last stored block: what they
have written and the stream after them -/
def storedCalls : List OutStream → Zstream → Option (List UInt8 × Zstream)
  | [], s => some ([], s)
  | room :: rooms, s =>
    if s.state = .type0Hdr ∨ s.state = .type0Body then do
      let (_, s') ← writeStoredBlock { s with toOutStream := room }
      let (bytes, s'') ← storedCalls rooms s'
      return (bytesAt s'.memory room.nextOut (s'.nextOut - room.nextOut) ++ bytes, s'')
    else some ([], s)

section

variable {s : Zstream}

/-- The output changes from call to call, and what is to be written does not depend on it. -/
theorem start_room (start : AtHeader s ∨ InBody s) (room : OutStream) :
    (AtHeader { s with toOutStream := room } ∨ InBody { s with toOutStream := room }) ∧
      Zstream.rest { s with toOutStream := room } = s.rest ∧ Zstream.todo { s with toOutStream := room } = s.todo ∧
        Zstream.ends { s with toOutStream := room } = s.ends ∧ Behind { s with toOutStream := room } := by
  have behind : Behind s := start.elim (·.toBehind) (·.toBehind)
  have moved : Advanced s { s with toOutStream := room } 0 := ⟨rfl, rfl, rfl, rfl, rfl, rfl, rfl⟩
  obtain ⟨behind', size, left, ends⟩ := behind.advance (Nat.zero_le _) moved
  rw [Nat.sub_zero] at size
  rw [List.drop_zero] at left
  refine ⟨?_, ?_, ?_, ends, behind'⟩
  · rcases start with h | h
    · exact .inl ⟨behind', h.state, h.fresh, h.few, h.clean⟩
    · refine .inr ⟨behind', h.state, ?_, ?_, ?_, h.few, h.clean⟩
      · rw [size, ends]
        exact h.marked
      · rw [size]
        exact h.within
      · rw [size]
        exact h.some_
  · rw [Zstream.rest, Zstream.rest, size, left, ends]
  · rw [Zstream.todo, Zstream.todo, size]

/-- What the calls have written and what is left to write are what was to be written before, and each call
with enough room does some of it. -/
theorem storedCalls_spec (start : AtHeader s ∨ InBody s) (rooms : List OutStream) : ∃ bytes s',
    storedCalls rooms s = some (bytes, s') ∧ s.rest = bytesBits bytes ++ s'.rest ∧ s'.ends = s.ends ∧
      ((AtHeader s' ∨ InBody s') ∧ s'.todo + (rooms.filter (8 ≤ ·.availOut)).length ≤ s.todo ∨ Over s') := by
  induction rooms generalizing s with
  | nil => exact ⟨[], s, rfl, rfl, rfl, .inl ⟨start, Nat.le_refl _⟩⟩
  | cons room rooms ih =>
    have within : s.state = .type0Hdr ∨ s.state = .type0Body := start.imp (·.state) (·.state)
    obtain ⟨start', rest, todo, ends, behind⟩ := start_room start room
    obtain ⟨t, bytes, n, run, stores, stops⟩ := writeStoredBlock_spec start'
    obtain ⟨-, -, -, ends'⟩ := behind.advance stores.inside stores.advanced
    have out := stores.appended.nextOut
    have written := stores.appended.written
    have count : t.nextOut - room.nextOut = bytes.length := by
      rw [out]
      exact Nat.add_sub_cancel_left ..
    have produced : bytesAt t.memory room.nextOut (t.nextOut - room.nextOut) = bytes := by
      rw [count]
      exact written
    -- the calls after this one
    have later : ∀ bytes' t', storedCalls rooms t = some (bytes', t') → storedCalls (room :: rooms) s = some (bytes ++ bytes', t') := by
      intro bytes' t' more
      rw [storedCalls, if_pos within, run]
      change (storedCalls rooms t).bind _ = _
      rw [more]
      change some (bytesAt t.memory room.nextOut (t.nextOut - room.nextOut) ++ bytes', t') = _
      rw [produced]
    have before : s.rest = bytesBits bytes ++ t.rest := by
      rw [← rest, stores.rest]
    rcases stops with finished | ⟨again, less, more⟩
    · have stopped : storedCalls rooms t = some ([], t) := by
        have other : ¬ (t.state = .type0Hdr ∨ t.state = .type0Body) := by
          rw [finished.state]
          cases t.ends <;> decide
        cases rooms with
        | nil => rfl
        | cons room' rooms => rw [storedCalls, if_neg other]
      refine ⟨_, t, later [] t stopped, ?_, ?_, .inr finished⟩
      · rw [List.append_nil, before]
      · rw [ends', ends]
    · obtain ⟨bytes', t', run', rest', ends'', next⟩ := ih again
      refine ⟨_, t', later bytes' t' run', ?_, ?_, ?_⟩
      · rw [before, rest', bytesBits_append, List.append_assoc]
      · rw [ends'', ends', ends]
      · rcases next with ⟨again', less'⟩ | finished
        · refine .inl ⟨again', ?_⟩
          rw [todo] at less more
          by_cases enough : 8 ≤ room.availOut
          · have strict := more enough
            simp only [List.filter_cons, enough, decide_true, if_true, List.length_cons]
            omega
          · simp only [List.filter_cons, enough, decide_false, Bool.false_eq_true, if_false]
            omega
        · exact .inr finished

/-- For a block that ends where the input does, nothing follows. -/
theorem ends_iff (behind : Behind s) :
    s.ends ↔ s.endOfStream ≠ 0 ∧ s.availIn = 0 ∧ s.blockNextOffset = s.blockInSize := by
  have before := behind.before
  rw [Zstream.ends, decide_eq_true_iff]
  omega

/-- From the header of a block on, the calls write the bits that waited and then the block in stored blocks,
wherever they have to stop; calls with enough room get to its end. The reference decoder takes the block out
of the stored blocks. -/
theorem writeStoredBlock_blocks (at_ : AtHeader s) : ∃ chunks, chunks.flatten = s.left ∧ (∀ chunk ∈ chunks, chunk.length ≤ 65535) ∧
    (s.ends ↔ s.endOfStream ≠ 0 ∧ s.availIn = 0 ∧ s.blockNextOffset = s.blockInSize) ∧
      (∀ out rest, 8 ∣ rest.length →
        Steps ⟨.header, storedBlocks s.ends s.bitCount chunks ++ rest, out⟩ ⟨boundary s.ends, rest, out ++ s.left⟩) ∧
        ∀ rooms, ∃ bytes s', storedCalls rooms s = some (bytes, s') ∧
          bytesBits bytes <+: lowBits s.bitCount s.bits ++ storedBlocks s.ends s.bitCount chunks ∧
            (¬ (s'.state = .type0Hdr ∨ s'.state = .type0Body) →
              bytesBits bytes = lowBits s.bitCount s.bits ++ storedBlocks s.ends s.bitCount chunks ∧
                s'.state = if s.ends then .trl else .newHdr) ∧
              (2 * s.blockInSize + 1 < (rooms.filter (8 ≤ ·.availOut)).length →
                ¬ (s'.state = .type0Hdr ∨ s'.state = .type0Body)) := by
  obtain ⟨some_, flat, short⟩ := chunksOf_spec s.left
  refine ⟨chunksOf s.left, flat, short, ends_iff at_.toBehind, ?_, ?_⟩
  · intro out rest bytes
    have steps := Steps.storedBlocks s.ends s.bitCount some_ short bytes out
    rwa [flat] at steps
  · intro rooms
    obtain ⟨bytes, s', run, rest, ends, stops⟩ := storedCalls_spec (.inl at_) rooms
    rw [rest_header at_.state] at rest
    refine ⟨bytes, s', run, ⟨s'.rest, rest.symm⟩, ?_⟩
    rcases stops with ⟨again, less⟩ | finished
    · have within : s'.state = .type0Hdr ∨ s'.state = .type0Body := again.imp (·.state) (·.state)
      rw [at_.todo_eq] at less
      refine ⟨fun other => absurd within other, fun many => ?_⟩
      omega
    · have nothing : s'.rest = [] := by
        rw [Zstream.rest, finished.state]
        cases s'.ends <;> rfl
      have state := finished.state
      rw [nothing, List.append_nil] at rest
      rw [ends] at state
      refine ⟨fun _ => ⟨rest.symm, state⟩, fun _ => ?_⟩
      rw [state]
      cases s.ends <;> decide

/-- One byte right before the end of the input -/
def oneByteBlock : Zstream where
  memory := .const 0
  nextOut := 0
  availOut := 0
  totalOut := 0
  input := .const 42
  nextIn := 1
  availIn := 0
  totalIn := 1
  endOfStream := 1
  blockNext := 0
  blockEnd := 1
  state := .type0Hdr
  bits := 2
  bitCount := 3
  hasEobHdr := 0
  hasEob := 0
  count := 0

theorem writeStoredBlock_blocks_one : ∃ bytes s',
    storedCalls (List.replicate 4 { oneByteBlock.toOutStream with availOut := 8 }) oneByteBlock = some (bytes, s') ∧
      ¬ (s'.state = .type0Hdr ∨ s'.state = .type0Body) := by
  have size : oneByteBlock.blockInSize = 1 := by
    rw [Zstream.blockInSize]
    rfl
  have offset : oneByteBlock.blockNextOffset = 1 := by
    rw [Zstream.blockNextOffset]
    rfl
  obtain ⟨_, -, -, -, -, calls⟩ := @writeStoredBlock_blocks oneByteBlock
    ⟨⟨by decide, by decide, by rw [size, offset], by rw [offset]; decide, by rw [offset]; decide⟩, rfl, rfl, by decide, by decide⟩
  obtain ⟨bytes, s', run, -, -, past⟩ := calls (List.replicate 4 { oneByteBlock.toOutStream with availOut := 8 })
  rw [size] at past
  exact ⟨bytes, s', run, past (by simp)⟩

end
end Isal.Deflate
