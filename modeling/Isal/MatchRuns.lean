import Isal.ItemCodes
import Isal.StreamOutput
import Isal.MatchMapTruth

/-! What the loops of the level 0 compressor write: items whose text is the input, with copies that reach back no
further than the bytes that the hash table was filled from. -/
namespace Isal.Deflate
open Inflate Bits HuffCodes Lz77

/-- The entries up to `mask` have the low 16 bits of positions, none of which is more than `back` before `position`. -/
def Recent (mask back position : Nat) (lastSeen : Arr Nat) : Prop :=
  ∀ slot ≤ mask, lastSeen slot < 2 ^ 16 ∧ ∃ age ≤ back, lastSeen slot + age ≡ position [MOD 2 ^ 16]

/-- What the loops need of a stream with `kept` bytes before its input that may be copied, and a hash table that was
filled from the last `back` bytes. What is out of reach of a distance need not be kept. The bytes of the input have codes. -/
structure Searchable (b : HashBuild) (needed : Nat → Prop) (s : DeflateStream) (back kept : Nat) : Prop where
  clean : s.Clean
  start : kept ≤ s.nextIn
  recent : Recent s.hashMask back s.totalIn s.head
  reach : min s.distMask back ≤ kept
  distMask : s.distMask ≤ 32768
  writable : Writable b.toBuild needed s.hufftables
  covers : ∀ i < s.availIn, needed (s.input (s.nextIn + i)).toNat

/-- Items have been written for the bytes before the position of the matcher. -/
structure Coded (b : HashBuild) (needed : Nat → Prop) (s : DeflateStream) (back kept : Nat) (m : Matcher) (items : List (Item UInt8)) : Prop where
  ahead : s.nextIn ≤ m.nextIn
  inside : m.nextIn ≤ s.nextIn + s.availIn
  recent : Recent s.hashMask (back + (m.nextIn - s.nextIn)) (s.position m.nextIn) m.lastSeen
  wrote : s.Wrote m.bitbuf (items.flatMap (s.hufftables.itemBits b.toBuild))
  factors : ∀ text, bytesAt s.input (s.nextIn - kept) kept <:+ text →
    Factors items text (text ++ bytesAt s.input s.nextIn (m.nextIn - s.nextIn))
  allowed : ∀ item ∈ items, Allowed needed item

section

variable {b : HashBuild} {needed : Nat → Prop} {s : DeflateStream} {mask back kept position : Nat} {m : Matcher} {items : List (Item UInt8)} {lastSeen : Arr Nat}

theorem loadLeU32_byte (memory : Arr UInt8) (p : Nat) : loadLeU32 memory p % 2 ^ 8 = (memory p).toNat := by
  have small := (memory p).toNat_lt
  have split : bytesAt memory p 4 = memory p :: bytesAt memory (p + 1) 3 := by
    rw [bytesAt_add memory p 1 3]
    simp [bytesAt]
  rw [loadLeU32, split, bytesVal_cons]
  omega

theorem compare258_spec (memory : Arr UInt8) (p q maxLength : Nat) : compare258 memory p q maxLength ≤ maxLength ∧
    compare258 memory p q maxLength ≤ 258 ∧ SameBytes memory p q (compare258 memory p q maxLength) := by
  obtain ⟨short, same⟩ := compare_spec memory p q (if 258 < maxLength then 258 else maxLength)
  refine ⟨?_, ?_, same⟩
  · exact Nat.le_trans short (by split <;> omega)
  · exact Nat.le_trans short (by split <;> omega)

theorem Recent.advance (h : Recent mask back position lastSeen) (n : Nat) : Recent mask (back + n) (position + n) lastSeen := by
  intro slot below
  obtain ⟨small, age, near, same⟩ := h slot below
  exact ⟨small, age + n, by omega, by simpa [Nat.add_assoc] using same.add_right n⟩

/-- A position is entered. -/
theorem Recent.set (h : Recent mask back position lastSeen) {age : Nat} (near : age ≤ back) (before : age ≤ position) (slot : Nat) :
    Recent mask back position (lastSeen.set slot ((position - age) % 2 ^ 16)) := by
  intro slot' below
  by_cases same : slot' = slot
  · rw [same, Arr.set_self]
    refine ⟨Nat.mod_lt _ (by decide), age, near, ?_⟩
    rw [Nat.ModEq, Nat.mod_add_mod, Nat.sub_add_cancel before]
  · rw [Arr.set_other same]
    exact h slot' below

theorem position_sub {first p : Nat} (start : s.nextIn ≤ first) (before : first ≤ p) :
    s.position first = s.position p - (p - first) := by
  simp only [DeflateStream.position]
  omega

theorem position_add {p n : Nat} (start : s.nextIn ≤ p) : s.position (p + n) = s.position p + n := by
  simp only [DeflateStream.position]
  omega

/-- Positions are entered, all of them before `p`. -/
theorem Recent.updateHashes (left : Nat) {first p : Nat} (h : Recent mask back (s.position p) lastSeen) (start : s.nextIn ≤ first)
    (before : first + left ≤ p) (near : p ≤ first + back) : Recent mask back (s.position p) (updateHashes b s left first lastSeen) := by
  induction left generalizing first lastSeen with
  | zero => exact h
  | succ left ih =>
    rw [Deflate.updateHashes, position_sub start (by omega : first ≤ p)]
    exact ih (h.set (by omega) (by simp only [DeflateStream.position]; omega) _) (by omega) (by omega) (by omega)

theorem candidate_lt (b : HashBuild) (s : DeflateStream) (m : Matcher) : candidate b s m < 2 ^ 16 := Nat.mod_lt _ (by decide)

/-- A candidate is not further back than the bytes that the table was filled from. -/
theorem candidate_le (h : Recent s.hashMask back (s.position m.nextIn) m.lastSeen) : candidate b s m ≤ back := by
  obtain ⟨small, age, near, same⟩ := h (s.hashAt b m.nextIn) Nat.and_le_right
  rw [Nat.ModEq] at same
  rw [candidate]
  omega

theorem Coded.start (h : Searchable b needed s back kept) : Coded b needed s back kept s.matcher [] where
  ahead := Nat.le_refl _
  inside := Nat.le_add_right _ _
  recent := by simpa [DeflateStream.matcher, DeflateStream.position] using h.recent
  wrote := .start h.clean
  factors := by
    intro text _
    simpa [DeflateStream.matcher, bytesAt] using Factors.nil text
  allowed := by simp

/-- The window that can be copied, with the bytes that have been taken -/
theorem Searchable.window (ready : Searchable b needed s back kept) (m : Matcher) {text : List UInt8}
    (ends : bytesAt s.input (s.nextIn - kept) kept <:+ text) :
    Lz77.window s.input (s.nextIn - kept) (kept + (m.nextIn - s.nextIn)) <:+ text ++ bytesAt s.input s.nextIn (m.nextIn - s.nextIn) := by
  obtain ⟨front, rfl⟩ := ends
  have start := ready.start
  refine ⟨front, ?_⟩
  rw [window_add, Nat.sub_add_cancel start, List.append_assoc]
  rfl

/-- An item has been written, and the matcher has gone on over its bytes. -/
theorem Coded.next (h : Coded b needed s back kept m items) {m' : Matcher} {item : Item UInt8} {n : Nat}
    (nextIn : m'.nextIn = m.nextIn + n) (inside : m'.nextIn ≤ s.nextIn + s.availIn)
    (recent : Recent s.hashMask (back + (m'.nextIn - s.nextIn)) (s.position m'.nextIn) m'.lastSeen)
    (wrote : s.Wrote m'.bitbuf (items.flatMap (s.hufftables.itemBits b.toBuild) ++ s.hufftables.itemBits b.toBuild item))
    (adds : ∀ text, bytesAt s.input (s.nextIn - kept) kept <:+ text →
      Adds item (text ++ bytesAt s.input s.nextIn (m.nextIn - s.nextIn))
        (text ++ bytesAt s.input s.nextIn (m.nextIn - s.nextIn) ++ bytesAt s.input m.nextIn n))
    (allowed : Allowed needed item) : Coded b needed s back kept m' (items ++ [item]) where
  ahead := by
    have := h.ahead
    omega
  inside := inside
  recent := recent
  wrote := by simpa using wrote
  factors := by
    intro text ends
    have ahead := h.ahead
    have length : m'.nextIn - s.nextIn = m.nextIn - s.nextIn + n := by omega
    have place : s.nextIn + (m.nextIn - s.nextIn) = m.nextIn := by omega
    rw [length, bytesAt_add, place, ← List.append_assoc]
    exact (h.factors text ends).append (.single (adds text ends))
  allowed := by
    intro other member
    rcases List.mem_append.mp member with before | last
    · exact h.allowed other before
    · rw [List.mem_singleton.mp last]
      exact allowed

/-- The table is as recent when the matcher has gone on. -/
theorem Coded.advance (h : Coded b needed s back kept m items) (n : Nat) :
    Recent s.hashMask (back + (m.nextIn + n - s.nextIn)) (s.position (m.nextIn + n)) m.lastSeen := by
  have ahead := h.ahead
  have age : back + (m.nextIn + n - s.nextIn) = back + (m.nextIn - s.nextIn) + n := by omega
  rw [position_add ahead, age]
  exact h.recent.advance n

theorem Coded.writeLiteral (ready : Searchable b needed s back kept) (h : Coded b needed s back kept m items) (free : ¬ s.isFull m.bitbuf)
    (more : m.nextIn < s.nextIn + s.availIn) {literal : Nat} (value : literal % 2 ^ 8 = (s.input m.nextIn).toNat) :
    Coded b needed s back kept (writeLiteral s literal m) (items ++ [.literal (s.input m.nextIn)]) := by
  have small := (s.input m.nextIn).toNat_lt
  have ahead := h.ahead
  have need := ready.covers (m.nextIn - s.nextIn) (by omega)
  rw [Nat.add_sub_cancel' ahead] at need
  obtain ⟨code, few⟩ := ready.writable.lit (s.input m.nextIn).toNat (by omega) need
  have wrote := h.wrote.writeBits free code few
  refine h.next (n := 1) rfl ?_ ?_ ?_ ?_ ?_
  · rw [Deflate.writeLiteral]
    exact more
  · exact h.advance 1
  · rw [Deflate.writeLiteral, value]
    exact wrote
  · intro text _
    simpa [bytesAt] using Adds.literal (s.input m.nextIn) (text ++ bytesAt s.input s.nextIn (m.nextIn - s.nextIn))
  · exact need

/-- The position of the matcher is entered. -/
theorem Coded.enter (h : Coded b needed s back kept m items) (slot : Nat) :
    Coded b needed s back kept { m with lastSeen := m.lastSeen.set slot (s.position m.nextIn % 2 ^ 16) } items :=
  { h with recent := h.recent.set (Nat.zero_le _) (Nat.zero_le _) slot }

theorem Coded.writeMatch (ready : Searchable b needed s back kept) (h : Coded b needed s back kept m items) (free : ¬ s.isFull m.bitbuf)
    {length dist hashes : Nat} (some_ : 0 < dist) (near : dist ≤ s.distMask) (recent : dist ≤ back + (m.nextIn - s.nextIn))
    (short : shortestMatch ≤ length) (long : length ≤ 258) (inside : m.nextIn + length ≤ s.nextIn + s.availIn)
    (few : hashes < length) (same : SameBytes s.input (m.nextIn - dist) m.nextIn length) :
    Coded b needed s back kept (writeMatch b s length dist { m with lastSeen := updateHashes b s hashes (m.nextIn + 1) m.lastSeen })
      (items ++ [.copy length dist]) := by
  have ahead := h.ahead
  have mask := ready.distMask
  have start := ready.start
  have reach := ready.reach
  rw [shortestMatch] at short
  have codeLen := ready.writable.len length (by omega) long
  have codeDist := ready.writable.dist dist some_ (by omega)
  have both := ready.writable.copy length dist (by omega) long some_ (by omega)
  have joined : (s.hufftables.getLenCode length).1 ||| (s.hufftables.getDistCode b.toBuild dist).1 <<< (s.hufftables.getLenCode length).2 =
      (s.hufftables.getLenCode length).1 + 2 ^ (s.hufftables.getLenCode length).2 * (s.hufftables.getDistCode b.toBuild dist).1 :=
    or_shiftLeft codeLen _
  have bound := add_shifted_lt codeLen codeDist
  have word : 2 ^ ((s.hufftables.getLenCode length).2 + (s.hufftables.getDistCode b.toBuild dist).2) ≤ 2 ^ 56 :=
    Nat.pow_le_pow_right (by decide) both
  have wrote := h.wrote.writeBits free bound both
  rw [lowBits_add _ codeLen] at wrote
  refine h.next (n := length) rfl inside ?_ ?_ ?_ ?_
  · exact (h.advance length).updateHashes hashes (by omega) (by omega) (by omega)
  · rw [Deflate.writeMatch]
    dsimp only
    rw [joined, Nat.mod_eq_of_lt (by omega)]
    exact wrote
  · intro text ends
    have place : s.nextIn - kept + (kept + (m.nextIn - s.nextIn)) = m.nextIn := by omega
    have adds := Adds.ofWindow (k := length) (ready.window m ends) some_ (by omega) (by rw [place]; exact same)
    rwa [place] at adds
  · exact ⟨by omega, long, by omega⟩

/-- A round writes one item. -/
theorem Coded.matchRound (ready : Searchable b needed s back kept) (h : Coded b needed s back kept m items) (free : ¬ s.isFull m.bitbuf)
    {maxLength hashes : Nat} (more : m.nextIn < s.nextIn + s.availIn) (inside : m.nextIn + maxLength ≤ s.nextIn + s.availIn)
    (few : hashes < shortestMatch) : ∃ item, Coded b needed s back kept (matchRound b s maxLength hashes m) (items ++ [item]) ∧
      m.nextIn < (matchRound b s maxLength hashes m).nextIn := by
  have entered := h.enter (s.hashAt b m.nextIn)
  have recent := candidate_le (b := b) h.recent
  have least := candidate_lt b s m
  have mask := ready.distMask
  obtain ⟨within, long, same⟩ := compare258_spec s.input (m.nextIn - candidate b s m) m.nextIn maxLength
  rw [Deflate.matchRound]
  dsimp only
  split
  · rename_i found
    obtain ⟨near, short⟩ := found
    refine ⟨_, entered.writeMatch ready free (by omega) (by omega) recent short long (by dsimp only; omega) (by omega) same, ?_⟩
    rw [shortestMatch] at short
    simp only [Deflate.writeMatch]
    omega
  · exact ⟨_, entered.writeLiteral ready free more (loadLeU32_byte _ _), Nat.lt_succ_self _⟩

/-- The loop has gone on from one matcher to another one, and was left because the output is full or with at most `ahead`
bytes that are not taken. -/
structure LoopEnd (b : HashBuild) (needed : Nat → Prop) (s : DeflateStream) (back kept ahead : Nat) (items : List (Item UInt8))
    (result : Bool × Matcher) : Prop where
  coded : ∃ items', Coded b needed s back kept result.2 (items ++ items')
  full : result.1 = true → s.isFull result.2.bitbuf
  done : result.1 = false → s.nextIn + s.availIn ≤ result.2.nextIn + ahead

theorem Coded.matchLoop (ready : Searchable b needed s back kept) {ahead : Nat} (hashes : Nat) {maxLength : Nat → Nat}
    (inside : ∀ p, p + ahead < s.nextIn + s.availIn → p + maxLength p ≤ s.nextIn + s.availIn) (few : hashes < shortestMatch)
    (rounds : Nat) (h : Coded b needed s back kept m items) (enough : s.nextIn + s.availIn ≤ m.nextIn + rounds) :
    LoopEnd b needed s back kept ahead items (matchLoop b s ahead maxLength hashes rounds m) := by
  induction rounds generalizing m items with
  | zero => exact ⟨⟨[], by simpa [Deflate.matchLoop] using h⟩, by simp [Deflate.matchLoop], fun _ => by simp only [Deflate.matchLoop]; omega⟩
  | succ rounds ih =>
    rw [Deflate.matchLoop]
    by_cases more : m.nextIn + ahead < s.nextIn + s.availIn
    · by_cases full : s.isFull m.bitbuf
      · rw [if_pos more, if_pos full]
        exact ⟨⟨[], by simpa using h⟩, fun _ => full, by simp⟩
      · rw [if_pos more, if_neg full]
        obtain ⟨item, coded, further⟩ := h.matchRound ready full (by omega) (inside _ more) few
        obtain ⟨⟨items', last⟩, isFull, done⟩ := ih coded (by omega)
        exact ⟨⟨item :: items', by simpa using last⟩, isFull, done⟩
    · rw [if_neg more]
      exact ⟨⟨[], by simpa using h⟩, by simp, fun _ => by dsimp only; omega⟩

theorem Coded.literalLoop (ready : Searchable b needed s back kept) (rounds : Nat) (h : Coded b needed s back kept m items)
    (enough : s.nextIn + s.availIn ≤ m.nextIn + rounds) : LoopEnd b needed s back kept 0 items (literalLoop s rounds m) := by
  induction rounds generalizing m items with
  | zero => exact ⟨⟨[], by simpa [Deflate.literalLoop] using h⟩, by simp [Deflate.literalLoop], fun _ => by simp only [Deflate.literalLoop]; omega⟩
  | succ rounds ih =>
    rw [Deflate.literalLoop]
    by_cases more : m.nextIn < s.nextIn + s.availIn
    · by_cases full : s.isFull m.bitbuf
      · rw [if_pos more, if_pos full]
        exact ⟨⟨[], by simpa using h⟩, fun _ => full, by simp⟩
      · rw [if_pos more, if_neg full]
        have coded := h.writeLiteral ready full more (Nat.mod_eq_of_lt (s.input m.nextIn).toNat_lt)
        obtain ⟨⟨items', last⟩, isFull, done⟩ := ih coded (by simp only [Deflate.writeLiteral]; omega)
        exact ⟨⟨_ :: items', by simpa using last⟩, isFull, done⟩
    · rw [if_neg more]
      exact ⟨⟨[], by simpa using h⟩, by simp, fun _ => by dsimp only; omega⟩

end

end Isal.Deflate
