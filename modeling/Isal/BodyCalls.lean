import Isal.MatchRuns

/-! What a call of the body or of the finish of the level 0 compressor has done to its stream. -/
namespace Isal.Deflate
open Inflate Bits HuffCodes Lz77

/-- The stream but for what the body and the finish change -/
def DeflateStream.settled (s : DeflateStream) : DeflateStream :=
  { s with
    memory := .const 0, nextOut := 0, availOut := 0, totalOut := 0, bits := 0, bitCount := 0
    nextIn := 0, availIn := 0, totalIn := 0, state := .body, hasEob := 0, head := .const 0, hasHist := 0 }

/-- A call has taken `n` bytes of the input and put out items for them, and `behind` after them. -/
structure Took (b : HashBuild) (needed : Nat → Prop) (s t : DeflateStream) (back kept n : Nat) (items : List (Item UInt8))
    (behind : List Bool) : Prop where
  emits : Emits s.toZstream t.toZstream (items.flatMap (s.hufftables.itemBits b.toBuild) ++ behind)
  nextIn : t.nextIn = s.nextIn + n
  availIn : s.availIn = t.availIn + n
  totalIn : t.totalIn ≡ s.totalIn + n [MOD 2 ^ 32]
  recent : Recent t.hashMask (back + n) t.totalIn t.head
  factors : ∀ text, bytesAt s.input (s.nextIn - kept) kept <:+ text → Factors items text (text ++ bytesAt s.input s.nextIn n)
  allowed : ∀ item ∈ items, Allowed needed item
  same : t.settled = s.settled

section

variable {b : HashBuild} {needed : Nat → Prop} {s t u : DeflateStream} {back kept n k : Nat} {m : Matcher} {items items' : List (Item UInt8)}
  {behind : List Bool} {me : BitBuf2}

theorem settled_fields (same : t.settled = s.settled) : t.input = s.input ∧ t.hufftables = s.hufftables ∧
    t.distMask = s.distMask ∧ t.hashMask = s.hashMask ∧ t.endOfStream = s.endOfStream ∧ t.flush = s.flush ∧
    t.hasEobHdr = s.hasEobHdr ∧ t.count = s.count ∧ t.gzipFlag = s.gzipFlag ∧ t.crc = s.crc ∧ t.hasWrapHdr = s.hasWrapHdr := by
  simp only [DeflateStream.settled, DeflateStream.mk.injEq, StatelessStream.mk.injEq, Zstream.mk.injEq] at same
  tauto

theorem Recent.congr {mask position position' : Nat} {lastSeen : Arr Nat} (h : Recent mask back position lastSeen)
    (same : position' ≡ position [MOD 2 ^ 32]) : Recent mask back position' lastSeen := by
  intro slot below
  obtain ⟨small, age, near, congruent⟩ := h slot below
  exact ⟨small, age, near, congruent.trans (same.of_dvd (by decide)).symm⟩

/-- The stream that a loop is left with -/
theorem Coded.took (h : Coded b needed s back kept m items) (wrote : s.Wrote me (items.flatMap (s.hufftables.itemBits b.toBuild) ++ behind)) :
    Took b needed s (updateState s { m with bitbuf := me }) back kept (m.nextIn - s.nextIn) items behind where
  emits := wrote.emits.congr rfl rfl rfl
  nextIn := (Nat.add_sub_cancel' h.ahead).symm
  availIn := by
    have ahead := h.ahead
    have inside := h.inside
    simp only [updateState]
    omega
  totalIn := Nat.mod_modEq _ _
  recent := h.recent.congr (Nat.mod_modEq _ _)
  factors := h.factors
  allowed := h.allowed
  same := rfl

theorem Coded.taken (h : Coded b needed s back kept m items) :
    Took b needed s (updateState s m) back kept (m.nextIn - s.nextIn) items [] := h.took (by simpa using h.wrote)

/-- Nothing has been taken. -/
theorem Took.none (ready : Searchable b needed s back kept) (state : Zstate) : Took b needed s { s with state } back kept 0 [] [] where
  emits := (Emits.refl ready.clean).congr rfl rfl rfl
  nextIn := rfl
  availIn := rfl
  totalIn := rfl
  recent := ready.recent
  factors := fun text _ => by simpa [bytesAt] using Factors.nil text
  allowed := by simp
  same := rfl

theorem Took.setState (h : Took b needed s t back kept n items behind) (state : Zstate) (hasEob : Nat) :
    Took b needed s { t with state, hasEob } back kept n items behind :=
  { h with emits := h.emits.congr rfl rfl rfl, same := h.same }

theorem Took.searchable (ready : Searchable b needed s back kept) (h : Took b needed s t back kept n items behind) :
    Searchable b needed t (back + n) (kept + n) where
  clean := h.emits.clean
  start := by
    have start := ready.start
    have nextIn := h.nextIn
    omega
  recent := h.recent
  reach := by
    have reach := ready.reach
    obtain ⟨-, -, mask, -⟩ := settled_fields h.same
    omega
  distMask := by
    obtain ⟨-, -, mask, -⟩ := settled_fields h.same
    rw [mask]
    exact ready.distMask
  writable := by
    obtain ⟨-, tables, -⟩ := settled_fields h.same
    rw [tables]
    exact ready.writable
  covers := by
    intro i inside
    obtain ⟨input, -⟩ := settled_fields h.same
    have availIn := h.availIn
    rw [input, h.nextIn, Nat.add_assoc]
    exact ready.covers (n + i) (by omega)

theorem Took.trans (ready : Searchable b needed s back kept) (first : Took b needed s t back kept n items [])
    (second : Took b needed t u (back + n) (kept + n) k items' behind) : Took b needed s u back kept (n + k) (items ++ items') behind := by
  obtain ⟨input, tables, -⟩ := settled_fields first.same
  have start := ready.start
  have nextIn := first.nextIn
  constructor
  · have both := first.emits.trans second.emits
    rw [tables] at both
    simpa using both
  · rw [second.nextIn, nextIn, Nat.add_assoc]
  · rw [first.availIn, second.availIn]
    omega
  · have total := first.totalIn.add_right k
    rw [Nat.add_assoc] at total
    exact second.totalIn.trans total
  · rw [← Nat.add_assoc]
    exact second.recent
  · intro text ends
    have here := first.factors text ends
    rw [bytesAt_add, ← List.append_assoc]
    refine here.append ?_
    have there := second.factors (text ++ bytesAt s.input s.nextIn n)
    rw [input, nextIn] at there
    refine there ?_
    obtain ⟨front, rfl⟩ := ends
    have place : s.nextIn + n - (kept + n) = s.nextIn - kept := by omega
    refine ⟨front, ?_⟩
    rw [place, bytesAt_add, Nat.sub_add_cancel start, List.append_assoc]
  · intro item member
    have further := second.nextIn
    rcases List.mem_append.mp member with early | late
    · exact first.allowed item early
    · exact second.allowed item late
  · exact second.same.trans first.same

/-- A full buffer leaves less than eight bytes of room. -/
theorem Coded.room (h : Coded b needed s back kept m items) (full : s.isFull m.bitbuf) : (updateState s m).availOut < 8 := by
  have ahead := h.wrote.written.ahead
  rw [Zstream.isFull] at full
  change s.availOut - (m.bitbuf.outBuf - m.bitbuf.outStart) < 8
  have origin := h.wrote.written.origin
  omega

/-- The body goes on until the room is used up or less than the look-ahead is left, which the finish then takes. -/
theorem isalDeflateBodyBase_took (ready : Searchable b needed s back kept) : ∃ n items, Took b needed s (isalDeflateBodyBase b s) back kept n items [] ∧
    ((isalDeflateBodyBase b s).state = s.state ∧
        ((isalDeflateBodyBase b s).availOut < 8 ∨ s.endOfStream = 0 ∧ s.flush = noFlush ∧ (isalDeflateBodyBase b s).availIn ≤ lookAhead) ∨
      (isalDeflateBodyBase b s).state = .flushReadBuffer ∧ ¬(s.endOfStream = 0 ∧ s.flush = noFlush) ∧
        (isalDeflateBodyBase b s).availIn ≤ lookAhead) := by
  rw [isalDeflateBodyBase]
  by_cases empty : s.availIn = 0
  · rw [if_pos empty]
    by_cases last : s.endOfStream ≠ 0 ∨ s.flush ≠ noFlush
    · rw [if_pos last]
      exact ⟨0, [], .none ready .flushReadBuffer, .inr ⟨rfl, by tauto, by simp [empty]⟩⟩
    · rw [if_neg last]
      exact ⟨0, [], .none ready s.state, .inl ⟨rfl, .inr ⟨by tauto, by tauto, by simp [empty]⟩⟩⟩
  · have inside : ∀ p, p + lookAhead < s.nextIn + s.availIn → p + 258 ≤ s.nextIn + s.availIn := by
      intro p more
      rw [lookAhead] at more
      omega
    obtain ⟨⟨items, coded⟩, isFull, done⟩ := (Coded.start ready).matchLoop ready (limitHashUpdate - 1) inside (by decide)
      s.availIn (Nat.le_refl _)
    rw [← bodyLoop] at coded isFull done
    generalize bodyLoop b s = result at coded isFull done
    obtain ⟨full, m⟩ := result
    rw [if_neg empty]
    dsimp only
    have took := coded.taken
    refine ⟨m.nextIn - s.nextIn, items, ?_⟩
    cases full with
    | true => exact ⟨took, .inl ⟨rfl, .inl (coded.room (isFull rfl))⟩⟩
    | false =>
      have few : (updateState s m).availIn ≤ lookAhead := by
        have upTo : s.nextIn + s.availIn ≤ m.nextIn + lookAhead := done rfl
        simp only [updateState]
        omega
      by_cases last : s.endOfStream ≠ 0 ∨ s.flush ≠ noFlush
      · rw [if_neg (by simp), if_pos last]
        exact ⟨took.setState .flushReadBuffer _, .inr ⟨rfl, by tauto, few⟩⟩
      · rw [if_neg (by simp), if_neg last]
        exact ⟨took, .inl ⟨rfl, .inr ⟨by tauto, by tauto, few⟩⟩⟩

theorem finishLoops_spec (ready : Searchable b needed s back kept) : LoopEnd b needed s back kept 0 [] (finishLoops b s) := by
  rw [finishLoops]
  by_cases some_ : s.availIn ≠ 0
  · rw [if_pos some_]
    obtain ⟨⟨items, coded⟩, isFull, done⟩ := (Coded.start ready).matchLoop ready (limitHashUpdate - 3 - 1)
      (show ∀ p, p + 3 < s.nextIn + s.availIn → p + (s.nextIn + s.availIn - p) ≤ s.nextIn + s.availIn by intro p more; omega) (by decide)
      s.availIn (Nat.le_refl _)
    generalize matchLoop b s 3 (fun nextIn => s.nextIn + s.availIn - nextIn) (limitHashUpdate - 3 - 1) s.availIn s.matcher = result at *
    obtain ⟨full, m⟩ := result
    cases full with
    | true => exact ⟨⟨items, coded⟩, isFull, by simp⟩
    | false =>
      have ahead := coded.ahead
      have rest := coded.literalLoop ready s.availIn (by omega)
      exact ⟨by obtain ⟨items', further⟩ := rest.coded; exact ⟨items ++ items', further⟩, rest.full, rest.done⟩
  · rw [if_neg some_]
    exact ⟨⟨[], .start ready⟩, by simp, fun _ => by simp only [DeflateStream.matcher]; omega⟩

/-- The finish takes all of the input and ends the block, or the room is used up. -/
theorem isalDeflateFinishBase_took (ready : Searchable b needed s back kept) : ∃ n items behind,
    Took b needed s (isalDeflateFinishBase b s) back kept n items behind ∧
    (behind = [] ∧ (isalDeflateFinishBase b s).state = s.state ∧ (isalDeflateFinishBase b s).availOut < 8 ∨
      behind = codeBits (s.hufftables.getLitCode 256) ∧ (isalDeflateFinishBase b s).availIn = 0 ∧
        (isalDeflateFinishBase b s).state = if s.endOfStream = 1 then .trl else .syncFlush) := by
  obtain ⟨⟨items, coded⟩, isFull, done⟩ := finishLoops_spec ready
  rw [isalDeflateFinishBase]
  generalize finishLoops b s = result at coded isFull done
  obtain ⟨full, m⟩ := result
  rw [List.nil_append] at coded
  have took := coded.taken
  refine ⟨m.nextIn - s.nextIn, items, ?_⟩
  cases full with
  | true => exact ⟨[], took, .inl ⟨rfl, rfl, coded.room (isFull rfl)⟩⟩
  | false =>
    dsimp only
    rw [if_neg (by simp)]
    by_cases room : s.isFull m.bitbuf
    · rw [if_pos room]
      exact ⟨[], took, .inl ⟨rfl, rfl, coded.room room⟩⟩
    · rw [if_neg room]
      obtain ⟨code, few⟩ := ready.writable.endOfBlock
      have upTo : s.nextIn + s.availIn ≤ m.nextIn + 0 := done rfl
      refine ⟨_, (coded.took (coded.wrote.writeBits room code few)).setState _ 1, .inr ⟨rfl, ?_, rfl⟩⟩
      simp only [updateState]
      omega

end

end Isal.Deflate
