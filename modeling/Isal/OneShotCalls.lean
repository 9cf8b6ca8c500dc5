import Isal.OneShotBlocks
import Isal.InflateStateless

/-! Compression in one call at level 0: whatever the call is content with is read back as its input. -/
namespace Isal.Deflate
open Inflate Bits Checksum HuffCodes Rfc1951 Lz77

section

variable {b : HashBuild} {needed : Nat → Prop} {codes : Codes} {s t : DeflateStream}

theorem Leads.reset {s₀ : DeflateStream} {n : Nat} {bits : List Bool} {mode : Mode} (leads : Leads s₀ s n bits mode) :
    Leads s₀ s.resetMatchHistory n bits mode :=
  ⟨⟨leads.emits, leads.nextIn, leads.availIn, leads.totalIn, leads.same⟩, leads.reaches⟩

theorem Leads.searchable {s₀ : DeflateStream} {n : Nat} {bits : List Bool} {mode : Mode} (leads : Leads s₀ s n bits mode)
    (near : s.distMask ≤ 32768) (writable : Writable b.toBuild needed s.hufftables)
    (covers : ∀ i < s.availIn, needed (s.input (s.nextIn + i)).toNat) : Searchable b needed s.resetMatchHistory 0 0 where
  clean := leads.emits.clean
  start := Nat.zero_le _
  recent := resetMatchHistory_recent s
  reach := by simp
  distMask := near
  writable := writable
  covers := covers

theorem compressLevel0_spec (begins : s.state = .newHdr) (aligned : s.bitCount = 0) (clean : s.Clean) (fresh : s.crc = 0)
    (one : s.endOfStream ≤ 1) (near : s.distMask ≤ 32768) (tables : Consistent b.toBuild needed s.hufftables codes)
    (writable : Writable b.toBuild needed s.hufftables) (covers : ∀ i < s.availIn, needed (s.input (s.nextIn + i)).toNat) :
    (∃ bytes, Appends s.toOutStream (compressLevel0 b s).2.toOutStream bytes) ∧
      ((compressLevel0 b s).1 = .compOk → OneShot s.toStatelessStream (compressLevel0 b s).2.toStatelessStream) := by
  obtain ⟨n, bits, last, run⟩ := runDone begins aligned clean fresh
  rw [compressLevel0]
  dsimp only
  generalize (if 8 ≤ s.availIn ∧ (loadLeU64 s.input s.nextIn = 0 ∨ loadLeU64 s.input s.nextIn = 2 ^ 64 - 1) then _ else s) = s₁ at run ⊢
  obtain ⟨input, hufftables, distMask, -, eos, -, flag⟩ := given_fields run.same
  have sum := run.sum
  rw [flag] at sum
  have ret : ∀ u : DeflateStream, (if u.state = .end_ ∨ u.state = .newHdr ∧ u.flush = fullFlush then CompRet.compOk
      else .statelessOverflow) = .compOk → u.state = .end_ ∨ u.state = .newHdr := by
    intro u ok
    by_contra neither
    rw [if_neg (by tauto)] at ok
    cases ok
  cases last with
  | true =>
    obtain ⟨marked, all, final⟩ := run.marked rfl
    have state : s₁.state = .trl := run.state
    have stays : writeStates b s₁ = s₁ := by simp [writeStates, state]
    simp only [state, reduceCtorEq, or_self, if_false]
    have ends := isalDeflatePass_ends (b := b) (t := s₁) (n := n) aligned (by
        rw [stays]
        exact .last n bits run.toLeads state all final)
      (by rw [stays]; omega) run.nextIn (by rw [stays]; exact sum) (by rw [stays])
    exact ⟨ends.1, fun ok => ends.2 (ret _ ok)⟩
  | false =>
    have state : s₁.state = .newHdr := run.state
    simp only [state, true_or, if_true]
    rw [← hufftables] at tables writable
    rcases writeDeflateHeaderUnalignedStateless_spec tables writable run.emits.clean with same | sent
    · rw [same]
      simp only [state, true_or, if_true]
      obtain ⟨bytes, appends, -⟩ := run.emits.appends
      exact ⟨⟨bytes, appends⟩, by simp⟩
    · have leads := run.toLeads.header tables sent
      have frame := sent.frame
      generalize writeDeflateHeaderUnalignedStateless s₁ = s₂ at leads frame ⊢
      have body : s₂.state = .body := by rw [frame]
      rw [if_neg (by simp [body])]
      have taken := leads.availIn
      have place := leads.nextIn
      have fields : s₂.hufftables = s₁.hufftables ∧ s₂.endOfStream = s₁.endOfStream ∧ s₂.crc = s₁.crc ∧ s₂.distMask = s₁.distMask ∧
          s₂.input = s₁.input ∧ (s₂.endOfStream ≠ 0 → s₂.hasEobHdr = 1) := by
        rw [frame]
        exact ⟨rfl, rfl, rfl, rfl, rfl, fun final => if_pos final⟩
      obtain ⟨hufftables₂, eos₂, crc₂, distMask₂, input₂, marked⟩ := fields
      rw [← hufftables₂] at tables writable
      rw [← eos₂] at leads
      obtain ⟨blocks, hasEobHdr, crc, onward⟩ := writeStates_body (s := s₂.resetMatchHistory) aligned leads.reset body
        (leads.searchable (by omega) writable fun i inside => by
          rw [input₂, input, place, Nat.add_assoc]
          exact covers (n + i) (by omega)) tables (by change s₂.endOfStream ≤ 1; omega)
      have ends := isalDeflatePass_ends (b := b) (t := s₂.resetMatchHistory) (n := n) aligned blocks (by
          rw [hasEobHdr]
          by_cases final : s₂.endOfStream = 0
          · exact .inr (by omega)
          · have mark : s₂.resetMatchHistory.hasEobHdr = 1 := marked final
            exact .inl (by omega))
        place (by rw [crc]; exact crc₂ ▸ sum) onward
      generalize isalDeflatePass b s₂.resetMatchHistory = u at ends ⊢
      exact ⟨ends.1, fun ok => ends.2 (ret u ok)⟩

end

section

variable {b : HashBuild} {needed : Nat → Prop} {h : Hufftables} {codes : Codes} {s t : StatelessStream} {bytes : List UInt8}

theorem setDistMask_le (b : Build) (s : DeflateStream) : (s.setDistMask b).distMask ≤ 32768 := by
  rw [DeflateStream.setDistMask]
  dsimp only
  have low : (if isalDefMaxHistBits < s.histBits ∨ s.histBits = 0 then isalDefMaxHistBits else s.histBits) ≤ 15 := by
    rw [isalDefMaxHistBits]
    split <;> omega
  generalize (if isalDefMaxHistBits < s.histBits ∨ s.histBits = 0 then isalDefMaxHistBits else s.histBits) = histBits at low ⊢
  have power := Nat.pow_le_pow_right (by decide : 0 < 2) low
  split <;> omega

theorem setHashMask_frame (b : Build) (s : DeflateStream) : s.setHashMask b = { s with hashMask := (s.setHashMask b).hashMask } := by
  rw [DeflateStream.setHashMask]
  split_ifs <;> rfl

/-- The stream with tables and masks is that without them. -/
theorem withTables_spec (b : HashBuild) (h : Hufftables) (head : Arr Nat) (s : StatelessStream) : ∃ histBits distMask hashMask,
    distMask ≤ 32768 ∧ withTables b h head s =
      { toStatelessStream := { s with histBits }, hufftables := h, head, distMask, hashMask, hasHist := igzipNoHist } := by
  rw [withTables]
  dsimp only
  rw [setHashMask_frame]
  exact ⟨_, _, _, setDistMask_le _ _, rfl⟩

/-- The call of the compressor begins with the header of the wrapper, for which there may be no room. -/
theorem isalDeflateIntStateless_header (compress : StatelessStream → CompRet × StatelessStream) (s : StatelessStream) :
    isalDeflateIntStateless compress s = (.statelessOverflow, s) ∨ ∃ out hasWrapHdr, Appends s.toOutStream out (fallbackHeader s) ∧
      isalDeflateIntStateless compress s = compress { s with toOutStream := out, hasWrapHdr } := by
  rw [isalDeflateIntStateless]
  by_cases wrapped : s.gzipFlag = gzip ∨ s.gzipFlag = zlib
  · rw [if_pos wrapped, writeStreamHeaderStateless]
    by_cases begun : s.hasWrapHdr ≠ 0
    · right
      rw [if_pos begun, if_neg (by simp)]
      have none_ : fallbackHeader s = [] := if_neg (by tauto)
      rw [none_]
      exact ⟨s.toOutStream, s.hasWrapHdr, .refl _, rfl⟩
    · rw [if_neg begun]
      dsimp only
      by_cases room : s.availOut ≤ if s.gzipFlag = zlib then zlibHdrBytes else gzipHdrBytes
      · left
        rw [if_pos room]
        rfl
      · right
        rw [if_neg room, if_neg (by simp)]
        have header : fallbackHeader s = streamHeader s := if_pos ⟨wrapped, not_not.mp begun⟩
        rw [← streamHeader_length] at room
        rw [header]
        exact ⟨_, 1, put_appends _ _ (by omega), rfl⟩
  · right
    rw [if_neg wrapped]
    have none_ : fallbackHeader s = [] := if_neg (by tauto)
    rw [none_]
    exact ⟨s.toOutStream, s.hasWrapHdr, .refl _, rfl⟩

/-- What the call of the compressor has put out -/
theorem compressStateless_spec (head : Arr Nat) (otherLevels : StatelessStream → CompRet × StatelessStream) (level : s.level = 0)
    (begins : s.state = .newHdr) (aligned : s.bitCount = 0) (clean : s.Clean) (fresh : s.crc = 0) (one : s.endOfStream ≤ 1)
    (tables : Consistent b.toBuild needed h codes) (writable : Writable b.toBuild needed h)
    (covers : ∀ i < s.availIn, needed (s.input (s.nextIn + i)).toNat) :
    (∃ bytes, Appends s.toOutStream (compressStateless b h head otherLevels s).2.toOutStream bytes) ∧
      ((compressStateless b h head otherLevels s).1 = .compOk → OneShot s (compressStateless b h head otherLevels s).2) := by
  rw [compressStateless, if_pos level]
  obtain ⟨histBits, distMask, hashMask, near, isTables⟩ := withTables_spec b h head s
  have spec := compressLevel0_spec (b := b) (s := withTables b h head s) (by rwa [isTables]) (by rwa [isTables]) (by rwa [isTables])
    (by rwa [isTables]) (by rwa [isTables]) (by rwa [isTables]) (by rw [isTables]; exact tables) (by rwa [isTables])
    (by rwa [isTables])
  generalize compressLevel0 b (withTables b h head s) = r at spec ⊢
  rw [isTables] at spec
  exact spec

/-- All of the input is in what has been put out, within its wrapper. -/
def Lossless (s t : StatelessStream) : Prop :=
  ∃ bytes, Appends s.toOutStream t.toOutStream (fallbackHeader s ++ (bytes ++ callTrailer (statelessStart s))) ∧
    Decodes bytes (decide ((statelessStart s).endOfStream ≠ 0)) (bytesAt s.input s.nextIn s.availIn)

/-- Room that a call is not told of stays as it is. -/
theorem Appends.widen {o o' : OutStream} {bytes : List UInt8} (h : Appends o o' bytes) (more : Nat) :
    Appends { o with availOut := o.availOut + more } { o' with availOut := o'.availOut + more } bytes where
  nextOut := h.nextOut
  availOut := by
    have room := h.availOut
    dsimp only
    omega
  kept := h.kept
  beyond := fun i after => h.beyond i (by dsimp only at after; omega)
  written := h.written

/-- Bytes are put out once more over those of an earlier try. -/
theorem Appends.again {o o' u : OutStream} {tried bytes : List UInt8} (first : Appends o o' tried)
    (second : Appends { o with memory := o'.memory } u bytes) : Appends o u bytes where
  nextOut := second.nextOut
  availOut := second.availOut
  kept := fun i before => (second.kept i before).trans (first.kept i before)
  beyond := fun i after => (second.beyond i after).trans (first.beyond i after)
  written := second.written

theorem fallbackTrailer_eq (s : StatelessStream) : fallbackTrailer s = callTrailer (statelessStart s) := by
  rw [fallbackTrailer, callTrailer]
  by_cases final : (statelessStart s).endOfStream ≠ 0
  · rw [if_pos final, if_pos final]
    have sum := (Totals.start s.gzipFlag).append (s := { s with crc := 0, totalIn := (s.totalIn + s.availIn) % 2 ^ 32 })
      (bytesAt s.input s.nextIn s.availIn)
    rw [updateChecksum_frame]
    exact streamTrailer_eq (s := { s with totalIn := (s.totalIn + s.availIn) % 2 ^ 32, crc := _ }) sum (Nat.mod_modEq _ _)
  · rw [if_neg final, if_neg final]

theorem Encodes.lossless (h : Encodes s bytes) (appends : Appends s.toOutStream t.toOutStream bytes) : Lossless s t := by
  obtain ⟨blocks, rfl, steps⟩ := h
  rw [fallbackTrailer_eq] at appends
  refine ⟨blocks, appends, [], by decide, fun _ => rfl, fun dict rest aligned => ?_⟩
  rw [List.nil_append]
  exact steps dict rest aligned

theorem isalDeflateIntStateless_spec (head : Arr Nat) (otherLevels : StatelessStream → CompRet × StatelessStream) (level : s.level = 0)
    (one : s.flush = noFlush ∨ s.endOfStream ≤ 1) (tables : Consistent b.toBuild needed h codes) (writable : Writable b.toBuild needed h)
    (covers : ∀ i < s.availIn, needed (s.input (s.nextIn + i)).toNat) {r : CompRet × StatelessStream}
    (result : isalDeflateIntStateless (compressStateless b h head otherLevels) (compressStart s) = r) :
    (∃ bytes, Appends (compressStart s).toOutStream r.2.toOutStream bytes) ∧
      (r.1 = .compOk → ∃ bytes, Appends (compressStart s).toOutStream r.2.toOutStream
          (fallbackHeader s ++ (bytes ++ callTrailer (statelessStart s))) ∧
        Decodes bytes (decide ((statelessStart s).endOfStream ≠ 0)) (bytesAt s.input s.nextIn s.availIn)) := by
  have final : (statelessStart s).endOfStream ≤ 1 := by
    simp only [statelessStart]
    split
    · exact Nat.le_refl _
    · tauto
  rcases isalDeflateIntStateless_header (compressStateless b h head otherLevels) (compressStart s) with full | ⟨out, hasWrapHdr, header, rest⟩
  · rw [← result, full]
    exact ⟨⟨[], .refl _⟩, by simp⟩
  · obtain ⟨u, isU⟩ : ∃ u : StatelessStream, u = { compressStart s with toOutStream := out, hasWrapHdr } := ⟨_, rfl⟩
    have spec := compressStateless_spec (b := b) (h := h) (s := u) head otherLevels (by rwa [isU]) (by rw [isU]; rfl)
      (by rw [isU]; rfl) (by rw [isU]; exact ⟨Nat.zero_lt_succ 7, Nat.one_pos⟩) (by rw [isU]; rfl) (by rwa [isU]) tables writable
      (by rwa [isU])
    rw [← isU, result] at rest
    rw [← rest] at spec
    rw [isU] at spec
    obtain ⟨⟨tried, appends⟩, done⟩ := spec
    refine ⟨⟨_, header.trans appends⟩, fun ok => ?_⟩
    obtain ⟨bytes, appends', decodes⟩ := done ok
    exact ⟨bytes, header.trans appends', decodes⟩

/-- A call at level 0 whose tables have codes for its input, and whose size as stored blocks is a 32-bit number. Where
`end_of_stream` is looked at it is 0 or 1. -/
structure Callable (b : HashBuild) (h : Hufftables) (s : StatelessStream) : Prop where
  accepted : Accepted s
  level : s.level = 0
  one : s.flush = noFlush ∨ s.endOfStream ≤ 1
  sized : storedSize s.availIn s.gzipFlag < 2 ^ 32
  tables : ∃ needed codes, Consistent b.toBuild needed h codes ∧ Writable b.toBuild needed h ∧
    ∀ i < s.availIn, needed (s.input (s.nextIn + i)).toNat

/-- A call without state at level 0 loses nothing: what it is content with is read back as its input, whether it has
compressed it or fallen back to stored blocks, for which there is room whenever there is for the size that it knows. -/
theorem Callable.lossless (callable : Callable b h s) (head : Arr Nat) (otherLevels : StatelessStream → CompRet × StatelessStream) :
    ∃ ret t, isalDeflateStateless (compressStateless b h head otherLevels) s = some (ret, t) ∧
      (ret = .compOk ∨ ret = .statelessOverflow ∧ s.availOut < storedSize s.availIn s.gzipFlag) ∧ (ret = .compOk → Lossless s t) := by
  obtain ⟨accepted, level, one, sized, needed, codes, tables, writable, covers⟩ := callable
  have size := (storedLen_eq s.availIn s.gzipFlag).mpr sized
  have flush : ¬ (s.flush ≠ noFlush ∧ s.flush ≠ fullFlush) := fun both => accepted.flush.elim both.1 both.2
  obtain ⟨⟨tried, appends⟩, done⟩ := isalDeflateIntStateless_spec (b := b) head otherLevels level one tables writable covers rfl
  have start : (compressStart s).toOutStream =
      { s.toOutStream with availOut := if storedSize s.availIn s.gzipFlag ≤ s.availOut then storedSize s.availIn s.gzipFlag else s.availOut } := by
    rw [← size]
    rfl
  rw [isalDeflateStateless, if_neg flush, if_neg (not_not.mpr accepted.level)]
  dsimp only
  rw [size]
  generalize isalDeflateIntStateless (compressStateless b h head otherLevels) (compressStart s) = r at appends done
  obtain ⟨ret, t⟩ := r
  rw [start] at appends done
  -- the room that was held back is given back
  have whole : ∀ {bytes}, Appends { s.toOutStream with availOut := if storedSize s.availIn s.gzipFlag ≤ s.availOut then storedSize s.availIn s.gzipFlag else s.availOut }
      t.toOutStream bytes → Appends s.toOutStream { t.toOutStream with availOut := if storedSize s.availIn s.gzipFlag ≤ s.availOut then t.availOut + (s.availOut - storedSize s.availIn s.gzipFlag) else t.availOut } bytes := by
    intro bytes appends
    by_cases fits : storedSize s.availIn s.gzipFlag ≤ s.availOut
    · simp only [fits, if_true] at appends ⊢
      have wide := appends.widen (s.availOut - storedSize s.availIn s.gzipFlag)
      simpa [Nat.add_sub_cancel' fits] using wide
    · simp only [fits, if_false] at appends ⊢
      exact appends
  by_cases ok : ret = .compOk
  · rw [if_pos ok]
    refine ⟨_, _, rfl, .inl rfl, fun _ => ?_⟩
    obtain ⟨bytes, appends', decodes⟩ := done ok
    exact ⟨bytes, whole appends', decodes⟩
  · rw [if_neg ok]
    by_cases short : s.availOut < storedSize s.availIn s.gzipFlag
    · rw [if_pos short]
      exact ⟨_, _, rfl, .inr ⟨rfl, short⟩, by simp⟩
    · rw [if_neg short]
      obtain ⟨u, stored, encodes⟩ := storeStateless_spec s t.memory accepted.word
      obtain ⟨bytes, encodes, appends'⟩ := encodes (Nat.not_lt.mp short)
      refine ⟨_, u, by rw [stored]; rfl, .inl rfl, fun _ => encodes.lossless ((whole appends).again ?_)⟩
      exact appends'

end

end Isal.Deflate
