import Isal.StatelessWriter

/-! The size that a call without state reckons with, and what the fallback to stored blocks owes to it. -/
namespace Isal.Deflate
open Inflate Bits Rfc1951 Checksum

/-- The size of the input as stored blocks, at least one, each with its header, and of the wrapper -/
def storedSize (availIn gzipFlag : Nat) : Nat :=
  type0BlkHdrLen * max 1 ((availIn + type0MaxBlkLen - 1) / type0MaxBlkLen) + availIn + wrapperBytes gzipFlag

/-- The wrapper around the fallback begins here: its header, if no earlier call has written it. -/
def fallbackHeader (s : StatelessStream) : List UInt8 :=
  if (s.gzipFlag = gzip ∨ s.gzipFlag = zlib) ∧ s.hasWrapHdr = 0 then streamHeader s else []

/-- The trailer for the input of the call, if the stream ends with it -/
def fallbackTrailer (s : StatelessStream) : List UInt8 :=
  if (statelessStart s).endOfStream ≠ 0 then
    streamTrailer (updateChecksum { s with crc := 0, totalIn := (s.totalIn + s.availIn) % 2 ^ 32 }
      (bytesAt s.input s.nextIn s.availIn))
  else []

/-- The whole input is in the bytes, within its wrapper. -/
def Encodes (s : StatelessStream) (bytes : List UInt8) : Prop :=
  ∃ blocks, bytes = fallbackHeader s ++ (blocks ++ fallbackTrailer s) ∧ ∀ out rest, 8 ∣ rest.length →
    Steps ⟨.header, bytesBits blocks ++ rest, out⟩
      ⟨boundary ((statelessStart s).endOfStream ≠ 0), rest, out ++ bytesAt s.input s.nextIn s.availIn⟩

section

variable {s t : StatelessStream}

/-- The size is the true one just when that is a 32-bit number. -/
theorem storedLen_eq (availIn gzipFlag : Nat) :
    storedLen availIn gzipFlag = storedSize availIn gzipFlag ↔ storedSize availIn gzipFlag < 2 ^ 32 := by
  constructor
  · intro same
    rw [← same]
    exact Nat.mod_lt _ (by decide)
  · rw [storedLen, storedSize, type0BlkHdrLen, type0MaxBlkLen]
    generalize wrapperBytes gzipFlag = wrapper
    intro small
    dsimp only
    split
    · rename_i none_
      rw [none_] at small ⊢
      exact Nat.mod_eq_of_lt (by omega)
    · have one : 1 ≤ (availIn + 65535 - 1) / 65535 := by omega
      rw [Nat.max_eq_right one] at small ⊢
      -- none of the four sums wraps
      rw [Nat.mod_eq_of_lt (by omega : availIn + 65535 - 1 < 2 ^ 32),
        Nat.mod_eq_of_lt (by omega : 5 * ((availIn + 65535 - 1) / 65535) < 2 ^ 32),
        Nat.mod_eq_of_lt (by omega : 5 * ((availIn + 65535 - 1) / 65535) + availIn < 2 ^ 32), Nat.mod_eq_of_lt small]

theorem streamHeader_length (s : StatelessStream) :
    (streamHeader s).length = if s.gzipFlag = zlib then zlibHdrBytes else gzipHdrBytes := by
  rw [streamHeader]
  split <;> rfl

theorem streamTrailer_congr (gzipFlag : t.gzipFlag = s.gzipFlag) (crc : t.crc = s.crc) (totalIn : t.totalIn = s.totalIn) :
    streamTrailer t = streamTrailer s := by
  rw [streamTrailer, streamTrailer, gzipFlag, crc, totalIn]

theorem streamTrailer_length (s : StatelessStream) : (streamTrailer s).length =
    if s.gzipFlag = gzip ∨ s.gzipFlag = gzipNoHdr then gzipTrlBytes
    else if s.gzipFlag = zlib ∨ s.gzipFlag = zlibNoHdr then zlibTrlBytes else 0 := by
  rw [streamTrailer]
  split
  · rw [List.length_append, toLeBytes_length, toLeBytes_length]
    rfl
  · split
    · rw [List.length_reverse, toLeBytes_length]
      rfl
    · rfl

/-- The header goes out, if there is one and there is room for it. -/
theorem header_spec (s : StatelessStream) : ∃ out hasWrapHdr,
    (if s.gzipFlag = gzip ∨ s.gzipFlag = zlib then (writeStreamHeaderStateless s).2 else s) =
      { s with toOutStream := out, hasWrapHdr := hasWrapHdr } ∧
    ((fallbackHeader s).length < s.availOut → Appends s.toOutStream out (fallbackHeader s)) := by
  by_cases wrapped : s.gzipFlag = gzip ∨ s.gzipFlag = zlib
  · rw [if_pos wrapped]
    by_cases begun : s.hasWrapHdr = 0
    · have header : fallbackHeader s = streamHeader s := if_pos ⟨wrapped, begun⟩
      rw [header, writeStreamHeaderStateless, if_neg (not_not.mpr begun), ← streamHeader_length]
      dsimp only
      by_cases full : s.availOut ≤ (streamHeader s).length
      · rw [if_pos full]
        exact ⟨_, _, rfl, fun room => absurd full (Nat.not_le.mpr room)⟩
      · rw [if_neg full]
        exact ⟨s.toOutStream.put (streamHeader s), 1, rfl, fun room => put_appends _ _ (Nat.le_of_lt room)⟩
    · have header : fallbackHeader s = [] := if_neg fun both => begun both.2
      rw [header, writeStreamHeaderStateless, if_pos begun]
      exact ⟨_, _, rfl, fun _ => .refl _⟩
  · have header : fallbackHeader s = [] := if_neg fun both => wrapped both.1
    rw [header, if_neg wrapped]
    exact ⟨_, _, rfl, fun _ => .refl _⟩

/-- Behind the final block and with no bits that wait, the trailer goes out. -/
theorem writeTrailer_appends (marked : s.hasEobHdr = 1) (few : s.bitCount = 0) (room : (streamTrailer s).length ≤ s.availOut) :
    Appends s.toOutStream (writeTrailer s).toOutStream (streamTrailer s) := by
  have fresh : ¬ s.hasEobHdr = 0 := by
    rw [marked]
    exact Nat.one_ne_zero
  obtain ⟨t, isStart⟩ : ∃ t : StatelessStream, t = { s.setBitbuf s.bitbuf with hasEobHdr := s.hasEobHdr } := ⟨_, rfl⟩
  have start : Appends s.toOutStream t.toOutStream [] := by
    rw [isStart]
    refine ⟨rfl, ?_, fun _ _ => rfl, fun _ _ => rfl, rfl⟩
    change s.availOut = s.availOut - (s.nextOut - s.nextOut)
    rw [Nat.sub_self, Nat.sub_zero]
  have same : streamTrailer t = streamTrailer s := by
    rw [isStart]
    rfl
  have out := start.availOut
  rw [List.length_nil] at out
  have fits : ¬ t.availOut < (streamTrailer t).length := by
    rw [same]
    omega
  have written : writeTrailer s = { t.put (streamTrailer t) with state := .end_ } := by
    have waits : ¬ s.bitbuf.bitCount ≠ 0 := not_not.mpr few
    rw [writeTrailer, if_neg (fun both => fresh both.1)]
    dsimp only
    rw [if_neg (fun both => fresh both.1), if_neg fresh, if_neg fresh, if_neg (fun both => waits both.1), if_neg waits]
    rw [isStart] at fits ⊢
    exact if_neg fits
  rw [written, same]
  refine start.trans (put_appends t.toOutStream _ ?_)
  omega

/-- The checksum is made of the flag and the bytes alone. -/
theorem updateChecksum_spec (s : StatelessStream) (data : List UInt8) : ∃ crc, updateChecksum s data = { s with crc := crc } ∧
    ∀ t : StatelessStream, t.gzipFlag = s.gzipFlag → t.crc = s.crc → (updateChecksum t data).crc = crc := by
  refine ⟨(updateChecksum s data).crc, ?_, ?_⟩
  · rw [updateChecksum]
    split_ifs <;> rfl
  · intro t flag crc
    rw [updateChecksum, updateChecksum, flag, crc]
    split_ifs
    · rfl
    · rfl
    · exact crc

/-- The sizes of the header and of the trailer are what the wrapper adds to the size. -/
theorem wrapper_length (s : StatelessStream) : (fallbackHeader s).length + (fallbackTrailer s).length ≤ wrapperBytes s.gzipFlag := by
  have header : (fallbackHeader s).length ≤ if s.gzipFlag = gzip ∨ s.gzipFlag = zlib then
      (if s.gzipFlag = zlib then zlibHdrBytes else gzipHdrBytes) else 0 := by
    rw [fallbackHeader]
    split
    · rename_i begun
      rw [if_pos begun.1, streamHeader_length]
    · exact Nat.zero_le _
  have trailer : (fallbackTrailer s).length ≤ if s.gzipFlag = gzip ∨ s.gzipFlag = gzipNoHdr then gzipTrlBytes
      else if s.gzipFlag = zlib ∨ s.gzipFlag = zlibNoHdr then zlibTrlBytes else 0 := by
    rw [fallbackTrailer]
    split
    · obtain ⟨crc, summed, -⟩ := updateChecksum_spec { s with crc := 0, totalIn := (s.totalIn + s.availIn) % 2 ^ 32 }
        (bytesAt s.input s.nextIn s.availIn)
      rw [summed, streamTrailer_length]
    · exact Nat.zero_le _
  rw [wrapperBytes]
  simp only [gzip, gzipNoHdr, zlib, zlibNoHdr, gzipHdrBytes, gzipTrlBytes, zlibHdrBytes, zlibTrlBytes] at header trailer ⊢
  by_cases one : s.gzipFlag = 1
  · simp [one] at header trailer ⊢
    omega
  · by_cases two : s.gzipFlag = 2
    · simp [two] at header trailer ⊢
      rw [header, List.length_nil, Nat.zero_add]
      exact trailer
    · by_cases three : s.gzipFlag = 3
      · simp [three] at header trailer ⊢
        omega
      · simp [one, two, three] at header trailer ⊢
        rw [header, List.length_nil, Nat.zero_add]
        exact trailer

/-- The trailer goes out, if the stream ends. -/
theorem finishStored_spec (flag : t.gzipFlag = s.gzipFlag) (last : t.endOfStream = (statelessStart s).endOfStream)
    (marked : t.endOfStream ≠ 0 → t.hasEobHdr = 1) (few : t.bitCount = 0) (room : (fallbackTrailer s).length ≤ t.availOut) :
    Appends t.toOutStream (finishStored s t).toOutStream (fallbackTrailer s) := by
  obtain ⟨totalIn, isTotal⟩ : ∃ totalIn, totalIn = (s.totalIn + s.availIn) % 2 ^ 32 := ⟨_, rfl⟩
  obtain ⟨crc, summed, same⟩ := updateChecksum_spec { t with totalIn := totalIn, crc := 0 } (bytesAt s.input s.nextIn s.availIn)
  obtain ⟨crc', summed', -⟩ := updateChecksum_spec { s with crc := 0, totalIn := totalIn } (bytesAt s.input s.nextIn s.availIn)
  have agree : crc' = crc := by
    rw [← same { s with crc := 0, totalIn := totalIn } flag.symm rfl, summed']
  -- without a wrapper the checksum stays as it is, and there is no trailer
  obtain ⟨u, isSum, trailer⟩ : ∃ u, (if t.gzipFlag ≠ 0 then { t with totalIn := totalIn, crc := crc }
      else { t with totalIn := totalIn }) = { t with totalIn := totalIn, crc := u } ∧
        streamTrailer { t with totalIn := totalIn, crc := u } = streamTrailer { s with crc := crc', totalIn := totalIn } := by
    by_cases wrapped : t.gzipFlag ≠ 0
    · refine ⟨crc, if_pos wrapped, streamTrailer_congr flag agree.symm rfl⟩
    · refine ⟨t.crc, if_neg wrapped, ?_⟩
      have none_ : t.gzipFlag = 0 := not_not.mp wrapped
      have none_' : s.gzipFlag = 0 := flag ▸ none_
      simp [streamTrailer, none_, none_', gzip, gzipNoHdr, zlib, zlibNoHdr]
  rw [finishStored, ← isTotal]
  dsimp only
  rw [summed, isSum]
  rw [fallbackTrailer, ← isTotal, summed', ← trailer, ← last] at room ⊢
  dsimp only
  by_cases ends : t.endOfStream ≠ 0
  · rw [if_pos ends] at room
    rw [if_pos ends, if_pos ends]
    exact writeTrailer_appends (s := { t with totalIn := totalIn, crc := u }) (marked ends) few room
  · rw [if_neg ends, if_neg ends]
    exact .refl _

/-- The stored blocks are all written if the output has room for the whole size. -/
theorem storeStateless_spec (s : StatelessStream) (memory : Arr UInt8) (word : s.availIn < 2 ^ 32) : ∃ t,
    storeStateless s memory = some t ∧ (storedSize s.availIn s.gzipFlag ≤ s.availOut →
      ∃ bytes, Encodes s bytes ∧ Appends { s.toOutStream with memory := memory } t.toOutStream bytes) := by
  obtain ⟨out, begun, header, written⟩ := header_spec (storedStart s memory)
  obtain ⟨z, isBlock⟩ : ∃ z : Zstream, z = { (storedStart s memory).toZstream with toOutStream := out, state := .type0Hdr } := ⟨_, rfl⟩
  have size : z.blockInSize = s.availIn := by
    rw [Zstream.blockInSize, isBlock]
    change (s.availIn + 2 ^ 32 - 0) % 2 ^ 32 = s.availIn
    omega
  have offset : z.blockNextOffset = s.availIn := by
    rw [Zstream.blockNextOffset, isBlock]
    change (s.availIn + 2 ^ 32 - 0) % 2 ^ 32 = s.availIn
    omega
  have place : z.nextIn = s.nextIn + s.availIn ∧ z.availIn = 0 ∧ z.input = s.input ∧
      z.endOfStream = (statelessStart s).endOfStream ∧ z.bitCount = 0 ∧ z.bits = 0 ∧ z.state = .type0Hdr ∧ z.hasEobHdr = 0 ∧
        z.blockNext = 0 ∧ z.blockEnd = s.availIn ∧ z.toOutStream = out := by
    rw [isBlock]
    exact ⟨rfl, rfl, rfl, rfl, rfl, rfl, rfl, rfl, rfl, rfl, rfl⟩
  obtain ⟨nextIn, none_, input, last, few, clean, state, fresh, next, end_, isOut⟩ := place
  have at_ : AtHeader z := by
    refine ⟨⟨?_, ?_, ?_, ?_, ?_⟩, state, fresh, ?_, ?_⟩
    · rw [next]
      exact Nat.zero_le _
    · rw [end_]
      exact word
    · rw [size, offset]
    · rw [offset, nextIn]
      exact Nat.le_add_left ..
    · rw [offset, none_, Nat.zero_add]
      exact word
    · rw [few]
      exact Nat.zero_le _
    · rw [few, clean]
      exact Nat.one_pos
  have stored : ∀ n z', writeStoredBlock z = some (n, z') → storeStateless s memory =
      some (finishStored s { storedStart s memory with hasWrapHdr := begun, toZstream := z' }) := by
    intro n z' run
    rw [storeStateless]
    dsimp only
    rw [header]
    dsimp only
    rw [← isBlock, run]
    rfl
  by_cases room : storedSize s.availIn s.gzipFlag ≤ s.availOut
  swap
  · obtain ⟨z', -, -, run, -⟩ := writeStoredBlock_spec (.inl at_)
    exact ⟨_, stored _ z' run, fun room' => absurd room' room⟩
  have whole : z.left = bytesAt s.input s.nextIn s.availIn := by
    rw [Zstream.left, offset, nextIn, size, input, Nat.add_sub_cancel]
  have ends : z.ends = decide ((statelessStart s).endOfStream ≠ 0) := by
    rw [Zstream.ends, last, none_, offset, size, Nat.zero_add]
    simp
  have rest : z.rest =
      storedBlocks (decide ((statelessStart s).endOfStream ≠ 0)) 0 (chunksOf (bytesAt s.input s.nextIn s.availIn)) := by
    rw [rest_header state, few, whole, ends]
    rfl
  have blocks := storedBlocks_length (decide ((statelessStart s).endOfStream ≠ 0)) (bytesAt s.input s.nextIn s.availIn)
  have wrapper := wrapper_length s
  have sum : storedSize s.availIn s.gzipFlag =
      5 * max 1 ((s.availIn + (storedMax - 1)) / storedMax) + s.availIn + wrapperBytes s.gzipFlag := rfl
  rw [← rest, bytesAt_length] at blocks
  have header := written (show (fallbackHeader s).length < s.availOut by omega)
  have left : s.availOut = out.availOut + (fallbackHeader s).length := header.availOut
  obtain ⟨z', bytes, n, run, stores, finished, all⟩ := writeStoredBlock_roomy (.inl ⟨at_, few⟩) (by rw [isOut]; omega)
  refine ⟨_, stored _ z' run, fun _ => ?_⟩
  have appended := stores.appended
  rw [isOut] at appended
  have left' := appended.availOut
  have length := congrArg List.length all
  rw [bytesBits_length] at length
  obtain ⟨-, -, -, ends'⟩ := at_.toBehind.advance stores.inside stores.advanced
  have trailer := finishStored_spec (s := s) (t := { storedStart s memory with hasWrapHdr := begun, toZstream := z' }) rfl
    (stores.advanced.endOfStream.trans last) ?_ finished.few (show (fallbackTrailer s).length ≤ z'.availOut by omega)
  · refine ⟨_, ⟨bytes, rfl, ?_⟩, header.trans (appended.trans trailer)⟩
    intro output rest' aligned
    obtain ⟨some_, flat, short⟩ := chunksOf_spec (bytesAt s.input s.nextIn s.availIn)
    have steps := Steps.storedBlocks (decide ((statelessStart s).endOfStream ≠ 0)) 0 some_ short aligned output
    rw [flat] at steps
    rw [← all, rest]
    exact steps
  · intro more
    have more' : (statelessStart s).endOfStream ≠ 0 := (stores.advanced.endOfStream.trans last) ▸ more
    refine finished.marked.trans ?_
    rw [ends', ends, decide_eq_true more']
    rfl

/-- The flush and the level are among those of a call without state. -/
structure Accepted (s : StatelessStream) : Prop where
  flush : s.flush = noFlush ∨ s.flush = fullFlush
  level : checkLevelReq (statelessStart s) = .compOk
  word : s.availIn < 2 ^ 32

end
end Isal.Deflate
