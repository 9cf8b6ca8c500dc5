import Isal.RepeatedChar
import Isal.StoredRuns

/-! A run of one character comes out of the block that is written for it. -/
namespace Isal.Deflate
open Inflate Bits PrefixCode Rfc1951

/-- The codes of the header: a literal, the end of the block and the lengths 10, 115 to 130 and 258 -/
def repeatCodes (c : UInt8) : Codes where
  lit := (if c = 0 then 2 :: List.replicate 255 0 else List.replicate 255 0 ++ [2]) ++
    (4 :: List.replicate 7 0) ++ (3 :: List.replicate 15 0) ++ (4 :: List.replicate 4 0) ++ [1]
  dist := [1]

/-- The header and the first literal -/
def repeatHeader (c : UInt8) (last : Bool) : List UInt8 :=
  let header := (repeatedCharHeader (c.toNat &&& 1)).flatMap (toLeBytes · 4)
  if last then header.modifyHead (· ||| 1) else header

section

variable {c : UInt8} {lens : List Nat} {limit sym : Nat}

/-- A symbol is read off its codeword. -/
theorem decodeSym_codeword (valid : Valid lens 15) (legal : sym < limit) {word : List Bool} (code : codeword lens sym = word)
    (some_ : word ≠ []) (rest : List Bool) : decodeSym lens limit (word ++ rest) = .ok sym rest := by
  have length : word.length = lengthOf lens sym := by
    rw [← code, codeword, msbBits_length]
  have used : lengthOf lens sym ≠ 0 := by
    rw [← length]
    exact fun zero => some_ (List.length_eq_zero_iff.mp zero)
  have starts : codeword lens sym <+: word ++ rest := code ▸ List.prefix_append word rest
  obtain ⟨next, enough⟩ := matches_of_prefix used starts
  rw [valid.decodeSym_ok legal next enough, ← length, List.drop_left]

theorem repeatCodes_legal (char : c = 0 ∨ c = 255) : (repeatCodes c).Legal := by
  rcases char with rfl | rfl
  · exact ⟨⟨by decide +kernel, by decide +kernel⟩, ⟨by decide +kernel, by decide +kernel⟩⟩
  · exact ⟨⟨by decide +kernel, by decide +kernel⟩, ⟨by decide +kernel, by decide +kernel⟩⟩

theorem repeatCodes_codewords (char : c = 0 ∨ c = 255) : codeword (repeatCodes c).lit c.toNat = lowBits codeLitLength codeLit ∧
    codeword (repeatCodes c).lit 256 = lowBits endOfBlockLen endOfBlockCode ∧
      codeword (repeatCodes c).lit 264 = [true, true, false] ∧ codeword (repeatCodes c).lit 280 = [true, true, true, true] ∧
        codeword (repeatCodes c).lit 285 = [false] := by
  rcases char with rfl | rfl <;> decide +kernel

theorem readBlock_repeatHeader (char : c = 0 ∨ c = 255) (last : Bool) :
    readBlock (bytesBits (repeatHeader c last)) = .ok (last, .coded (repeatCodes c)) (lowBits codeLitLength codeLit) := by
  have split : bytesBits (repeatHeader c last) =
      lowBits 1 last.toNat ++ (lowBits 2 2 ++ (bytesBits (repeatHeader c false)).drop 3) := by
    rcases char with rfl | rfl <;> cases last <;> decide +kernel
  have dynamic : readDynamic ((bytesBits (repeatHeader c false)).drop 3) = .ok (repeatCodes c) (lowBits codeLitLength codeLit) := by
    rcases char with rfl | rfl <;> decide +kernel
  have kind : readKind 2 ((bytesBits (repeatHeader c false)).drop 3) = .ok (.coded (repeatCodes c)) (lowBits codeLitLength codeLit) := by
    rw [readKind, if_neg (by decide), if_neg (by decide), if_pos rfl]
    exact bind_ok dynamic
  rw [split, readBlock, bind_ok (num_lowBits (by cases last <;> decide) _), bind_ok (num_lowBits (by decide) _), bind_ok kind]
  cases last <;> rfl

theorem readToken_codeLit (char : c = 0 ∨ c = 255) (rest : List Bool) :
    readToken (repeatCodes c) (lowBits codeLitLength codeLit ++ rest) = .ok (.literal c) rest := by
  have symbol := decodeSym_codeword (repeatCodes_legal char).1 (Nat.lt_trans c.toNat_lt (by decide : 2 ^ 8 < 286))
    (repeatCodes_codewords char).1 (List.cons_ne_nil _ _) rest
  rw [readToken, bind_ok symbol, if_pos c.toNat_lt, pure_eq, UInt8.ofNat_toNat]

theorem readToken_endOfBlock (char : c = 0 ∨ c = 255) (rest : List Bool) :
    readToken (repeatCodes c) (lowBits endOfBlockLen endOfBlockCode ++ rest) = .ok .endOfBlock rest := by
  have symbol := decodeSym_codeword (repeatCodes_legal char).1 (by decide : 256 < 286) (repeatCodes_codewords char).2.1
    (List.cons_ne_nil _ _) rest
  rw [readToken, bind_ok symbol, if_neg (by decide), if_pos rfl, pure_eq]

/-- A match one byte back -/
theorem readToken_repeat (char : c = 0 ∨ c = 255) {word : List Bool} (code : codeword (repeatCodes c).lit sym = word)
    (some_ : word ≠ []) (length : 256 < sym) (legal : sym < 286) {extra : Nat} (small : extra < 2 ^ lenExtra[sym - 257]?.getD 0)
    (rest : List Bool) :
    readToken (repeatCodes c) (word ++ (lowBits (lenExtra[sym - 257]?.getD 0) extra ++ ([false] ++ rest))) =
      .ok (.copy (lenStart[sym - 257]?.getD 0 + extra) 1) rest := by
  have symbol := decodeSym_codeword (repeatCodes_legal char).1 legal code some_
    (lowBits (lenExtra[sym - 257]?.getD 0) extra ++ ([false] ++ rest))
  have dist : decodeSym (repeatCodes c).dist (repeatCodes c).dist.length ([false] ++ rest) = .ok 0 rest :=
    decodeSym_codeword (repeatCodes_legal char).2 Nat.one_pos (by decide : codeword [1] 0 = [false]) (List.cons_ne_nil _ _) rest
  rw [readToken, bind_ok symbol, if_neg (by omega), if_neg (by omega), readMatch, bind_ok (num_lowBits small _), bind_ok dist,
    if_neg (by decide)]
  rfl

/-- The character before is copied. -/
theorem copyMatch_one (c : UInt8) (n : Nat) {m : Nat} (some_ : 0 < m) (out : List UInt8) :
    Rfc1951.copyMatch 1 n (out ++ List.replicate m c) = out ++ List.replicate (m + n) c := by
  induction n generalizing m with
  | zero => rfl
  | succ n ih =>
    have last : (out ++ List.replicate m c)[(out ++ List.replicate m c).length - 1]?.getD 0 = c := by
      rw [List.length_append, List.length_replicate, List.getElem?_append_right (by omega), List.getElem?_replicate,
        if_pos (by omega), Option.getD_some]
    rw [Rfc1951.copyMatch, last, List.append_assoc, ← List.replicate_succ', ih (Nat.succ_pos m),
      Nat.succ_add_eq_add_succ]

/-- Bits that are `n` more copies of the character to the reference decoder -/
def Repeats (c : UInt8) (bits : List Bool) (n : Nat) : Prop :=
  ∀ (final : Bool) (m : Nat) (out : List UInt8) (rest : List Bool), 0 < m →
    Steps ⟨.coded (repeatCodes c) final, bits ++ rest, out ++ List.replicate m c⟩
      ⟨.coded (repeatCodes c) final, rest, out ++ List.replicate (m + n) c⟩

theorem Repeats.nil (c : UInt8) : Repeats c [] 0 := fun _ _ _ _ _ => .refl _

theorem Repeats.append {x y : List Bool} {n k : Nat} (first : Repeats c x n) (second : Repeats c y k) :
    Repeats c (x ++ y) (n + k) := by
  intro final m out rest some_
  rw [List.append_assoc, ← Nat.add_assoc]
  exact (first final m out (y ++ rest) some_).trans (second final (m + n) out rest (Nat.add_pos_left some_ n))

theorem repeats_codeLit (char : c = 0 ∨ c = 255) : Repeats c (lowBits codeLitLength codeLit) 1 := by
  intro final m out rest _
  have more : out ++ List.replicate (m + 1) c = out ++ List.replicate m c ++ [c] := by
    rw [List.append_assoc, ← List.replicate_succ']
  rw [more]
  apply Steps.single
  rw [step]
  dsimp only
  rw [readToken_codeLit char rest, Parse.outcome]

theorem repeats_copy (char : c = 0 ∨ c = 255) {word : List Bool} (code : codeword (repeatCodes c).lit sym = word)
    (some_ : word ≠ []) (length : 256 < sym) (legal : sym < 286) {extra : Nat} (small : extra < 2 ^ lenExtra[sym - 257]?.getD 0) :
    Repeats c (word ++ (lowBits (lenExtra[sym - 257]?.getD 0) extra ++ [false])) (lenStart[sym - 257]?.getD 0 + extra) := by
  intro final m out rest before
  have reach : ¬ (out ++ List.replicate m c).length < 1 := by
    rw [List.length_append, List.length_replicate]
    omega
  rw [← copyMatch_one c _ before out, List.append_assoc, List.append_assoc]
  apply Steps.single
  rw [step]
  dsimp only
  rw [readToken_repeat char code some_ length legal small rest, Parse.outcome]
  exact if_neg reach

theorem repeats_code10 (char : c = 0 ∨ c = 255) : Repeats c (lowBits code10Length code10) 10 :=
  repeats_copy char (repeatCodes_codewords char).2.2.1 (List.cons_ne_nil _ _) (by decide) (by decide) (by decide : 0 < 2 ^ 0)

theorem repeats_code280 (char : c = 0 ∨ c = 255) {k : Nat} (small : k < 16) :
    Repeats c (lowBits code280TotalLength (code280 ||| k <<< code280Length)) (115 + k) := by
  have fields : ∀ k < 16, lowBits code280TotalLength (code280 ||| k <<< code280Length) =
      [true, true, true, true] ++ (lowBits 4 k ++ [false]) := by decide
  rw [fields k small]
  exact repeats_copy char (repeatCodes_codewords char).2.2.2.1 (List.cons_ne_nil _ _) (by decide) (by decide)
    (show k < 2 ^ 4 from small)

theorem repeats_zeros (char : c = 0 ∨ c = 255) (n : Nat) : Repeats c (List.replicate (n * 2) false) (258 * n) := by
  induction n with
  | zero => exact Repeats.nil c
  | succ n ih =>
    have two : Repeats c [false, false] 258 :=
      repeats_copy char (repeatCodes_codewords char).2.2.2.2 (List.cons_ne_nil _ _) (by decide) (by decide) (by decide : 0 < 2 ^ 0)
    rw [Nat.succ_mul, List.replicate_add, Nat.mul_succ]
    exact ih.append two

end

/-- Bits that have been written from index `start` on, in at most 16 bytes of the memory -/
structure Fixup (memory : Arr UInt8) (me : BitBuf2) (start : Nat) (bits : List Bool) : Prop
    extends BitBuf2.Written me start bits where
  kept : ∀ i, i < start ∨ start + 16 ≤ i → me.memory i = memory i

section

variable {memory : Arr UInt8} {me : BitBuf2} {start : Nat} {bits : List Bool} {c : UInt8}

theorem Fixup.writeBits (holds : Fixup memory me start bits) (short : bits.length < 72) {code count : Nat} (small : code < 2 ^ count)
    (few : count ≤ 56) : Fixup memory (me.writeBits code count) start (bits ++ lowBits count code) := by
  refine ⟨holds.toWritten.writeBits code count small few, ?_⟩
  intro i outside
  have ahead := holds.ahead
  have length := holds.count
  have same : (me.writeBits code count).memory i = me.memory i := by
    refine if_neg ?_
    dsimp only
    omega
  rw [same, holds.kept i outside]

/-- Each round writes four bits for ten copies. -/
theorem write10s_fixup (char : c = 0 ∨ c = 255) (repExtra : Nat) (holds : Fixup memory me start bits)
    (short : 5 * bits.length + 2 * repExtra < 380) : ∃ more k, Fixup memory (write10s me repExtra).1 start (bits ++ more) ∧
      Repeats c more (10 * k) ∧ more.length = 4 * k ∧ repExtra = 10 * k + (write10s me repExtra).2 ∧
        (write10s me repExtra).2 < 10 := by
  induction me, repExtra using write10s.induct generalizing bits with
  | case1 me repExtra again ih =>
    have next := holds.writeBits (by omega) (by decide : code10 < 2 ^ code10Length) (by decide)
    obtain ⟨more, k, fixup, repeats, length, sum, low⟩ := ih next (by
      rw [List.length_append, lowBits_length, code10Length]
      omega)
    rw [write10s, if_pos again]
    rw [List.append_assoc] at fixup
    refine ⟨lowBits code10Length code10 ++ more, k + 1, fixup, ?_, ?_, ?_, low⟩
    · rw [Nat.mul_succ, Nat.add_comm]
      exact (repeats_code10 char).append repeats
    · rw [List.length_append, lowBits_length, length, code10Length]
      omega
    · omega
  | case2 me repExtra stop =>
    rw [write10s, if_neg stop]
    refine ⟨[], 0, ?_, Repeats.nil c, rfl, (Nat.zero_add _).symm, by omega⟩
    rw [List.append_nil]
    exact holds

theorem write10sAbove130_fixup (char : c = 0 ∨ c = 255) (repExtra : Nat) (holds : Fixup memory me start bits)
    (short : 5 * bits.length + 2 * repExtra < 600) (high : 115 < repExtra) :
    ∃ more k, Fixup memory (write10sAbove130 me repExtra).1 start (bits ++ more) ∧
      Repeats c more (10 * k) ∧ more.length = 4 * k ∧ repExtra = 10 * k + (write10sAbove130 me repExtra).2 ∧
        115 < (write10sAbove130 me repExtra).2 ∧
          ((write10sAbove130 me repExtra).2 ≤ 130 ∨ 230 ≤ (write10sAbove130 me repExtra).2) := by
  induction me, repExtra using write10sAbove130.induct generalizing bits with
  | case1 me repExtra again ih =>
    have next := holds.writeBits (by omega) (by decide : code10 < 2 ^ code10Length) (by decide)
    obtain ⟨more, k, fixup, repeats, length, sum, stop⟩ := ih next (by
      rw [List.length_append, lowBits_length, code10Length]
      omega) (by omega)
    rw [write10sAbove130, if_pos again]
    rw [List.append_assoc] at fixup
    refine ⟨lowBits code10Length code10 ++ more, k + 1, fixup, ?_, ?_, ?_, stop⟩
    · rw [Nat.mul_succ, Nat.add_comm]
      exact (repeats_code10 char).append repeats
    · rw [List.length_append, lowBits_length, length, code10Length]
      omega
    · omega
  | case2 me repExtra stop =>
    rw [write10sAbove130, if_neg stop]
    refine ⟨[], 0, ?_, Repeats.nil c, rfl, (Nat.zero_add _).symm, high, by omega⟩
    rw [List.append_nil]
    exact holds

theorem writeLits_fixup (char : c = 0 ∨ c = 255) (repExtra : Nat) (holds : Fixup memory me start bits)
    (short : bits.length + 2 * repExtra ≤ 72) : ∃ more, Fixup memory (writeLits me repExtra) start (bits ++ more) ∧
      Repeats c more repExtra ∧ more.length = 2 * repExtra := by
  induction repExtra generalizing me bits with
  | zero =>
    refine ⟨[], ?_, Repeats.nil c, rfl⟩
    rw [List.append_nil]
    exact holds
  | succ repExtra ih =>
    have next := holds.writeBits (by omega) (by decide : codeLit < 2 ^ codeLitLength) (by decide)
    obtain ⟨more, fixup, repeats, length⟩ := ih next (by
      rw [List.length_append, lowBits_length, codeLitLength]
      omega)
    rw [writeLits]
    rw [List.append_assoc] at fixup
    refine ⟨lowBits codeLitLength codeLit ++ more, fixup, ?_, ?_⟩
    · rw [Nat.add_comm]
      exact (repeats_codeLit char).append repeats
    · rw [List.length_append, lowBits_length, length, codeLitLength]
      omega

theorem writeRepExtra_fixup (char : c = 0 ∨ c = 255) {repExtra : Nat} (small : repExtra < 258)
    (holds : Fixup memory me start bits) (short : bits.length < 8) : ∃ more,
      Fixup memory (writeRepExtra me repExtra) start (bits ++ more) ∧ Repeats c more repExtra ∧ more.length ≤ 65 := by
  rw [writeRepExtra]
  by_cases high : 115 < repExtra
  · rw [if_pos high]
    obtain ⟨more, k, fixup, repeats, length, sum, high', stop⟩ := write10sAbove130_fixup char repExtra holds (by omega) high
    generalize write10sAbove130 me repExtra = result at *
    obtain ⟨me', repExtra'⟩ := result
    dsimp only at *
    have fields : ∀ k < 16, code280 ||| k <<< code280Length < 2 ^ code280TotalLength := by decide
    by_cases twice : 230 ≤ repExtra'
    · rw [if_pos twice]
      dsimp only
      have first : repExtra' / 2 - 115 < 16 := by omega
      have second : repExtra' - repExtra' / 2 - 115 < 16 := by omega
      have fixup' := (fixup.writeBits (by rw [List.length_append]; omega) (fields _ first) (by decide)).writeBits
        (by rw [List.length_append, List.length_append, lowBits_length, code280TotalLength, code280Length]; omega)
        (fields _ second) (by decide)
      rw [List.append_assoc, List.append_assoc] at fixup'
      refine ⟨_, fixup', ?_, ?_⟩
      · have total : repExtra = 10 * k + (115 + (repExtra' / 2 - 115) + (115 + (repExtra' - repExtra' / 2 - 115))) := by omega
        rw [total]
        exact repeats.append ((repeats_code280 char first).append (repeats_code280 char second))
      · rw [List.length_append, List.length_append, lowBits_length, lowBits_length, code280TotalLength, code280Length]
        omega
    · rw [if_neg twice]
      dsimp only
      have low : repExtra' - 115 < 16 := by omega
      have fixup' := fixup.writeBits (by rw [List.length_append]; omega) (fields _ low) (by decide)
      rw [List.append_assoc] at fixup'
      refine ⟨_, fixup', ?_, ?_⟩
      · have total : repExtra = 10 * k + (115 + (repExtra' - 115)) := by omega
        rw [total]
        exact repeats.append (repeats_code280 char low)
      · rw [List.length_append, lowBits_length, code280TotalLength, code280Length]
        omega
  · rw [if_neg high]
    obtain ⟨more, k, fixup, repeats, length, sum, low⟩ := write10s_fixup char repExtra holds (by omega)
    generalize write10s me repExtra = result at *
    obtain ⟨me', repExtra'⟩ := result
    dsimp only at *
    obtain ⟨more', fixup', repeats', length'⟩ := writeLits_fixup char repExtra' fixup (by rw [List.length_append]; omega)
    rw [List.append_assoc] at fixup'
    refine ⟨_, fixup', ?_, ?_⟩
    · rw [sum]
      exact repeats.append repeats'
    · rw [List.length_append]
      omega

theorem BitBuf2.Written.split (holds : BitBuf2.Written me start bits) :
    bits = bytesBits (bytesAt me.memory start (me.outBuf - start)) ++ lowBits me.bitCount me.bits := by
  apply bitsVal_inj
  · rw [List.length_append, bytesBits_length, bytesAt_length, lowBits_length, holds.count]
  · rw [bitsVal_append, bitsVal_bytesBits, bytesBits_length, bytesAt_length, bitsVal_lowBits_of_lt holds.bits_lt, holds.value]

theorem bytesBits_zeros (n : Nat) : bytesBits (List.replicate n 0) = List.replicate (8 * n) false := by
  induction n with
  | zero => rfl
  | succ n ih =>
    have first : byteBits 0 = List.replicate 8 false := by decide
    rw [List.replicate_succ, bytesBits_cons, ih, first, List.replicate_append_replicate, Nat.mul_succ, Nat.add_comm]

theorem repeatHeader_length (char : c = 0 ∨ c = 255) (last : Bool) : (repeatHeader c last).length = headerLength := by
  rcases char with rfl | rfl <;> cases last <;> decide

/-- The parts of the block one after the other -/
theorem repeated_steps (char : c = 0 ∨ c = 255) (last : Bool) {n : Nat} (some_ : 0 < n) {more : List Bool}
    (repeats : Repeats c more ((n - 1) % 258)) (out : List UInt8) {rest : List Bool}
    (bytes : 8 ∣ (List.replicate ((n - 1) / 258 * 2) false ++ (more ++ (lowBits endOfBlockLen endOfBlockCode ++ rest))).length) :
    Steps ⟨.header, bytesBits (repeatHeader c last) ++ (List.replicate ((n - 1) / 258 * 2) false ++
      (more ++ (lowBits endOfBlockLen endOfBlockCode ++ rest))), out⟩ ⟨boundary last, rest, out ++ List.replicate n c⟩ := by
  have header := reader_readBlock.ok bytes (readBlock_repeatHeader char last)
  have split := Nat.div_add_mod (n - 1) 258
  have total : 1 + (258 * ((n - 1) / 258) + (n - 1) % 258) = n := by omega
  refine Steps.head (t := ⟨.coded (repeatCodes c) last, lowBits codeLitLength codeLit ++ (List.replicate ((n - 1) / 258 * 2) false ++
    (more ++ (lowBits endOfBlockLen endOfBlockCode ++ rest))), out⟩) ?_ ?_
  · rw [step]
    dsimp only
    rw [header, Parse.outcome]
  refine Steps.head (t := ⟨.coded (repeatCodes c) last, List.replicate ((n - 1) / 258 * 2) false ++
    (more ++ (lowBits endOfBlockLen endOfBlockCode ++ rest)), out ++ List.replicate 1 c⟩) ?_ ?_
  · rw [step]
    dsimp only
    rw [readToken_codeLit char, Parse.outcome]
    rfl
  have copies := (repeats_zeros char ((n - 1) / 258)).append repeats
  have run := copies last 1 out (lowBits endOfBlockLen endOfBlockCode ++ rest) Nat.one_pos
  rw [List.append_assoc, total] at run
  refine run.trans (Steps.single ?_)
  rw [step]
  dsimp only
  rw [readToken_endOfBlock char, Parse.outcome]

/-- The bits after the zeros go out up to the last whole byte. -/
theorem fixups_written (s : Zstream) (char : c = 0 ∨ c = 255) {repExtra : Nat} (small : repExtra < 258) {k : Nat} (few : k ≤ 6)
    (room : 16 ≤ s.availOut) {t : Zstream} (result : s.setBitbuf ((writeRepExtra { s.bitbuf with bits := 0, bitCount := k }
      repExtra).writeBits endOfBlockCode endOfBlockLen) = t) : ∃ bytes more, Appends s.toOutStream t.toOutStream bytes ∧
        Repeats c more repExtra ∧ bytesBits bytes ++ lowBits t.bitCount t.bits =
          List.replicate k false ++ (more ++ lowBits endOfBlockLen endOfBlockCode) := by
  have zeros : Fixup s.memory { s.bitbuf with bits := 0, bitCount := k } s.nextOut (List.replicate k false) := by
    refine ⟨⟨rfl, Nat.le_refl _, ?_, ?_, ?_⟩, fun _ _ => rfl⟩
    · rw [List.length_replicate]
      dsimp only [Zstream.bitbuf]
      omega
    · exact Nat.lt_of_le_of_lt few (by decide)
    · dsimp only [Zstream.bitbuf]
      rw [bitsVal_zeros, Nat.sub_self, Nat.mul_zero]
      rfl
  obtain ⟨more, fixup, repeats, length⟩ := writeRepExtra_fixup char small zeros (by rw [List.length_replicate]; omega)
  have done := fixup.writeBits (by rw [List.length_append, List.length_replicate]; omega)
    (by decide : endOfBlockCode < 2 ^ endOfBlockLen) (by decide)
  generalize (writeRepExtra { s.bitbuf with bits := 0, bitCount := k } repExtra).writeBits endOfBlockCode endOfBlockLen = me at *
  have count := done.count
  have ahead := done.ahead
  have kept := done.kept
  have origin := done.origin
  rw [List.length_append, List.length_append, List.length_replicate, lowBits_length, endOfBlockLen] at count
  subst result
  refine ⟨bytesAt me.memory s.nextOut (me.outBuf - s.nextOut), more, ⟨?_, ?_, ?_, ?_, ?_⟩, repeats, ?_⟩
  · rw [bytesAt_length]
    dsimp only [Zstream.setBitbuf]
    omega
  · rw [bytesAt_length]
    dsimp only [Zstream.setBitbuf]
    omega
  · intro i before
    exact kept i (.inl before)
  · intro i after
    exact kept i (.inr (by omega))
  · rw [bytesAt_length]
    rfl
  · rw [← List.append_assoc, done.toWritten.split]
    rfl

/-- A run of `n` characters is written as one block, if there is room for its longest form. -/
theorem writeConstantCompressedStateless_spec (s : Zstream) (char : c = 0 ∨ c = 255) (first : s.input s.nextIn = c) {n : Nat}
    (some_ : 0 < n) {last : Bool} (isLast : last = decide (s.availIn = n ∧ 0 < s.endOfStream))
    (room : headerLength + maxFixupCodeLength + (n - 1) / 258 * 2 / 8 + 8 ≤ s.availOut) {t : Zstream}
    (result : writeConstantCompressedStateless s n = t) :
    (∃ bytes, Appends s.toOutStream t.toOutStream bytes ∧ ∀ out rest, 8 ∣ t.bitCount + rest.length →
      Steps ⟨.header, bytesBits bytes ++ (lowBits t.bitCount t.bits ++ rest), out⟩ ⟨boundary last, rest, out ++ List.replicate n c⟩) ∧
      t.state = (if last then .trl else .newHdr) ∧ t.nextIn = s.nextIn + n ∧ t.availIn = s.availIn - n ∧
        t.totalIn = (s.totalIn + n) % 2 ^ 32 ∧ t.blockEnd = (s.blockEnd + n) % 2 ^ 32 := by
  rw [headerLength, maxFixupCodeLength] at room
  have length := repeatHeader_length char last
  rw [headerLength] at length
  -- the stream with its header and the bytes of zeros
  obtain ⟨s', isS'⟩ : ∃ s' : Zstream, s' = (if s.availIn = n ∧ 0 < s.endOfStream then
      { s with hasEobHdr := 1, hasEob := 1, state := .trl } else { s with state := .newHdr }) := ⟨_, rfl⟩
  have out : s'.toOutStream = s.toOutStream := by
    rw [isS']
    split <;> rfl
  obtain ⟨nextIn, availIn, totalIn, blockEnd⟩ : s'.nextIn = s.nextIn ∧ s'.availIn = s.availIn ∧ s'.totalIn = s.totalIn ∧
      s'.blockEnd = s.blockEnd := by
    rw [isS']
    split <;> exact ⟨rfl, rfl, rfl, rfl⟩
  have header : (if s.availIn = n ∧ 0 < s.endOfStream then
      ((repeatedCharHeader (c.toNat &&& 1)).flatMap (toLeBytes · 4)).modifyHead (· ||| 1)
        else (repeatedCharHeader (c.toNat &&& 1)).flatMap (toLeBytes · 4)) = repeatHeader c last := by
    rw [isLast, repeatHeader]
    by_cases final : s.availIn = n ∧ 0 < s.endOfStream
    · rw [if_pos final, decide_eq_true final]
      rfl
    · rw [if_neg final, decide_eq_false final]
      rfl
  have unfolded : t = { (s'.put (repeatHeader c last ++ List.replicate ((n - 1) / 258 * 2 / 8) 0)).setBitbuf
      ((writeRepExtra { (s'.put (repeatHeader c last ++ List.replicate ((n - 1) / 258 * 2 / 8) 0)).bitbuf with
        bits := 0, bitCount := (n - 1) / 258 * 2 % 8 } ((n - 1) % 258)).writeBits endOfBlockCode endOfBlockLen) with
      nextIn := s'.nextIn + n
      availIn := s'.availIn - n
      totalIn := (s'.totalIn + n) % 2 ^ 32
      blockEnd := (s'.blockEnd + n) % 2 ^ 32 } := by
    rw [← result, writeConstantCompressedStateless]
    dsimp only
    rw [headerLength, maxFixupCodeLength, if_neg (by omega), first, ← isS', header]
    rfl
  obtain ⟨u, isU⟩ : ∃ u, u = s'.put (repeatHeader c last ++ List.replicate ((n - 1) / 258 * 2 / 8) 0) := ⟨_, rfl⟩
  have front : Appends s.toOutStream u.toOutStream (repeatHeader c last ++ List.replicate ((n - 1) / 258 * 2 / 8) 0) := by
    rw [isU, ← out]
    refine put_appends s'.toOutStream _ ?_
    rw [out, List.length_append, length, List.length_replicate]
    omega
  have left := front.availOut
  rw [List.length_append, length, List.length_replicate] at left
  rw [← isU] at unfolded
  obtain ⟨v, isV⟩ : ∃ v, u.setBitbuf ((writeRepExtra { u.bitbuf with bits := 0, bitCount := (n - 1) / 258 * 2 % 8 }
    ((n - 1) % 258)).writeBits endOfBlockCode endOfBlockLen) = v := ⟨_, rfl⟩
  obtain ⟨bytes, more, appended, repeats, bits⟩ := fixups_written u char (Nat.mod_lt (n - 1) (by decide : 258 > 0))
    (by omega : (n - 1) / 258 * 2 % 8 ≤ 6) (by omega) isV
  have state : v.state = u.state := by
    rw [← isV]
    rfl
  rw [isV] at unfolded
  have waiting : lowBits t.bitCount t.bits = lowBits v.bitCount v.bits := by
    rw [unfolded]
  rw [← waiting] at bits
  refine ⟨⟨repeatHeader c last ++ List.replicate ((n - 1) / 258 * 2 / 8) 0 ++ bytes, ?_, ?_⟩, ?_, ?_, ?_, ?_, ?_⟩
  · rw [unfolded]
    exact front.trans appended
  · intro produced rest aligned
    have zeros : List.replicate ((n - 1) / 258 * 2) false =
        List.replicate (8 * ((n - 1) / 258 * 2 / 8)) false ++ List.replicate ((n - 1) / 258 * 2 % 8) false := by
      rw [List.replicate_append_replicate, Nat.div_add_mod]
    have whole : bytesBits (repeatHeader c last ++ List.replicate ((n - 1) / 258 * 2 / 8) 0 ++ bytes) ++
        (lowBits t.bitCount t.bits ++ rest) = bytesBits (repeatHeader c last) ++ (List.replicate ((n - 1) / 258 * 2) false ++
          (more ++ (lowBits endOfBlockLen endOfBlockCode ++ rest))) := by
      have behind : bytesBits bytes ++ (lowBits t.bitCount t.bits ++ rest) = List.replicate ((n - 1) / 258 * 2 % 8) false ++
          (more ++ (lowBits endOfBlockLen endOfBlockCode ++ rest)) := by
        rw [← List.append_assoc, bits, List.append_assoc, List.append_assoc]
      rw [bytesBits_append, bytesBits_append, List.append_assoc, List.append_assoc, behind, bytesBits_zeros, zeros,
        List.append_assoc]
    have aligned' : 8 ∣ (List.replicate ((n - 1) / 258 * 2) false ++
        (more ++ (lowBits endOfBlockLen endOfBlockCode ++ rest))).length := by
      have after : ∀ ext : List Bool, (bytesBits (repeatHeader c last) ++ ext).length = 8 * 16 + ext.length := by
        intro ext
        rw [List.length_append, bytesBits_length, length]
      have tail : (lowBits t.bitCount t.bits ++ rest).length = t.bitCount + rest.length := by
        rw [List.length_append, lowBits_length]
      have total := congrArg List.length whole
      rw [after, List.length_append, bytesBits_length, tail] at total
      omega
    rw [whole]
    exact repeated_steps char last some_ repeats produced aligned'
  · rw [unfolded]
    change v.state = _
    rw [state, isU]
    change s'.state = _
    rw [isS', isLast]
    by_cases final : s.availIn = n ∧ 0 < s.endOfStream
    · rw [if_pos final, decide_eq_true final]
      rfl
    · rw [if_neg final, decide_eq_false final]
      rfl
  · rw [unfolded, ← nextIn]
  · rw [unfolded, ← availIn]
  · rw [unfolded, ← totalIn]
  · rw [unfolded, ← blockEnd]

theorem repeatedWords_spec {input : Arr UInt8} {start length w p : Nat} (word : ∀ i < 8, input (start + i) = c)
    (isWord : w = bytesVal (bytesAt input start 8)) (before : ∀ i < p, input (start + i) = c) (inside : p ≤ length) :
    p ≤ repeatedWords input start length w p ∧ repeatedWords input start length w p ≤ length ∧
      ∀ i < repeatedWords input start length w p, input (start + i) = c := by
  induction p using repeatedWords.induct input start length w with
  | case1 p again ih =>
    have same := bytesAt_inj (isWord ▸ again.2)
    have next : ∀ i < p + 8, input (start + i) = c := by
      intro i below
      by_cases old : i < p
      · exact before i old
      · have byte := same (i - p) (by omega)
        rw [word _ (by omega), Nat.add_assoc, Nat.add_sub_cancel' (by omega)] at byte
        exact byte.symm
    obtain ⟨more, most, all⟩ := ih next again.1
    rw [repeatedWords, if_pos again]
    exact ⟨by omega, most, all⟩
  | case2 p stop =>
    rw [repeatedWords, if_neg stop]
    exact ⟨Nat.le_refl _, inside, before⟩

theorem repeatedBytes_spec {input : Arr UInt8} {start length p : Nat} (before : ∀ i < p, input (start + i) = c)
    (inside : p ≤ length) : p ≤ repeatedBytes input start length c p ∧ repeatedBytes input start length c p ≤ length ∧
      (∀ i < repeatedBytes input start length c p, input (start + i) = c) ∧
        (repeatedBytes input start length c p < length → input (start + repeatedBytes input start length c p) ≠ c) := by
  induction p using repeatedBytes.induct input start length c with
  | case1 p again ih =>
    have next : ∀ i < p + 1, input (start + i) = c := by
      intro i below
      by_cases old : i < p
      · exact before i old
      · rw [show i = p by omega]
        exact again.2.symm
    obtain ⟨more, most, all, last⟩ := ih next again.1
    rw [repeatedBytes, if_pos again]
    exact ⟨by omega, most, all, last⟩
  | case2 p stop =>
    rw [repeatedBytes, if_neg stop]
    exact ⟨Nat.le_refl _, inside, before, fun short same => stop ⟨short, same.symm⟩⟩

/-- The length is that of the whole run, if its first eight characters are equal. -/
theorem detectRepeatedCharLength_spec {input : Arr UInt8} {start length : Nat} (word : ∀ i < 8, input (start + i) = c)
    (long : 8 ≤ length) : 8 ≤ detectRepeatedCharLength input start length ∧ detectRepeatedCharLength input start length ≤ length ∧
      (∀ i < detectRepeatedCharLength input start length, input (start + i) = c) ∧
        (detectRepeatedCharLength input start length < length →
          input (start + detectRepeatedCharLength input start length) ≠ c) := by
  have first : UInt8.ofNat (bytesVal (bytesAt input start 8)) = c := by
    apply UInt8.toNat_inj.mp
    rw [UInt8.toNat_ofNat', bytesAt_add input start 1 7, bytesVal_append]
    have byte : bytesAt input start 1 = [c] := by
      rw [← word 0 (by decide)]
      rfl
    have low := c.toNat_lt
    rw [byte, bytesVal_cons, bytesVal_nil, List.length_singleton]
    omega
  obtain ⟨-, most, all⟩ := repeatedWords_spec (p := 0) word rfl (fun i below => absurd below (Nat.not_lt_zero i)) (Nat.zero_le length)
  have eight : 8 ≤ repeatedWords input start length (bytesVal (bytesAt input start 8)) 0 := by
    rw [repeatedWords, if_pos ⟨by omega, rfl⟩]
    exact (repeatedWords_spec (p := 0 + 8) word rfl (by simpa using word) (by omega)).1
  obtain ⟨more, most', all', last⟩ := repeatedBytes_spec all most
  rw [detectRepeatedCharLength, first]
  exact ⟨Nat.le_trans eight more, most', all', last⟩

/-- The run of 0x00 or 0xFF that the input starts with becomes one deflate block if there is room, which does
not leave the output, and the input goes on behind the run. -/
theorem writeConstantCompressedStateless_block (s : Zstream) (char : c = 0 ∨ c = 255) (long : 8 ≤ s.availIn)
    (run : ∀ i < 8, s.input (s.nextIn + i) = c) : ∃ n, n = detectRepeatedCharLength s.input s.nextIn s.availIn ∧
      (8 ≤ n ∧ n ≤ s.availIn ∧ (∀ i < n, s.input (s.nextIn + i) = c) ∧ (n < s.availIn → s.input (s.nextIn + n) ≠ c)) ∧
      ∃ t, writeConstantCompressedStateless s n = t ∧
        (s.availOut < headerLength + maxFixupCodeLength + (n - 1) / 258 * 2 / 8 + 8 → t = s) ∧
        (headerLength + maxFixupCodeLength + (n - 1) / 258 * 2 / 8 + 8 ≤ s.availOut →
          (∃ bytes, Appends s.toOutStream t.toOutStream bytes ∧ ∀ out rest, 8 ∣ t.bitCount + rest.length →
            Steps ⟨.header, bytesBits bytes ++ (lowBits t.bitCount t.bits ++ rest), out⟩
              ⟨boundary (s.availIn = n ∧ 0 < s.endOfStream), rest, out ++ List.replicate n c⟩) ∧
          t.state = (if s.availIn = n ∧ 0 < s.endOfStream then .trl else .newHdr) ∧ t.nextIn = s.nextIn + n ∧
            t.availIn = s.availIn - n ∧ t.totalIn = (s.totalIn + n) % 2 ^ 32 ∧ t.blockEnd = (s.blockEnd + n) % 2 ^ 32) := by
  obtain ⟨least, most, all, last⟩ := detectRepeatedCharLength_spec run long
  refine ⟨_, rfl, ⟨least, most, all, last⟩, _, rfl, ?_, ?_⟩
  · intro short
    rw [writeConstantCompressedStateless]
    exact if_pos short
  · intro room
    have first := all 0 (by omega)
    obtain ⟨block, state, rest⟩ := writeConstantCompressedStateless_spec s char first (by omega) rfl room rfl
    refine ⟨block, ?_, rest⟩
    rw [state]
    simp only [decide_eq_true_eq]

/-- Nine characters at the end of the input -/
theorem writeConstantCompressedStateless_block_nine : ∃ t bytes, writeConstantCompressedStateless
    { oneByteBlock with availOut := 32, input := .const 255, availIn := 9 } 9 = t ∧ bytes.length ≤ 32 ∧
      ∀ out rest, 8 ∣ t.bitCount + rest.length → Steps ⟨.header, bytesBits bytes ++ (lowBits t.bitCount t.bits ++ rest), out⟩
        ⟨.done, rest, out ++ List.replicate 9 255⟩ := by
  obtain ⟨n, detected, ⟨least, most, -, last⟩, t, result, -, block⟩ := writeConstantCompressedStateless_block
    { oneByteBlock with availOut := 32, input := .const 255, availIn := 9 } (c := 255) (.inr rfl) (by decide) (fun _ _ => rfl)
  have nine : n = 9 := by
    by_contra other
    exact last (Nat.lt_of_le_of_ne most other) rfl
  subst nine
  obtain ⟨⟨bytes, appended, steps⟩, -⟩ := block (by decide)
  refine ⟨t, bytes, result, ?_, steps⟩
  have room := appended.availOut
  have whole : 32 = t.availOut + bytes.length := room
  omega

end
end Isal.Deflate
