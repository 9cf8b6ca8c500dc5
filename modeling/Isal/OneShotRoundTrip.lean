import Isal.OneShotCalls
import Isal.WritableTables
import Isal.TrailerSessions

/-! From the compressor through the decompressor, for the tables that are made of any histogram. -/
namespace Isal.Deflate
open Inflate Bits Checksum HuffCodes Rfc1951

variable {b : HashBuild} {h : Hufftables} {s t : StatelessStream} {bytes data more : List UInt8}

/-- Final blocks are decoded whatever is behind them. -/
theorem Decodes.decode (h : Decodes bytes true data) (more : List UInt8) : ∃ u, Rfc1951.decode (bytes ++ more) = (.finished, u) ∧
    u.out = data ∧ behind (bytes ++ more) u = more := by
  obtain ⟨pad, short, -, steps⟩ := h
  have run := steps [] (bytesBits more) (by simp)
  rw [← bytesBits_append] at run
  refine ⟨_, decode_finished run rfl, rfl, ?_⟩
  have rest : (pad ++ bytesBits more).length / 8 = more.length := by
    rw [List.length_append, bytesBits_length]
    omega
  rw [behind, rest, List.length_append, Nat.add_sub_cancel, List.drop_left]

/-- What a call has put out -/
def StatelessStream.outputSince (s t : StatelessStream) : List UInt8 := bytesAt t.memory s.nextOut (t.nextOut - s.nextOut)

theorem Appends.output (appends : Appends s.toOutStream t.toOutStream bytes) : s.outputSince t = bytes := by
  have size := appends.nextOut
  have length : t.nextOut - s.nextOut = bytes.length := by omega
  rw [StatelessStream.outputSince, length]
  exact appends.written

theorem Callable.result (callable : Callable b h s) {head : Arr Nat} {otherLevels : StatelessStream → CompRet × StatelessStream}
    (run : isalDeflateStateless (compressStateless b h head otherLevels) s = some (.compOk, t)) : Lossless s t := by
  obtain ⟨ret, t', run', -, lossless⟩ := callable.lossless head otherLevels
  rw [run, Option.some.injEq, Prod.mk.injEq] at run'
  obtain ⟨rfl, rfl⟩ := run'
  exact lossless rfl

section

variable {litLenHistogram distHistogram codeLenCount : Arr Nat} {locals : BothCodes} {r : Nat} {head : Arr Nat}
  {otherLevels : StatelessStream → CompRet × StatelessStream}

/-- The format of a stream, and that of its part behind the header for the decompressor -/
inductive Format : Nat → CrcFlag → Prop where
  | gzip : Format gzip .gzipNoHdrVer
  | gzipNoHdr : Format gzipNoHdr .gzipNoHdrVer
  | zlib : Format zlib .zlibNoHdrVer
  | zlibNoHdr : Format zlibNoHdr .zlibNoHdrVer

variable {flag : CrcFlag} {gzipFlag : Nat}

theorem Format.trailer (format : Format gzipFlag flag) (data : List UInt8) :
    flag.Verified ∧ trailerFor gzipFlag data data.length = flag.trailer data ∧ (flag.trailer data).length = flag.trailerSize := by
  cases format
  · exact ⟨.gzip, rfl, rfl⟩
  · exact ⟨.gzip, rfl, rfl⟩
  · exact ⟨.zlib, rfl, rfl⟩
  · exact ⟨.zlib, rfl, rfl⟩

end

section

variable {data' : List UInt8} {final : Bool} {head : Arr Nat} {otherLevels : StatelessStream → CompRet × StatelessStream}

/-- Blocks of which none is the final one can be followed by others. -/
theorem Decodes.append (first : Decodes bytes false data) (second : Decodes more final data') :
    Decodes (bytes ++ more) final (data ++ data') := by
  obtain ⟨pad, -, none_, steps⟩ := first
  obtain ⟨pad', short, none', steps'⟩ := second
  obtain rfl : pad = [] := none_ rfl
  refine ⟨pad', short, none', fun dict rest aligned => ?_⟩
  have here := steps dict (bytesBits more ++ rest) (by simp; omega)
  have there := steps' (dict ++ data) rest aligned
  rw [bytesBits_append, List.append_assoc, ← List.append_assoc dict]
  exact here.trans there

/-- A call without a wrapper that is content with what it has put out -/
structure RawCall (b : HashBuild) (h : Hufftables) (s t : StatelessStream) : Prop where
  callable : Callable b h s
  raw : s.gzipFlag = 0
  run : ∃ head otherLevels, isalDeflateStateless (compressStateless b h head otherLevels) s = some (.compOk, t)

def StatelessStream.given (s : StatelessStream) : List UInt8 := bytesAt s.input s.nextIn s.availIn

theorem RawCall.decodes (call : RawCall b h s t) : Decodes (s.outputSince t) (decide ((statelessStart s).endOfStream ≠ 0)) s.given := by
  obtain ⟨head, otherLevels, run⟩ := call.run
  obtain ⟨bytes, appends, decodes⟩ := call.callable.result run
  have header : fallbackHeader s = [] := if_neg (by simp [call.raw, gzip, zlib])
  have trailer : callTrailer (statelessStart s) = [] := by
    have flag : (statelessStart s).gzipFlag = 0 := call.raw
    simp [callTrailer, trailerFor, flag, gzip, gzipNoHdr, zlib, zlibNoHdr]
  rw [header, trailer, List.nil_append, List.append_nil] at appends
  rwa [appends.output]

end

end Isal.Deflate
