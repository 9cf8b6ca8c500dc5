import Isal.GzipParsing

/-! The gzip header that `isal_write_gzip_header` puts in front of the compressed data. -/
namespace Isal.Deflate
open Inflate Bits Checksum Rfc1952

def hcrcFlag : Nat := 2
def extraFlag : Nat := 4
def nameFlag : Nat := 8
def commentFlag : Nat := 16

/-- The output of a stream and the memory it goes to -/
structure OutStream where
  memory : Arr UInt8
  nextOut : Nat
  availOut : Nat
  totalOut : Nat

/-- What `memcpy` takes from a buffer, if there is one -/
def copied (buf : Option (Arr UInt8)) (len : Nat) : List UInt8 := buf.elim [] fun b => (List.range len).map b

/-- Bytes at `next_out` -/
def OutStream.put (s : OutStream) (bytes : List UInt8) : OutStream where
  memory := storeBytes s.memory s.nextOut bytes
  nextOut := s.nextOut + bytes.length
  availOut := s.availOut - bytes.length
  totalOut := (s.totalOut + bytes.length) % 2 ^ 32

section

variable {stream : OutStream} {gzHdr : GzipHeader}

end
end Isal.Deflate
