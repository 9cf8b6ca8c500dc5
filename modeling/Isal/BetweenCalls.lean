import Isal.StreamHistory

/-! The buffers of a raw stream between two calls. -/
namespace Isal.Inflate

open Isal.Bits Isal.PrefixCode Isal.Rfc1951

variable {s : InflateState} {dict : List UInt8} {chunks : List (List UInt8)} {c : Session}

end Isal.Inflate
