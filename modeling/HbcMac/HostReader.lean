import HbcMac.Delivery
import HbcMac.Lib.Decoder

/-!
# What the host makes of the bytes

The messages of the forwarder say themselves where they end: the announcement carries the length,
and every message has its padding. A host that takes them apart as the bytes come in gets the
payloads the other host has queued.
-/

namespace HbcMac

open LittleEndian

section
variable [HostProtocol]

/-! ## Taking the messages apart -/

end

/-! ## From host to host -/

section
variable [Dram] [HostProtocol] {base : Word} {log₀ : List (Word × Word)} {ps : List (List Byte)}
  {out₀ rest : List Byte} {l : Link}

/-- What the host of the receiver has read since the beginning. -/
def Link.read (l l' : Link) : List Byte :=
  (dataBytes l'.receiver.fw.dev.out).drop (dataBytes l.receiver.fw.dev.out).length

end

/-! ## The payload of four bytes -/

end HbcMac
