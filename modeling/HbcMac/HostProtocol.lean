import HbcMac.Hardware

/-!
# `host_protocol.h`

The header itself is not part of the sources. The frame layout is fixed here, the byte
codes are parameters; a `switch` compiles only when its labels differ.
-/

namespace HbcMac

/-- A command packet behind its header byte: command, argument and checksum. -/
def packetSize : ℕ := 6
/-- Where the command byte is. -/
def packetCmdOffset : ℕ := 0
/-- Where the argument begins, its highest byte first. -/
def packetArgOffset : ℕ := 1
/-- The bytes of a reply frame. -/
def replySize : ℕ := 4
/-- The bytes of a header on the air. -/
def hbcHeaderSize : ℕ := 4

/-- The commands of `ctrl_cmd`. -/
inductive Cmd
  | irqStatusRead | scramblerRead
  | memRead | memRdAddr | memWrAddr | memDump | memLoad | memTest
  | flashRead | flashWriteAddr | flashWrite
  | psocFlash
  | hbcTxTrigger | hbcTxSpreadFactor | hbcTxScramblerSeed | hbcTxAuto | hbcTxAddr
  | hbcTxPacket | hbcTxLoopback | hbcTxFilter | hbcTxFlood
  | hbcRxReady | hbcRxLength | hbcRxBytesRead | hbcRxCrcOk | hbcRxRead | hbcRxNext
  | hbcRxCheck | hbcRxAuto | hbcRxGetRdAddr | hbcRxGetWrAddr | hbcRxFlood
  deriving DecidableEq

namespace Cmd

/-- The labels in the order of the `switch`. -/
def all : List Cmd :=
  [irqStatusRead, scramblerRead, memRead, memRdAddr, memWrAddr, memDump, memLoad, memTest,
    flashRead, flashWriteAddr, flashWrite, psocFlash, hbcTxTrigger, hbcTxSpreadFactor,
    hbcTxScramblerSeed, hbcTxAuto, hbcTxAddr, hbcTxPacket, hbcTxLoopback, hbcTxFilter,
    hbcTxFlood, hbcRxReady, hbcRxLength, hbcRxBytesRead, hbcRxCrcOk, hbcRxRead, hbcRxNext,
    hbcRxCheck, hbcRxAuto, hbcRxGetRdAddr, hbcRxGetWrAddr, hbcRxFlood]

/-- No label is left out. -/
theorem mem_all (c : Cmd) : c ∈ all := by cases c <;> decide

/-- The commands whose payload follows on the control port. -/
def loads : Cmd → Bool
  | memLoad | hbcTxPacket => true
  | _ => false

end Cmd

/-- The parts of the header the sources use but do not define. -/
class HostProtocol where
  packetHeader : Byte
  code : Cmd → Byte
  code_injective : Function.Injective code
  rxPacket : Byte
  hbcAck : Word
  psocAck : Word
  noAck : Word
  hbcAck_ne_noAck : hbcAck ≠ noAck
  psocAck_ne_noAck : psocAck ≠ noAck

/-- A protocol whose command bytes are the places in the `switch`. -/
@[reducible]
def plainProtocol : HostProtocol where
  packetHeader := 0xAA
  code c := BitVec.ofNat 8 (Cmd.all.idxOf c)
  code_injective := by
    have hall : ∀ c ∈ Cmd.all, ∀ d ∈ Cmd.all,
        BitVec.ofNat 8 (Cmd.all.idxOf c) = BitVec.ofNat 8 (Cmd.all.idxOf d) → c = d := by decide
    exact fun c d h => hall c (Cmd.mem_all c) d (Cmd.mem_all d) h
  rxPacket := 0x80
  hbcAck := 0x01
  psocAck := 0x02
  noAck := 0x00
  hbcAck_ne_noAck := by decide
  psocAck_ne_noAck := by decide

variable [HostProtocol]

/-- The `case` a command byte selects, `none` for `default`. -/
def decodeCmd (b : Byte) : Option Cmd := Cmd.all.find? fun c => HostProtocol.code c = b

/-- Each label has a byte of its own. -/
theorem decodeCmd_eq_some {b : Byte} {c : Cmd} :
    decodeCmd b = some c ↔ HostProtocol.code c = b := by
  constructor
  · intro h
    simpa using List.find?_some h
  · intro h
    obtain ⟨d, hd⟩ : ∃ d, decodeCmd b = some d :=
      Option.isSome_iff_exists.mp (List.find?_isSome.mpr ⟨c, Cmd.mem_all c, by simpa using h⟩)
    have hcode : HostProtocol.code d = b := by simpa using List.find?_some hd
    rw [hd, HostProtocol.code_injective (hcode.trans h.symm)]

/-- The byte of a label selects its `case`. -/
@[simp] theorem decodeCmd_code (c : Cmd) : decodeCmd (HostProtocol.code c) = some c :=
  decodeCmd_eq_some.mpr rfl

end HbcMac
