import HbcMac.ExtractRx
import HbcMac.HostProtocol

/-!
# `spi.c`

The data port sends one byte per interrupt, an acknowledge first, then a reply, then a
dump. The control port hands its bytes to the loader while a load is going on and to the
command parser otherwise.
-/

namespace HbcMac

section
variable [Board]

/-! ## Ports -/

/-- `hbc_data_write`. -/
def hbcDataWrite (data : Byte) (s : State) : State := s.emit (.data data)

/-- `data_req_next`: the host is told of a byte at the data port. -/
def dataReqNext (s : State) : State := s.pulse .hbcDataInt

/-- `ctrl_req_next`: the host may send the next byte. -/
def ctrlReqNext (s : State) : State := s.pulse .hbcCtrlInt

/-! ## Registers -/

/-- `hbc_spi_ack` registers an acknowledge over whatever is left of another. -/
def hbcSpiAck (ackCmd : Word) (s : State) : State :=
  { s with
    spi.ackBytes := replySize
    spi.ackData := ackCmd }

/-- `hbc_spi_reply` registers a reply. -/
def hbcSpiReply (data : Word) (size : ℕ) (s : State) : State :=
  { s with
    spi.replyBytes := size
    spi.replySize := size
    spi.replyData := data }

/-- `hbc_spi_dump_addr`. -/
def hbcSpiDumpAddr (addr : Word) (s : State) : State := { s with spi.dumpAddr := addr }

/-- `hbc_spi_load_addr`. -/
def hbcSpiLoadAddr (addr : Word) (s : State) : State := { s with spi.loadAddr := addr }

/-- `hbc_spi_dump_bytes` registers a dump, from the memory or from the receiver. -/
def hbcSpiDumpBytes (bytes : ℕ) (fromRx : Bool) (s : State) : State :=
  { s with
    spi.dumpIndex := 0
    spi.dumpHbcRx := fromRx
    spi.dumpingMem := bytes }

/-- `hbc_spi_load_bytes` starts a load; one for the transmitter begins with its length. -/
def hbcSpiLoadBytes (bytes : Word) (forTx : Bool) (s : State) : State :=
  let s := { s with
    spi.loadIndex := 0
    spi.loadingMem := bytes.toNat }
  if forTx then
    let s := memSetWrP s.spi.loadAddr s
    let s := { s with spi.loadAddr := s.spi.loadAddr + 4 }
    memWrite bytes s
  else s

/-- `hbc_spi_load_busy`. -/
def hbcSpiLoadBusy (s : State) : Bool := s.spi.loadingMem ≠ 0

/-- `hbc_spi_dump_busy`. -/
def hbcSpiDumpBusy (s : State) : Bool := s.spi.dumpingMem ≠ 0

/-! ## Data interrupt -/

/-- The acknowledge branch of `hbc_data_irq`. -/
def dataAck (s : State) : State :=
  let s := hbcDataWrite (LittleEndian.byteAt s.spi.ackData (replySize - s.spi.ackBytes)) s
  dataReqNext { s with spi.ackBytes := s.spi.ackBytes - 1 }

/-- The reply branch. -/
def dataReply (s : State) : State :=
  let s := hbcDataWrite
    (LittleEndian.byteAt s.spi.replyData (s.spi.replySize - s.spi.replyBytes)) s
  dataReqNext { s with spi.replyBytes := s.spi.replyBytes - 1 }

/-- The word a dump takes its next four bytes from, fetched at the first of them. -/
def dumpFetch (s : State) : State :=
  if s.spi.dumpIndex = 0 then
    let r := if s.spi.dumpHbcRx then rxRead s else memRead (memSetRdP s.spi.dumpAddr s)
    { r.2 with spi.wrData := r.1 }
  else s

/-- The end of the dump branch: the next word after four bytes. -/
def dumpStep (s : State) : State :=
  if s.spi.dumpIndex = 4 then
    { s with
      spi.dumpAddr := s.spi.dumpAddr + 4
      spi.dumpIndex := 0 }
  else s

/-- The dump branch. -/
def dataDump (s : State) : State :=
  let s := dumpFetch s
  let s := hbcDataWrite (LittleEndian.byteAt s.spi.wrData s.spi.dumpIndex) s
  let s := { s with
    spi.dumpIndex := s.spi.dumpIndex + 1
    spi.dumpingMem := s.spi.dumpingMem - 1 }
  dumpStep (dataReqNext s)

/-- `hbc_data_irq`: at most one byte is written. -/
def hbcDataIrq (s : State) : State :=
  if s.spi.ackBytes ≠ 0 then dataAck s
  else if s.spi.replyBytes ≠ 0 then dataReply s
  else if s.spi.dumpingMem ≠ 0 then dataDump s
  else s

/-- `hbc_spi_data_trigger`, which calls the handler whether or not the port is free. -/
def hbcSpiDataTrigger (s : State) : State := hbcDataIrq s

/-! ## Control interrupt -/

/-- The load branch of `hbc_ctrl_irq`: a word goes to memory with its fourth byte. -/
def loadByte (byte : Byte) (s : State) : State :=
  let s := { s with
    spi.rdData := s.spi.rdData ||| LittleEndian.place byte s.spi.loadIndex
    spi.loadIndex := s.spi.loadIndex + 1
    spi.loadingMem := s.spi.loadingMem - 1 }
  if s.spi.loadIndex = 4 then
    let s := memSetWrP s.spi.loadAddr s
    let s := memWrite s.spi.rdData s
    { s with
      spi.loadAddr := s.spi.loadAddr + 4
      spi.loadIndex := 0
      spi.rdData := 0 }
  else s

end

end HbcMac
