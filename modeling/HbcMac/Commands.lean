import HbcMac.Flash
import HbcMac.Spi

/-!
# The command interpreter and the forwarder of `main.c`
-/

namespace HbcMac

/-! ## Framing -/

/-- The static variables `pkt` and `bytes_req` of `ctrl_cmd`. -/
structure CmdParser where
  pkt : Vector Byte packetSize
  bytesReq : ℕ
  bytesReq_le : bytesReq ≤ packetSize

/-- `buf_to_word` at an offset of the packet buffer. -/
def bufToWord (pkt : Vector Byte packetSize) (off : ℕ) (h : off + 3 < packetSize) : Word :=
  pkt[off].setWidth 32 <<< 24 ||| pkt[off + 1].setWidth 32 <<< 16
    ||| pkt[off + 2].setWidth 32 <<< 8 ||| pkt[off + 3].setWidth 32

/-- The CRC over a packet buffer, which is zero for an intact packet. -/
def pktCrc (pkt : Vector Byte packetSize) : Byte := pkt.toList.foldl crc8Update crc8Init

/-- The command byte and the argument of a packet. -/
def pktCommand (pkt : Vector Byte packetSize) : Byte × Word :=
  (pkt.get ⟨packetCmdOffset, by decide⟩, bufToWord pkt packetArgOffset (by decide))

/-- The first half of `ctrl_cmd`: a byte goes to the packet buffer, and the last byte of an
intact packet yields its command. -/
def CmdParser.push [HostProtocol] (c : Byte) (p : CmdParser) :
    CmdParser × Option (Byte × Word) :=
  if h : p.bytesReq = 0 then
    if c = HostProtocol.packetHeader then
      ({ p with bytesReq := packetSize, bytesReq_le := Nat.le_refl _ }, none)
    else (p, none)
  else
    let p : CmdParser := {
      pkt := p.pkt.set (packetSize - p.bytesReq) c (by simp only [packetSize]; omega)
      bytesReq := p.bytesReq - 1
      bytesReq_le := Nat.le_trans (Nat.sub_le _ _) p.bytesReq_le }
    -- packet not finished yet, or CRC error
    if p.bytesReq ≠ 0 then (p, none)
    else if pktCrc p.pkt ≠ 0 then (p, none)
    else (p, some (pktCommand p.pkt))

section
variable [Board] [HostProtocol]

/-! ## Packet check -/

/-- The comparison loop of `rx_check_packet`. -/
def rxCheckLoop : ℕ → Word → Word → Word → State → Word × State
  | 0, correct, _, _, s => (correct, s)
  | bytes + 1, correct, chk, data, s =>
    let correct := if chk &&& 0xff = data &&& 0xff then correct + 1 else correct
    if bytes ≠ 0 ∧ bytes % 4 = 0 then
      let m := memRead s
      let d := rxRead m.2
      rxCheckLoop bytes correct m.1 d.1 d.2
    else rxCheckLoop bytes correct (chk >>> 8) (data >>> 8) s

/-- `rx_check_packet`: the payload bytes that agree with the memory from address 0 are counted, and
the packet is consumed. -/
def rxCheckPacket (s : State) : Word × State :=
  let r := rxPacketReady s
  let s := r.2
  if r.1 = 0 then (-1, s)
  else if !rxCheckCrcOk s then (-1, rxPacketNext s)
  else if rxBytesRead s < (rxPacketLength s).setWidth 32 then (-1, rxPacketNext s)
  else
    let bytes := rxPacketLength s
    -- packet marker and header are ignored
    let s := (rxRead (rxRead s).2).2
    let s := memSetRdP 0 s
    let m := memRead s
    let d := rxRead m.2
    let r := rxCheckLoop bytes.toNat 0 m.1 d.1 d.2
    (r.1, rxPacketNext r.2)

/-! ## Replies -/

/-- The frame `reply_pkt` registers. -/
def replyFrame (cmd arg : Byte) : Word :=
  let data : Word := HostProtocol.packetHeader.setWidth 32
  let data := data ||| cmd.setWidth 32 <<< 8
  let data := data ||| arg.setWidth 32 <<< 16
  data ||| (crc8 data).setWidth 32 <<< 24

/-- `reply_pkt`. -/
def replyPkt (cmd arg : Byte) (s : State) : State := hbcSpiAck (replyFrame cmd arg) s

/-! ## Dispatch -/

/-- The reply of a command that answers with four bytes. -/
def reply (r : Word × State) : State := hbcSpiReply r.1 4 r.2

/-- The `switch` of `ctrl_cmd`, without `do_ack`. -/
def ctrlSwitch (cmd : Cmd) (arg : Word) (s : State) : State :=
  match cmd with
  -- FPGA debug commands
  | .irqStatusRead => reply (s.gpi, s)
  | .scramblerRead => reply (scramblerRead s)
  -- DRAM debug commands
  | .memRead => reply (memRead (memSetRdP arg s))
  | .memRdAddr => hbcSpiDumpAddr arg s
  | .memWrAddr => hbcSpiLoadAddr arg s
  | .memDump => hbcSpiDumpBytes arg.toNat false s
  | .memLoad => hbcSpiLoadBytes arg false s
  | .memTest => let r := memTest memSize s; reply (r.1.setWidth 32, r.2)
  -- flash debug commands
  | .flashRead =>
    reply ((HostProtocol.code .flashRead).setWidth 32, flashRead 0 flashSize 0 s)
  | .flashWriteAddr => { s with main.flashAddr := arg }
  | .flashWrite =>
    let s := flashWrite 0 arg s.main.flashAddr s
    reply (flashVerify 0 arg s.main.flashAddr s)
  -- PSoC flash commands
  | .psocFlash => { s with main.doPsocFlash := 1 }
  -- HBC_TX commands
  | .hbcTxTrigger =>
    { s with
      main.headerInfo.pdsuLength := arg.setWidth 8
      main.sendPacket := 1 }
  | .hbcTxSpreadFactor => { s with main.headerInfo.dataRate := arg }
  | .hbcTxScramblerSeed => { s with main.headerInfo.scramblerSeed := arg }
  | .hbcTxAuto => { s with main.txAuto := arg }
  | .hbcTxAddr => hbcSpiLoadAddr arg { s with main.pktAddr := arg }
  | .hbcTxPacket =>
    let s := hbcSpiLoadBytes arg true s
    { s with main.txPending := s.main.txPending + 1 }
  | .hbcTxLoopback => { s with main.loopback := arg }
  | .hbcTxFilter => if arg ≠ 0 then s.gpoClear .hbcDataSwitch else s.gpoSet .hbcDataSwitch
  | .hbcTxFlood => { s with main.txFlood := arg }
  -- HBC_RX commands
  | .hbcRxReady => reply (rxPacketReady s)
  | .hbcRxLength => reply ((rxPacketLength s).setWidth 32, s)
  | .hbcRxBytesRead => reply (rxBytesRead s, s)
  | .hbcRxCrcOk => reply (if rxCheckCrcOk s then 1 else 0, s)
  | .hbcRxRead => reply (rxRead s)
  | .hbcRxNext => rxPacketNext s
  | .hbcRxCheck => reply (rxCheckPacket s)
  | .hbcRxAuto => { s with main.rxAuto := arg }
  | .hbcRxGetRdAddr => reply (rxReadAddr s, s)
  | .hbcRxGetWrAddr => reply (rxWriteAddr s, s)
  | .hbcRxFlood => { s with main.rxFlood := arg }

/-- `do_ack` after the `switch`; an unknown command is answered as the PSoC would. -/
def doAck : Option Cmd → Word
  | some .hbcTxPacket => HostProtocol.noAck
  | some _ => HostProtocol.hbcAck
  | none => HostProtocol.psocAck

/-- The second half of `ctrl_cmd`, for an accepted packet. -/
def execCmd (cmd : Byte) (arg : Word) (s : State) : State :=
  let case := decodeCmd cmd
  let s := case.elim s fun c => ctrlSwitch c arg s
  let s := if doAck case ≠ HostProtocol.noAck then replyPkt ((doAck case).setWidth 8) 0 s else s
  hbcSpiDataTrigger s

/-- The state of the firmware with that of the command parser. -/
structure Firmware where
  parser : CmdParser
  dev : State

/-- `ctrl_cmd` for one byte from the control port. -/
def ctrlCmd (c : Byte) (f : Firmware) : Firmware :=
  let p := f.parser.push c
  { parser := p.1
    dev := p.2.elim f.dev fun r => execCmd r.1 r.2 f.dev }

/-- `hbc_ctrl_irq` for the byte read from the control port. -/
def hbcCtrlIrq (byte : Byte) (f : Firmware) : Firmware :=
  let f := if f.dev.spi.loadingMem ≠ 0 then { f with dev := loadByte byte f.dev } else ctrlCmd byte f
  { f with dev := ctrlReqNext f.dev }

/-! ## Forwarding -/

/-- `led_toggle`. -/
def ledToggle (s : State) : State :=
  let s := if s.main.toggle then s.gpoClear .led1Bit else s.gpoSet .led1Bit
  { s with main.toggle := !s.main.toggle }

/-- The bytes dumped behind a payload. -/
def rxPad : ℕ := 4

/-- The announcement and dump of the packet at the read cursor. -/
def forwardPacket (s : State) : State :=
  let bytes := rxPacketLength s
  let s := replyPkt HostProtocol.rxPacket bytes s
  -- skip packet marker
  let s := (rxRead s).2
  let s := hbcSpiDumpBytes (bytes.toNat + hbcHeaderSize + rxPad) true s
  hbcSpiDataTrigger s

/-- `hbc_to_spi`: the packet at the read cursor is forwarded if it is intact, and dropped in any
case. -/
def hbcToSpi (forward : Bool) (s : State) : State :=
  let r := rxPacketReady s
  let s := r.2
  if r.1 = 0 then s
  else if !rxCheckCrcOk s then rxPacketNext s
  else if rxBytesRead s < (rxPacketLength s).setWidth 32 then rxPacketNext s
  else
    let s := ledToggle s
    let s := if forward then forwardPacket s else s
    rxPacketNext s

end

end HbcMac
