import HbcMac.Commands

/-!
# The main loop and its interrupts

The main loop of `main.c` as a program counter over its statements. Each condition is one
step per variable it reads, and a region between `disable_interrupts` and
`enable_interrupts` is a single step; between any two steps any interrupt may be served.
-/

namespace HbcMac

/-! ## Program counter -/

/-- The statement that comes next. -/
inductive Pc
  -- if (send_packet || tx_flood)
  | sendPacket | txFlood
  | trigLed | trigRxDisable | trigBuild | trigSeed | trigRxEnable | trigFlood | trigClear
  -- if (tx_auto && ((tx_pending > 1) || ((tx_pending == 1) && !hbc_spi_load_busy())))
  | txAuto | pendingMany | pendingOne | loadBusy
  | autoLed | autoRxDisable | autoBuild | autoMask | autoSeed | autoRxEnable | autoDone
  -- if (rx_flood || (rx_auto && !hbc_spi_dump_busy()))
  | rxFlood | rxAuto | dumpBusy
  | rxForward
  | rxCall (forward : Bool)
  -- if (do_psoc_flash)
  | psocFlash | psocCall
  -- psoc_flash_device ends in an endless loop with interrupts disabled
  | psocHang
  deriving DecidableEq

/-! ## History -/

/-- A frame sent: the branch that sent it, the header it was built from and the words that
went to the modulator, the header word first. -/
structure Frame where
  auto : Bool
  headerInfo : PlcpHeader
  words : List Word

/-- A load announced by a command, with the payload bytes that have come since. -/
structure Load where
  forTx : Bool
  bytes : ℕ
  consumed : ℕ

/-- The words written to the modulator. -/
def modulated (out : List Out) : List Word :=
  out.filterMap fun o => match o with
    | .modulate w => some w
    | _ => none

/-- The bytes written to the data port. -/
def dataBytes (out : List Out) : List Byte :=
  out.filterMap fun o => match o with
    | .data b => some b
    | _ => none

/-- What a longer trace modulates. -/
theorem modulated_append (out out' : List Out) :
    modulated (out ++ out') = modulated out ++ modulated out' := List.filterMap_append ..

/-- What a longer trace writes to the data port. -/
theorem dataBytes_append (out out' : List Out) :
    dataBytes (out ++ out') = dataBytes out ++ dataBytes out' := List.filterMap_append ..

/-- The firmware at a statement of its main loop, with the history that specifications speak of. -/
structure Sys where
  fw : Firmware
  pc : Pc
  frames : List Frame
  /-- Rounds of the auto branch that have come to their end. -/
  autoSent : ℕ
  loads : List Load
  /-- Data interrupts served. -/
  taken : ℕ

section
variable [Board] [HostProtocol]

/-! ## Main loop -/

/-- `build_tx_plcp_header` and `build_tx_payload` on the global header. -/
def sendFrame (s : State) : Byte × State :=
  let h := buildTxPlcpHeader s.main.headerInfo s
  let s := { h.2 with main.headerInfo := h.1 }
  buildTxPayload s.main.headerInfo s

/-- The protected region of the trigger branch. -/
def trigBuild (s : State) : State := (sendFrame (memSetRdP 0 s)).2

/-- The protected region of the auto branch. -/
def autoBuild (s : State) : State :=
  let s := memSetRdP s.main.pktAddr s
  let m := memRead s
  let s := { m.2 with main.headerInfo.pdsuLength := m.1.setWidth 8 }
  let r := sendFrame s
  { r.2 with main.pktAddr := r.2.main.pktAddr + (r.1.setWidth 32 * 4 + 4) }

/-- `header_info.scrambler_seed = !header_info.scrambler_seed`. -/
def toggleSeed (s : State) : State :=
  { s with main.headerInfo.scramblerSeed :=
      if s.main.headerInfo.scramblerSeed = 0 then 1 else 0 }

/-- One step of the main loop on the state, with the next statement. -/
def mainStep (pc : Pc) (s : State) : Pc × State :=
  match pc with
  | .sendPacket => (if s.main.sendPacket ≠ 0 then .trigLed else .txFlood, s)
  | .txFlood => (if s.main.txFlood ≠ 0 then .trigLed else .txAuto, s)
  | .trigLed => (.trigRxDisable, ledToggle s)
  | .trigRxDisable => (.trigBuild, if s.main.loopback = 0 then rxDisable s else s)
  | .trigBuild => (.trigSeed, trigBuild s)
  | .trigSeed => (.trigRxEnable, toggleSeed s)
  | .trigRxEnable => (.trigFlood, if s.main.loopback = 0 then rxEnable s else s)
  | .trigFlood =>
    (.trigClear,
      if s.main.txFlood ≠ 0 then { s with main.txFlood := s.main.txFlood - 1 } else s)
  | .trigClear => (.txAuto, { s with main.sendPacket := 0 })
  | .txAuto => (if s.main.txAuto ≠ 0 then .pendingMany else .rxFlood, s)
  | .pendingMany => (if (1 : Word).slt s.main.txPending then .autoLed else .pendingOne, s)
  | .pendingOne => (if s.main.txPending = 1 then .loadBusy else .rxFlood, s)
  | .loadBusy => (if hbcSpiLoadBusy s then .rxFlood else .autoLed, s)
  | .autoLed => (.autoRxDisable, ledToggle s)
  | .autoRxDisable => (.autoBuild, if s.main.loopback = 0 then rxDisable s else s)
  | .autoBuild => (.autoMask, autoBuild s)
  | .autoMask => (.autoSeed, { s with main.pktAddr := s.main.pktAddr &&& memTxMask })
  | .autoSeed => (.autoRxEnable, toggleSeed s)
  | .autoRxEnable => (.autoDone, if s.main.loopback = 0 then rxEnable s else s)
  | .autoDone => (.rxFlood, { s with main.txPending := s.main.txPending - 1 })
  | .rxFlood => (if s.main.rxFlood ≠ 0 then .rxForward else .rxAuto, s)
  | .rxAuto => (if s.main.rxAuto ≠ 0 then .dumpBusy else .psocFlash, s)
  | .dumpBusy => (if hbcSpiDumpBusy s then .psocFlash else .rxForward, s)
  | .rxForward => (.rxCall (s.main.rxFlood = 0), s)
  | .rxCall forward => (.psocFlash, hbcToSpi forward s)
  | .psocFlash => (if s.main.doPsocFlash ≠ 0 then .psocCall else .sendPacket, s)
  | .psocCall => (.psocHang, flashRead flashAddrPsocConf flashPsocSize flashAddrPsocConf s)
  | .psocHang => (.psocHang, s)

/-- The frames sent by one step of the main loop. -/
def framesOf (pc : Pc) (s s' : State) : List Frame :=
  let words := (modulated s'.out).drop (modulated s.out).length
  match pc with
  | .trigBuild => [⟨false, s'.main.headerInfo, words⟩]
  | .autoBuild => [⟨true, s'.main.headerInfo, words⟩]
  | _ => []

/-! ## Interrupts -/

/-- A receive interrupt during which the batches `arr` of words arrive, one before each
read of the data flag; what comes after the last read stays in the FIFO. -/
def rxInterrupt (handler : State → State) (arr : List (List Word)) (s : State) : State :=
  let s := handler { s with rxFifo.arrivals := arr }
  { s with rxFifo := { words := s.rxFifo.words ++ s.rxFifo.arrivals.flatten, arrivals := [] } }

/-- What can happen next: a statement of the loop, or an interrupt. -/
inductive Event
  /-- A step of the main loop. -/
  | main
  /-- `IRQ_HBC_CTRL_SPI` with the byte the host sent. -/
  | ctrl (b : Byte)
  /-- `IRQ_HBC_DATA_SPI`: the host has taken a byte. -/
  | data
  /-- `IRQ_RX_FIFO_ALMOST_FULL`. -/
  | rxData (arr : List (List Word))
  /-- `IRQ_RX_PKT_READY`. -/
  | rxReady (arr : List (List Word))

/-- The command accepted when byte `b` is handled, if any. -/
def acceptedCmd (b : Byte) (f : Firmware) : Option (Byte × Word) :=
  if f.dev.spi.loadingMem ≠ 0 then none else (f.parser.push b).2

/-- A payload byte counted for the load that is going on, the last one announced. -/
def countByte : List Load → List Load
  | [] => []
  | [l] => [{ l with consumed := l.consumed + 1 }]
  | l :: ls => l :: countByte ls

/-- The loads announced after byte `b`. -/
def loadsAfter (b : Byte) (f : Firmware) (loads : List Load) : List Load :=
  if f.dev.spi.loadingMem ≠ 0 then countByte loads
  else
    match acceptedCmd b f with
    | none => loads
    | some (cmd, arg) =>
      match decodeCmd cmd with
      | some .memLoad => loads ++ [⟨false, arg.toNat, 0⟩]
      | some .hbcTxPacket => loads ++ [⟨true, arg.toNat, 0⟩]
      | _ => loads

namespace Sys

/-- A handler that does not touch the command parser. -/
def mapDev (f : State → State) (y : Sys) : Sys := { y with fw.dev := f y.fw.dev }

/-- Interrupts are served everywhere but in the endless loop. -/
def interruptible (y : Sys) : Bool := y.pc ≠ .psocHang

/-- One event. In the endless loop there are none. -/
def step (y : Sys) (e : Event) : Sys :=
  if !y.interruptible then y
  else
    match e with
    | .main =>
      let r := mainStep y.pc y.fw.dev
      { y with
        fw.dev := r.2
        pc := r.1
        frames := y.frames ++ framesOf y.pc y.fw.dev r.2
        autoSent := if y.pc = .autoDone then y.autoSent + 1 else y.autoSent }
    | .ctrl b => { y with fw := hbcCtrlIrq b y.fw, loads := loadsAfter b y.fw y.loads }
    | .data => { y.mapDev hbcDataIrq with taken := y.taken + 1 }
    | .rxData arr => y.mapDev (rxInterrupt rxDataIntFunc arr)
    | .rxReady arr => y.mapDev (rxInterrupt rxReadyIntFunc arr)

end Sys

end

/-! ## Start-up -/

/-- The state at the head of the main loop for the first time: the initial values of the
static variables, and both wrap flags set. Memory, flash and trace are arbitrary. -/
structure Boot (s : State) : Prop where
  flags : s.mem.flags = memReadWrap16M ||| memWriteWrap16M
  rxFifo : s.rxFifo = ⟨[], []⟩
  rx : s.rx = {
    rdBufAddr := memRxBuf, wrBufAddr := memRxBuf, wrBytes := 0, packetReady := 0
    rdPacketAddr := memRxBuf, wrPacketAddr := 0, rdPacketHeader := 0, rdPacketMarker := 0
    rxState := .packetInit }
  spi : s.spi = {
    loadAddr := 0, dumpAddr := 0, loadingMem := 0, dumpingMem := 0, dumpHbcRx := false
    loadIndex := 0, dumpIndex := 0, ackData := 0, ackBytes := 0, replyBytes := 0
    replySize := 0, replyData := 0, rdData := 0, wrData := 0 }
  main : s.main = {
    sendPacket := 0, txFlood := 0, rxFlood := 0, txPending := 0, pktAddr := 0, rxAuto := 0
    txAuto := 0, doPsocFlash := 0, loopback := 0
    headerInfo := {
      dataRate := rSf64, pilotInfo := pilotNone, burstMode := 0, useRi := 1
      scramblerSeed := 0, pdsuLength := 0, crc8 := 0 }
    flashAddr := 0, toggle := false }

/-- The parser between two packets, its buffer clear. -/
def bootParser : CmdParser := { pkt := Vector.replicate 6 0, bytesReq := 0, bytesReq_le := by decide }

/-- The system at the head of the main loop for the first time. -/
def Sys.boot (s : State) : Sys :=
  { fw := ⟨bootParser, s⟩, pc := .sendPacket, frames := [], autoSent := 0, loads := [], taken := 0 }

/-- A start-up state with clear memory. -/
def bootState : State where
  mem :=
    { cells := fun _ => 0, rdP := 0, wrP := 0, flags := memReadWrap16M ||| memWriteWrap16M,
      log := [] }
  scram := { seed := false, pos := 0 }
  rxFifo := { words := [], arrivals := [] }
  txFifo := { triggered := false, fullPolls := [] }
  flash := { cells := fun _ => 0xFF, wel := false, busy := 0, busyFor := [], shifted := [], ops := [] }
  gpi := 0
  out := []
  rx := {
    rdBufAddr := memRxBuf, wrBufAddr := memRxBuf, wrBytes := 0, packetReady := 0
    rdPacketAddr := memRxBuf, wrPacketAddr := 0, rdPacketHeader := 0, rdPacketMarker := 0
    rxState := .packetInit }
  spi := {
    loadAddr := 0, dumpAddr := 0, loadingMem := 0, dumpingMem := 0, dumpHbcRx := false
    loadIndex := 0, dumpIndex := 0, ackData := 0, ackBytes := 0, replyBytes := 0
    replySize := 0, replyData := 0, rdData := 0, wrData := 0 }
  main := {
    sendPacket := 0, txFlood := 0, rxFlood := 0, txPending := 0, pktAddr := 0, rxAuto := 0
    txAuto := 0, doPsocFlash := 0, loopback := 0
    headerInfo := {
      dataRate := rSf64, pilotInfo := pilotNone, burstMode := 0, useRi := 1
      scramblerSeed := 0, pdsuLength := 0, crc8 := 0 }
    flashAddr := 0, toggle := false }

/-- It is one. -/
theorem bootState_boot : Boot bootState := ⟨rfl, rfl, rfl, rfl, rfl⟩

end HbcMac
