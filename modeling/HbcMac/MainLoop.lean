import HbcMac.CommandSteps
import HbcMac.Forwarder
import HbcMac.TxFrame
import HbcMac.WriterStep

/-!
# What a step of the main loop changes

One lemma for each side of the firmware. `TxKept` is about the loader and the variables of
the transmit branches, `PortKept` about the registers of the data port, `MemKept` about the
memory contents.
-/

namespace HbcMac

/-! ## Frame conditions -/

/-- The loader and the variables of the transmit branches are as they were. -/
structure TxKept (s s' : State) : Prop where
  loadAddr : s'.spi.loadAddr = s.spi.loadAddr
  loadingMem : s'.spi.loadingMem = s.spi.loadingMem
  loadIndex : s'.spi.loadIndex = s.spi.loadIndex
  rdData : s'.spi.rdData = s.spi.rdData
  txPending : s'.main.txPending = s.main.txPending
  pktAddr : s'.main.pktAddr = s.main.pktAddr
  txAuto : s'.main.txAuto = s.main.txAuto
  sendPacket : s'.main.sendPacket = s.main.sendPacket
  txFlood : s'.main.txFlood = s.main.txFlood
  doPsocFlash : s'.main.doPsocFlash = s.main.doPsocFlash

namespace TxKept

theorem refl (s : State) : TxKept s s := ⟨rfl, rfl, rfl, rfl, rfl, rfl, rfl, rfl, rfl, rfl⟩

theorem trans {s t u : State} (h : TxKept s t) (h' : TxKept t u) : TxKept s u where
  loadAddr := h'.loadAddr.trans h.loadAddr
  loadingMem := h'.loadingMem.trans h.loadingMem
  loadIndex := h'.loadIndex.trans h.loadIndex
  rdData := h'.rdData.trans h.rdData
  txPending := h'.txPending.trans h.txPending
  pktAddr := h'.pktAddr.trans h.pktAddr
  txAuto := h'.txAuto.trans h.txAuto
  sendPacket := h'.sendPacket.trans h.sendPacket
  txFlood := h'.txFlood.trans h.txFlood
  doPsocFlash := h'.doPsocFlash.trans h.doPsocFlash

/-- Nothing of it has changed if both groups of variables are as they were. -/
theorem of_eq {s s' : State} (hspi : s'.spi = s.spi) (hmain : s'.main = s.main) : TxKept s s' := by
  constructor <;> first | rw [hspi] | rw [hmain]

end TxKept

/-- The registers of the data port and the bytes written to it are as they were. -/
structure PortKept (s s' : State) : Prop where
  ackBytes : s'.spi.ackBytes = s.spi.ackBytes
  ackData : s'.spi.ackData = s.spi.ackData
  replyBytes : s'.spi.replyBytes = s.spi.replyBytes
  replySize : s'.spi.replySize = s.spi.replySize
  replyData : s'.spi.replyData = s.spi.replyData
  dumpingMem : s'.spi.dumpingMem = s.spi.dumpingMem
  dumpHbcRx : s'.spi.dumpHbcRx = s.spi.dumpHbcRx
  dumpIndex : s'.spi.dumpIndex = s.spi.dumpIndex
  dumpAddr : s'.spi.dumpAddr = s.spi.dumpAddr
  wrData : s'.spi.wrData = s.spi.wrData
  data : dataBytes s'.out = dataBytes s.out

namespace PortKept

theorem refl (s : State) : PortKept s s :=
  ⟨rfl, rfl, rfl, rfl, rfl, rfl, rfl, rfl, rfl, rfl, rfl⟩

theorem trans {s t u : State} (h : PortKept s t) (h' : PortKept t u) : PortKept s u where
  ackBytes := h'.ackBytes.trans h.ackBytes
  ackData := h'.ackData.trans h.ackData
  replyBytes := h'.replyBytes.trans h.replyBytes
  replySize := h'.replySize.trans h.replySize
  replyData := h'.replyData.trans h.replyData
  dumpingMem := h'.dumpingMem.trans h.dumpingMem
  dumpHbcRx := h'.dumpHbcRx.trans h.dumpHbcRx
  dumpIndex := h'.dumpIndex.trans h.dumpIndex
  dumpAddr := h'.dumpAddr.trans h.dumpAddr
  wrData := h'.wrData.trans h.wrData
  data := h'.data.trans h.data

/-- The registers and the bytes at the port are all that counts. -/
theorem of_eq {s s' : State} (hspi : s'.spi = s.spi) (hdata : dataBytes s'.out = dataBytes s.out) :
    PortKept s s' := by
  refine ⟨?_, ?_, ?_, ?_, ?_, ?_, ?_, ?_, ?_, ?_, hdata⟩ <;> rw [hspi]

/-- Driving one of the other lines is no business of the port. -/
theorem gpo {s s' : State} {line : Gpo} {level : Bool} (hspi : s'.spi = s.spi)
    (hout : s'.out = s.out ++ [.gpo line level]) : PortKept s s' := by
  refine of_eq hspi ?_
  rw [hout, dataBytes_append]
  exact List.append_nil _

end PortKept

/-- The memory contents and the write log are as they were. -/
structure MemKept (s s' : State) : Prop where
  cells : s'.mem.cells = s.mem.cells
  flags : s'.mem.flags = s.mem.flags
  log : s'.mem.log = s.mem.log

/-! ## The LED and the receiver line -/

/-- The LED concerns neither loader nor port. -/
theorem ledToggle_kept (s : State) : TxKept s (ledToggle s) ∧ PortKept s (ledToggle s) := by
  unfold ledToggle
  dsimp only
  split
  · exact ⟨⟨rfl, rfl, rfl, rfl, rfl, rfl, rfl, rfl, rfl, rfl⟩, PortKept.gpo rfl rfl⟩
  · exact ⟨⟨rfl, rfl, rfl, rfl, rfl, rfl, rfl, rfl, rfl, rfl⟩, PortKept.gpo rfl rfl⟩

/-- Nor does the line of the receiver. -/
theorem rxDisable_kept (s : State) : TxKept s (rxDisable s) ∧ PortKept s (rxDisable s) :=
  ⟨TxKept.of_eq rfl rfl, PortKept.gpo rfl rfl⟩

theorem rxEnable_kept (s : State) : TxKept s (rxEnable s) ∧ PortKept s (rxEnable s) :=
  ⟨TxKept.of_eq rfl rfl, PortKept.gpo rfl rfl⟩

/-! ## The data interrupt and the forwarder -/

section
variable [Board]

/-- The data port leaves the loader alone. -/
theorem txKept_hbcDataIrq (s : State) : TxKept s (hbcDataIrq s) := by
  unfold hbcDataIrq
  split
  · exact ⟨rfl, rfl, rfl, rfl, rfl, rfl, rfl, rfl, rfl, rfl⟩
  · split
    · exact ⟨rfl, rfl, rfl, rfl, rfl, rfl, rfl, rfl, rfl, rfl⟩
    · split
      · obtain ⟨-, hmain, -⟩ := readerStep_dumpFetch s
        rw [dataDump_eq]
        refine ⟨rfl, rfl, rfl, rfl, ?_, ?_, ?_, ?_, ?_, ?_⟩ <;> exact congrArg _ hmain
      · exact TxKept.refl s

omit [Board] in
/-- So does the reader. -/
theorem txKept_rxPacketNext (s : State) : TxKept s (rxPacketNext s) :=
  TxKept.of_eq (quiet_rxPacketNext s).spi (quiet_rxPacketNext s).main

variable [HostProtocol]

/-- So does an announcement. -/
theorem txKept_forwardPacket (s : State) : TxKept s (forwardPacket s) := by
  rw [forwardPacket_eq]
  exact ⟨rfl, rfl, rfl, rfl, rfl, rfl, rfl, rfl, rfl, rfl⟩

/-- Altogether the forwarder does. -/
theorem txKept_hbcToSpi (forward : Bool) (s : State) : TxKept s (hbcToSpi forward s) := by
  have hready : TxKept s (rxPacketReady s).2 := TxKept.of_eq rfl rfl
  apply hbcToSpi_keeps (P := TxKept s) forward hready
  · intro t ht
    exact ht.trans (txKept_rxPacketNext t)
  · intro t ht
    exact ht.trans (ledToggle_kept t).1
  · intro t ht
    exact ht.trans (txKept_forwardPacket t)

/-! ## Frames -/

omit [HostProtocol] in
/-- A frame reads from the memory only. -/
theorem txKept_sendFrame (s : State) : TxKept s (sendFrame s).2 := by
  obtain ⟨new, f, heq, -, -⟩ := sendFrame_eq s
  rw [heq]
  exact ⟨rfl, rfl, rfl, rfl, rfl, rfl, rfl, rfl, rfl, rfl⟩

/-- The header the auto branch builds its frame from: the length is the word at `pkt_addr`. -/
def autoHeader (s : State) : PlcpHeader :=
  { s.main.headerInfo with pdsuLength := (s.mem.get s.main.pktAddr).setWidth 8 }

/-- The state in which the auto branch sends its frame. -/
def autoRead (s : State) : State :=
  { s with
    mem := { s.mem with rdP := advance s.mem.readWraps s.main.pktAddr }
    main := { s.main with headerInfo := autoHeader s } }

omit [HostProtocol] in
/-- The auto branch in two parts: what it reads, and the frame. -/
theorem autoBuild_eq (s : State) : autoBuild s = { (sendFrame (autoRead s)).2 with
    main.pktAddr := (sendFrame (autoRead s)).2.main.pktAddr
      + ((autoHeader s).pdsuLength / 4).setWidth 32 * 4 + 4 } := by
  rw [BitVec.add_assoc]
  rfl

/-! ## One step -/

/-- The variables of the main loop after a step, as far as the transmit branches set them. -/
def mainAfter (pc : Pc) (s : State) : MainVars :=
  match pc with
  | .trigFlood =>
    if s.main.txFlood ≠ 0 then { s.main with txFlood := s.main.txFlood - 1 } else s.main
  | .trigClear => { s.main with sendPacket := 0 }
  | .autoBuild =>
    { s.main with
      pktAddr := s.main.pktAddr + ((autoHeader s).pdsuLength / 4).setWidth 32 * 4 + 4 }
  | .autoMask => { s.main with pktAddr := s.main.pktAddr &&& memTxMask }
  | .autoDone => { s.main with txPending := s.main.txPending - 1 }
  | _ => s.main

/-- No statement of the loop touches the loader. -/
theorem txKept_mainStep (pc : Pc) (s : State) :
    TxKept { s with main := mainAfter pc s } (mainStep pc s).2 := by
  cases pc with
  | trigLed | autoLed => exact (ledToggle_kept s).1
  | trigRxDisable | autoRxDisable =>
    simp only [mainStep]
    split
    · exact (rxDisable_kept s).1
    · exact TxKept.refl s
  | trigRxEnable | autoRxEnable =>
    simp only [mainStep]
    split
    · exact (rxEnable_kept s).1
    · exact TxKept.refl s
  | trigBuild =>
    have hsend := txKept_sendFrame (memSetRdP 0 s)
    exact ⟨hsend.loadAddr, hsend.loadingMem, hsend.loadIndex, hsend.rdData, hsend.txPending,
      hsend.pktAddr, hsend.txAuto, hsend.sendPacket, hsend.txFlood, hsend.doPsocFlash⟩
  | autoBuild =>
    have hsend := txKept_sendFrame (autoRead s)
    show TxKept _ (autoBuild s)
    rw [autoBuild_eq]
    refine ⟨hsend.loadAddr, hsend.loadingMem, hsend.loadIndex, hsend.rdData, hsend.txPending, ?_,
      hsend.txAuto, hsend.sendPacket, hsend.txFlood, hsend.doPsocFlash⟩
    dsimp only
    rw [hsend.pktAddr]
    rfl
  | trigFlood =>
    simp only [mainStep, mainAfter]
    split
    · exact TxKept.refl _
    · exact TxKept.refl s
  | rxCall forward => exact txKept_hbcToSpi forward s
  | psocCall =>
    have hq := devices_flashRead flashAddrPsocConf flashPsocSize flashAddrPsocConf s
    exact TxKept.of_eq hq.spi hq.main
  | sendPacket | txFlood | trigSeed | trigClear | txAuto | pendingMany | pendingOne | loadBusy
  | autoMask | autoSeed | autoDone | rxFlood | rxAuto | dumpBusy | rxForward | psocFlash
  | psocHang => exact ⟨rfl, rfl, rfl, rfl, rfl, rfl, rfl, rfl, rfl, rfl⟩

/-- What a statement of the main loop does to the device. -/
inductive MainEffect (s : State) : Pc → State → Prop
  | vars (pc : Pc) (main : MainVars) : MainEffect s pc { s with main := main }
  | led (pc : Pc) : MainEffect s pc (ledToggle s)
  | rxOff {pc : Pc} (hpc : pc = .trigRxDisable ∨ pc = .autoRxDisable) :
    MainEffect s pc (rxDisable s)
  | rxOn {pc : Pc} (hpc : pc = .trigRxEnable ∨ pc = .autoRxEnable) : MainEffect s pc (rxEnable s)
  | trigFrame : MainEffect s .trigBuild (sendFrame (memSetRdP 0 s)).2
  | autoFrame (pktAddr : Word) :
    MainEffect s .autoBuild { (sendFrame (autoRead s)).2 with main.pktAddr := pktAddr }
  | forward (forward : Bool) : MainEffect s (.rxCall forward) (hbcToSpi forward s)
  | psoc : MainEffect s .psocCall
    (flashRead flashAddrPsocConf flashPsocSize flashAddrPsocConf s)

/-- Every statement is one of these cases. -/
theorem mainStep_effect (pc : Pc) (s : State) : MainEffect s pc (mainStep pc s).2 := by
  cases pc with
  | trigLed | autoLed => exact .led _
  | trigRxDisable | autoRxDisable =>
    simp only [mainStep]
    split
    · exact .rxOff (by decide)
    · exact .vars _ s.main
  | trigRxEnable | autoRxEnable =>
    simp only [mainStep]
    split
    · exact .rxOn (by decide)
    · exact .vars _ s.main
  | trigBuild => exact .trigFrame
  | autoBuild =>
    show MainEffect s _ (autoBuild s)
    rw [autoBuild_eq]
    exact .autoFrame _
  | trigFlood =>
    simp only [mainStep]
    split
    · exact .vars _ _
    · exact .vars _ s.main
  | rxCall forward => exact .forward forward
  | psocCall => exact .psoc
  | sendPacket | txFlood | trigSeed | trigClear | txAuto | pendingMany | pendingOne | loadBusy
  | autoMask | autoSeed | autoDone | rxFlood | rxAuto | dumpBusy | rxForward | psocFlash
  | psocHang => exact .vars _ _

/-- Only the call of the forwarder has to do with the data port. -/
theorem portKept_mainStep {pc : Pc} (hpc : ∀ forward, pc ≠ .rxCall forward) (s : State) :
    PortKept s (mainStep pc s).2 := by
  have heffect := mainStep_effect pc s
  generalize (mainStep pc s).2 = s' at heffect ⊢
  cases heffect with
  | vars main => exact PortKept.of_eq rfl rfl
  | led => exact (ledToggle_kept s).2
  | rxOff => exact (rxDisable_kept s).2
  | rxOn => exact (rxEnable_kept s).2
  | trigFrame =>
    have hsend := frameStep_sendFrame (memSetRdP 0 s)
    exact PortKept.of_eq hsend.spi hsend.data
  | autoFrame pktAddr =>
    have hsend := frameStep_sendFrame (autoRead s)
    exact PortKept.of_eq hsend.spi hsend.data
  | forward forward => exact absurd rfl (hpc forward)
  | psoc =>
    have hq := devices_flashRead flashAddrPsocConf flashPsocSize flashAddrPsocConf s
    exact PortKept.of_eq hq.spi (congrArg dataBytes hq.out)

/-- Nor has anything else to do with the reader and the writer. -/
theorem rx_mainStep {pc : Pc} (hpc : ∀ forward, pc ≠ .rxCall forward) (s : State) :
    (mainStep pc s).2.rx = s.rx := by
  have heffect := mainStep_effect pc s
  generalize (mainStep pc s).2 = s' at heffect ⊢
  cases heffect with
  | vars main => rfl
  | led => exact (ledToggle_eq s).1
  | rxOff => rfl
  | rxOn => rfl
  | trigFrame => exact (frameStep_sendFrame (memSetRdP 0 s)).rx
  | autoFrame pktAddr => exact (frameStep_sendFrame (autoRead s)).rx
  | forward forward => exact absurd rfl (hpc forward)
  | psoc => exact (devices_flashRead _ _ _ s).rx

/-- Only the copy of the PSoC flash image writes to memory. -/
theorem memKept_mainStep {pc : Pc} (hpc : pc ≠ .psocCall) (s : State) :
    MemKept s (mainStep pc s).2 := by
  have hreader {s' : State} (h : ReaderStep s s') : MemKept s s' := ⟨h.cells, h.flags, h.log⟩
  have heffect := mainStep_effect pc s
  generalize (mainStep pc s).2 = s' at heffect ⊢
  cases heffect with
  | vars main => exact ⟨rfl, rfl, rfl⟩
  | led => exact hreader (readerStep_ledToggle s)
  | rxOff => exact ⟨rfl, rfl, rfl⟩
  | rxOn => exact ⟨rfl, rfl, rfl⟩
  | trigFrame =>
    have hsend := frameStep_sendFrame (memSetRdP 0 s)
    exact ⟨hsend.cells, hsend.flags, hsend.log⟩
  | autoFrame pktAddr =>
    have hsend := frameStep_sendFrame (autoRead s)
    exact ⟨hsend.cells, hsend.flags, hsend.log⟩
  | forward forward => exact hreader (readerStep_hbcToSpi forward s)
  | psoc => exact absurd rfl hpc

/-- Only the copy of the image for the PSoC ends in the endless loop. -/
theorem mainStep_ne_psocHang {pc : Pc} (h : pc ≠ .psocHang) (hcopy : pc ≠ .psocCall) (s : State) :
    (mainStep pc s).1 ≠ .psocHang := by
  cases pc with
  | psocHang => exact absurd rfl h
  | psocCall => exact absurd rfl hcopy
  | sendPacket | txFlood | txAuto | pendingMany | pendingOne | loadBusy | rxFlood | rxAuto
  | dumpBusy | psocFlash =>
    simp only [mainStep]
    split
    · nofun
    · nofun
  | _ => nofun

/-! ## Steps of the system -/

namespace Sys

omit [Board] [HostProtocol] in
/-- Outside the endless loop every event is served. -/
theorem interruptible_of_ne {y : Sys} (h : y.pc ≠ .psocHang) : ¬ (!y.interruptible) = true := by
  simp [interruptible, h]

/-- The step of the loop, while it runs. -/
theorem step_main {y : Sys} (h : y.pc ≠ .psocHang) : y.step .main = { y with
    fw.dev := (mainStep y.pc y.fw.dev).2
    pc := (mainStep y.pc y.fw.dev).1
    frames := y.frames ++ framesOf y.pc y.fw.dev (mainStep y.pc y.fw.dev).2
    autoSent := if y.pc = .autoDone then y.autoSent + 1 else y.autoSent } := by
  rw [step, if_neg (interruptible_of_ne h)]

/-- A byte on the control port. -/
theorem step_ctrl {y : Sys} (h : y.pc ≠ .psocHang) (b : Byte) : y.step (.ctrl b) = { y with
    fw := hbcCtrlIrq b y.fw
    loads := loadsAfter b y.fw y.loads } := by
  rw [step, if_neg (interruptible_of_ne h)]

/-- A data interrupt. -/
theorem step_data {y : Sys} (h : y.pc ≠ .psocHang) : y.step .data = { y with
    fw.dev := hbcDataIrq y.fw.dev
    taken := y.taken + 1 } := by
  rw [step, if_neg (interruptible_of_ne h)]
  rfl

/-- A receive interrupt inside a packet. -/
theorem step_rxData {y : Sys} (h : y.pc ≠ .psocHang) (arr : List (List Word)) :
    y.step (.rxData arr) = { y with fw.dev := rxInterrupt rxDataIntFunc arr y.fw.dev } := by
  rw [step, if_neg (interruptible_of_ne h)]
  rfl

/-- A receive interrupt at its end. -/
theorem step_rxReady {y : Sys} (h : y.pc ≠ .psocHang) (arr : List (List Word)) :
    y.step (.rxReady arr) = { y with fw.dev := rxInterrupt rxReadyIntFunc arr y.fw.dev } := by
  rw [step, if_neg (interruptible_of_ne h)]
  rfl

/-- In the endless loop nothing happens any more. -/
theorem step_hang {y : Sys} (h : y.pc = .psocHang) (e : Event) : y.step e = y := by
  simp only [step, interruptible, h, ne_eq, not_true_eq_false, decide_false, Bool.not_false,
    if_true]

end Sys

end

end HbcMac
