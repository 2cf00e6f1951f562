import HbcMac.Lib.Run
import HbcMac.MainVars

/-!
# The receiver around a frame

Both transmit branches switch the receiver off before a frame and on again behind it, each time
only if `loopback` is zero. The two reads of `loopback` are statements of their own, so a command
between them can change what the second one finds.
-/

namespace HbcMac

/-! ## The receiver line -/

/-- The levels the receiver line has been driven to. -/
def rxLevels (out : List Out) : List Bool :=
  out.filterMap fun o => match o with
    | .gpo .hbcRxEnable level => some level
    | _ => none

theorem rxLevels_append (out out' : List Out) :
    rxLevels (out ++ out') = rxLevels out ++ rxLevels out' := List.filterMap_append ..

/-- The last of `rx_enable` and `rx_disable` executed was `rx_enable`. -/
def receiverOn (s : State) : Prop := (rxLevels s.out).getLast? = some true

/-- The receiver line has not been driven. -/
def RxKept (s s' : State) : Prop := rxLevels s'.out = rxLevels s.out

namespace RxKept

theorem refl (s : State) : RxKept s s := rfl

theorem trans {s t u : State} (h : RxKept s t) (h' : RxKept t u) : RxKept s u := Eq.trans h' h

theorem of_out {s s' : State} (h : s'.out = s.out) : RxKept s s' := congrArg rxLevels h

/-- What has been written was for other lines. -/
theorem of_append {s s' : State} {new : List Out} (h : s'.out = s.out ++ new)
    (hnew : rxLevels new = []) : RxKept s s' := by
  rw [RxKept, h, rxLevels_append, hnew, List.append_nil]

/-- The line stays as it was. -/
theorem on_iff {s s' : State} (h : RxKept s s') : receiverOn s' ↔ receiverOn s := by
  rw [receiverOn, h, receiverOn]

end RxKept

/-- Another output does not touch it. -/
theorem rxKept_emit {o : Out} (h : rxLevels [o] = []) (s : State) : RxKept s (s.emit o) :=
  .of_append rfl h

theorem rxKept_pulse (line : Gpo) (h : line ≠ .hbcRxEnable) (s : State) :
    RxKept s (s.pulse line) := by
  have hlevel (level : Bool) : rxLevels [.gpo line level] = [] := by
    cases line with
    | hbcRxEnable => exact absurd rfl h
    | _ => rfl
  exact (rxKept_emit (hlevel true) s).trans (rxKept_emit (hlevel false) _)

/-- `rx_enable` switches the receiver on. -/
theorem receiverOn_rxEnable (s : State) : receiverOn (rxEnable s) := by
  show (rxLevels (s.out ++ [Out.gpo .hbcRxEnable true])).getLast? = some true
  rw [rxLevels_append]
  exact List.getLast?_concat ..

/-! ## The transmit FIFO -/

/-- The functions of the transmit FIFO have lines of their own. -/
theorem rxKept_fifoTrigger (s : State) : RxKept s (fifoTrigger s) := by
  unfold fifoTrigger
  split
  · exact RxKept.refl s
  · exact rxKept_pulse .hbcTxTrigger (by decide) s

theorem rxKept_fifoBlock (n : ℕ) (s : State) : RxKept s (fifoBlock n s) := by
  induction n generalizing s with
  | zero => exact rxKept_emit rfl s
  | succ n ih => exact ((rxKept_emit rfl s).trans (rxKept_fifoTrigger _)).trans (ih _)

theorem rxKept_fifoWaitSpace (s : State) : RxKept s (fifoWaitSpace s) :=
  rxKept_fifoBlock _ { s with txFifo.fullPolls := s.txFifo.fullPolls.tail }

theorem rxKept_fifoWrite (data : Word) (s : State) : RxKept s (fifoWrite data s) :=
  (rxKept_fifoWaitSpace s).trans (rxKept_emit rfl _)

theorem rxKept_fifoModulate (data : Word) (s : State) : RxKept s (fifoModulate data s) :=
  (rxKept_fifoWaitSpace s).trans (rxKept_emit rfl _)

theorem rxKept_fifoWriteSize (size : Byte) (s : State) : RxKept s (fifoWriteSize size s) :=
  rxKept_emit rfl s

theorem rxKept_fifoSetRate (rate : Word) (s : State) : RxKept s (fifoSetRate rate s) := by
  have hsf : RxKept s (fifoModulateSf (rate.setWidth 8) s) := rxKept_emit rfl s
  have hsize (b : Byte) : RxKept s (fifoWriteSize b (fifoModulateSf (rate.setWidth 8) s)) :=
    hsf.trans (rxKept_fifoWriteSize b _)
  unfold fifoSetRate
  split
  · exact hsize 32
  · split
    · exact hsize 32
    · split
      · exact hsize 16
      · split
        · exact hsize 8
        · exact hsf

theorem rxKept_putBitmap32 (code : Word) (s : State) : RxKept s (putBitmap32 code s) := by
  have hbit (s : State) (i : ℕ) : RxKept s (putBit code s i) := by
    unfold putBit
    split
    · exact rxKept_fifoWrite _ s
    · exact rxKept_fifoWrite _ s
  have hbits (is : List ℕ) (s : State) : RxKept s (is.foldl (putBit code) s) := by
    induction is generalizing s with
    | nil => exact RxKept.refl s
    | cons i is ih => exact (hbit s i).trans (ih _)
  exact (rxKept_fifoSetRate rSf8 s).trans (hbits _ _)

theorem rxKept_buildTxPreamble (s : State) : RxKept s (buildTxPreamble s) :=
  (rxKept_putBitmap32 preamble1 s).trans (rxKept_putBitmap32 preamble2 _)

theorem rxKept_buildTxSfd (headerInfo : PlcpHeader) (s : State) :
    RxKept s (buildTxSfd headerInfo s) := by
  have hsize (b : Byte) {t : State} (h : RxKept s t) : RxKept s (fifoWriteSize b t) :=
    h.trans (rxKept_fifoWriteSize b t)
  have hzero {t : State} (h : RxKept s t) : RxKept s (fifoWrite bitMap32_0 t) :=
    h.trans (rxKept_fifoWrite _ t)
  have hsfd {t : State} (h : RxKept s t) : RxKept s (putSfd t) :=
    h.trans ((rxKept_putBitmap32 sfd1 t).trans (rxKept_putBitmap32 sfd2 _))
  have h0 := RxKept.refl s
  unfold buildTxSfd
  dsimp only
  split
  · exact hsfd h0
  · split
    · exact hzero (hzero (hzero (hsize 32 (hsfd h0))))
    · split
      · exact hzero (hsize 16 (hzero (hzero (hsize 32 (hsfd (hzero (hsize 16 h0)))))))
      · split
        · exact hzero (hzero (hsize 32 (hsfd (hzero (hsize 32 h0)))))
        · split
          · exact hzero (hsize 16 (hzero (hsize 32
              (hsfd (hzero (hsize 16 (hzero (hsize 32 h0))))))))
          · exact h0

theorem rxKept_buildTxPlcpHeader (headerInfo : PlcpHeader) (s : State) :
    RxKept s (buildTxPlcpHeader headerInfo s).2 := by
  have hpre {t : State} (h : RxKept s t) : RxKept s (buildTxPreamble t) :=
    h.trans (rxKept_buildTxPreamble t)
  have hreset : RxKept s (fifoWait (fifoReset s)) := RxKept.of_out rfl
  have hsfd := (hpre (hpre (hpre (hpre hreset)))).trans (rxKept_buildTxSfd headerInfo _)
  have hlead : RxKept s (buildTxLead headerInfo s) := by
    unfold buildTxLead
    dsimp only
    split
    · exact hsfd.trans (rxKept_fifoSetRate _ _)
    · exact hsfd.trans (rxKept_fifoSetRate _ _)
  exact hlead.trans (rxKept_fifoModulate _ _)

section
variable [Board]

theorem rxKept_buildTxWords (n : ℕ) (s : State) : RxKept s (buildTxWords n s) := by
  induction n generalizing s with
  | zero => exact RxKept.refl s
  | succ n ih =>
    have hread : RxKept s (scramblerRead (memRead s).2).2 := RxKept.of_out rfl
    exact (hread.trans (rxKept_fifoModulate _ _)).trans (ih _)

theorem rxKept_buildTxPayload (headerInfo : PlcpHeader) (s : State) :
    RxKept s (buildTxPayload headerInfo s).2 := by
  have hrate := rxKept_fifoSetRate headerInfo.dataRate s
  unfold buildTxPayload
  dsimp only
  generalize fifoSetRate headerInfo.dataRate s = t at hrate
  have hseed : RxKept s (scramblerReseed headerInfo.scramblerSeed t) := hrate
  have hwords := hseed.trans (rxKept_buildTxWords (payloadWords headerInfo.pdsuLength).toNat _)
  generalize buildTxWords _ _ = u at hwords
  exact (hwords.trans (rxKept_pulse .hbcTxFlush (by decide) u)).trans
    (rxKept_fifoTrigger _)

/-- A whole frame leaves the line alone. -/
theorem rxKept_sendFrame (s : State) : RxKept s (sendFrame s).2 := by
  have hheader := rxKept_buildTxPlcpHeader s.main.headerInfo s
  unfold sendFrame
  dsimp only
  generalize buildTxPlcpHeader s.main.headerInfo s = r at hheader
  have hstored : RxKept s { r.2 with main.headerInfo := r.1 } := hheader
  exact hstored.trans (rxKept_buildTxPayload _ _)

/-! ## Interrupts -/

/-- So do the interrupts. -/
theorem rxKept_hbcDataIrq (s : State) : RxKept s (hbcDataIrq s) := by
  have hport (b : Byte) : rxLevels (portWrite b) = [] := rfl
  by_cases hack : s.spi.ackBytes = 0
  · by_cases hreply : s.spi.replyBytes = 0
    · by_cases hdump : s.spi.dumpingMem = 0
      · have hidle : spiPending s = 0 := by
          rw [spiPending, hack, hreply, hdump]
        rw [hbcDataIrq_idle hidle]
        exact RxKept.refl s
      · rw [hbcDataIrq_dump hack hreply hdump, dataDump_eq]
        exact RxKept.of_append rfl (hport _)
    · rw [hbcDataIrq_reply hack hreply]
      exact RxKept.of_append rfl (hport _)
  · rw [hbcDataIrq_ack hack]
    exact RxKept.of_append rfl (hport _)

theorem rxKept_rxData (s : State) (arr : List (List Word)) :
    RxKept s (rxInterrupt rxDataIntFunc arr s) :=
  RxKept.of_out (writerOnly_rxDataIntFunc { s with rxFifo.arrivals := arr }).out

theorem rxKept_rxReady (s : State) (arr : List (List Word)) :
    RxKept s (rxInterrupt rxReadyIntFunc arr s) :=
  RxKept.of_append (rxReadyIntFunc_devices { s with rxFifo.arrivals := arr }).2 rfl

omit [Board] in
theorem rxKept_ledToggle (s : State) : RxKept s (ledToggle s) := by
  unfold ledToggle
  dsimp only
  split
  · exact rxKept_emit (o := .gpo .led1Bit false) rfl s
  · exact rxKept_emit (o := .gpo .led1Bit true) rfl s

variable [HostProtocol]

theorem rxKept_ctrlSwitch (cmd : Cmd) (arg : Word) (s : State) :
    RxKept s (ctrlSwitch cmd arg s) := by
  have hreply {r : Word × State} (h : Quiet s r.2) : RxKept s (reply r) := RxKept.of_out h.out
  have hdevices (h : cmd.usesDevices = true) := ctrlSwitch_devices h arg s
  cases cmd with
  | memTest | flashRead | flashWrite =>
    obtain ⟨r, hr, hcase⟩ := hdevices rfl
    rw [hcase]
    exact hreply hr.quiet
  | hbcRxCheck => exact hreply (quiet_rxCheckPacket s)
  | hbcRxNext => exact RxKept.of_out (quiet_rxPacketNext s).out
  | hbcTxFilter =>
    obtain ⟨level, hcase⟩ := ctrlSwitch_filter arg s
    rw [hcase]
    exact rxKept_emit (o := .gpo .hbcDataSwitch level) rfl s
  | _ => exact RxKept.of_out rfl

theorem rxKept_hbcCtrlIrq (b : Byte) (f : Firmware) : RxKept f.dev (hbcCtrlIrq b f).dev := by
  apply hbcCtrlIrq_keeps (P := RxKept f.dev) _ _ _ _ b (RxKept.refl f.dev)
  · intro s spi mem hs
    exact hs.trans (RxKept.of_out rfl)
  · intro cmd arg s hs
    exact hs.trans (rxKept_ctrlSwitch cmd arg s)
  · intro s hs
    exact hs.trans (rxKept_hbcDataIrq s)
  · intro s hs
    exact hs.trans (rxKept_pulse .hbcCtrlInt (by decide) s)

theorem rxKept_hbcToSpi (forward : Bool) (s : State) : RxKept s (hbcToSpi forward s) := by
  have hready : RxKept s (rxPacketReady s).2 := RxKept.of_out rfl
  apply hbcToSpi_keeps (P := RxKept s) forward hready
  · intro t ht
    exact ht.trans (RxKept.of_out (quiet_rxPacketNext t).out)
  · intro t ht
    exact ht.trans (rxKept_ledToggle t)
  · intro t ht
    rw [forwardPacket_eq]
    exact ht.trans (RxKept.of_append rfl rfl)

/-! ## The main loop -/

/-- The statements that switch the receiver. -/
def Pc.switchesRx : Pc → Bool
  | .trigRxDisable | .trigRxEnable | .autoRxDisable | .autoRxEnable => true
  | _ => false

/-- Of the main loop only the tests of `loopback` do not. -/
theorem rxKept_mainStep {pc : Pc} (hpc : pc.switchesRx = false) (s : State) :
    RxKept s (mainStep pc s).2 := by
  have heffect := mainStep_effect pc s
  generalize (mainStep pc s).2 = s' at heffect ⊢
  cases heffect with
  | vars main => exact RxKept.of_out rfl
  | led => exact rxKept_ledToggle s
  | rxOff hswitch => rcases hswitch with rfl | rfl <;> cases hpc
  | rxOn hswitch => rcases hswitch with rfl | rfl <;> cases hpc
  | trigFrame => exact rxKept_sendFrame (memSetRdP 0 s)
  | autoFrame pktAddr => exact rxKept_sendFrame (autoRead s)
  | forward forward => exact rxKept_hbcToSpi forward s
  | psoc => exact RxKept.of_out (devices_flashRead _ _ _ s).out

/-! ## Runs -/

/-- The statements in front of the main loop. -/
def startUp (s : State) : State := (rxEnable (s.gpoSet .hbcDataSwitch)).gpoClear .led1Bit

/-- The system, with the value of `loopback` that the last `if (!loopback) rx_disable()` found. -/
structure RxWatch where
  sys : Sys
  atDisable : Word

/-- The statements `if (!loopback) rx_disable()`. -/
def Pc.disablesRx (pc : Pc) : Bool := pc = .trigRxDisable || pc = .autoRxDisable

/-- The statements `if (!loopback) rx_enable()`. -/
def Pc.enablesRx (pc : Pc) : Bool := pc = .trigRxEnable || pc = .autoRxEnable

/-- One event, with the value a test to switch off has found. -/
def RxWatch.step (w : RxWatch) (e : Event) : RxWatch where
  sys := w.sys.step e
  atDisable :=
    match e with
    | .main => if w.sys.pc.disablesRx then w.sys.fw.dev.main.loopback else w.atDisable
    | _ => w.atDisable

/-- When a frame's receiver is to be switched on, `loopback` is zero, or it was not zero when it
was to be switched off. -/
def SwitchesBack (w : RxWatch) (e : Event) : Prop :=
  e = .main → w.sys.pc.enablesRx = true → w.sys.fw.dev.main.loopback = 0 ∨ w.atDisable ≠ 0

/-- The statements between the two. -/
def Pc.inFrame : Pc → Bool
  | .trigBuild | .trigSeed | .trigRxEnable | .autoBuild | .autoMask | .autoSeed
  | .autoRxEnable => true
  | _ => false

/-- Outside a frame the receiver is on, and inside it is unless it has been switched off. -/
def RxInv (w : RxWatch) : Prop :=
  receiverOn w.sys.fw.dev ∨ w.sys.pc.inFrame = true ∧ w.atDisable = 0

omit [Board] [HostProtocol] in
theorem Pc.not_inFrame {pc : Pc} (h : pc.disablesRx = true) : pc.inFrame = false := by
  cases pc <;> first | rfl | cases h

omit [Board] [HostProtocol] in
theorem Pc.not_switchesRx {pc : Pc} (hdisables : ¬ pc.disablesRx = true)
    (henables : ¬ pc.enablesRx = true) : pc.switchesRx = false := by
  cases pc <;> first | rfl | exact absurd rfl hdisables | exact absurd rfl henables

/-- The statement behind `pc` is inside the frame if `pc` is and does not end it. -/
theorem inFrame_mainStep {pc : Pc} {s : State} (h : pc.inFrame = true)
    (hends : pc.enablesRx = false) : (mainStep pc s).1.inFrame = true := by
  cases pc with
  | trigBuild | trigSeed | autoBuild | autoMask | autoSeed => rfl
  | trigRxEnable | autoRxEnable => cases hends
  | _ => cases h

/-- What the test in front of a frame does. -/
theorem mainStep_disables {pc : Pc} (h : pc.disablesRx = true) (s : State) :
    (mainStep pc s).2 = (if s.main.loopback = 0 then rxDisable s else s) ∧
      (mainStep pc s).1.inFrame = true := by
  rcases Bool.or_eq_true_iff.mp h with hpc | hpc
  · rw [of_decide_eq_true hpc]
    exact ⟨rfl, rfl⟩
  · rw [of_decide_eq_true hpc]
    exact ⟨rfl, rfl⟩

/-- What the test behind it does. -/
theorem mainStep_enables {pc : Pc} (h : pc.enablesRx = true) (s : State) :
    (mainStep pc s).2 = if s.main.loopback = 0 then rxEnable s else s := by
  rcases Bool.or_eq_true_iff.mp h with hpc | hpc
  · rw [of_decide_eq_true hpc]
    rfl
  · rw [of_decide_eq_true hpc]
    rfl

/-- An interrupt moves neither the main loop nor the receiver line. -/
theorem rxKept_interrupt {y : Sys} {e : Event} (he : e ≠ .main) :
    (y.step e).pc = y.pc ∧ RxKept y.fw.dev (y.step e).fw.dev := by
  by_cases hhang : y.pc = .psocHang
  · rw [Sys.step_hang hhang]
    exact ⟨rfl, RxKept.refl _⟩
  · cases e with
    | main => exact absurd rfl he
    | ctrl b =>
      rw [Sys.step_ctrl hhang]
      exact ⟨rfl, rxKept_hbcCtrlIrq b y.fw⟩
    | data =>
      rw [Sys.step_data hhang]
      exact ⟨rfl, rxKept_hbcDataIrq y.fw.dev⟩
    | rxData arr =>
      rw [Sys.step_rxData hhang]
      exact ⟨rfl, rxKept_rxData y.fw.dev arr⟩
    | rxReady arr =>
      rw [Sys.step_rxReady hhang]
      exact ⟨rfl, rxKept_rxReady y.fw.dev arr⟩

theorem RxWatch.step_interrupt {w : RxWatch} {e : Event} (he : e ≠ .main) :
    w.step e = ⟨w.sys.step e, w.atDisable⟩ := by
  cases e with
  | main => exact absurd rfl he
  | _ => rfl

/-- A statement of the main loop. -/
theorem RxInv.main {w : RxWatch} (h : RxInv w) (hC : SwitchesBack w .main) :
    RxInv (w.step .main) := by
  obtain ⟨hpc, hdev⟩ := Sys.step_main_dev w.sys
  unfold RxInv
  show receiverOn (w.sys.step .main).fw.dev ∨ (w.sys.step .main).pc.inFrame = true
    ∧ (if w.sys.pc.disablesRx then w.sys.fw.dev.main.loopback else w.atDisable) = 0
  rw [hpc, hdev]
  unfold RxInv at h
  generalize hs : w.sys.fw.dev = s at h ⊢
  by_cases hdisables : w.sys.pc.disablesRx = true
  · -- in front of a frame the receiver is on
    have hon : receiverOn s := by
      rcases h with hon | ⟨hin, -⟩
      · exact hon
      · rw [Pc.not_inFrame hdisables] at hin
        cases hin
    have hnext := mainStep_disables hdisables s
    rw [hnext.1, if_pos hdisables]
    by_cases hzero : s.main.loopback = 0
    · exact .inr ⟨hnext.2, hzero⟩
    · rw [if_neg hzero]
      exact .inl hon
  · by_cases henables : w.sys.pc.enablesRx = true
    · left
      rw [mainStep_enables henables]
      by_cases hzero : s.main.loopback = 0
      · rw [if_pos hzero]
        exact receiverOn_rxEnable s
      · rw [if_neg hzero]
        have hback := hC rfl henables
        rw [hs] at hback
        rcases h with hon | ⟨-, hoff⟩
        · exact hon
        · exact absurd hoff (hback.resolve_left hzero)
    · have hquiet := Pc.not_switchesRx hdisables henables
      rw [if_neg hdisables, (rxKept_mainStep hquiet s).on_iff]
      rcases h with hon | ⟨hin, hoff⟩
      · exact .inl hon
      · exact .inr ⟨inFrame_mainStep hin (Bool.eq_false_iff.mpr henables), hoff⟩

/-- A step that switches back what it has switched. -/
theorem RxInv.step {w : RxWatch} {e : Event} (h : RxInv w) (hC : SwitchesBack w e) :
    RxInv (w.step e) := by
  by_cases he : e = .main
  · rw [he] at hC ⊢
    exact h.main hC
  · obtain ⟨hpc, hrx⟩ := rxKept_interrupt (y := w.sys) he
    rw [RxWatch.step_interrupt he]
    unfold RxInv
    dsimp only
    rw [hpc, hrx.on_iff]
    exact h

/-- With `loopback` set the main loop does not switch the receiver. -/
def RxOff (w : RxWatch) : Prop := w.sys.fw.dev.main.loopback ≠ 0 ∧ ¬ receiverOn w.sys.fw.dev

/-- Without interrupts nothing switches the receiver on again. -/
theorem RxOff.step {w : RxWatch} (h : RxOff w) : RxOff (w.step .main) := by
  obtain ⟨hloop, hoff⟩ := h
  obtain ⟨-, hdev⟩ := Sys.step_main_dev w.sys
  obtain ⟨toggle, hmain⟩ := mainStep_main w.sys.pc w.sys.fw.dev
  have hkept : (varsOfMain w.sys.pc w.sys.fw.dev).loopback = w.sys.fw.dev.main.loopback := by
    unfold varsOfMain
    split <;> first | rfl | (split <;> rfl)
  have hrx : RxKept w.sys.fw.dev (mainStep w.sys.pc w.sys.fw.dev).2 := by
    by_cases hdisables : w.sys.pc.disablesRx = true
    · rw [(mainStep_disables hdisables _).1, if_neg hloop]
      exact RxKept.refl _
    · by_cases henables : w.sys.pc.enablesRx = true
      · rw [mainStep_enables henables, if_neg hloop]
        exact RxKept.refl _
      · exact rxKept_mainStep (Pc.not_switchesRx hdisables henables) _
  show (w.sys.step .main).fw.dev.main.loopback ≠ 0 ∧ ¬ receiverOn (w.sys.step .main).fw.dev
  rw [hdev, hrx.on_iff, hmain]
  exact ⟨fun hzero => hloop (hkept.symm.trans hzero), hoff⟩

/-- However long the loop goes on. -/
theorem RxOff.run {w : RxWatch} (h : RxOff w) (n : ℕ) :
    RxOff (Run.run RxWatch.step w (List.replicate n .main)) := by
  apply Run.run_of_step (C := fun _ e => e = .main) _ h
  · exact Run.steps_of_forall fun _ e he => List.eq_of_mem_replicate he
  · intro w e hoff he
    rw [he]
    exact hoff.step

/-- **The receiver is on again.** Whenever the main loop is at its head after the start-up, the
last switch was `rx_enable`, provided `loopback` has not been set inside a frame. -/
theorem receiver_on_at_head {s : State} {evs : List Event}
    (hC : Run.Steps RxWatch.step SwitchesBack ⟨Sys.boot (startUp s), 0⟩ evs) :
    Run.Always RxWatch.step (fun w => w.sys.pc = .sendPacket → receiverOn w.sys.fw.dev)
      ⟨Sys.boot (startUp s), 0⟩ evs := by
  have hstart : RxInv ⟨Sys.boot (startUp s), 0⟩ := by
    left
    have hled : RxKept (rxEnable (s.gpoSet .hbcDataSwitch)) (startUp s) := rxKept_emit rfl _
    exact hled.on_iff.mpr (receiverOn_rxEnable _)
  refine (Run.always_of_step (I := RxInv) (fun _ _ h hstep => h.step hstep) hstart hC).mono ?_
  intro w h hpc
  rcases h with hon | ⟨hin, -⟩
  · exact hon
  · rw [hpc] at hin
    cases hin

end

/-- A command of the host, byte for byte. -/
def sending [HostProtocol] (cmd : Cmd) (arg : Word) : List Event :=
  (Item.command (HostProtocol.code cmd) arg []).encode.map .ctrl

/-- A triggered frame, from the command back to the head. -/
theorem receiver_on_at_head_triggered :
    letI := plainDram
    letI := plainProtocol
    Run.Always RxWatch.step (fun w => w.sys.pc = .sendPacket → receiverOn w.sys.fw.dev)
      ⟨Sys.boot (startUp bootState), 0⟩
      (sending .hbcTxTrigger 0 ++ [.main, .main, .main, .main, .main, .main, .main]) := by
  let := plainDram
  let := plainProtocol
  have hctrl : Run.Steps RxWatch.step SwitchesBack ⟨Sys.boot (startUp bootState), 0⟩
      (sending .hbcTxTrigger 0) := by
    refine Run.steps_of_forall fun w e he hmain => ?_
    obtain ⟨b, -, rfl⟩ := List.mem_map.mp he
    cases hmain
  apply receiver_on_at_head
  refine Run.steps_append.mpr ⟨hctrl, ?_⟩
  refine ⟨?_, ?_, ?_, ?_, ?_, ?_, ?_, trivial⟩ <;> intro _ _ <;> left <;> decide +kernel

/-- A trigger, and `CMD_HBC_TX_LOOPBACK` when the receiver has been switched off. -/
def loopbackInFrame [HostProtocol] : List Event :=
  sending .hbcTxTrigger 0 ++ List.replicate 3 .main ++ sending .hbcTxLoopback 1

/-- The receiver stays off. -/
theorem receiver_off_at_head :
    letI := plainDram
    letI := plainProtocol
    ¬ Run.Always RxWatch.step (fun w => w.sys.pc = .sendPacket → receiverOn w.sys.fw.dev)
      ⟨Sys.boot (startUp bootState), 0⟩ (loopbackInFrame ++ List.replicate 9 .main) := by
  let := plainDram
  let := plainProtocol
  intro h
  have hpre : RxOff (Run.run RxWatch.step ⟨Sys.boot (startUp bootState), 0⟩ loopbackInFrame) := by
    have hloop : (Run.run RxWatch.step ⟨Sys.boot (startUp bootState), 0⟩
        loopbackInFrame).sys.fw.dev.main.loopback ≠ 0 := by decide +kernel
    have hlevel : (rxLevels (Run.run RxWatch.step ⟨Sys.boot (startUp bootState), 0⟩
        loopbackInFrame).sys.fw.dev.out).getLast? ≠ some true := by decide +kernel
    exact ⟨hloop, hlevel⟩
  have hpc : (Run.run RxWatch.step ⟨Sys.boot (startUp bootState), 0⟩
      (loopbackInFrame ++ List.replicate 9 .main)).sys.pc = .sendPacket := by decide +kernel
  -- nine statements lead back to the head, none of them touches the line
  have hoff := hpre.run 9
  have hlast := h.last
  rw [← Run.run_append] at hoff
  generalize Run.run RxWatch.step ⟨Sys.boot (startUp bootState), 0⟩
    (loopbackInFrame ++ List.replicate 9 .main) = w at hpc hoff hlast
  exact hoff.2 (hlast hpc)

end HbcMac
