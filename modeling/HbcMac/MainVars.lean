import HbcMac.Deframe
import HbcMac.MainLoop

/-!
# Who sets the variables of the main loop

The static variables of `main.c` are set by the accepted commands and by the main loop; the
data port and the receive handlers leave them alone. `varsOfCmd` and `varsOfMain` say what
each of the two does to them, and `Sys.step_main_vars` that nothing else does.
-/

namespace HbcMac

/-! ## Commands -/

/-- The variables after a command. -/
def varsOfCmd (cmd : Cmd) (arg : Word) (m : MainVars) : MainVars :=
  match cmd with
  | .flashWriteAddr => { m with flashAddr := arg }
  | .psocFlash => { m with doPsocFlash := 1 }
  | .hbcTxTrigger => { m with headerInfo.pdsuLength := arg.setWidth 8, sendPacket := 1 }
  | .hbcTxSpreadFactor => { m with headerInfo.dataRate := arg }
  | .hbcTxScramblerSeed => { m with headerInfo.scramblerSeed := arg }
  | .hbcTxAuto => { m with txAuto := arg }
  | .hbcTxAddr => { m with pktAddr := arg }
  | .hbcTxPacket => { m with txPending := m.txPending + 1 }
  | .hbcTxLoopback => { m with loopback := arg }
  | .hbcTxFlood => { m with txFlood := arg }
  | .hbcRxAuto => { m with rxAuto := arg }
  | .hbcRxFlood => { m with rxFlood := arg }
  | _ => m

section
variable [Board] [HostProtocol]

/-- The `case` an accepted packet selects, if there is one for it. -/
def acceptedCase (b : Byte) (f : Firmware) : Option (Cmd × Word) :=
  (acceptedCmd b f).bind fun r => (decodeCmd r.1).map fun c => (c, r.2)

/-- The command an event makes the firmware execute. -/
def Sys.command (y : Sys) (e : Event) : Option (Cmd × Word) :=
  match e with
  | .ctrl b => if y.interruptible then acceptedCase b y.fw else none
  | _ => none

/-- The variables after the command, if there is one. -/
def varsOfCommand (r : Option (Cmd × Word)) (m : MainVars) : MainVars :=
  r.elim m fun r => varsOfCmd r.1 r.2 m

/-- What a command does to the variables. -/
theorem ctrlSwitch_main (cmd : Cmd) (arg : Word) (s : State) :
    (ctrlSwitch cmd arg s).main = varsOfCmd cmd arg s.main := by
  have hreply {r : Word × State} (h : Quiet s r.2) : (reply r).main = s.main := h.main
  have hdevices (h : cmd.usesDevices = true) := ctrlSwitch_devices h arg s
  cases cmd with
  | memTest | flashRead | flashWrite =>
    obtain ⟨r, hr, hcase⟩ := hdevices rfl
    rw [hcase]
    exact hreply hr.quiet
  | hbcRxCheck => exact hreply (quiet_rxCheckPacket s)
  | hbcRxNext => exact (quiet_rxPacketNext s).main
  | hbcTxFilter =>
    obtain ⟨level, hcase⟩ := ctrlSwitch_filter arg s
    rw [hcase]
    rfl
  | _ => rfl

/-- Acknowledge and trigger do nothing to them. -/
theorem execCmd_main (cmd : Byte) (arg : Word) (s : State) :
    (execCmd cmd arg s).main = varsOfCommand ((decodeCmd cmd).map fun c => (c, arg)) s.main := by
  -- the trigger leaves the variables alone
  obtain ⟨-, hmain, -⟩ := readerStep_hbcDataIrq (registered cmd arg s)
  have hack : (registered cmd arg s).main
      = ((decodeCmd cmd).elim s fun c => ctrlSwitch c arg s).main := by
    obtain ⟨n, d, hack⟩ := registered_ack cmd arg s
    rw [hack]
  rw [execCmd_eq, hmain, hack]
  cases decodeCmd cmd with
  | none => rfl
  | some c => exact ctrlSwitch_main c arg s

/-- What a byte of the control port does to the device. -/
theorem hbcCtrlIrq_dev (b : Byte) (f : Firmware) : (hbcCtrlIrq b f).dev
    = ctrlReqNext ((acceptedCmd b f).elim
        (if f.dev.spi.loadingMem ≠ 0 then loadByte b f.dev else f.dev)
        fun r => execCmd r.1 r.2 f.dev) := by
  by_cases hload : f.dev.spi.loadingMem = 0
  · obtain ⟨hirq, haccept⟩ := hbcCtrlIrq_push (b := b) (p := f.parser) hload
    rw [hirq, haccept, if_neg (not_not.mpr hload)]
  · obtain ⟨hirq, haccept⟩ := hbcCtrlIrq_load (b := b) (p := f.parser) hload
    rw [hirq, haccept, if_pos hload]
    rfl

/-- What the port registers, the memory, the `switch` and the data interrupt leave true, a byte of
the control port leaves true. -/
theorem hbcCtrlIrq_keeps {P : State → Prop}
    (hport : ∀ s spi mem, P s → P { s with spi := spi, mem := mem })
    (hswitch : ∀ cmd arg s, P s → P (ctrlSwitch cmd arg s))
    (hdata : ∀ s, P s → P (hbcDataIrq s)) (hnext : ∀ s, P s → P (ctrlReqNext s))
    (b : Byte) {f : Firmware} (h : P f.dev) : P (hbcCtrlIrq b f).dev := by
  rw [hbcCtrlIrq_dev]
  apply hnext
  cases acceptedCmd b f with
  | none =>
    show P (ite _ _ _)
    split
    · obtain ⟨spi, mem, hframe⟩ := loadByte_frame b f.dev
      rw [hframe]
      exact hport _ _ _ h
    · exact h
  | some r =>
    obtain ⟨cmd, arg⟩ := r
    have hcase : P ((decodeCmd cmd).elim f.dev fun c => ctrlSwitch c arg f.dev) := by
      cases decodeCmd cmd with
      | none => exact h
      | some c => exact hswitch c arg _ h
    obtain ⟨n, d, hack⟩ := registered_ack cmd arg f.dev
    show P (execCmd cmd arg f.dev)
    rw [execCmd_eq, hack]
    exact hdata _ (hport _ _ _ hcase)

/-- A byte does nothing to them unless it completes a command. -/
theorem hbcCtrlIrq_main (b : Byte) (f : Firmware) :
    (hbcCtrlIrq b f).dev.main = varsOfCommand (acceptedCase b f) f.dev.main := by
  have hnext (s : State) : (ctrlReqNext s).main = s.main := rfl
  rw [hbcCtrlIrq_dev, hnext, acceptedCase]
  cases acceptedCmd b f with
  | none =>
    show (ite _ _ _ : State).main = f.dev.main
    split
    · exact loadByte_main b f.dev
    · rfl
  | some r => exact execCmd_main r.1 r.2 f.dev

/-! ## The main loop -/

/-- The header after the frame has been built: the checksum is kept. -/
def PlcpHeader.built (h : PlcpHeader) : PlcpHeader := { h with crc8 := HbcMac.crc8 (headerBits h) }

/-- The variables after a step of the main loop, but for the state of the LED. -/
def varsOfMain (pc : Pc) (s : State) : MainVars :=
  match pc with
  | .trigBuild => { s.main with headerInfo := s.main.headerInfo.built }
  | .autoBuild =>
    { s.main with
      headerInfo := (autoHeader s).built
      pktAddr := s.main.pktAddr + ((autoHeader s).pdsuLength / 4).setWidth 32 * 4 + 4 }
  | .trigSeed | .autoSeed =>
    { s.main with headerInfo.scramblerSeed :=
        if s.main.headerInfo.scramblerSeed = 0 then 1 else 0 }
  | .trigFlood =>
    if s.main.txFlood ≠ 0 then { s.main with txFlood := s.main.txFlood - 1 } else s.main
  | .trigClear => { s.main with sendPacket := 0 }
  | .autoMask => { s.main with pktAddr := s.main.pktAddr &&& memTxMask }
  | .autoDone => { s.main with txPending := s.main.txPending - 1 }
  | _ => s.main

omit [HostProtocol] in
/-- A frame stores its checksum. -/
theorem sendFrame_main (s : State) :
    (sendFrame s).2.main = { s.main with headerInfo := s.main.headerInfo.built } := by
  obtain ⟨new, f, heq, -, -⟩ := sendFrame_eq s
  rw [heq]
  rfl

omit [Board] [HostProtocol] in
/-- The LED has a variable of its own. -/
theorem ledToggle_main (s : State) :
    (ledToggle s).main = { s.main with toggle := !s.main.toggle } := by
  unfold ledToggle
  dsimp only
  split <;> rfl

/-- The forwarder changes no other. -/
theorem hbcToSpi_main (forward : Bool) (s : State) :
    ∃ toggle, (hbcToSpi forward s).main = { s.main with toggle := toggle } := by
  apply hbcToSpi_keeps (P := fun t => ∃ toggle, t.main = { s.main with toggle := toggle }) forward
    ⟨_, rfl⟩
  · intro t ht
    rw [(quiet_rxPacketNext t).main]
    exact ht
  · rintro t ⟨toggle, ht⟩
    rw [ledToggle_main, ht]
    exact ⟨_, rfl⟩
  · intro t ht
    rw [forwardPacket_eq]
    exact ht

/-- The variables after a step of the main loop. -/
theorem mainStep_main (pc : Pc) (s : State) :
    ∃ toggle, (mainStep pc s).2.main = { varsOfMain pc s with toggle := toggle } := by
  cases pc with
  | trigLed | autoLed => exact ⟨_, ledToggle_main s⟩
  | trigRxDisable | autoRxDisable | trigRxEnable | autoRxEnable | trigFlood =>
    simp only [mainStep, varsOfMain]
    split <;> exact ⟨_, rfl⟩
  | trigBuild => exact ⟨_, sendFrame_main (memSetRdP 0 s)⟩
  | autoBuild =>
    show ∃ toggle, (autoBuild s).main = _
    have hsend := sendFrame_main (autoRead s)
    rw [autoBuild_eq]
    refine ⟨s.main.toggle, ?_⟩
    dsimp only
    rw [hsend]
    rfl
  | rxCall forward => exact hbcToSpi_main forward s
  | psocCall => exact ⟨_, (devices_flashRead _ _ _ s).main⟩
  | sendPacket | txFlood | trigSeed | trigClear | txAuto | pendingMany | pendingOne | loadBusy
  | autoMask | autoSeed | autoDone | rxFlood | rxAuto | dumpBusy | rxForward | psocFlash
  | psocHang => exact ⟨_, rfl⟩

/-! ## Any step -/

/-- The variables after a step of the system, but for the state of the LED. -/
def Sys.varsAfter (y : Sys) (e : Event) : MainVars :=
  match e with
  | .main => varsOfMain y.pc y.fw.dev
  | _ => varsOfCommand (y.command e) y.fw.dev.main

/-- An interrupt does not move the main loop. -/
theorem Sys.step_pc {y : Sys} {e : Event} (he : e ≠ .main) : (y.step e).pc = y.pc := by
  by_cases h : y.pc = .psocHang
  · rw [step_hang h]
  · cases e with
    | main => exact absurd rfl he
    | ctrl b => rw [step_ctrl h]
    | data => rw [step_data h]
    | rxData arr => rw [step_rxData h]
    | rxReady arr => rw [step_rxReady h]

/-- And it sends no frame. -/
theorem Sys.step_frames {y : Sys} {e : Event} (he : e ≠ .main) : (y.step e).frames = y.frames := by
  by_cases h : y.pc = .psocHang
  · rw [step_hang h]
  · cases e with
    | main => exact absurd rfl he
    | ctrl b => rw [step_ctrl h]
    | data => rw [step_data h]
    | rxData arr => rw [step_rxData h]
    | rxReady arr => rw [step_rxReady h]

/-- A step of the main loop, the endless loop included. -/
theorem Sys.step_main_dev (y : Sys) : (y.step .main).pc = (mainStep y.pc y.fw.dev).1
    ∧ (y.step .main).fw.dev = (mainStep y.pc y.fw.dev).2 := by
  by_cases h : y.pc = .psocHang
  · rw [step_hang h, h]
    exact ⟨rfl, rfl⟩
  · rw [step_main h]
    exact ⟨rfl, rfl⟩

omit [Board] in
/-- The command of a byte, while the loop runs. -/
theorem Sys.command_ctrl {y : Sys} (h : y.pc ≠ .psocHang) (b : Byte) :
    y.command (.ctrl b) = acceptedCase b y.fw := if_pos (decide_eq_true h)

omit [Board] in
/-- At the end of `main` the interrupts are off for good. -/
theorem Sys.command_hang {y : Sys} (h : y.pc = .psocHang) (e : Event) : y.command e = none := by
  cases e with
  | ctrl b =>
    apply if_neg
    rw [interruptible, h]
    decide
  | _ => rfl

/-- What any step does to the variables. -/
theorem Sys.step_main_vars (y : Sys) (e : Event) :
    ∃ toggle, (y.step e).fw.dev.main = { y.varsAfter e with toggle := toggle } := by
  by_cases h : y.pc = .psocHang
  · have hvars : y.varsAfter e = y.fw.dev.main := by
      cases e with
      | main =>
        unfold varsAfter
        rw [h]
        rfl
      | _ =>
        unfold varsAfter
        dsimp only
        rw [command_hang h]
        rfl
    rw [step_hang h, hvars]
    exact ⟨_, rfl⟩
  · cases e with
    | main =>
      rw [step_main h]
      exact mainStep_main y.pc y.fw.dev
    | ctrl b =>
      have hvars : y.varsAfter (.ctrl b) = varsOfCommand (acceptedCase b y.fw) y.fw.dev.main := by
        rw [← command_ctrl h]
        rfl
      rw [step_ctrl h, hvars]
      exact ⟨_, hbcCtrlIrq_main b y.fw⟩
    | data =>
      rw [step_data h]
      exact ⟨_, (readerStep_hbcDataIrq y.fw.dev).2.1⟩
    | rxData arr =>
      rw [step_rxData h]
      exact ⟨_, (writerStep_rxData y.fw.dev arr).main⟩
    | rxReady arr =>
      rw [step_rxReady h]
      exact ⟨_, (writerStep_rxReady y.fw.dev arr).main⟩

end

end HbcMac
