import HbcMac.DataPort

/-!
# What a command does to the ports

The `switch` of `ctrl_cmd` seen from the port registers and the counters of the main loop:
`SwitchStep` names the commands that set each of them; all others leave it as it is.
-/

namespace HbcMac

/-! ## Quiet functions -/

/-- Nothing but memory, scrambler, flash and the reader has changed. -/
structure Quiet (s s' : State) : Prop where
  spi : s'.spi = s.spi
  main : s'.main = s.main
  out : s'.out = s.out

namespace Quiet

theorem refl (s : State) : Quiet s s := ⟨rfl, rfl, rfl⟩

theorem trans {s t u : State} (h : Quiet s t) (h' : Quiet t u) : Quiet s u :=
  ⟨h'.spi.trans h.spi, h'.main.trans h.main, h'.out.trans h.out⟩

end Quiet

/-- Nor have the variables of the receiver. -/
structure DevicesOnly (s s' : State) : Prop where
  spi : s'.spi = s.spi
  main : s'.main = s.main
  out : s'.out = s.out
  rx : s'.rx = s.rx

namespace DevicesOnly

theorem refl (s : State) : DevicesOnly s s := ⟨rfl, rfl, rfl, rfl⟩

theorem trans {s t u : State} (h : DevicesOnly s t) (h' : DevicesOnly t u) : DevicesOnly s u :=
  ⟨h'.spi.trans h.spi, h'.main.trans h.main, h'.out.trans h.out, h'.rx.trans h.rx⟩

/-- A function that is confined to the devices is quiet. -/
theorem quiet {s t : State} (h : DevicesOnly s t) : Quiet s t := ⟨h.spi, h.main, h.out⟩

end DevicesOnly

/-- A transfer is confined to the chip, and so is everything made of transfers. -/
theorem devices_flashSend (data : Byte) {s t : State} (h : DevicesOnly s t) :
    DevicesOnly s (flashSend data t) := h.trans ⟨rfl, rfl, rfl, rfl⟩

theorem devices_flashStart {s t : State} (h : DevicesOnly s t) : DevicesOnly s (flashStart t) :=
  h.trans ⟨rfl, rfl, rfl, rfl⟩

theorem devices_flashEnd {s t : State} (h : DevicesOnly s t) : DevicesOnly s (flashEnd t) :=
  h.trans ⟨rfl, rfl, rfl, rfl⟩

theorem devices_flashWriteEnable {s t : State} (h : DevicesOnly s t) :
    DevicesOnly s (flashWriteEnable t) :=
  devices_flashEnd (devices_flashSend _ (devices_flashStart h))

theorem devices_flashSendAddr (opcode : Byte) (flashAddr : Word) {s t : State} (h : DevicesOnly s t) :
    DevicesOnly s (flashSendAddr opcode flashAddr t) :=
  devices_flashSend _ (devices_flashSend _ (devices_flashSend _
    (devices_flashSend _ (devices_flashStart h))))

theorem devices_flashReadStatus (s : State) : DevicesOnly s (flashReadStatus s).2 :=
  devices_flashEnd (devices_flashSend 0x00 (devices_flashSend _
    (devices_flashStart (DevicesOnly.refl s))))

/-- A loop does when its rounds do. -/
theorem devices_flashPoll (n : ℕ) (s : State) : DevicesOnly s (flashPoll n s) := by
  induction n generalizing s with
  | zero => exact DevicesOnly.refl s
  | succ n ih =>
    rw [flashPoll]
    split
    · exact (devices_flashReadStatus s).trans (ih _)
    · exact devices_flashReadStatus s

theorem devices_flashWaitIdle {s t : State} (h : DevicesOnly s t) :
    DevicesOnly s (flashWaitIdle t) := by
  rw [flashWaitIdle]
  exact h.trans (devices_flashPoll _ t)

theorem devices_flashSectorErase (num : ℕ) (sector : Word) (s : State) :
    DevicesOnly s (flashSectorErase num sector s) := by
  induction num generalizing sector s with
  | zero => exact DevicesOnly.refl s
  | succ num ih =>
    have hopcode := devices_flashSend flashOpSectorErase
      (devices_flashStart (devices_flashWriteEnable (DevicesOnly.refl s)))
    have hsent := devices_flashSend 0 (devices_flashSend 0
      (devices_flashSend (sector.setWidth 8) hopcode))
    exact (devices_flashWaitIdle (devices_flashEnd hsent)).trans (ih (sector + 1) _)

section
variable [Board]

theorem devices_memRead (s : State) : DevicesOnly s (memRead s).2 := ⟨rfl, rfl, rfl, rfl⟩

theorem devices_memWrite (data : Word) {s t : State} (h : DevicesOnly s t) :
    DevicesOnly s (memWrite data t) :=
  h.trans ⟨rfl, rfl, rfl, rfl⟩

omit [Board] in
theorem devices_flashTransferWord (s : State) : DevicesOnly s (flashTransferWord s).2 :=
  devices_flashSend 0x00 (devices_flashSend 0x00 (devices_flashSend 0x00 (devices_flashSend 0x00
    (DevicesOnly.refl s))))

theorem devices_flashReadWords (n : ℕ) (s : State) : DevicesOnly s (flashReadWords n s) := by
  induction n generalizing s with
  | zero => exact DevicesOnly.refl s
  | succ n ih => exact (devices_memWrite _ (devices_flashTransferWord s)).trans (ih _)

/-- `flash_read` reaches the memory too, another device. -/
theorem devices_flashRead (memAddr size flashAddr : Word) (s : State) :
    DevicesOnly s (flashRead memAddr size flashAddr s) := by
  have hseek : DevicesOnly s (memSetWrP memAddr s) := ⟨rfl, rfl, rfl, rfl⟩
  have hsent := devices_flashSendAddr flashOpReadData flashAddr hseek
  exact devices_flashEnd (hsent.trans (devices_flashReadWords (size.toNat / 4) _))

theorem devices_flashVerifyWords (n : ℕ) (retval : Word) (s : State) :
    DevicesOnly s (flashVerifyWords n retval s).2 := by
  induction n generalizing retval s with
  | zero => exact DevicesOnly.refl s
  | succ n ih =>
    exact ((devices_flashTransferWord s).trans (devices_memRead _)).trans (ih _ _)

/-- So does `flash_verify`. -/
theorem devices_flashVerify (memAddr size flashAddr : Word) (s : State) :
    DevicesOnly s (flashVerify memAddr size flashAddr s).2 := by
  have hseek : DevicesOnly s (memSetRdP memAddr s) := ⟨rfl, rfl, rfl, rfl⟩
  have hsent := devices_flashSendAddr flashOpReadData flashAddr hseek
  exact devices_flashEnd (hsent.trans (devices_flashVerifyWords (size.toNat / 4) 0 _))

theorem devices_flashPageWords (n : ℕ) (s : State) : DevicesOnly s (flashPageWords n s) := by
  induction n generalizing s with
  | zero => exact DevicesOnly.refl s
  | succ n ih =>
    have hword := devices_flashSend ((memRead s).1.setWidth 8) (devices_memRead s)
    have hsent := devices_flashSend ((memRead s).1 >>> 24 |>.setWidth 8) (devices_flashSend
      ((memRead s).1 >>> 16 |>.setWidth 8)
      (devices_flashSend ((memRead s).1 >>> 8 |>.setWidth 8) hword))
    exact hsent.trans (ih _)

theorem devices_flashProgramPages (pages : ℕ) (page : Word) (s : State) :
    DevicesOnly s (flashProgramPages pages page s) := by
  induction pages generalizing page s with
  | zero => exact DevicesOnly.refl s
  | succ pages ih =>
    have hopcode := devices_flashSend flashOpPageProgram
      (devices_flashStart (devices_flashWriteEnable (DevicesOnly.refl s)))
    have haddr := devices_flashSend 0 (devices_flashSend (page.setWidth 8)
      (devices_flashSend ((page >>> 8).setWidth 8) hopcode))
    have hpage (n : ℕ) := devices_flashEnd (haddr.trans (devices_flashPageWords n _))
    rw [flashProgramPages]
    generalize pageSize / 4 = n
    exact (devices_flashWaitIdle (hpage n)).trans (ih (page + 1) _)

/-- `flash_write` erases and programs. -/
theorem devices_flashWrite (memAddr size flashAddr : Word) (s : State) :
    DevicesOnly s (flashWrite memAddr size flashAddr s) := by
  have herase := devices_flashSectorErase (flashNumSectors size).toNat (flashMemToSector flashAddr) s
  have hseek (t : State) : DevicesOnly t (memSetRdP memAddr t) := ⟨rfl, rfl, rfl, rfl⟩
  exact (herase.trans (hseek _)).trans (devices_flashProgramPages _ _ _)

theorem devices_memTestWrite (n : ℕ) (s : State) : DevicesOnly s (memTestWrite n s) := by
  induction n generalizing s with
  | zero => exact DevicesOnly.refl s
  | succ n ih =>
    rw [memTestWrite]
    refine DevicesOnly.trans ?_ (ih _)
    exact ⟨rfl, rfl, rfl, rfl⟩

theorem devices_memTestRead (n : ℕ) (errors : Word) (s : State) :
    DevicesOnly s (memTestRead n errors s).2 := by
  induction n generalizing errors s with
  | zero => exact DevicesOnly.refl s
  | succ n ih =>
    rw [memTestRead]
    refine DevicesOnly.trans ?_ (ih _ _)
    exact ⟨rfl, rfl, rfl, rfl⟩

/-- `mem_test` uses memory and scrambler. -/
theorem devices_memTest (bytes : Word) (s : State) : DevicesOnly s (memTest bytes s).2 := by
  have hwrite := devices_memTestWrite (bytes.toNat / 4)
    (scramblerReseed 0 (memSetWrP 0 (memSetFlags 0 s)))
  have hread := devices_memTestRead (bytes.toNat / 4) 0
    (scramblerReseed 0 (memSetWrP 0 (memSetRdP 0 (memTestWrite (bytes.toNat / 4)
      (scramblerReseed 0 (memSetWrP 0 (memSetFlags 0 s)))))))
  exact ⟨hread.spi.trans hwrite.spi, hread.main.trans hwrite.main, hread.out.trans hwrite.out,
    hread.rx.trans hwrite.rx⟩

/-- A look at a packet changes the cached headers only. -/
theorem quiet_rxPacketReady (s : State) : Quiet s (rxPacketReady s).2 := ⟨rfl, rfl, rfl⟩

/-- A read moves the cursor. -/
theorem quiet_rxRead (s : State) : Quiet s (rxRead s).2 := ⟨rfl, rfl, rfl⟩

omit [Board] in
/-- Dropping a packet moves the reader on. -/
theorem quiet_rxPacketNext (s : State) : Quiet s (rxPacketNext s) := by
  unfold rxPacketNext
  split
  · exact Quiet.refl s
  · exact ⟨rfl, rfl, rfl⟩

/-- The comparison reads and counts. -/
theorem quiet_rxCheckLoop (bytes : ℕ) (correct chk data : Word) (s : State) :
    Quiet s (rxCheckLoop bytes correct chk data s).2 := by
  induction bytes generalizing correct chk data s with
  | zero => exact Quiet.refl s
  | succ bytes ih =>
    rw [rxCheckLoop]
    dsimp only
    split
    · refine Quiet.trans ?_ (ih _ _ _ _)
      exact ⟨rfl, rfl, rfl⟩
    · exact ih _ _ _ s

/-- Altogether `rx_check_packet` touches memory and reader. -/
theorem quiet_rxCheckPacket (s : State) : Quiet s (rxCheckPacket s).2 := by
  have hready := quiet_rxPacketReady s
  unfold rxCheckPacket
  dsimp only
  split
  · exact hready
  · split
    · exact hready.trans (quiet_rxPacketNext _)
    · split
      · exact hready.trans (quiet_rxPacketNext _)
      · refine Quiet.trans ?_ (quiet_rxPacketNext _)
        refine Quiet.trans ?_ (quiet_rxCheckLoop _ _ _ _ _)
        have hskip := (hready.trans (quiet_rxRead _)).trans (quiet_rxRead _)
        have hseek : Quiet s (memSetRdP 0 (rxRead (rxRead (rxPacketReady s).2).2).2) :=
          hskip.trans ⟨rfl, rfl, rfl⟩
        exact (hseek.trans (devices_memRead _).quiet).trans (quiet_rxRead _)

/-! ## The switch -/

/-- The commands that answer with four bytes. -/
def Cmd.replies : Cmd → Bool
  | .irqStatusRead | .scramblerRead | .memRead | .memTest | .flashRead | .flashWrite
  | .hbcRxReady | .hbcRxLength | .hbcRxBytesRead | .hbcRxCrcOk | .hbcRxRead | .hbcRxCheck
  | .hbcRxGetRdAddr | .hbcRxGetWrAddr => true
  | _ => false

/-- The registers a command sets. -/
structure SwitchStep (cmd : Cmd) (arg : Word) (s s' : State) : Prop where
  ack : s'.spi.ackBytes = s.spi.ackBytes ∧ s'.spi.ackData = s.spi.ackData
  replyBytes : s'.spi.replyBytes = if cmd.replies then 4 else s.spi.replyBytes
  replySize : s'.spi.replySize = if cmd.replies then 4 else s.spi.replySize
  replyData : cmd.replies = false → s'.spi.replyData = s.spi.replyData
  dumpingMem : s'.spi.dumpingMem = if cmd = .memDump then arg.toNat else s.spi.dumpingMem
  loadingMem : s'.spi.loadingMem = if cmd.loads then arg.toNat else s.spi.loadingMem
  txPending : s'.main.txPending
    = if cmd = .hbcTxPacket then s.main.txPending + 1 else s.main.txPending
  data : dataBytes s'.out = dataBytes s.out

omit [Board] in
/-- Four bytes of reply on top of a quiet function. -/
theorem switchStep_reply {cmd : Cmd} {arg : Word} {s : State} {r : Word × State}
    (h : Quiet s r.2) (hreplies : cmd.replies = true) (hloads : cmd.loads = false)
    (hdump : cmd ≠ .memDump) (hpacket : cmd ≠ .hbcTxPacket) : SwitchStep cmd arg s (reply r) where
  ack := by rw [reply, hbcSpiReply, h.spi]; exact ⟨rfl, rfl⟩
  replyBytes := by rw [hreplies, if_pos rfl]; rfl
  replySize := by rw [hreplies, if_pos rfl]; rfl
  replyData := fun h0 => absurd hreplies (by rw [h0]; decide)
  dumpingMem := by rw [if_neg hdump, reply, hbcSpiReply, h.spi]
  loadingMem := by rw [hloads, reply, hbcSpiReply, h.spi]; rfl
  txPending := by rw [if_neg hpacket, reply, hbcSpiReply, h.main]
  data := by rw [reply, hbcSpiReply, h.out]

variable [HostProtocol]

/-- The commands that run the memory test or the flash chip. -/
def Cmd.usesDevices : Cmd → Bool
  | .memTest | .flashRead | .flashWrite => true
  | _ => false

/-- The commands that use the devices reply with what these return. -/
theorem ctrlSwitch_devices {cmd : Cmd} (h : cmd.usesDevices = true) (arg : Word) (s : State) :
    ∃ r, DevicesOnly s r.2 ∧ ctrlSwitch cmd arg s = reply r := by
  cases cmd with
  | memTest =>
    exact ⟨((memTest memSize s).1.setWidth 32, (memTest memSize s).2), devices_memTest memSize s, rfl⟩
  | flashRead =>
    exact ⟨((HostProtocol.code .flashRead).setWidth 32, flashRead 0 flashSize 0 s),
      devices_flashRead 0 flashSize 0 s, rfl⟩
  | flashWrite =>
    have hwrite := devices_flashWrite 0 arg s.main.flashAddr s
    unfold ctrlSwitch
    dsimp only
    generalize flashWrite 0 arg s.main.flashAddr s = t at hwrite
    exact ⟨flashVerify 0 arg t.main.flashAddr t, hwrite.trans (devices_flashVerify _ _ _ _), rfl⟩
  | _ => cases h

/-- `CMD_HBC_TX_FILTER` sets one line. -/
theorem ctrlSwitch_filter (arg : Word) (s : State) :
    ∃ level, ctrlSwitch .hbcTxFilter arg s = s.emit (.gpo .hbcDataSwitch level) := by
  unfold ctrlSwitch
  dsimp only
  split
  · exact ⟨false, rfl⟩
  · exact ⟨true, rfl⟩

/-- Every command is one of these cases. -/
theorem switchStep_ctrlSwitch (cmd : Cmd) (arg : Word) (s : State) :
    SwitchStep cmd arg s (ctrlSwitch cmd arg s) := by
  have hset (line : Gpo) (level : Bool) :
      dataBytes (s.out ++ [Out.gpo line level]) = dataBytes s.out :=
    (dataBytes_append _ _).trans (List.append_nil _)
  have hdevices (h : cmd.usesDevices = true) := ctrlSwitch_devices h arg s
  cases cmd with
  | irqStatusRead => exact switchStep_reply (Quiet.refl s) rfl rfl nofun nofun
  | scramblerRead => exact switchStep_reply ⟨rfl, rfl, rfl⟩ rfl rfl nofun nofun
  | memRead => exact switchStep_reply ⟨rfl, rfl, rfl⟩ rfl rfl nofun nofun
  | memTest | flashRead | flashWrite =>
    obtain ⟨r, hr, hcase⟩ := hdevices rfl
    rw [hcase]
    exact switchStep_reply hr.quiet rfl rfl nofun nofun
  | hbcRxReady => exact switchStep_reply (quiet_rxPacketReady s) rfl rfl nofun nofun
  | hbcRxLength => exact switchStep_reply (Quiet.refl s) rfl rfl nofun nofun
  | hbcRxBytesRead => exact switchStep_reply (Quiet.refl s) rfl rfl nofun nofun
  | hbcRxCrcOk => exact switchStep_reply (Quiet.refl s) rfl rfl nofun nofun
  | hbcRxRead => exact switchStep_reply (quiet_rxRead s) rfl rfl nofun nofun
  | hbcRxCheck => exact switchStep_reply (quiet_rxCheckPacket s) rfl rfl nofun nofun
  | hbcRxGetRdAddr => exact switchStep_reply (Quiet.refl s) rfl rfl nofun nofun
  | hbcRxGetWrAddr => exact switchStep_reply (Quiet.refl s) rfl rfl nofun nofun
  | hbcRxNext =>
    have hq := quiet_rxPacketNext s
    have hs : ctrlSwitch .hbcRxNext arg s = rxPacketNext s := rfl
    rw [hs]
    refine ⟨?_, ?_, ?_, ?_, ?_, ?_, ?_, ?_⟩
    · rw [hq.spi]
      exact ⟨rfl, rfl⟩
    · rw [hq.spi]
      rfl
    · rw [hq.spi]
      rfl
    · intro _
      rw [hq.spi]
    · rw [hq.spi]
      rfl
    · rw [hq.spi]
      rfl
    · rw [hq.main]
      rfl
    · rw [hq.out]
  | hbcTxFilter =>
    obtain ⟨level, hcase⟩ := ctrlSwitch_filter arg s
    rw [hcase]
    exact ⟨⟨rfl, rfl⟩, rfl, rfl, fun _ => rfl, rfl, rfl, rfl, hset _ _⟩
  | memRdAddr | memWrAddr | memDump | memLoad | flashWriteAddr | psocFlash | hbcTxTrigger
  | hbcTxSpreadFactor | hbcTxScramblerSeed | hbcTxAuto | hbcTxAddr | hbcTxPacket | hbcTxLoopback
  | hbcTxFlood | hbcRxAuto | hbcRxFlood =>
    exact ⟨⟨rfl, rfl⟩, rfl, rfl, fun _ => rfl, rfl, rfl, rfl, rfl⟩

/-! ## The whole command -/

/-- The registers a command leaves for the trigger: an acknowledge frame, unless it is
`CMD_HBC_TX_PACKET`, in front of what the `switch` has set. -/
def registered (cmd : Byte) (arg : Word) (s : State) : State :=
  let s := (decodeCmd cmd).elim s fun c => ctrlSwitch c arg s
  if decodeCmd cmd = some .hbcTxPacket then s
  else replyPkt ((doAck (decodeCmd cmd)).setWidth 8) 0 s

/-- Beside what the `switch` does, the acknowledge registers. -/
theorem registered_ack (cmd : Byte) (arg : Word) (s : State) :
    ∃ n d, registered cmd arg s = { (decodeCmd cmd).elim s fun c => ctrlSwitch c arg s with
      spi.ackBytes := n
      spi.ackData := d } := by
  unfold registered
  dsimp only
  split
  · exact ⟨_, _, rfl⟩
  · exact ⟨_, _, rfl⟩

omit [Board] in
/-- Only a packet for transmission is not acknowledged. -/
theorem doAck_ne_noAck (cmd : Option Cmd) :
    doAck cmd ≠ HostProtocol.noAck ↔ cmd ≠ some .hbcTxPacket := by
  cases cmd with
  | none => exact iff_of_true HostProtocol.psocAck_ne_noAck nofun
  | some c =>
    cases c with
    | hbcTxPacket => exact iff_of_false (not_not.mpr rfl) (not_not.mpr rfl)
    | _ => exact iff_of_true HostProtocol.hbcAck_ne_noAck nofun

/-- A command registers what it has to say and pulls the trigger. -/
theorem execCmd_eq (cmd : Byte) (arg : Word) (s : State) :
    execCmd cmd arg s = hbcDataIrq (registered cmd arg s) := by
  unfold execCmd registered hbcSpiDataTrigger
  by_cases h : decodeCmd cmd = some .hbcTxPacket
  · have hno : ¬ doAck (decodeCmd cmd) ≠ HostProtocol.noAck :=
      fun h0 => (doAck_ne_noAck _).mp h0 h
    simp only [if_neg hno, if_pos h]
  · simp only [if_pos ((doAck_ne_noAck _).mpr h), if_neg h]

/-- The port registers after an acknowledged command: those of the `switch`, with the frame. -/
theorem execCmd_spi {cmd : Cmd} (h : cmd ≠ .hbcTxPacket) (arg : Word) (s : State) :
    (execCmd (HostProtocol.code cmd) arg s).spi = { (ctrlSwitch cmd arg s).spi with
      ackBytes := 3
      ackData := replyFrame ((doAck (some cmd)).setWidth 8) 0 } := by
  have hcase : ¬ (some cmd = some .hbcTxPacket) := fun heq => h (Option.some.inj heq)
  have hack : (4 : ℕ) ≠ 0 := by decide
  rw [execCmd_eq, registered, decodeCmd_code, if_neg hcase]
  exact congrArg State.spi (hbcDataIrq_ack hack)

/-- `loading_mem` after a command: only the loading commands set it. -/
theorem execCmd_loadingMem (cmd : Byte) (arg : Word) (s : State) :
    (execCmd cmd arg s).spi.loadingMem
      = if (decodeCmd cmd).any Cmd.loads then arg.toNat else s.spi.loadingMem := by
  obtain ⟨-, -, -, -, hload⟩ := readerStep_hbcDataIrq (registered cmd arg s)
  rw [execCmd_eq, hload]
  have hack : (registered cmd arg s).spi.loadingMem
      = ((decodeCmd cmd).elim s fun c => ctrlSwitch c arg s).spi.loadingMem := by
    obtain ⟨n, d, hreg⟩ := registered_ack cmd arg s
    rw [hreg]
  rw [hack]
  cases decodeCmd cmd with
  | none => rfl
  | some c => exact (switchStep_ctrlSwitch c arg s).loadingMem

/-- `tx_pending` after a command. -/
theorem execCmd_txPending (cmd : Byte) (arg : Word) (s : State) :
    (execCmd cmd arg s).main.txPending
      = if decodeCmd cmd = some .hbcTxPacket then s.main.txPending + 1 else s.main.txPending := by
  obtain ⟨-, hmain, -⟩ := readerStep_hbcDataIrq (registered cmd arg s)
  rw [execCmd_eq, hmain]
  have hack : (registered cmd arg s).main
      = ((decodeCmd cmd).elim s fun c => ctrlSwitch c arg s).main := by
    obtain ⟨n, d, hreg⟩ := registered_ack cmd arg s
    rw [hreg]
  rw [hack]
  cases decodeCmd cmd with
  | none => rfl
  | some c =>
    refine (switchStep_ctrlSwitch c arg s).txPending.trans ?_
    simp only [Option.some.injEq]

end

end HbcMac
