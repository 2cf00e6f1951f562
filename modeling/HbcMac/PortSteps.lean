import HbcMac.Deframe
import HbcMac.Dumps

/-!
# What a step does to the data port

Three things can happen: nothing; the next pending byte is written, on a data interrupt or
because `CMD_HBC_TX_PACKET` pulls the trigger; or a message is registered and its first byte
written, by an acknowledged command or by the forwarder.
-/

namespace HbcMac

/-! ## Messages -/

/-- What is registered for the host at one time: a frame of four bytes, with the reply or
the dump that follows it. -/
structure Msg where
  frame : Word
  reply : Option Word
  dump : Option Dump

section
variable [Board] [HostProtocol]

/-- The message of a command. -/
def commandMsg (cmd : Byte) (arg : Word) (s : State) : Msg where
  frame := replyFrame ((doAck (decodeCmd cmd)).setWidth 8) 0
  reply := (decodeCmd cmd).bind fun c =>
    if c.replies then some (ctrlSwitch c arg s).spi.replyData else none
  dump := if decodeCmd cmd = some .memDump then some ⟨false, s.spi.dumpAddr, arg.toNat⟩ else none

/-- The message about the packet at the read cursor. Its dump starts behind the marker. -/
def packetMsg (s : State) : Msg where
  frame := replyFrame HostProtocol.rxPacket (rxPacketLength (rxPacketReady s).2)
  reply := none
  dump := some ⟨true, ringNext s.rx.rdPacketAddr,
    (rxPacketLength (rxPacketReady s).2).toNat + hbcHeaderSize + rxPad⟩

omit [HostProtocol] in
/-- `hbc_to_spi` finds a packet it has to forward. -/
def forwards (s : State) : Bool :=
  (rxPacketReady s).1 ≠ 0 && rxCheckCrcOk (rxPacketReady s).2
    && !decide (rxBytesRead (rxPacketReady s).2 < (rxPacketLength (rxPacketReady s).2).setWidth 32)

/-- The message a step registers. -/
def message (y : Sys) (e : Event) : Option Msg :=
  if y.pc = .psocHang then none
  else
    match e with
    | .ctrl b => (acceptedCmd b y.fw).bind fun r =>
      if decodeCmd r.1 = some .hbcTxPacket then none else some (commandMsg r.1 r.2 y.fw.dev)
    | .main => if y.pc = .rxCall true ∧ forwards y.fw.dev then some (packetMsg y.fw.dev) else none
    | _ => none

/-- The message is in the registers, and the first byte of its frame has been written. -/
structure Starts (m : Msg) (s s' : State) : Prop where
  data : dataBytes s'.out = dataBytes s.out ++ [LittleEndian.byteAt m.frame 0]
  ackBytes : s'.spi.ackBytes = 3
  ackData : s'.spi.ackData = m.frame
  replyBytes : s'.spi.replyBytes = m.reply.elim s.spi.replyBytes fun _ => 4
  replySize : s'.spi.replySize = m.reply.elim s.spi.replySize fun _ => 4
  replyData : s'.spi.replyData = m.reply.getD s.spi.replyData
  dumpingMem : s'.spi.dumpingMem = m.dump.elim s.spi.dumpingMem Dump.bytes
  dump : ∀ d, m.dump = some d →
    s'.spi.dumpHbcRx = d.fromRx ∧ s'.spi.dumpIndex = 0 ∧ dumpCursor s' = d.start

omit [Board] [HostProtocol] in
/-- A message that has started is not disturbed by what leaves the port alone. -/
theorem Starts.kept {m : Msg} {s t u : State} (h : Starts m s t) (h' : PortKept t u)
    (hrd : u.rx.rdBufAddr = t.rx.rdBufAddr) : Starts m s u where
  data := h'.data.trans h.data
  ackBytes := h'.ackBytes.trans h.ackBytes
  ackData := h'.ackData.trans h.ackData
  replyBytes := h'.replyBytes.trans h.replyBytes
  replySize := h'.replySize.trans h.replySize
  replyData := h'.replyData.trans h.replyData
  dumpingMem := h'.dumpingMem.trans h.dumpingMem
  dump := fun d hd => by
    obtain ⟨hrx, hidx, hcursor⟩ := h.dump d hd
    exact ⟨h'.dumpHbcRx.trans hrx, h'.dumpIndex.trans hidx,
      (dumpCursor_kept h' fun _ => hrd).trans hcursor⟩

omit [HostProtocol] in
/-- The trigger behind a message that has just been registered. -/
theorem starts_trigger {m : Msg} {s t : State} (hack : t.spi.ackBytes = replySize)
    (hframe : t.spi.ackData = m.frame) (hdata : dataBytes t.out = dataBytes s.out)
    (hreplyBytes : t.spi.replyBytes = m.reply.elim s.spi.replyBytes fun _ => 4)
    (hreplySize : t.spi.replySize = m.reply.elim s.spi.replySize fun _ => 4)
    (hreplyData : t.spi.replyData = m.reply.getD s.spi.replyData)
    (hdump : t.spi.dumpingMem = m.dump.elim s.spi.dumpingMem Dump.bytes)
    (hstart : ∀ d, m.dump = some d →
      t.spi.dumpHbcRx = d.fromRx ∧ t.spi.dumpIndex = 0 ∧ dumpCursor t = d.start) :
    Starts m s (hbcDataIrq t) := by
  have hne : t.spi.ackBytes ≠ 0 := by
    rw [hack]
    decide
  rw [hbcDataIrq_ack hne]
  refine ⟨?_, ?_, hframe, hreplyBytes, hreplySize, hreplyData, hdump, hstart⟩
  · show dataBytes (t.out ++ portWrite _) = _
    rw [dataBytes_portWrite, hdata, hframe, hack]
    rfl
  · show t.spi.ackBytes - 1 = 3
    rw [hack]
    rfl

/-! ## Commands -/

omit [Board] [HostProtocol] in
/-- The handshake of the control port does not. -/
theorem portKept_ctrlReqNext (s : State) : PortKept s (ctrlReqNext s) := by
  have hset : PortKept s (s.gpoSet .hbcCtrlInt) := PortKept.gpo rfl rfl
  have hclear : PortKept (s.gpoSet .hbcCtrlInt) (ctrlReqNext s) := PortKept.gpo rfl rfl
  exact hset.trans hclear

omit [HostProtocol] in
/-- The loader has registers of its own. -/
theorem portKept_loadByte (b : Byte) (s : State) : PortKept s (loadByte b s) := by
  unfold loadByte
  dsimp only
  split
  · exact ⟨rfl, rfl, rfl, rfl, rfl, rfl, rfl, rfl, rfl, rfl, rfl⟩
  · exact ⟨rfl, rfl, rfl, rfl, rfl, rfl, rfl, rfl, rfl, rfl, rfl⟩

/-- `CMD_HBC_TX_PACKET` registers nothing; its trigger writes the next pending byte. -/
theorem execCmd_next {cmd : Byte} (arg : Word) (s : State)
    (hcmd : decodeCmd cmd = some .hbcTxPacket) :
    execCmd cmd arg s = hbcDataIrq (ctrlSwitch .hbcTxPacket arg s) := by
  rw [execCmd_eq, registered, hcmd]
  rfl

/-- Nor does the announcement of a packet. -/
theorem portKept_hbcTxPacket (arg : Word) (s : State) :
    PortKept s (ctrlSwitch .hbcTxPacket arg s) :=
  ⟨rfl, rfl, rfl, rfl, rfl, rfl, rfl, rfl, rfl, rfl, rfl⟩

/-- Every other command registers its message and writes the first byte. -/
theorem execCmd_starts {cmd : Byte} (arg : Word) (s : State)
    (hcmd : decodeCmd cmd ≠ some .hbcTxPacket) :
    Starts (commandMsg cmd arg s) s (execCmd cmd arg s) := by
  rw [execCmd_eq, registered, if_neg hcmd]
  cases hc : decodeCmd cmd with
  | none =>
    have hmsg : commandMsg cmd arg s = ⟨replyFrame ((doAck none).setWidth 8) 0, none, none⟩ := by
      simp only [commandMsg, hc, Option.bind_none, reduceCtorEq, if_false]
    rw [hmsg]
    exact starts_trigger rfl rfl rfl rfl rfl rfl rfl fun d hd => by cases hd
  | some c =>
    have hstep := switchStep_ctrlSwitch c arg s
    have hmsg : commandMsg cmd arg s = ⟨replyFrame ((doAck (some c)).setWidth 8) 0,
        if c.replies then some (ctrlSwitch c arg s).spi.replyData else none,
        if c = .memDump then some ⟨false, s.spi.dumpAddr, arg.toNat⟩ else none⟩ := by
      simp only [commandMsg, hc, Option.bind_some, Option.some.injEq]
    rw [hmsg]
    refine starts_trigger rfl rfl hstep.data (hstep.replyBytes.trans ?_)
      (hstep.replySize.trans ?_) ?_ (hstep.dumpingMem.trans ?_) ?_
    · cases c.replies <;> rfl
    · cases c.replies <;> rfl
    · show (ctrlSwitch c arg s).spi.replyData = _
      cases hr : c.replies with
      | false => exact hstep.replyData hr
      | true => rfl
    · split
      · rfl
      · rfl
    · intro d hd
      by_cases hc : c = .memDump
      · subst hc
        obtain rfl := Option.some.inj hd
        exact ⟨rfl, rfl, rfl⟩
      · rw [if_neg hc] at hd
        cases hd

/-! ## The forwarder -/

/-- A round that forwards. -/
theorem hbcToSpi_forwards {s : State} (h : forwards s = true) :
    hbcToSpi true s = rxPacketNext (forwardPacket (ledToggle (rxPacketReady s).2)) := by
  simp only [forwards, Bool.and_eq_true, decide_eq_true_eq, Bool.not_eq_true',
    decide_eq_false_iff_not] at h
  obtain ⟨⟨hready, hcrc⟩, hlen⟩ := h
  unfold hbcToSpi
  dsimp only
  rw [if_neg hready, hcrc, if_neg hlen]
  rfl

omit [Board] [HostProtocol] in
theorem rdBufAddr_rxPacketNext (s : State) : (rxPacketNext s).rx.rdBufAddr = s.rx.rdBufAddr := by
  unfold rxPacketNext
  split
  · rfl
  · rfl

/-- A round that does not leaves the port alone. -/
theorem portKept_hbcToSpi {forward : Bool} {s : State} (h : forward = false ∨ forwards s = false) :
    PortKept s (hbcToSpi forward s) := by
  have hready : PortKept s (rxPacketReady s).2 := PortKept.of_eq rfl rfl
  have hnext (t : State) : PortKept t (rxPacketNext t) :=
    PortKept.of_eq (quiet_rxPacketNext t).spi (congrArg dataBytes (quiet_rxPacketNext t).out)
  unfold hbcToSpi
  dsimp only
  split
  · exact hready
  · next hcount =>
    split
    · exact hready.trans (hnext _)
    · next hcrc =>
      split
      · exact hready.trans (hnext _)
      · next hlen =>
        have hled := hready.trans (ledToggle_kept _).2
        cases forward with
        | false => exact hled.trans (hnext _)
        | true =>
          -- all three checks have been passed
          have hforwards : forwards s = true := by
            simp only [Bool.not_eq_true, Bool.not_eq_false'] at hcrc
            simp only [forwards, hcrc, hlen, Bool.and_eq_true, decide_eq_true_eq, decide_false,
              Bool.not_false, and_true]
            exact hcount
          rcases h with h | h
          · cases h
          · rw [hforwards] at h
            cases h

/-- A packet that is forwarded is announced at once. -/
theorem hbcToSpi_starts {s : State} (h : forwards s = true) :
    Starts (packetMsg s) s (hbcToSpi true s) := by
  have hready : PortKept s (rxPacketReady s).2 := PortKept.of_eq rfl rfl
  have hled := hready.trans (ledToggle_kept (rxPacketReady s).2).2
  have hrx : (ledToggle (rxPacketReady s).2).rx = (rxPacketReady s).2.rx :=
    (ledToggle_eq (rxPacketReady s).2).1
  have hlength : rxPacketLength (ledToggle (rxPacketReady s).2)
      = rxPacketLength (rxPacketReady s).2 := by
    rw [rxPacketLength, hrx]
    rfl
  have hframe : (packetMsg s).frame
      = replyFrame HostProtocol.rxPacket (rxPacketLength (ledToggle (rxPacketReady s).2)) := by
    rw [hlength]
    rfl
  have hdump : (packetMsg s).dump
      = some ⟨true, ringNext (ledToggle (rxPacketReady s).2).rx.rdBufAddr,
        (rxPacketLength (ledToggle (rxPacketReady s).2)).toNat + hbcHeaderSize + rxPad⟩ := by
    rw [hlength, hrx]
    rfl
  rw [hbcToSpi_forwards h]
  generalize ledToggle (rxPacketReady s).2 = t at hled hframe hdump
  refine Starts.kept ?_
    (PortKept.of_eq (quiet_rxPacketNext _).spi (congrArg dataBytes (quiet_rxPacketNext _).out))
    (rdBufAddr_rxPacketNext _)
  unfold forwardPacket hbcSpiDataTrigger
  refine starts_trigger (m := packetMsg s) rfl hframe.symm hled.data hled.replyBytes hled.replySize
    hled.replyData ?_ ?_
  · rw [hdump]
    rfl
  · intro d hd
    rw [hdump] at hd
    obtain rfl := Option.some.inj hd
    exact ⟨rfl, rfl, rfl⟩

/-! ## One step -/

/-- The state in which the step has the next pending byte written, if it does. -/
def pulled (y : Sys) (e : Event) : Option State :=
  if y.pc = .psocHang then none
  else
    match e with
    | .ctrl b => (acceptedCmd b y.fw).bind fun r =>
      if decodeCmd r.1 = some .hbcTxPacket then some (ctrlSwitch .hbcTxPacket r.2 y.fw.dev)
      else none
    | .data => some y.fw.dev
    | _ => none

/-- The step calls `hbc_to_spi`. -/
def looks (y : Sys) (e : Event) : Prop := e = .main ∧ ∃ forward, y.pc = .rxCall forward

/-- What a step does to the port. -/
inductive PortStep (y : Sys) (e : Event) : Prop
  | kept (hmsg : message y e = none) (hpull : pulled y e = none)
      (hport : PortKept y.fw.dev (y.step e).fw.dev)
      (hrd : ¬ looks y e → (y.step e).fw.dev.rx.rdBufAddr = y.fw.dev.rx.rdBufAddr)
  | next (t : State) (hmsg : message y e = none) (hpull : pulled y e = some t)
      (hbefore : PortKept y.fw.dev t) (hrd : t.rx.rdBufAddr = y.fw.dev.rx.rdBufAddr)
      (hafter : PortKept (hbcDataIrq t) (y.step e).fw.dev)
      (hrd' : (y.step e).fw.dev.rx.rdBufAddr = (hbcDataIrq t).rx.rdBufAddr)
  | message (m : Msg) (hmsg : message y e = some m) (hpull : pulled y e = none)
      (hstarts : Starts m y.fw.dev (y.step e).fw.dev)

omit [HostProtocol] in
theorem rdBufAddr_loadByte (b : Byte) (s : State) :
    (loadByte b s).rx.rdBufAddr = s.rx.rdBufAddr := by
  obtain ⟨spi, mem, hframe⟩ := loadByte_frame b s
  rw [hframe]

/-- A byte on the control port. -/
theorem portStep_ctrl {y : Sys} (h : y.pc ≠ .psocHang) (b : Byte) : PortStep y (.ctrl b) := by
  obtain ⟨⟨parser, s⟩, pc, frames, sent, loads, taken⟩ := y
  have hstep := Sys.step_ctrl h b
  -- a byte that completes no command
  have hnone (haccept : acceptedCmd b ⟨parser, s⟩ = none)
      (hport : PortKept s (hbcCtrlIrq b ⟨parser, s⟩).dev)
      (hrd : (hbcCtrlIrq b ⟨parser, s⟩).dev.rx.rdBufAddr = s.rx.rdBufAddr) :
      PortStep ⟨⟨parser, s⟩, pc, frames, sent, loads, taken⟩ (.ctrl b) := by
    refine .kept ?_ ?_ ?_ fun _ => ?_
    · rw [HbcMac.message, if_neg h]
      dsimp only
      rw [haccept]
      rfl
    · rw [pulled, if_neg h]
      dsimp only
      rw [haccept]
      rfl
    · rw [hstep]
      exact hport
    · rw [hstep]
      exact hrd
  by_cases hload : s.spi.loadingMem = 0
  · obtain ⟨hirq, haccept⟩ := hbcCtrlIrq_push (b := b) (p := parser) hload
    cases hpush : (parser.push b).2 with
    | none =>
      rw [hpush] at hirq haccept
      rw [hirq] at hnone
      exact hnone haccept (portKept_ctrlReqNext s) rfl
    | some r =>
      obtain ⟨cmd, arg⟩ := r
      rw [hpush] at hirq haccept
      have hdev : (Sys.step ⟨⟨parser, s⟩, pc, frames, sent, loads, taken⟩ (.ctrl b)).fw.dev
          = ctrlReqNext (execCmd cmd arg s) := by
        rw [hstep]
        show (hbcCtrlIrq b ⟨parser, s⟩).dev = _
        rw [hirq]
        rfl
      have hmsg : HbcMac.message ⟨⟨parser, s⟩, pc, frames, sent, loads, taken⟩ (.ctrl b)
          = if decodeCmd cmd = some .hbcTxPacket then none else some (commandMsg cmd arg s) := by
        rw [HbcMac.message, if_neg h]
        dsimp only
        rw [haccept]
        rfl
      have hpull : pulled ⟨⟨parser, s⟩, pc, frames, sent, loads, taken⟩ (.ctrl b)
          = if decodeCmd cmd = some .hbcTxPacket then some (ctrlSwitch .hbcTxPacket arg s)
            else none := by
        rw [pulled, if_neg h]
        dsimp only
        rw [haccept]
        rfl
      by_cases hcmd : decodeCmd cmd = some .hbcTxPacket
      · rw [if_pos hcmd] at hmsg hpull
        refine .next _ hmsg hpull (portKept_hbcTxPacket arg s) rfl ?_ ?_
        · rw [hdev, execCmd_next arg s hcmd]
          exact portKept_ctrlReqNext _
        · rw [hdev, execCmd_next arg s hcmd]
          rfl
      · rw [if_neg hcmd] at hmsg hpull
        refine .message _ hmsg hpull ?_
        rw [hdev]
        exact (execCmd_starts arg s hcmd).kept (portKept_ctrlReqNext _) rfl
  · obtain ⟨hirq, haccept⟩ := hbcCtrlIrq_load (b := b) (p := parser) hload
    rw [hirq] at hnone
    exact hnone haccept ((portKept_loadByte b s).trans (portKept_ctrlReqNext _))
      (rdBufAddr_loadByte b s)

/-- A statement of the loop. -/
theorem portStep_main {y : Sys} (h : y.pc ≠ .psocHang) : PortStep y .main := by
  have hstep := Sys.step_main h
  have hpull : pulled y .main = none := if_neg h
  by_cases hcall : y.pc = .rxCall true ∧ forwards y.fw.dev = true
  · have hmsg : HbcMac.message y .main = some (packetMsg y.fw.dev) :=
      (if_neg h).trans (if_pos hcall)
    refine .message _ hmsg hpull ?_
    rw [hstep, hcall.1]
    exact hbcToSpi_starts hcall.2
  · have hmsg : HbcMac.message y .main = none := (if_neg h).trans (if_neg hcall)
    by_cases hrx : ∃ forward, y.pc = .rxCall forward
    · refine .kept hmsg hpull ?_ fun hlook => absurd ⟨rfl, hrx⟩ hlook
      obtain ⟨forward, hrx⟩ := hrx
      rw [hstep, hrx]
      refine portKept_hbcToSpi ?_
      cases forward with
      | false => exact Or.inl rfl
      | true => exact Or.inr (Bool.eq_false_iff.mpr fun hf => hcall ⟨hrx, hf⟩)
    · have hother : ∀ forward, y.pc ≠ .rxCall forward := fun forward hpc => hrx ⟨forward, hpc⟩
      refine .kept hmsg hpull ?_ fun _ => ?_
      · rw [hstep]
        exact portKept_mainStep hother y.fw.dev
      · rw [hstep]
        exact congrArg RxVars.rdBufAddr (rx_mainStep hother y.fw.dev)

/-- **One step.** -/
theorem portStep {y : Sys} (h : y.pc ≠ .psocHang) (e : Event) : PortStep y e := by
  cases e with
  | main => exact portStep_main h
  | ctrl b => exact portStep_ctrl h b
  | data =>
    have hstep := Sys.step_data h
    refine .next y.fw.dev (if_neg h) (if_neg h) (PortKept.refl _) rfl ?_ ?_
    · rw [hstep]
      exact PortKept.refl _
    · rw [hstep]
  | rxData arr =>
    have hw := writerStep_rxData y.fw.dev arr
    have hstep := Sys.step_rxData h arr
    refine .kept (if_neg h) (if_neg h) ?_ fun _ => ?_
    · rw [hstep]
      exact PortKept.of_eq hw.spi hw.data
    · rw [hstep]
      exact hw.rdBufAddr
  | rxReady arr =>
    have hw := writerStep_rxReady y.fw.dev arr
    have hstep := Sys.step_rxReady h arr
    refine .kept (if_neg h) (if_neg h) ?_ fun _ => ?_
    · rw [hstep]
      exact PortKept.of_eq hw.spi hw.data
    · rw [hstep]
      exact hw.rdBufAddr

omit [Board] [HostProtocol] in
/-- Where the port is kept, as many bytes are pending as before. -/
theorem spiPending_kept {s t : State} (h : PortKept s t) : spiPending t = spiPending s := by
  rw [spiPending, h.ackBytes, h.replyBytes, h.dumpingMem, spiPending]

end

end HbcMac
