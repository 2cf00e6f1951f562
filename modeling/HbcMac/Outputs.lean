import HbcMac.Lib.Simulation
import HbcMac.Lib.Trace
import Mathlib.Data.List.Forall2
import HbcMac.FrameSeeds
import HbcMac.RxSwitch
import HbcMac.TxTrigger

/-!
# The outputs of a run

What each step of the system leaves on the output lines, and from it what a whole run does: the
handshakes with the host, the transmitter, and the receiver switch.
-/

namespace HbcMac

/-! ## Lines -/

/-- `ctrl_req_next`. -/
def ctrlPulse : List Out := [.gpo .hbcCtrlInt true, .gpo .hbcCtrlInt false]

/-- The acknowledge at the end of `rx_ready_int_func`. -/
def rxAckPulse : List Out := [.gpo .hbcRxPktAck true, .gpo .hbcRxPktAck false]

/-- The LED, the filter and the receiver, which are switched and not pulsed. -/
def Out.isSwitch : Out → Bool
  | .gpo .led1Bit _ | .gpo .hbcDataSwitch _ | .gpo .hbcRxEnable _ => true
  | _ => false

/-- The data port: its bytes and their requests. -/
def Out.isPort : Out → Bool
  | .data _ | .gpo .hbcDataInt _ => true
  | _ => false

/-- The request for the next byte on the control port. -/
def Out.isCtrl : Out → Bool
  | .gpo .hbcCtrlInt _ => true
  | _ => false

/-- The transmitter: register writes, polls, trigger and flush. -/
def Out.isTx : Out → Bool
  | .gpo .hbcTxFlush _ => true
  | o => o.isFifo

/-- The register writes of a frame: the header word is modulated at the rate of the header. -/
def Frame.writes (f : Frame) : List Out :=
  leadWrites f.headerInfo ++ (f.words.take 1).map .modulate
    ++ rateWrites f.headerInfo.dataRate ++ (f.words.drop 1).map .modulate

/-! ## One step -/

/-- What an event may leave on the lines, and the frames it sends with it. -/
inductive Emission (y : Sys) : Event → List Frame → List Out → Prop
  | hang (hpc : y.pc = .psocHang) (e : Event) : Emission y e [] []
  | ctrl (hpc : y.pc ≠ .psocHang) (b : Byte) (sw : List Out) (bs : List Byte)
    (hsw : ∀ o ∈ sw, o.isSwitch = true) (hone : bs.length ≤ 1) :
    Emission y (.ctrl b) [] (sw ++ bs.flatMap portWrite ++ ctrlPulse)
  | data (bs : List Byte) (hone : bs.length ≤ 1) : Emission y .data [] (bs.flatMap portWrite)
  | rxData (arr : List (List Word)) : Emission y (.rxData arr) [] []
  | rxReady (arr : List (List Word)) : Emission y (.rxReady arr) [] rxAckPulse
  | main (sw : List Out) (bs : List Byte) (hsw : ∀ o ∈ sw, o.isSwitch = true)
    (hone : bs.length ≤ 1) : Emission y .main [] (sw ++ bs.flatMap portWrite)
  | frame (hpc : y.pc.inFrame = true) (f : Frame) (tr : List Out) (t : Bool)
    (htr : FifoTrace f.writes false tr t) :
    Emission y .main [f] (tr ++ (flushPulse ++ closing t))

section
variable [Board]

/-- At most one byte for the host. -/
theorem hbcDataIrq_out (s : State) :
    ∃ bs : List Byte, bs.length ≤ 1 ∧ (hbcDataIrq s).out = s.out ++ bs.flatMap portWrite := by
  by_cases h : spiPending s = 0
  · rw [hbcDataIrq_idle h]
    exact ⟨[], Nat.zero_le 1, (List.append_nil _).symm⟩
  · obtain ⟨⟨b, hout⟩, -⟩ := hbcDataIrq_portWrite h
    refine ⟨[b], Nat.le_refl 1, ?_⟩
    rw [hout, List.flatMap_singleton]

/-- A frame between its reset and the trigger at its end. -/
theorem sendFrame_out (s : State) : ∃ tr t,
    (sendFrame s).2.out = s.out ++ (tr ++ (flushPulse ++ closing t)) ∧
      FifoTrace (leadWrites s.main.headerInfo ++ [.modulate (headerWord s.main.headerInfo)]
        ++ rateWrites s.main.headerInfo.dataRate
        ++ (descramble (s.main.headerInfo.scramblerSeed != 0) 0
          (memReads (payloadWords s.main.headerInfo.pdsuLength).toNat s)).map .modulate)
        false tr t := by
  obtain ⟨tr, f, hhdr, htr⟩ := emits_buildTxPlcpHeader s.main.headerInfo s
  obtain ⟨u, hlast, tr', f', hpay, htr'⟩ := emits_buildTxPayload
    s.main.headerInfo.built { (buildTxPlcpHeader s.main.headerInfo s).2 with
      main := { (buildTxPlcpHeader s.main.headerInfo s).2.main with
        headerInfo := s.main.headerInfo.built } }
  have hmem : (buildTxPlcpHeader s.main.headerInfo s).2.mem = s.mem := by
    rw [hhdr]
    rfl
  refine ⟨tr ++ tr', f'.triggered, ?_, ?_⟩
  · show (buildTxPayload _ _).2.out = _
    refine (congrArg State.out hlast).trans ?_
    rw [closing_out, hpay, hhdr]
    simp only [List.append_assoc]
    rfl
  · have hfifo : (buildTxPlcpHeader s.main.headerInfo s).2.txFifo.triggered = f.triggered := by
      rw [hhdr]
    have hreads : memReads (payloadWords s.main.headerInfo.pdsuLength).toNat
        { (buildTxPlcpHeader s.main.headerInfo s).2 with
          main := { (buildTxPlcpHeader s.main.headerInfo s).2.main with
            headerInfo := s.main.headerInfo.built } }
        = memReads (payloadWords s.main.headerInfo.pdsuLength).toNat s := memReads_congr hmem
    have hpart : FifoTrace (rateWrites s.main.headerInfo.dataRate
        ++ (descramble (s.main.headerInfo.scramblerSeed != 0) 0
          (memReads (payloadWords s.main.headerInfo.pdsuLength).toNat s)).map .modulate)
        f.triggered tr' f'.triggered := by
      rw [← hreads, ← hfifo]
      exact htr'
    have hall := htr.append hpart
    rwa [← List.append_assoc] at hall

omit [Board] in
/-- The LED is switched. -/
theorem ledToggle_out (s : State) :
    ∃ level, (ledToggle s).out = s.out ++ [.gpo .led1Bit level] := by
  unfold ledToggle
  dsimp only
  split
  · exact ⟨false, rfl⟩
  · exact ⟨true, rfl⟩

variable [HostProtocol]

/-- The forwarder switches the LED and writes at most one byte. -/
theorem hbcToSpi_out (forward : Bool) (s : State) : ∃ (sw : List Out) (bs : List Byte),
    (∀ o ∈ sw, o.isSwitch = true) ∧ bs.length ≤ 1 ∧
      (hbcToSpi forward s).out = s.out ++ (sw ++ bs.flatMap portWrite) := by
  have hsilent {t : State} (ht : t.out = s.out) : ∃ (sw : List Out) (bs : List Byte),
      (∀ o ∈ sw, o.isSwitch = true) ∧ bs.length ≤ 1 ∧
        t.out = s.out ++ (sw ++ bs.flatMap portWrite) :=
    ⟨[], [], fun _ ho => absurd ho List.not_mem_nil, Nat.zero_le 1,
      ht.trans (List.append_nil _).symm⟩
  have hready := quiet_rxPacketReady s
  unfold hbcToSpi
  dsimp only
  split
  · exact hsilent hready.out
  · split
    · exact hsilent ((hready.trans (quiet_rxPacketNext _)).out)
    · split
      · exact hsilent ((hready.trans (quiet_rxPacketNext _)).out)
      · obtain ⟨level, hled⟩ := ledToggle_out (rxPacketReady s).2
        have hsw : ∀ o ∈ [Out.gpo .led1Bit level], o.isSwitch = true := by
          intro o ho
          rw [List.mem_singleton.mp ho]
          rfl
        rw [hready.out] at hled
        generalize ledToggle (rxPacketReady s).2 = t at hled
        rw [(quiet_rxPacketNext _).out]
        split
        · refine ⟨_, [LittleEndian.byteAt (replyFrame HostProtocol.rxPacket (rxPacketLength t)) 0],
            hsw, Nat.le_refl 1, ?_⟩
          rw [forwardPacket_eq, hled, List.append_assoc, List.flatMap_singleton]
        · exact ⟨_, [], hsw, Nat.zero_le 1, by rw [hled, List.flatMap_nil, List.append_nil]⟩

/-- A command sets lines at most. -/
theorem ctrlSwitch_out (cmd : Cmd) (arg : Word) (s : State) : ∃ sw : List Out,
    (∀ o ∈ sw, o.isSwitch = true) ∧ (ctrlSwitch cmd arg s).out = s.out ++ sw := by
  have hsilent {t : State} (ht : t.out = s.out) : ∃ sw : List Out,
      (∀ o ∈ sw, o.isSwitch = true) ∧ t.out = s.out ++ sw :=
    ⟨[], fun _ ho => absurd ho List.not_mem_nil, ht.trans (List.append_nil _).symm⟩
  have hreply {r : Word × State} (hr : r.2.out = s.out) : ∃ sw : List Out,
      (∀ o ∈ sw, o.isSwitch = true) ∧ (reply r).out = s.out ++ sw := hsilent hr
  have hdevices (h : cmd.usesDevices = true) := ctrlSwitch_devices h arg s
  cases cmd with
  | memTest | flashRead | flashWrite =>
    obtain ⟨r, hr, hcase⟩ := hdevices rfl
    rw [hcase]
    exact hreply hr.out
  | hbcRxCheck => exact hreply (quiet_rxCheckPacket s).out
  | hbcRxNext => exact hsilent (quiet_rxPacketNext s).out
  | hbcTxFilter =>
    obtain ⟨level, hcase⟩ := ctrlSwitch_filter arg s
    refine ⟨[.gpo .hbcDataSwitch level], fun o ho => ?_, congrArg State.out hcase⟩
    rw [List.mem_singleton.mp ho]
    rfl
  | _ => exact hsilent rfl

/-- The command, the byte its trigger writes, and the request for the next byte. -/
theorem hbcCtrlIrq_out (b : Byte) (f : Firmware) : ∃ (sw : List Out) (bs : List Byte),
    (∀ o ∈ sw, o.isSwitch = true) ∧ bs.length ≤ 1 ∧
      (hbcCtrlIrq b f).dev.out = f.dev.out ++ (sw ++ bs.flatMap portWrite ++ ctrlPulse) := by
  have hpulse {t : State} {tr : List Out} (ht : t.out = f.dev.out ++ tr) :
      (ctrlReqNext t).out = f.dev.out ++ (tr ++ ctrlPulse) := by
    show t.out ++ [Out.gpo .hbcCtrlInt true] ++ [Out.gpo .hbcCtrlInt false] = _
    rw [ht, List.append_assoc, List.append_assoc]
    rfl
  rw [hbcCtrlIrq_dev]
  cases acceptedCmd b f with
  | none =>
    refine ⟨[], [], fun _ ho => absurd ho List.not_mem_nil, Nat.zero_le 1, ?_⟩
    have hsame : (if f.dev.spi.loadingMem ≠ 0 then loadByte b f.dev else f.dev).out
        = f.dev.out ++ [] := by
      rw [List.append_nil]
      split
      · obtain ⟨spi, mem, hframe⟩ := loadByte_frame b f.dev
        rw [hframe]
      · rfl
    exact hpulse hsame
  | some r =>
    have hswitch : ∃ sw : List Out, (∀ o ∈ sw, o.isSwitch = true) ∧
        ((decodeCmd r.1).elim f.dev fun c => ctrlSwitch c r.2 f.dev).out = f.dev.out ++ sw := by
      cases decodeCmd r.1 with
      | none =>
        exact ⟨[], fun _ ho => absurd ho List.not_mem_nil, (List.append_nil _).symm⟩
      | some c => exact ctrlSwitch_out c r.2 f.dev
    obtain ⟨sw, hsw, hout⟩ := hswitch
    obtain ⟨n, d, hack⟩ := registered_ack r.1 r.2 f.dev
    obtain ⟨bs, hone, hbyte⟩ := hbcDataIrq_out (registered r.1 r.2 f.dev)
    refine ⟨sw, bs, hsw, hone, hpulse ?_⟩
    show (execCmd r.1 r.2 f.dev).out = _
    rw [execCmd_eq, hbyte, hack]
    show ((decodeCmd r.1).elim f.dev fun c => ctrlSwitch c r.2 f.dev).out ++ _ = _
    rw [hout, List.append_assoc]

/-- The frame a statement of the loop sends, as it is recorded and as it goes out. -/
theorem mainStep_frame {pc : Pc} (s : State) (hpc : pc = .trigBuild ∨ pc = .autoBuild) :
    ∃ f tr t, framesOf pc s (mainStep pc s).2 = [f] ∧
      (mainStep pc s).2.out = s.out ++ (tr ++ (flushPulse ++ closing t)) ∧
      FifoTrace f.writes false tr t := by
  obtain rfl | rfl := hpc
  · obtain ⟨tr, t, hout, htr⟩ := sendFrame_out (memSetRdP 0 s)
    exact ⟨_, tr, t, framesOf_trigBuild s, hout, htr⟩
  · obtain ⟨hheader, hwords, -⟩ := autoBuild_frame s
    obtain ⟨tr, t, hout, htr⟩ := sendFrame_out (autoRead s)
    have hframe : framesOf .autoBuild s (autoBuild s) = [⟨true, (autoHeader s).built,
        headerWord (autoHeader s) :: descramble ((autoHeader s).scramblerSeed != 0) 0
          (memReads (payloadWords (autoHeader s).pdsuLength).toNat (autoRead s))⟩] := by
      show [Frame.mk true (autoBuild s).main.headerInfo _] = _
      rw [hheader, hwords]
      rfl
    refine ⟨_, tr, t, hframe, ?_, htr⟩
    show (autoBuild s).out = _
    rw [autoBuild_eq]
    exact hout

/-- **What a step leaves on the lines.** -/
theorem emission_step (y : Sys) (e : Event) : ∃ new block, Emission y e new block ∧
    (y.step e).frames = y.frames ++ new ∧ (y.step e).fw.dev.out = y.fw.dev.out ++ block := by
  by_cases hpc : y.pc = .psocHang
  · rw [Sys.step_hang hpc]
    exact ⟨[], [], .hang hpc e, (List.append_nil _).symm, (List.append_nil _).symm⟩
  · cases e with
    | main =>
      have hmain (sw : List Out) (bs : List Byte) (hsw : ∀ o ∈ sw, o.isSwitch = true)
          (hone : bs.length ≤ 1) (hframes : framesOf y.pc y.fw.dev (mainStep y.pc y.fw.dev).2 = [])
          (hout : (mainStep y.pc y.fw.dev).2.out = y.fw.dev.out ++ (sw ++ bs.flatMap portWrite)) :
          ∃ new block, Emission y .main new block ∧ (y.step .main).frames = y.frames ++ new ∧
            (y.step .main).fw.dev.out = y.fw.dev.out ++ block := by
        rw [Sys.step_main hpc]
        exact ⟨[], _, .main sw bs hsw hone, congrArg (y.frames ++ ·) hframes, hout⟩
      have hswitch (o : Out) (ho : o.isSwitch = true) : ∀ o' ∈ [o], o'.isSwitch = true := by
        intro o' ho'
        rwa [List.mem_singleton.mp ho']
      by_cases hbuild : y.pc = .trigBuild ∨ y.pc = .autoBuild
      · obtain ⟨f, tr, t, hframes, hout, htr⟩ := mainStep_frame y.fw.dev hbuild
        have hin : y.pc.inFrame = true := by
          obtain hb | hb := hbuild
          · rw [hb]
            rfl
          · rw [hb]
            rfl
        rw [Sys.step_main hpc]
        exact ⟨[f], _, .frame hin f tr t htr, congrArg (y.frames ++ ·) hframes, hout⟩
      · have hframes (s' : State) : framesOf y.pc y.fw.dev s' = [] := by
          unfold framesOf
          split
          · next h => exact absurd (.inl h) hbuild
          · next h => exact absurd (.inr h) hbuild
          · rfl
        have heffect := mainStep_effect y.pc y.fw.dev
        generalize hs' : (mainStep y.pc y.fw.dev).2 = s' at heffect hmain
        generalize hpc' : y.pc = pc at heffect
        have hquiet (h : s'.out = y.fw.dev.out) := hmain [] []
          (fun _ ho => absurd ho List.not_mem_nil) (Nat.zero_le 1) (hframes s')
          (h.trans (List.append_nil _).symm)
        have hone (o : Out) (ho : o.isSwitch = true) (h : s'.out = y.fw.dev.out ++ [o]) :=
          hmain [o] [] (hswitch o ho) (Nat.zero_le 1) (hframes s')
            (h.trans (congrArg _ (List.append_nil _).symm))
        cases heffect with
        | vars main => exact hquiet rfl
        | led =>
          obtain ⟨level, hled⟩ := ledToggle_out y.fw.dev
          exact hone _ rfl hled
        | rxOff => exact hone _ rfl rfl
        | rxOn => exact hone _ rfl rfl
        | trigFrame => exact absurd (.inl hpc') hbuild
        | autoFrame pktAddr => exact absurd (.inr hpc') hbuild
        | forward forward =>
          obtain ⟨sw, bs, hsw, hlen, hout⟩ := hbcToSpi_out forward y.fw.dev
          exact hmain sw bs hsw hlen (hframes _) hout
        | psoc => exact hquiet (devices_flashRead _ _ _ y.fw.dev).out
    | ctrl b =>
      obtain ⟨sw, bs, hsw, hone, hout⟩ := hbcCtrlIrq_out b y.fw
      rw [Sys.step_ctrl hpc]
      exact ⟨[], _, .ctrl hpc b sw bs hsw hone, (List.append_nil _).symm, hout⟩
    | data =>
      obtain ⟨bs, hone, hout⟩ := hbcDataIrq_out y.fw.dev
      rw [Sys.step_data hpc]
      exact ⟨[], _, .data bs hone, (List.append_nil _).symm, hout⟩
    | rxData arr =>
      rw [Sys.step_rxData hpc]
      refine ⟨[], [], .rxData arr, (List.append_nil _).symm, ?_⟩
      show (rxDataIntFunc _).out = _
      rw [(writerOnly_rxDataIntFunc _).out, List.append_nil]
    | rxReady arr =>
      rw [Sys.step_rxReady hpc]
      refine ⟨[], _, .rxReady arr, (List.append_nil _).symm, ?_⟩
      show (rxReadyIntFunc _).out = _
      rw [(rxReadyIntFunc_devices _).2]
      rfl

/-! ## Over a run -/

/-- The entries of a step, and its frames. -/
def Sys.emission (y : Sys) (e : Event) : List Out :=
  (y.step e).fw.dev.out.drop y.fw.dev.out.length

/-- The frames a step sends, one at most. -/
def Sys.newFrames (y : Sys) (e : Event) : List Frame := (y.step e).frames.drop y.frames.length

/-- What a step appends to trace and frames. -/
theorem Sys.emission_spec (y : Sys) (e : Event) : Emission y e (y.newFrames e) (y.emission e) ∧
    (y.step e).frames = y.frames ++ y.newFrames e ∧
    (y.step e).fw.dev.out = y.fw.dev.out ++ y.emission e := by
  obtain ⟨new, block, hemission, hframes, hout⟩ := emission_step y e
  rw [emission, newFrames, hframes, hout, List.drop_left, List.drop_left]
  exact ⟨hemission, rfl, rfl⟩

/-- The entries of a run. -/
def Sys.trace : Sys → List Event → List Out := Run.trace Sys.step Sys.emission

/-- The trace of a run. -/
theorem Sys.out_run (y : Sys) (evs : List Event) :
    (Run.run Sys.step y evs).fw.dev.out = y.fw.dev.out ++ y.trace evs :=
  Run.record_run (fun z : Sys => z.fw.dev.out)
    (fun z e => (z.emission_spec e).2.2) y evs

/-- The byte of the control port a step takes. -/
def Sys.hears (y : Sys) (e : Event) : Option Byte :=
  match e with
  | .ctrl b => if y.pc = .psocHang then none else some b
  | _ => none

omit [Board] [HostProtocol] in
/-- The bytes at the data port are handshaken on its own line. -/
theorem filter_isPort_portWrites (bs : List Byte) :
    (bs.flatMap portWrite).filter Out.isPort = bs.flatMap portWrite :=
  List.filter_eq_self.mpr fun o ho => by
    obtain ⟨b, -, hb⟩ := List.mem_flatMap.mp ho
    simp only [portWrite, List.mem_cons, List.not_mem_nil, or_false] at hb
    obtain rfl | rfl | rfl := hb
    · rfl
    · rfl
    · rfl

omit [Board] [HostProtocol] in
/-- They do not use the other. -/
theorem filter_isCtrl_portWrites (bs : List Byte) :
    (bs.flatMap portWrite).filter Out.isCtrl = [] :=
  List.filter_eq_nil_iff.mpr fun o ho => by
    obtain ⟨b, -, hb⟩ := List.mem_flatMap.mp ho
    simp only [portWrite, List.mem_cons, List.not_mem_nil, or_false] at hb
    obtain rfl | rfl | rfl := hb
    · exact Bool.false_ne_true
    · exact Bool.false_ne_true
    · exact Bool.false_ne_true

omit [Board] [HostProtocol] in
/-- What is switched is not pulsed. -/
theorem not_pulsed {o : Out} (h : o.isSwitch = true) :
    o.isPort = false ∧ o.isCtrl = false ∧ o.isTx = false := by
  cases o with
  | gpo line level => cases line <;> first | exact ⟨rfl, rfl, rfl⟩ | cases h
  | _ => cases h

omit [Board] [HostProtocol] in
/-- The transmitter uses neither. -/
theorem not_answered {o : Out} (h : o.isTx = true) : o.isPort = false ∧ o.isCtrl = false := by
  cases o with
  | gpo line level => cases line <;> first | exact ⟨rfl, rfl⟩ | cases h
  | data b => cases h
  | _ => exact ⟨rfl, rfl⟩

omit [Board] [HostProtocol] in
/-- Switches are no part of any protocol. -/
theorem filter_switches {p : Out → Bool} {sw : List Out} (hsw : ∀ o ∈ sw, o.isSwitch = true)
    (hp : ∀ o : Out, o.isSwitch = true → p o = false) : sw.filter p = [] :=
  List.filter_eq_nil_iff.mpr fun o ho => by rw [hp o (hsw o ho)]; exact Bool.false_ne_true

omit [Board] [HostProtocol] in
/-- A frame keeps to the lines of the transmitter. -/
theorem FifoTrace.isTx {ws tr : List Out} {t t' : Bool} (h : FifoTrace ws t tr t') (u : Bool) :
    ∀ o ∈ tr ++ (flushPulse ++ closing u), o.isTx = true := by
  intro o ho
  obtain ho | ho := List.mem_append.mp ho
  · have hfifo := h.fifo o ho
    cases o with
    | gpo line level => cases line <;> first | rfl | cases hfifo
    | data b => cases hfifo
    | _ => rfl
  · have hclose : ∀ u, ∀ o ∈ flushPulse ++ closing u, o.isTx = true := by decide
    exact hclose u o ho

omit [Board] [HostProtocol] in
/-- The entries of the data port in a block are its bytes, each with its request. -/
theorem Emission.port {y : Sys} {e : Event} {new : List Frame} {block : List Out}
    (h : Emission y e new block) :
    block.filter Out.isPort = (dataBytes block).flatMap portWrite := by
  have hbytes {sw : List Out} (hsw : ∀ o ∈ sw, o.isSwitch = true) (bs : List Byte) :
      dataBytes (sw ++ bs.flatMap portWrite) = bs := by
    have hnone : dataBytes sw = [] := by
      apply List.filterMap_eq_nil_iff.mpr
      intro o ho
      have hswitch := hsw o ho
      cases o with
      | data b => cases hswitch
      | _ => rfl
    rw [dataBytes_append, hnone, List.nil_append, dataBytes, List.filterMap_flatMap]
    exact List.flatMap_singleton' bs
  have hport (sw : List Out) (hsw : ∀ o ∈ sw, o.isSwitch = true) (bs : List Byte) :
      (sw ++ bs.flatMap portWrite).filter Out.isPort
        = (dataBytes (sw ++ bs.flatMap portWrite)).flatMap portWrite := by
    rw [hbytes hsw, List.filter_append, filter_switches hsw fun o ho => (not_pulsed ho).1,
      filter_isPort_portWrites, List.nil_append]
  cases h with
  | hang => rfl
  | ctrl hpc b sw bs hsw hone =>
    have hpulse : ctrlPulse.filter Out.isPort = [] := rfl
    have hsilent : dataBytes ctrlPulse = [] := rfl
    rw [List.filter_append, hpulse, List.append_nil, dataBytes_append, hsilent, List.append_nil]
    exact hport sw hsw bs
  | data bs hone => exact hport [] (fun _ ho => absurd ho List.not_mem_nil) bs
  | rxData arr => rfl
  | rxReady arr => rfl
  | main sw bs hsw hone => exact hport sw hsw bs
  | frame hpc f tr t htr =>
    have htx := htr.isTx t
    have hsilent : dataBytes (tr ++ (flushPulse ++ closing t)) = [] := by
      rw [dataBytes_append, htr.dataBytes]
      cases t <;> rfl
    rw [hsilent, List.flatMap_nil]
    exact List.filter_eq_nil_iff.mpr fun o ho => by
      rw [(not_answered (htx o ho)).1]
      exact Bool.false_ne_true

omit [Board] [HostProtocol] in
/-- And every byte heard is acknowledged at the end of the block. -/
theorem Emission.ctrl_line {y : Sys} {e : Event} {new : List Frame} {block : List Out}
    (h : Emission y e new block) :
    block.filter Out.isCtrl = (y.hears e).toList.flatMap fun _ => ctrlPulse := by
  cases h with
  | hang hpc e =>
    cases e with
    | ctrl b => rw [Sys.hears, if_pos hpc]; rfl
    | _ => rfl
  | ctrl hpc b sw bs hsw hone =>
    have hpulse : ctrlPulse.filter Out.isCtrl = ctrlPulse := rfl
    rw [List.filter_append, List.filter_append, filter_switches hsw fun o ho => (not_pulsed ho).2.1,
      filter_isCtrl_portWrites, hpulse, Sys.hears, if_neg hpc]
    rfl
  | data bs hone => exact filter_isCtrl_portWrites bs
  | rxData arr => rfl
  | rxReady arr => rfl
  | main sw bs hsw hone =>
    rw [List.filter_append, filter_switches hsw fun o ho => (not_pulsed ho).2.1,
      filter_isCtrl_portWrites]
    rfl
  | frame hpc f tr t htr =>
    exact List.filter_eq_nil_iff.mpr fun o ho => by
      rw [(not_answered (htr.isTx t o ho)).2]
      exact Bool.false_ne_true

omit [Board] [HostProtocol] in
/-- The lines of the transmitter show the frames of the step. -/
theorem Emission.tx {y : Sys} {e : Event} {new : List Frame} {block : List Out}
    (h : Emission y e new block) : ∃ trs : List (List Out), block.filter Out.isTx = trs.flatten ∧
      List.Forall₂ (fun f tr => fifoWrites tr = f.writes ∧ TriggeredOnce tr) new trs := by
  have hnone (sw : List Out) (hsw : ∀ o ∈ sw, o.isSwitch = true) (bs : List Byte) :
      (sw ++ bs.flatMap portWrite).filter Out.isTx = [] := by
    rw [List.filter_append, filter_switches hsw fun o ho => (not_pulsed ho).2.2, List.nil_append]
    refine List.filter_eq_nil_iff.mpr fun o ho => ?_
    obtain ⟨b, -, hb⟩ := List.mem_flatMap.mp ho
    simp only [portWrite, List.mem_cons, List.not_mem_nil, or_false] at hb
    obtain rfl | rfl | rfl := hb
    · exact Bool.false_ne_true
    · exact Bool.false_ne_true
    · exact Bool.false_ne_true
  cases h with
  | hang => exact ⟨[], rfl, .nil⟩
  | ctrl hpc b sw bs hsw hone =>
    have hpulse : ctrlPulse.filter Out.isTx = [] := rfl
    refine ⟨[], ?_, .nil⟩
    rw [List.filter_append, hnone sw hsw, hpulse]
    rfl
  | data bs hone => exact ⟨[], hnone [] (fun _ ho => absurd ho List.not_mem_nil) bs, .nil⟩
  | rxData arr => exact ⟨[], rfl, .nil⟩
  | rxReady arr => exact ⟨[], rfl, .nil⟩
  | main sw bs hsw hone => exact ⟨[], hnone sw hsw bs, .nil⟩
  | frame hpc f tr t htr =>
    refine ⟨[tr ++ (flushPulse ++ closing t)], ?_, .cons ⟨?_, htr.triggeredOnce⟩ .nil⟩
    · rw [List.filter_eq_self.mpr (htr.isTx t), List.flatten_singleton]
    · rw [fifoWrites_closing, htr.writes]

/-! ## Handshakes -/

/-- **The handshakes.** In every run each byte taken from the control port is acknowledged by one
pulse, and each byte on the data port is announced by one pulse right behind it; there are no
other pulses on these lines. -/
theorem handshakes (y : Sys) (evs : List Event) : ∃ tr,
    (Run.run Sys.step y evs).fw.dev.out = y.fw.dev.out ++ tr ∧
    tr.filter Out.isCtrl
      = (Run.actions Sys.step Sys.hears y evs).flatMap (fun _ => ctrlPulse) ∧
    tr.filter Out.isPort = (dataBytes tr).flatMap portWrite := by
  refine ⟨y.trace evs, y.out_run evs, ?_, ?_⟩
  · induction evs generalizing y with
    | nil => rfl
    | cons e evs ih =>
      show (y.emission e ++ (y.step e).trace evs).filter Out.isCtrl = _
      rw [List.filter_append, (y.emission_spec e).1.ctrl_line, ih, Run.actions,
        List.flatMap_append]
  · induction evs generalizing y with
    | nil => rfl
    | cons e evs ih =>
      show (y.emission e ++ (y.step e).trace evs).filter Out.isPort
        = (dataBytes (y.emission e ++ (y.step e).trace evs)).flatMap portWrite
      rw [List.filter_append, (y.emission_spec e).1.port, ih, dataBytes_append,
        List.flatMap_append]

/-! ## The transmitter -/

/-- The transmitter over a run: the frames sent, one block each. -/
theorem Sys.tx_run (y : Sys) (evs : List Event) : ∃ new trs,
    (Run.run Sys.step y evs).frames = y.frames ++ new ∧
    (y.trace evs).filter Out.isTx = trs.flatten ∧
    List.Forall₂ (fun f tr => fifoWrites tr = f.writes ∧ TriggeredOnce tr) new trs := by
  induction evs generalizing y with
  | nil => exact ⟨[], [], (List.append_nil _).symm, rfl, .nil⟩
  | cons e evs ih =>
    obtain ⟨hemission, hframes, -⟩ := y.emission_spec e
    obtain ⟨trs, hfilter, hall⟩ := hemission.tx
    obtain ⟨new, trs', hframes', hfilter', hall'⟩ := ih (y.step e)
    refine ⟨y.newFrames e ++ new, trs ++ trs', ?_, ?_, List.rel_append hall hall'⟩
    · rw [Run.run_cons, hframes', hframes, List.append_assoc]
    · show (y.emission e ++ (y.step e).trace evs).filter Out.isTx = _
      rw [List.filter_append, hfilter, hfilter', List.flatten_append]

/-- **The transmitter.** In every run its lines show the frames sent, one behind the other and
nothing in between: of each the register writes, in order, with one trigger and one flush, however
often the FIFO is found full. -/
theorem frames_on_lines (y : Sys) (evs : List Event) : ∃ tr new trs,
    (Run.run Sys.step y evs).fw.dev.out = y.fw.dev.out ++ tr ∧
    (Run.run Sys.step y evs).frames = y.frames ++ new ∧
    tr.filter Out.isTx = trs.flatten ∧
    List.Forall₂ (fun f tr => fifoWrites tr = f.writes ∧ TriggeredOnce tr) new trs := by
  obtain ⟨new, trs, hframes, hfilter, hall⟩ := y.tx_run evs
  exact ⟨y.trace evs, new, trs, y.out_run evs, hframes, hfilter, hall⟩

/-! ## The receiver switch -/

/-- The command does not turn the loopback on. -/
def KeepsLoopback (r : Option (Cmd × Word)) : Prop := ∀ c ∈ r, c.1 = .hbcTxLoopback → c.2 = 0

instance : DecidablePred KeepsLoopback := fun r => inferInstanceAs (Decidable (∀ c ∈ r, _))

/-- Without loopback the receiver is off inside a frame. -/
structure Deaf (y : Sys) : Prop where
  loopback : y.fw.dev.main.loopback = 0
  off : y.pc.inFrame = true → (rxLevels y.fw.dev.out).getLast? = some false

/-- The statement in front of one inside a frame. -/
theorem inFrame_of_next {pc : Pc} {s : State} (h : (mainStep pc s).1.inFrame = true) :
    pc.disablesRx = true ∨ pc.inFrame = true ∧ pc.switchesRx = false := by
  cases pc with
  | trigRxDisable | autoRxDisable => exact .inl rfl
  | trigBuild | trigSeed | autoBuild | autoMask | autoSeed => exact .inr ⟨rfl, rfl⟩
  | sendPacket | txFlood | txAuto | pendingMany | pendingOne | loadBusy | rxFlood | rxAuto
  | dumpBusy | psocFlash =>
    simp only [mainStep] at h
    split at h
    · cases h
    · cases h
  | _ => cases h

/-- A step without the loopback leaves the receiver off while a frame is built. -/
theorem Deaf.step {y : Sys} {e : Event} (h : Deaf y) (hloop : KeepsLoopback (y.command e)) :
    Deaf (y.step e) := by
  obtain ⟨toggle, hvars⟩ := y.step_main_vars e
  have hloopback : (y.step e).fw.dev.main.loopback = 0 := by
    rw [hvars]
    cases e with
    | main =>
      have hkept : (varsOfMain y.pc y.fw.dev).loopback = y.fw.dev.main.loopback := by
        unfold varsOfMain
        split <;> first | rfl | (split <;> rfl)
      exact hkept.trans h.loopback
    | ctrl b =>
      show (varsOfCommand (y.command (.ctrl b)) y.fw.dev.main).loopback = 0
      cases hcmd : y.command (.ctrl b) with
      | none => exact h.loopback
      | some c =>
        obtain ⟨cmd, arg⟩ := c
        have hzero := hloop (cmd, arg) hcmd
        cases cmd with
        | hbcTxLoopback => exact hzero rfl
        | _ => exact h.loopback
    | data | rxData | rxReady => exact h.loopback
  refine ⟨hloopback, fun hin => ?_⟩
  by_cases he : e = .main
  · subst he
    obtain ⟨hpc, hdev⟩ := y.step_main_dev
    rw [hpc] at hin
    rw [hdev]
    obtain hdisables | ⟨hpcin, hquiet⟩ := inFrame_of_next hin
    · rw [(mainStep_disables hdisables _).1, if_pos h.loopback]
      show (rxLevels (y.fw.dev.out ++ [Out.gpo .hbcRxEnable false])).getLast? = some false
      rw [rxLevels_append]
      exact List.getLast?_concat
    · rw [rxKept_mainStep hquiet]
      exact h.off hpcin
  · obtain ⟨hpc, hrx⟩ := rxKept_interrupt (y := y) he
    rw [hpc] at hin
    rw [hrx]
    exact h.off hin

/-- **Half duplex.** As long as no command turns the loopback on, the receiver is off whenever
anything happens on the lines of the transmitter. -/
theorem half_duplex {s : State} (hboot : Boot s) {evs : List Event}
    (hloop : Run.Steps Sys.step (fun y e => KeepsLoopback (y.command e)) (Sys.boot s) evs) :
    ∃ tr, (Run.run Sys.step (Sys.boot s) evs).fw.dev.out = s.out ++ tr ∧
      ∀ a o b, tr = a ++ o :: b → o.isTx = true →
        (rxLevels (s.out ++ a)).getLast? = some false := by
  refine ⟨(Sys.boot s).trace evs, Sys.out_run (Sys.boot s) evs, ?_⟩
  intro a o b hsplit ho
  obtain ⟨pre, e, post, x, z, rfl, hemit, rfl⟩ := Run.trace_split hsplit
  have hpre := (Run.steps_append.mp hloop).1
  have hdeaf : Deaf (Run.run Sys.step (Sys.boot s) pre) := by
    refine Run.run_of_step (fun _ _ h hC => h.step hC) ⟨?_, fun hin => ?_⟩ hpre
    · show s.main.loopback = 0
      rw [hboot.main]
    · cases hin
  have hout := Sys.out_run (Sys.boot s) pre
  obtain ⟨hemission, -, -⟩ := Sys.emission_spec (Run.run Sys.step (Sys.boot s) pre) e
  rw [hemit] at hemission
  generalize Run.run Sys.step (Sys.boot s) pre = y at hdeaf hout hemission
  generalize y.newFrames e = new at hemission
  -- only a frame has entries of the transmitter
  have hframe : y.pc.inFrame = true ∧ ∀ o' ∈ x ++ o :: z, o'.isTx = true := by
    have hmem : o ∈ x ++ o :: z := List.mem_append_right x List.mem_cons_self
    generalize hblock : x ++ o :: z = block at hemission hmem
    have hnot (sw : List Out) (hsw : ∀ o ∈ sw, o.isSwitch = true) {bs : List Byte}
        (hin : o ∈ sw ++ bs.flatMap portWrite) : False := by
      obtain hin | hin := List.mem_append.mp hin
      · rw [(not_pulsed (hsw o hin)).2.2] at ho
        cases ho
      · obtain ⟨c, -, hc⟩ := List.mem_flatMap.mp hin
        simp only [portWrite, List.mem_cons, List.not_mem_nil, or_false] at hc
        obtain rfl | rfl | rfl := hc
        · cases ho
        · cases ho
        · cases ho
    cases hemission with
    | hang => exact absurd hmem List.not_mem_nil
    | ctrl hpc c sw bs hsw hone =>
      obtain hin | hin := List.mem_append.mp hmem
      · exact (hnot sw hsw hin).elim
      · have hpulse : ∀ o ∈ ctrlPulse, o.isTx = false := by decide
        rw [hpulse o hin] at ho
        cases ho
    | data bs hone =>
      exact (hnot [] (fun _ h => absurd h List.not_mem_nil) hmem).elim
    | rxData arr => exact absurd hmem List.not_mem_nil
    | rxReady arr =>
      have hpulse : ∀ o ∈ rxAckPulse, o.isTx = false := by decide
      rw [hpulse o hmem] at ho
      cases ho
    | main sw bs hsw hone => exact (hnot sw hsw hmem).elim
    | frame hpc f tr t htr => exact ⟨hpc, htr.isTx t⟩
  have hsilent : rxLevels x = [] := by
    apply List.filterMap_eq_nil_iff.mpr
    intro o' ho'
    have htx := hframe.2 o' (List.mem_append_left _ ho')
    cases o' with
    | gpo line level => cases line <;> first | rfl | cases htx
    | _ => rfl
  have hlast := hdeaf.off hframe.1
  rw [hout] at hlast
  rw [← List.append_assoc, rxLevels_append, hsilent, List.append_nil]
  exact hlast

end

/-- A frame of four bytes, all of it. -/
def oneFrame [HostProtocol] : List Event := sending .hbcTxTrigger 4 ++ List.replicate 16 .main

theorem oneFrame_keepsLoopback :
    letI := plainDram
    letI := plainProtocol
    Run.Steps Sys.step (fun y e => KeepsLoopback (y.command e)) (Sys.boot bootState) oneFrame := by
  decide +kernel

/-- The receiver is off while a triggered frame is sent. -/
theorem half_duplex_triggered :
    letI := plainDram
    letI := plainProtocol
    ∃ tr, (Run.run Sys.step (Sys.boot bootState) oneFrame).fw.dev.out = bootState.out ++ tr ∧
      ∀ a o b, tr = a ++ o :: b → o.isTx = true →
        (rxLevels (bootState.out ++ a)).getLast? = some false :=
  @half_duplex plainDram.toBoard plainProtocol bootState bootState_boot _ oneFrame_keepsLoopback

end HbcMac
