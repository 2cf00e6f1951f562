import HbcMac.FrameWork
import HbcMac.Lib.Simulation
import HbcMac.RxForward

/-!
# The main loop as a forwarder

With `rx_auto` set and nothing to send, the main loop does no more than look whether the last dump
is out and then call `hbc_to_spi`. Its own test is what the forwarder needs: the loop and its
interrupts run through the states of `FwdSys`. As the loop comes back to the call again and again,
a host that goes on reading gets every packet received.
-/

namespace HbcMac

/-! ## The loop -/

/-- The statements of a turn that sends nothing. -/
def Pc.listens : Pc → Bool
  | sendPacket | txFlood | txAuto | pendingMany | pendingOne | rxFlood | rxAuto | dumpBusy
  | rxForward | rxCall true | psocFlash => true
  | _ => false

/-- The loop forwards what it receives and does nothing else. -/
structure Listening (pc : Pc) (m : MainVars) : Prop where
  listens : pc.listens = true
  rxAuto : m.rxAuto ≠ 0
  rxFlood : m.rxFlood = 0
  sendPacket : m.sendPacket = 0
  txFlood : m.txFlood = 0
  noTx : m.txAuto = 0 ∨ m.txPending = 0
  noPending : pc = .pendingMany ∨ pc = .pendingOne → m.txPending = 0
  noPsoc : m.doPsocFlash = 0

/-- Between the test of the data port and the call nothing has been put on the port. -/
structure Sys.Forwarding (y : Sys) : Prop where
  listening : Listening y.pc y.fw.dev.main
  free : y.pc = .rxForward ∨ y.pc = .rxCall true → spiPending y.fw.dev = 0

/-- The host sends nothing on the control port, and the words of a receive interrupt are there
when its handler starts. -/
def ReceivesOnly (_ : Sys) : Event → Prop
  | .ctrl _ => False
  | .rxData arr | .rxReady arr => arr.length = 1
  | _ => True

/-- What the forwarder sees of an event. -/
def Sys.forwards (y : Sys) : Event → Option FwdEvent
  | .main => if y.pc = .rxCall true then some .forward else none
  | .ctrl _ => none
  | .data => some .data
  | .rxData arr => some (.rxData arr.flatten)
  | .rxReady arr => some (.rxReady arr.flatten)

/-- The counter moves, the variables stay. -/
theorem Listening.goto {pc pc' : Pc} {m : MainVars} (h : Listening pc m)
    (hlistens : pc'.listens = true)
    (hpending : pc' = .pendingMany ∨ pc' = .pendingOne → m.txPending = 0) : Listening pc' m :=
  ⟨hlistens, h.rxAuto, h.rxFlood, h.sendPacket, h.txFlood, h.noTx, hpending, h.noPsoc⟩

/-- A loop that listens has not come to the PSoC. -/
theorem Listening.running {pc : Pc} {m : MainVars} (h : Listening pc m) : pc ≠ .psocHang := by
  rintro rfl
  cases h.listens

section
variable [Board] [HostProtocol] {pc : Pc} {s : State}

/-- What a turn of the loop is: the call is reached after a test of the data port and at most a
turn later, and nothing but the call does anything. -/
structure Listening.Next (pc : Pc) (s : State) (pc' : Pc) : Prop where
  step : mainStep pc s = (pc', if pc = .rxCall true then hbcToSpi true s else s)
  listening : Listening pc' s.main
  tested : pc' = .rxForward → pc = .dumpBusy ∧ s.spi.dumpingMem = 0
  called : pc' = .rxCall true → pc = .rxForward
  nearer : pc ≠ .rxCall true → s.spi.dumpingMem = 0 →
    Pc.before (.rxCall true) pc' < Pc.before (.rxCall true) pc

/-- The statements that ask nothing of the ones before them. -/
def Pc.free : Pc → Bool
  | sendPacket | txFlood | txAuto | rxFlood | rxAuto | dumpBusy | psocFlash => true
  | _ => false

/-- Going on with one of these. -/
theorem Listening.next_free {pc' : Pc} (h : Listening pc s.main) (hfree : pc'.free = true)
    (hstep : mainStep pc s = (pc', if pc = .rxCall true then hbcToSpi true s else s))
    (hnearer : pc ≠ .rxCall true → s.spi.dumpingMem = 0 →
      Pc.before (.rxCall true) pc' < Pc.before (.rxCall true) pc) :
    ∃ pc', Listening.Next pc s pc' := by
  refine ⟨pc', hstep, h.goto ?_ ?_, ?_, ?_, hnearer⟩
  · cases pc' <;> first | rfl | cases hfree
  · rintro (rfl | rfl)
    · cases hfree
    · cases hfree
  · rintro rfl
    cases hfree
  · rintro rfl
    cases hfree

/-- Going on with the second look at `tx_pending`. -/
theorem Listening.next_pending {pc' : Pc} (h : Listening pc s.main)
    (hpc' : pc' = .pendingMany ∨ pc' = .pendingOne) (hnone : s.main.txPending = 0)
    (hstep : mainStep pc s = (pc', if pc = .rxCall true then hbcToSpi true s else s))
    (hnearer : pc ≠ .rxCall true → s.spi.dumpingMem = 0 →
      Pc.before (.rxCall true) pc' < Pc.before (.rxCall true) pc) :
    ∃ pc', Listening.Next pc s pc' := by
  refine ⟨pc', hstep, h.goto ?_ fun _ => hnone, ?_, ?_, hnearer⟩
  · rcases hpc' with rfl | rfl <;> rfl
  · rintro rfl
    rcases hpc' with hpc' | hpc' <;> cases hpc'
  · rintro rfl
    rcases hpc' with hpc' | hpc' <;> cases hpc'

/-- The way round the loop is one of these steps. -/
theorem Listening.next (h : Listening pc s.main) : ∃ pc', Listening.Next pc s pc' := by
  cases pc with
  | sendPacket =>
    have hpc : mainStep .sendPacket s = (.txFlood, s) := by
      rw [mainStep, if_neg (not_not.mpr h.sendPacket)]
    exact h.next_free rfl hpc fun _ _ => by decide
  | txFlood =>
    have hpc : mainStep .txFlood s = (.txAuto, s) := by
      rw [mainStep, if_neg (not_not.mpr h.txFlood)]
    exact h.next_free rfl hpc fun _ _ => by decide
  | txAuto =>
    by_cases hauto : s.main.txAuto = 0
    · have hpc : mainStep .txAuto s = (.rxFlood, s) := by
        rw [mainStep, if_neg (not_not.mpr hauto)]
      exact h.next_free rfl hpc fun _ _ => by decide
    · have hpc : mainStep .txAuto s = (.pendingMany, s) := by
        rw [mainStep, if_pos hauto]
      have hnone := h.noTx.resolve_left hauto
      exact h.next_pending (.inl rfl) hnone hpc fun _ _ => by decide
  | pendingMany =>
    have hnone := h.noPending (.inl rfl)
    have hfew : ¬ (1 : Word).slt s.main.txPending = true := by
      rw [hnone]
      decide
    have hpc : mainStep .pendingMany s = (.pendingOne, s) := by
      rw [mainStep, if_neg hfew]
    exact h.next_pending (.inr rfl) hnone hpc fun _ _ => by decide
  | pendingOne =>
    have hnone := h.noPending (.inr rfl)
    have hpc : mainStep .pendingOne s = (.rxFlood, s) := by
      rw [mainStep, hnone]
      rfl
    exact h.next_free rfl hpc fun _ _ => by decide
  | rxFlood =>
    have hpc : mainStep .rxFlood s = (.rxAuto, s) := by
      rw [mainStep, if_neg (not_not.mpr h.rxFlood)]
    exact h.next_free rfl hpc fun _ _ => by decide
  | rxAuto =>
    have hpc : mainStep .rxAuto s = (.dumpBusy, s) := by
      rw [mainStep, if_pos h.rxAuto]
    exact h.next_free rfl hpc fun _ _ => by decide
  | dumpBusy =>
    by_cases hbusy : s.spi.dumpingMem = 0
    · have hidle : ¬ hbcSpiDumpBusy s = true := by
        rw [hbcSpiDumpBusy, hbusy]
        decide
      have hpc : mainStep .dumpBusy s = (.rxForward, s) := by
        rw [mainStep, if_neg hidle]
      refine ⟨_, hpc, h.goto rfl fun hnot => ?_, fun _ => ⟨rfl, hbusy⟩, fun hnot => ?_,
        fun _ _ => by decide⟩
      · rcases hnot with hnot | hnot <;> cases hnot
      · cases hnot
    · have hpc : mainStep .dumpBusy s = (.psocFlash, s) := by
        rw [mainStep, if_pos (show hbcSpiDumpBusy s = true from decide_eq_true hbusy)]
      exact h.next_free rfl hpc fun _ h0 => absurd h0 hbusy
  | rxForward =>
    have hpc : mainStep .rxForward s = (.rxCall true, s) := by
      rw [mainStep, decide_eq_true h.rxFlood]
    refine ⟨_, hpc, h.goto rfl fun hnot => ?_, fun hnot => ?_, fun _ => rfl, fun _ _ => by decide⟩
    · rcases hnot with hnot | hnot <;> cases hnot
    · cases hnot
  | rxCall forward =>
    have hforward : forward = true := by
      cases forward with
      | true => rfl
      | false => cases h.listens
    subst hforward
    exact h.next_free rfl (show _ = (Pc.psocFlash, _) by rw [mainStep, if_pos rfl]) fun hne =>
      absurd rfl hne
  | psocFlash =>
    have hpc : mainStep .psocFlash s = (.sendPacket, s) := by
      rw [mainStep, if_neg (not_not.mpr h.noPsoc)]
    exact h.next_free rfl hpc fun _ _ => by decide
  | _ => cases h.listens

/-! ## The simulation -/

omit [Board] [HostProtocol] in
/-- An interrupt that leaves the variables of the loop alone. -/
theorem Sys.Forwarding.interrupt {y y' : Sys} (h : y.Forwarding) (hpc : y'.pc = y.pc)
    (hmain : y'.fw.dev.main = y.fw.dev.main)
    (hfree : spiPending y.fw.dev = 0 → spiPending y'.fw.dev = 0) : y'.Forwarding := by
  obtain ⟨hlisten, hidle⟩ := h
  rw [← hpc] at hlisten hidle
  rw [← hmain] at hlisten
  exact ⟨hlisten, fun hcall => hfree (hidle hcall)⟩

omit [Board] [HostProtocol] in
/-- A receive interrupt. -/
theorem Sys.Forwarding.writer {y y' : Sys} (h : y.Forwarding) (hpc : y'.pc = y.pc)
    (hw : WriterStep y.fw.dev y'.fw.dev) : y'.Forwarding :=
  h.interrupt hpc hw.main fun hidle => by rwa [spiPending, hw.spi]

/-- A statement of the loop, when a dump is the last thing of a message. -/
theorem Sys.Forwarding.main {y : Sys} (h : y.Forwarding)
    (hdump : y.fw.dev.spi.dumpingMem = 0 → spiPending y.fw.dev = 0) :
    (y.step .main).Forwarding ∧ (y.step .main).fw.dev
        = (if y.pc = .rxCall true then hbcToSpi true y.fw.dev else y.fw.dev)
      ∧ (y.pc ≠ .rxCall true → y.fw.dev.spi.dumpingMem = 0 →
          Pc.before (.rxCall true) (y.step .main).pc < Pc.before (.rxCall true) y.pc) := by
  obtain ⟨pc', hnext⟩ := h.listening.next
  obtain ⟨hpc, hdev⟩ := y.step_main_dev
  rw [hnext.step] at hpc hdev
  dsimp only at hpc hdev
  refine ⟨⟨?_, ?_⟩, hdev, ?_⟩
  · rw [hpc, hdev]
    split
    · obtain ⟨toggle, htoggle⟩ := hbcToSpi_main true y.fw.dev
      obtain ⟨hlistens, hauto, hflood, hsend, htx, hno, hpending, hpsoc⟩ := hnext.listening
      rw [htoggle]
      exact ⟨hlistens, hauto, hflood, hsend, htx, hno, hpending, hpsoc⟩
    · exact hnext.listening
  · rw [hpc, hdev]
    rintro (hcall | hcall)
    · obtain ⟨hfrom, hidle⟩ := hnext.tested hcall
      rw [if_neg (by rw [hfrom]; decide)]
      exact hdump hidle
    · have hfrom := hnext.called hcall
      rw [if_neg (by rw [hfrom]; decide)]
      exact h.free (.inl hfrom)
  · rw [hpc]
    exact hnext.nearer

end

theorem before_rxCall_lt (pc : Pc) : Pc.before (.rxCall true) pc < 26 := Nat.mod_lt _ (by decide)

section
variable [Dram] [HostProtocol] {base : List Byte} {y : Sys} {f : FwdSys}

/-- A dump is the last thing of a message. -/
theorem FwdInv.idle {past queue : List (List Word)} (h : FwdInv base past queue f)
    (hdump : f.dev.spi.dumpingMem = 0) : spiPending f.dev = 0 := by
  rcases h.port with ⟨hidle, -⟩ | ⟨old, p, -, -, -, d, b, -, -, hsend⟩
  · exact hidle
  · exact absurd hdump hsend.more

/-- The system runs the forwarder `f`. -/
structure Forwards (base : List Byte) (y : Sys) (f : FwdSys) : Prop where
  forwarding : y.Forwarding
  dev : f.dev = y.fw.dev
  inv : ∃ past queue, FwdInv base past queue f

namespace Forwards

/-- A statement of the loop changes the device at the call of `hbc_to_spi` only, and the call comes
nearer while no dump is on. -/
theorem main (h : Forwards base y f) : (y.step .main).Forwarding ∧ (y.step .main).fw.dev
      = (if y.pc = .rxCall true then hbcToSpi true y.fw.dev else y.fw.dev)
    ∧ (y.pc ≠ .rxCall true → y.fw.dev.spi.dumpingMem = 0 →
        Pc.before (.rxCall true) (y.step .main).pc < Pc.before (.rxCall true) y.pc) := by
  obtain ⟨past, queue, hinv⟩ := h.inv
  rw [← h.dev]
  have hmain := h.forwarding.main fun hdump => h.dev ▸ hinv.idle (h.dev ▸ hdump)
  rwa [← h.dev] at hmain

/-- A step the forwarder does not see. -/
theorem quiet {e : Event} (h : Forwards base y f) (hC : ReceivesOnly y e)
    (hact : y.forwards e = none) : Forwards base (y.step e) f := by
  cases e with
  | main =>
    obtain ⟨hforwarding, hdev, -⟩ := h.main
    have hnot : y.pc ≠ .rxCall true := by
      intro hcall
      rw [Sys.forwards, if_pos hcall] at hact
      cases hact
    rw [if_neg hnot] at hdev
    exact ⟨hforwarding, h.dev.trans hdev.symm, h.inv⟩
  | ctrl b => exact hC.elim
  | data | rxData arr | rxReady arr => cases hact

/-- A step of the forwarder. -/
theorem seen {e : Event} {a : FwdEvent} (h : Forwards base y f) (hC : ReceivesOnly y e)
    (hact : y.forwards e = some a) (hfits : f.Fits) (hfits' : (f.step a).Fits) :
    f.Allowed a ∧ Forwards base (y.step e) (f.step a) := by
  obtain ⟨past, queue, hinv⟩ := h.inv
  have hrun := h.forwarding.listening.running
  cases e with
  | ctrl b => exact hC.elim
  | main =>
    by_cases hcall : y.pc = .rxCall true
    · rw [Sys.forwards, if_pos hcall] at hact
      cases hact
      obtain ⟨hforwarding, hdev, -⟩ := h.main
      rw [if_pos hcall] at hdev
      have hidle : f.Allowed .forward := by
        show spiPending f.dev = 0
        rw [h.dev]
        exact h.forwarding.free (.inr hcall)
      refine ⟨hidle, hforwarding, ?_, hinv.step .forward hidle hfits hfits'⟩
      rw [hdev, ← h.dev]
      rfl
    · rw [Sys.forwards, if_neg hcall] at hact
      cases hact
  | data =>
    cases hact
    have hdev : (y.step .data).fw.dev = hbcDataIrq y.fw.dev := by rw [Sys.step_data hrun]
    have hpc : (y.step .data).pc = y.pc := by rw [Sys.step_data hrun]
    refine ⟨trivial, h.forwarding.interrupt hpc ?_ fun hidle => ?_, ?_,
      hinv.step .data trivial hfits hfits'⟩
    · rw [hdev]
      exact (readerStep_hbcDataIrq y.fw.dev).2.1
    · rw [hdev, hbcDataIrq_idle hidle]
      exact hidle
    · rw [hdev, ← h.dev]
      rfl
  | rxData arr =>
    cases hact
    obtain ⟨ws, rfl⟩ := List.length_eq_one_iff.mp hC
    have hstep := Sys.step_rxData hrun [ws]
    have hforwarding : (y.step (.rxData [ws])).Forwarding := by
      rw [hstep]
      exact h.forwarding.writer rfl (writerStep_rxData y.fw.dev [ws])
    rw [List.flatten_singleton] at hfits' ⊢
    refine ⟨trivial, hforwarding, ?_, hinv.step (.rxData ws) trivial hfits hfits'⟩
    rw [hstep, ← h.dev]
    rfl
  | rxReady arr =>
    cases hact
    obtain ⟨ws, rfl⟩ := List.length_eq_one_iff.mp hC
    have hstep := Sys.step_rxReady hrun [ws]
    have hforwarding : (y.step (.rxReady [ws])).Forwarding := by
      rw [hstep]
      exact h.forwarding.writer rfl (writerStep_rxReady y.fw.dev [ws])
    rw [List.flatten_singleton] at hfits' ⊢
    refine ⟨trivial, hforwarding, ?_, hinv.step (.rxReady ws) trivial hfits hfits'⟩
    rw [hstep, ← h.dev]
    rfl

end Forwards

/-! ## Runs -/

/-- The system as the host leaves it once it has set `rx_auto`: nothing has been received yet, and
what the host asked for is out. -/
structure Sys.Listens (y : Sys) : Prop where
  forwarding : y.Forwarding
  start : ∃ s, Boot s ∧ ReaderStep s y.fw.dev ∧ y.fw.dev.rx = s.rx
  silent : spiPending y.fw.dev = 0

/-- What the forwarder sees of a run. -/
def Sys.forwarded (y : Sys) (evs : List Event) : List FwdEvent :=
  Run.actions Sys.step Sys.forwards y evs

/-- The forwarder after a run of the system. -/
def Sys.forwarder (y : Sys) (evs : List Event) : FwdSys :=
  Run.run FwdSys.step (FwdSys.boot y.fw.dev) (y.forwarded evs)

/-- The forwarder has room in every state of the run. -/
def Sys.HasRoom (y : Sys) (evs : List Event) : Prop :=
  Run.Always FwdSys.step FwdSys.Fits (FwdSys.boot y.fw.dev) (y.forwarded evs)

/-- The forwarder starts where the system does. -/
theorem Sys.Listens.forwards (h : y.Listens) :
    Forwards (dataBytes y.fw.dev.out) y (FwdSys.boot y.fw.dev) := by
  obtain ⟨s, hboot, hreader, hrx⟩ := h.start
  have htracks := tracks_boot hboot
  refine ⟨h.forwarding, rfl, [], [], rfl, rfl, ?_, ?_, ?_, Or.inl ⟨h.silent,
    htracks.ring.reader hreader, [], List.Forall₂.nil, (List.append_nil _).symm⟩⟩
  · show y.fw.dev.mem.readWraps = true
    rw [Mem.readWraps, hreader.flags]
    exact htracks.readWraps
  · show y.fw.dev.rx.rdPacketAddr = _
    rw [hrx, hboot.rx]
    rfl
  · show y.fw.dev.rx.packetReady = _
    rw [hrx, hboot.rx]
    rfl

/-- The simulation over a run. -/
theorem Sys.Listens.run (h : y.Listens) {evs : List Event}
    (hC : Run.Steps Sys.step ReceivesOnly y evs) (hroom : y.HasRoom evs) :
    Run.Steps FwdSys.step FwdSys.Allowed (FwdSys.boot y.fw.dev) (y.forwarded evs)
      ∧ Forwards (dataBytes y.fw.dev.out) (Run.run Sys.step y evs) (y.forwarder evs) :=
  Run.simulation (fun _ _ _ hR hstep => hR.quiet hstep)
    (fun _ _ _ _ hR hstep => hR.seen hstep) h.forwards hC hroom

/-- Within the first lap, what is not consumed has room. -/
theorem FwdInv.fits {past queue : List (List Word)} (h : FwdInv base past queue f)
    (hlap : queueBytes f.received.dropLast < halfSize) : f.Fits := by
  refine ⟨hlap, ?_⟩
  rcases h.port with ⟨hidle, hring, -⟩ | ⟨old, p, rfl, hring, -, d, b, -, -, hsend⟩
  · have hdump : f.dev.spi.dumpingMem = 0 := by
      unfold spiPending at hidle
      omega
    rw [FwdSys.needed_idle h.received h.released hdump]
    exact hring.fits
  · rw [FwdSys.needed_busy h.received h.released hsend.more]
    exact hring.fits

/-- `packet_ready` counts the packets not yet released. -/
theorem FwdInv.count {past queue : List (List Word)} (h : FwdInv base past queue f) :
    f.dev.rx.packetReady.toNat = queue.length := by
  have hlt : queue.length < 2 ^ 32 := by
    rcases h.port with ⟨-, hring, -⟩ | ⟨old, p, -, hring, -⟩
    · exact hring.queue_lt
    · have hmore := hring.queue_lt
      rw [List.length_cons] at hmore
      omega
  rw [h.packetReady, BitVec.toNat_ofNat, Nat.mod_eq_of_lt hlt]

/-- No message is longer than 267 bytes. -/
theorem FwdInv.pending_le {past queue : List (List Word)} (h : FwdInv base past queue f) :
    spiPending f.dev ≤ 267 := by
  rcases h.port with ⟨hidle, -⟩ | ⟨old, p, -, -, -, d, b, -, -, hsend⟩
  · omega
  · obtain ⟨w, ws, rfl, -⟩ := hsend.frame
    have hsum := hsend.pending
    have hlen := length_announcement hsend.forwardable
    have hbyte := (announcedLength w).isLt
    rw [rxPad] at hsum
    omega

/-- What is left to be done until the host has every message: the packets not yet released, then
the message on its way, or the way to the next call. -/
def Sys.toForward (y : Sys) : ℕ :=
  300 * y.fw.dev.rx.packetReady.toNat +
    if spiPending y.fw.dev ≠ 0 then spiPending y.fw.dev + 26
    else if y.fw.dev.rx.packetReady.toNat = 0 then 0
    else Pc.before (.rxCall true) y.pc

/-- The events a message waits for: the host takes the next byte, or there is none and the loop
goes on. -/
def Sys.awaits (y : Sys) : Event → Bool
  | .main => spiPending y.fw.dev = 0
  | .data => spiPending y.fw.dev ≠ 0
  | _ => false

/-- A call of the forwarder releases a packet, if there is one. -/
theorem Forwards.released (h : Forwards base y f) (hcall : y.pc = .rxCall true)
    (hlap : queueBytes f.received.dropLast < halfSize) :
    Forwards base (y.step .main) (f.step .forward)
      ∧ (y.step .main).fw.dev.rx.packetReady.toNat = y.fw.dev.rx.packetReady.toNat - 1
      ∧ spiPending (y.step .main).fw.dev ≤ 267
      ∧ (y.fw.dev.rx.packetReady = 0 → spiPending (y.step .main).fw.dev = 0) := by
  obtain ⟨past, queue, hinv⟩ := h.inv
  have hact : y.forwards .main = some .forward := if_pos hcall
  have hidle : spiPending f.dev = 0 := by
    rw [h.dev]
    exact h.forwarding.free (.inr hcall)
  have hfits := hinv.fits hlap
  obtain ⟨past', queue', hinv'⟩ := hinv.forward hidle hfits
  obtain ⟨-, hnext⟩ := h.seen (e := .main) trivial hact hfits (hinv'.fits hlap)
  refine ⟨hnext, ?_, ?_, fun hnone => ?_⟩
  · have hlen := congrArg List.length (hinv.received.symm.trans hinv'.received)
    have hrel : (f.step .forward).released
        = if f.dev.rx.packetReady = 0 then f.released else f.released + 1 := rfl
    rw [hinv'.released, hinv.released] at hrel
    rw [← hnext.dev, hinv'.count, ← h.dev, hinv.count]
    rw [List.length_append, List.length_append] at hlen
    split at hrel
    · next hzero =>
      have hnone := hinv.count
      rw [hzero] at hnone
      have hempty : queue.length = 0 := hnone.symm
      omega
    · omega
  · rw [← hnext.dev]
    exact hinv'.pending_le
  · rw [← h.dev] at hnone
    rw [← hnext.dev]
    show spiPending (hbcToSpi true f.dev) = 0
    rw [hbcToSpi_empty hnone]
    exact hidle

/-- With the data port free the loop gets on, otherwise the host does. -/
theorem Forwards.works {e : Event} (h : Forwards base y f) (he : e = .main ∨ e = .data)
    (hlap : queueBytes f.received.dropLast < halfSize) :
    (∃ f', Forwards base (y.step e) f' ∧ f'.received = f.received)
      ∧ Run.Works Sys.step Sys.awaits Sys.toForward y e := by
  obtain ⟨past, queue, hinv⟩ := h.inv
  have hturn := before_rxCall_lt y.pc
  have hturn' := before_rxCall_lt (y.step e).pc
  rcases he with rfl | rfl
  · by_cases hcall : y.pc = .rxCall true
    · obtain ⟨hnext, hcount, hpending, hnone⟩ := h.released hcall hlap
      have hidle := h.forwarding.free (.inr hcall)
      refine ⟨⟨_, hnext, rfl⟩, ?_⟩
      by_cases hzero : y.fw.dev.rx.packetReady = 0
      · have hsilent := hnone hzero
        have hdone : (y.step .main).toForward = 0 := by
          rw [Sys.toForward, hcount, hzero, hsilent]
          rfl
        exact ⟨by rw [hdone]; exact Nat.zero_le _, fun _ hne => by rw [hdone]; omega⟩
      · have hpos : y.fw.dev.rx.packetReady.toNat ≠ 0 := fun h0 => hzero (BitVec.eq_of_toNat_eq h0)
        have hless : (y.step .main).toForward < y.toForward := by
          unfold Sys.toForward
          split_ifs <;> omega
        exact ⟨Nat.le_of_lt hless, fun _ _ => hless⟩
    · obtain ⟨-, hdev, hnearer⟩ := h.main
      rw [if_neg hcall] at hdev
      have hact : y.forwards .main = none := if_neg hcall
      refine ⟨⟨f, h.quiet trivial hact, rfl⟩, ?_⟩
      by_cases hidle : spiPending y.fw.dev = 0
      · have hless := hnearer hcall (by unfold spiPending at hidle; omega)
        have hbefore : y.toForward = 300 * y.fw.dev.rx.packetReady.toNat
            + if y.fw.dev.rx.packetReady.toNat = 0 then 0 else Pc.before (.rxCall true) y.pc := by
          rw [Sys.toForward, if_neg (not_not.mpr hidle)]
        have hafter : (y.step .main).toForward = 300 * y.fw.dev.rx.packetReady.toNat
            + if y.fw.dev.rx.packetReady.toNat = 0 then 0
              else Pc.before (.rxCall true) (y.step .main).pc := by
          rw [Sys.toForward, hdev, if_neg (not_not.mpr hidle)]
        constructor
        · rw [hbefore, hafter]
          split_ifs <;> omega
        · intro _ hne
          rw [hbefore] at hne
          rw [hbefore, hafter]
          split_ifs at hne ⊢ <;> omega
      · have hsame : (y.step .main).toForward = y.toForward := by
          rw [Sys.toForward, Sys.toForward, hdev, if_pos hidle, if_pos hidle]
        have hnot : y.awaits .main = false := decide_eq_false hidle
        exact ⟨Nat.le_of_eq hsame, fun hawaits => absurd hawaits (by rw [hnot]; decide)⟩
  · have hdev : (y.step .data).fw.dev = hbcDataIrq y.fw.dev := by
      rw [Sys.step_data h.forwarding.listening.running]
    have hpc : (y.step .data).pc = y.pc := by
      rw [Sys.step_data h.forwarding.listening.running]
    have hfits := hinv.fits hlap
    obtain ⟨-, hnext⟩ := h.seen (e := .data) trivial rfl hfits (hinv.data.fits hlap)
    refine ⟨⟨_, hnext, rfl⟩, ?_⟩
    by_cases hidle : spiPending y.fw.dev = 0
    · have hsame : (y.step .data).toForward = y.toForward := by
        rw [Sys.toForward, Sys.toForward, hpc, hdev, hbcDataIrq_idle hidle]
      have hnot : y.awaits .data = false := decide_eq_false (not_not.mpr hidle)
      exact ⟨Nat.le_of_eq hsame, fun hawaits => absurd hawaits (by rw [hnot]; decide)⟩
    · have hcount : (hbcDataIrq y.fw.dev).rx.packetReady = y.fw.dev.rx.packetReady :=
        (readerStep_hbcDataIrq y.fw.dev).2.2.2.1
      obtain ⟨-, htaken⟩ := hbcDataIrq_writes hidle
      have hless : (y.step .data).toForward < y.toForward := by
        unfold Sys.toForward
        rw [hdev, hcount, hpc]
        split_ifs <;> omega
      exact ⟨Nat.le_of_lt hless, fun _ _ => hless⟩

/-- As long as the host reads on and the loop goes on, there is an end to what is to be done. -/
theorem Forwards.run {evs : List Event} (h : Forwards base y f)
    (hevs : ∀ e ∈ evs, e = .main ∨ e = .data) (hlap : queueBytes f.received.dropLast < halfSize)
    (hticks : y.toForward ≤ Run.ticks Sys.step Sys.awaits y evs) :
    (∃ f', Forwards base (Run.run Sys.step y evs) f' ∧ f'.received = f.received)
      ∧ (Run.run Sys.step y evs).toForward = 0 := by
  have hC : Run.Steps Sys.step (fun _ e => e = .main ∨ e = .data) y evs :=
    Run.steps_of_forall fun _ => hevs
  have hstep (z : Sys) (e : Event)
      (hz : ∃ g, Forwards base z g ∧ g.received = f.received) (he : e = .main ∨ e = .data) :
      (∃ g, Forwards base (z.step e) g ∧ g.received = f.received)
        ∧ Run.Works Sys.step Sys.awaits Sys.toForward z e := by
    obtain ⟨g, hg, hrec⟩ := hz
    obtain ⟨⟨g', hg', hrec'⟩, hworks⟩ := hg.works he (by rw [hrec]; exact hlap)
    exact ⟨⟨g', hg', hrec'.trans hrec⟩, hworks⟩
  exact ⟨Run.run_of_step (fun z e hz he => (hstep z e hz he).1) ⟨f, h, rfl⟩ hC,
    Run.measure_eq_zero hstep ⟨f, h, rfl⟩ hC hticks⟩

/-- With nothing left to be done, every message is out. -/
theorem Forwards.complete (h : Forwards base y f) (hdone : y.toForward = 0) :
    ∃ msgs, List.Forall₂ IsMessage (f.received.filter forwardable) msgs
      ∧ dataBytes y.fw.dev.out = base ++ msgs.flatten := by
  obtain ⟨past, queue, hinv⟩ := h.inv
  have hcount := hinv.count
  rw [h.dev] at hcount
  have hidle : spiPending y.fw.dev = 0 := by
    by_contra hbusy
    rw [Sys.toForward, if_pos hbusy] at hdone
    omega
  have hnone : queue = [] := by
    rw [Sys.toForward] at hdone
    exact List.length_eq_zero_iff.mp (by omega)
  rcases hinv.port with ⟨-, -, msgs, hmsgs, hout⟩ | ⟨old, p, -, -, -, d, b, -, -, hsend⟩
  · refine ⟨msgs, ?_, ?_⟩
    · rw [hinv.received, hnone, List.append_nil]
      exact hmsgs
    · rw [← h.dev]
      exact hout
  · have hmore := hsend.more
    rw [h.dev] at hmore
    unfold spiPending at hidle
    omega

end

/-! ## A device that listens -/

/-- A device that has been told to forward. -/
def listening : Sys := Sys.boot { bootState with main.rxAuto := 1 }

end HbcMac
