import HbcMac.PacketStart
import HbcMac.RxSwitch

/-!
# Consuming from an empty queue

`rx_packet_next` is held back only by a cached marker of `-1`. `rx_check_packet` and the forwarder
ask for `packet_ready` first, `CMD_HBC_RX_NEXT` does not: on an empty queue it takes a packet that
is not there, unless the marker it has cached is that of a packet in progress.
-/

namespace HbcMac

/-! ## What counts a packet as consumed -/

/-- The marker is all that `rx_packet_next` goes by. -/
theorem rxPacketNext_packetReady (s : State) : (rxPacketNext s).rx.packetReady
    = if s.rx.rdPacketMarker = -1 then s.rx.packetReady else s.rx.packetReady - 1 := by
  unfold rxPacketNext
  split <;> rfl

/-- With the marker `-1` it does nothing. -/
theorem rxPacketNext_marked {s : State} (h : s.rx.rdPacketMarker = -1) : rxPacketNext s = s :=
  if_pos h

section
variable [Board]

/-- The packet `rx_packet_ready` finds will be taken by `rx_packet_next`. -/
def takesPacket (s : State) : Bool :=
  s.rx.packetReady ≠ 0 && s.mem.get s.rx.rdPacketAddr ≠ -1

/-- A look that finds none takes none. -/
theorem takesPacket_of_empty {s : State} (h : s.rx.packetReady = 0) : takesPacket s = false := by
  rw [takesPacket, h]
  rfl

/-- The queue is as in `s`, with its first headers cached. -/
structure Looked (s t : State) : Prop where
  packetReady : t.rx.packetReady = s.rx.packetReady
  marker : t.rx.rdPacketMarker = s.mem.get s.rx.rdPacketAddr

/-- A look caches the headers. -/
theorem looked_rxPacketReady (s : State) : Looked s (rxPacketReady s).2 := ⟨rfl, rfl⟩

/-- What leaves count and marker alone is still a look. -/
theorem Looked.trans {s t u : State} (h : Looked s t)
    (hready : u.rx.packetReady = t.rx.packetReady)
    (hmarker : u.rx.rdPacketMarker = t.rx.rdPacketMarker) : Looked s u :=
  ⟨hready.trans h.packetReady, hmarker.trans h.marker⟩

/-- `rx_packet_next` behind `rx_packet_ready` and its test. -/
theorem Looked.next {s t : State} (h : Looked s t) (hready : s.rx.packetReady ≠ 0) :
    (rxPacketNext t).rx.packetReady
      = if takesPacket s then s.rx.packetReady - 1 else s.rx.packetReady := by
  rw [rxPacketNext_packetReady, h.marker, h.packetReady, takesPacket]
  by_cases hmarker : s.mem.get s.rx.rdPacketAddr = -1
  · rw [if_pos hmarker, decide_eq_false (not_not.mpr hmarker), Bool.and_false]
    rfl
  · rw [if_neg hmarker, decide_eq_true hmarker, decide_eq_true hready]
    rfl

/-- The comparison leaves count and marker alone. -/
theorem rxCheckLoop_queue (bytes : ℕ) (correct chk data : Word) (s : State) :
    (rxCheckLoop bytes correct chk data s).2.rx.packetReady = s.rx.packetReady ∧
    (rxCheckLoop bytes correct chk data s).2.rx.rdPacketMarker = s.rx.rdPacketMarker := by
  induction bytes generalizing correct chk data s with
  | zero => exact ⟨rfl, rfl⟩
  | succ bytes ih =>
    rw [rxCheckLoop]
    dsimp only
    split
    · exact ih _ _ _ _
    · exact ih _ _ _ s

/-- `rx_check_packet` consumes a packet only if there is one. -/
theorem rxCheckPacket_packetReady (s : State) : (rxCheckPacket s).2.rx.packetReady
    = if takesPacket s then s.rx.packetReady - 1 else s.rx.packetReady := by
  have hlook := looked_rxPacketReady s
  unfold rxCheckPacket
  dsimp only
  split
  · rename_i hzero
    rw [takesPacket_of_empty (s := s) hzero]
    exact hlook.packetReady
  · rename_i hready
    split
    · -- a header that fails its check is consumed as well
      exact hlook.next hready
    · split
      · exact hlook.next hready
      · -- the loop reads on but leaves the cached marker
        obtain ⟨hloop, hmarker⟩ := rxCheckLoop_queue (rxPacketLength (rxPacketReady s).2).toNat 0
          (memRead (memSetRdP 0 (rxRead (rxRead (rxPacketReady s).2).2).2)).1
          (rxRead (memRead (memSetRdP 0 (rxRead (rxRead (rxPacketReady s).2).2).2)).2).1
          (rxRead (memRead (memSetRdP 0 (rxRead (rxRead (rxPacketReady s).2).2).2)).2).2
        exact (hlook.trans hloop hmarker).next hready

variable [HostProtocol]

/-- The forwarder consumes a packet only if there is one. -/
theorem hbcToSpi_packetReady (forward : Bool) (s : State) : (hbcToSpi forward s).rx.packetReady
    = if takesPacket s then s.rx.packetReady - 1 else s.rx.packetReady := by
  have hlook := looked_rxPacketReady s
  have hled : Looked s (ledToggle (rxPacketReady s).2) := by
    refine hlook.trans ?_ ?_
    · rw [(ledToggle_eq _).1]
    · rw [(ledToggle_eq _).1]
  unfold hbcToSpi
  dsimp only
  split
  · rename_i hzero
    rw [takesPacket_of_empty (s := s) hzero]
    exact hlook.packetReady
  · rename_i hready
    split
    · exact hlook.next hready
    · split
      · exact hlook.next hready
      · split
        · have hforward (t : State) : (forwardPacket t).rx.packetReady = t.rx.packetReady
              ∧ (forwardPacket t).rx.rdPacketMarker = t.rx.rdPacketMarker := by
            rw [forwardPacket_eq]
            exact ⟨rfl, rfl⟩
          exact (hled.trans (hforward _).1 (hforward _).2).next hready
        · exact hled.next hready

/-! ## Commands -/

/-- The command is `CMD_HBC_RX_NEXT`. -/
def isRxNext : Option (Cmd × Word) → Bool
  | some (.hbcRxNext, _) => true
  | _ => false

/-- The command consumes a packet, or what it takes for one. -/
def cmdConsumes (r : Option (Cmd × Word)) (s : State) : Bool :=
  match r with
  | some (.hbcRxNext, _) => s.rx.rdPacketMarker ≠ -1
  | some (.hbcRxCheck, _) => takesPacket s
  | _ => false

/-- What a command does to the count. -/
theorem ctrlSwitch_packetReady (cmd : Cmd) (arg : Word) (s : State) :
    (ctrlSwitch cmd arg s).rx.packetReady
      = if cmdConsumes (some (cmd, arg)) s then s.rx.packetReady - 1 else s.rx.packetReady := by
  have hreply {r : Word × State} (h : DevicesOnly s r.2) :
      (reply r).rx.packetReady = s.rx.packetReady := congrArg RxVars.packetReady h.rx
  have hdevices (h : cmd.usesDevices = true) := ctrlSwitch_devices h arg s
  cases cmd with
  | memTest | flashRead | flashWrite =>
    obtain ⟨r, hr, hcase⟩ := hdevices rfl
    rw [hcase]
    exact hreply hr
  | hbcRxCheck => exact rxCheckPacket_packetReady s
  | hbcRxNext =>
    refine (rxPacketNext_packetReady s).trans ?_
    by_cases hmarker : s.rx.rdPacketMarker = -1
    · rw [if_pos hmarker, cmdConsumes, decide_eq_false (not_not.mpr hmarker)]
      rfl
    · rw [if_neg hmarker, cmdConsumes, decide_eq_true hmarker]
      rfl
  | hbcTxFilter =>
    obtain ⟨level, hcase⟩ := ctrlSwitch_filter arg s
    rw [hcase]
    rfl
  | _ => rfl

/-- What a byte of the control port does to the receiver is what the `switch` does, up to the
read pointer. -/
theorem hbcCtrlIrq_rx (b : Byte) (f : Firmware) :
    ∃ a, (hbcCtrlIrq b f).dev.rx
      = { ((acceptedCase b f).elim f.dev fun r => ctrlSwitch r.1 r.2 f.dev).rx with
        rdBufAddr := a } := by
  have hload : (loadByte b f.dev).rx = f.dev.rx := by
    obtain ⟨spi, mem, hframe⟩ := loadByte_frame b f.dev
    rw [hframe]
  have hnext (s : State) : (ctrlReqNext s).rx = s.rx := rfl
  rw [hbcCtrlIrq_dev, hnext, acceptedCase]
  cases acceptedCmd b f with
  | none =>
    -- the byte goes to the loader or into the command buffer
    refine ⟨f.dev.rx.rdBufAddr, ?_⟩
    show (ite _ _ _ : State).rx = f.dev.rx
    split
    · exact hload
    · rfl
  | some r =>
    -- the trigger behind the command reads memory only
    obtain ⟨a, hdata⟩ := rx_hbcDataIrq (registered r.1 r.2 f.dev)
    have hregistered : (registered r.1 r.2 f.dev).rx
        = ((decodeCmd r.1).elim f.dev fun c => ctrlSwitch c r.2 f.dev).rx := by
      obtain ⟨n, d, hack⟩ := registered_ack r.1 r.2 f.dev
      rw [hack]
    refine ⟨a, ?_⟩
    show (execCmd r.1 r.2 f.dev).rx = _
    rw [execCmd_eq, hdata, hregistered, Option.bind_some]
    cases decodeCmd r.1 with
    | none => rfl
    | some c => rfl

/-- The control port reaches the reader by way of commands only. -/
theorem hbcCtrlIrq_queue (b : Byte) (f : Firmware) :
    let s := (acceptedCase b f).elim f.dev fun r => ctrlSwitch r.1 r.2 f.dev
    (hbcCtrlIrq b f).dev.rx.packetReady = s.rx.packetReady ∧
      (hbcCtrlIrq b f).dev.rx.rdPacketAddr = s.rx.rdPacketAddr := by
  obtain ⟨a, hrx⟩ := hbcCtrlIrq_rx b f
  rw [hrx]
  exact ⟨rfl, rfl⟩

/-! ## Runs -/

/-- The step completes a packet. -/
def Sys.completes (y : Sys) (e : Event) : Bool :=
  match e with
  | .rxReady arr => y.interruptible && ((RxCall.ready arr).marker y.fw.dev).isSome
  | _ => false

/-- The step makes `rx_packet_next` take a packet, or what it takes for one. -/
def Sys.consumes (y : Sys) (e : Event) : Bool :=
  match e with
  | .main => match y.pc with
    | .rxCall _ => takesPacket y.fw.dev
    | _ => false
  | _ => cmdConsumes (y.command e) y.fw.dev

/-- The system, with the number of completed packets that have not been consumed and the reader's
variables around each `CMD_HBC_RX_NEXT` that has come when there was none. -/
structure QueueWatch where
  sys : Sys
  unconsumed : ℕ
  emptyNexts : List (RxVars × RxVars)

/-- At the start nothing has come and nothing has been consumed. -/
def QueueWatch.boot (s : State) : QueueWatch := ⟨Sys.boot s, 0, []⟩

/-- The system goes on, and what it completes and consumes is counted. -/
def QueueWatch.step (w : QueueWatch) (e : Event) : QueueWatch where
  sys := w.sys.step e
  unconsumed := w.unconsumed - (w.sys.consumes e).toNat + (w.sys.completes e).toNat
  emptyNexts :=
    if isRxNext (w.sys.command e) ∧ w.unconsumed = 0 then
      w.emptyNexts ++ [(w.sys.fw.dev.rx, (w.sys.step e).fw.dev.rx)]
    else w.emptyNexts

/-- Nothing is consumed that is not there. -/
structure EmptyKept (w : QueueWatch) : Prop where
  nonneg : 0 ≤ w.sys.fw.dev.rx.packetReady.toInt
  ready : w.sys.fw.dev.rx.packetReady ≠ 0 → 0 < w.unconsumed
  noop : ∀ r ∈ w.emptyNexts, r.2.rdPacketAddr = r.1.rdPacketAddr ∧ r.2.packetReady = r.1.packetReady

/-- On an empty queue `CMD_HBC_RX_NEXT` finds the marker `-1` cached: that of a packet in progress,
or what the host has loaded to its place. -/
def NextIsMarked (w : QueueWatch) (e : Event) : Prop :=
  isRxNext (w.sys.command e) → w.unconsumed = 0 → w.sys.fw.dev.rx.rdPacketMarker = -1

/-- The packets that have not been consumed can be counted in an `int`. -/
def Countable (w : QueueWatch) (e : Event) : Prop :=
  w.sys.completes e → w.unconsumed + 1 < 2 ^ 31

instance (w : QueueWatch) (e : Event) : Decidable (NextIsMarked w e) :=
  inferInstanceAs (Decidable (_ → _ → _))

instance (w : QueueWatch) (e : Event) : Decidable (Countable w e) :=
  inferInstanceAs (Decidable (_ → _))

/-- `packet_ready` is the number of packets not consumed. -/
structure QueueInv (w : QueueWatch) : Prop where
  count : w.sys.fw.dev.rx.packetReady = BitVec.ofNat 32 w.unconsumed
  bound : w.unconsumed < 2 ^ 31
  noop : ∀ r ∈ w.emptyNexts, r.2.rdPacketAddr = r.1.rdPacketAddr ∧ r.2.packetReady = r.1.packetReady

/-- `packet_ready` after a step of the main loop. -/
theorem mainStep_packetReady (pc : Pc) (s : State) : (mainStep pc s).2.rx.packetReady
    = if (match pc with | .rxCall _ => takesPacket s | _ => false) then s.rx.packetReady - 1
      else s.rx.packetReady := by
  by_cases hcall : ∃ forward, pc = .rxCall forward
  · obtain ⟨forward, rfl⟩ := hcall
    exact hbcToSpi_packetReady forward s
  · have hother : ∀ forward, pc ≠ .rxCall forward := fun forward hpc => hcall ⟨forward, hpc⟩
    rw [rx_mainStep hother]
    cases pc with
    | rxCall forward => exact absurd rfl (hother forward)
    | _ => rfl

/-- `packet_ready` after a step of the system. -/
theorem Sys.step_packetReady (y : Sys) (e : Event) : (y.step e).fw.dev.rx.packetReady
    = (if y.consumes e then y.fw.dev.rx.packetReady - 1 else y.fw.dev.rx.packetReady)
      + if y.completes e then 1 else 0 := by
  have hzero (v : Word) : v = v + 0 := (BitVec.add_zero v).symm
  by_cases hhang : y.pc = .psocHang
  · -- behind `psoc_flash_device` nothing happens
    have hquiet : y.consumes e = false ∧ y.completes e = false := by
      have hoff : y.interruptible = false := decide_eq_false (not_not.mpr hhang)
      cases e with
      | main => exact ⟨by rw [consumes, hhang], rfl⟩
      | ctrl b => exact ⟨congrArg (cmdConsumes · y.fw.dev) (command_hang hhang _), rfl⟩
      | data => exact ⟨rfl, rfl⟩
      | rxData arr => exact ⟨rfl, rfl⟩
      | rxReady arr => exact ⟨rfl, by rw [completes, hoff, Bool.false_and]⟩
    rw [step_hang hhang, hquiet.1, hquiet.2]
    exact hzero _
  · cases e with
    | main =>
      rw [step_main hhang]
      exact (mainStep_packetReady y.pc y.fw.dev).trans (hzero _)
    | ctrl b =>
      rw [step_ctrl hhang]
      refine (hbcCtrlIrq_queue b y.fw).1.trans (Eq.trans ?_ (hzero _))
      have hconsumes : y.consumes (.ctrl b) = cmdConsumes (acceptedCase b y.fw) y.fw.dev :=
        congrArg (cmdConsumes · y.fw.dev) (command_ctrl hhang b)
      rw [hconsumes]
      cases acceptedCase b y.fw with
      | none => rfl
      | some r => exact ctrlSwitch_packetReady r.1 r.2 y.fw.dev
    | data =>
      rw [step_data hhang]
      exact (readerStep_hbcDataIrq y.fw.dev).2.2.2.1.trans (hzero _)
    | rxData arr =>
      rw [step_rxData hhang]
      exact (words_packetReady (.data arr) y.fw.dev).trans (hzero _)
    | rxReady arr =>
      -- only `rx_ready_int_func` counts a packet, when it writes a marker
      have hon : y.interruptible = true := decide_eq_true hhang
      have hwords := words_packetReady (.ready arr) y.fw.dev
      rw [step_rxReady hhang, completes, hon, Bool.true_and]
      show ((RxCall.ready arr).serve y.fw.dev).rx.packetReady = y.fw.dev.rx.packetReady + _
      cases hm : (RxCall.ready arr).marker y.fw.dev with
      | none =>
        rw [(serve_open hm).1, hwords]
        exact hzero _
      | some m =>
        obtain ⟨-, -, -, -, hready, -⟩ := serve_closed hm
        rw [hready, hwords]
        rfl

omit [Board] in
/-- A `CMD_HBC_RX_NEXT` comes in on the control port. -/
theorem exists_of_isRxNext {y : Sys} {e : Event} (h : isRxNext (y.command e) = true) :
    ∃ b arg, e = .ctrl b ∧ y.pc ≠ .psocHang ∧ acceptedCase b y.fw = some (.hbcRxNext, arg) := by
  cases e with
  | ctrl b =>
    unfold Sys.command at h
    dsimp only at h
    split at h
    · rename_i hon
      have hhang : y.pc ≠ .psocHang := of_decide_eq_true hon
      cases hcase : acceptedCase b y.fw with
      | none =>
        rw [hcase] at h
        cases h
      | some r =>
        obtain ⟨cmd, arg⟩ := r
        rw [hcase] at h
        cases cmd with
        | hbcRxNext => exact ⟨b, arg, rfl, hhang, hcase⟩
        | _ => cases h
    · cases h
  | main | data | rxData _ | rxReady _ => cases h

/-- With the marker of a packet in progress cached, `CMD_HBC_RX_NEXT` does nothing. -/
theorem rxNext_marked {y : Sys} {e : Event} (h : isRxNext (y.command e) = true)
    (hmarker : y.fw.dev.rx.rdPacketMarker = -1) :
    (y.step e).fw.dev.rx.rdPacketAddr = y.fw.dev.rx.rdPacketAddr ∧
      (y.step e).fw.dev.rx.packetReady = y.fw.dev.rx.packetReady := by
  obtain ⟨b, arg, rfl, hhang, hcase⟩ := exists_of_isRxNext h
  obtain ⟨hready, hpkt⟩ := hbcCtrlIrq_queue b y.fw
  have hswitch : ((acceptedCase b y.fw).elim y.fw.dev fun r => ctrlSwitch r.1 r.2 y.fw.dev)
      = y.fw.dev := by
    rw [hcase]
    exact rxPacketNext_marked hmarker
  rw [hswitch] at hready hpkt
  rw [Sys.step_ctrl hhang]
  exact ⟨hpkt, hready⟩

/-- With any other marker it takes a packet. -/
theorem rxNext_unmarked {y : Sys} {e : Event} (h : isRxNext (y.command e) = true)
    (hmarker : y.fw.dev.rx.rdPacketMarker ≠ -1) :
    (y.step e).fw.dev.rx.packetReady = y.fw.dev.rx.packetReady - 1 := by
  obtain ⟨b, arg, rfl, hhang, hcase⟩ := exists_of_isRxNext h
  have hswitch := ctrlSwitch_packetReady .hbcRxNext arg y.fw.dev
  have hconsumes : cmdConsumes (some (.hbcRxNext, arg)) y.fw.dev = true := decide_eq_true hmarker
  rw [hconsumes] at hswitch
  rw [Sys.step_ctrl hhang]
  refine (hbcCtrlIrq_queue b y.fw).1.trans ?_
  rw [hcase]
  exact hswitch

omit [Board] [HostProtocol] in
/-- Counting down in 32 bits. -/
theorem ofNat_sub_one {n : ℕ} (h : n ≠ 0) : BitVec.ofNat 32 n - 1 = BitVec.ofNat 32 (n - 1) := by
  obtain ⟨k, rfl⟩ := Nat.exists_eq_succ_of_ne_zero h
  rw [Nat.succ_eq_add_one, Nat.add_sub_cancel, BitVec.ofNat_add]
  exact BitVec.add_sub_cancel _ _

omit [Board] [HostProtocol] in
/-- A right count is never negative. -/
theorem QueueInv.kept {w : QueueWatch} (h : QueueInv w) : EmptyKept w := by
  have hbound := h.bound
  have hval : (BitVec.ofNat 32 w.unconsumed).toNat = w.unconsumed := by
    rw [BitVec.toNat_ofNat]
    omega
  refine ⟨?_, fun hne => ?_, h.noop⟩
  · rw [h.count, BitVec.toInt_eq_toNat_of_lt (by omega)]
    exact Int.natCast_nonneg _
  · rw [h.count] at hne
    -- below `2 ^ 31` the word tells the number, so it is not zero by a wrap
    by_contra hzero
    have hnone : w.unconsumed = 0 := Nat.eq_zero_of_not_pos hzero
    rw [hnone] at hne
    exact hne rfl

/-- On an empty queue nothing is consumed. -/
theorem QueueInv.consumes_empty {w : QueueWatch} {e : Event} (h : QueueInv w)
    (hnext : NextIsMarked w e) (hempty : w.unconsumed = 0) : w.sys.consumes e = false := by
  have hready : w.sys.fw.dev.rx.packetReady = 0 := by
    rw [h.count, hempty]
    rfl
  have hnone := takesPacket_of_empty hready
  have hcommand : cmdConsumes (w.sys.command e) w.sys.fw.dev = false := by
    unfold cmdConsumes
    split
    · rename_i arg hcase
      have hmarker := hnext (by rw [hcase]; rfl) hempty
      exact decide_eq_false (not_not.mpr hmarker)
    · exact hnone
    · rfl
  cases e with
  | main =>
    unfold Sys.consumes
    dsimp only
    split
    · exact hnone
    · rfl
  | ctrl b => exact hcommand
  | data | rxData _ | rxReady _ => rfl

/-- A step that meets the conditions counts right. -/
theorem QueueInv.step {w : QueueWatch} {e : Event} (h : QueueInv w) (hcount : Countable w e)
    (hnext : NextIsMarked w e) : QueueInv (w.step e) := by
  have hready := w.sys.step_packetReady e
  constructor
  · show (w.sys.step e).fw.dev.rx.packetReady = BitVec.ofNat 32
      (w.unconsumed - (w.sys.consumes e).toNat + (w.sys.completes e).toNat)
    have htaken : (if w.sys.consumes e then w.sys.fw.dev.rx.packetReady - 1
        else w.sys.fw.dev.rx.packetReady)
        = BitVec.ofNat 32 (w.unconsumed - (w.sys.consumes e).toNat) := by
      cases hconsumes : w.sys.consumes e with
      | false => exact h.count
      | true =>
        -- whoever consumes has tested `packet_ready`, or is `CMD_HBC_RX_NEXT` under the condition
        have hsome : w.unconsumed ≠ 0 := by
          intro hempty
          rw [h.consumes_empty hnext hempty] at hconsumes
          cases hconsumes
        rw [if_pos rfl, h.count]
        exact ofNat_sub_one hsome
    rw [hready, htaken, BitVec.ofNat_add]
    cases w.sys.completes e with
    | false => rfl
    | true => rfl
  · show w.unconsumed - (w.sys.consumes e).toNat + (w.sys.completes e).toNat < 2 ^ 31
    have hbound := h.bound
    cases hcompletes : w.sys.completes e with
    | false =>
      rw [Bool.toNat_false]
      omega
    | true =>
      -- a completed packet is the only way up
      have hroom := hcount hcompletes
      rw [Bool.toNat_true]
      omega
  · intro r hr
    unfold QueueWatch.step at hr
    dsimp only at hr
    split at hr
    · rename_i hempty
      rcases List.mem_append.mp hr with hold | hnew
      · exact h.noop r hold
      · rw [List.mem_singleton.mp hnew]
        exact rxNext_marked hempty.1 (hnext hempty.1 hempty.2)
    · exact h.noop r hr

/-- A packet that is not there makes `packet_ready` negative. -/
theorem QueueInv.nextIsMarked {w : QueueWatch} {e : Event} (h : QueueInv w)
    (hkept : EmptyKept (w.step e)) : NextIsMarked w e := by
  intro hnext hempty
  by_contra hmarker
  have hready : (w.step e).sys.fw.dev.rx.packetReady = BitVec.ofNat 32 w.unconsumed - 1 := by
    rw [← h.count]
    exact rxNext_unmarked hnext hmarker
  have hnonneg := hkept.nonneg
  rw [hready, hempty] at hnonneg
  exact absurd hnonneg (by decide)

/-- So does the packet behind the last one that an `int` can count. -/
theorem QueueInv.countable {w : QueueWatch} {e : Event} (h : QueueInv w)
    (hkept : EmptyKept (w.step e)) : Countable w e := by
  intro hcompletes
  by_contra hfull
  have hbound := h.bound
  have hlast : w.unconsumed + 1 = 2 ^ 31 := by omega
  -- the handler that completes a packet consumes none
  have hconsumes : w.sys.consumes e = false := by
    cases e with
    | rxReady arr => rfl
    | main | ctrl b | data | rxData arr => cases hcompletes
  have hready : (w.step e).sys.fw.dev.rx.packetReady = BitVec.ofNat 32 (w.unconsumed + 1) := by
    have hstep := w.sys.step_packetReady e
    rw [hconsumes, hcompletes, h.count] at hstep
    rw [BitVec.ofNat_add]
    exact hstep
  have hnonneg := hkept.nonneg
  rw [hready, hlast] at hnonneg
  exact absurd hnonneg (by decide)

/-- **An empty queue.** `CMD_HBC_RX_NEXT` on an empty queue does nothing, `packet_ready` is never
negative, and when it is not zero there is a packet to consume, exactly if every
`CMD_HBC_RX_NEXT` on an empty queue finds `-1` as the cached marker and the packets stay
countable. -/
theorem empty_queue_iff {s : State} (hboot : Boot s) (evs : List Event) :
    Run.Always QueueWatch.step EmptyKept (QueueWatch.boot s) evs ↔
      Run.Steps QueueWatch.step (fun w e => NextIsMarked w e ∧ Countable w e)
        (QueueWatch.boot s) evs := by
  have hstart : QueueInv (QueueWatch.boot s) := by
    refine ⟨?_, ?_, ?_⟩
    · show s.rx.packetReady = BitVec.ofNat 32 0
      rw [hboot.rx]
      rfl
    · show 0 < 2 ^ 31
      decide
    · intro r hr
      cases hr
  have hevery : Run.Steps QueueWatch.step (fun _ _ => True) (QueueWatch.boot s) evs :=
    Run.steps_of_forall fun _ _ _ => trivial
  refine Run.always_iff_steps (I := QueueInv) ?_ ?_ hstart hstart.kept hevery
  · intro w e h _ hC
    have hstep := h.step hC.2 hC.1
    exact ⟨hstep, hstep.kept⟩
  · intro w e h _ hkept
    exact ⟨h.nextIsMarked hkept, h.countable hkept⟩

end

/-- A packet, received and consumed, and a second `CMD_HBC_RX_NEXT` while the next one comes in. -/
def packetConsumed [HostProtocol] : List Event :=
  .rxReady [[0x800, 7]] :: sending .hbcRxReady 0 ++ sending .hbcRxNext 0 ++ [.rxData [[0x900]]]
    ++ sending .hbcRxReady 0 ++ sending .hbcRxNext 0

/-- One packet can be counted. -/
theorem packetConsumed_countable :
    letI := plainDram
    letI := plainProtocol
    Run.Steps QueueWatch.step Countable (QueueWatch.boot bootState) packetConsumed := by
  decide +kernel

/-- The commands come when they may. -/
theorem packetConsumed_marked :
    letI := plainDram
    letI := plainProtocol
    Run.Steps QueueWatch.step NextIsMarked (QueueWatch.boot bootState) packetConsumed := by
  decide +kernel

/-- A packet is read and dropped, and the next `CMD_HBC_RX_NEXT` finds another one coming in. -/
theorem empty_queue_packet_in_progress :
    letI := plainDram
    letI := plainProtocol
    Run.Always QueueWatch.step EmptyKept (QueueWatch.boot bootState) packetConsumed := by
  let := plainDram
  let := plainProtocol
  exact (empty_queue_iff bootState_boot packetConsumed).mpr
    (packetConsumed_marked.and packetConsumed_countable)

/-- At start-up the cached marker is zero, and `packet_ready` becomes `-1`. -/
theorem next_at_start_up :
    letI := plainDram
    letI := plainProtocol
    ¬ Run.Always QueueWatch.step EmptyKept (QueueWatch.boot bootState) (sending .hbcRxNext 0) := by
  let := plainDram
  let := plainProtocol
  intro h
  have hready : (Run.run QueueWatch.step (QueueWatch.boot bootState)
      (sending .hbcRxNext 0)).sys.fw.dev.rx.packetReady = -1 := by decide +kernel
  have hlast := h.last
  generalize Run.run QueueWatch.step (QueueWatch.boot bootState) (sending .hbcRxNext 0) = w
    at hready hlast
  have hnonneg := hlast.nonneg
  rw [hready] at hnonneg
  exact absurd hnonneg (by decide)

end HbcMac
