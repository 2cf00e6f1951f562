import HbcMac.DumpIsolation
import HbcMac.EmptyQueue

/-!
# Walking the queue with `CMD_HBC_RX_NEXT`

`rx_packet_next` advances by the size of the packet that `rx_packet_ready` has looked at last. The
forwarder and the packet check look before every advance; `CMD_HBC_RX_NEXT` does not, so a row of
them takes the first packet's size for that of all others.
-/

namespace HbcMac

/-- The commands about received packets. -/
def Cmd.isRx : Cmd → Bool
  | .hbcRxReady | .hbcRxLength | .hbcRxBytesRead | .hbcRxCrcOk | .hbcRxRead | .hbcRxNext
  | .hbcRxCheck | .hbcRxAuto | .hbcRxGetRdAddr | .hbcRxGetWrAddr | .hbcRxFlood => true
  | _ => false

/-! ## The cached marker -/

/-- What a call of `rx_packet_next` adds to the read cursor, with marker `m` cached. -/
def stride (m : Word) : Word := if m = -1 then 0 else m

/-- What it takes off `packet_ready`. -/
def released (m : Word) : Word := if m = -1 then 0 else 1

/-- The reader moves on by the cached marker. -/
theorem rxPacketNext_place (s : State) :
    (rxPacketNext s).rx.rdPacketAddr = s.rx.rdPacketAddr + stride s.rx.rdPacketMarker ∧
    (rxPacketNext s).rx.packetReady = s.rx.packetReady - released s.rx.rdPacketMarker ∧
    (rxPacketNext s).rx.rdPacketMarker = s.rx.rdPacketMarker := by
  unfold rxPacketNext stride released
  split
  · exact ⟨(BitVec.add_zero _).symm, (BitVec.sub_zero _).symm, rfl⟩
  · exact ⟨rfl, rfl, rfl⟩

section
variable [Board] [HostProtocol]

/-- The other commands have nothing to do with the receiver. -/
theorem ctrlSwitch_rx {cmd : Cmd} (h : cmd.isRx = false) (arg : Word) (s : State) :
    (ctrlSwitch cmd arg s).rx = s.rx := by
  have hdevices (h : cmd.usesDevices = true) := ctrlSwitch_devices h arg s
  cases cmd with
  | memTest | flashRead | flashWrite =>
    obtain ⟨r, hr, hcase⟩ := hdevices rfl
    rw [hcase]
    exact hr.rx
  | hbcTxFilter =>
    obtain ⟨level, hcase⟩ := ctrlSwitch_filter arg s
    rw [hcase]
    rfl
  | hbcRxReady | hbcRxLength | hbcRxBytesRead | hbcRxCrcOk | hbcRxRead | hbcRxNext | hbcRxCheck
  | hbcRxAuto | hbcRxGetRdAddr | hbcRxGetWrAddr | hbcRxFlood => cases h
  | _ => rfl

/-! ## Steps -/

/-- A step without `hbc_to_spi` and without a command about received packets other than
`CMD_HBC_RX_NEXT`. -/
structure OnlyNext (y : Sys) (e : Event) : Prop where
  command : (y.command e).any (fun r => r.1.isRx && r.1 ≠ .hbcRxNext) = false
  looks : ¬ looks y e

instance (y : Sys) (e : Event) : Decidable (OnlyNext y e) :=
  decidable_of_iff ((y.command e).any (fun r => r.1.isRx && r.1 ≠ .hbcRxNext) = false ∧
      ¬ (e.isMain = true ∧ (y.pc = .rxCall true ∨ y.pc = .rxCall false)))
    ⟨fun h => ⟨h.1, fun hlook => h.2 ((looks_iff y e).mp hlook)⟩,
      fun h => ⟨h.command, fun hlook => h.looks ((looks_iff y e).mpr hlook)⟩⟩

/-- The read cursor, the cached marker and the count of packets after a step. -/
structure PlaceAfter (y : Sys) (e : Event) : Prop where
  marker : (y.step e).fw.dev.rx.rdPacketMarker = y.fw.dev.rx.rdPacketMarker
  packetAddr : (y.step e).fw.dev.rx.rdPacketAddr
    = if isRxNext (y.command e) then
        y.fw.dev.rx.rdPacketAddr + stride y.fw.dev.rx.rdPacketMarker
      else y.fw.dev.rx.rdPacketAddr
  packetReady : (y.step e).fw.dev.rx.packetReady
    = (if isRxNext (y.command e) then
        y.fw.dev.rx.packetReady - released y.fw.dev.rx.rdPacketMarker
      else y.fw.dev.rx.packetReady) + if y.completes e then 1 else 0

/-- A step that leaves them alone. -/
theorem PlaceAfter.same {y : Sys} {e : Event} (hcommand : isRxNext (y.command e) = false)
    (hcompletes : y.completes e = false)
    (hmarker : (y.step e).fw.dev.rx.rdPacketMarker = y.fw.dev.rx.rdPacketMarker)
    (haddr : (y.step e).fw.dev.rx.rdPacketAddr = y.fw.dev.rx.rdPacketAddr)
    (hready : (y.step e).fw.dev.rx.packetReady = y.fw.dev.rx.packetReady) : PlaceAfter y e := by
  refine ⟨hmarker, ?_, ?_⟩
  · rw [hcommand]
    exact haddr
  · rw [hcommand, hcompletes]
    exact hready.trans (BitVec.add_zero _).symm

/-- A byte moves the reader by way of `CMD_HBC_RX_NEXT` only. -/
theorem PlaceAfter.ctrl {y : Sys} (hpc : y.pc ≠ .psocHang) {b : Byte} (h : OnlyNext y (.ctrl b)) :
    PlaceAfter y (.ctrl b) := by
  obtain ⟨a, hrx⟩ := hbcCtrlIrq_rx b y.fw
  have hcommand := h.command
  have hstep : (y.step (.ctrl b)).fw.dev.rx = (hbcCtrlIrq b y.fw).dev.rx := by
    rw [Sys.step_ctrl hpc]
  rw [Sys.command_ctrl hpc] at hcommand
  -- only the `switch` has to do with the receiver
  have hsame (hnext : isRxNext (acceptedCase b y.fw) = false)
      (hswitch : ((acceptedCase b y.fw).elim y.fw.dev fun r => ctrlSwitch r.1 r.2 y.fw.dev).rx
        = y.fw.dev.rx) : PlaceAfter y (.ctrl b) := by
    rw [hswitch] at hrx
    refine .same (by rwa [Sys.command_ctrl hpc]) rfl ?_ ?_ ?_ <;> rw [hstep, hrx]
  cases hcase : acceptedCase b y.fw with
  | none => exact hsame (by rw [hcase]; rfl) (by rw [hcase]; rfl)
  | some r =>
    obtain ⟨cmd, arg⟩ := r
    by_cases hcmd : cmd = .hbcRxNext
    · obtain ⟨haddr, hready, hmarker⟩ := rxPacketNext_place y.fw.dev
      have hnext : isRxNext (y.command (.ctrl b)) = true := by
        rw [Sys.command_ctrl hpc, hcase, hcmd]
        rfl
      rw [hcase, hcmd] at hrx
      refine ⟨?_, ?_, ?_⟩
      · rw [hstep, hrx]
        exact hmarker
      · rw [hstep, hrx, if_pos hnext]
        exact haddr
      · rw [hstep, hrx, if_pos hnext]
        exact hready.trans (BitVec.add_zero _).symm
    · have hother : cmd.isRx = false := by
        rw [hcase, Option.any_some, decide_eq_true hcmd, Bool.and_true] at hcommand
        exact hcommand
      refine hsame ?_ ?_
      · rw [hcase]
        cases cmd with
        | hbcRxNext => cases hother
        | _ => rfl
      · rw [hcase]
        exact ctrlSwitch_rx hother arg y.fw.dev

/-- So does any step that is allowed. -/
theorem PlaceAfter.of_onlyNext {y : Sys} {e : Event} (h : OnlyNext y e) : PlaceAfter y e := by
  by_cases hpc : y.pc = .psocHang
  · have hnext : isRxNext (y.command e) = false := by
      rw [Sys.command_hang hpc]
      rfl
    have hcompletes : y.completes e = false := by
      have hoff : y.interruptible = false := decide_eq_false (not_not.mpr hpc)
      cases e with
      | rxReady arr => rw [Sys.completes, hoff, Bool.false_and]
      | _ => rfl
    refine .same hnext hcompletes ?_ ?_ ?_ <;> rw [Sys.step_hang hpc]
  · cases e with
    | main =>
      have hother : ∀ forward, y.pc ≠ .rxCall forward :=
        fun forward hcall => h.looks ⟨rfl, forward, hcall⟩
      have hrx : (y.step .main).fw.dev.rx = y.fw.dev.rx := by
        rw [Sys.step_main hpc]
        exact rx_mainStep hother y.fw.dev
      refine .same rfl rfl ?_ ?_ ?_ <;> rw [hrx]
    | ctrl b => exact .ctrl hpc h
    | data =>
      obtain ⟨a, hrx⟩ := rx_hbcDataIrq y.fw.dev
      have hstep : (y.step .data).fw.dev.rx = (hbcDataIrq y.fw.dev).rx := by
        rw [Sys.step_data hpc]
      refine .same rfl rfl ?_ ?_ ?_ <;> rw [hstep, hrx]
    | rxData arr =>
      have hw := writerStep_rxData y.fw.dev arr
      have hstep : (y.step (.rxData arr)).fw.dev.rx
          = (rxInterrupt rxDataIntFunc arr y.fw.dev).rx := by
        rw [Sys.step_rxData hpc]
      refine .same rfl rfl ?_ ?_ ?_
      · rw [hstep, hw.rdPacketMarker]
      · rw [hstep, hw.rdPacketAddr]
      · rw [hstep]
        exact words_packetReady (.data arr) y.fw.dev
    | rxReady arr =>
      -- a packet that is completed is counted
      have hw := writerStep_rxReady y.fw.dev arr
      have hready := y.step_packetReady (.rxReady arr)
      have hstep : (y.step (.rxReady arr)).fw.dev.rx
          = (rxInterrupt rxReadyIntFunc arr y.fw.dev).rx := by
        rw [Sys.step_rxReady hpc]
      exact ⟨by rw [hstep, hw.rdPacketMarker], by rw [hstep]; exact hw.rdPacketAddr, hready⟩

/-! ## Runs -/

/-- The system since a `CMD_HBC_RX_READY`, with the number of `CMD_HBC_RX_NEXT` commands and of
packets completed since. -/
structure Walk where
  sys : Sys
  nexts : ℕ
  arrived : ℕ

/-- One event, with what it consumes and completes. -/
def Walk.step (w : Walk) (e : Event) : Walk where
  sys := w.sys.step e
  nexts := w.nexts + (isRxNext (w.sys.command e)).toNat
  arrived := w.arrived + (w.sys.completes e).toNat

/-- From read cursor `a` and count `r` on, every command has added the same marker `m`. -/
structure Walked (a m r : Word) (w : Walk) : Prop where
  marker : w.sys.fw.dev.rx.rdPacketMarker = m
  packetAddr : w.sys.fw.dev.rx.rdPacketAddr = a + BitVec.ofNat 32 w.nexts * stride m
  packetReady : w.sys.fw.dev.rx.packetReady
    = r + BitVec.ofNat 32 w.arrived - BitVec.ofNat 32 w.nexts * released m

/-- Every command adds the same marker. -/
theorem Walked.step {a m r : Word} {w : Walk} {e : Event} (h : Walked a m r w)
    (hC : OnlyNext w.sys e) : Walked a m r (w.step e) := by
  obtain ⟨hmarker, haddr, hready⟩ := PlaceAfter.of_onlyNext hC
  have hsucc (n : ℕ) (d : Word) :
      BitVec.ofNat 32 (n + 1) * d = BitVec.ofNat 32 n * d + d := by
    rw [BitVec.ofNat_add, BitVec.add_mul]
    exact congrArg _ (BitVec.one_mul d)
  rw [h.marker] at hmarker haddr hready
  rw [h.packetAddr] at haddr
  rw [h.packetReady] at hready
  refine ⟨hmarker, haddr.trans ?_, hready.trans ?_⟩
  · show _ = a + BitVec.ofNat 32 (w.nexts + (isRxNext (w.sys.command e)).toNat) * stride m
    cases isRxNext (w.sys.command e) with
    | false => rfl
    | true =>
      rw [if_pos rfl, Bool.toNat_true, hsucc]
      grind
  · show _ = r + BitVec.ofNat 32 (w.arrived + (w.sys.completes e).toNat)
      - BitVec.ofNat 32 (w.nexts + (isRxNext (w.sys.command e)).toNat) * released m
    have harrived : BitVec.ofNat 32 (w.arrived + (w.sys.completes e).toNat)
        = BitVec.ofNat 32 w.arrived + if w.sys.completes e then 1 else 0 := by
      rw [BitVec.ofNat_add]
      cases w.sys.completes e <;> rfl
    rw [harrived]
    cases isRxNext (w.sys.command e) with
    | false =>
      rw [if_neg Bool.false_ne_true, Bool.toNat_false, Nat.add_zero]
      grind
    | true =>
      rw [if_pos rfl, Bool.toNat_true, hsucc]
      grind

/-- The completed packets `ps` lie one behind the other in the ring, the first one where the
reader stands. -/
structure Queued (c : ℕ) (ps : List (List Word)) (s : State) : Prop where
  start : c < halfSize
  packetAddr : s.rx.rdPacketAddr = ringAddr c
  packets : HoldsPackets s.mem.cells c ps
  nonempty : ∀ p ∈ ps, p ≠ []
  fits : queueBytes ps ≤ halfSize

omit [HostProtocol] in
/-- The marker at the cursor is that of the oldest packet. -/
theorem Queued.marker {c : ℕ} {p : List Word} {ps : List (List Word)} {s : State}
    (h : Queued c (p :: ps) s) : s.mem.get s.rx.rdPacketAddr = BitVec.ofNat 32 (packetBytes p) := by
  rw [h.packetAddr]
  exact h.packets.1 0 (Nat.succ_pos _)

/-- The walk begins with the step in which `CMD_HBC_RX_READY` is executed. -/
def Walk.start (y : Sys) (b : Byte) : Walk := ⟨y.step (.ctrl b), 0, 0⟩

/-- `CMD_HBC_RX_READY` caches it. -/
theorem walked_start {y : Sys} {b : Byte} {arg : Word}
    (h : y.command (.ctrl b) = some (.hbcRxReady, arg)) :
    Walked y.fw.dev.rx.rdPacketAddr (y.fw.dev.mem.get y.fw.dev.rx.rdPacketAddr)
      y.fw.dev.rx.packetReady (Walk.start y b) := by
  have hpc : y.pc ≠ .psocHang := by
    intro hhang
    rw [Sys.command_hang hhang] at h
    cases h
  obtain ⟨a, hrx⟩ := hbcCtrlIrq_rx b y.fw
  rw [Sys.command_ctrl hpc] at h
  have hstep : (Walk.start y b).sys.fw.dev.rx = (hbcCtrlIrq b y.fw).dev.rx := by
    rw [Walk.start, Sys.step_ctrl hpc]
  rw [h] at hrx
  have hzero (d : Word) : BitVec.ofNat 32 0 * d = 0#32 := BitVec.zero_mul
  refine ⟨?_, ?_, ?_⟩
  · rw [hstep, hrx]
    rfl
  · rw [hstep, hrx]
    show y.fw.dev.rx.rdPacketAddr = _ + BitVec.ofNat 32 0 * _
    rw [hzero, BitVec.add_zero]
  · rw [hstep, hrx]
    show y.fw.dev.rx.packetReady = _ + BitVec.ofNat 32 0 - BitVec.ofNat 32 0 * _
    rw [hzero, BitVec.sub_zero, BitVec.add_zero]

/-- The reader stands at the packet behind those the host has asked to skip, and these have been
taken off the count `r`. -/
def AtNext (c : ℕ) (ps : List (List Word)) (r : Word) (w : Walk) : Prop :=
  w.sys.fw.dev.rx.rdPacketAddr = ringAddr (c + queueBytes (ps.take w.nexts)) ∧
    w.sys.fw.dev.rx.packetReady = r + BitVec.ofNat 32 w.arrived - BitVec.ofNat 32 w.nexts

omit [Board] [HostProtocol] in
/-- In front of the end of the ring the plain sum is right. -/
theorem ringAddr_add {c n : ℕ} (h : c + n < halfSize) :
    ringAddr (c + n) = ringAddr c + BitVec.ofNat 32 n := by
  rw [ringAddr_of_lt h, ringAddr_of_lt (by omega), BitVec.ofNat_add, BitVec.add_assoc]

/-- **Walking the queue.** A row of `CMD_HBC_RX_NEXT` commands behind a `CMD_HBC_RX_READY`, without
another command about received packets and without a round of the forwarder, skips as many packets
exactly if these are as long together as if each had the length of the first. -/
theorem next_walks_iff {y : Sys} {b : Byte} {arg : Word}
    (hready : y.command (.ctrl b) = some (.hbcRxReady, arg)) {c : ℕ} {ps : List (List Word)}
    (hqueue : Queued c ps y.fw.dev) {evs : List Event}
    (hfree : Run.Steps Walk.step (fun w e => OnlyNext w.sys e) (Walk.start y b) evs) :
    let w := Run.run Walk.step (Walk.start y b) evs
    w.nexts ≤ ps.length → c + queueBytes (ps.take w.nexts) < halfSize →
      (AtNext c ps y.fw.dev.rx.packetReady w ↔
        w.nexts * packetBytes (ps.headD []) % 2 ^ 32 = queueBytes (ps.take w.nexts)) := by
  intro w hcount hwrap
  have hwalked : Walked _ _ _ w :=
    Run.run_of_step (fun _ _ h hC => h.step hC) (walked_start hready) hfree
  obtain ⟨-, haddr, hcounted⟩ := hwalked
  rw [AtNext, haddr, hcounted, hqueue.packetAddr, ringAddr_add hwrap]
  cases ps with
  | nil =>
    -- no packet, and no command
    have hnone : w.nexts = 0 := Nat.le_zero.mp hcount
    rw [hnone]
    simp [queueBytes_nil]
  | cons p ps =>
    have hfits := hqueue.fits
    rw [queueBytes_cons, halfSize_eq] at hfits
    have hmarker : y.fw.dev.mem.get (ringAddr c) = BitVec.ofNat 32 (packetBytes p) := by
      rw [← hqueue.packetAddr]
      exact hqueue.marker
    have hne : BitVec.ofNat 32 (packetBytes p) ≠ -1 :=
      packetBytes_ne_neg_one (by rw [halfSize_eq]; omega)
    have hsum : queueBytes ((p :: ps).take w.nexts) < 2 ^ 32 := by
      rw [halfSize_eq] at hwrap
      omega
    have hone (v : Word) : v * 1 = v := BitVec.mul_one v
    rw [hmarker, stride, released, if_neg hne, if_neg hne, hone, and_iff_left rfl,
      BitVec.add_right_inj, ← BitVec.ofNat_mul, ← BitVec.toNat_inj, BitVec.toNat_ofNat,
      BitVec.toNat_ofNat, Nat.mod_eq_of_lt hsum, List.headD_cons]

end

/-- Two packets of one payload word, one without payload, and the packet of `CMD_HBC_RX_READY` but
for its last byte. -/
def threePackets [Board] [HostProtocol] : Sys :=
  Run.run Sys.step (Sys.boot bootState)
    ([.rxReady [[0x800, 7]], .rxReady [[0x900, 8]], .rxReady [[0xA00]]]
      ++ (sending .hbcRxReady 0).dropLast)

/-- The byte that completes it. -/
def readyByte [HostProtocol] : Byte :=
  (commandPkt (HostProtocol.code .hbcRxReady) 0).get ⟨5, by decide⟩

theorem queued_threePackets :
    letI := plainDram
    letI := plainProtocol
    Queued 0 [[0x800, 7], [0x900, 8], [0xA00]] threePackets.fw.dev := by
  let := plainDram
  let := plainProtocol
  refine ⟨by decide, by decide +kernel, ⟨?_, ?_, ?_, trivial⟩, by decide, by decide⟩
  · unfold Holds
    decide +kernel
  · unfold Holds
    decide +kernel
  · unfold Holds
    decide +kernel

theorem threePackets_ready :
    letI := plainDram
    letI := plainProtocol
    threePackets.command (.ctrl readyByte) = some (.hbcRxReady, 0) := by
  decide +kernel

theorem threePackets_onlyNext :
    letI := plainDram
    letI := plainProtocol
    Run.Steps Walk.step (fun w e => OnlyNext w.sys e) (Walk.start threePackets readyByte)
      (sending .hbcRxNext 0) := by
  decide +kernel

theorem threePackets_once :
    letI := plainDram
    letI := plainProtocol
    (Run.run Walk.step (Walk.start threePackets readyByte) (sending .hbcRxNext 0)).nexts = 1 := by
  decide +kernel

/-- One command goes to the second packet. -/
theorem next_walks_once :
    letI := plainDram
    letI := plainProtocol
    AtNext 0 [[0x800, 7], [0x900, 8], [0xA00]] threePackets.fw.dev.rx.packetReady
      (Run.run Walk.step (Walk.start threePackets readyByte) (sending .hbcRxNext 0)) := by
  have hwalk := @next_walks_iff plainDram.toBoard plainProtocol _ _ _ threePackets_ready _ _
    queued_threePackets _ threePackets_onlyNext
  simp only [threePackets_once] at hwalk
  exact (hwalk (by decide) (by decide)).mpr rfl

/-- The third command starts from the third packet, which is the shortest, and leaves the reader
four bytes behind its end. -/
theorem next_overshoots :
    letI := plainDram
    letI := plainProtocol
    let w := Run.run Walk.step (Walk.start threePackets readyByte)
      (sending .hbcRxNext 0 ++ sending .hbcRxNext 0 ++ sending .hbcRxNext 0)
    w.nexts = 3 ∧ w.sys.fw.dev.rx.rdPacketAddr = memRxBuf + 36 ∧
      ringAddr (queueBytes [[0x800, 7], [0x900, 8], [0xA00]]) = memRxBuf + 32 := by
  decide +kernel

end HbcMac
