import HbcMac.AutoForward
import HbcMac.CheckPacket
import HbcMac.QueueWalk
import HbcMac.RingApart

/-!
# The receive commands as a queue

A host that polls looks at the oldest packet with `CMD_HBC_RX_READY`, goes through it with
`CMD_HBC_RX_READ` and drops it with `CMD_HBC_RX_NEXT`. Behind these commands is a queue of packets
with one place to read at. The main loop, the ports and the receiver work on meanwhile.
-/

namespace HbcMac

/-! ## The queue -/

/-- The commands of a host that polls. -/
inductive Poll
  | ready | length | bytesRead | crcOk | read | next | check
  deriving DecidableEq

/-- The receive commands among all commands. -/
def Cmd.poll : Cmd → Option Poll
  | .hbcRxReady => some .ready
  | .hbcRxLength => some .length
  | .hbcRxBytesRead => some .bytesRead
  | .hbcRxCrcOk => some .crcOk
  | .hbcRxRead => some .read
  | .hbcRxNext => some .next
  | .hbcRxCheck => some .check
  | _ => none

/-- The packets dropped, those waiting, the oldest first, and the words of the one in progress.
After a look at the oldest packet, the number of its words read since. -/
structure PacketQueue where
  dropped : List (List Word)
  waiting : List (List Word)
  current : List Word
  looked : Option ℕ

namespace PacketQueue

/-- Nothing has come in. -/
def empty : PacketQueue := ⟨[], [], [], none⟩

/-- Words of the packet in progress. -/
def words (ws : List Word) (q : PacketQueue) : PacketQueue := { q with current := q.current ++ ws }

/-- The last words of a packet. -/
def finish (ws : List Word) (q : PacketQueue) : PacketQueue :=
  { q with
    waiting := if q.current ++ ws = [] then q.waiting else q.waiting ++ [q.current ++ ws]
    current := [] }

/-- The oldest packet goes. -/
def drop (q : PacketQueue) : PacketQueue :=
  { q with
    dropped := q.dropped ++ q.waiting.take 1
    waiting := q.waiting.tail
    looked := none }

/-- What a command does to the queue. -/
def poll (p : Poll) (q : PacketQueue) : PacketQueue :=
  match p with
  | .ready => { q with looked := if q.waiting = [] then none else some 0 }
  | .read => { q with looked := q.looked.map (· + 1) }
  | .next | .check => q.drop
  | .length | .bytesRead | .crcOk => q

/-- The packet looked at. -/
def packet (q : PacketQueue) : Option (List Word) := q.looked.bind fun _ => q.waiting.head?

/-- What a command answers, where the queue says it. -/
def reply [Board] (p : Poll) (q : PacketQueue) : Option Word :=
  match p with
  | .ready => some (BitVec.ofNat 32 q.waiting.length)
  | .length => q.packet.map fun ws => (announcedLength (ws.headD 0)).setWidth 32
  | .bytesRead => q.packet.map fun ws => BitVec.ofNat 32 (4 * ws.tail.length)
  | .crcOk => q.packet.map fun ws => if headerCrc (ws.headD 0) = 0 then 1 else 0
  | .read => q.looked.bind fun k => q.waiting.head?.bind fun ws => (packetClosed ws)[k]?
  | .next | .check => none

/-- The packets start within the first lap, and none of those not dropped is overrun. -/
structure Fits (q : PacketQueue) : Prop where
  lap : queueBytes (q.dropped ++ q.waiting).dropLast < halfSize
  room : queueBytes q.waiting + packetBytes q.current ≤ halfSize

instance (q : PacketQueue) : Decidable q.Fits :=
  decidable_of_iff (queueBytes (q.dropped ++ q.waiting).dropLast < halfSize ∧
      queueBytes q.waiting + packetBytes q.current ≤ halfSize)
    ⟨fun h => ⟨h.1, h.2⟩, fun h => ⟨h.lap, h.room⟩⟩

end PacketQueue

/-! ## The firmware beside it -/

section
variable [HostProtocol]

/-- What the queue makes of an event. -/
def PacketQueue.after (q : PacketQueue) (y : Sys) (e : Event) : PacketQueue :=
  match e with
  | .rxData arr => if y.interruptible then q.words arr.flatten else q
  | .rxReady arr => if y.interruptible then q.finish arr.flatten else q
  | _ => ((y.command e).bind fun r => r.1.poll).elim q fun p => q.poll p

/-- An event that is no receive interrupt. -/
theorem PacketQueue.after_command {e : Event} (he : e.receives = false) (q : PacketQueue)
    (y : Sys) : q.after y e = ((y.command e).bind fun r => r.1.poll).elim q fun p => q.poll p := by
  cases e with
  | rxData arr | rxReady arr => cases he
  | main | ctrl b | data => rfl

/-- The firmware, and the queue its host sees. -/
structure Polling where
  sys : Sys
  queue : PacketQueue

variable [Board]

namespace Polling

/-- The firmware at its start, beside the empty queue. -/
def boot (s : State) : Polling := ⟨Sys.boot s, .empty⟩

/-- The two go on together. -/
def step (z : Polling) (e : Event) : Polling := ⟨z.sys.step e, z.queue.after z.sys e⟩

/-- A host that polls: it does not have the packets forwarded, drops a packet only after a look at
it and loads to the transmit half; nothing uses the scrambler while a packet is coming in, and the
words of a receive interrupt are there when its handler starts. -/
structure Polite (z : Polling) (e : Event) : Prop where
  loads : LoadsLow z.sys e
  forwards : (z.sys.command e).all fun r => (r.1 = .hbcRxAuto || r.1 = .hbcRxFlood) → r.2 = 0
  looks : ((z.sys.command e).bind fun r => r.1.poll) = some .next → z.queue.looked ≠ none
  scrambler : z.queue.current = [] ∨ z.sys.scrambles e = false
  words : e.receives = true → ReceivesOnly z.sys e

instance (y : Sys) (e : Event) : Decidable (ReceivesOnly y e) :=
  match e with
  | .ctrl _ => inferInstanceAs (Decidable False)
  | .rxData arr | .rxReady arr => inferInstanceAs (Decidable (arr.length = 1))
  | .main | .data => inferInstanceAs (Decidable True)

instance (z : Polling) (e : Event) : Decidable (z.Polite e) :=
  decidable_of_iff (LoadsLow z.sys e ∧
      ((z.sys.command e).all fun r => (r.1 = .hbcRxAuto || r.1 = .hbcRxFlood) → r.2 = 0) = true ∧
      (((z.sys.command e).bind fun r => r.1.poll) = some .next → z.queue.looked ≠ none) ∧
      (z.queue.current = [] ∨ z.sys.scrambles e = false) ∧
      (e.receives = true → ReceivesOnly z.sys e))
    ⟨fun ⟨h₁, h₂, h₃, h₄, h₅⟩ => ⟨h₁, h₂, h₃, h₄, h₅⟩,
      fun ⟨h₁, h₂, h₃, h₄, h₅⟩ => ⟨h₁, h₂, h₃, h₄, h₅⟩⟩

end Polling

/-! ## The invariant -/

/-- The loop comes to no call of `hbc_to_spi`. -/
def Pc.forwards : Pc → Bool
  | dumpBusy | rxForward | rxCall _ => true
  | _ => false

/-- The reader's variables say where it stands in the queue. -/
structure PacketQueue.Reader (q : PacketQueue) (rx : RxVars) : Prop where
  packetAddr : rx.rdPacketAddr = memRxBuf + BitVec.ofNat 32 (queueBytes q.dropped)
  packetReady : rx.packetReady = BitVec.ofNat 32 q.waiting.length
  looked : ∀ k, q.looked = some k → ∃ h ws ps, q.waiting = (h :: ws) :: ps ∧
    rx.rdPacketMarker = BitVec.ofNat 32 (packetBytes (h :: ws)) ∧ rx.rdPacketHeader = h ∧
    rx.rdBufAddr = ringAddr (queueBytes q.dropped + 4 * k)

/-- The packets of the queue lie in the ring, and nothing but the host reads them. -/
structure Polling.Inv (z : Polling) : Prop where
  pc : z.sys.pc.forwards = false
  rxAuto : z.sys.fw.dev.main.rxAuto = 0
  rxFlood : z.sys.fw.dev.main.rxFlood = 0
  fromMem : z.sys.fw.dev.spi.dumpHbcRx = false
  readWraps : z.sys.fw.dev.mem.readWraps = true
  reader : z.queue.Reader z.sys.fw.dev.rx
  ring : RingHolds (queueBytes z.queue.dropped) z.queue.waiting z.queue.current z.sys.fw.dev

/-! ## What the reader sees of the other steps -/

omit [HostProtocol] in
/-- A dump from memory does not move the reader. -/
theorem hbcDataIrq_fromMem {s : State} (h : s.spi.dumpHbcRx = false) :
    (hbcDataIrq s).rx = s.rx ∧ (hbcDataIrq s).spi.dumpHbcRx = false := by
  unfold hbcDataIrq
  split
  · exact ⟨rfl, h⟩
  · split
    · exact ⟨rfl, h⟩
    · split
      · have hfetch : (dumpFetch s).rx = s.rx := by
          unfold dumpFetch
          rw [h]
          split <;> rfl
        rw [dataDump_eq]
        exact ⟨hfetch, h⟩
      · exact ⟨rfl, h⟩

/-- The commands of the host dump memory only. -/
theorem ctrlSwitch_fromMem (cmd : Cmd) (arg : Word) {s : State} (h : s.spi.dumpHbcRx = false) :
    (ctrlSwitch cmd arg s).spi.dumpHbcRx = false := by
  have hreply {r : Word × State} (hr : Quiet s r.2) : (reply r).spi.dumpHbcRx = false :=
    (congrArg SpiVars.dumpHbcRx hr.spi).trans h
  have hdevices (h : cmd.usesDevices = true) := ctrlSwitch_devices h arg s
  cases cmd with
  | memTest | flashRead | flashWrite =>
    obtain ⟨r, hr, hcase⟩ := hdevices rfl
    rw [hcase]
    exact hreply hr.quiet
  | hbcRxCheck => exact hreply (quiet_rxCheckPacket s)
  | hbcRxNext => exact (congrArg SpiVars.dumpHbcRx (quiet_rxPacketNext s).spi).trans h
  | hbcTxFilter =>
    obtain ⟨level, hcase⟩ := ctrlSwitch_filter arg s
    rw [hcase]
    exact h
  | memDump => rfl
  | _ => exact h

/-- The other commands leave the reader alone. -/
theorem ctrlSwitch_unpolled {cmd : Cmd} (h : cmd.poll = none) (arg : Word) (s : State) :
    (ctrlSwitch cmd arg s).rx = s.rx := by
  by_cases hother : cmd.isRx = false
  · exact ctrlSwitch_rx hother arg s
  · cases cmd with
    | hbcRxAuto | hbcRxGetRdAddr | hbcRxGetWrAddr | hbcRxFlood => rfl
    | hbcRxReady | hbcRxLength | hbcRxBytesRead | hbcRxCrcOk | hbcRxRead | hbcRxNext
    | hbcRxCheck => cases h
    | _ => exact absurd rfl hother

/-- A byte of the control port does to the reader what the `switch` does. -/
theorem hbcCtrlIrq_fromMem (b : Byte) {f : Firmware} (h : f.dev.spi.dumpHbcRx = false) :
    (hbcCtrlIrq b f).dev.rx
      = ((acceptedCase b f).elim f.dev fun r => ctrlSwitch r.1 r.2 f.dev).rx ∧
    (hbcCtrlIrq b f).dev.spi.dumpHbcRx = false := by
  have hnext (s : State) : (ctrlReqNext s).rx = s.rx ∧ (ctrlReqNext s).spi = s.spi := ⟨rfl, rfl⟩
  rw [hbcCtrlIrq_dev, (hnext _).1, (hnext _).2, acceptedCase]
  cases acceptedCmd b f with
  | none =>
    show (ite _ _ _ : State).rx = f.dev.rx ∧ (ite _ _ _ : State).spi.dumpHbcRx = false
    split
    · unfold loadByte
      dsimp only
      split
      · exact ⟨rfl, h⟩
      · exact ⟨rfl, h⟩
    · exact ⟨rfl, h⟩
  | some r =>
    obtain ⟨n, d, hack⟩ := registered_ack r.1 r.2 f.dev
    have hcase : ((decodeCmd r.1).elim f.dev fun c => ctrlSwitch c r.2 f.dev).spi.dumpHbcRx
        = false := by
      cases decodeCmd r.1 with
      | none => exact h
      | some c => exact ctrlSwitch_fromMem c r.2 h
    have hregistered : (registered r.1 r.2 f.dev).spi.dumpHbcRx = false := by
      rw [hack]
      exact hcase
    obtain ⟨hrx, hfrom⟩ := hbcDataIrq_fromMem hregistered
    refine ⟨?_, ?_⟩
    · show (execCmd r.1 r.2 f.dev).rx = _
      rw [execCmd_eq, hrx, hack, Option.bind_some]
      cases decodeCmd r.1 with
      | none => rfl
      | some c => rfl
    · show (execCmd r.1 r.2 f.dev).spi.dumpHbcRx = false
      rw [execCmd_eq]
      exact hfrom

end

/-! ## The commands of the host -/

/-- The steps of `rx_check_packet` behind the look at the packet. -/
theorem rxCheckPacket_rx [Board] (s : State) :
    ∃ a, (rxCheckPacket s).2.rx = { (if s.rx.packetReady = 0 then (rxPacketReady s).2
      else rxPacketNext (rxPacketReady s).2).rx with rdBufAddr := a } := by
  have hready : (rxPacketReady s).1 = s.rx.packetReady := rfl
  have hnext (t : State) (a : Word) (ht : t.rx = { (rxPacketReady s).2.rx with rdBufAddr := a }) :
      (rxPacketNext t).rx = { (rxPacketNext (rxPacketReady s).2).rx with rdBufAddr := a } := by
    have hmarker : t.rx.rdPacketMarker = (rxPacketReady s).2.rx.rdPacketMarker := by rw [ht]
    unfold rxPacketNext
    rw [hmarker]
    split
    · exact ht
    · dsimp only
      rw [ht]
  unfold rxCheckPacket
  dsimp only
  rw [hready]
  split
  · exact ⟨_, rfl⟩
  · split
    · exact ⟨_, rfl⟩
    · split
      · exact ⟨_, rfl⟩
      · obtain ⟨a, hloop⟩ := rxCheckLoop_rx (rxPacketLength (rxPacketReady s).2).toNat 0
          (memRead (memSetRdP 0 (rxRead (rxRead (rxPacketReady s).2).2).2)).1
          (rxRead (memRead (memSetRdP 0 (rxRead (rxRead (rxPacketReady s).2).2).2)).2).1
          (rxRead (memRead (memSetRdP 0 (rxRead (rxRead (rxPacketReady s).2).2).2)).2).2
        exact ⟨a, hnext _ a hloop⟩

section
variable {q : PacketQueue} {s : State}

/-- With a packet waiting, the lap has not ended. -/
theorem PacketQueue.Fits.start {p : List Word} {ps : List (List Word)} (h : q.Fits)
    (hq : q.waiting = p :: ps) : queueBytes q.dropped < halfSize := by
  have hlap := h.lap
  rw [hq, List.dropLast_append_of_ne_nil (List.cons_ne_nil p ps), queueBytes_append] at hlap
  omega

/-- The oldest packet, whose marker is cached, is dropped. -/
theorem PacketQueue.Reader.next {h : Word} {ws : List Word} {ps : List (List Word)}
    (hreader : q.Reader s.rx) (hq : q.waiting = (h :: ws) :: ps)
    (hmarker : s.rx.rdPacketMarker = BitVec.ofNat 32 (packetBytes (h :: ws)))
    (hfit : packetBytes (h :: ws) ≤ halfSize) : q.drop.Reader (rxPacketNext s).rx := by
  have hne : s.rx.rdPacketMarker ≠ -1 := by
    rw [hmarker]
    exact packetBytes_ne_neg_one hfit
  rw [rxPacketNext_of_ne hne]
  refine ⟨?_, ?_, fun k hk => by cases hk⟩
  · show s.rx.rdPacketAddr + s.rx.rdPacketMarker
      = memRxBuf + BitVec.ofNat 32 (queueBytes (q.dropped ++ q.waiting.take 1))
    rw [hreader.packetAddr, hmarker, hq, BitVec.add_assoc, ← BitVec.ofNat_add, queueBytes_append]
    rfl
  · show s.rx.packetReady - 1 = BitVec.ofNat 32 q.waiting.tail.length
    rw [hreader.packetReady, hq, List.length_cons, BitVec.ofNat_add]
    exact BitVec.add_sub_cancel _ _

/-- What the writer does to the reader: it may count a packet. -/
theorem PacketQueue.Reader.writer {q' : PacketQueue} {t : State} (h : q.Reader s.rx)
    (hw : WriterStep s t) (hdropped : q'.dropped = q.dropped) (hlooked : q'.looked = q.looked)
    (hwaiting : q.waiting <+: q'.waiting)
    (hcount : t.rx.packetReady = BitVec.ofNat 32 q'.waiting.length) : q'.Reader t.rx := by
  obtain ⟨more, hmore⟩ := hwaiting
  refine ⟨?_, hcount, fun k hk => ?_⟩
  · rw [hw.rdPacketAddr, hdropped]
    exact h.packetAddr
  · rw [hlooked] at hk
    obtain ⟨v, ws, ps, hq, hmarker, hheader, hbuf⟩ := h.looked k hk
    refine ⟨v, ws, ps ++ more, ?_, hw.rdPacketMarker.trans hmarker,
      hw.rdPacketHeader.trans hheader, ?_⟩
    · rw [← hmore, hq, List.cons_append]
    · rw [hw.rdBufAddr, hdropped]
      exact hbuf

/-- The place in the packet does not matter when none has been looked at. -/
theorem PacketQueue.Reader.unlooked {rx : RxVars} (h : q.Reader rx) (hq : q.looked = none)
    (a : Word) : q.Reader { rx with rdBufAddr := a } :=
  ⟨h.packetAddr, h.packetReady, fun k hk => by rw [hq] at hk; cases hk⟩

variable [Board]

/-- A look at the oldest packet. -/
theorem PacketQueue.Reader.ready (h : q.Reader s.rx)
    (hring : RingHolds (queueBytes q.dropped) q.waiting q.current s) (hfits : q.Fits)
    (hwrap : s.mem.readWraps = true) : (q.poll .ready).Reader (rxPacketReady s).2.rx := by
  refine ⟨h.packetAddr, h.packetReady, fun k hk => ?_⟩
  cases hq : q.waiting with
  | nil =>
    have hnone : (q.poll .ready).looked = none := if_pos hq
    rw [hnone] at hk
    cases hk
  | cons p ps =>
    have hsome : (q.poll .ready).looked = some 0 := if_neg (by rw [hq]; exact List.cons_ne_nil p ps)
    rw [hsome] at hk
    cases hk
    have hcursor : s.rx.rdPacketAddr = ringAddr (queueBytes q.dropped) := by
      rw [h.packetAddr, ringAddr_of_lt (hfits.start hq)]
    rw [hq] at hring
    obtain ⟨w, ws, rfl⟩ := List.exists_cons_of_ne_nil (hring.nonempty p List.mem_cons_self)
    have hrx := rxPacketReady_closed hring.aligned rfl hwrap hcursor hring.packets.1
    refine ⟨w, ws, ps, hq, ?_, ?_, ?_⟩ <;> rw [hrx]
    rfl

variable [HostProtocol]

/-- **A command of the host** moves the reader as it moves the place in the queue. -/
theorem PacketQueue.Reader.poll {cmd : Cmd} {p : Poll} (h : q.Reader s.rx)
    (hring : RingHolds (queueBytes q.dropped) q.waiting q.current s) (hfits : q.Fits)
    (hwrap : s.mem.readWraps = true) (hpoll : cmd.poll = some p)
    (hlook : p = .next → q.looked ≠ none) (arg : Word) :
    (q.poll p).Reader (ctrlSwitch cmd arg s).rx := by
  have hready := h.ready hring hfits hwrap
  cases cmd <;> cases hpoll
  case hbcRxReady => exact hready
  case hbcRxLength | hbcRxBytesRead | hbcRxCrcOk => exact h
  case hbcRxRead =>
    refine ⟨h.packetAddr, h.packetReady, fun k hk => ?_⟩
    obtain ⟨j, hj, rfl⟩ := Option.map_eq_some_iff.mp hk
    obtain ⟨w, ws, ps, hq, hmarker, hheader, hbuf⟩ := h.looked j hj
    refine ⟨w, ws, ps, hq, hmarker, hheader, ?_⟩
    have haligned := hring.aligned
    show ringNext s.rx.rdBufAddr = _
    rw [hbuf, ringNext_ringAddr (by omega)]
    rfl
  case hbcRxNext =>
    obtain ⟨k, hk⟩ := Option.ne_none_iff_exists'.mp (hlook rfl)
    obtain ⟨w, ws, ps, hq, hmarker, -, -⟩ := h.looked k hk
    have hfit := hring.fits
    rw [hq, queueBytes_cons] at hfit
    exact h.next hq hmarker (by omega)
  case hbcRxCheck =>
    obtain ⟨a, hrx⟩ := rxCheckPacket_rx s
    show q.drop.Reader (rxCheckPacket s).2.rx
    rw [hrx]
    refine PacketQueue.Reader.unlooked ?_ rfl a
    cases hq : q.waiting with
    | nil =>
      -- no packet: no more than a look
      have hzero : s.rx.packetReady = 0 := by
        rw [h.packetReady, hq]
        rfl
      have hsame : q.drop = { q with looked := none } := by
        rw [PacketQueue.drop, hq, List.take_nil, List.append_nil, List.tail_nil]
      rw [if_pos hzero, hsame]
      exact ⟨h.packetAddr, h.packetReady, fun k hk => by cases hk⟩
    | cons p ps =>
      have hne : s.rx.packetReady ≠ 0 := by
        have hlt := hring.queue_lt
        rw [h.packetReady, hq, List.length_cons]
        rw [hq, List.length_cons] at hlt
        intro h0
        have hmod : (ps.length + 1) % 2 ^ 32 = 0 := by simpa using congrArg BitVec.toNat h0
        omega
      have hlooked : (q.poll .ready).looked = some 0 :=
        if_neg (by rw [hq]; exact List.cons_ne_nil p ps)
      obtain ⟨w, ws, ps', hq', hmarker, -, -⟩ := hready.looked 0 hlooked
      have hfit := hring.fits
      rw [show q.waiting = _ from hq', queueBytes_cons] at hfit
      rw [if_neg hne]
      exact PacketQueue.Reader.next (q := q.poll .ready) hready hq' hmarker (by omega)

/-- **The answer** is what the queue says. -/
theorem PacketQueue.Reader.reply {cmd : Cmd} {p : Poll} {w : Word} (h : q.Reader s.rx)
    (hring : RingHolds (queueBytes q.dropped) q.waiting q.current s) (hpoll : cmd.poll = some p)
    (hreply : q.reply p = some w) (arg : Word) :
    cmd.replies = true ∧ (ctrlSwitch cmd arg s).spi.replyData = w := by
  -- the packet looked at
  have hpacket {f : List Word → Word} (hf : q.packet.map f = some w) : ∃ h ws,
      s.rx.rdPacketMarker = BitVec.ofNat 32 (packetBytes (h :: ws)) ∧ s.rx.rdPacketHeader = h ∧
        f (h :: ws) = w := by
    obtain ⟨p', hp', rfl⟩ := Option.map_eq_some_iff.mp hf
    obtain ⟨k, hk, hhead⟩ := Option.bind_eq_some_iff.mp hp'
    obtain ⟨v, vs, ps, hq, hmarker, hheader, -⟩ := h.looked k hk
    rw [hq, List.head?_cons, Option.some.injEq] at hhead
    exact ⟨v, vs, hmarker, hheader, by rw [hhead]⟩
  cases cmd <;> cases hpoll
  case hbcRxReady =>
    refine ⟨rfl, ?_⟩
    show s.rx.packetReady = w
    rw [h.packetReady]
    exact Option.some.inj hreply
  case hbcRxLength =>
    obtain ⟨v, vs, -, hheader, rfl⟩ := hpacket hreply
    refine ⟨rfl, ?_⟩
    show (rxPacketLength s).setWidth 32 = _
    rw [rxPacketLength, hheader]
    rfl
  case hbcRxBytesRead =>
    obtain ⟨v, vs, hmarker, -, rfl⟩ := hpacket hreply
    refine ⟨rfl, ?_⟩
    show s.rx.rdPacketMarker - 8 = BitVec.ofNat 32 (4 * vs.length)
    rw [hmarker, packetBytes, BitVec.ofNat_add, BitVec.add_comm]
    exact BitVec.add_sub_cancel _ _
  case hbcRxCrcOk =>
    obtain ⟨v, vs, -, hheader, rfl⟩ := hpacket hreply
    refine ⟨rfl, ?_⟩
    show (if rxCheckCrcOk s then (1 : Word) else 0) = if headerCrc v = 0 then 1 else 0
    rw [rxCheckCrcOk, hheader]
    simp only [decide_eq_true_eq]
  case hbcRxRead =>
    obtain ⟨k, hk, hword⟩ := Option.bind_eq_some_iff.mp hreply
    obtain ⟨v, vs, ps, hq, -, -, hbuf⟩ := h.looked k hk
    rw [hq, List.head?_cons, Option.bind_some] at hword
    obtain ⟨hlt, rfl⟩ := List.getElem?_eq_some_iff.mp hword
    have hholds := hring.packets
    rw [hq] at hholds
    refine ⟨rfl, ?_⟩
    show s.mem.cells (Board.cell s.rx.rdBufAddr) = _
    rw [hbuf]
    exact hholds.1 k hlt
  case hbcRxNext | hbcRxCheck => cases hreply

end

/-! ## The loop -/

section
variable [Board] [HostProtocol]

/-- A loop that is not to forward does not come to the call. -/
theorem mainStep_forwards {pc : Pc} {s : State} (h : pc.forwards = false)
    (hauto : s.main.rxAuto = 0) (hflood : s.main.rxFlood = 0) :
    (mainStep pc s).1.forwards = false := by
  cases pc with
  | dumpBusy | rxForward | rxCall forward => cases h
  | rxFlood =>
    rw [mainStep, if_neg (not_not.mpr hflood)]
    rfl
  | rxAuto =>
    rw [mainStep, if_neg (not_not.mpr hauto)]
    rfl
  | _ =>
    unfold mainStep
    dsimp only
    first | rfl | (split <;> rfl)

omit [HostProtocol] in
/-- It does not set its own flags. -/
theorem varsOfMain_rx (pc : Pc) (s : State) : (varsOfMain pc s).rxAuto = s.main.rxAuto ∧
    (varsOfMain pc s).rxFlood = s.main.rxFlood := by
  unfold varsOfMain
  split
  case h_5 => split <;> exact ⟨rfl, rfl⟩
  all_goals exact ⟨rfl, rfl⟩

omit [Board] [HostProtocol] in
/-- Commands that ask for no forwarding. -/
theorem varsOfCommand_rx {r : Option (Cmd × Word)} {m : MainVars}
    (h : (r.all fun r => (r.1 = .hbcRxAuto || r.1 = .hbcRxFlood) → r.2 = 0) = true)
    (hauto : m.rxAuto = 0) (hflood : m.rxFlood = 0) :
    (varsOfCommand r m).rxAuto = 0 ∧ (varsOfCommand r m).rxFlood = 0 := by
  cases r with
  | none => exact ⟨hauto, hflood⟩
  | some r =>
    obtain ⟨cmd, arg⟩ := r
    have harg := of_decide_eq_true h
    cases cmd with
    | hbcRxAuto => exact ⟨harg rfl, hflood⟩
    | hbcRxFlood => exact ⟨hauto, harg rfl⟩
    | _ => exact ⟨hauto, hflood⟩

namespace Polling.Inv

variable {z : Polling} {e : Event}

/-- The loop keeps out of it. -/
theorem loop (h : z.Inv) (hpolite : z.Polite e) : (z.sys.step e).pc.forwards = false ∧
    (z.sys.step e).fw.dev.main.rxAuto = 0 ∧ (z.sys.step e).fw.dev.main.rxFlood = 0 := by
  obtain ⟨toggle, hmain⟩ := z.sys.step_main_vars e
  rw [hmain]
  by_cases he : e = .main
  · subst he
    have hvars := varsOfMain_rx z.sys.pc z.sys.fw.dev
    refine ⟨?_, hvars.1.trans h.rxAuto, hvars.2.trans h.rxFlood⟩
    rw [z.sys.step_main_dev.1]
    exact mainStep_forwards h.pc h.rxAuto h.rxFlood
  · have hvars : z.sys.varsAfter e = varsOfCommand (z.sys.command e) z.sys.fw.dev.main := by
      cases e with
      | main => exact absurd rfl he
      | _ => rfl
    rw [hvars, Sys.step_pc he]
    exact ⟨h.pc, varsOfCommand_rx hpolite.forwards h.rxAuto h.rxFlood⟩

/-- The reader's variables after a step without receive interrupt are those after the `switch`. -/
theorem rx (h : z.Inv) (he : e.receives = false) : (z.sys.step e).fw.dev.rx
      = ((z.sys.command e).elim z.sys.fw.dev fun r => ctrlSwitch r.1 r.2 z.sys.fw.dev).rx ∧
    (z.sys.step e).fw.dev.spi.dumpHbcRx = false := by
  by_cases hpc : z.sys.pc = .psocHang
  · rw [Sys.step_hang hpc, Sys.command_hang hpc]
    exact ⟨rfl, h.fromMem⟩
  · cases e with
    | main =>
      have hcall : ∀ forward, z.sys.pc ≠ .rxCall forward := by
        intro forward hcall
        have hpc' := h.pc
        rw [hcall] at hpc'
        cases hpc'
      rw [Sys.step_main hpc]
      exact ⟨rx_mainStep hcall _, (portKept_mainStep hcall _).dumpHbcRx.trans h.fromMem⟩
    | ctrl b =>
      rw [Sys.step_ctrl hpc, Sys.command_ctrl hpc]
      exact hbcCtrlIrq_fromMem b h.fromMem
    | data =>
      rw [Sys.step_data hpc]
      exact hbcDataIrq_fromMem h.fromMem
    | rxData arr | rxReady arr => cases he

end Polling.Inv

end

/-! ## Steps -/

section
variable [Dram] [HostProtocol] {z : Polling} {e : Event}

omit [Dram] in
/-- In the endless loop the queue stays as it is. -/
theorem Polling.step_hang [Board] (z : Polling) {e : Event} (hpc : z.sys.pc = .psocHang) :
    z.step e = z := by
  have hoff : ¬ z.sys.interruptible = true := by simp [Sys.interruptible, hpc]
  have hqueue : z.queue.after z.sys e = z.queue := by
    cases e with
    | rxData arr | rxReady arr => exact if_neg hoff
    | main | ctrl b | data =>
      rw [PacketQueue.after_command rfl, Sys.command_hang hpc]
      rfl
  rw [step, Sys.step_hang hpc, hqueue]

namespace Polling.Inv

/-- A step without receive interrupt. -/
theorem other (h : z.Inv) (he : e.receives = false) (hpolite : z.Polite e) (hfits : z.queue.Fits) :
    (z.step e).Inv := by
  obtain ⟨hpc, hauto, hflood⟩ := h.loop hpolite
  obtain ⟨hrx, hfrom⟩ := h.rx he
  have hring := h.ring.beside he hpolite.loads hpolite.scrambler
  have hwraps : (z.step e).sys.fw.dev.mem.readWraps = true := by
    show (z.sys.step e).fw.dev.mem.readWraps = true
    rw [Mem.readWraps, (confined_step he).flags]
    exact h.readWraps
  have hafter : (z.step e).queue = _ := PacketQueue.after_command he z.queue z.sys
  -- the packets in the ring stay, but for the one dropped
  have hdrop : RingHolds (queueBytes z.queue.drop.dropped) z.queue.drop.waiting
      z.queue.drop.current (z.sys.step e).fw.dev := by
    unfold PacketQueue.drop
    cases hq : z.queue.waiting with
    | nil =>
      rw [hq] at hring
      rw [List.take_nil, List.append_nil]
      exact hring
    | cons p ps =>
      rw [hq] at hring
      have hsum : queueBytes (z.queue.dropped ++ [p])
          = queueBytes z.queue.dropped + packetBytes p := by
        rw [queueBytes_append, queueBytes_cons, queueBytes_nil, Nat.add_zero]
      dsimp only [List.take_succ_cons, List.take_zero, List.tail_cons]
      rw [hsum]
      exact hring.tail
  refine ⟨hpc, hauto, hflood, hfrom, hwraps, ?_, ?_⟩
  · show (z.step e).queue.Reader (z.sys.step e).fw.dev.rx
    rw [hafter, hrx]
    cases hcommand : z.sys.command e with
    | none => exact h.reader
    | some r =>
      obtain ⟨cmd, arg⟩ := r
      have hlooks := hpolite.looks
      rw [hcommand, Option.bind_some] at hlooks
      rw [Option.bind_some, Option.elim_some]
      cases hpoll : cmd.poll with
      | none =>
        rw [ctrlSwitch_unpolled hpoll]
        exact h.reader
      | some p =>
        refine h.reader.poll h.ring hfits h.readWraps hpoll (fun hp => hlooks ?_) arg
        rw [hpoll, hp]
  · rw [hafter]
    cases (z.sys.command e).bind fun r => r.1.poll with
    | none => exact hring
    | some p =>
      cases p with
      | next | check => exact hdrop
      | _ => exact hring

/-- Words of the packet in progress. -/
theorem rxData {arr : List (List Word)} (h : z.Inv) (hpolite : z.Polite (.rxData arr))
    (hfits' : (z.step (.rxData arr)).queue.Fits) : (z.step (.rxData arr)).Inv := by
  by_cases hpc : z.sys.pc = .psocHang
  · rw [z.step_hang hpc]
    exact h
  · obtain ⟨hforwards, hauto, hflood⟩ := h.loop hpolite
    obtain ⟨ws, rfl⟩ := List.length_eq_one_iff.mp (hpolite.words rfl)
    have hon : z.sys.interruptible = true := decide_eq_true hpc
    have hw := writerStep_rxData z.sys.fw.dev [ws]
    have hafter : (z.step (.rxData [ws])).queue = z.queue.words ws := by
      show ite _ _ _ = _
      rw [if_pos hon, List.flatten_singleton]
    have hdev : (z.step (.rxData [ws])).sys.fw.dev
        = rxInterrupt rxDataIntFunc [ws] z.sys.fw.dev := by
      show (z.sys.step _).fw.dev = _
      rw [Sys.step_rxData hpc]
    rw [hafter] at hfits'
    have hring := h.ring.data ws hfits'.room
    have hcount := rxData_packetReady h.ring.four_dvd_end h.ring.flags h.ring.rxFifo h.ring.writer
      h.ring.scram ws
    refine ⟨hforwards, hauto, hflood, ?_, ?_, ?_, ?_⟩
    · rw [hdev, hw.spi]
      exact h.fromMem
    · rw [hdev, Mem.readWraps, hw.flags]
      exact h.readWraps
    · rw [hdev, hafter]
      exact h.reader.writer hw rfl rfl (List.prefix_refl _) (hcount.trans h.reader.packetReady)
    · rw [hdev, hafter]
      exact hring

/-- The end of a packet. -/
theorem rxReady {arr : List (List Word)} (h : z.Inv) (hpolite : z.Polite (.rxReady arr))
    (hfits' : (z.step (.rxReady arr)).queue.Fits) : (z.step (.rxReady arr)).Inv := by
  by_cases hpc : z.sys.pc = .psocHang
  · rw [z.step_hang hpc]
    exact h
  · obtain ⟨hforwards, hauto, hflood⟩ := h.loop hpolite
    obtain ⟨ws, rfl⟩ := List.length_eq_one_iff.mp (hpolite.words rfl)
    have hon : z.sys.interruptible = true := decide_eq_true hpc
    have hw := writerStep_rxReady z.sys.fw.dev [ws]
    have hafter : (z.step (.rxReady [ws])).queue = z.queue.finish ws := by
      show ite _ _ _ = _
      rw [if_pos hon, List.flatten_singleton]
    have hdev : (z.step (.rxReady [ws])).sys.fw.dev
        = rxInterrupt rxReadyIntFunc [ws] z.sys.fw.dev := by
      show (z.sys.step _).fw.dev = _
      rw [Sys.step_rxReady hpc]
    rw [hafter] at hfits'
    have hroom := hfits'.room
    have hcurrent : (z.queue.finish ws).current = [] := rfl
    rw [hcurrent, packetBytes, Nat.add_zero] at hroom
    obtain ⟨hring, hcount⟩ := h.ring.ready_any ws hroom
    refine ⟨hforwards, hauto, hflood, ?_, ?_, ?_, ?_⟩
    · rw [hdev, hw.spi]
      exact h.fromMem
    · rw [hdev, Mem.readWraps, hw.flags]
      exact h.readWraps
    · rw [hdev, hafter]
      refine h.reader.writer hw rfl rfl ?_ ?_
      · unfold PacketQueue.finish
        dsimp only
        split
        · exact List.prefix_refl _
        · exact List.prefix_append _ _
      · rw [hcount, h.reader.packetReady]
        unfold PacketQueue.finish
        dsimp only
        split
        · exact BitVec.add_zero _
        · rw [List.length_append, List.length_singleton, BitVec.ofNat_add]
          rfl
    · rw [hdev, hafter]
      exact hring

/-- **One step.** -/
theorem step (h : z.Inv) (hpolite : z.Polite e) (hfits : z.queue.Fits)
    (hfits' : (z.step e).queue.Fits) : (z.step e).Inv := by
  cases e with
  | rxData arr => exact h.rxData hpolite hfits'
  | rxReady arr => exact h.rxReady hpolite hfits'
  | main | ctrl b | data => exact h.other rfl hpolite hfits

omit [HostProtocol] in
theorem boot {s : State} (h : Boot s) : (Polling.boot s).Inv := by
  have htracks := tracks_boot h
  refine ⟨rfl, ?_, ?_, ?_, ?_, ⟨?_, ?_, fun k hk => by cases hk⟩, htracks.ring⟩
  · show s.main.rxAuto = 0
    rw [h.main]
  · show s.main.rxFlood = 0
    rw [h.main]
  · show s.spi.dumpHbcRx = false
    rw [h.spi]
  · show s.mem.readWraps = true
    rw [Mem.readWraps, h.flags]
    decide
  · show s.rx.rdPacketAddr = _
    rw [h.rx]
    rfl
  · show s.rx.packetReady = _
    rw [h.rx]
    rfl

end Polling.Inv

end

end HbcMac
