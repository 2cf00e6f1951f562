import HbcMac.CommandSteps
import HbcMac.Forwarder
import HbcMac.Lib.Run
import HbcMac.Lib.Stream
import HbcMac.RxReader
import Mathlib.Data.List.Forall2

/-!
# Forwarding is an in-order filter

Receptions, rounds of the forwarder and data interrupts in any order. The bytes on the data
port are the messages of the forwardable packets among those released, in order and once
each; the last message may still be on its way.
-/

namespace HbcMac

/-! ## Runs -/

/-- What the forwarder sees. The words of a handler call are all there before its first poll. -/
inductive FwdEvent
  /-- `rx_data_int_func` draining these words. -/
  | rxData (ws : List Word)
  /-- `rx_ready_int_func`, draining these words first. -/
  | rxReady (ws : List Word)
  /-- `hbc_to_spi(1)`. -/
  | forward
  /-- `IRQ_HBC_DATA_SPI`. -/
  | data

/-- The firmware with the packets received so far, the number of those released and the words
of the packet in progress. -/
structure FwdSys where
  dev : State
  received : List (List Word)
  released : ℕ
  current : List Word

section
variable [Board] [HostProtocol]

namespace FwdSys

/-- One event, and what becomes of the packets. -/
def step (y : FwdSys) : FwdEvent → FwdSys
  | .rxData ws =>
    { y with
      dev := rxInterrupt rxDataIntFunc [ws] y.dev
      current := y.current ++ ws }
  | .rxReady ws =>
    { y with
      dev := rxInterrupt rxReadyIntFunc [ws] y.dev
      received := if y.current ++ ws = [] then y.received else y.received ++ [y.current ++ ws]
      current := [] }
  | .forward =>
    { y with
      dev := hbcToSpi true y.dev
      released := if (rxPacketReady y.dev).1 = 0 then y.released else y.released + 1 }
  | .data => { y with dev := hbcDataIrq y.dev }

/-- The forwarder runs only when the last message is out, which the host has then taken. -/
def Allowed (y : FwdSys) (e : FwdEvent) : Prop :=
  match e with
  | .forward => spiPending y.dev = 0
  | _ => True

/-- The packets not yet consumed: not released, or released and still being dumped. -/
def needed (y : FwdSys) : List (List Word) :=
  y.received.drop (if y.dev.spi.dumpingMem = 0 then y.released else y.released - 1)

/-- The packets start within the first lap and the needed ones are not overrun. -/
structure Fits (y : FwdSys) : Prop where
  lap : queueBytes y.received.dropLast < halfSize
  room : queueBytes y.needed + packetBytes y.current ≤ halfSize

/-- The bytes written since `base` are the messages of the forwardable packets released, but
for the bytes of the last one that are still to come. -/
structure InOrder (base : List Byte) (y : FwdSys) : Prop where
  ready : y.dev.rx.packetReady = BitVec.ofNat 32 (y.received.length - y.released)
  messages : ∃ msgs rest,
    List.Forall₂ IsMessage ((y.received.take y.released).filter forwardable) msgs ∧
    dataBytes y.dev.out ++ rest = base ++ msgs.flatten ∧ rest.length = spiPending y.dev

/-- Nothing has been received. -/
def boot (s : State) : FwdSys := ⟨s, [], 0, []⟩

end FwdSys

/-! ## The message on its way -/

/-- The message of the packet `p` at cursor `c` after `d` bytes of its dump: the bytes `b`
written so far agree with it, and the next word comes from its place in the ring. -/
structure Sending (c : ℕ) (p : List Word) (d : ℕ) (b : List Byte) (s : State) : Prop where
  forwardable : forwardable p = true
  frame : ∃ h ws, p = h :: ws ∧
    s.spi.ackData = replyFrame HostProtocol.rxPacket (announcedLength h)
  reply : s.spi.replyBytes = 0
  fromRx : s.spi.dumpHbcRx = true
  left : 4 + d + s.spi.dumpingMem = (announcement p).length + rxPad
  more : s.spi.dumpingMem ≠ 0
  ack : s.spi.ackBytes ≠ 0 → d = 0
  written : b.length + s.spi.ackBytes = 4 + d
  index : s.spi.dumpIndex = d % 4
  bufAddr : s.rx.rdBufAddr = ringAddr (c + 4 + 4 * ((d + 3) / 4))
  word : d % 4 ≠ 0 → ∀ w, (packetBody p)[d / 4]? = some w → s.spi.wrData = w
  agrees : Stream.Agrees b (announcement p)

/-- Byte `i` of the announcement frame. -/
theorem announcement_frame {h : Word} {ws : List Word} {i : ℕ} (hi : i < 4) :
    (announcement (h :: ws))[i]?
      = some (LittleEndian.byteAt (replyFrame HostProtocol.rxPacket (announcedLength h)) i) := by
  rw [announcement, List.getElem?_append_left (by rwa [LittleEndian.length_bytes]),
    LittleEndian.getElem?_bytes _ _ hi]

/-- Byte `d` of the dump. -/
theorem announcement_dump {p : List Word} {d : ℕ} {y : Byte}
    (hy : (announcement p)[4 + d]? = some y) :
    ∃ w, (packetBody p)[d / 4]? = some w ∧ y = LittleEndian.byteAt w (d % 4) := by
  cases p with
  | nil => cases hy
  | cons h ws =>
    rw [announcement_eq, List.getElem?_append_right (by rw [LittleEndian.length_bytes]; omega),
      LittleEndian.length_bytes, Nat.add_sub_cancel_left, List.getElem?_take] at hy
    split at hy
    · rw [LittleEndian.getElem?_flatMap_bytes, Option.map_eq_some_iff] at hy
      obtain ⟨w, hw, rfl⟩ := hy
      exact ⟨w, hw, rfl⟩
    · cases hy

section
variable {c d : ℕ} {p : List Word} {b : List Byte} {s : State}

omit [HostProtocol] in
/-- The words behind the marker lie where the dump reads them. -/
theorem holds_packetBody (hholds : Holds s.mem.cells c (packetClosed p)) {i : ℕ} {w : Word}
    (hw : (packetBody p)[i]? = some w) : s.mem.cells (Board.cell (ringAddr (c + 4 + 4 * i))) = w := by
  obtain ⟨hi, rfl⟩ := List.getElem?_eq_some_iff.mp hw
  have hword := hholds (i + 1) (Nat.succ_lt_succ hi)
  have hcur : c + 4 + 4 * i = c + 4 * (i + 1) := by omega
  rw [hcur]
  exact hword

/-- The next byte of the announcement frame. -/
theorem Sending.ackByte (h : Sending c p d b s) (hack : s.spi.ackBytes ≠ 0) :
    ∃ x, dataBytes (hbcDataIrq s).out = dataBytes s.out ++ [x] ∧
      Sending c p d (b ++ [x]) (hbcDataIrq s) := by
  have hd := h.ack hack
  have hlen := h.written
  obtain ⟨w, ws, hp, hframe⟩ := h.frame
  rw [hbcDataIrq_ack hack]
  refine ⟨_, dataBytes_portWrite _ _, ?_⟩
  refine ⟨h.forwardable, h.frame, h.reply, h.fromRx, h.left, h.more, fun _ => hd, ?_, h.index,
    h.bufAddr, h.word, h.agrees.snoc ?_⟩
  · rw [List.length_append, List.length_singleton]
    dsimp only
    omega
  · intro y hy
    have hlt : b.length < 4 := by omega
    rw [hp, announcement_frame hlt, Option.some.injEq] at hy
    rw [← hy, hframe, replySize]
    congr 1
    omega

/-- The word a dump byte is taken from, and where the next one is read. -/
theorem Sending.fetch (h : Sending c p d b s) (hc : 4 ∣ c)
    (hholds : Holds s.mem.cells c (packetClosed p)) :
    (∀ w, (packetBody p)[d / 4]? = some w → (dumpFetch s).spi.wrData = w) ∧
    (dumpFetch s).rx.rdBufAddr = ringAddr (c + 4 + 4 * ((d + 4) / 4)) := by
  have hidx := h.index
  have hbuf := h.bufAddr
  unfold dumpFetch
  by_cases hmod : d % 4 = 0
  · rw [if_pos (by rw [hidx, hmod]), if_pos h.fromRx]
    have hk : 4 ∣ c + 4 + 4 * ((d + 3) / 4) := by omega
    constructor
    · intro w hw
      have hread : (rxRead s).1 = s.mem.cells (Board.cell s.rx.rdBufAddr) := rfl
      have hdiv : (d + 3) / 4 = d / 4 := by omega
      show (rxRead s).1 = w
      rw [hread, hbuf, hdiv]
      exact holds_packetBody hholds hw
    · show ringNext s.rx.rdBufAddr = _
      rw [hbuf, ringNext_ringAddr hk]
      congr 1
      omega
  · rw [if_neg (by rw [hidx]; exact hmod)]
    refine ⟨h.word hmod, ?_⟩
    rw [hbuf]
    congr 1
    omega

/-- The next byte of the dump, with which the message may be complete. -/
theorem Sending.dumpByte (h : Sending c p d b s) (hack : s.spi.ackBytes = 0) (hc : 4 ∣ c)
    (hholds : Holds s.mem.cells c (packetClosed p)) :
    ∃ x, dataBytes (hbcDataIrq s).out = dataBytes s.out ++ [x] ∧
      (s.spi.dumpingMem ≠ 1 → Sending c p (d + 1) (b ++ [x]) (hbcDataIrq s)) ∧
      (s.spi.dumpingMem = 1 → spiPending (hbcDataIrq s) = 0 ∧
        (b ++ [x]).length = (announcement p).length + rxPad ∧
        Stream.Agrees (b ++ [x]) (announcement p)) := by
  obtain ⟨hword, hbuf⟩ := h.fetch hc hholds
  have hlen := h.written
  have hleft := h.left
  have hmore := h.more
  have hidx := h.index
  have hb : b.length = 4 + d := by omega
  -- beyond the announcement nothing is asked of the byte
  have hagrees : Stream.Agrees
      (b ++ [LittleEndian.byteAt (dumpFetch s).spi.wrData s.spi.dumpIndex]) (announcement p) := by
    refine h.agrees.snoc fun y hy => ?_
    rw [hb] at hy
    obtain ⟨w, hw, rfl⟩ := announcement_dump hy
    rw [hword w hw, hidx]
  rw [hbcDataIrq_dump hack h.reply h.more, dataDump_eq]
  refine ⟨_, dataBytes_portWrite _ _, fun hne => ?_, fun hone => ⟨?_, ?_, hagrees⟩⟩
  · refine ⟨h.forwardable, h.frame, h.reply, h.fromRx, ?_, ?_, ?_, ?_, ?_, ?_, ?_, hagrees⟩
    · dsimp only
      omega
    · dsimp only
      omega
    · intro hack'
      exact absurd hack hack'
    · rw [List.length_append, List.length_singleton]
      dsimp only
      omega
    · dsimp only
      rw [hidx]
      split
      · omega
      · omega
    · exact hbuf
    · intro hmod w hw
      have hdiv : (d + 1) / 4 = d / 4 := by omega
      rw [hdiv] at hw
      exact hword w hw
  · simp only [spiPending, hack, h.reply, hone]
  · rw [List.length_append, List.length_singleton, hb]
    omega

end

/-! ## The invariant -/

/-- The message of the last released packet is out, or it is on its way and its packet is
still in the ring. -/
structure FwdInv (base : List Byte) (past queue : List (List Word)) (y : FwdSys) : Prop where
  received : y.received = past ++ queue
  released : y.released = past.length
  readWraps : y.dev.mem.readWraps = true
  packetAddr : y.dev.rx.rdPacketAddr = memRxBuf + BitVec.ofNat 32 (queueBytes past)
  packetReady : y.dev.rx.packetReady = BitVec.ofNat 32 queue.length
  port :
    (spiPending y.dev = 0 ∧ RingHolds (queueBytes past) queue y.current y.dev ∧
      ∃ msgs, List.Forall₂ IsMessage (past.filter forwardable) msgs ∧
        dataBytes y.dev.out = base ++ msgs.flatten) ∨
    (∃ old p, past = old ++ [p] ∧ RingHolds (queueBytes old) (p :: queue) y.current y.dev ∧
      ∃ msgs d b, List.Forall₂ IsMessage (old.filter forwardable) msgs ∧
        dataBytes y.dev.out = base ++ msgs.flatten ++ b ∧
        Sending (queueBytes old) p d b y.dev)

/-- What has been said of a message and what has not. -/
theorem Sending.pending {c d : ℕ} {p : List Word} {b : List Byte} {s : State}
    (h : Sending c p d b s) : b.length + spiPending s = (announcement p).length + rxPad := by
  have hwritten := h.written
  have hleft := h.left
  have hreply := h.reply
  unfold spiPending
  omega

/-- The invariant says what the port has shown. -/
theorem FwdInv.inOrder {base : List Byte} {past queue : List (List Word)} {y : FwdSys}
    (h : FwdInv base past queue y) : y.InOrder base := by
  have htake : y.received.take y.released = past := by
    rw [h.received, h.released, List.take_left]
  refine ⟨?_, ?_⟩
  · rw [h.packetReady, h.received, h.released, List.length_append, Nat.add_sub_cancel_left]
  · rw [htake]
    rcases h.port with ⟨hidle, -, msgs, hmsgs, hout⟩ | ⟨old, p, rfl, -, msgs, d, b, hmsgs, hout, hsend⟩
    · exact ⟨msgs, [], hmsgs, by rw [hout, List.append_nil], hidle.symm⟩
    · have hpend := hsend.pending
      obtain ⟨rest, tail, heq, htail, hlen⟩ :=
        @Stream.Agrees.complete Byte ⟨0⟩ _ _ rxPad hsend.agrees (by omega)
      refine ⟨msgs ++ [announcement p ++ tail], rest, ?_, ?_, by omega⟩
      · rw [List.filter_append, List.filter_singleton, hsend.forwardable, cond_true]
        exact List.rel_append hmsgs (List.Forall₂.cons ⟨tail, htail, rfl⟩ List.Forall₂.nil)
      · rw [hout, List.flatten_append, List.flatten_singleton, ← heq, List.append_assoc,
          List.append_assoc]

omit [Board] [HostProtocol] in
/-- The needed packets when no dump is going on. -/
theorem FwdSys.needed_idle {y : FwdSys} {past queue : List (List Word)}
    (hrec : y.received = past ++ queue) (hrel : y.released = past.length)
    (hdump : y.dev.spi.dumpingMem = 0) : y.needed = queue := by
  rw [FwdSys.needed, if_pos hdump, hrec, hrel, List.drop_left]

omit [Board] [HostProtocol] in
/-- The needed packets while the last one released is being dumped. -/
theorem FwdSys.needed_busy {y : FwdSys} {old queue : List (List Word)} {p : List Word}
    (hrec : y.received = old ++ [p] ++ queue) (hrel : y.released = (old ++ [p]).length)
    (hdump : y.dev.spi.dumpingMem ≠ 0) : y.needed = p :: queue := by
  rw [FwdSys.needed, if_neg hdump, hrec, hrel, List.length_append, List.length_singleton,
    Nat.add_sub_cancel, List.append_assoc, List.drop_left]
  rfl

/-- A step of the receive handlers does not touch the message on its way. -/
theorem Sending.writer {c d : ℕ} {p : List Word} {b : List Byte} {s s' : State}
    (h : Sending c p d b s) (hspi : s'.spi = s.spi) (hbuf : s'.rx.rdBufAddr = s.rx.rdBufAddr) :
    Sending c p d b s' := by
  obtain ⟨hf, hframe, hreply, hrx, hleft, hmore, hack, hwritten, hidx, haddr, hword, hagrees⟩ := h
  rw [← hspi] at hframe hreply hrx hleft hmore hack hwritten hidx hword
  rw [← hbuf] at haddr
  exact ⟨hf, hframe, hreply, hrx, hleft, hmore, hack, hwritten, hidx, haddr, hword, hagrees⟩

end

section
variable [Dram] [HostProtocol] {base : List Byte} {past queue : List (List Word)} {y : FwdSys}

/-- A chunk of a packet comes in. -/
theorem FwdInv.rxData (h : FwdInv base past queue y) (ws : List Word)
    (hfits : (y.step (.rxData ws)).Fits) : FwdInv base past queue (y.step (.rxData ws)) := by
  have hw := writerStep_rxData y.dev [ws]
  have hroom := hfits.room
  have hready {c : ℕ} {ps : List (List Word)} (hring : RingHolds c ps y.current y.dev) :
      (rxInterrupt rxDataIntFunc [ws] y.dev).rx.packetReady = BitVec.ofNat 32 queue.length :=
    (rxData_packetReady hring.four_dvd_end hring.flags hring.rxFifo hring.writer hring.scram
      ws).trans h.packetReady
  have hwrap : (y.step (.rxData ws)).dev.mem.readWraps = true := by
    show (rxInterrupt rxDataIntFunc [ws] y.dev).mem.readWraps = true
    rw [Mem.readWraps, hw.flags]
    exact h.readWraps
  have hpkt := hw.rdPacketAddr.trans h.packetAddr
  have hspi : (y.step (.rxData ws)).dev.spi = y.dev.spi := hw.spi
  have hdata : dataBytes (y.step (.rxData ws)).dev.out = dataBytes y.dev.out := hw.data
  rcases h.port with ⟨hidle, hring, msgs, hmsgs, hout⟩
    | ⟨old, p, rfl, hring, msgs, d, b, hmsgs, hout, hsend⟩
  · -- nothing on its way: the packets in the ring are the queue
    have hdump : y.dev.spi.dumpingMem = 0 := by unfold spiPending at hidle; omega
    rw [FwdSys.needed_idle (y := y.step (.rxData ws)) h.received h.released
      (by rw [hspi]; exact hdump)] at hroom
    refine ⟨h.received, h.released, hwrap, hpkt, hready hring, Or.inl ⟨?_, ?_, msgs, hmsgs, ?_⟩⟩
    · rw [spiPending, hspi]
      exact hidle
    · exact hring.data ws hroom
    · rw [hdata, hout]
  · -- the packet being sent has been released, but the ring must still have room for it
    rw [FwdSys.needed_busy (y := y.step (.rxData ws)) h.received h.released
      (by rw [hspi]; exact hsend.more)] at hroom
    refine ⟨h.received, h.released, hwrap, hpkt, hready hring,
      Or.inr ⟨old, p, rfl, hring.data ws hroom, msgs, d, b, hmsgs, ?_, ?_⟩⟩
    · rw [hdata, hout]
    · exact hsend.writer hspi hw.rdBufAddr

omit [HostProtocol] in
/-- A call of `rx_ready_int_func`, in terms of the ring. -/
theorem RingHolds.ready_any {c : ℕ} {ps : List (List Word)} {cur : List Word} {s : State}
    (h : RingHolds c ps cur s) (ws : List Word)
    (hfits : queueBytes (if cur ++ ws = [] then ps else ps ++ [cur ++ ws]) ≤ halfSize) :
    let s' := rxInterrupt rxReadyIntFunc [ws] s
    RingHolds c (if cur ++ ws = [] then ps else ps ++ [cur ++ ws]) [] s' ∧
    s'.rx.packetReady = s.rx.packetReady + if cur ++ ws = [] then 0 else 1 := by
  by_cases hne : cur ++ ws = []
  · obtain ⟨rfl, rfl⟩ := List.append_eq_nil_iff.mp hne
    have hidle := h.ready_idle
    simp only [hidle, List.append_nil, if_true]
    exact ⟨h.pulse _, (BitVec.add_zero _).symm⟩
  · simp only [if_neg hne] at hfits ⊢
    rw [queueBytes_append, queueBytes_cons, queueBytes_nil] at hfits
    obtain ⟨hring, hcount, -⟩ := h.ready ws hne (by omega)
    exact ⟨hring, hcount⟩

/-- A packet is completed. -/
theorem FwdInv.rxReady (h : FwdInv base past queue y) (ws : List Word)
    (hfits : (y.step (.rxReady ws)).Fits) :
    FwdInv base past (if y.current ++ ws = [] then queue else queue ++ [y.current ++ ws])
      (y.step (.rxReady ws)) := by
  have hw := writerStep_rxReady y.dev [ws]
  have hroom := hfits.room
  have hcur : (y.step (.rxReady ws)).current = [] := rfl
  rw [hcur, packetBytes, Nat.add_zero] at hroom
  have hrec : (y.step (.rxReady ws)).received
      = past ++ if y.current ++ ws = [] then queue else queue ++ [y.current ++ ws] := by
    show (if y.current ++ ws = [] then y.received else y.received ++ [y.current ++ ws]) = _
    rw [h.received]
    split
    · rfl
    · rw [List.append_assoc]
  have hready {c : ℕ} {ps : List (List Word)} (hring : RingHolds c ps y.current y.dev)
      (hfit : queueBytes (if y.current ++ ws = [] then ps else ps ++ [y.current ++ ws]) ≤ halfSize) :
      (rxInterrupt rxReadyIntFunc [ws] y.dev).rx.packetReady = BitVec.ofNat 32
        (if y.current ++ ws = [] then queue else queue ++ [y.current ++ ws]).length := by
    rw [(hring.ready_any ws hfit).2, h.packetReady]
    split
    · exact BitVec.add_zero _
    · rw [List.length_append, List.length_singleton, BitVec.ofNat_add]
      rfl
  have hwrap : (y.step (.rxReady ws)).dev.mem.readWraps = true := by
    show (rxInterrupt rxReadyIntFunc [ws] y.dev).mem.readWraps = true
    rw [Mem.readWraps, hw.flags]
    exact h.readWraps
  have hpkt := hw.rdPacketAddr.trans h.packetAddr
  have hspi : (y.step (.rxReady ws)).dev.spi = y.dev.spi := hw.spi
  have hdata : dataBytes (y.step (.rxReady ws)).dev.out = dataBytes y.dev.out := hw.data
  rcases h.port with ⟨hidle, hring, msgs, hmsgs, hout⟩
    | ⟨old, p, rfl, hring, msgs, d, b, hmsgs, hout, hsend⟩
  · have hdump : y.dev.spi.dumpingMem = 0 := by unfold spiPending at hidle; omega
    rw [FwdSys.needed_idle hrec h.released (by rw [hspi]; exact hdump)] at hroom
    refine ⟨hrec, h.released, hwrap, hpkt, hready hring hroom,
      Or.inl ⟨?_, (hring.ready_any ws hroom).1, msgs, hmsgs, ?_⟩⟩
    · rw [spiPending, hspi]
      exact hidle
    · rw [hdata, hout]
  · -- as above, with the packet being sent in front of the queue
    have hcons : (p :: if y.current ++ ws = [] then queue else queue ++ [y.current ++ ws])
        = if y.current ++ ws = [] then p :: queue else p :: queue ++ [y.current ++ ws] := by
      split <;> rfl
    rw [FwdSys.needed_busy hrec h.released (by rw [hspi]; exact hsend.more), hcons] at hroom
    refine ⟨hrec, h.released, hwrap, hpkt, hready hring hroom,
      Or.inr ⟨old, p, rfl, ?_, msgs, d, b, hmsgs, ?_, ?_⟩⟩
    · rw [hcons]
      exact (hring.ready_any ws hroom).1
    · rw [hdata, hout]
    · exact hsend.writer hspi hw.rdBufAddr

/-- The host takes a byte. -/
theorem FwdInv.data (h : FwdInv base past queue y) : FwdInv base past queue (y.step .data) := by
  obtain ⟨hstep, -, hpkt, hready, -⟩ := readerStep_hbcDataIrq y.dev
  have hwrap : (y.step .data).dev.mem.readWraps = true := by
    show (hbcDataIrq y.dev).mem.readWraps = true
    rw [Mem.readWraps, hstep.flags]
    exact h.readWraps
  have hpkt' : (y.step .data).dev.rx.rdPacketAddr = _ := hpkt.trans h.packetAddr
  have hready' : (y.step .data).dev.rx.packetReady = _ := hready.trans h.packetReady
  rcases h.port with ⟨hidle, hring, hmsgs⟩
    | ⟨old, p, rfl, hring, msgs, d, b, hmsgs, hout, hsend⟩
  · refine ⟨h.received, h.released, hwrap, hpkt', hready', Or.inl ?_⟩
    have hsame : (y.step .data).dev = y.dev := hbcDataIrq_idle hidle
    rw [hsame]
    exact ⟨hidle, hring, hmsgs⟩
  · have hring' : RingHolds (queueBytes old) (p :: queue) y.current (hbcDataIrq y.dev) :=
      hring.reader hstep
    refine ⟨h.received, h.released, hwrap, hpkt', hready', ?_⟩
    by_cases hack : y.dev.spi.ackBytes = 0
    · obtain ⟨x, hx, hgo, hend⟩ := hsend.dumpByte hack hring.aligned hring.packets.1
      by_cases hone : y.dev.spi.dumpingMem = 1
      · -- the last byte of the message: its packet is no longer needed
        obtain ⟨hidle, hlen, hagrees⟩ := hend hone
        obtain ⟨rest, tail, heq, htail, hsum⟩ :=
          @Stream.Agrees.complete Byte ⟨0⟩ _ _ rxPad hagrees (by omega)
        have hrest : rest = [] := List.length_eq_zero_iff.mp (by omega)
        rw [hrest, List.append_nil] at heq
        refine Or.inl ⟨hidle, ?_, msgs ++ [b ++ [x]], ?_, ?_⟩
        · have hsum : queueBytes (old ++ [p]) = queueBytes old + packetBytes p := by
            rw [queueBytes_append, queueBytes_cons, queueBytes_nil, Nat.add_zero]
          rw [hsum]
          exact hring'.tail
        · rw [List.filter_append, List.filter_singleton, hsend.forwardable, cond_true]
          exact List.rel_append hmsgs (List.Forall₂.cons ⟨tail, htail, heq⟩ List.Forall₂.nil)
        · rw [List.flatten_append, List.flatten_singleton, ← List.append_assoc, ← List.append_assoc,
            ← hout]
          exact hx
      · refine Or.inr ⟨old, p, rfl, hring', msgs, d + 1, b ++ [x], hmsgs, ?_, hgo hone⟩
        rw [← List.append_assoc, ← hout]
        exact hx
    · obtain ⟨x, hx, hgo⟩ := hsend.ackByte hack
      refine Or.inr ⟨old, p, rfl, hring', msgs, d, b ++ [x], hmsgs, ?_, hgo⟩
      rw [← List.append_assoc, ← hout]
      exact hx

/-- The first byte of an announcement has just been written. -/
theorem Round.sending {c : ℕ} {p : List Word} {s s' : State} (hc : 4 ∣ c)
    (hcursor : s.rx.rdPacketAddr = ringAddr c) (hidle : spiPending s = 0) (h : Round p s s')
    (hf : forwardable p = true) :
    ∃ x, dataBytes s'.out = dataBytes s.out ++ [x] ∧ Sending c p 0 [x] s' := by
  obtain ⟨w, ws, rfl, hspi, hout, hbuf⟩ := h.announced hf
  have hlen := length_announcement hf
  refine ⟨_, hout, hf, ⟨w, ws, rfl, by rw [hspi]⟩, ?_, by rw [hspi], ?_, ?_, fun _ => rfl, ?_, ?_, ?_,
    ?_, ?_⟩
  · rw [hspi]
    unfold spiPending at hidle
    dsimp only
    omega
  · rw [hspi, hlen, rxPad]
    dsimp only
    omega
  · rw [hspi]
    dsimp only
    omega
  · rw [hspi]
    rfl
  · rw [hspi]
  · rw [hbuf, hcursor, ringNext_ringAddr hc]
  · intro h0
    exact absurd rfl h0
  · refine (Stream.Agrees.nil _).snoc fun y hy => ?_
    rw [List.length_nil, announcement_frame (by decide), Option.some.injEq] at hy
    exact hy

/-- The oldest packet is released. -/
theorem FwdInv.forward (h : FwdInv base past queue y) (hok : y.Allowed .forward) (hfits : y.Fits) :
    ∃ past' queue', FwdInv base past' queue' (y.step .forward) := by
  have hidle : spiPending y.dev = 0 := hok
  have hstep := readerStep_hbcToSpi true y.dev
  have hwrap : (y.step .forward).dev.mem.readWraps = true := by
    show (hbcToSpi true y.dev).mem.readWraps = true
    rw [Mem.readWraps, hstep.flags]
    exact h.readWraps
  rcases h.port with ⟨-, hring, msgs, hmsgs, hout⟩ | ⟨old, p, -, -, -, d, b, -, -, hsend⟩
  · cases queue with
    | nil =>
      -- no packet is ready
      have hzero : y.dev.rx.packetReady = 0 := h.packetReady
      have hempty : hbcToSpi true y.dev = (rxPacketReady y.dev).2 := hbcToSpi_empty hzero
      have hrel : (y.step .forward).released = y.released := if_pos hzero
      have hdev : (y.step .forward).dev = (rxPacketReady y.dev).2 := hempty
      refine ⟨past, [], h.received, hrel.trans h.released, hwrap, ?_, ?_, Or.inl ⟨?_, ?_, ?_⟩⟩
      · rw [hdev]
        exact h.packetAddr
      · rw [hdev]
        exact h.packetReady
      · rw [hdev]
        exact hidle
      · exact hring.reader hstep
      · rw [hdev]
        exact ⟨msgs, hmsgs, hout⟩
    | cons p queue =>
      -- the lap has not ended, so the cursor is an address of the ring
      have hlap : queueBytes past < halfSize := by
        have hl := hfits.lap
        rw [h.received, List.dropLast_append_of_ne_nil (List.cons_ne_nil p queue),
          queueBytes_append] at hl
        omega
      have hcursor : y.dev.rx.rdPacketAddr = ringAddr (queueBytes past) := by
        rw [h.packetAddr, ringAddr_of_lt hlap]
      have hp : p ≠ [] := hring.nonempty p List.mem_cons_self
      have hfit := hring.fits
      rw [queueBytes_cons] at hfit
      -- the queue is too short for its count to wrap
      have hne : y.dev.rx.packetReady ≠ 0 := by
        have hlt := hring.queue_lt
        rw [h.packetReady]
        intro h0
        have hmod : (queue.length + 1) % 2 ^ 32 = 0 := by simpa using congrArg BitVec.toNat h0
        rw [List.length_cons] at hlt
        omega
      have hround := hbcToSpi_round hring.aligned hp h.readWraps hcursor hring.packets.1
        (by omega) hne
      have hring' := hring.reader hstep
      have hrec : (y.step .forward).received = past ++ [p] ++ queue := by
        rw [List.append_assoc]
        exact h.received
      have hrel : (y.step .forward).released = (past ++ [p]).length := by
        rw [List.length_append, List.length_singleton, ← h.released]
        exact if_neg hne
      have hsum : queueBytes (past ++ [p]) = queueBytes past + packetBytes p := by
        rw [queueBytes_append, queueBytes_cons, queueBytes_nil, Nat.add_zero]
      have haddr : (y.step .forward).dev.rx.rdPacketAddr
          = memRxBuf + BitVec.ofNat 32 (queueBytes (past ++ [p])) := by
        rw [hsum, BitVec.ofNat_add, ← BitVec.add_assoc, ← h.packetAddr]
        exact hround.packetAddr
      have hcount : (y.step .forward).dev.rx.packetReady = BitVec.ofNat 32 queue.length := by
        refine hround.packetReady.trans ?_
        rw [h.packetReady, List.length_cons, BitVec.ofNat_add]
        exact BitVec.add_sub_cancel _ _
      refine ⟨past ++ [p], queue, hrec, hrel, hwrap, haddr, hcount, ?_⟩
      by_cases hf : forwardable p = true
      · obtain ⟨x, hx, hsend⟩ := hround.sending hring.aligned hcursor hidle hf
        refine Or.inr ⟨past, p, rfl, hring', msgs, 0, [x], hmsgs, ?_, hsend⟩
        rw [← hout]
        exact hx
      · have hf' : forwardable p = false := Bool.eq_false_iff.mpr hf
        -- discarded: the packet leaves the ring, and no message is due
        obtain ⟨hspi, hdata⟩ := hround.dropped hf'
        refine Or.inl ⟨?_, ?_, msgs, ?_, ?_⟩
        · show spiPending (hbcToSpi true y.dev) = 0
          rw [spiPending, hspi]
          exact hidle
        · rw [hsum]
          exact hring'.tail
        · rw [List.filter_append, List.filter_singleton, hf', cond_false, List.append_nil]
          exact hmsgs
        · exact hdata.trans hout
  · -- a message on its way is pending
    have hmore := hsend.more
    unfold spiPending at hidle
    omega

/-- Any event that is allowed. -/
theorem FwdInv.step (h : FwdInv base past queue y) (e : FwdEvent) (hok : y.Allowed e)
    (hfits : y.Fits) (hfits' : (y.step e).Fits) :
    ∃ past' queue', FwdInv base past' queue' (y.step e) := by
  cases e with
  | rxData ws => exact ⟨_, _, h.rxData ws hfits'⟩
  | rxReady ws => exact ⟨_, _, h.rxReady ws hfits'⟩
  | forward => exact h.forward hok hfits
  | data => exact ⟨_, _, h.data⟩

/-- At the start nothing has been received. -/
theorem fwdInv_boot {s : State} (h : Boot s) :
    FwdInv (dataBytes s.out) [] [] (FwdSys.boot s) := by
  have htracks := tracks_boot h
  refine ⟨rfl, rfl, htracks.readWraps, ?_, ?_, Or.inl ⟨?_, htracks.ring, [], List.Forall₂.nil, ?_⟩⟩
  · show s.rx.rdPacketAddr = _
    rw [h.rx]
    rfl
  · show s.rx.packetReady = _
    rw [h.rx]
    rfl
  · show spiPending s = 0
    rw [spiPending, h.spi]
    rfl
  · exact (List.append_nil _).symm

/-- **Forwarding is an in-order filter.** In every run from start-up in which the forwarder
runs only when the last message is out, the packets start within the first lap and none of
those still needed is overrun. -/
theorem forwarded_in_order {s : State} (hboot : Boot s) (evs : List FwdEvent)
    (hallowed : Run.Steps FwdSys.step FwdSys.Allowed (FwdSys.boot s) evs)
    (hfits : Run.Always FwdSys.step FwdSys.Fits (FwdSys.boot s) evs) :
    Run.Always FwdSys.step (FwdSys.InOrder (dataBytes s.out)) (FwdSys.boot s) evs := by
  have hinv : Run.Always FwdSys.step
      (fun y => ∃ past queue, FwdInv (dataBytes s.out) past queue y) (FwdSys.boot s) evs := by
    refine Run.always_of_step (fun y e hy hC => ?_) ⟨[], [], fwdInv_boot hboot⟩
      (hallowed.and hfits.steps)
    obtain ⟨past, queue, hy⟩ := hy
    exact hy.step e hC.1 hC.2.1 hC.2.2
  exact hinv.mono fun y ⟨_, _, hy⟩ => hy.inOrder

end

/-- An intact header that announces no payload. -/
def emptyHeader : Word := 0xC4000030

/-- A packet without payload, announced while its second byte is asked for. -/
theorem forwarded_in_order_empty_packet :
    letI := plainDram
    letI := plainProtocol
    Run.Always FwdSys.step (FwdSys.InOrder []) (FwdSys.boot bootState)
      [.rxData [emptyHeader], .rxReady [], .forward, .data] := by
  let := plainDram
  let := plainProtocol
  refine forwarded_in_order bootState_boot _ ⟨trivial, trivial, ?_, trivial, trivial⟩ ?_
  · show spiPending _ = 0
    decide +kernel
  · refine ⟨⟨?_, ?_⟩, ⟨?_, ?_⟩, ⟨?_, ?_⟩, ⟨?_, ?_⟩, ⟨?_, ?_⟩⟩ <;> decide +kernel

/-! ## An overrun -/

theorem FwdSys.step_forward [Board] [HostProtocol] {y : FwdSys} (h : y.dev.rx.packetReady ≠ 0) :
    y.step .forward = { y with dev := hbcToSpi true y.dev, released := y.released + 1 } := by
  have hcount : (rxPacketReady y.dev).1 ≠ 0 := h
  rw [step, if_neg hcount]

/-- On a board with a silent scrambler, a packet of zeros that fills the ring leaves a zero
where the header of the packet before it was. -/
theorem overrun_header [Dram] {s : State} (hboot : Boot s)
    (hsilent : ∀ seed pos, Board.keystream seed pos = 0) {ws : List Word}
    (hlen : ws.length = halfSize / 4 - 2) (hzero : ∀ w ∈ ws, w = 0) :
    (rxInterrupt rxReadyIntFunc [0 :: ws]
      (rxInterrupt rxReadyIntFunc [[emptyHeader]] s)).rx.packetReady = 2 ∧
    rxCheckCrcOk (rxPacketReady (rxInterrupt rxReadyIntFunc [0 :: ws]
      (rxInterrupt rxReadyIntFunc [[emptyHeader]] s))).2 = false := by
  rw [halfSize_eq] at hlen
  have hring : RingHolds 0 [] [] s := (tracks_boot hboot).ring
  have hsize : packetBytes (0 :: ws) = halfSize := by
    rw [packetBytes, hlen, halfSize_eq]
  -- once the first packet is left out of account the second one fits
  obtain ⟨hfirst, hcount, -⟩ := hring.ready [emptyHeader] (List.cons_ne_nil _ _) (by decide)
  have htail : RingHolds 8 [] [] (rxInterrupt rxReadyIntFunc [[emptyHeader]] s) := hfirst.tail
  obtain ⟨hsecond, hcount', -⟩ := htail.ready (0 :: ws) (List.cons_ne_nil _ _)
    (by rw [List.nil_append, hsize, queueBytes_nil, Nat.zero_add])
  have hsteps := (writerStep_rxReady s [[emptyHeader]]).trans (writerStep_rxReady _ [0 :: ws])
  have hready : s.rx.packetReady = 0 := by rw [hboot.rx]
  have haddr : s.rx.rdPacketAddr = ringAddr 0 := by rw [hboot.rx]; rfl
  have hwraps : s.mem.readWraps = true := by
    rw [Mem.readWraps, hboot.flags]
    decide
  refine ⟨by rw [hcount', hcount, hready]; rfl, ?_⟩
  have hholds := hsecond.packets.1
  rw [List.nil_append] at hholds
  generalize rxInterrupt rxReadyIntFunc [0 :: ws] (rxInterrupt rxReadyIntFunc [[emptyHeader]] s)
    = s' at hsteps hholds
  -- the last word of the second packet lies where the header of the first one was
  have hheader : s'.mem.cells (Board.cell (ringAddr 4)) = 0 := by
    have hlast : (packetClosed (0 :: ws))[4194303]? = some 0 := by
      have hi : 4194301 < ws.length := by omega
      have hw : ws[4194301] = 0 := hzero _ (List.getElem_mem hi)
      rw [packetClosed, packetBody, List.getElem?_cons_succ, List.getElem?_cons_succ,
        List.getElem?_eq_getElem (by rw [length_descramble]; exact hi),
        getElem_descramble _ _ _ _ _ hi, hw, hsilent]
      rfl
    obtain ⟨hi, hval⟩ := List.getElem?_eq_some_iff.mp hlast
    have hword := hholds 4194303 hi
    have hlap : ringAddr (8 + 4 * 4194303) = ringAddr 4 := by decide +kernel
    rw [hlap] at hword
    rw [hword, hval]
  have hread : (rxPacketReady s').2.rx.rdPacketHeader
      = s'.mem.get (advance s'.mem.readWraps s'.rx.rdPacketAddr) := rfl
  have hwrap : s'.mem.readWraps = true := by
    rw [Mem.readWraps, hsteps.flags]
    exact hwraps
  rw [rxCheckCrcOk, hread, hsteps.rdPacketAddr, haddr, hwrap, advance_ringAddr (by decide), Mem.get,
    hheader]
  decide +kernel

/-- A packet that fills the ring overruns the one before it, which is then never forwarded. -/
theorem overrun_packet_lost :
    letI := plainDram
    letI := plainProtocol
    let evs := [FwdEvent.rxReady [emptyHeader],
      .rxReady (0 :: List.replicate (halfSize / 4 - 2) 0), .forward]
    Run.Steps FwdSys.step FwdSys.Allowed (FwdSys.boot bootState) evs ∧
    Run.Always FwdSys.step (fun y => queueBytes y.received.dropLast < halfSize)
      (FwdSys.boot bootState) evs ∧
    ¬ Run.Always FwdSys.step (FwdSys.InOrder []) (FwdSys.boot bootState) evs := by
  let := plainDram
  let := plainProtocol
  generalize hws : List.replicate (halfSize / 4 - 2) (0 : Word) = ws
  have hlen : ws.length = halfSize / 4 - 2 := by rw [← hws, List.length_replicate]
  have hzero : ∀ w ∈ ws, w = 0 := by
    rw [← hws]
    exact fun w hw => List.eq_of_mem_replicate hw
  clear hws
  intro evs
  obtain ⟨hready, hcrc⟩ := overrun_header bootState_boot (fun _ _ => rfl) hlen hzero
  have hsteps := (writerStep_rxReady bootState [[emptyHeader]]).trans
    (writerStep_rxReady _ [0 :: ws])
  have hdata : dataBytes bootState.out = [] := rfl
  have hidle : spiPending bootState = 0 := rfl
  have hlast : Run.run FwdSys.step (FwdSys.boot bootState) evs
      = FwdSys.step ⟨rxInterrupt rxReadyIntFunc [0 :: ws]
          (rxInterrupt rxReadyIntFunc [[emptyHeader]] bootState),
        [[emptyHeader], 0 :: ws], 0, []⟩ .forward := rfl
  have hpending : spiPending (rxInterrupt rxReadyIntFunc [0 :: ws]
      (rxInterrupt rxReadyIntFunc [[emptyHeader]] bootState)) = 0 := by
    rw [spiPending, hsteps.spi]
    exact hidle
  refine ⟨⟨trivial, trivial, hpending, trivial⟩, ?_, fun halways => ?_⟩
  · refine ⟨?_, ?_, ?_, ?_⟩
    · show 0 < halfSize
      decide
    · show 0 < halfSize
      decide
    · show 8 < halfSize
      decide
    · show 8 < halfSize
      decide
  · have hfinal := halways.last
    rw [hlast] at hfinal
    generalize rxInterrupt rxReadyIntFunc [0 :: ws]
      (rxInterrupt rxReadyIntFunc [[emptyHeader]] bootState) = s at *
    have hne : s.rx.packetReady ≠ 0 := by
      rw [hready]
      decide
    rw [FwdSys.step_forward hne, hbcToSpi_badCrc hne hcrc] at hfinal
    obtain ⟨-, msgs, rest, hmsgs, hout, hrest⟩ := hfinal
    have hquiet := (quiet_rxPacketReady s).trans (quiet_rxPacketNext (rxPacketReady s).2)
    -- nothing was written, but the first packet is one to forward
    have hone : forwardable [emptyHeader] = true := by decide +kernel
    have hfilter : ([[emptyHeader], 0 :: ws].take 1).filter forwardable = [[emptyHeader]] := by
      show [[emptyHeader]].filter forwardable = _
      rw [List.filter_singleton, hone, cond_true]
    rw [hfilter] at hmsgs
    cases hmsgs with
    | cons hm hnil =>
      cases hnil
      obtain ⟨pad, hpad, rfl⟩ := hm
      have hsilence : dataBytes (rxPacketNext (rxPacketReady s).2).out = [] := by
        rw [hquiet.out, hsteps.data, hdata]
      have hnone : spiPending (rxPacketNext (rxPacketReady s).2) = 0 := by
        rw [spiPending, hquiet.spi]
        exact hpending
      have hlength := congrArg List.length hout
      dsimp only at hrest hlength
      rw [hsilence, List.nil_append, hrest, hnone, List.nil_append, List.flatten_singleton,
        List.length_append, hpad] at hlength
      exact absurd hlength.symm (Nat.succ_ne_zero _)

end HbcMac
