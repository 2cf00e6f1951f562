import HbcMac.Lib.Run
import HbcMac.RxQueue

/-!
# Where the reader stands

Receptions and rounds of `hbc_to_spi` over the receive ring. `rx_packet_next` adds the size
of a packet to the reader's address without wrapping it, so the reader stands at the oldest
packet up to the end of the first lap and no longer.
-/

namespace HbcMac

/-! ## Runs -/

/-- What happens in the ring. The words of a handler call are all there before its first poll. -/
inductive RxEvent
  /-- `rx_data_int_func` draining these words. -/
  | data (ws : List Word)
  /-- `rx_ready_int_func`, draining these words first. -/
  | ready (ws : List Word)
  /-- A round of `hbc_to_spi` with this many reads. -/
  | round (reads : ℕ)

/-- The firmware, and the addresses at which the markers of the packets not yet consumed
were written. -/
structure RxSys where
  dev : State
  markers : List Word

section
variable [Board]

/-- Successive calls of `rx_read`. -/
def rxReads (n : ℕ) (s : State) : State := (fun s => (rxRead s).2)^[n] s

/-- `rx_packet_ready`, and if a packet is there the reads and `rx_packet_next`. -/
def readerRound (reads : ℕ) (s : State) : State :=
  let r := rxPacketReady s
  if r.1 = 0 then r.2 else rxPacketNext (rxReads reads r.2)

namespace RxSys

/-- The marker is the last word `rx_ready_int_func` writes. -/
def step (y : RxSys) : RxEvent → RxSys
  | .data ws => { y with dev := rxInterrupt rxDataIntFunc [ws] y.dev }
  | .ready ws =>
    let dev := rxInterrupt rxReadyIntFunc [ws] y.dev
    { dev := dev
      markers :=
        if dev.rx.packetReady = y.dev.rx.packetReady then y.markers
        else y.markers ++ (dev.mem.log.getLast?.map Prod.fst).toList }
  | .round reads =>
    let dev := readerRound reads y.dev
    { dev := dev
      markers :=
        if dev.rx.packetReady = y.dev.rx.packetReady then y.markers else y.markers.tail }

/-- A word address of the receive half. -/
def InRing (a : Word) : Prop :=
  4 ∣ a.toNat ∧ memRxBuf.toNat ≤ a.toNat ∧ a.toNat < memSize.toNat

/-- Where the oldest packet starts: a completed one, else the one in progress, else the next. -/
def oldest (y : RxSys) : Word :=
  match y.markers with
  | a :: _ => a
  | [] => if y.dev.rx.wrBytes ≠ 0 then y.dev.rx.wrPacketAddr else y.dev.rx.wrBufAddr

/-- The reader stands at the oldest packet, inside the receive half. -/
structure ReaderAtOldest (y : RxSys) : Prop where
  packetAddr : InRing y.dev.rx.rdPacketAddr
  bufAddr : InRing y.dev.rx.rdBufAddr
  oldest : y.dev.rx.rdPacketAddr = y.oldest

end RxSys

end

/-! ## The ledger -/

/-- What the events say about the packets: the completed ones in the ring, the one in
progress, and the bytes of those consumed. -/
structure RxLedger where
  queue : List (List Word)
  current : List Word
  consumed : ℕ

namespace RxLedger

/-- Nothing has been received. -/
def empty : RxLedger := ⟨[], [], 0⟩

/-- What the events alone say. -/
def step (l : RxLedger) : RxEvent → RxLedger
  | .data ws => { l with current := l.current ++ ws }
  | .ready ws =>
    if l.current ++ ws = [] then l
    else { l with queue := l.queue ++ [l.current ++ ws], current := [] }
  | .round _ =>
    match l.queue with
    | [] => l
    | p :: ps => { l with queue := ps, consumed := l.consumed + packetBytes p }

/-- Bytes stored but not yet consumed, marker and header included. -/
def stored (l : RxLedger) : ℕ := queueBytes l.queue + packetBytes l.current

/-- What has been consumed stays so. -/
theorem consumed_le (l : RxLedger) (e : RxEvent) : l.consumed ≤ (l.step e).consumed := by
  cases e with
  | data ws => exact Nat.le_refl _
  | ready ws =>
    simp only [step]
    split
    · exact Nat.le_refl _
    · exact Nat.le_refl _
  | round reads =>
    simp only [step]
    split
    · exact Nat.le_refl _
    · exact Nat.le_add_right _ _

end RxLedger

/-! ## The relation between the two -/

/-- The addresses of the markers of the packets `ps` from cursor `c` on. -/
def markerAddrs : ℕ → List (List Word) → List Word
  | _, [] => []
  | c, p :: ps => ringAddr c :: markerAddrs (c + packetBytes p) ps

theorem markerAddrs_append (c : ℕ) (ps : List (List Word)) (p : List Word) :
    markerAddrs c (ps ++ [p]) = markerAddrs c ps ++ [ringAddr (c + queueBytes ps)] := by
  induction ps generalizing c with
  | nil => rfl
  | cons q ps ih =>
    rw [List.cons_append, markerAddrs, ih, markerAddrs, queueBytes_cons, ← Nat.add_assoc,
      List.cons_append]

/-- A packet takes up eight bytes at least. -/
theorem length_le_queueBytes {ps : List (List Word)} (h : ∀ p ∈ ps, p ≠ []) :
    8 * ps.length ≤ queueBytes ps := by
  induction ps with
  | nil => exact Nat.le_refl _
  | cons p ps ih =>
    have hp := packetBytes_pos (h p List.mem_cons_self)
    have hps := ih fun q hq => h q (List.mem_cons_of_mem p hq)
    rw [queueBytes_cons, List.length_cons]
    omega

section
variable [Board]

/-- The ledger tells the state of the ring, and the reader is on its first lap. -/
structure Tracks (y : RxSys) (l : RxLedger) : Prop where
  ring : RingHolds l.consumed l.queue l.current y.dev
  readWraps : y.dev.mem.readWraps = true
  lap : l.consumed < halfSize
  packetAddr : y.dev.rx.rdPacketAddr = ringAddr l.consumed
  bufAddr : ∃ j, 4 ∣ j ∧ y.dev.rx.rdBufAddr = ringAddr j
  packetReady : y.dev.rx.packetReady = BitVec.ofNat 32 l.queue.length
  markers : y.markers = markerAddrs l.consumed l.queue

omit [Board] in
/-- The places of the cursors are in the ring. -/
theorem inRing_ringAddr {k : ℕ} (hk : 4 ∣ k) : RxSys.InRing (ringAddr k) :=
  ⟨ringAddr_aligned hk, ringAddr_ge k, ringAddr_lt k⟩

/-- The count of ready packets is their number. -/
theorem RingHolds.queue_lt {c : ℕ} {ps : List (List Word)} {cur : List Word} {s : State}
    (h : RingHolds c ps cur s) : ps.length < 2 ^ 32 := by
  have hlen := length_le_queueBytes h.nonempty
  have hfits := h.fits
  rw [halfSize_eq] at hfits
  omega

/-- A reader that is tracked stands at the oldest packet. -/
theorem Tracks.readerAtOldest {y : RxSys} {l : RxLedger} (h : Tracks y l) : y.ReaderAtOldest := by
  have hal := h.ring.aligned
  refine ⟨?_, ?_, ?_⟩
  · rw [h.packetAddr]
    exact inRing_ringAddr hal
  · obtain ⟨j, hj, hbuf⟩ := h.bufAddr
    rw [hbuf]
    exact inRing_ringAddr hj
  · rw [h.packetAddr, RxSys.oldest, h.markers]
    cases hq : l.queue with
    | cons p ps => rfl
    | nil =>
      -- no completed packet: the oldest one is the one in progress, or the next to come
      have hwr := h.ring.writer
      have hfits := h.ring.fits
      rw [hq, queueBytes_nil] at hwr hfits
      cases hc : l.current with
      | nil =>
        rw [hc] at hwr
        have hbytes : y.dev.rx.wrBytes = 0 := by rw [hwr]; rfl
        have hbuf : y.dev.rx.wrBufAddr = ringAddr l.consumed := by rw [hwr]; rfl
        simp only [markerAddrs, hbytes, hbuf, ne_eq, not_true_eq_false, if_false]
      | cons w ws =>
        rw [hc] at hwr hfits
        have hbytes : y.dev.rx.wrBytes = BitVec.ofNat 32 (packetBytes (w :: ws)) := by rw [hwr]; rfl
        have hpkt : y.dev.rx.wrPacketAddr = ringAddr l.consumed := by rw [hwr]; rfl
        have hpos := packetBytes_pos (List.cons_ne_nil w ws)
        have hne : y.dev.rx.wrBytes ≠ 0 := by
          rw [hbytes]
          intro h0
          have hmod : packetBytes (w :: ws) % 2 ^ 32 = 0 := by
            simpa using congrArg BitVec.toNat h0
          rw [halfSize_eq] at hfits
          omega
        simp only [markerAddrs]
        rw [if_pos hne, hpkt]

/-- The reads of a round keep everything but the position within the packet. -/
theorem rxReads_spec (n : ℕ) {s : State} (hbuf : ∃ j, 4 ∣ j ∧ s.rx.rdBufAddr = ringAddr j) :
    ReaderStep s (rxReads n s) ∧ (∃ j, 4 ∣ j ∧ (rxReads n s).rx.rdBufAddr = ringAddr j) ∧
    (rxReads n s).rx.rdPacketAddr = s.rx.rdPacketAddr ∧
    (rxReads n s).rx.rdPacketMarker = s.rx.rdPacketMarker ∧
    (rxReads n s).rx.packetReady = s.rx.packetReady := by
  induction n generalizing s with
  | zero => exact ⟨ReaderStep.refl s, hbuf, rfl, rfl, rfl⟩
  | succ n ih =>
    obtain ⟨j, hj, hbuf⟩ := hbuf
    have hnext : (rxRead s).2.rx.rdBufAddr = ringAddr (j + 4) := by
      rw [← ringNext_ringAddr hj, ← hbuf]
      rfl
    have hrest := ih (s := (rxRead s).2) ⟨j + 4, Nat.dvd_add hj (Nat.dvd_refl 4), hnext⟩
    have hsucc : rxReads (n + 1) s = rxReads n (rxRead s).2 :=
      Function.iterate_succ_apply _ n s
    rw [hsucc]
    exact ⟨(readerStep_rxRead s).trans hrest.1, hrest.2.1, hrest.2.2⟩

/-- A round without a completed packet. -/
theorem readerRound_empty {reads : ℕ} {s : State} (h : s.rx.packetReady = 0) :
    readerRound reads s = (rxPacketReady s).2 := if_pos h

/-- A round with a completed packet at the read cursor. -/
theorem readerRound_packet {reads c : ℕ} {s : State} {p : List Word} (hc : 4 ∣ c) (hp : p ≠ [])
    (hwrap : s.mem.readWraps = true) (hcursor : s.rx.rdPacketAddr = ringAddr c)
    (hholds : Holds s.mem.cells c (packetClosed p)) (hfits : packetBytes p ≤ halfSize)
    (hready : s.rx.packetReady ≠ 0) :
    let s' := readerRound reads s
    ReaderStep s s' ∧ (∃ j, 4 ∣ j ∧ s'.rx.rdBufAddr = ringAddr j) ∧
    s'.rx.rdPacketAddr = ringAddr c + BitVec.ofNat 32 (packetBytes p) ∧
    s'.rx.packetReady = s.rx.packetReady - 1 := by
  obtain ⟨h, ws, heq⟩ := List.exists_cons_of_ne_nil hp
  have hrx := rxPacketReady_closed hc heq hwrap hcursor hholds
  have hreads := rxReads_spec reads (s := (rxPacketReady s).2) ⟨c, hc, by rw [hrx]⟩
  obtain ⟨hstep, hbuf, hpkt, hmark, hcount⟩ := hreads
  rw [hrx] at hpkt hmark hcount
  have hround : readerRound reads s = rxPacketNext (rxReads reads (rxPacketReady s).2) :=
    if_neg hready
  have hne : (rxReads reads (rxPacketReady s).2).rx.rdPacketMarker ≠ -1 := by
    rw [hmark]
    exact packetBytes_ne_neg_one hfits
  rw [hround]
  refine ⟨((readerStep_rxPacketReady s).trans hstep).trans (readerStep_rxPacketNext _), ?_⟩
  rw [rxPacketNext, if_neg hne]
  refine ⟨hbuf, ?_, ?_⟩
  · simp only [hpkt, hmark, hcursor]
  · simp only [hcount]

end

section
variable [Dram]

/-! ## Steps -/

/-- A chunk of a packet comes in. -/
theorem Tracks.data {y : RxSys} {l : RxLedger} (h : Tracks y l) (ws : List Word)
    (hfits : (l.step (.data ws)).stored ≤ halfSize) :
    Tracks (y.step (.data ws)) (l.step (.data ws)) := by
  have hw := writerStep_rxData y.dev [ws]
  refine ⟨h.ring.data ws hfits, ?_, h.lap, ?_, ?_, ?_, h.markers⟩
  · show (rxInterrupt rxDataIntFunc [ws] y.dev).mem.readWraps = true
    rw [Mem.readWraps, hw.flags]
    exact h.readWraps
  · exact hw.rdPacketAddr.trans h.packetAddr
  · obtain ⟨j, hj, hbuf⟩ := h.bufAddr
    exact ⟨j, hj, hw.rdBufAddr.trans hbuf⟩
  · rw [RxLedger.step, ← h.packetReady]
    exact rxData_packetReady h.ring.four_dvd_end h.ring.flags h.ring.rxFifo h.ring.writer
      h.ring.scram ws

/-- A packet is completed. -/
theorem Tracks.ready {y : RxSys} {l : RxLedger} (h : Tracks y l) (ws : List Word)
    (hfits : (l.step (.ready ws)).stored ≤ halfSize) :
    Tracks (y.step (.ready ws)) (l.step (.ready ws)) := by
  have hw := writerStep_rxReady y.dev [ws]
  have hwrap : (y.step (.ready ws)).dev.mem.readWraps = true := by
    show (rxInterrupt rxReadyIntFunc [ws] y.dev).mem.readWraps = true
    rw [Mem.readWraps, hw.flags]
    exact h.readWraps
  have hpkt : (y.step (.ready ws)).dev.rx.rdPacketAddr = ringAddr l.consumed :=
    hw.rdPacketAddr.trans h.packetAddr
  have hbuf : ∃ j, 4 ∣ j ∧ (y.step (.ready ws)).dev.rx.rdBufAddr = ringAddr j := by
    obtain ⟨j, hj, hbuf⟩ := h.bufAddr
    exact ⟨j, hj, hw.rdBufAddr.trans hbuf⟩
  by_cases hne : l.current ++ ws = []
  · obtain ⟨hcur, rfl⟩ := List.append_eq_nil_iff.mp hne
    -- no words and no packet in progress: nothing to complete
    have hidle := RingHolds.ready_idle (h := hcur ▸ h.ring)
    have hl : l.step (.ready []) = l := if_pos hne
    rw [hl]
    have hcount : (y.step (.ready [])).dev.rx.packetReady = y.dev.rx.packetReady := by
      show (rxInterrupt rxReadyIntFunc [[]] y.dev).rx.packetReady = _
      rw [hidle]
      rfl
    refine ⟨?_, hwrap, h.lap, hpkt, hbuf, hcount.trans h.packetReady, ?_⟩
    · show RingHolds _ _ _ (rxInterrupt rxReadyIntFunc [[]] y.dev)
      rw [hidle]
      exact h.ring.pulse _
    · exact (if_pos hcount).trans h.markers
  · have hl : l.step (.ready ws)
        = { l with queue := l.queue ++ [l.current ++ ws], current := [] } := if_neg hne
    rw [hl] at hfits ⊢
    simp only [RxLedger.stored, queueBytes_append, queueBytes_cons, queueBytes_nil] at hfits
    have hpos := packetBytes_pos hne
    obtain ⟨hring, hcount, hlog⟩ := h.ring.ready ws hne (by omega)
    refine ⟨hring, hwrap, h.lap, hpkt, hbuf, ?_, ?_⟩
    · refine hcount.trans ?_
      rw [h.packetReady, List.length_append, List.length_singleton, BitVec.ofNat_add]
      rfl
    · -- `packet_ready` has changed, which is how the ledger sees a completed packet
      have hnew : (rxInterrupt rxReadyIntFunc [ws] y.dev).rx.packetReady ≠ y.dev.rx.packetReady := by
        rw [hcount]
        simp
      refine (if_neg hnew).trans ?_
      rw [hlog, h.markers, markerAddrs_append]
      rfl

/-- What a round does to the device when a packet is ready. -/
theorem Tracks.round_packet {y : RxSys} {l : RxLedger} (h : Tracks y l) (reads : ℕ)
    {p : List Word} {ps : List (List Word)} (hq : l.queue = p :: ps) :
    let s' := readerRound reads y.dev
    ReaderStep y.dev s' ∧ (∃ j, 4 ∣ j ∧ s'.rx.rdBufAddr = ringAddr j) ∧
    s'.rx.rdPacketAddr = ringAddr l.consumed + BitVec.ofNat 32 (packetBytes p) ∧
    s'.rx.packetReady = y.dev.rx.packetReady - 1 := by
  have hring := h.ring
  have hlt := hring.queue_lt
  have hfits := hring.fits
  rw [hq] at hring hlt hfits
  rw [queueBytes_cons] at hfits
  refine readerRound_packet hring.aligned (hring.nonempty p List.mem_cons_self) h.readWraps
    h.packetAddr hring.packets.1 (by omega) ?_
  rw [h.packetReady, hq]
  intro h0
  have hmod : (ps.length + 1) % 2 ^ 32 = 0 := by simpa using congrArg BitVec.toNat h0
  rw [List.length_cons] at hlt
  omega

/-- The reader drops the oldest packet. -/
theorem Tracks.round {y : RxSys} {l : RxLedger} (h : Tracks y l) (reads : ℕ)
    (hlap : (l.step (.round reads)).consumed < halfSize) :
    Tracks (y.step (.round reads)) (l.step (.round reads)) := by
  cases hq : l.queue with
  | nil =>
    have hzero : y.dev.rx.packetReady = 0 := by rw [h.packetReady, hq]; rfl
    have hl : l.step (.round reads) = l := by simp only [RxLedger.step, hq]
    have hy : (y.step (.round reads)).dev = (rxPacketReady y.dev).2 := readerRound_empty hzero
    rw [hl]
    refine ⟨?_, ?_, h.lap, ?_, ?_, ?_, ?_⟩
    · rw [hy]
      exact h.ring.reader (readerStep_rxPacketReady _)
    · rw [hy]
      exact h.readWraps
    · rw [hy]
      exact h.packetAddr
    · rw [hy]
      exact ⟨l.consumed, h.ring.aligned, h.packetAddr⟩
    · rw [hy]
      exact h.packetReady
    · -- an empty queue: `rx_packet_ready` only resets the reader
      have hsame : (readerRound reads y.dev).rx.packetReady = y.dev.rx.packetReady := by
        rw [readerRound_empty hzero]
        rfl
      exact (if_pos hsame).trans h.markers
  | cons p ps =>
    -- the oldest packet is released
    obtain ⟨hstep, hbuf, hpkt, hcount⟩ := h.round_packet reads hq
    have hl : l.step (.round reads)
        = { l with queue := ps, consumed := l.consumed + packetBytes p } := by
      simp only [RxLedger.step, hq]
    rw [hl] at hlap ⊢
    simp only at hlap
    have hring : RingHolds l.consumed (p :: ps) l.current y.dev := hq ▸ h.ring
    refine ⟨hring.tail.reader hstep, ?_, hlap, ?_, hbuf, ?_, ?_⟩
    · show (readerRound reads y.dev).mem.readWraps = true
      rw [Mem.readWraps, hstep.flags]
      exact h.readWraps
    · refine hpkt.trans ?_
      rw [ringAddr_of_lt h.lap, ringAddr_of_lt hlap, BitVec.ofNat_add, BitVec.add_assoc]
    · refine hcount.trans ?_
      rw [h.packetReady, hq, List.length_cons, BitVec.ofNat_add]
      exact BitVec.add_sub_cancel _ _
    · have hnew : (readerRound reads y.dev).rx.packetReady ≠ y.dev.rx.packetReady := by
        rw [hcount]
        bv_omega
      refine (if_neg hnew).trans ?_
      rw [h.markers, hq]
      rfl

/-- Without the wrap a packet that ends at or behind the end of the ring leads out of it. -/
theorem Tracks.round_leaves {y : RxSys} {l : RxLedger} (h : Tracks y l) (reads : ℕ)
    (hlap : ¬ (l.step (.round reads)).consumed < halfSize) :
    ¬ (y.step (.round reads)).ReaderAtOldest := by
  cases hq : l.queue with
  | nil =>
    have hl : l.step (.round reads) = l := by simp only [RxLedger.step, hq]
    rw [hl] at hlap
    exact absurd h.lap hlap
  | cons p ps =>
    obtain ⟨-, -, hpkt, -⟩ := h.round_packet reads hq
    have hl : (l.step (.round reads)).consumed = l.consumed + packetBytes p := by
      simp only [RxLedger.step, hq]
    rw [hl] at hlap
    have hfits := h.ring.fits
    have hc := h.lap
    rw [hq, queueBytes_cons] at hfits
    rintro ⟨⟨-, -, hin⟩, -, -⟩
    have hval : (y.step (.round reads)).dev.rx.rdPacketAddr
        = ringAddr l.consumed + BitVec.ofNat 32 (packetBytes p) := hpkt
    rw [hval, ringAddr_of_lt hc] at hin
    simp only [BitVec.toNat_add, BitVec.toNat_ofNat, memRxBuf_toNat, memSize_toNat] at hin
    simp only [halfSize_eq] at hin hc hfits hlap
    omega

/-- Any event. -/
theorem Tracks.step {y : RxSys} {l : RxLedger} (h : Tracks y l) (e : RxEvent)
    (hfits : (l.step e).stored ≤ halfSize) (hlap : (l.step e).consumed < halfSize) :
    Tracks (y.step e) (l.step e) := by
  cases e with
  | data ws => exact h.data ws hfits
  | ready ws => exact h.ready ws hfits
  | round reads => exact h.round reads hlap

/-- At the end of the lap the reader leaves the ring. -/
theorem Tracks.leaves {y : RxSys} {l : RxLedger} (h : Tracks y l) (e : RxEvent)
    (hlap : ¬ (l.step e).consumed < halfSize) : ¬ (y.step e).ReaderAtOldest := by
  cases e with
  | data ws => exact absurd h.lap hlap
  | ready ws =>
    have hl : (l.step (.ready ws)).consumed = l.consumed := by
      simp only [RxLedger.step]
      split <;> rfl
    rw [hl] at hlap
    exact absurd h.lap hlap
  | round reads => exact h.round_leaves reads hlap

theorem tracks_boot {s : State} (h : Boot s) : Tracks ⟨s, []⟩ RxLedger.empty := by
  refine ⟨⟨Nat.dvd_zero 4, ?_, h.rxFifo, ?_, rfl, trivial, ?_, ?_, ?_⟩, ?_, ?_, ?_, ?_, ?_, rfl⟩
  · rw [Mem.writeWraps, h.flags]
    decide
  · rw [h.rx]
    rfl
  · intro i hi
    cases hi
  · intro p hp
    cases hp
  · exact Nat.zero_le _
  · rw [Mem.readWraps, h.flags]
    decide
  · decide
  · rw [h.rx]
    rfl
  · exact ⟨0, Nat.dvd_zero 4, by rw [h.rx]; rfl⟩
  · rw [h.rx]
    rfl

/-! ## The invariant of the reader -/

/-- So it stands there exactly up to the end of the lap. -/
theorem Tracks.always_iff {y : RxSys} {l : RxLedger} (h : Tracks y l) {evs : List RxEvent}
    (hstored : Run.Always RxLedger.step (fun l => l.stored ≤ halfSize) l evs) :
    Run.Always RxSys.step RxSys.ReaderAtOldest y evs ↔
      (Run.run RxLedger.step l evs).consumed < halfSize :=
  Run.always_iff_abstract (G := fun l => l.consumed < halfSize)
    (fun _ _ h => ⟨h.readerAtOldest, h.lap⟩)
    (fun _ _ e h hfits hlap => h.step e hfits hlap) (fun _ _ e h _ hlap => h.leaves e hlap)
    (fun l e h => Nat.lt_of_le_of_lt (l.consumed_le e) h) h hstored

/-- **The reader stands at the oldest packet** throughout a run from start-up that never
stores more than the ring holds if and only if the packets consumed in it add up to less
than one lap. -/
theorem readerAtOldest_iff {s : State} (hboot : Boot s) (evs : List RxEvent)
    (hstored : Run.Always RxLedger.step (fun l => l.stored ≤ halfSize) RxLedger.empty evs) :
    Run.Always RxSys.step RxSys.ReaderAtOldest ⟨s, []⟩ evs ↔
      (Run.run RxLedger.step RxLedger.empty evs).consumed < halfSize :=
  (tracks_boot hboot).always_iff hstored

end

/-- A packet of a header and a payload word, received in two calls and consumed. -/
theorem readerAtOldest_one_packet :
    letI := plainDram
    Run.Always RxSys.step RxSys.ReaderAtOldest ⟨bootState, []⟩
      [.data [0x800], .ready [7], .round 2] :=
  (@readerAtOldest_iff plainDram bootState bootState_boot [.data [0x800], .ready [7], .round 2]
    ⟨by decide, by decide, by decide, Nat.zero_le _⟩).mpr (by decide)

/-- A packet that fills the ring: once it is consumed the reader stands at `MEM_SIZE`. -/
theorem reader_leaves_ring :
    letI := plainDram
    let evs := [RxEvent.ready (List.replicate (halfSize / 4 - 1) 0), .round 0]
    Run.Always RxLedger.step (fun l => l.stored ≤ halfSize) RxLedger.empty evs ∧
      ¬ Run.Always RxSys.step RxSys.ReaderAtOldest ⟨bootState, []⟩ evs := by
  intro evs
  have hlen : (List.replicate (halfSize / 4 - 1) (0 : Word)).length = 4194303 :=
    List.length_replicate
  obtain ⟨h, ws, hp⟩ := List.exists_cons_of_length_eq_add_one hlen
  have hbytes : packetBytes (h :: ws) = halfSize := by
    rw [hp, List.length_cons] at hlen
    rw [packetBytes, halfSize_eq]
    omega
  have hevs : evs = [.ready (h :: ws), .round 0] := by rw [← hp]
  rw [hevs]
  have hstored : Run.Always RxLedger.step (fun l => l.stored ≤ halfSize) RxLedger.empty
      [.ready (h :: ws), .round 0] := by
    refine ⟨Nat.zero_le _, ?_, Nat.zero_le _⟩
    exact Nat.le_of_eq hbytes
  refine ⟨hstored, fun halways => ?_⟩
  have hlap := (@Tracks.always_iff plainDram _ _ (@tracks_boot plainDram _ bootState_boot) _
    hstored).mp halways
  have hcons : 0 + packetBytes (h :: ws) < halfSize := hlap
  rw [hbytes] at hcons
  omega

end HbcMac
