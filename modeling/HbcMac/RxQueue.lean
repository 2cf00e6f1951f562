import HbcMac.RxRing
import HbcMac.WriterStep

/-!
# The queue of packets in the receive half

`RingHolds c ps cur` is the invariant of the writer: from cursor `c` on the ring holds the
completed packets `ps`, and behind them what has come of the packet `cur` in progress. The
handlers keep it as long as the stored bytes fit in the ring; the reader only has to leave
memory and writer alone (`ReaderStep`).
-/

namespace HbcMac

section
variable [Board]

/-- The writer's variables and the ring, with the completed packets `ps` from cursor `c` on
and the words `cur` of a packet in progress. -/
structure RingHolds (c : ℕ) (ps : List (List Word)) (cur : List Word) (s : State) : Prop where
  aligned : 4 ∣ c
  flags : s.mem.writeWraps = true
  rxFifo : s.rxFifo = ⟨[], []⟩
  writer : s.rx = writerVars (c + queueBytes ps) cur s.rx
  scram : s.scram = writerScram cur s.scram
  packets : HoldsPackets s.mem.cells c ps
  opened : Holds s.mem.cells (c + queueBytes ps) (packetOpen cur)
  nonempty : ∀ p ∈ ps, p ≠ []
  fits : queueBytes ps + packetBytes cur ≤ halfSize

/-! ## Completed packets -/

/-- Packets behind packets. -/
theorem HoldsPackets.append {cells : Word → Word} {k : ℕ} {ps ps' : List (List Word)}
    (h : HoldsPackets cells k ps) (h' : HoldsPackets cells (k + queueBytes ps) ps') :
    HoldsPackets cells k (ps ++ ps') := by
  induction ps generalizing k with
  | nil => exact h'
  | cons p ps ih =>
    refine ⟨h.1, ih h.2 ?_⟩
    rwa [queueBytes_cons, ← Nat.add_assoc] at h'

/-- They end at a word. -/
theorem RingHolds.four_dvd_end {c : ℕ} {ps : List (List Word)} {cur : List Word} {s : State}
    (h : RingHolds c ps cur s) : 4 ∣ c + queueBytes ps :=
  Nat.dvd_add h.aligned (four_dvd_queueBytes ps)

end

section
variable [Dram]

/-- Writes behind the packets, less than a lap ahead of the first of them, leave them. -/
theorem HoldsPackets.replay {cells : Word → Word} {c k : ℕ} {ps : List (List Word)}
    {new : List Word} (h : HoldsPackets cells c ps) (hps : ∀ p ∈ ps, p ≠ []) (hc : 4 ∣ c)
    (hk : 4 ∣ k) (hbehind : c + queueBytes ps ≤ k) (hlap : k + 4 * new.length ≤ c + halfSize) :
    HoldsPackets (HbcMac.replay cells (ringLog k new)) c ps := by
  induction ps generalizing c with
  | nil => trivial
  | cons p ps ih =>
    rw [queueBytes_cons] at hbehind
    have hlen := length_packetClosed (hps p List.mem_cons_self)
    refine ⟨h.1.replay hc hk (by omega) hlap, ih h.2 ?_ ?_ (by omega) (by omega)⟩
    · exact fun q hq => hps q (List.mem_cons_of_mem p hq)
    · exact Nat.dvd_add hc (four_dvd_packetBytes p)

/-! ## The handlers -/

section
variable {c : ℕ} {ps : List (List Word)} {cur : List Word} {s : State}

/-- **Receive step.** The words of one call of `rx_data_int_func` join the packet in progress. -/
theorem RingHolds.data (h : RingHolds c ps cur s) (ws : List Word)
    (hfits : queueBytes ps + packetBytes (cur ++ ws) ≤ halfSize) :
    RingHolds c ps (cur ++ ws) (rxInterrupt rxDataIntFunc [ws] s) := by
  have hend := h.four_dvd_end
  have hk : 4 ∣ c + queueBytes ps + packetBytes cur := Nat.dvd_add hend (four_dvd_packetBytes cur)
  have hnew := length_packetAdded cur ws
  have hopen := length_packetOpen cur
  rw [rxData_interrupt h.rxFifo, takeWords_ring hend h.flags h.writer h.scram]
  refine ⟨h.aligned, h.flags, h.rxFifo, ?_, ?_, ?_, ?_, h.nonempty, hfits⟩
  · simp only
    cases cur ++ ws <;> rfl
  · simp only
    cases cur ++ ws <;> rfl
  · exact h.packets.replay h.nonempty h.aligned hk (by omega) (by omega)
  · rw [packetOpen_append]
    refine (h.opened.replay hend hk (by omega) (by omega)).append ?_
    rw [hopen]
    exact Holds.replay_self hk (by omega)

/-- A chunk does not complete a packet. -/
theorem rxData_packetReady (hend : 4 ∣ c) (hflags : s.mem.writeWraps = true)
    (hf : s.rxFifo = ⟨[], []⟩) (hrx : s.rx = writerVars c cur s.rx)
    (hscram : s.scram = writerScram cur s.scram) (ws : List Word) :
    (rxInterrupt rxDataIntFunc [ws] s).rx.packetReady = s.rx.packetReady := by
  rw [rxData_interrupt hf, takeWords_ring hend hflags hrx hscram]
  simp only
  cases cur ++ ws <;> rfl

/-- A packet in progress is completed: its marker is the last word written. -/
theorem RingHolds.finish (h : RingHolds c ps cur s) (hcur : cur ≠ []) :
    RingHolds c (ps ++ [cur]) [] (rxFinishPacket s) ∧
    (rxFinishPacket s).rx.packetReady = s.rx.packetReady + 1 ∧
    (rxFinishPacket s).mem.log = s.mem.log
      ++ [(ringAddr (c + queueBytes ps), BitVec.ofNat 32 (packetBytes cur))] := by
  have hend := h.four_dvd_end
  have hfits := h.fits
  have hsum : queueBytes (ps ++ [cur]) = queueBytes ps + packetBytes cur := by
    rw [queueBytes_append, queueBytes_cons, queueBytes_nil, Nat.add_zero]
  have hopen := length_packetOpen cur
  have hpos := packetBytes_pos hcur
  rw [rxFinishPacket_ring hcur hend h.flags h.writer (by omega)]
  refine ⟨⟨h.aligned, h.flags, h.rxFifo, ?_, rfl, ?_, ?_, ?_, ?_⟩, rfl, rfl⟩
  · rw [hsum, ← Nat.add_assoc]
    rfl
  · have hold : HoldsPackets (HbcMac.replay s.mem.cells
        (ringLog (c + queueBytes ps) [BitVec.ofNat 32 (packetBytes cur)])) c ps :=
      h.packets.replay h.nonempty h.aligned hend (Nat.le_refl _)
        (by rw [List.length_singleton]; omega)
    exact hold.append ⟨holds_packetClosed hend hcur h.opened (by omega), trivial⟩
  · intro i hi
    cases hi
  · intro p hp
    rcases List.mem_append.mp hp with hp | hp
    · exact h.nonempty p hp
    · rwa [List.mem_singleton.mp hp]
  · rw [hsum]
    exact hfits

theorem RingHolds.pulse (h : RingHolds c ps cur s) (line : Gpo) :
    RingHolds c ps cur (s.pulse line) :=
  ⟨h.aligned, h.flags, h.rxFifo, h.writer, h.scram, h.packets, h.opened, h.nonempty, h.fits⟩

/-- The words of one call of `rx_ready_int_func` before the marker is written. -/
theorem RingHolds.lastWords (h : RingHolds c ps cur s) (ws : List Word)
    (hfits : queueBytes ps + packetBytes (cur ++ ws) ≤ halfSize) :
    ∃ t, RingHolds c ps (cur ++ ws) t ∧ t.rx.packetReady = s.rx.packetReady ∧
      rxInterrupt rxReadyIntFunc [ws] s = (rxFinishPacket t).pulse .hbcRxPktAck := by
  refine ⟨_, ?_, ?_, rxReady_interrupt h.rxFifo ws⟩
  · by_cases hws : ws = []
    · rw [if_pos hws, hws, List.append_nil]
      exact h
    · rw [if_neg hws, ← rxData_interrupt h.rxFifo]
      exact h.data ws hfits
  · by_cases hws : ws = []
    · rw [if_pos hws]
    · rw [if_neg hws, ← rxData_interrupt h.rxFifo]
      exact rxData_packetReady h.four_dvd_end h.flags h.rxFifo h.writer h.scram ws

/-- **Completion step.** `rx_ready_int_func` hands over the packet in progress. -/
theorem RingHolds.ready (h : RingHolds c ps cur s) (ws : List Word) (hne : cur ++ ws ≠ [])
    (hfits : queueBytes ps + packetBytes (cur ++ ws) ≤ halfSize) :
    let s' := rxInterrupt rxReadyIntFunc [ws] s
    RingHolds c (ps ++ [cur ++ ws]) [] s' ∧ s'.rx.packetReady = s.rx.packetReady + 1 ∧
    s'.mem.log.getLast? = some
      (ringAddr (c + queueBytes ps), BitVec.ofNat 32 (packetBytes (cur ++ ws))) := by
  obtain ⟨t, ht, hcount, heq⟩ := h.lastWords ws hfits
  obtain ⟨hring, hready, hlog⟩ := ht.finish hne
  simp only [heq]
  refine ⟨hring.pulse .hbcRxPktAck, ?_, ?_⟩
  · rw [← hcount, ← hready]
    rfl
  · show (rxFinishPacket t).mem.log.getLast? = _
    rw [hlog, List.getLast?_concat]

/-- Without a packet in progress `rx_ready_int_func` only acknowledges. -/
theorem RingHolds.ready_idle (h : RingHolds c ps [] s) :
    rxInterrupt rxReadyIntFunc [[]] s = s.pulse .hbcRxPktAck := by
  rw [rxReady_interrupt h.rxFifo, if_pos rfl, rxFinishPacket_nil h.writer]

end

end

/-! ## The reader -/

/-- The size of a packet that fits in the ring is no `-1`. -/
theorem packetBytes_ne_neg_one {p : List Word} (h : packetBytes p ≤ halfSize) :
    BitVec.ofNat 32 (packetBytes p) ≠ -1 := by
  intro heq
  have hmod : packetBytes p % 2 ^ 32 = 2 ^ 32 - 1 := by simpa using congrArg BitVec.toNat heq
  rw [halfSize_eq] at h
  omega

section
variable [Board]

/-- A step that leaves the memory contents and the writer alone. -/
structure ReaderStep (s s' : State) : Prop where
  cells : s'.mem.cells = s.mem.cells
  wrP : s'.mem.wrP = s.mem.wrP
  flags : s'.mem.flags = s.mem.flags
  log : s'.mem.log = s.mem.log
  scram : s'.scram = s.scram
  rxFifo : s'.rxFifo = s.rxFifo
  wrBufAddr : s'.rx.wrBufAddr = s.rx.wrBufAddr
  wrBytes : s'.rx.wrBytes = s.rx.wrBytes
  wrPacketAddr : s'.rx.wrPacketAddr = s.rx.wrPacketAddr
  rxState : s'.rx.rxState = s.rx.rxState

namespace ReaderStep

omit [Board] in
theorem refl (s : State) : ReaderStep s s := ⟨rfl, rfl, rfl, rfl, rfl, rfl, rfl, rfl, rfl, rfl⟩

omit [Board] in
theorem trans {s t u : State} (h : ReaderStep s t) (h' : ReaderStep t u) : ReaderStep s u where
  cells := h'.cells.trans h.cells
  wrP := h'.wrP.trans h.wrP
  flags := h'.flags.trans h.flags
  log := h'.log.trans h.log
  scram := h'.scram.trans h.scram
  rxFifo := h'.rxFifo.trans h.rxFifo
  wrBufAddr := h'.wrBufAddr.trans h.wrBufAddr
  wrBytes := h'.wrBytes.trans h.wrBytes
  wrPacketAddr := h'.wrPacketAddr.trans h.wrPacketAddr
  rxState := h'.rxState.trans h.rxState

end ReaderStep

/-- A look is the reader's. -/
theorem readerStep_rxPacketReady (s : State) : ReaderStep s (rxPacketReady s).2 :=
  ⟨rfl, rfl, rfl, rfl, rfl, rfl, rfl, rfl, rfl, rfl⟩

/-- So is a read. -/
theorem readerStep_rxRead (s : State) : ReaderStep s (rxRead s).2 :=
  ⟨rfl, rfl, rfl, rfl, rfl, rfl, rfl, rfl, rfl, rfl⟩

omit [Board] in
/-- So is dropping a packet. -/
theorem readerStep_rxPacketNext (s : State) : ReaderStep s (rxPacketNext s) := by
  unfold rxPacketNext
  split
  · exact ReaderStep.refl s
  · exact ⟨rfl, rfl, rfl, rfl, rfl, rfl, rfl, rfl, rfl, rfl⟩

omit [Board] in
theorem writerVars_of_eq {start : ℕ} {cur : List Word} {rx rx' : RxVars}
    (h : rx = writerVars start cur rx) (hbuf : rx'.wrBufAddr = rx.wrBufAddr)
    (hbytes : rx'.wrBytes = rx.wrBytes) (hpkt : rx'.wrPacketAddr = rx.wrPacketAddr)
    (hst : rx'.rxState = rx.rxState) : rx' = writerVars start cur rx' := by
  obtain ⟨a, b, c, d, e, f, g, i, j⟩ := rx
  obtain ⟨a', b', c', d', e', f', g', i', j'⟩ := rx'
  subst hbuf hbytes hpkt hst
  cases cur with
  | nil =>
    simp only [writerVars, RxVars.mk.injEq, true_and] at h ⊢
    exact ⟨h.1, h.2.1, h.2.2⟩
  | cons w ws =>
    simp only [writerVars, RxVars.mk.injEq, true_and] at h ⊢
    exact ⟨h.1, h.2.1, h.2.2.1, h.2.2.2⟩

/-- Whatever only reads keeps the queue. -/
theorem RingHolds.reader {c : ℕ} {ps : List (List Word)} {cur : List Word} {s s' : State}
    (h : RingHolds c ps cur s) (hstep : ReaderStep s s') : RingHolds c ps cur s' where
  aligned := h.aligned
  flags := by rw [Mem.writeWraps, hstep.flags]; exact h.flags
  rxFifo := hstep.rxFifo.trans h.rxFifo
  writer := writerVars_of_eq h.writer hstep.wrBufAddr hstep.wrBytes hstep.wrPacketAddr hstep.rxState
  scram := by rw [hstep.scram]; exact h.scram
  packets := by rw [hstep.cells]; exact h.packets
  opened := by rw [hstep.cells]; exact h.opened
  nonempty := h.nonempty
  fits := h.fits

/-- The oldest packet may be forgotten. -/
theorem RingHolds.tail {c : ℕ} {p : List Word} {ps : List (List Word)} {cur : List Word}
    {s : State} (h : RingHolds c (p :: ps) cur s) :
    RingHolds (c + packetBytes p) ps cur s where
  aligned := Nat.dvd_add h.aligned (four_dvd_packetBytes p)
  flags := h.flags
  rxFifo := h.rxFifo
  writer := by rw [Nat.add_assoc, ← queueBytes_cons]; exact h.writer
  scram := h.scram
  packets := h.packets.2
  opened := by rw [Nat.add_assoc, ← queueBytes_cons]; exact h.opened
  nonempty := fun q hq => h.nonempty q (List.mem_cons_of_mem p hq)
  fits := by
    have := h.fits
    rw [queueBytes_cons] at this
    omega

/-- `rx_packet_ready` with the read cursor at a completed packet reads its marker and its
header. -/
theorem rxPacketReady_closed {s : State} {c : ℕ} {p : List Word} {h : Word} {ws : List Word}
    (hc : 4 ∣ c) (hp : p = h :: ws) (hwrap : s.mem.readWraps = true)
    (hcursor : s.rx.rdPacketAddr = ringAddr c) (hholds : Holds s.mem.cells c (packetClosed p)) :
    (rxPacketReady s).2.rx = { s.rx with
      rdBufAddr := ringAddr c
      rdPacketMarker := BitVec.ofNat 32 (packetBytes p)
      rdPacketHeader := h } := by
  have hmarker : s.mem.cells (Board.cell (ringAddr c)) = BitVec.ofNat 32 (packetBytes p) :=
    hholds 0 (Nat.succ_pos _)
  have hheader : s.mem.cells (Board.cell (ringAddr (c + 4))) = h := by
    rw [hp] at hholds
    exact hholds 1 (Nat.succ_lt_succ (Nat.succ_pos _))
  have hval : (rxPacketReady s).2.rx = { s.rx with
      rdBufAddr := s.rx.rdPacketAddr
      rdPacketMarker := s.mem.get s.rx.rdPacketAddr
      rdPacketHeader := s.mem.get (advance s.mem.readWraps s.rx.rdPacketAddr) } := rfl
  rw [hval, hcursor, hwrap, advance_ringAddr hc, Mem.get, Mem.get, hmarker, hheader]

end

end HbcMac
