import HbcMac.RxQueue

/-!
# The data port

What one call of `hbc_data_irq` does: it writes the next byte of the acknowledge, else of the
reply, else of the dump, and otherwise nothing. `spiPending` counts the bytes still to come.
-/

namespace HbcMac

/-- The bytes registered for the host and not yet written. -/
def spiPending (s : State) : ℕ := s.spi.ackBytes + s.spi.replyBytes + s.spi.dumpingMem

/-- The trace of one `hbc_data_write` with its request. -/
def portWrite (b : Byte) : List Out := [.data b, .gpo .hbcDataInt true, .gpo .hbcDataInt false]

/-- A byte at the port is one more byte for the host. -/
theorem dataBytes_portWrite (out : List Out) (b : Byte) :
    dataBytes (out ++ portWrite b) = dataBytes out ++ [b] := dataBytes_append out _

section
variable [Board] {s : State}

/-! ## The four branches -/

/-- Nothing is registered. -/
theorem hbcDataIrq_idle (h : spiPending s = 0) : hbcDataIrq s = s := by
  unfold spiPending at h
  have hack : s.spi.ackBytes = 0 := by omega
  have hreply : s.spi.replyBytes = 0 := by omega
  have hdump : s.spi.dumpingMem = 0 := by omega
  simp only [hbcDataIrq, hack, hreply, hdump, ne_eq, not_true_eq_false, if_false]

/-- The acknowledge comes first. -/
theorem hbcDataIrq_ack (hack : s.spi.ackBytes ≠ 0) :
    hbcDataIrq s = { s with
      out := s.out
        ++ portWrite (LittleEndian.byteAt s.spi.ackData (replySize - s.spi.ackBytes))
      spi := { s.spi with ackBytes := s.spi.ackBytes - 1 } } := by
  rw [hbcDataIrq, if_pos hack, dataAck, hbcDataWrite, dataReqNext]
  simp only [State.pulse, State.gpoClear, State.gpoSet, State.emit, portWrite, List.append_assoc,
    List.cons_append, List.nil_append]

/-- The reply comes behind it. -/
theorem hbcDataIrq_reply (hack : s.spi.ackBytes = 0) (hreply : s.spi.replyBytes ≠ 0) :
    hbcDataIrq s = { s with
      out := s.out ++ portWrite
        (LittleEndian.byteAt s.spi.replyData (s.spi.replySize - s.spi.replyBytes))
      spi := { s.spi with replyBytes := s.spi.replyBytes - 1 } } := by
  rw [hbcDataIrq, if_neg (not_not.mpr hack), if_pos hreply, dataReply, hbcDataWrite, dataReqNext]
  simp only [State.pulse, State.gpoClear, State.gpoSet, State.emit, portWrite, List.append_assoc,
    List.cons_append, List.nil_append]

/-- The dump comes last. -/
theorem hbcDataIrq_dump (hack : s.spi.ackBytes = 0) (hreply : s.spi.replyBytes = 0)
    (hdump : s.spi.dumpingMem ≠ 0) : hbcDataIrq s = dataDump s := by
  rw [hbcDataIrq, if_neg (not_not.mpr hack), if_neg (not_not.mpr hreply), if_pos hdump]

/-! ## What stays -/

/-- The fetch of a dump reads memory; apart from the read pointers it sets only `wr_data`. -/
theorem readerStep_dumpFetch (s : State) : ReaderStep s (dumpFetch s) ∧
    (dumpFetch s).main = s.main ∧ (dumpFetch s).out = s.out ∧
    (dumpFetch s).rx.rdPacketAddr = s.rx.rdPacketAddr ∧
    (dumpFetch s).rx.packetReady = s.rx.packetReady ∧
    ∃ w, (dumpFetch s).spi = { s.spi with wrData := w } := by
  unfold dumpFetch
  split
  · split
    · exact ⟨⟨rfl, rfl, rfl, rfl, rfl, rfl, rfl, rfl, rfl, rfl⟩, rfl, rfl, rfl, rfl, _, rfl⟩
    · exact ⟨⟨rfl, rfl, rfl, rfl, rfl, rfl, rfl, rfl, rfl, rfl⟩, rfl, rfl, rfl, rfl, _, rfl⟩
  · exact ⟨ReaderStep.refl s, rfl, rfl, rfl, rfl, _, rfl⟩

/-- One byte of a dump: the port registers after it, whatever the fetch has read. -/
theorem dataDump_eq (s : State) :
    dataDump s = { dumpFetch s with
      out := s.out ++ portWrite (LittleEndian.byteAt (dumpFetch s).spi.wrData s.spi.dumpIndex)
      spi := { s.spi with
        wrData := (dumpFetch s).spi.wrData
        dumpingMem := s.spi.dumpingMem - 1
        dumpIndex := if s.spi.dumpIndex + 1 = 4 then 0 else s.spi.dumpIndex + 1
        dumpAddr := if s.spi.dumpIndex + 1 = 4 then s.spi.dumpAddr + 4 else s.spi.dumpAddr } } := by
  obtain ⟨-, -, hout, -, -, w, hspi⟩ := readerStep_dumpFetch s
  unfold dataDump
  generalize dumpFetch s = t at hout hspi
  unfold dumpStep
  simp only [hbcDataWrite, dataReqNext, State.pulse, State.gpoClear, State.gpoSet, State.emit,
    hout, hspi, portWrite, List.append_assoc, List.cons_append, List.nil_append]
  split
  · rfl
  · rfl

/-- The data interrupt reads memory and moves the port registers on, nothing else. -/
theorem readerStep_hbcDataIrq (s : State) : ReaderStep s (hbcDataIrq s) ∧
    (hbcDataIrq s).main = s.main ∧ (hbcDataIrq s).rx.rdPacketAddr = s.rx.rdPacketAddr ∧
    (hbcDataIrq s).rx.packetReady = s.rx.packetReady ∧
    (hbcDataIrq s).spi.loadingMem = s.spi.loadingMem := by
  unfold hbcDataIrq
  split
  · exact ⟨⟨rfl, rfl, rfl, rfl, rfl, rfl, rfl, rfl, rfl, rfl⟩, rfl, rfl, rfl, rfl⟩
  · split
    · exact ⟨⟨rfl, rfl, rfl, rfl, rfl, rfl, rfl, rfl, rfl, rfl⟩, rfl, rfl, rfl, rfl⟩
    · split
      · obtain ⟨hstep, hmain, -, hpkt, hready, -, -⟩ := readerStep_dumpFetch s
        rw [dataDump_eq]
        exact ⟨⟨hstep.cells, hstep.wrP, hstep.flags, hstep.log, hstep.scram, hstep.rxFifo,
          hstep.wrBufAddr, hstep.wrBytes, hstep.wrPacketAddr, hstep.rxState⟩,
          hmain, hpkt, hready, rfl⟩
      · exact ⟨ReaderStep.refl s, rfl, rfl, rfl, rfl⟩

/-- Of the receiver's variables it moves only the read pointer of the ring. -/
theorem rx_hbcDataIrq (s : State) : ∃ a, (hbcDataIrq s).rx = { s.rx with rdBufAddr := a } := by
  unfold hbcDataIrq
  split
  · exact ⟨_, rfl⟩
  · split
    · exact ⟨_, rfl⟩
    · split
      · rw [dataDump_eq]
        unfold dumpFetch
        split
        · split
          · exact ⟨_, rfl⟩
          · exact ⟨_, rfl⟩
        · exact ⟨_, rfl⟩
      · exact ⟨_, rfl⟩

/-- While bytes are pending a call writes one of them, with its request. -/
theorem hbcDataIrq_portWrite (h : spiPending s ≠ 0) :
    (∃ b, (hbcDataIrq s).out = s.out ++ portWrite b) ∧
    spiPending (hbcDataIrq s) + 1 = spiPending s := by
  unfold spiPending at h ⊢
  by_cases hack : s.spi.ackBytes = 0
  · by_cases hreply : s.spi.replyBytes = 0
    · have hdump : s.spi.dumpingMem ≠ 0 := by omega
      rw [hbcDataIrq_dump hack hreply hdump, dataDump_eq]
      refine ⟨⟨_, rfl⟩, ?_⟩
      dsimp only
      omega
    · rw [hbcDataIrq_reply hack hreply]
      refine ⟨⟨_, rfl⟩, ?_⟩
      dsimp only
      omega
  · rw [hbcDataIrq_ack hack]
    refine ⟨⟨_, rfl⟩, ?_⟩
    dsimp only
    omega

/-- **One byte at a time.** While bytes are pending a call writes exactly one of them. -/
theorem hbcDataIrq_writes (h : spiPending s ≠ 0) :
    (∃ b, dataBytes (hbcDataIrq s).out = dataBytes s.out ++ [b]) ∧
    spiPending (hbcDataIrq s) + 1 = spiPending s := by
  obtain ⟨⟨b, hout⟩, hcount⟩ := hbcDataIrq_portWrite h
  refine ⟨⟨b, ?_⟩, hcount⟩
  rw [hout, dataBytes_portWrite]

end

end HbcMac
