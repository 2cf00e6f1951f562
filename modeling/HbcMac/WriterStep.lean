import HbcMac.System

/-!
# What the receive handlers leave alone

Whatever words arrive while they run, the two receive handlers touch only the writer: the
reader's variables, the ports, the main loop and the read pointer stay as they are.
-/

namespace HbcMac

/-- A step of the writer of the receive ring, seen from the rest of the firmware. -/
structure WriterStep (s s' : State) : Prop where
  rdP : s'.mem.rdP = s.mem.rdP
  flags : s'.mem.flags = s.mem.flags
  rdBufAddr : s'.rx.rdBufAddr = s.rx.rdBufAddr
  rdPacketAddr : s'.rx.rdPacketAddr = s.rx.rdPacketAddr
  rdPacketHeader : s'.rx.rdPacketHeader = s.rx.rdPacketHeader
  rdPacketMarker : s'.rx.rdPacketMarker = s.rx.rdPacketMarker
  spi : s'.spi = s.spi
  main : s'.main = s.main
  data : dataBytes s'.out = dataBytes s.out

namespace WriterStep

theorem refl (s : State) : WriterStep s s := ⟨rfl, rfl, rfl, rfl, rfl, rfl, rfl, rfl, rfl⟩

theorem trans {s t u : State} (h : WriterStep s t) (h' : WriterStep t u) : WriterStep s u where
  rdP := h'.rdP.trans h.rdP
  flags := h'.flags.trans h.flags
  rdBufAddr := h'.rdBufAddr.trans h.rdBufAddr
  rdPacketAddr := h'.rdPacketAddr.trans h.rdPacketAddr
  rdPacketHeader := h'.rdPacketHeader.trans h.rdPacketHeader
  rdPacketMarker := h'.rdPacketMarker.trans h.rdPacketMarker
  spi := h'.spi.trans h.spi
  main := h'.main.trans h.main
  data := h'.data.trans h.data

end WriterStep

/-- Settling the FIFO after a handler is no step of anything else. -/
theorem writerStep_rxFifo (s : State) (f : RxFifo) : WriterStep s { s with rxFifo := f } :=
  ⟨rfl, rfl, rfl, rfl, rfl, rfl, rfl, rfl, rfl⟩

theorem writerStep_rxDataReady (s : State) : WriterStep s (rxDataReady s).2 := by
  unfold rxDataReady
  split
  · exact WriterStep.refl s
  · exact writerStep_rxFifo s _

theorem writerStep_pulse (s : State) (line : Gpo) : WriterStep s (s.pulse line) := by
  refine ⟨rfl, rfl, rfl, rfl, rfl, rfl, rfl, rfl, ?_⟩
  show dataBytes (s.out ++ [Out.gpo line true] ++ [Out.gpo line false]) = _
  rw [dataBytes_append, dataBytes_append]
  exact (List.append_nil _).trans (List.append_nil _)

section
variable [Board]

/-- The header branch as one update. -/
theorem rxStartPacket_eq (s : State) : rxStartPacket s = { s with
    mem := (s.mem.write (-1)).write (fifoRead s).1
    scram := ⟨hdrRead (fifoRead s).1 hdrSsMask hdrSsShift != 0, 0⟩
    rxFifo.words := s.rxFifo.words.tail
    rx.wrPacketAddr := s.rx.wrBufAddr
    rx.wrBufAddr := ringNext (ringNext s.rx.wrBufAddr)
    rx.rxState := .packetReading
    rx.wrBytes := s.rx.wrBytes + 8 } := by
  have hfifo (t : State) : fifoRead t
      = ((fifoRead t).1, { t with rxFifo.words := t.rxFifo.words.tail }) := rfl
  rw [rxStartPacket]
  dsimp only
  rw [hfifo]
  rfl

theorem writerStep_rxStartPacket (s : State) : WriterStep s (rxStartPacket s) := by
  rw [rxStartPacket_eq]
  exact ⟨rfl, rfl, rfl, rfl, rfl, rfl, rfl, rfl, rfl⟩

theorem writerStep_rxStoreWord (s : State) : WriterStep s (rxStoreWord s) :=
  ⟨rfl, rfl, rfl, rfl, rfl, rfl, rfl, rfl, rfl⟩

theorem writerStep_rxDrain (fuel : ℕ) (s : State) : WriterStep s (rxDrain fuel s) := by
  induction fuel generalizing s with
  | zero => exact WriterStep.refl s
  | succ fuel ih =>
    rw [rxDrain]
    have hpoll := writerStep_rxDataReady s
    split
    · exact hpoll.trans ((writerStep_rxStoreWord _).trans (ih _))
    · exact hpoll

/-- The data handler is the writer's. -/
theorem writerStep_rxDataIntFunc (s : State) : WriterStep s (rxDataIntFunc s) := by
  unfold rxDataIntFunc
  refine WriterStep.trans ?_ (writerStep_rxDrain _ _)
  have hseek : WriterStep s (memSetWrP s.rx.wrBufAddr s) :=
    ⟨rfl, rfl, rfl, rfl, rfl, rfl, rfl, rfl, rfl⟩
  have hpoll := writerStep_rxDataReady (memSetWrP s.rx.wrBufAddr s)
  split
  · dsimp only
    split
    · exact hseek.trans (hpoll.trans (writerStep_rxStartPacket _))
    · exact hseek.trans hpoll
  · exact hseek

theorem writerStep_rxFinishPacket (s : State) : WriterStep s (rxFinishPacket s) := by
  unfold rxFinishPacket
  split
  · exact ⟨rfl, rfl, rfl, rfl, rfl, rfl, rfl, rfl, rfl⟩
  · exact WriterStep.refl s

/-- So is the ready handler. -/
theorem writerStep_rxReadyIntFunc (s : State) : WriterStep s (rxReadyIntFunc s) := by
  unfold rxReadyIntFunc
  refine WriterStep.trans ?_
    ((writerStep_rxFinishPacket _).trans (writerStep_pulse _ .hbcRxPktAck))
  have hpoll := writerStep_rxDataReady s
  split
  · exact hpoll.trans (writerStep_rxDataIntFunc _)
  · exact hpoll

/-- Served as interrupts, with any arrivals. -/
theorem writerStep_rxData (s : State) (arr : List (List Word)) :
    WriterStep s (rxInterrupt rxDataIntFunc arr s) := by
  have hcall := (writerStep_rxFifo s ⟨s.rxFifo.words, arr⟩).trans (writerStep_rxDataIntFunc _)
  exact hcall.trans (writerStep_rxFifo _ _)

theorem writerStep_rxReady (s : State) (arr : List (List Word)) :
    WriterStep s (rxInterrupt rxReadyIntFunc arr s) := by
  have hcall := (writerStep_rxFifo s ⟨s.rxFifo.words, arr⟩).trans (writerStep_rxReadyIntFunc _)
  exact hcall.trans (writerStep_rxFifo _ _)

/-! ## The other devices -/

/-- Neither the flash nor an output is touched, and no packet is counted. -/
structure WriterOnly (s s' : State) : Prop where
  flash : s'.flash = s.flash
  out : s'.out = s.out
  packetReady : s'.rx.packetReady = s.rx.packetReady

omit [Board] in
theorem WriterOnly.trans {s t u : State} (h : WriterOnly s t) (h' : WriterOnly t u) :
    WriterOnly s u :=
  ⟨h'.flash.trans h.flash, h'.out.trans h.out, h'.packetReady.trans h.packetReady⟩

omit [Board] in
theorem writerOnly_rxDataReady (s : State) : WriterOnly s (rxDataReady s).2 := by
  unfold rxDataReady
  split
  · exact ⟨rfl, rfl, rfl⟩
  · exact ⟨rfl, rfl, rfl⟩

theorem writerOnly_rxDrain (fuel : ℕ) (s : State) : WriterOnly s (rxDrain fuel s) := by
  induction fuel generalizing s with
  | zero => exact ⟨rfl, rfl, rfl⟩
  | succ fuel ih =>
    rw [rxDrain]
    have hpoll := writerOnly_rxDataReady s
    have hstore (t : State) : WriterOnly t (rxStoreWord t) := ⟨rfl, rfl, rfl⟩
    split
    · exact hpoll.trans ((hstore _).trans (ih _))
    · exact hpoll

/-- The data handler touches neither flash nor outputs. -/
theorem writerOnly_rxDataIntFunc (s : State) : WriterOnly s (rxDataIntFunc s) := by
  unfold rxDataIntFunc
  refine WriterOnly.trans ?_ (writerOnly_rxDrain _ _)
  have hseek : WriterOnly s (memSetWrP s.rx.wrBufAddr s) := ⟨rfl, rfl, rfl⟩
  have hstart (t : State) : WriterOnly t (rxStartPacket t) := by
    rw [rxStartPacket_eq]
    exact ⟨rfl, rfl, rfl⟩
  have hpoll := hseek.trans (writerOnly_rxDataReady (memSetWrP s.rx.wrBufAddr s))
  split
  · dsimp only
    split
    · exact hpoll.trans (hstart _)
    · exact hpoll
  · exact hseek

/-- `rx_ready_int_func` up to the marker. -/
def rxLastWords (s : State) : State :=
  if (rxDataReady s).1 then rxDataIntFunc (rxDataReady s).2 else (rxDataReady s).2

theorem writerOnly_rxLastWords (s : State) : WriterOnly s (rxLastWords s) := by
  unfold rxLastWords
  split
  · exact (writerOnly_rxDataReady s).trans (writerOnly_rxDataIntFunc _)
  · exact writerOnly_rxDataReady s

/-- The ready handler in two parts: the last words, and the end of the packet. -/
theorem rxReadyIntFunc_eq (s : State) :
    rxReadyIntFunc s = (rxFinishPacket (rxLastWords s)).pulse .hbcRxPktAck := rfl

/-- What `rx_ready_int_func` does besides: one pulse of the acknowledge line, and one packet more
if there was one in progress. -/
theorem rxReadyIntFunc_devices (s : State) :
    (rxReadyIntFunc s).flash = s.flash ∧
    (rxReadyIntFunc s).out = s.out ++ [.gpo .hbcRxPktAck true, .gpo .hbcRxPktAck false] := by
  have hwords := writerOnly_rxLastWords s
  have hpulse (u : State) : (u.pulse .hbcRxPktAck).out
      = u.out ++ [.gpo .hbcRxPktAck true, .gpo .hbcRxPktAck false] := List.append_assoc ..
  rw [rxReadyIntFunc_eq, hpulse, ← hwords.flash, ← hwords.out]
  generalize rxLastWords s = t
  unfold rxFinishPacket
  split
  · exact ⟨rfl, rfl⟩
  · exact ⟨rfl, rfl⟩

end

end HbcMac
