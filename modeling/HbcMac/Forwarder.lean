import HbcMac.DataPort

/-!
# One round of the forwarder

`hbc_to_spi` on a ring whose oldest packet is `p`: it is dropped, or announced with the first
byte of a `RX_PACKET` frame and registered for dumping. Either way it is released.
-/

namespace HbcMac

/-! ## Packets and their messages -/

/-- The length a header word announces. -/
def announcedLength (h : Word) : Byte := (hdrRead h hdrLenMask hdrLenShift).setWidth 8

/-- The packets `hbc_to_spi` forwards: an intact header and no fewer payload bytes than it
announces. -/
def forwardable : List Word → Bool
  | [] => false
  | h :: ws => headerCrc h = 0 && decide ((announcedLength h).toNat ≤ 4 * ws.length)

section
variable [Board] [HostProtocol]

/-- The message about a packet up to its padding: the announcement, the header and as many
payload bytes as the header announces. -/
def announcement : List Word → List Byte
  | [] => []
  | h :: ws =>
    LittleEndian.bytes (replyFrame HostProtocol.rxPacket (announcedLength h))
      ++ (LittleEndian.bytes h
        ++ ((descramble (headerSeed h) 0 ws).flatMap LittleEndian.bytes).take
          (announcedLength h).toNat)

/-- A whole message, with its `RX_PAD` bytes of padding. -/
def IsMessage (p : List Word) (m : List Byte) : Prop :=
  ∃ pad, pad.length = rxPad ∧ m = announcement p ++ pad

/-- Behind the announcement the message follows the words of the packet. -/
theorem announcement_eq (h : Word) (ws : List Word) :
    announcement (h :: ws) = LittleEndian.bytes (replyFrame HostProtocol.rxPacket (announcedLength h))
      ++ ((packetBody (h :: ws)).flatMap LittleEndian.bytes).take
        (4 + (announcedLength h).toNat) := by
  rw [announcement, packetBody, List.flatMap_cons,
    ← LittleEndian.length_bytes h, List.take_length_add_append]

/-- The frame, the header, the payload and the padding. -/
theorem length_announcement {h : Word} {ws : List Word} (hf : forwardable (h :: ws) = true) :
    (announcement (h :: ws)).length = 8 + (announcedLength h).toNat := by
  simp only [forwardable, Bool.and_eq_true, decide_eq_true_eq] at hf
  rw [announcement, List.length_append, List.length_append, List.length_take,
    LittleEndian.length_flatMap_bytes, length_descramble, LittleEndian.length_bytes,
    LittleEndian.length_bytes, Nat.min_eq_left hf.2]
  omega

/-! ## What the round leaves alone -/

/-- Announcing a packet moves the read cursor. -/
theorem readerStep_forwardPacket (s : State) : ReaderStep s (forwardPacket s) := by
  unfold forwardPacket
  refine ReaderStep.trans ?_ (readerStep_hbcDataIrq _).1
  exact ⟨rfl, rfl, rfl, rfl, rfl, rfl, rfl, rfl, rfl, rfl⟩

omit [Board] [HostProtocol] in
/-- The LED is no concern of the receiver's. -/
theorem readerStep_ledToggle (s : State) : ReaderStep s (ledToggle s) := by
  unfold ledToggle
  dsimp only
  split
  · exact ⟨rfl, rfl, rfl, rfl, rfl, rfl, rfl, rfl, rfl, rfl⟩
  · exact ⟨rfl, rfl, rfl, rfl, rfl, rfl, rfl, rfl, rfl, rfl⟩

/-- What the functions that `hbc_to_spi` calls keep, it keeps. -/
theorem hbcToSpi_keeps {P : State → Prop} {s : State} (forward : Bool) (hready : P (rxPacketReady s).2)
    (hnext : ∀ t, P t → P (rxPacketNext t)) (hled : ∀ t, P t → P (ledToggle t))
    (hforward : ∀ t, P t → P (forwardPacket t)) : P (hbcToSpi forward s) := by
  unfold hbcToSpi
  dsimp only
  split
  · exact hready
  · split
    · exact hnext _ hready
    · split
      · exact hnext _ hready
      · have hcounted := hled _ hready
        split
        · exact hnext _ (hforward _ hcounted)
        · exact hnext _ hcounted

/-- A round of the forwarder is the reader's. -/
theorem readerStep_hbcToSpi (forward : Bool) (s : State) : ReaderStep s (hbcToSpi forward s) := by
  apply hbcToSpi_keeps (P := ReaderStep s) forward (readerStep_rxPacketReady s)
  · intro t ht
    exact ht.trans (readerStep_rxPacketNext t)
  · intro t ht
    exact ht.trans (readerStep_ledToggle t)
  · intro t ht
    exact ht.trans (readerStep_forwardPacket t)

/-! ## The round -/

omit [Board] [HostProtocol] in
/-- What the LED does is no business of the reader or the ports. -/
theorem ledToggle_eq (s : State) : (ledToggle s).rx = s.rx ∧ (ledToggle s).spi = s.spi ∧
    (ledToggle s).mem = s.mem ∧ dataBytes (ledToggle s).out = dataBytes s.out := by
  unfold ledToggle
  dsimp only
  split
  · refine ⟨rfl, rfl, rfl, ?_⟩
    exact (dataBytes_append s.out _).trans (List.append_nil _)
  · refine ⟨rfl, rfl, rfl, ?_⟩
    exact (dataBytes_append s.out _).trans (List.append_nil _)

/-- A round that finds no packet. -/
theorem hbcToSpi_empty {s : State} {forward : Bool} (h : s.rx.packetReady = 0) :
    hbcToSpi forward s = (rxPacketReady s).2 := by
  unfold hbcToSpi
  exact if_pos h

omit [Board] [HostProtocol] in
/-- `rx_packet_next` with the marker of a completed packet. -/
theorem rxPacketNext_of_ne {s : State} (h : s.rx.rdPacketMarker ≠ -1) :
    rxPacketNext s = { s with rx := { s.rx with
      rdPacketAddr := s.rx.rdPacketAddr + s.rx.rdPacketMarker
      packetReady := s.rx.packetReady - 1 } } := if_neg h

/-- A round that finds the header of the oldest packet broken. -/
theorem hbcToSpi_badCrc {s : State} {forward : Bool}
    (hready : s.rx.packetReady ≠ 0) (hcrc : rxCheckCrcOk (rxPacketReady s).2 = false) :
    hbcToSpi forward s = rxPacketNext (rxPacketReady s).2 := by
  have hcount : (rxPacketReady s).1 ≠ 0 := hready
  unfold hbcToSpi
  dsimp only
  rw [if_neg hcount, hcrc]
  rfl

/-- The announcement of a packet: the first byte of the frame is written at once. -/
theorem forwardPacket_eq (s : State) :
    forwardPacket s = { (rxRead s).2 with
      out := s.out ++ portWrite
        (LittleEndian.byteAt (replyFrame HostProtocol.rxPacket (rxPacketLength s)) 0)
      spi := { s.spi with
        ackData := replyFrame HostProtocol.rxPacket (rxPacketLength s)
        ackBytes := 3
        dumpIndex := 0
        dumpHbcRx := true
        dumpingMem := (rxPacketLength s).toNat + hbcHeaderSize + rxPad } } := by
  unfold forwardPacket
  rw [hbcSpiDataTrigger, hbcDataIrq_ack (by
    show (4 : ℕ) ≠ 0
    decide)]
  rfl

/-- What a round does to the reader and the ports when `p` is the oldest packet. -/
structure Round (p : List Word) (s s' : State) : Prop where
  packetReady : s'.rx.packetReady = s.rx.packetReady - 1
  packetAddr : s'.rx.rdPacketAddr = s.rx.rdPacketAddr + BitVec.ofNat 32 (packetBytes p)
  dropped : forwardable p = false → s'.spi = s.spi ∧ dataBytes s'.out = dataBytes s.out
  announced : forwardable p = true → ∃ h ws, p = h :: ws ∧
    s'.spi = { s.spi with
      ackData := replyFrame HostProtocol.rxPacket (announcedLength h)
      ackBytes := 3
      dumpIndex := 0
      dumpHbcRx := true
      dumpingMem := (announcedLength h).toNat + 8 } ∧
    dataBytes s'.out = dataBytes s.out
      ++ [LittleEndian.byteAt (replyFrame HostProtocol.rxPacket (announcedLength h)) 0] ∧
    s'.rx.rdBufAddr = ringNext s.rx.rdPacketAddr

omit [HostProtocol] in
/-- What the reader finds out about the completed packet at its cursor. -/
theorem rxPacketReady_checks {s : State} {c : ℕ} {h : Word} {ws : List Word} (hc : 4 ∣ c)
    (hwrap : s.mem.readWraps = true) (hcursor : s.rx.rdPacketAddr = ringAddr c)
    (hholds : Holds s.mem.cells c (packetClosed (h :: ws)))
    (hfits : packetBytes (h :: ws) ≤ halfSize) :
    rxCheckCrcOk (rxPacketReady s).2 = decide (headerCrc h = 0) ∧
    rxPacketLength (rxPacketReady s).2 = announcedLength h ∧
    (rxBytesRead (rxPacketReady s).2 < (announcedLength h).setWidth 32 ↔
      ¬ (announcedLength h).toNat ≤ 4 * ws.length) := by
  have hrx := rxPacketReady_closed hc rfl hwrap hcursor hholds
  refine ⟨?_, ?_, ?_⟩
  · rw [rxCheckCrcOk, hrx]
  · rw [rxPacketLength, hrx]
    rfl
  · have hlen := (announcedLength h).isLt
    rw [rxBytesRead, hrx, packetBytes, BitVec.ofNat_add, BitVec.add_comm]
    rw [show BitVec.ofNat 32 (4 * ws.length) + BitVec.ofNat 32 8 - 8
      = BitVec.ofNat 32 (4 * ws.length) from BitVec.add_sub_cancel _ _]
    rw [BitVec.lt_def, BitVec.toNat_ofNat, BitVec.toNat_setWidth]
    rw [packetBytes, halfSize_eq] at hfits
    rw [Nat.mod_eq_of_lt (by omega), Nat.mod_eq_of_lt (by omega), Nat.not_le]

/-- **A round of the forwarder** with the completed packet `p` at the read cursor. -/
theorem hbcToSpi_round {s : State} {c : ℕ} {p : List Word} (hc : 4 ∣ c) (hp : p ≠ [])
    (hwrap : s.mem.readWraps = true) (hcursor : s.rx.rdPacketAddr = ringAddr c)
    (hholds : Holds s.mem.cells c (packetClosed p)) (hfits : packetBytes p ≤ halfSize)
    (hready : s.rx.packetReady ≠ 0) : Round p s (hbcToSpi true s) := by
  obtain ⟨h, ws, rfl⟩ := List.exists_cons_of_ne_nil hp
  have hrx := rxPacketReady_closed hc rfl hwrap hcursor hholds
  have hne := packetBytes_ne_neg_one hfits
  obtain ⟨hcheck, hlength, hshort⟩ := rxPacketReady_checks hc hwrap hcursor hholds hfits
  have hfwd : forwardable (h :: ws)
      = (decide (headerCrc h = 0) && decide ((announcedLength h).toNat ≤ 4 * ws.length)) := rfl
  have hround : hbcToSpi true s = if forwardable (h :: ws) = true
      then rxPacketNext (forwardPacket (ledToggle (rxPacketReady s).2))
      else rxPacketNext (rxPacketReady s).2 := by
    have hcount : (rxPacketReady s).1 ≠ 0 := hready
    unfold hbcToSpi
    dsimp only
    rw [if_neg hcount, hcheck, hlength, hfwd]
    -- the two checks, in the order of the source
    by_cases hcrc : headerCrc h = 0
    · by_cases hlen : (announcedLength h).toNat ≤ 4 * ws.length
      · simp only [hshort, hcrc, hlen, decide_true, Bool.not_true, Bool.false_eq_true, if_false,
          not_true_eq_false, Bool.and_true, if_true]
      · simp only [hshort, hcrc, hlen, decide_true, decide_false, Bool.not_true,
          Bool.false_eq_true, if_false, not_false_eq_true, Bool.and_false, if_true]
    · simp only [hcrc, decide_false, Bool.not_false, if_true, Bool.false_and, Bool.false_eq_true,
        if_false]
  rw [hround]
  by_cases hf : forwardable (h :: ws) = true
  · rw [if_pos hf, forwardPacket_eq]
    -- announced and released; the toggled LED does not matter
    obtain ⟨hledRx, hledSpi, -, hledOut⟩ := ledToggle_eq (rxPacketReady s).2
    have hlen : rxPacketLength (ledToggle (rxPacketReady s).2) = announcedLength h := by
      rw [rxPacketLength, hledRx, ← hlength]
      rfl
    rw [hlen, rxPacketNext_of_ne (by
      show (ledToggle (rxPacketReady s).2).rx.rdPacketMarker ≠ -1
      rw [hledRx, hrx]
      exact hne)]
    refine ⟨?_, ?_, fun h0 => absurd h0 (by rw [hf]; decide), fun _ => ⟨h, ws, rfl, ?_, ?_, ?_⟩⟩
    · show (ledToggle (rxPacketReady s).2).rx.packetReady - 1 = _
      rw [hledRx, hrx]
    · show (ledToggle (rxPacketReady s).2).rx.rdPacketAddr
        + (ledToggle (rxPacketReady s).2).rx.rdPacketMarker = _
      rw [hledRx, hrx]
    · dsimp only
      rw [hledSpi]
      rfl
    · dsimp only
      rw [dataBytes_portWrite, hledOut]
      rfl
    · show ringNext (ledToggle (rxPacketReady s).2).rx.rdBufAddr = _
      rw [hledRx]
      rfl
  · rw [if_neg hf, rxPacketNext_of_ne (by rw [hrx]; exact hne)]
    refine ⟨?_, ?_, fun _ => ⟨rfl, rfl⟩, fun h1 => absurd h1 hf⟩
    · show (rxPacketReady s).2.rx.packetReady - 1 = _
      rw [hrx]
    · show (rxPacketReady s).2.rx.rdPacketAddr + (rxPacketReady s).2.rx.rdPacketMarker = _
      rw [hrx]

end

end HbcMac
