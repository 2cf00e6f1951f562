import HbcMac.HeaderWord
import HbcMac.RxAppend
import HbcMac.RxQueue
import HbcMac.TxFrame

/-!
# Loopback round trip

The words one frame hands to the modulator, received in any split over the interrupts, give
back the header fields and the payload.
-/

namespace HbcMac

section
variable [Board]

/-! ## Reading a packet back -/

/-- The words successive calls of `rx_read` return. -/
def rxReadWords : ℕ → State → List Word
  | 0, _ => []
  | n + 1, s => (rxRead s).1 :: rxReadWords n (rxRead s).2

/-- A read in the ring takes the word at its place and moves on, round the end too. -/
theorem rxRead_ring {s : State} {k : ℕ} (hk : 4 ∣ k) (hbuf : s.rx.rdBufAddr = ringAddr k) :
    (rxRead s).1 = s.mem.cells (Board.cell (ringAddr k)) ∧
    (rxRead s).2.rx.rdBufAddr = ringAddr (k + 4) := by
  constructor
  · rw [← hbuf]
    rfl
  · rw [← ringNext_ringAddr hk, ← hbuf]
    rfl

/-- Words held in the ring are read in their order. -/
theorem rxReadWords_ring {s : State} {k : ℕ} {ws : List Word} (hk : 4 ∣ k)
    (hbuf : s.rx.rdBufAddr = ringAddr k) (hholds : Holds s.mem.cells k ws) :
    rxReadWords ws.length s = ws := by
  induction ws generalizing s k with
  | nil => rfl
  | cons w ws ih =>
    obtain ⟨hword, hnext⟩ := rxRead_ring hk hbuf
    have hfirst : s.mem.cells (Board.cell (ringAddr k)) = w := hholds 0 (Nat.succ_pos _)
    have hrest : Holds (rxRead s).2.mem.cells (k + 4) ws := by
      intro i hi
      have hcur : k + 4 + 4 * i = k + 4 * (i + 1) := by omega
      rw [hcur]
      exact hholds (i + 1) (Nat.succ_lt_succ hi)
    rw [List.length_cons, rxReadWords, hword, hfirst, ih (Nat.dvd_add hk (Nat.dvd_refl 4)) hnext hrest]

/-- Scrambling twice with the same keystream gives the words back. -/
theorem descramble_descramble (seed : Bool) (pos : ℕ) (ws : List Word) :
    descramble seed pos (descramble seed pos ws) = ws := by
  induction ws generalizing pos with
  | nil => rfl
  | cons w ws ih =>
    rw [descramble, descramble, ih, BitVec.xor_assoc, BitVec.xor_self, BitVec.xor_zero]

/-- What is held of a frame: its size, its header and the words it was built from. -/
theorem packetClosed_frameWords {s : State} (hvalid : s.main.headerInfo.Valid) :
    packetClosed (frameWords s) = BitVec.ofNat 32 (packetBytes (frameWords s))
      :: headerWord s.main.headerInfo
      :: memReads (payloadWords s.main.headerInfo.pdsuLength).toNat s := by
  have hseed : headerSeed (headerWord s.main.headerInfo)
      = (s.main.headerInfo.scramblerSeed != 0) := by
    rw [headerSeed, hdrRead_seed hvalid]
  rw [packetClosed]
  congr 1
  rw [frameWords, packetBody, hseed, descramble_descramble]

omit [Board] in
/-- A partial word counts as a word. -/
theorem payloadWords_toNat (pdsuLength : Byte) :
    (payloadWords pdsuLength).toNat = (pdsuLength.toNat + 3) / 4 := by
  revert pdsuLength
  decide

/-- The room it takes up. -/
theorem packetBytes_frameWords (s : State) : packetBytes (frameWords s)
    = 8 + 4 * ((s.main.headerInfo.pdsuLength.toNat + 3) / 4) := by
  rw [frameWords, packetBytes, length_descramble, length_memReads, payloadWords_toNat]

end

section
variable [Dram]

/-- An idle writer has an empty queue in front of it. -/
theorem ringHolds_idle {s : State} {k : ℕ} (hk : 4 ∣ k) (hinit : s.rx.rxState = .packetInit)
    (hbytes : s.rx.wrBytes = 0) (hbuf : s.rx.wrBufAddr = ringAddr k)
    (hflags : s.mem.writeWraps = true) (hfifo : s.rxFifo = ⟨[], []⟩) : RingHolds k [] [] s where
  aligned := hk
  flags := hflags
  rxFifo := hfifo
  writer := by rw [writerVars, queueBytes_nil, Nat.add_zero, ← hbuf, ← hbytes, ← hinit]
  scram := rfl
  packets := trivial
  opened := fun i hi => by cases hi
  nonempty := fun p hp => by cases hp
  fits := Nat.zero_le _

/-- Any number of calls of `rx_data_int_func`. -/
theorem RingHolds.dataCalls {c : ℕ} {ps : List (List Word)} {cur : List Word} {s : State}
    (h : RingHolds c ps cur s) (cuts : List (List Word))
    (hfits : queueBytes ps + packetBytes (cur ++ cuts.flatten) ≤ halfSize) :
    RingHolds c ps (cur ++ cuts.flatten) (dataCalls cuts s) := by
  induction cuts generalizing cur s with
  | nil => simpa [HbcMac.dataCalls] using h
  | cons ws cuts ih =>
    rw [List.flatten_cons, ← List.append_assoc] at hfits ⊢
    have hmono := packetBytes_mono (List.prefix_append (cur ++ ws) cuts.flatten)
    exact ih (h.data ws (by omega)) hfits

/-- A packet received by an idle writer lies in the ring. -/
theorem holds_received {s : State} {k : ℕ} {p last : List Word} {cuts : List (List Word)}
    (h : RingHolds k [] [] s) (hp : p ≠ []) (hcut : cuts.flatten ++ last = p)
    (hfits : packetBytes p ≤ halfSize) :
    Holds (rxInterrupt rxReadyIntFunc [last] (dataCalls cuts s)).mem.cells k (packetClosed p) := by
  have hpre : cuts.flatten <+: p := by
    rw [← hcut]
    exact List.prefix_append _ _
  have hmono := packetBytes_mono hpre
  have hcalls : RingHolds k [] cuts.flatten (dataCalls cuts s) :=
    h.dataCalls cuts (by rw [queueBytes_nil, List.nil_append]; omega)
  have hready := hcalls.ready last (by rw [hcut]; exact hp)
    (by rw [hcut, queueBytes_nil]; omega)
  rw [hcut] at hready
  exact hready.1.packets.1

/-- **Loopback round trip.** For every frame sent from `s`, every idle receiver `t` and every
way of cutting the words over its interrupts: with the read cursor at the packet and its
memory still as it was, the receiver reads back the fields and the payload. -/
theorem loopback_round_trip {s t : State} {a : Word} {cuts : List (List Word)} {last : List Word}
    (hvalid : s.main.headerInfo.Valid) (hinit : t.rx.rxState = .packetInit)
    (hbytes : t.rx.wrBytes = 0) (hbuf : t.rx.wrBufAddr = a) (hlo : memRxBuf.toNat ≤ a.toNat)
    (hhi : a.toNat < memSize.toNat) (halign : 4 ∣ a.toNat) (hflags : t.mem.writeWraps = true)
    (hfifo : t.rxFifo = ⟨[], []⟩)
    (hcut : cuts.flatten ++ last
      = (modulated (sendFrame s).2.out).drop (modulated s.out).length)
    (u : State) (hwrap : u.mem.readWraps = true) (hcursor : u.rx.rdPacketAddr = a)
    (hmem : u.mem.cells = (rxInterrupt rxReadyIntFunc [last] (dataCalls cuts t)).mem.cells) :
    let length := s.main.headerInfo.pdsuLength
    let numWords := (payloadWords length).toNat
    let r := (rxPacketReady u).2
    let payload := rxReadWords numWords (rxRead (rxRead r).2).2
    rxCheckCrcOk r = true ∧ rxPacketLength r = length ∧
    rxBytesRead r = BitVec.ofNat 32 (4 * ((length.toNat + 3) / 4)) ∧
    (payload.flatMap LittleEndian.bytes).take length.toNat
      = ((memReads numWords s).flatMap LittleEndian.bytes).take length.toNat := by
  intro length numWords r payload
  obtain ⟨k, hk, -, rfl⟩ := exists_ringAddr hlo hhi halign
  -- the words that reach the receiver
  have hsent : cuts.flatten ++ last = frameWords s := by
    obtain ⟨new, f, heq, hmod, -⟩ := sendFrame_eq s
    rw [hcut, heq, modulated_append, List.drop_left, hmod]
  have hsize := packetBytes_frameWords s
  have hlen := length.isLt
  have hfits : packetBytes (frameWords s) ≤ halfSize := by
    rw [hsize, halfSize_eq]
    omega
  -- the packet in the ring
  have hidle := ringHolds_idle hk hinit hbytes hbuf hflags hfifo
  have hne : frameWords s ≠ [] := List.cons_ne_nil _ _
  have hholds := holds_received hidle hne hsent hfits
  rw [← hmem] at hholds
  have hrx := rxPacketReady_closed hk (p := frameWords s) rfl hwrap hcursor hholds
  have hheader : r.rx.rdPacketHeader = headerWord s.main.headerInfo := by rw [hrx]
  have hmarker : r.rx.rdPacketMarker = BitVec.ofNat 32 (packetBytes (frameWords s)) := by rw [hrx]
  refine ⟨?_, ?_, ?_, ?_⟩
  · rw [rxCheckCrcOk, hheader, headerCrc_headerWord hvalid]
    rfl
  · rw [rxPacketLength, hheader, hdrRead_length hvalid]
  · rw [rxBytesRead, hmarker, hsize, BitVec.ofNat_add, BitVec.add_comm]
    exact BitVec.add_sub_cancel _ _
  · -- the two reads skip the marker and the header
    have hskip : (rxRead (rxRead r).2).2.rx.rdBufAddr = ringAddr (k + 8) := by
      have hr : r.rx.rdBufAddr = ringAddr k := by rw [hrx]
      exact (rxRead_ring (Nat.dvd_add hk (Nat.dvd_refl 4)) (rxRead_ring hk hr).2).2
    have hpay : Holds u.mem.cells (k + 8) (memReads numWords s) := by
      rw [packetClosed_frameWords hvalid] at hholds
      intro i hi
      have hcur : k + 8 + 4 * i = k + 4 * (i + 2) := by omega
      rw [hcur]
      exact hholds (i + 2) (Nat.succ_lt_succ (Nat.succ_lt_succ hi))
    have hread := rxReadWords_ring (s := (rxRead (rxRead r).2).2)
      (Nat.dvd_add hk (by decide)) hskip hpay
    rw [length_memReads] at hread
    rw [← hread]

end

/-- What a device has received of its own next frame. -/
def loopedBack [Board] (s : State) : State :=
  rxInterrupt rxReadyIntFunc [(modulated (sendFrame s).2.out).drop (modulated s.out).length]
    (dataCalls [[]] (sendFrame s).2)

/-- The receiver has not moved the reader. -/
theorem loopedBack_reader [Board] (s : State) :
    (loopedBack s).mem.flags = s.mem.flags ∧
    (loopedBack s).rx.rdPacketAddr = s.rx.rdPacketAddr := by
  have hsent := frameStep_sendFrame s
  have hcall (t : State) : dataCalls [[]] t = rxInterrupt rxDataIntFunc [[]] t := rfl
  have hstep := (writerStep_rxData (sendFrame s).2 [[]]).trans (writerStep_rxReady _
    [(modulated (sendFrame s).2.out).drop (modulated s.out).length])
  rw [loopedBack, hcall]
  constructor
  · exact hstep.flags.trans hsent.flags
  · exact hstep.rdPacketAddr.trans (congrArg RxVars.rdPacketAddr hsent.rx)

/-- A start-up state about to send five bytes. -/
def fiveBytes : State :=
  { bootState with
    main := { bootState.main with
      headerInfo := { bootState.main.headerInfo with pdsuLength := 5 } } }

/-- Five bytes through the device's own receiver. -/
theorem loopback_round_trip_five_bytes :
    letI := plainDram
    rxCheckCrcOk (rxPacketReady (loopedBack fiveBytes)).2 = true ∧
    rxPacketLength (rxPacketReady (loopedBack fiveBytes)).2 = 5 ∧
    rxBytesRead (rxPacketReady (loopedBack fiveBytes)).2 = 8 := by
  let := plainDram
  have hvalid : fiveBytes.main.headerInfo.Valid :=
    ⟨Or.inl rfl, Or.inr (Or.inr rfl), Or.inl rfl, Or.inl rfl⟩
  have hsent := frameStep_sendFrame fiveBytes
  obtain ⟨hflags, hcursor⟩ := loopedBack_reader fiveBytes
  have hwrap : (loopedBack fiveBytes).mem.readWraps = true := by
    rw [Mem.readWraps, hflags]
    decide
  have hwrites : (sendFrame fiveBytes).2.mem.writeWraps = true := by
    rw [Mem.writeWraps, hsent.flags]
    decide
  have hcut (ws : List Word) : [[]].flatten ++ ws = ws := List.nil_append ws
  have htrip := loopback_round_trip (t := (sendFrame fiveBytes).2) (a := memRxBuf) hvalid
    (congrArg RxVars.rxState hsent.rx) (congrArg RxVars.wrBytes hsent.rx)
    (congrArg RxVars.wrBufAddr hsent.rx) (by decide) (by decide) (by decide) hwrites
    hsent.rxFifo (hcut _) (loopedBack fiveBytes) hwrap (hcursor.trans rfl) rfl
  obtain ⟨hcrc, hlen, hread, -⟩ := htrip
  exact ⟨hcrc, hlen.trans rfl, hread.trans rfl⟩

end HbcMac
