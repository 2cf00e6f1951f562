import HbcMac.Forwarder

/-!
# `rx_check_packet`

The loop compares the payload with the memory from address 0, a word of each at a time. The
first pair of words is read as meant; the reads behind it share the read pointer, which
`rx_read` has left in the packet, so from the first reload on the payload is compared with
itself.
-/

namespace HbcMac

section
variable [Board]

/-! ## What is compared -/

/-- Byte `i` of the memory from address 0 on. -/
def memByte (s : State) (i : ℕ) : Byte :=
  LittleEndian.byteAt (s.mem.get (BitVec.ofNat 32 (4 * (i / 4)))) (i % 4)

/-- Byte `i` of the payload words `ds`. -/
def payloadByte (ds : List Word) (i : ℕ) : Byte :=
  LittleEndian.byteAt (ds.getD (i / 4) 0) (i % 4)

/-- The number of bytes among the first `n` in which payload and memory agree. -/
def matching (ds : List Word) (s : State) (n : ℕ) : ℕ :=
  (List.range n).countP fun i => payloadByte ds i = memByte s i

/-- The bytes compared before the first reload: the loop counts the bytes left. -/
def firstReload (length : ℕ) : ℕ := if length % 4 = 0 then 4 else length % 4

/-- The number of low bytes in which two words agree. -/
def wordMatching (n : ℕ) (chk data : Word) : ℕ :=
  (List.range n).countP fun i => LittleEndian.byteAt chk i = LittleEndian.byteAt data i

omit [Board] in
/-- The lowest byte, and the others. -/
theorem wordMatching_succ (n : ℕ) (chk data : Word) : wordMatching (n + 1) chk data
    = (if chk &&& 0xff = data &&& 0xff then 1 else 0)
      + wordMatching n (chk >>> 8) (data >>> 8) := by
  have hshift (w : Word) (i : ℕ) :
      LittleEndian.byteAt (w >>> 8) i = LittleEndian.byteAt w (i + 1) := by
    have hsum : 8 + 8 * i = 8 * (i + 1) := by omega
    rw [LittleEndian.byteAt, LittleEndian.byteAt, ← BitVec.shiftRight_add, hsum]
  have hmask (w : Word) : (LittleEndian.byteAt w 0).setWidth 32 = w &&& 0xff := by
    apply BitVec.eq_of_toNat_eq
    have hmod : w.toNat &&& 255 = w.toNat % 256 := Nat.and_two_pow_sub_one_eq_mod w.toNat 8
    have hlt : w.toNat % 256 < 2 ^ 32 := by omega
    simp only [LittleEndian.byteAt, BitVec.toNat_setWidth, BitVec.toNat_and]
    show w.toNat % 256 % 2 ^ 32 = w.toNat &&& 255
    rw [hmod, Nat.mod_eq_of_lt hlt]
  have hlow : LittleEndian.byteAt chk 0 = LittleEndian.byteAt data 0
      ↔ chk &&& 0xff = data &&& 0xff := by
    rw [← hmask, ← hmask]
    constructor
    · intro h
      rw [h]
    · intro h
      simpa using congrArg (BitVec.setWidth 8) h
  rw [wordMatching, List.range_succ_eq_map, List.countP_cons, List.countP_map]
  simp only [hlow, decide_eq_true_eq]
  rw [Nat.add_comm, wordMatching]
  congr 1
  apply List.countP_congr
  intro i _
  simp [hshift]

/-! ## The loop -/

/-- The read pointer is at the reader's position in the ring. -/
def Tied (s : State) : Prop :=
  ∃ k, 4 ∣ k ∧ s.mem.readWraps = true ∧ s.rx.rdBufAddr = ringAddr k ∧ s.mem.rdP = ringAddr k

/-- A read of the ring ties the pointer to it. -/
theorem tied_rxRead {s : State} {k : ℕ} (hk : 4 ∣ k) (hwrap : s.mem.readWraps = true)
    (hbuf : s.rx.rdBufAddr = ringAddr k) : Tied (rxRead s).2 := by
  refine ⟨k + 4, Nat.dvd_add hk (Nat.dvd_refl 4), hwrap, ?_, ?_⟩
  · rw [← ringNext_ringAddr hk, ← hbuf]
    rfl
  · rw [← advance_ringAddr hk, ← hbuf, ← hwrap]
    rfl

/-- Once tied, both reads of a reload return the same word. -/
theorem Tied.reload {s : State} (h : Tied s) :
    (rxRead (memRead s).2).1 = (memRead s).1 ∧ Tied (rxRead (memRead s).2).2 := by
  obtain ⟨k, hk, hwrap, hbuf, hp⟩ := h
  refine ⟨?_, tied_rxRead (s := (memRead s).2) hk hwrap hbuf⟩
  show s.mem.get s.rx.rdBufAddr = s.mem.get s.mem.rdP
  rw [hbuf, hp]

/-- Behind the first reload every byte agrees with itself. -/
theorem rxCheckLoop_tied {s : State} (h : Tied s) (bytes : ℕ) (correct w : Word) :
    (rxCheckLoop bytes correct w w s).1 = correct + BitVec.ofNat 32 bytes := by
  induction bytes generalizing correct w s with
  | zero => exact (BitVec.add_zero correct).symm
  | succ bytes ih =>
    have hsum : correct + 1 + BitVec.ofNat 32 bytes = correct + BitVec.ofNat 32 (bytes + 1) := by
      rw [BitVec.ofNat_add, BitVec.add_assoc, BitVec.add_comm 1]
      rfl
    -- `chk` is read through the pointer that the last `rx_read` left behind
    obtain ⟨hsame, hnext⟩ := h.reload
    rw [rxCheckLoop]
    dsimp only
    rw [if_pos rfl]
    split
    · rw [hsame, ih hnext, hsum]
    · rw [ih h, hsum]

/-- The loop from the first pair of words on, with `j` bytes to the first reload. -/
theorem rxCheckLoop_eq {s : State} (h : Tied s) {j q : ℕ} (hj : j ≤ 4) (hq : j = 0 → q = 0)
    (correct chk data : Word) : (rxCheckLoop (j + 4 * q) correct chk data s).1
      = correct + BitVec.ofNat 32 (wordMatching j chk data + 4 * q) := by
  induction j generalizing correct chk data with
  | zero =>
    rw [hq rfl]
    exact (BitVec.add_zero correct).symm
  | succ j ih =>
    have hlen : j + 1 + 4 * q = j + 4 * q + 1 := by omega
    obtain ⟨hsame, hnext⟩ := h.reload
    -- the byte compared, and the bytes that are left
    have hfirst (n : ℕ) : (if chk &&& 0xff = data &&& 0xff then correct + 1 else correct)
        + BitVec.ofNat 32 n = correct
        + BitVec.ofNat 32 ((if chk &&& 0xff = data &&& 0xff then 1 else 0) + n) := by
      split
      · rw [BitVec.ofNat_add, BitVec.add_assoc]
        rfl
      · rw [Nat.zero_add]
    rw [hlen, rxCheckLoop]
    dsimp only
    by_cases hreload : j + 4 * q ≠ 0 ∧ (j + 4 * q) % 4 = 0
    · have hj0 : j = 0 := by omega
      rw [if_pos hreload, hsame, rxCheckLoop_tied hnext, hfirst, wordMatching_succ, hj0,
        Nat.add_assoc]
      rfl
    · rw [if_neg hreload, ih (by omega) (by omega), hfirst, wordMatching_succ, Nat.add_assoc]

/-- The loop moves the reader's position and nothing else of the reader. -/
theorem rxCheckLoop_rx (bytes : ℕ) (correct chk data : Word) (s : State) :
    ∃ a, (rxCheckLoop bytes correct chk data s).2.rx = { s.rx with rdBufAddr := a } := by
  induction bytes generalizing correct chk data s with
  | zero => exact ⟨_, rfl⟩
  | succ bytes ih =>
    rw [rxCheckLoop]
    dsimp only
    split
    · obtain ⟨a, ha⟩ := ih _ (memRead s).1 (rxRead (memRead s).2).1 (rxRead (memRead s).2).2
      exact ⟨a, ha⟩
    · exact ih _ _ _ s

/-! ## The packet -/

section
variable {s : State} {c : ℕ} {h : Word} {ws : List Word}

/-- The first bytes and a count for the others give the whole count when the others agree. -/
theorem matching_eq_iff (ds : List Word) (s : State) {r n : ℕ} (hrn : r ≤ n) :
    matching ds s r + (n - r) = matching ds s n ↔
      ∀ i, r ≤ i → i < n → payloadByte ds i = memByte s i := by
  have hsplit : List.range n = List.range r ++ List.range' r (n - r) := by
    have happend := List.range'_append_1 (s := 0) (m := r) (n := n - r)
    rw [Nat.zero_add, Nat.add_sub_cancel' hrn] at happend
    rw [List.range_eq_range', List.range_eq_range', happend]
  have hrest : matching ds s n = matching ds s r
      + (List.range' r (n - r)).countP fun i => payloadByte ds i = memByte s i := by
    rw [matching, hsplit, List.countP_append]
    rfl
  -- counting all of the rest means that all of it agrees
  have hall := List.countP_eq_length (l := List.range' r (n - r))
    (p := fun i => decide (payloadByte ds i = memByte s i))
  rw [List.length_range'] at hall
  rw [hrest]
  constructor
  · intro heq i hri hin
    have := hall.mp (by omega) i (by rw [List.mem_range'_1]; omega)
    simpa using this
  · intro hmatch
    rw [hall.mpr]
    intro i hi
    rw [List.mem_range'_1] at hi
    simpa using hmatch i (by omega) (by omega)

/-- The state in which the loop starts. -/
def checkStart (s : State) : State :=
  (rxRead (memRead (memSetRdP 0 (rxRead (rxRead (rxPacketReady s).2).2).2)).2).2

/-- The reads in front of the loop move the read cursor only. -/
theorem checkStart_rx (s : State) :
    ∃ a, (checkStart s).rx = { (rxPacketReady s).2.rx with rdBufAddr := a } := ⟨_, rfl⟩

/-- The first pair of words, and the pointer behind them. -/
theorem checkStart_spec (hc : 4 ∣ c) (hwrap : s.mem.readWraps = true)
    (hcursor : s.rx.rdPacketAddr = ringAddr c) :
    Tied (checkStart s) ∧
    (rxRead (memRead (memSetRdP 0 (rxRead (rxRead (rxPacketReady s).2).2).2)).2).1
      = s.mem.get (ringAddr (c + 8)) := by
  -- behind the marker and the header
  have hbuf : (rxRead (rxRead (rxPacketReady s).2).2).2.rx.rdBufAddr = ringAddr (c + 8) := by
    show ringNext (ringNext s.rx.rdPacketAddr) = _
    rw [hcursor, ringNext_ringAddr hc, ringNext_ringAddr (Nat.dvd_add hc (Nat.dvd_refl 4))]
  refine ⟨tied_rxRead (Nat.dvd_add hc (by decide : 4 ∣ 8)) hwrap hbuf, ?_⟩
  rw [← hbuf]
  rfl

/-- The checks passed, the loop runs on the first pair of words. -/
theorem rxCheckPacket_loop (hc : 4 ∣ c) (hwrap : s.mem.readWraps = true)
    (hcursor : s.rx.rdPacketAddr = ringAddr c)
    (hholds : Holds s.mem.cells c (packetClosed (h :: ws)))
    (hfits : packetBytes (h :: ws) ≤ halfSize) (hready : s.rx.packetReady ≠ 0)
    (hcrc : headerCrc h = 0) (hlen : (announcedLength h).toNat ≤ 4 * ws.length) :
    rxCheckPacket s =
      ((rxCheckLoop (announcedLength h).toNat 0 (s.mem.get 0) (s.mem.get (ringAddr (c + 8)))
          (checkStart s)).1,
        rxPacketNext (rxCheckLoop (announcedLength h).toNat 0 (s.mem.get 0)
          (s.mem.get (ringAddr (c + 8))) (checkStart s)).2) := by
  obtain ⟨hcheck, hlength, hshort⟩ := rxPacketReady_checks hc hwrap hcursor hholds hfits
  obtain ⟨-, hdata⟩ := checkStart_spec hc hwrap hcursor
  have hcount : (rxPacketReady s).1 ≠ 0 := hready
  have hok : ¬ (!decide (headerCrc h = 0)) = true := by simp [hcrc]
  unfold rxCheckPacket
  dsimp only
  rw [if_neg hcount, hcheck, if_neg hok, hlength, if_neg (by rw [hshort]; exact not_not.mpr hlen),
    hdata]
  rfl

/-- The loop compares the bytes in front of the first reload, and counts all others. -/
theorem checkStart_loop (hc : 4 ∣ c) (hwrap : s.mem.readWraps = true)
    (hcursor : s.rx.rdPacketAddr = ringAddr c)
    (hholds : Holds s.mem.cells c (packetClosed (h :: ws))) {n : ℕ} (hlen : n ≤ 4 * ws.length) :
    (rxCheckLoop n 0 (s.mem.get 0) (s.mem.get (ringAddr (c + 8))) (checkStart s)).1
      = BitVec.ofNat 32 (matching (descramble (headerSeed h) 0 ws) s (min (firstReload n) n)
        + (n - min (firstReload n) n)) := by
  by_cases hn : n = 0
  · have hr : min (firstReload n) n = 0 := by omega
    rw [hr, hn]
    rfl
  · obtain ⟨w, ws', hws⟩ : ∃ w ws', ws = w :: ws' := by
      apply List.exists_cons_of_ne_nil
      intro hnil
      rw [hnil, List.length_nil] at hlen
      omega
    obtain ⟨htied, -⟩ := checkStart_spec hc hwrap hcursor
    obtain ⟨hr4, hr0, hrn⟩ : min (firstReload n) n ≤ 4 ∧ min (firstReload n) n ≠ 0
        ∧ n = min (firstReload n) n + 4 * ((n - min (firstReload n) n) / 4) := by
      unfold firstReload
      split <;> omega
    generalize min (firstReload n) n = r at hr4 hr0 hrn
    have hfirst : s.mem.get (ringAddr (c + 8)) = (descramble (headerSeed h) 0 ws).getD 0 0 := by
      rw [hws] at hholds ⊢
      exact hholds 2 (by simp [packetClosed, packetBody, descramble])
    -- the first words of packet and memory hold all bytes up to the reload
    have hword : wordMatching r (s.mem.get 0) (s.mem.get (ringAddr (c + 8)))
        = matching (descramble (headerSeed h) 0 ws) s r := by
      apply List.countP_congr
      intro i hi
      have hir := List.mem_range.mp hi
      have hdiv : i / 4 = 0 := by omega
      have hmod : i % 4 = i := by omega
      rw [hfirst, payloadByte, memByte, hdiv, hmod]
      simp only [decide_eq_true_eq]
      exact eq_comm
    have hquot : n - r = 4 * ((n - r) / 4) := by omega
    rw [hrn, rxCheckLoop_eq htied hr4 (fun h0 => absurd h0 hr0), hword, ← hrn, ← hquot]
    exact BitVec.zero_add _

/-- **What `rx_check_packet` returns and consumes.** -/
theorem rxCheckPacket_eq (hc : 4 ∣ c) (hwrap : s.mem.readWraps = true)
    (hcursor : s.rx.rdPacketAddr = ringAddr c)
    (hholds : Holds s.mem.cells c (packetClosed (h :: ws)))
    (hfits : packetBytes (h :: ws) ≤ halfSize) (hready : s.rx.packetReady ≠ 0)
    (hcrc : headerCrc h = 0) (hlen : (announcedLength h).toNat ≤ 4 * ws.length) :
    let n := (announcedLength h).toNat
    let r := min (firstReload n) n
    (rxCheckPacket s).1
        = BitVec.ofNat 32 (matching (descramble (headerSeed h) 0 ws) s r + (n - r)) ∧
    (rxCheckPacket s).2.rx.packetReady = s.rx.packetReady - 1 ∧
    (rxCheckPacket s).2.rx.rdPacketAddr
        = s.rx.rdPacketAddr + BitVec.ofNat 32 (packetBytes (h :: ws)) := by
  intro n r
  have hrx := rxPacketReady_closed hc rfl hwrap hcursor hholds
  obtain ⟨a, hloop⟩ := rxCheckLoop_rx n 0 (s.mem.get 0) (s.mem.get (ringAddr (c + 8)))
    (checkStart s)
  obtain ⟨b, hstart⟩ := checkStart_rx s
  rw [hstart, hrx] at hloop
  have hne := packetBytes_ne_neg_one hfits
  rw [rxCheckPacket_loop hc hwrap hcursor hholds hfits hready hcrc hlen]
  refine ⟨checkStart_loop hc hwrap hcursor hholds hlen, ?_⟩
  dsimp only
  rw [rxPacketNext_of_ne (by rw [hloop]; exact hne), hloop]
  exact ⟨rfl, rfl⟩

omit [Board] in
/-- The plain sum of `rx_packet_next` is the next place in the ring when the packet ends in front of
`MEM_SIZE`, and only then. -/
theorem ringAddr_add_iff {c n : ℕ} (hn : n ≤ halfSize) :
    ringAddr c + BitVec.ofNat 32 n = ringAddr (c + n) ↔ c % halfSize + n < halfSize := by
  have hsum : (ringAddr c + BitVec.ofNat 32 n).toNat = halfSize + c % halfSize + n := by
    have hlt := Nat.mod_lt c (show 0 < halfSize by decide)
    rw [BitVec.toNat_add, ringAddr_toNat, Ring.slot, BitVec.toNat_ofNat]
    simp only [halfSize_eq] at hlt hn ⊢
    omega
  constructor
  · intro h
    have hlt := ringAddr_lt (c + n)
    rw [← h, hsum, memSize_toNat] at hlt
    omega
  · intro h
    apply BitVec.eq_of_toNat_eq
    rw [hsum, ringAddr_toNat, Ring.slot_add_of_lt h, Ring.slot]

/-- **The count is right and exactly this packet is consumed** when everything behind the first
reload agrees and the packet ends in front of `MEM_SIZE`, and only then. -/
theorem rxCheckPacket_exact_iff (hc : 4 ∣ c) (hwrap : s.mem.readWraps = true)
    (hcursor : s.rx.rdPacketAddr = ringAddr c)
    (hholds : Holds s.mem.cells c (packetClosed (h :: ws)))
    (hfits : packetBytes (h :: ws) ≤ halfSize) (hready : s.rx.packetReady ≠ 0)
    (hcrc : headerCrc h = 0) (hlen : (announcedLength h).toNat ≤ 4 * ws.length) :
    ((rxCheckPacket s).1 = BitVec.ofNat 32
        (matching (descramble (headerSeed h) 0 ws) s (announcedLength h).toNat) ∧
      (rxCheckPacket s).2.rx.packetReady = s.rx.packetReady - 1 ∧
      (rxCheckPacket s).2.rx.rdPacketAddr = ringAddr (c + packetBytes (h :: ws))) ↔
    c % halfSize + packetBytes (h :: ws) < halfSize ∧
      ∀ i, firstReload (announcedLength h).toNat ≤ i → i < (announcedLength h).toNat →
        payloadByte (descramble (headerSeed h) 0 ws) i = memByte s i := by
  obtain ⟨hvalue, hcount, haddr⟩ :=
    rxCheckPacket_eq hc hwrap hcursor hholds hfits hready hcrc hlen
  rw [hcursor] at haddr
  have hbyte := (announcedLength h).isLt
  generalize (announcedLength h).toNat = n at hvalue hbyte ⊢
  have hmatch (k : ℕ) : matching (descramble (headerSeed h) 0 ws) s k ≤ k :=
    (List.countP_le_length).trans_eq List.length_range
  -- the counts stay below 256, so the words tell them apart
  have hinj {a b : ℕ} (ha : a ≤ n) (hb : b ≤ n) :
      BitVec.ofNat 32 a = BitVec.ofNat 32 b ↔ a = b := by
    constructor
    · intro heq
      have htoNat := congrArg BitVec.toNat heq
      rwa [BitVec.toNat_ofNat, BitVec.toNat_ofNat, Nat.mod_eq_of_lt (by omega),
        Nat.mod_eq_of_lt (by omega)] at htoNat
    · intro heq
      rw [heq]
  have hle : min (firstReload n) n ≤ n := Nat.min_le_right _ _
  have hfirst := hmatch (min (firstReload n) n)
  rw [haddr, ringAddr_add_iff hfits, hvalue, hinj (by omega) (hmatch n), matching_eq_iff _ s hle]
  constructor
  · rintro ⟨hrest, -, hend⟩
    exact ⟨hend, fun i hi hin => hrest i (by omega) hin⟩
  · rintro ⟨hend, hrest⟩
    exact ⟨fun i hi hin => hrest i (by omega) hin, hcount, hend⟩

end

end

/-! ## Two packets of five bytes -/

/-- The header of a packet of five bytes. -/
def fiveHeader : Word := headerWord { bootState.main.headerInfo with pdsuLength := 5 }

/-- A packet of five bytes at the start of the ring, the last of them in the word `w`. -/
def receivedFive (w : Word) : State :=
  { bootState with
    mem := { bootState.mem with
      cells := fun a =>
        if a = memRxBuf then 16
        else if a = memRxBuf + 4 then fiveHeader
        else if a = memRxBuf + 12 then w
        else 0 }
    rx := { bootState.rx with packetReady := 1 } }

/-- The packet is in the ring. -/
theorem holds_receivedFive (w : Word) :
    letI := plainDram
    Holds (receivedFive w).mem.cells 0 (packetClosed [fiveHeader, 0, w]) := by
  let := plainDram
  have hw : w ^^^ 0 = w := BitVec.xor_zero
  intro i hi
  match i with
  | 0 => rfl
  | 1 => rfl
  | 2 => rfl
  | 3 => exact hw.symm
  | i + 4 => exact absurd hi (Nat.not_lt_of_le (Nat.le_add_left 4 i))

/-- Five zero bytes against a clear memory. -/
theorem rxCheckPacket_exact_zeros :
    letI := plainDram
    ((rxCheckPacket (receivedFive 0)).1 = BitVec.ofNat 32
        (matching (descramble (headerSeed fiveHeader) 0 [0, 0]) (receivedFive 0)
          (announcedLength fiveHeader).toNat) ∧
      (rxCheckPacket (receivedFive 0)).2.rx.packetReady = (receivedFive 0).rx.packetReady - 1 ∧
      (rxCheckPacket (receivedFive 0)).2.rx.rdPacketAddr
        = ringAddr (0 + packetBytes [fiveHeader, 0, 0])) ↔
    0 % halfSize + packetBytes [fiveHeader, 0, 0] < halfSize ∧
      ∀ i, firstReload (announcedLength fiveHeader).toNat ≤ i →
        i < (announcedLength fiveHeader).toNat →
        payloadByte (descramble (headerSeed fiveHeader) 0 [0, 0]) i
          = memByte (receivedFive 0) i := by
  let := plainDram
  have hcrc : headerCrc fiveHeader = 0 := by decide +kernel
  have hlen : (announcedLength fiveHeader).toNat ≤ 4 * [(0 : Word), 0].length := by decide +kernel
  have hwrap : (receivedFive 0).mem.readWraps = true := by decide
  have hcursor : (receivedFive 0).rx.rdPacketAddr = ringAddr 0 := by decide +kernel
  have hready : (receivedFive 0).rx.packetReady ≠ 0 := by decide
  have hfits : packetBytes [fiveHeader, 0, 0] ≤ halfSize := by
    rw [halfSize_eq]
    show 16 ≤ _
    omega
  have hholds : Holds (receivedFive 0).mem.cells 0 (packetClosed (fiveHeader :: [0, 0])) :=
    holds_receivedFive 0
  exact @rxCheckPacket_exact_iff plainDram.toBoard _ 0 fiveHeader [0, 0] (Nat.dvd_zero 4) hwrap
    hcursor hholds hfits hready hcrc hlen

/-- The fifth byte is one, the memory is clear: all five bytes are counted. -/
theorem rxCheckPacket_overcounts :
    letI := plainDram
    (rxCheckPacket (receivedFive 1)).1 = 5 ∧
      matching (descramble false 0 [0, 1]) (receivedFive 1) 5 = 4 := by
  decide +kernel

end HbcMac
