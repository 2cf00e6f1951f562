import HbcMac.RxWriter

/-!
# The receive ring as a queue of packets

The words of a packet in progress determine the writer's variables and what it has stored
(`writerVars`, `packetWords`). `Holds` says which words lie in the ring at a cursor, and
writes that stay within a lap of it do not disturb them.
-/

namespace HbcMac

section
variable [Board]

/-! ## One packet -/

/-- The scrambler seed a header selects. -/
def headerSeed (h : Word) : Bool := hdrRead h hdrSsMask hdrSsShift != 0

/-- The bytes a packet of these words, header first, takes in the ring. -/
def packetBytes : List Word → ℕ
  | [] => 0
  | _ :: ws => 8 + 4 * ws.length

/-- What is stored behind the marker. -/
def packetBody : List Word → List Word
  | [] => []
  | h :: ws => h :: descramble (headerSeed h) 0 ws

/-- What is stored of a packet in progress. -/
def packetOpen : List Word → List Word
  | [] => []
  | ws => -1 :: packetBody ws

/-- What is stored of a completed packet. -/
def packetClosed (ws : List Word) : List Word := BitVec.ofNat 32 (packetBytes ws) :: packetBody ws

omit [Board] in
/-- Packets are whole words. -/
theorem four_dvd_packetBytes (p : List Word) : 4 ∣ packetBytes p := by
  cases p with
  | nil => exact Nat.dvd_zero 4
  | cons h ws => exact Nat.dvd_add (by decide) (Nat.dvd_mul_right 4 _)

omit [Board] in
/-- Marker and header at least. -/
theorem packetBytes_pos {p : List Word} (hp : p ≠ []) : 8 ≤ packetBytes p := by
  cases p with
  | nil => exact absurd rfl hp
  | cons h ws => exact Nat.le_add_right 8 _

/-- The words of a packet in progress. -/
theorem length_packetOpen (p : List Word) : 4 * (packetOpen p).length = packetBytes p := by
  cases p with
  | nil => rfl
  | cons h ws =>
    simp only [packetOpen, packetBody, packetBytes, List.length_cons, length_descramble]
    omega

/-- Those of a completed one. -/
theorem length_packetClosed {p : List Word} (hp : p ≠ []) :
    4 * (packetClosed p).length = packetBytes p := by
  cases p with
  | nil => exact absurd rfl hp
  | cons h ws =>
    simp only [packetClosed, packetBody, packetBytes, List.length_cons, length_descramble]
    omega

omit [Board] in
/-- A packet only grows. -/
theorem packetBytes_mono {p q : List Word} (h : p <+: q) : packetBytes p ≤ packetBytes q := by
  have hlen := h.length_le
  cases p with
  | nil => exact Nat.zero_le _
  | cons w p =>
    cases q with
    | nil => simp at hlen
    | cons v q =>
      simp only [List.length_cons, packetBytes] at hlen ⊢
      omega

/-- What the words `ws` add to the ring when `p` has been stored. -/
def packetAdded : List Word → List Word → List Word
  | [], ws => packetOpen ws
  | h :: p, ws => descramble (headerSeed h) p.length ws

/-- What is added to it comes behind it. -/
theorem packetOpen_append (p ws : List Word) :
    packetOpen (p ++ ws) = packetOpen p ++ packetAdded p ws := by
  cases p with
  | nil => rfl
  | cons h p =>
    simp only [List.cons_append, packetOpen, packetBody, packetAdded, descramble_append,
      Nat.zero_add]

/-- And takes up the rest of the room. -/
theorem length_packetAdded (p ws : List Word) :
    packetBytes p + 4 * (packetAdded p ws).length = packetBytes (p ++ ws) := by
  rw [← length_packetOpen, ← length_packetOpen, packetOpen_append, List.length_append]
  omega

/-! ## The writer in ring cursors -/

/-- The variables of the writer when the words `p` of a packet that starts at cursor
`start` have been taken. -/
def writerVars (start : ℕ) : List Word → RxVars → RxVars
  | [], rx => { rx with
      wrBufAddr := ringAddr start
      wrBytes := 0
      rxState := .packetInit }
  | _ :: ws, rx => { rx with
      wrPacketAddr := ringAddr start
      wrBufAddr := ringAddr (start + (8 + 4 * ws.length))
      wrBytes := BitVec.ofNat 32 (8 + 4 * ws.length)
      rxState := .packetReading }

/-- The scrambler at that point. -/
def writerScram : List Word → Scrambler → Scrambler
  | [], sc => sc
  | h :: ws, _ => ⟨headerSeed h, ws.length⟩

omit [Board] in
/-- The next place of the ring. -/
theorem ringNext_ringAddr {k : ℕ} (hk : 4 ∣ k) : ringNext (ringAddr k) = ringAddr (k + 4) := by
  have hval : (ringAddr k + 4).toNat = (ringAddr k).toNat + 4 := by
    have := ringAddr_lt k
    simp only [memSize_toNat, halfSize_eq] at this
    rw [BitVec.toNat_add, Nat.mod_eq_of_lt]
    · rfl
    · simp; omega
  rw [ringAddr_toNat] at hval
  rw [ringNext]
  split
  · rename_i h
    have h' := congrArg BitVec.toNat h
    rw [hval, memSize_toNat] at h'
    apply BitVec.eq_of_toNat_eq
    rw [memRxBuf_toNat, ringAddr_toNat, Ring.slot_add_of_eq]
    simp only [Ring.slot] at h'
    omega
  · rename_i h
    have h' : (ringAddr k + 4).toNat ≠ memSize.toNat := fun h' => h (BitVec.eq_of_toNat_eq h')
    rw [hval, memSize_toNat] at h'
    apply BitVec.eq_of_toNat_eq
    rw [hval, ringAddr_toNat, Ring.slot_add_of_lt]
    simp only [Ring.slot, halfSize_eq] at h' ⊢
    omega

omit [Board] in
theorem ringNext_iterate {k : ℕ} (hk : 4 ∣ k) (n : ℕ) :
    ringNext^[n] (ringAddr k) = ringAddr (k + 4 * n) := by
  induction n generalizing k with
  | zero => rfl
  | succ n ih =>
    rw [Function.iterate_succ_apply, ringNext_ringAddr hk, ih (Nat.dvd_add hk (Nat.dvd_refl 4))]
    congr 1
    omega

/-- **Receive step.** The words of one call, stored behind what the packet already has. -/
theorem takeWords_ring {s : State} {start : ℕ} {p : List Word} (hstart : 4 ∣ start)
    (hflags : s.mem.writeWraps = true) (hrx : s.rx = writerVars start p s.rx)
    (hscram : s.scram = writerScram p s.scram) (ws : List Word) :
    takeWords ws (memSetWrP s.rx.wrBufAddr s)
      = { s with
          mem := { s.mem with
            cells := replay s.mem.cells (ringLog (start + packetBytes p) (packetAdded p ws))
            wrP := ringAddr (start + packetBytes (p ++ ws))
            log := s.mem.log ++ ringLog (start + packetBytes p) (packetAdded p ws) }
          scram := writerScram (p ++ ws) s.scram
          rx := writerVars start (p ++ ws) s.rx } := by
  have hp : (memSetWrP s.rx.wrBufAddr s).mem.wrP = ringAddr (start + packetBytes p) := by
    cases p <;> (rw [hrx]; rfl)
  have hk : 4 ∣ start + packetBytes p := Nat.dvd_add hstart (four_dvd_packetBytes p)
  -- the writes of the call follow on what the packet has
  have hwrites : (memSetWrP s.rx.wrBufAddr s).mem.writes (packetAdded p ws)
      = { s.mem with
          cells := replay s.mem.cells (ringLog (start + packetBytes p) (packetAdded p ws))
          wrP := ringAddr (start + packetBytes (p ++ ws))
          log := s.mem.log ++ ringLog (start + packetBytes p) (packetAdded p ws) } := by
    rw [Mem.writes_ring (m := (memSetWrP s.rx.wrBufAddr s).mem) hk hflags hp, Nat.add_assoc,
      length_packetAdded]
    rfl
  cases p with
  | nil =>
    have hst : s.rx.rxState = .packetInit := by rw [hrx]; rfl
    have hbytes : s.rx.wrBytes = 0 := by rw [hrx]; rfl
    have hbuf : s.rx.wrBufAddr = ringAddr start := by rw [hrx]; rfl
    cases ws with
    | nil =>
      simp only [takeWords, memSetWrP, hst, List.append_nil, writerScram, packetAdded, packetOpen,
        ringLog, replay_nil, packetBytes, Nat.add_zero]
      rw [← hrx, hbuf]
    | cons h ws =>
      have htake : takeWords (h :: ws) (memSetWrP s.rx.wrBufAddr s)
          = storeWords ws (startPacket h (memSetWrP s.rx.wrBufAddr s)) := by
        simp only [takeWords, memSetWrP, hst]
      rw [htake, storeWords_eq]
      congr 1
      · simp only [startPacket, Nat.zero_add]
        rfl
      · simp only [startPacket, writerVars, memSetWrP, hbuf, hbytes, List.nil_append]
        -- two steps for marker and header, then one a word
        rw [ringNext_ringAddr hstart, ringNext_ringAddr (Nat.dvd_add hstart (Nat.dvd_refl 4)),
          ringNext_iterate (by omega), BitVec.ofNat_add,
          show start + 4 + 4 + 4 * ws.length = start + (8 + 4 * ws.length) by omega]
        rfl
  | cons h p =>
    have hst : s.rx.rxState = .packetReading := by rw [hrx]; rfl
    have hbytes : s.rx.wrBytes = BitVec.ofNat 32 (8 + 4 * p.length) := by rw [hrx]; rfl
    have hbuf : s.rx.wrBufAddr = ringAddr (start + (8 + 4 * p.length)) := by rw [hrx]; rfl
    have htake : takeWords ws (memSetWrP s.rx.wrBufAddr s)
        = storeWords ws (memSetWrP s.rx.wrBufAddr s) := by
      simp only [takeWords, memSetWrP, hst]
    rw [htake, storeWords_eq]
    congr 1
    · rw [← hwrites]
      simp only [memSetWrP, hscram, writerScram, packetAdded]
    · simp only [memSetWrP, hscram, writerScram, List.cons_append, List.length_append]
    · simp only [memSetWrP, hbuf, hbytes, List.cons_append, writerVars, List.length_append]
      rw [ringNext_iterate (by omega), ← BitVec.ofNat_add, hrx]
      simp only [writerVars]
      congr 2 <;> omega

/-- Where nothing has come, nothing is completed. -/
theorem rxFinishPacket_nil {s : State} {start : ℕ} (hrx : s.rx = writerVars start [] s.rx) :
    rxFinishPacket s = s := by
  have hbytes : s.rx.wrBytes = 0 := by rw [hrx]; rfl
  rw [rxFinishPacket, if_neg (not_not.mpr hbytes)]

/-- **Completion step.** The marker is written over the `-1` and the packet handed over. -/
theorem rxFinishPacket_ring {s : State} {start : ℕ} {p : List Word} (hp : p ≠ [])
    (hstart : 4 ∣ start) (hflags : s.mem.writeWraps = true) (hrx : s.rx = writerVars start p s.rx)
    (hfit : packetBytes p ≤ halfSize) :
    rxFinishPacket s
      = { s with
          mem := { s.mem with
            cells := replay s.mem.cells (ringLog start [BitVec.ofNat 32 (packetBytes p)])
            wrP := ringAddr (start + 4)
            log := s.mem.log ++ ringLog start [BitVec.ofNat 32 (packetBytes p)] }
          rx := { writerVars (start + packetBytes p) [] s.rx with
            packetReady := s.rx.packetReady + 1 } } := by
  obtain ⟨h, ws, rfl⟩ := List.exists_cons_of_ne_nil hp
  have hbytes : s.rx.wrBytes = BitVec.ofNat 32 (packetBytes (h :: ws)) := by rw [hrx]; rfl
  have hbuf : s.rx.wrBufAddr = ringAddr (start + packetBytes (h :: ws)) := by rw [hrx]; rfl
  have hpkt : s.rx.wrPacketAddr = ringAddr start := by rw [hrx]; rfl
  -- a packet of at most half the memory does not wrap the count to zero
  have hne : s.rx.wrBytes ≠ 0 := by
    rw [hbytes]
    intro h0
    have hmod : packetBytes (h :: ws) % 2 ^ 32 = 0 := by simpa using congrArg BitVec.toNat h0
    have hpos := packetBytes_pos hp
    rw [halfSize_eq] at hfit
    omega
  have hwrite := Mem.writes_ring (m := (memSetWrP (ringAddr start) s).mem) hstart hflags rfl
    [BitVec.ofNat 32 (packetBytes (h :: ws))]
  rw [rxFinishPacket, if_pos hne]
  simp only [hpkt]
  congr 1
  · simp only [memWrite, memSetWrP, hbytes]
    exact hwrite
  · simp only [writerVars, memWrite, memSetWrP, ← hbuf]

/-! ## Words in the ring -/

/-- The words `ws` lie in the ring from cursor `k` on. -/
def Holds (cells : Word → Word) (k : ℕ) (ws : List Word) : Prop :=
  ∀ i (hi : i < ws.length), cells (Board.cell (ringAddr (k + 4 * i))) = ws[i]

/-- Completed packets lie in the ring one behind the other from cursor `k` on. -/
def HoldsPackets (cells : Word → Word) : ℕ → List (List Word) → Prop
  | _, [] => True
  | k, p :: ps => Holds cells k (packetClosed p) ∧ HoldsPackets cells (k + packetBytes p) ps

/-- The bytes of completed packets. -/
def queueBytes (ps : List (List Word)) : ℕ := (ps.map packetBytes).sum

omit [Board] in
@[simp] theorem queueBytes_nil : queueBytes [] = 0 := rfl

omit [Board] in
@[simp] theorem queueBytes_cons (p : List Word) (ps : List (List Word)) :
    queueBytes (p :: ps) = packetBytes p + queueBytes ps := rfl

omit [Board] in
theorem queueBytes_append (ps ps' : List (List Word)) :
    queueBytes (ps ++ ps') = queueBytes ps + queueBytes ps' := by
  rw [queueBytes, List.map_append, List.sum_append]
  rfl

omit [Board] in
theorem four_dvd_queueBytes (ps : List (List Word)) : 4 ∣ queueBytes ps := by
  induction ps with
  | nil => exact Nat.dvd_zero 4
  | cons p ps ih => exact Nat.dvd_add (four_dvd_packetBytes p) ih

/-- Words behind words. -/
theorem Holds.append {cells : Word → Word} {k : ℕ} {ws ws' : List Word} (h : Holds cells k ws)
    (h' : Holds cells (k + 4 * ws.length) ws') : Holds cells k (ws ++ ws') := by
  intro i hi
  by_cases hlt : i < ws.length
  · rw [List.getElem_append_left hlt]
    exact h i hlt
  · have hge : ws.length ≤ i := Nat.le_of_not_lt hlt
    rw [List.length_append] at hi
    rw [List.getElem_append_right hge, ← h' (i - ws.length) (by omega)]
    congr 3
    omega

end

section
variable [Dram]

/-- What is written to the ring is held there. -/
theorem Holds.replay_self {cells : Word → Word} {k : ℕ} {ws : List Word} (hk : 4 ∣ k)
    (hfit : 4 * ws.length ≤ halfSize) : Holds (replay cells (ringLog k ws)) k ws :=
  fun _ hi => replay_ringLog_getElem hk hfit hi

/-- Writes less than a lap ahead do not disturb what lies in the ring. -/
theorem Holds.replay {cells : Word → Word} {j k : ℕ} {ws new : List Word} (h : Holds cells j ws)
    (hj : 4 ∣ j) (hk : 4 ∣ k) (hbehind : j + 4 * ws.length ≤ k)
    (hlap : k + 4 * new.length ≤ j + halfSize) :
    Holds (HbcMac.replay cells (ringLog k new)) j ws := by
  intro i hi
  rw [replay_ringLog_of_disjoint hk (by omega) (Or.inl ⟨by omega, by omega⟩)]
  exact h i hi

/-- Writing over the first word leaves the others. -/
theorem Holds.mark {cells : Word → Word} {k : ℕ} {w : Word} {ws : List Word}
    (h : Holds cells k (w :: ws)) (hk : 4 ∣ k) (hfit : 4 * (w :: ws).length ≤ halfSize) (v : Word) :
    Holds (HbcMac.replay cells (ringLog k [v])) k (v :: ws) := by
  rw [List.length_cons] at hfit
  intro i hi
  cases i with
  | zero => exact store_of_eq cells (ringAddr k, v)
  | succ i =>
    rw [List.length_cons] at hi
    rw [replay_ringLog_of_disjoint hk (by omega)
      (Or.inr ⟨by rw [List.length_singleton]; omega, by omega⟩), List.getElem_cons_succ]
    exact h (i + 1) (by rw [List.length_cons]; exact hi)

/-- A packet stored and then marked is a completed packet in the ring. -/
theorem holds_packetClosed {cells : Word → Word} {k : ℕ} {p : List Word} (hk : 4 ∣ k) (hp : p ≠ [])
    (h : Holds cells k (packetOpen p)) (hfit : packetBytes p ≤ halfSize) :
    Holds (replay cells (ringLog k [BitVec.ofNat 32 (packetBytes p)])) k (packetClosed p) := by
  have hlen := length_packetOpen p
  obtain ⟨w, ws, rfl⟩ := List.exists_cons_of_ne_nil hp
  exact h.mark hk (by rw [← hlen] at hfit; exact hfit) _

end

end HbcMac
