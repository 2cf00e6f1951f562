import HbcMac.RxRing

/-!
# The receive handlers append a packet

Whatever way the words of a packet are split over the interrupts, the ring gains the same
marker, header and descrambled payload, and until the last call the marker reads `-1`.
-/

namespace HbcMac

section
variable [Board]

/-- Successive calls of `rx_data_int_func`, each draining one chunk, which is there before the first
poll of the call. -/
def dataCalls (cuts : List (List Word)) (s : State) : State :=
  cuts.foldl (fun s ws => rxInterrupt rxDataIntFunc [ws] s) s

/-- `s` is `s₀` after the words `p` of a packet that starts at cursor `start`. -/
structure Received (start : ℕ) (p : List Word) (s₀ s : State) : Prop where
  rx : s.rx = writerVars start p s₀.rx
  scram : s.scram = writerScram p s₀.scram
  cells : s.mem.cells = replay s₀.mem.cells (ringLog start (packetOpen p))
  log : s.mem.log = s₀.mem.log ++ ringLog start (packetOpen p)
  flags : s.mem.flags = s₀.mem.flags
  rxFifo : s.rxFifo = ⟨[], []⟩

omit [Board] in
/-- The writer goes on where it has stopped. -/
theorem writerVars_append (start : ℕ) (p ws : List Word) (rx : RxVars) :
    writerVars start (p ++ ws) (writerVars start p rx) = writerVars start (p ++ ws) rx := by
  cases p with
  | nil => cases ws <;> rfl
  | cons h p => rfl

omit [Board] in
/-- So does the scrambler. -/
theorem writerScram_append (p ws : List Word) (sc : Scrambler) :
    writerScram (p ++ ws) (writerScram p sc) = writerScram (p ++ ws) sc := by
  cases p <;> rfl

omit [Board] in
theorem writerVars_self (start : ℕ) (p : List Word) (rx : RxVars) :
    writerVars start p (writerVars start p rx) = writerVars start p rx := by
  cases p <;> rfl

section
variable {start : ℕ} {p : List Word} {s₀ s : State}

/-- One more chunk. -/
theorem Received.data (hstart : 4 ∣ start) (hflags : s₀.mem.writeWraps = true)
    (h : Received start p s₀ s) (ws : List Word) :
    Received start (p ++ ws) s₀ (rxInterrupt rxDataIntFunc [ws] s) := by
  have hrx : s.rx = writerVars start p s.rx := by rw [h.rx, writerVars_self]
  have hsc : s.scram = writerScram p s.scram := by rw [h.scram]; cases p <;> rfl
  have hfl : s.mem.writeWraps = true := by rw [Mem.writeWraps, h.flags]; exact hflags
  rw [rxData_interrupt h.rxFifo, takeWords_ring hstart hfl hrx hsc]
  have hlen := length_packetOpen p
  constructor
  · simp only [h.rx, writerVars_append]
  · simp only [h.scram, writerScram_append]
  · simp only [h.cells]
    rw [packetOpen_append, ringLog_append, replay_append, hlen]
  · simp only [h.log]
    rw [packetOpen_append, ringLog_append, List.append_assoc, hlen]
  · exact h.flags
  · exact h.rxFifo

/-- Any number of chunks. -/
theorem Received.dataCalls (hstart : 4 ∣ start) (hflags : s₀.mem.writeWraps = true)
    (h : Received start p s₀ s) (cuts : List (List Word)) :
    Received start (p ++ cuts.flatten) s₀ (dataCalls cuts s) := by
  induction cuts generalizing p s with
  | nil => simpa [HbcMac.dataCalls] using h
  | cons ws cuts ih =>
    have hnext := ih (h.data hstart hflags ws)
    rwa [List.append_assoc, ← List.flatten_cons] at hnext

/-- The words of the last call are taken before the marker is written. -/
theorem Received.last (hstart : 4 ∣ start) (hflags : s₀.mem.writeWraps = true)
    (h : Received start p s₀ s) (ws : List Word) :
    ∃ t, Received start (p ++ ws) s₀ t ∧
      rxInterrupt rxReadyIntFunc [ws] s = (rxFinishPacket t).pulse .hbcRxPktAck := by
  refine ⟨_, ?_, rxReady_interrupt h.rxFifo ws⟩
  by_cases hws : ws = []
  · rw [if_pos hws, hws, List.append_nil]
    exact h
  · rw [if_neg hws, ← rxData_interrupt h.rxFifo]
    exact h.data hstart hflags ws

/-- The marker written over a packet that fits in the ring. -/
theorem Received.finish (hstart : 4 ∣ start) (hflags : s₀.mem.writeWraps = true)
    (h : Received start p s₀ s) (hp : p ≠ []) (hfit : packetBytes p ≤ halfSize) :
    (rxFinishPacket s).rx = { writerVars (start + packetBytes p) [] (writerVars start p s₀.rx) with
      packetReady := s₀.rx.packetReady + 1 } ∧
    (rxFinishPacket s).mem.cells = replay s₀.mem.cells
      (ringLog start (packetOpen p) ++ ringLog start [BitVec.ofNat 32 (packetBytes p)]) ∧
    (rxFinishPacket s).mem.log = s₀.mem.log
      ++ (ringLog start (packetOpen p) ++ ringLog start [BitVec.ofNat 32 (packetBytes p)]) := by
  have hrx : s.rx = writerVars start p s.rx := by rw [h.rx, writerVars_self]
  have hfl : s.mem.writeWraps = true := by rw [Mem.writeWraps, h.flags]; exact hflags
  have hready : s.rx.packetReady = s₀.rx.packetReady := by rw [h.rx]; cases p <;> rfl
  rw [rxFinishPacket_ring hp hstart hfl hrx hfit]
  refine ⟨?_, ?_, ?_⟩
  · simp only [hready]
    rw [h.rx]
  · simp only [h.cells]
    rw [replay_append]
  · simp only [h.log]
    rw [List.append_assoc]

end

end

/-! ## The whole packet -/

section
variable [Dram]

/-- While the words are being stored, the first of them is the marker `-1`. -/
theorem replay_open_prefix {cells : Word → Word} {start : ℕ} {p : List Word} (hstart : 4 ∣ start)
    (hfit : packetBytes p ≤ halfSize) {pre : List (Word × Word)} (hne : pre ≠ [])
    (hpre : pre <+: ringLog start (packetOpen p)) :
    replay cells pre (Board.cell (ringAddr start)) = -1 := by
  cases p with
  | nil => exact absurd (List.prefix_nil.mp hpre) hne
  | cons h ws =>
    obtain ⟨tail, htail⟩ := hpre
    obtain ⟨e, pre, rfl⟩ := List.exists_cons_of_ne_nil hne
    obtain ⟨rfl, hrest⟩ := List.cons.inj htail
    rw [replay_cons, replay_of_ne, store_of_eq (w := (ringAddr start, -1))]
    intro e he
    have hmem : e ∈ ringLog (start + 4) (packetBody (h :: ws)) := by
      rw [← hrest]
      exact List.mem_append_left tail he
    obtain ⟨i, hi, hei⟩ := mem_ringLog hmem
    simp only [packetBody, List.length_cons, length_descramble, packetBytes] at hi hfit
    rw [hei]
    exact cell_ringAddr_ne hstart (by omega) (by omega) (by omega)

/-- **The writer appends a packet.** For every packet shorter than the ring and every way of
cutting its words into the chunks drained by the calls, the last of them being
`rx_ready_int_func`. The log of the writes shows the memory at every point in between: from
the first write on and until the last one the marker reads `-1`. -/
theorem rx_append {s : State} {a h : Word} {ws last : List Word} {cuts : List (List Word)}
    (hinit : s.rx.rxState = .packetInit) (hbytes : s.rx.wrBytes = 0) (hbuf : s.rx.wrBufAddr = a)
    (hlo : memRxBuf.toNat ≤ a.toNat) (hhi : a.toNat < memSize.toNat) (halign : 4 ∣ a.toNat)
    (hflags : s.mem.writeWraps = true) (hfifo : s.rxFifo = ⟨[], []⟩)
    (hlen : (h :: ws).length < halfSize / 4) (hcut : cuts.flatten ++ last = h :: ws) :
    let s' := rxInterrupt rxReadyIntFunc [last] (dataCalls cuts s)
    let ring := fun i => Board.cell (ringAddr (a.toNat + i))
    -- marker, header and descrambled payload
    s'.mem.cells (ring 0) = BitVec.ofNat 32 (8 + 4 * ws.length) ∧
    s'.mem.cells (ring 4) = h ∧
    (∀ i (hi : i < ws.length),
      s'.mem.cells (ring (8 + 4 * i)) = ws[i] ^^^ Board.keystream (headerSeed h) i) ∧
    -- every other word
    (∀ c, (∀ i < ws.length + 2, c ≠ ring (4 * i)) → s'.mem.cells c = s.mem.cells c) ∧
    -- the variables
    s'.rx.wrBufAddr = ringAddr (a.toNat + (8 + 4 * ws.length)) ∧ s'.rx.wrBytes = 0 ∧
    s'.rx.rxState = .packetInit ∧ s'.rx.packetReady = s.rx.packetReady + 1 ∧
    -- the marker before completion: at every write and between the calls
    (∃ writes, s'.mem.log = s.mem.log ++ writes ∧ s'.mem.cells = replay s.mem.cells writes ∧
      ∀ pre, pre <+: writes → pre ≠ [] → pre ≠ writes → replay s.mem.cells pre (ring 0) = -1) ∧
    (∀ n, (cuts.take n).flatten ≠ [] → (dataCalls (cuts.take n) s).mem.cells (ring 0) = -1) := by
  obtain ⟨k, hk, -, rfl⟩ := exists_ringAddr hlo hhi halign
  have hstart : Received k [] s s := by
    refine ⟨?_, rfl, rfl, (List.append_nil _).symm, rfl, hfifo⟩
    rw [writerVars, ← hbuf, ← hbytes, ← hinit]
  have hcalls (cuts : List (List Word)) : Received k cuts.flatten s (dataCalls cuts s) :=
    hstart.dataCalls hk hflags cuts
  have hfit : packetBytes (h :: ws) ≤ halfSize := by
    simp only [List.length_cons, halfSize_eq, packetBytes] at hlen ⊢
    omega
  obtain ⟨t, ht, hready⟩ := (hcalls cuts).last hk hflags last
  rw [hcut] at ht
  obtain ⟨hrx, hcells, hlog⟩ := ht.finish hk hflags (List.cons_ne_nil h ws) hfit
  have hopen := length_packetOpen (h :: ws)
  have hholds : Holds (rxFinishPacket t).mem.cells k (packetClosed (h :: ws)) := by
    rw [hcells, replay_append]
    exact holds_packetClosed hk (List.cons_ne_nil h ws)
      (Holds.replay_self hk (by rw [hopen]; exact hfit)) hfit
  have hmark := length_packetClosed (List.cons_ne_nil h ws)
  simp only [ringAddr_toNat_add, hready]
  refine ⟨hholds 0 (Nat.succ_pos _), hholds 1 (Nat.succ_lt_succ (Nat.succ_pos _)), ?_, ?_, ?_, ?_,
    ?_, ?_, ⟨_, hlog, hcells, ?_⟩, ?_⟩
  · intro i hi
    have hword := hholds (i + 2) (by
      simp only [packetClosed, packetBody, List.length_cons, length_descramble]
      omega)
    rw [show k + (8 + 4 * i) = k + 4 * (i + 2) by omega]
    refine hword.trans ?_
    simp only [packetClosed, packetBody, List.getElem_cons_succ]
    rw [getElem_descramble _ _ _ _ _ hi, Nat.zero_add]
  · intro c hc
    show (rxFinishPacket t).mem.cells c = _
    rw [hcells]
    refine replay_of_ne fun e he => ?_
    obtain ⟨i, hi, hei⟩ : ∃ i, i < ws.length + 2 ∧ e.1 = ringAddr (k + 4 * i) := by
      rcases List.mem_append.mp he with he | he
      · obtain ⟨i, hi, hei⟩ := mem_ringLog he
        simp only [packetBytes] at hopen
        exact ⟨i, by omega, hei⟩
      · obtain ⟨i, hi, hei⟩ := mem_ringLog he
        rw [List.length_singleton] at hi
        exact ⟨i, by omega, hei⟩
    rw [hei]
    exact hc i hi
  · show (rxFinishPacket t).rx.wrBufAddr = _
    rw [hrx]
    rfl
  · show (rxFinishPacket t).rx.wrBytes = _
    rw [hrx]
    rfl
  · show (rxFinishPacket t).rx.rxState = _
    rw [hrx]
    rfl
  · show (rxFinishPacket t).rx.packetReady = _
    rw [hrx]
  · intro pre hpre hne hnot
    rcases List.prefix_concat_iff.mp hpre with heq | hpre
    · exact absurd heq hnot
    · exact replay_open_prefix hk hfit hne hpre
  · intro n hn
    rw [(hcalls _).cells]
    have hpre : (cuts.take n).flatten <+: h :: ws := by
      rw [← hcut, ← List.take_append_drop n cuts, List.flatten_append, List.append_assoc,
        List.take_append_drop]
      exact List.prefix_append _ _
    refine replay_open_prefix hk (Nat.le_trans (packetBytes_mono hpre) hfit) ?_
      (List.prefix_refl _)
    obtain ⟨w, q, hq⟩ := List.exists_cons_of_ne_nil hn
    rw [hq]
    exact List.cons_ne_nil _ _

end

/-- A header and a payload word in two calls. -/
theorem rx_append_two_calls :
    letI := plainDram
    let s' := rxInterrupt rxReadyIntFunc [[7]] (dataCalls [[0x800]] bootState)
    s'.mem.cells (memRxBuf + 8) = 7 ^^^ Board.keystream (headerSeed 0x800) 0 ∧
      s'.rx.packetReady = 1 := by
  have happend := @rx_append plainDram bootState memRxBuf 0x800 [7] [7] [[0x800]] rfl rfl rfl
    (by decide) (by decide) (by decide) (by decide) rfl (by decide) rfl
  exact ⟨happend.2.2.1 0 (by decide), happend.2.2.2.2.2.2.2.1⟩

/-- Before its first word is drained a packet has no marker: after an empty first call the
word at the write address is whatever the memory held. -/
theorem no_marker_before_header :
    letI := plainDram
    bootState.rx.rxState = .packetInit ∧ bootState.rx.wrBytes = 0 ∧
    bootState.rx.wrBufAddr = memRxBuf ∧ bootState.mem.writeWraps = true ∧
    bootState.rxFifo = ⟨[], []⟩ ∧ [[]].flatten ++ [0] = [(0 : Word)] ∧
    (dataCalls [[]] bootState).mem.cells (Board.cell (ringAddr memRxBuf.toNat)) ≠ -1 := by
  refine ⟨rfl, rfl, rfl, by decide, rfl, rfl, ?_⟩
  show (0 : Word) ≠ -1
  decide

end HbcMac
