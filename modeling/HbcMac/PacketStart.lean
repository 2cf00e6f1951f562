import HbcMac.Lib.Run
import HbcMac.RxRing
import HbcMac.WriterStep

/-!
# Where a packet starts

`rx_data_int_func` reads the data flag once to tell a header, and again before each word of the
payload. The words of the FIFO may come between any two of the reads, so a call outside a packet
can miss the header at the first read and take it for payload at the next.
-/

namespace HbcMac

/-! ## Calls of the handlers -/

/-- A call of one of the two handlers, with the words that arrive before each read of the flag. -/
inductive RxCall
  | data (arr : List (List Word))
  | ready (arr : List (List Word))

/-- The words that arrive during the call. -/
def RxCall.arrivals : RxCall → List (List Word)
  | .data arr => arr
  | .ready arr => arr

/-- The words in the FIFO, and those that come during the call. -/
def RxCall.offered (c : RxCall) (s : State) : List Word := s.rxFifo.words ++ c.arrivals.flatten

/-- Outside a packet the flag is clear at the first read and set at the second. -/
def RxCall.Misreads (c : RxCall) (s : State) : Prop :=
  match c with
  | .data arr => s.rx.rxState = .packetInit ∧ s.rxFifo.words ++ arr.headD [] = []
      ∧ arr.tail.headD [] ≠ []
  | .ready _ => False

/-- The words a call takes, as its polls find them. -/
def RxCall.incoming (c : RxCall) (s : State) : List Word :=
  match c with
  | .data arr => polled s.rxFifo.words arr
  | .ready arr =>
    if s.rxFifo.words ++ arr.headD [] = [] then []
    else polled (s.rxFifo.words ++ arr.headD []) arr.tail

/-- The bytes a call counts for the words it takes. -/
def takenBytes : RxState → List Word → ℕ
  | .packetInit, ws => packetBytes ws
  | .packetReading, ws => 4 * ws.length

/-- The bytes of the packet in progress, with the words of the call. -/
def RxCall.total (c : RxCall) (s : State) : ℕ :=
  s.rx.wrBytes.toNat + takenBytes s.rx.rxState (c.incoming s)

/-- The least count behind a call: a packet in progress is not zero, a completed one has a marker
and a header. -/
def RxCall.least : RxCall → ℕ
  | .data _ => 4
  | .ready _ => 8

/-- In 32 bits the bytes of the packet come to less than that. -/
def RxCall.Wraps (c : RxCall) (s : State) : Prop :=
  c.total s ≠ 0 ∧ c.total s % 2 ^ 32 < c.least

instance (c : RxCall) (s : State) : Decidable (c.Misreads s) :=
  match c with
  | .data _ => inferInstanceAs (Decidable (_ ∧ _ ∧ _))
  | .ready _ => inferInstanceAs (Decidable False)

instance (c : RxCall) (s : State) : Decidable (c.Wraps s) := inferInstanceAs (Decidable (_ ∧ _))

section
variable [Board]

/-- The state when a call has taken its words. -/
def RxCall.words (c : RxCall) (s : State) : State :=
  match c with
  | .data arr => rxDataIntFunc { s with rxFifo.arrivals := arr }
  | .ready arr => rxLastWords { s with rxFifo.arrivals := arr }

/-- The marker a call writes over the `-1`, if it completes a packet. -/
def RxCall.marker (c : RxCall) (s : State) : Option Word :=
  match c with
  | .data _ => none
  | .ready _ => if (c.words s).rx.wrBytes ≠ 0 then some (c.words s).rx.wrBytes else none

/-- The call as an interrupt. -/
def RxCall.serve (c : RxCall) (s : State) : State :=
  match c with
  | .data arr => rxInterrupt rxDataIntFunc arr s
  | .ready arr => rxInterrupt rxReadyIntFunc arr s

/-- The words a call takes from the FIFO. -/
def RxCall.taken (c : RxCall) (s : State) : List Word :=
  (c.offered s).take ((c.offered s).length - (c.serve s).rxFifo.words.length)

/-! ## What a call stores -/

/-- From `s` to `t` the words `ws` have been taken: outside a packet the first is stored as a
header behind a marker. -/
structure Takes (ws : List Word) (s t : State) : Prop where
  rxState : t.rx.rxState = if ws = [] then s.rx.rxState else .packetReading
  wrBytes : t.rx.wrBytes = s.rx.wrBytes + BitVec.ofNat 32 (takenBytes s.rx.rxState ws)
  header : ∀ h rest, ws = h :: rest → s.rx.rxState = .packetInit → ∃ more, t.mem.log = s.mem.log
    ++ (s.rx.wrBufAddr, -1) :: (advance s.mem.writeWraps s.rx.wrBufAddr, h) :: more

/-- Writing makes the log longer. -/
theorem writes_log (m : Mem) (ws : List Word) : ∃ more, (m.writes ws).log = m.log ++ more := by
  induction ws generalizing m with
  | nil => exact ⟨[], (List.append_nil _).symm⟩
  | cons w ws ih =>
    obtain ⟨more, hmore⟩ := ih (m.write w)
    exact ⟨(m.wrP, w) :: more, by rw [Mem.writes_cons, hmore, Mem.write_log, List.append_assoc]; rfl⟩

/-- A call that takes these words stores them. -/
theorem takes_takeWords (ws : List Word) (s : State) (f : RxFifo) :
    Takes ws s { takeWords ws (memSetWrP s.rx.wrBufAddr s) with rxFifo := f } := by
  cases hst : s.rx.rxState with
  | packetReading =>
    -- inside a packet every word is payload
    rw [takeWords_reading hst, storeWords_eq]
    refine ⟨?_, ?_, fun h rest _ hinit => ?_⟩
    · rw [hst, ite_self]
      exact hst
    · rw [hst]
      rfl
    · rw [hst] at hinit
      cases hinit
  | packetInit =>
    cases ws with
    | nil =>
      rw [takeWords_none hst]
      refine ⟨?_, ?_, fun h rest hws _ => ?_⟩
      · rw [if_pos rfl]
        rfl
      · rw [hst]
        exact (BitVec.add_zero _).symm
      · cases hws
    | cons w ws =>
      -- marker and header are the first two writes
      rw [takeWords_header hst, storeWords_eq]
      refine ⟨rfl, ?_, fun h rest hws _ => ?_⟩
      · rw [hst]
        show s.rx.wrBytes + 8 + BitVec.ofNat 32 (4 * ws.length)
          = s.rx.wrBytes + BitVec.ofNat 32 (8 + 4 * ws.length)
        rw [BitVec.ofNat_add, BitVec.add_assoc]
        rfl
      · obtain ⟨rfl, rfl⟩ := List.cons.inj hws
        obtain ⟨more, hmore⟩ := writes_log
          ((((memSetWrP s.rx.wrBufAddr s).mem.write (-1)).write w))
          (descramble (hdrRead w hdrSsMask hdrSsShift != 0) 0 ws)
        refine ⟨more, hmore.trans ?_⟩
        rw [Mem.write_log, Mem.write_log, List.append_assoc, List.append_assoc]
        rfl

/-! ## The reads of the flag -/

/-- The call inside a packet. -/
theorem rxDataIntFunc_reading {s : State} (hst : s.rx.rxState = .packetReading) : rxDataIntFunc s
    = { takeWords (polled s.rxFifo.words s.rxFifo.arrivals) (memSetWrP s.rx.wrBufAddr s) with
      rxFifo := ⟨[], unpolled s.rxFifo.words s.rxFifo.arrivals⟩ } := by
  have hcall : rxDataIntFunc s = rxDrain (rxFifoTotal s + 1) (memSetWrP s.rx.wrBufAddr s) := by
    unfold rxDataIntFunc
    simp only [memSetWrP, hst]
    rfl
  have hfuel : rxFifoTotal (memSetWrP s.rx.wrBufAddr s) < rxFifoTotal s + 1 := Nat.lt_succ_self _
  rw [hcall, rxDrain_eq _ _ hfuel, takeWords_reading hst]
  rfl

section
variable {s : State} (hst : s.rx.rxState = .packetInit)
include hst

/-- The call outside a packet when the flag is set at the first read. -/
theorem rxDataIntFunc_header {w : Word} {rest : List Word}
    (hpoll : s.rxFifo.words ++ s.rxFifo.arrivals.headD [] = w :: rest) : rxDataIntFunc s
    = { takeWords (polled s.rxFifo.words s.rxFifo.arrivals) (memSetWrP s.rx.wrBufAddr s) with
      rxFifo := ⟨[], unpolled s.rxFifo.words s.rxFifo.arrivals⟩ } := by
  let t : State := { startPacket w (memSetWrP s.rx.wrBufAddr s) with
    rxFifo := ⟨rest, s.rxFifo.arrivals.tail⟩ }
  -- the header word has been taken, the drain loop starts on what is left
  have hcall : rxDataIntFunc s = rxDrain (rxFifoTotal t + 1) t := by
    unfold rxDataIntFunc
    dsimp only
    rw [rxDataReady_eq]
    simp only [memSetWrP, hst, hpoll, List.isEmpty_cons, Bool.not_false, if_true]
    rfl
  rw [hcall, rxDrain_eq _ t (Nat.lt_succ_self _), storeWords_rxFifo, (polled_some hpoll).1,
    (polled_some hpoll).2, takeWords_header hst]

section
variable (hpoll : s.rxFifo.words ++ s.rxFifo.arrivals.headD [] = [])
include hpoll

/-- Without a word at the first read the header branch is skipped. -/
theorem rxDataIntFunc_skip : rxDataIntFunc s = rxDrain (s.rxFifo.arrivals.tail.flatten.length + 1)
    { memSetWrP s.rx.wrBufAddr s with rxFifo := ⟨[], s.rxFifo.arrivals.tail⟩ } := by
  unfold rxDataIntFunc
  dsimp only
  rw [rxDataReady_eq]
  simp only [memSetWrP, hst, hpoll, List.isEmpty_nil, Bool.not_true, if_true, rxFifoTotal]
  rw [if_neg Bool.false_ne_true, List.length_nil, Nat.zero_add]

/-- The call outside a packet when no word has come at the second read either. -/
theorem rxDataIntFunc_none (hnext : s.rxFifo.arrivals.tail.headD [] = []) : rxDataIntFunc s
    = { takeWords [] (memSetWrP s.rx.wrBufAddr s) with
      rxFifo := ⟨[], s.rxFifo.arrivals.tail.tail⟩ } := by
  rw [rxDataIntFunc_skip hst hpoll, rxDrain, rxDataReady_eq]
  simp only [hnext, List.append_nil, List.isEmpty_nil, Bool.not_true, takeWords_none hst]
  rfl

/-- **Misread.** With a word at the second read the call stores payload without a header. -/
theorem rxDataIntFunc_misread (hnext : s.rxFifo.arrivals.tail.headD [] ≠ []) :
    ∃ ws later, ws ≠ [] ∧ s.rxFifo.words ++ s.rxFifo.arrivals.flatten = ws ++ later.flatten ∧
      rxDataIntFunc s
        = { storeWords ws (memSetWrP s.rx.wrBufAddr s) with rxFifo := ⟨[], later⟩ } := by
  obtain ⟨w, rest, hw⟩ := List.exists_cons_of_ne_nil hnext
  have hsome : polled [] s.rxFifo.arrivals.tail = w :: polled rest s.rxFifo.arrivals.tail.tail :=
    (polled_some hw).1
  refine ⟨polled [] s.rxFifo.arrivals.tail, unpolled [] s.rxFifo.arrivals.tail, ?_, ?_, ?_⟩
  · rw [hsome]
    exact List.cons_ne_nil _ _
  · rw [← head_append_tail, ← List.append_assoc, hpoll, polled_append_unpolled]
  · -- the drain loop stores what is a header as payload
    have hfuel : rxFifoTotal { memSetWrP s.rx.wrBufAddr s with
        rxFifo := ⟨[], s.rxFifo.arrivals.tail⟩ } < s.rxFifo.arrivals.tail.flatten.length + 1 := by
      rw [rxFifoTotal, List.length_nil, Nat.zero_add]
      exact Nat.lt_succ_self _
    rw [rxDataIntFunc_skip hst hpoll, rxDrain_eq _ _ hfuel, storeWords_rxFifo]

end

end

/-- The call when its two first reads do not miss a header. -/
theorem rxDataIntFunc_polled {s : State} (hread : ¬ (RxCall.data s.rxFifo.arrivals).Misreads s) :
    ∃ later, s.rxFifo.words ++ s.rxFifo.arrivals.flatten
        = polled s.rxFifo.words s.rxFifo.arrivals ++ later.flatten ∧
      rxDataIntFunc s
        = { takeWords (polled s.rxFifo.words s.rxFifo.arrivals) (memSetWrP s.rx.wrBufAddr s) with
          rxFifo := ⟨[], later⟩ } := by
  have hsplit := polled_append_unpolled s.rxFifo.words s.rxFifo.arrivals
  cases hst : s.rx.rxState with
  | packetReading => exact ⟨_, hsplit, rxDataIntFunc_reading hst⟩
  | packetInit =>
    cases hpoll : s.rxFifo.words ++ s.rxFifo.arrivals.headD [] with
    | cons w rest => exact ⟨_, hsplit, rxDataIntFunc_header hst hpoll⟩
    | nil =>
      -- neither read finds a word: anything else would be a misread
      have hnext : s.rxFifo.arrivals.tail.headD [] = [] := by
        by_contra hnext
        exact hread ⟨hst, hpoll, hnext⟩
      rw [(polled_none hpoll).1]
      refine ⟨_, ?_, rxDataIntFunc_none hst hpoll hnext⟩
      rw [← head_append_tail, ← List.append_assoc, hpoll, ← head_append_tail, hnext]
      rfl

/-! ## A call as a whole -/

omit [Board] in
/-- Only the writer and the memory count. -/
theorem Takes.of_eq {ws : List Word} {s s' t : State} (h : Takes ws s' t) (hrx : s'.rx = s.rx)
    (hmem : s'.mem = s.mem) : Takes ws s t := by
  obtain ⟨hst, hbytes, hheader⟩ := h
  rw [hrx] at hst hbytes
  refine ⟨hst, hbytes, fun h rest hws hinit => ?_⟩
  rw [← hrx, ← hmem]
  exact hheader h rest hws (hrx ▸ hinit)

omit [Board] in
/-- A call that takes none stores none. -/
theorem takes_nil (s : State) (f : RxFifo) : Takes [] s { s with rxFifo := f } := by
  refine ⟨rfl, ?_, fun h rest hws _ => ?_⟩
  · cases s.rx.rxState <;> exact (BitVec.add_zero _).symm
  · cases hws

/-- A call that does not misread takes the header of a packet as such. -/
theorem words_spec {c : RxCall} {s : State} (hread : ¬ c.Misreads s) :
    ∃ later, c.offered s = c.incoming s ++ later.flatten ∧ (c.words s).rxFifo = ⟨[], later⟩ ∧
      Takes (c.incoming s) s (c.words s) := by
  cases c with
  | data arr =>
    obtain ⟨later, hsplit, hcall⟩ :=
      rxDataIntFunc_polled (s := { s with rxFifo.arrivals := arr }) hread
    refine ⟨later, hsplit, ?_, ?_⟩
    · rw [RxCall.words, hcall]
    · rw [RxCall.words, hcall]
      exact (takes_takeWords _ { s with rxFifo.arrivals := arr } ⟨[], later⟩).of_eq rfl rfl
  | ready arr =>
    have hwords : (RxCall.ready arr).words s
        = if !(s.rxFifo.words ++ arr.headD []).isEmpty then
            rxDataIntFunc { s with rxFifo := ⟨s.rxFifo.words ++ arr.headD [], arr.tail⟩ }
          else { s with rxFifo := ⟨s.rxFifo.words ++ arr.headD [], arr.tail⟩ } := by
      rw [RxCall.words, rxLastWords, rxDataReady_eq]
    have hoffered : (RxCall.ready arr).offered s
        = s.rxFifo.words ++ arr.headD [] ++ arr.tail.flatten := by
      rw [List.append_assoc, head_append_tail]
      rfl
    rw [hwords, hoffered, RxCall.incoming]
    cases hpoll : s.rxFifo.words ++ arr.headD [] with
    | nil => exact ⟨arr.tail, rfl, rfl, takes_nil s _⟩
    | cons w rest =>
      -- the flag is set, and the word is still there at the next read
      have hread : ¬ (RxCall.data arr.tail).Misreads { s with rxFifo := ⟨w :: rest, arr.tail⟩ } :=
        fun h => List.cons_ne_nil _ _ h.2.1
      obtain ⟨later, hsplit, hcall⟩ :=
        rxDataIntFunc_polled (s := { s with rxFifo := ⟨w :: rest, arr.tail⟩ }) hread
      rw [List.isEmpty_cons, Bool.not_false, if_pos rfl, hcall]
      exact ⟨later, hsplit, rfl,
        (takes_takeWords _ { s with rxFifo := ⟨w :: rest, arr.tail⟩ } ⟨[], later⟩).of_eq rfl rfl⟩

/-- A call that misreads takes payload and stays outside a packet. -/
theorem words_misread {c : RxCall} {s : State} (hread : c.Misreads s) :
    ∃ (ws : List Word) (later : List (List Word)), ws ≠ [] ∧ c.offered s = ws ++ later.flatten ∧
      (c.words s).rxFifo = ⟨[], later⟩ ∧ (c.words s).rx.rxState = .packetInit := by
  cases c with
  | ready arr => exact absurd hread id
  | data arr =>
    obtain ⟨hst, hpoll, hnext⟩ := hread
    obtain ⟨ws, later, hne, hsplit, hcall⟩ :=
      rxDataIntFunc_misread (s := { s with rxFifo.arrivals := arr }) hst hpoll hnext
    refine ⟨ws, later, hne, hsplit, ?_, ?_⟩
    · rw [RxCall.words, hcall]
    · rw [RxCall.words, hcall, storeWords_eq]
      exact hst

/-- What is left of the words is still in the FIFO. -/
theorem serve_rxFifo (c : RxCall) (s : State) : (c.serve s).rxFifo.words
    = (c.words s).rxFifo.words ++ (c.words s).rxFifo.arrivals.flatten := by
  cases c with
  | data arr => rfl
  | ready arr =>
    have hfifo := rxFinishPacket_rxFifo (rxLastWords { s with rxFifo.arrivals := arr })
    show (rxFinishPacket (rxLastWords { s with rxFifo.arrivals := arr })).rxFifo.words
      ++ (rxFinishPacket (rxLastWords { s with rxFifo.arrivals := arr })).rxFifo.arrivals.flatten = _
    rw [hfifo]
    rfl

/-- What is left in the FIFO is what has not been taken. -/
theorem taken_eq {c : RxCall} {s : State} {ws : List Word} {later : List (List Word)}
    (hsplit : c.offered s = ws ++ later.flatten) (hfifo : (c.words s).rxFifo = ⟨[], later⟩) :
    c.taken s = ws := by
  rw [RxCall.taken, serve_rxFifo, hfifo, hsplit, List.nil_append, List.length_append,
    Nat.add_sub_cancel, List.take_left]

/-- A call that completes no packet ends with its words. -/
theorem serve_open {c : RxCall} {s : State} (h : c.marker s = none) :
    (c.serve s).rx = (c.words s).rx ∧ (c.serve s).mem = (c.words s).mem := by
  cases c with
  | data arr => exact ⟨rfl, rfl⟩
  | ready arr =>
    have hzero : ¬ (rxLastWords { s with rxFifo.arrivals := arr }).rx.wrBytes ≠ 0 := by
      intro hne
      rw [RxCall.marker, RxCall.words, if_pos hne] at h
      cases h
    have hfinish : rxFinishPacket (rxLastWords { s with rxFifo.arrivals := arr })
        = rxLastWords { s with rxFifo.arrivals := arr } := if_neg hzero
    unfold RxCall.serve RxCall.words rxInterrupt
    dsimp only
    rw [rxReadyIntFunc_eq, hfinish]
    exact ⟨rfl, rfl⟩

/-- Taking words counts no packet. -/
theorem words_packetReady (c : RxCall) (s : State) :
    (c.words s).rx.packetReady = s.rx.packetReady := by
  cases c with
  | data arr => exact (writerOnly_rxDataIntFunc { s with rxFifo.arrivals := arr }).packetReady
  | ready arr => exact (writerOnly_rxLastWords { s with rxFifo.arrivals := arr }).packetReady

/-- A call that completes a packet writes its bytes as the marker. -/
theorem serve_closed {c : RxCall} {s : State} {m : Word} (h : c.marker s = some m) :
    m = (c.words s).rx.wrBytes ∧ m ≠ 0 ∧ (c.serve s).rx.rxState = .packetInit ∧
      (c.serve s).rx.wrBytes = 0 ∧
      (c.serve s).rx.packetReady = (c.words s).rx.packetReady + 1 ∧
      (c.serve s).mem.log = (c.words s).mem.log ++ [((c.words s).rx.wrPacketAddr, m)] := by
  cases c with
  | data arr => cases h
  | ready arr =>
    unfold RxCall.marker at h
    dsimp only at h
    split at h
    · rename_i hne
      obtain rfl := Option.some.inj h
      -- `wr_bytes` is written behind the packet before it is reset
      have hfinish : rxFinishPacket (rxLastWords { s with rxFifo.arrivals := arr })
          = { memWrite (rxLastWords { s with rxFifo.arrivals := arr }).rx.wrBytes
                (memSetWrP (rxLastWords { s with rxFifo.arrivals := arr }).rx.wrPacketAddr
                  (rxLastWords { s with rxFifo.arrivals := arr })) with
              rx := { (rxLastWords { s with rxFifo.arrivals := arr }).rx with
                rxState := .packetInit
                packetReady := (rxLastWords { s with rxFifo.arrivals := arr }).rx.packetReady + 1
                wrBytes := 0 } } := if_pos hne
      refine ⟨rfl, hne, ?_⟩
      unfold RxCall.serve RxCall.words rxInterrupt
      dsimp only
      rw [rxReadyIntFunc_eq, hfinish]
      exact ⟨rfl, rfl, rfl, rfl⟩
    · cases h

/-! ## Runs -/

/-- The first word taken behind a completed packet, what the call wrote to the memory, and the
state it left the writer in when it had taken its words. -/
structure PacketStart where
  word : Word
  addr : Word
  next : Word
  writes : List (Word × Word)
  rxState : RxState

/-- The word is stored as a header behind a marker, and opens a packet. -/
def PacketStart.Framed (p : PacketStart) : Prop :=
  (∃ more, p.writes = (p.addr, -1) :: (p.next, p.word) :: more) ∧ p.rxState = .packetReading

/-- The device, with the packets its handlers have seen. -/
structure RxFraming where
  dev : State
  /-- Words have been taken since the latest packet was completed. -/
  begun : Bool
  starts : List PacketStart
  /-- The markers of the completed packets. -/
  markers : List Word

/-- Before the first call. -/
def RxFraming.start (s : State) : RxFraming := ⟨s, false, [], []⟩

/-- A packet starts with the first word taken behind a completed one. -/
def RxFraming.newStarts (w : RxFraming) (c : RxCall) : List PacketStart :=
  if w.begun then []
  else
    (c.taken w.dev).head?.toList.map fun h =>
      { word := h
        addr := w.dev.rx.wrBufAddr
        next := advance w.dev.mem.writeWraps w.dev.rx.wrBufAddr
        writes := (c.serve w.dev).mem.log.drop w.dev.mem.log.length
        rxState := (c.words w.dev).rx.rxState }

/-- One call, with the packet it starts and the marker it writes. -/
def RxFraming.step (w : RxFraming) (c : RxCall) : RxFraming where
  dev := c.serve w.dev
  begun := if (c.marker w.dev).isSome then false else w.begun || !(c.taken w.dev).isEmpty
  starts := w.starts ++ w.newStarts c
  markers := w.markers ++ (c.marker w.dev).toList

/-- No packet start has been misread. -/
structure FramingKept (w : RxFraming) : Prop where
  boundary : w.dev.rx.rxState = .packetInit ↔ w.dev.rx.wrBytes = 0
  starts : ∀ p ∈ w.starts, p.Framed
  markers : ∀ m ∈ w.markers, 4 ∣ m.toNat ∧ 8 ≤ m.toNat

/-- The writer between two calls. -/
structure RxConsistent (rx : RxVars) : Prop where
  boundary : rx.rxState = .packetInit ↔ rx.wrBytes = 0
  aligned : 4 ∣ rx.wrBytes.toNat

/-- The writer is inside a packet exactly when one has begun. -/
structure FramingInv (w : RxFraming) : Prop where
  kept : FramingKept w
  rx : RxConsistent w.dev.rx
  begun : w.begun = true ↔ w.dev.rx.rxState = .packetReading

omit [Board] in
/-- No words, no bytes. -/
theorem takenBytes_nil (st : RxState) : takenBytes st [] = 0 := by
  cases st <;> rfl

omit [Board] in
/-- Marker and header count eight bytes, every other word four. -/
theorem takenBytes_cons (st : RxState) (w : Word) (ws : List Word) :
    4 ∣ takenBytes st (w :: ws) ∧ takenBytes st (w :: ws) ≠ 0 := by
  cases st with
  | packetInit =>
    simp only [takenBytes, packetBytes]
    omega
  | packetReading =>
    simp only [takenBytes, List.length_cons]
    omega

omit [Board] in
/-- The bytes are those of whole words. -/
theorem RxCall.dvd_total {c : RxCall} {s : State} (h : RxConsistent s.rx) : 4 ∣ c.total s := by
  apply Nat.dvd_add h.aligned
  cases c.incoming s with
  | nil =>
    rw [takenBytes_nil]
    exact Nat.dvd_zero 4
  | cons w ws => exact (takenBytes_cons _ w ws).1

omit [Board] in
/-- `wr_bytes` is what 32 bits hold of the bytes taken. -/
theorem Takes.toNat_wrBytes {c : RxCall} {s t : State} (h : Takes (c.incoming s) s t) :
    t.rx.wrBytes.toNat = c.total s % 2 ^ 32 := by
  rw [h.wrBytes, BitVec.toNat_add, BitVec.toNat_ofNat, Nat.add_mod_mod]
  rfl

omit [Board] in
/-- While the count does not wrap it tells a packet in progress from none. -/
theorem Takes.consistent {c : RxCall} {s t : State} (h : Takes (c.incoming s) s t)
    (hs : RxConsistent s.rx) (hwraps : ¬ c.Wraps s) : RxConsistent t.rx := by
  have hvalue := h.toNat_wrBytes
  have hdvd := RxCall.dvd_total (c := c) hs
  have hst := h.rxState
  constructor
  · cases hws : c.incoming s with
    | nil =>
      have hbytes := h.wrBytes
      rw [hws, takenBytes_nil] at hbytes
      rw [hws, if_pos rfl] at hst
      rw [hst, hbytes]
      exact hs.boundary.trans (by rw [BitVec.add_zero])
    | cons w ws =>
      rw [hws, if_neg (List.cons_ne_nil w ws)] at hst
      have htotal : c.total s ≠ 0 := by
        have htaken := (takenBytes_cons s.rx.rxState w ws).2
        rw [RxCall.total, hws]
        omega
      have hne : t.rx.wrBytes ≠ 0 := by
        intro hzero
        rw [hzero] at hvalue
        refine hwraps ⟨htotal, ?_⟩
        rw [← hvalue]
        cases c with
        | data arr => exact Nat.zero_lt_succ 3
        | ready arr => exact Nat.zero_lt_succ 7
      rw [hst]
      exact ⟨fun hinit => absurd hinit (by decide), fun hzero => absurd hzero hne⟩
  · rw [hvalue]
    omega

omit [Board] in
/-- A count that wraps is zero inside a packet, or the marker of a packet that is too short. -/
theorem Takes.wrBytes_of_wraps {c : RxCall} {s t : State} (h : Takes (c.incoming s) s t)
    (hs : RxConsistent s.rx) (hwraps : c.Wraps s) :
    (t.rx.wrBytes = 0 ∧ t.rx.rxState = .packetReading) ∨
      (∃ arr, c = .ready arr) ∧ t.rx.wrBytes = 4 := by
  obtain ⟨htotal, hless⟩ := hwraps
  have hvalue := h.toNat_wrBytes
  have hdvd := RxCall.dvd_total (c := c) hs
  have hword (n : ℕ) (hn : n < 2 ^ 32) (heq : c.total s % 2 ^ 32 = n) :
      t.rx.wrBytes = BitVec.ofNat 32 n := by
    apply BitVec.eq_of_toNat_eq
    rw [hvalue, heq, BitVec.toNat_ofNat, Nat.mod_eq_of_lt hn]
  have hreading (hzero : c.total s % 2 ^ 32 = 0) : t.rx.rxState = .packetReading := by
    cases hws : c.incoming s with
    | nil =>
      -- nothing has been taken, so the count was there before and is no multiple of `2 ^ 32`
      have hlt := s.rx.wrBytes.isLt
      rw [RxCall.total, hws, takenBytes_nil, Nat.add_zero] at htotal hzero
      rw [Nat.mod_eq_of_lt hlt] at hzero
      exact absurd hzero htotal
    | cons w ws =>
      rw [h.rxState, hws]
      exact if_neg (List.cons_ne_nil w ws)
  cases c with
  | data arr =>
    have hzero : (RxCall.data arr).total s % 2 ^ 32 = 0 := by
      rw [RxCall.least] at hless
      omega
    exact Or.inl ⟨hword 0 (by decide) hzero, hreading hzero⟩
  | ready arr =>
    by_cases hzero : (RxCall.ready arr).total s % 2 ^ 32 = 0
    · exact Or.inl ⟨hword 0 (by decide) hzero, hreading hzero⟩
    · have hfour : (RxCall.ready arr).total s % 2 ^ 32 = 4 := by
        rw [RxCall.least] at hless
        omega
      exact Or.inr ⟨⟨arr, rfl⟩, hword 4 (by decide) hfour⟩

/-- The first word of a new packet is its header. -/
theorem FramingInv.starts {w : RxFraming} {c : RxCall} (h : FramingInv w) {ws : List Word}
    (htakes : Takes ws w.dev (c.words w.dev)) (htaken : c.taken w.dev = ws) :
    ∀ p ∈ (w.step c).starts, p.Framed := by
  have hlog : ∃ more, (c.serve w.dev).mem.log = (c.words w.dev).mem.log ++ more := by
    cases hm : c.marker w.dev with
    | none => exact ⟨[], by rw [(serve_open hm).2, List.append_nil]⟩
    | some m => exact ⟨_, (serve_closed hm).2.2.2.2.2⟩
  intro p hp
  rcases List.mem_append.mp hp with hold | hnew
  · exact h.kept.starts p hold
  · unfold RxFraming.newStarts at hnew
    split at hnew
    · cases hnew
    · rename_i hbegun
      rw [htaken] at hnew
      cases ws with
      | nil => cases hnew
      | cons v ws =>
        -- nothing taken since the last packet, so the handler is in `packet_init`
        have hinit : w.dev.rx.rxState = .packetInit := by
          cases hst : w.dev.rx.rxState with
          | packetInit => rfl
          | packetReading => exact absurd (h.begun.mpr hst) hbegun
        obtain ⟨more, hmore⟩ := htakes.header v ws rfl hinit
        obtain ⟨more', hmore'⟩ := hlog
        rw [List.mem_singleton.mp hnew]
        refine ⟨⟨more ++ more', ?_⟩, htakes.rxState⟩
        dsimp only
        rw [hmore', hmore, List.append_assoc, List.drop_left]
        rfl

/-- A call that completes no packet. -/
theorem FramingInv.step_open {w : RxFraming} {c : RxCall} (h : FramingInv w) {ws : List Word}
    (htakes : Takes ws w.dev (c.words w.dev)) (htaken : c.taken w.dev = ws)
    (hwords : RxConsistent (c.words w.dev).rx) (hm : c.marker w.dev = none) :
    FramingInv (w.step c) := by
  obtain ⟨hrx, -⟩ := serve_open hm
  have hbegun : (w.step c).begun = (w.begun || !ws.isEmpty) := by
    show (if (c.marker w.dev).isSome then false else w.begun || !(c.taken w.dev).isEmpty) = _
    rw [hm, htaken]
    rfl
  have hdev : (w.step c).dev.rx = (c.words w.dev).rx := hrx
  refine ⟨⟨?_, h.starts htakes htaken, ?_⟩, ?_, ?_⟩
  · rw [hdev]
    exact hwords.boundary
  · show ∀ m ∈ w.markers ++ (c.marker w.dev).toList, _
    rw [hm, Option.toList_none, List.append_nil]
    exact h.kept.markers
  · rw [hdev]
    exact hwords
  · rw [hbegun, hdev, htakes.rxState]
    cases ws with
    | nil =>
      rw [List.isEmpty_nil, Bool.not_true, Bool.or_false, if_pos rfl]
      exact h.begun
    | cons v ws =>
      rw [List.isEmpty_cons, Bool.not_false, Bool.or_true, if_neg (List.cons_ne_nil v ws)]
      exact ⟨fun _ => rfl, fun _ => rfl⟩

/-- A call of `rx_ready_int_func` that completes a packet. Its marker is the count before the
reset. -/
theorem FramingInv.step_closed {w : RxFraming} {c : RxCall} (h : FramingInv w) {ws : List Word}
    (htakes : Takes ws w.dev (c.words w.dev)) (htaken : c.taken w.dev = ws)
    (hwords : RxConsistent (c.words w.dev).rx) {m : Word} (hm : c.marker w.dev = some m)
    (hleast : 8 ≤ m.toNat) : FramingInv (w.step c) := by
  obtain ⟨hmarker, -, hst, hbytes, -, -⟩ := serve_closed hm
  have hbegun : (w.step c).begun = false := by
    show (if (c.marker w.dev).isSome then false else w.begun || !(c.taken w.dev).isEmpty) = _
    rw [hm]
    rfl
  have hst' : (w.step c).dev.rx.rxState = .packetInit := hst
  have hbytes' : (w.step c).dev.rx.wrBytes = 0 := hbytes
  have hboundary : (w.step c).dev.rx.rxState = .packetInit ↔ (w.step c).dev.rx.wrBytes = 0 := by
    rw [hst', hbytes']
    exact ⟨fun _ => rfl, fun _ => rfl⟩
  refine ⟨⟨hboundary, h.starts htakes htaken, ?_⟩, ⟨hboundary, ?_⟩, ?_⟩
  · intro m' hm'
    rcases List.mem_append.mp hm' with hold | hnew
    · exact h.kept.markers m' hold
    · rw [hm] at hnew
      rw [List.mem_singleton.mp hnew]
      refine ⟨?_, hleast⟩
      rw [hmarker]
      exact hwords.aligned
  · rw [hbytes']
    exact Nat.dvd_zero 4
  · rw [hbegun, hst']
    exact ⟨fun hb => absurd hb (by decide), fun hr => absurd hr (by decide)⟩

/-- **Call.** Without a misread or a wrap the framing is kept. -/
theorem FramingInv.step {w : RxFraming} {c : RxCall} (h : FramingInv w)
    (hread : ¬ c.Misreads w.dev) (hwraps : ¬ c.Wraps w.dev) : FramingInv (w.step c) := by
  obtain ⟨later, hsplit, hfifo, htakes⟩ := words_spec hread
  have htaken := taken_eq hsplit hfifo
  have hwords := htakes.consistent h.rx hwraps
  cases hm : c.marker w.dev with
  | none => exact h.step_open htakes htaken hwords hm
  | some m =>
    refine h.step_closed htakes htaken hwords hm ?_
    obtain ⟨hmarker, hne, -⟩ := serve_closed hm
    have hvalue := htakes.toNat_wrBytes
    rw [← hmarker] at hvalue
    have htotal : c.total w.dev ≠ 0 := by
      intro hzero
      rw [hzero] at hvalue
      exact hne (BitVec.eq_of_toNat_eq hvalue)
    cases c with
    | data arr => cases hm
    | ready arr =>
      rw [hvalue]
      by_contra hless
      exact hwraps ⟨htotal, Nat.lt_of_not_le hless⟩

/-- A misread takes the first word of a packet for payload. -/
theorem FramingInv.not_misreads {w : RxFraming} {c : RxCall} (h : FramingInv w)
    (hkept : FramingKept (w.step c)) : ¬ c.Misreads w.dev := by
  intro hread
  obtain ⟨ws, later, hne, hsplit, hfifo, hst⟩ := words_misread hread
  obtain ⟨v, rest, rfl⟩ := List.exists_cons_of_ne_nil hne
  have hinit : w.dev.rx.rxState = .packetInit := by
    cases c with
    | data arr => exact hread.1
    | ready arr => exact absurd hread id
  have hbegun : w.begun = false := by
    rw [Bool.eq_false_iff, ne_eq, h.begun, hinit]
    decide
  -- the word starts a packet, but the writer is still outside one
  let p : PacketStart :=
    { word := v
      addr := w.dev.rx.wrBufAddr
      next := advance w.dev.mem.writeWraps w.dev.rx.wrBufAddr
      writes := (c.serve w.dev).mem.log.drop w.dev.mem.log.length
      rxState := (c.words w.dev).rx.rxState }
  have hstart : p ∈ (w.step c).starts := by
    refine List.mem_append_right _ ?_
    rw [RxFraming.newStarts, hbegun, taken_eq hsplit hfifo]
    exact List.mem_singleton_self p
  have hreading : (c.words w.dev).rx.rxState = .packetReading := (hkept.starts p hstart).2
  rw [hst] at hreading
  cases hreading

/-- A wrapped count is zero inside a packet, or too small a marker. -/
theorem FramingInv.not_wraps {w : RxFraming} {c : RxCall} (h : FramingInv w)
    (hread : ¬ c.Misreads w.dev) (hkept : FramingKept (w.step c)) : ¬ c.Wraps w.dev := by
  intro hwraps
  obtain ⟨later, -, -, htakes⟩ := words_spec hread
  rcases htakes.wrBytes_of_wraps h.rx hwraps with ⟨hzero, hst⟩ | ⟨⟨arr, rfl⟩, hfour⟩
  · have hm : c.marker w.dev = none := by
      cases c with
      | data arr => rfl
      | ready arr => exact if_neg (not_not.mpr hzero)
    have hboundary := hkept.boundary
    have hdev : (w.step c).dev.rx = (c.words w.dev).rx := (serve_open hm).1
    rw [hdev, hst] at hboundary
    exact absurd (hboundary.mpr hzero) (by decide)
  · have hm : (RxCall.ready arr).marker w.dev = some 4 := by
      have hne : ((RxCall.ready arr).words w.dev).rx.wrBytes ≠ 0 := by
        rw [hfour]
        decide
      rw [RxCall.marker, if_pos hne, hfour]
    have hmem : (4 : Word) ∈ (w.step (.ready arr)).markers := by
      refine List.mem_append_right _ ?_
      rw [hm]
      exact List.mem_singleton_self 4
    exact absurd (hkept.markers 4 hmem).2 (by decide)

/-- **Packet starts.** From an idle writer on, every packet starts with its header behind a marker
exactly if no call of `rx_data_int_func` outside a packet finds the flag clear at its first read
and set at the next, and the count of bytes does not wrap. -/
theorem packet_starts_iff {s : State} (hinit : s.rx.rxState = .packetInit) (hbytes : s.rx.wrBytes = 0)
    (calls : List RxCall) :
    Run.Always RxFraming.step FramingKept (RxFraming.start s) calls ↔
      Run.Steps RxFraming.step (fun w c => ¬ c.Misreads w.dev ∧ ¬ c.Wraps w.dev)
        (RxFraming.start s) calls := by
  have hboundary : s.rx.rxState = .packetInit ↔ s.rx.wrBytes = 0 := ⟨fun _ => hbytes, fun _ => hinit⟩
  have hstart : FramingInv (RxFraming.start s) := by
    refine ⟨⟨hboundary, ?_, ?_⟩, ⟨hboundary, ?_⟩, ?_⟩
    · intro p hp
      cases hp
    · intro m hm
      cases hm
    · show 4 ∣ s.rx.wrBytes.toNat
      rw [hbytes]
      exact Nat.dvd_zero 4
    · show false = true ↔ s.rx.rxState = .packetReading
      rw [hinit]
      exact ⟨fun hb => absurd hb (by decide), fun hr => absurd hr (by decide)⟩
  have hevery : Run.Steps RxFraming.step (fun _ _ => True) (RxFraming.start s) calls :=
    Run.steps_of_forall fun _ _ _ => trivial
  refine Run.always_iff_steps (I := FramingInv) ?_ ?_ hstart hstart.kept hevery
  · intro w c h _ hC
    have hnext := h.step hC.1 hC.2
    exact ⟨hnext, hnext.kept⟩
  · intro w c h _ hkept
    have hread := h.not_misreads hkept
    exact ⟨hread, h.not_wraps hread hkept⟩

end

/-- A packet whose words come in two calls, then a late call for the drained FIFO, then the header
of the next packet. -/
theorem packet_starts_two_packets :
    letI := plainDram
    Run.Always RxFraming.step FramingKept (RxFraming.start bootState)
      [.data [[0x800], [7]], .ready [[8]], .data [[]], .data [[9]]] := by
  let := plainDram
  refine (packet_starts_iff rfl rfl _).mpr ?_
  decide +kernel

/-- The interrupt of a FIFO that `rx_ready_int_func` has drained, served just before the next
header comes. -/
def lateCall : List RxCall := [.ready [[0x800, 7]], .data [[], [0x900]]]

/-- The header is taken for payload. -/
theorem header_misread :
    letI := plainDram
    ¬ Run.Always RxFraming.step FramingKept (RxFraming.start bootState) lateCall := by
  let := plainDram
  intro h
  have hst : (Run.run RxFraming.step (RxFraming.start bootState) lateCall).dev.rx.rxState
      = .packetInit := by decide +kernel
  have hbytes : (Run.run RxFraming.step (RxFraming.start bootState) lateCall).dev.rx.wrBytes
      = 4 := by decide +kernel
  have hlast := h.last
  generalize Run.run RxFraming.step (RxFraming.start bootState) lateCall = w at hst hbytes hlast
  have hzero := hlast.boundary.mp hst
  rw [hbytes] at hzero
  exact absurd hzero (by decide)

end HbcMac
