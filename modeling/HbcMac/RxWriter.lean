import HbcMac.ExtractRx
import HbcMac.MemTheorems
import HbcMac.System

/-!
# What the receive handlers do

Each handler as one update of the state: `storeWords ws` is the drain loop after it has
taken the words `ws` from the FIFO, `startPacket h` the header branch for the header `h`,
`finishPacket` the marker. Then the same in ring cursors, as long as the write pointer
stays in the receive half.
-/

namespace HbcMac

section
variable [Board]

/-! ## The drain loop -/

/-- Payload words as they are stored, with the keystream from position `pos` on. -/
def descramble (seed : Bool) : ℕ → List Word → List Word
  | _, [] => []
  | pos, w :: ws => (w ^^^ Board.keystream seed pos) :: descramble seed (pos + 1) ws

/-- Descrambling keeps the number of words. -/
@[simp] theorem length_descramble (seed : Bool) (pos : ℕ) (ws : List Word) :
    (descramble seed pos ws).length = ws.length := by
  induction ws generalizing pos with
  | nil => rfl
  | cons w ws ih => rw [descramble, List.length_cons, List.length_cons, ih]

/-- The keystream goes on from chunk to chunk. -/
theorem descramble_append (seed : Bool) (pos : ℕ) (ws ws' : List Word) :
    descramble seed pos (ws ++ ws')
      = descramble seed pos ws ++ descramble seed (pos + ws.length) ws' := by
  induction ws generalizing pos with
  | nil => rfl
  | cons w ws ih =>
    rw [List.cons_append, descramble, ih, descramble, List.length_cons, List.cons_append,
      Nat.add_right_comm, Nat.add_assoc]

/-- Each word has its own place in the keystream. -/
theorem getElem_descramble (seed : Bool) (pos : ℕ) (ws : List Word) (i : ℕ)
    (h : i < (descramble seed pos ws).length) (hi : i < ws.length) :
    (descramble seed pos ws)[i] = ws[i] ^^^ Board.keystream seed (pos + i) := by
  induction ws generalizing pos i with
  | nil => cases hi
  | cons w ws ih =>
    cases i with
    | zero => rfl
    | succ i =>
      simp only [descramble, List.getElem_cons_succ]
      rw [ih (pos + 1) i _ (Nat.lt_of_succ_lt_succ hi), Nat.add_right_comm, Nat.add_assoc]

/-- One pass of the drain loop for the word `w`. -/
def storeWord (w : Word) (s : State) : State :=
  { s with
    mem := s.mem.write (w ^^^ Board.keystream s.scram.seed s.scram.pos)
    scram.pos := s.scram.pos + 1
    rx.wrBufAddr := ringNext s.rx.wrBufAddr
    rx.wrBytes := s.rx.wrBytes + 4 }

/-- The drain loop for the words `ws`. -/
def storeWords (ws : List Word) (s : State) : State := ws.foldl (fun s w => storeWord w s) s

@[simp] theorem storeWords_nil (s : State) : storeWords [] s = s := rfl

@[simp] theorem storeWords_cons (w : Word) (ws : List Word) (s : State) :
    storeWords (w :: ws) s = storeWords ws (storeWord w s) := rfl

/-- What storing words comes to. -/
theorem storeWords_eq (ws : List Word) (s : State) :
    storeWords ws s = { s with
      mem := s.mem.writes (descramble s.scram.seed s.scram.pos ws)
      scram.pos := s.scram.pos + ws.length
      rx.wrBufAddr := ringNext^[ws.length] s.rx.wrBufAddr
      rx.wrBytes := s.rx.wrBytes + BitVec.ofNat 32 (4 * ws.length) } := by
  induction ws generalizing s with
  | nil => simp [descramble]
  | cons w ws ih =>
    rw [storeWords_cons, ih]
    simp only [storeWord, descramble, Mem.writes_cons, List.length_cons, Function.iterate_succ,
      Function.comp_apply, Nat.mul_add, Nat.mul_one, BitVec.ofNat_add]
    congr 1
    · congr 1
      omega
    · congr 1
      rw [BitVec.add_assoc, BitVec.add_comm 4]
      rfl

theorem storeWords_rxFifo (ws : List Word) (s : State) (f : RxFifo) :
    storeWords ws { s with rxFifo := f } = { storeWords ws s with rxFifo := f } := by
  rw [storeWords_eq, storeWords_eq]

omit [Board] in
/-- The data flag and the FIFO once the words due before this poll have arrived. -/
theorem rxDataReady_eq (s : State) : rxDataReady s
    = (!(s.rxFifo.words ++ s.rxFifo.arrivals.headD []).isEmpty, { s with
        rxFifo := ⟨s.rxFifo.words ++ s.rxFifo.arrivals.headD [], s.rxFifo.arrivals.tail⟩ }) := by
  unfold rxDataReady
  split
  · rename_i h
    have hsame : s.rxFifo = ⟨s.rxFifo.words, []⟩ := by rw [← h]
    rw [h, List.headD_nil, List.append_nil, List.tail_nil, ← hsame]
  · rename_i ws later h
    rw [h]
    rfl

/-- The words a loop takes that polls the flag before each of them, with `ws` in the FIFO and the
batches `arr` on their way. -/
def polled : List Word → List (List Word) → List Word
  | ws, [] => ws
  | ws, batch :: arr =>
    match ws ++ batch with
    | [] => []
    | w :: rest => w :: polled rest arr

/-- The batches such a loop leaves on their way. -/
def unpolled : List Word → List (List Word) → List (List Word)
  | _, [] => []
  | ws, batch :: arr =>
    match ws ++ batch with
    | [] => arr
    | _ :: rest => unpolled rest arr

omit [Board] in
/-- A poll that finds nothing ends the loop. -/
theorem polled_none {ws : List Word} {arr : List (List Word)} (h : ws ++ arr.headD [] = []) :
    polled ws arr = [] ∧ unpolled ws arr = arr.tail := by
  cases arr with
  | nil =>
    rw [List.headD_nil, List.append_nil] at h
    rw [h]
    exact ⟨rfl, rfl⟩
  | cons batch arr =>
    rw [List.headD_cons] at h
    rw [polled, unpolled, h]
    exact ⟨rfl, rfl⟩

omit [Board] in
/-- One that finds a word goes on. -/
theorem polled_some {ws rest : List Word} {w : Word} {arr : List (List Word)}
    (h : ws ++ arr.headD [] = w :: rest) :
    polled ws arr = w :: polled rest arr.tail ∧ unpolled ws arr = unpolled rest arr.tail := by
  cases arr with
  | nil =>
    rw [List.headD_nil, List.append_nil] at h
    rw [h]
    exact ⟨rfl, rfl⟩
  | cons batch arr =>
    rw [List.headD_cons] at h
    rw [polled, unpolled, h]
    exact ⟨rfl, rfl⟩

omit [Board] in
theorem head_append_tail (arr : List (List Word)) : arr.headD [] ++ arr.tail.flatten = arr.flatten := by
  cases arr with
  | nil => rfl
  | cons ws arr => rfl

omit [Board] in
/-- No word is lost between the polls. -/
theorem polled_append_unpolled (ws : List Word) (arr : List (List Word)) :
    ws ++ arr.flatten = polled ws arr ++ (unpolled ws arr).flatten := by
  induction arr generalizing ws with
  | nil => rfl
  | cons batch arr ih =>
    rw [List.flatten_cons, ← List.append_assoc]
    cases h : ws ++ batch with
    | nil => rw [polled, unpolled, h]
    | cons w rest =>
      rw [polled, unpolled, h, List.cons_append, ih, List.cons_append]

/-- **Drain loop.** With enough fuel the loop stores the words its polls find, and leaves the FIFO
empty at its last poll. -/
theorem rxDrain_eq (fuel : ℕ) (s : State) (hfuel : rxFifoTotal s < fuel) :
    rxDrain fuel s = { storeWords (polled s.rxFifo.words s.rxFifo.arrivals) s with
      rxFifo := ⟨[], unpolled s.rxFifo.words s.rxFifo.arrivals⟩ } := by
  induction fuel generalizing s with
  | zero => cases hfuel
  | succ fuel ih =>
    rw [rxDrain, rxDataReady_eq]
    cases h : s.rxFifo.words ++ s.rxFifo.arrivals.headD [] with
    | nil =>
      rw [(polled_none h).1, (polled_none h).2]
      rfl
    | cons w rest =>
      have hstore : rxStoreWord { s with rxFifo := ⟨w :: rest, s.rxFifo.arrivals.tail⟩ }
          = { storeWord w s with rxFifo := ⟨rest, s.rxFifo.arrivals.tail⟩ } := rfl
      have htotal : rxFifoTotal s = rest.length + s.rxFifo.arrivals.tail.flatten.length + 1 := by
        rw [rxFifoTotal, ← List.length_append, ← head_append_tail, ← List.append_assoc, h,
          List.length_append, List.length_cons, Nat.add_right_comm]
      rw [(polled_some h).1, (polled_some h).2]
      simp only [List.isEmpty_cons, Bool.not_false, if_true]
      have hrest : rxFifoTotal { storeWord w s with
          rxFifo := ⟨rest, s.rxFifo.arrivals.tail⟩ } < fuel := by
        rw [htotal] at hfuel
        exact Nat.lt_of_succ_lt_succ hfuel
      rw [hstore, ih _ hrest, storeWords_rxFifo, storeWords_cons]

/-- The drain loop on words that are all in the FIFO. -/
theorem rxDrain_words (ws : List Word) (fuel : ℕ) (s : State) (hfuel : ws.length < fuel) :
    rxDrain fuel { s with rxFifo := ⟨ws, []⟩ } = { storeWords ws s with rxFifo := ⟨[], []⟩ } := by
  have htotal : rxFifoTotal { s with rxFifo := ⟨ws, []⟩ } < fuel := hfuel
  rw [rxDrain_eq fuel _ htotal, storeWords_rxFifo]
  rfl

/-! ## The handlers -/

/-- The header branch for the header `h`. -/
def startPacket (h : Word) (s : State) : State :=
  { s with
    mem := (s.mem.write (-1)).write h
    scram := ⟨hdrRead h hdrSsMask hdrSsShift != 0, 0⟩
    rx.wrPacketAddr := s.rx.wrBufAddr
    rx.wrBufAddr := ringNext (ringNext s.rx.wrBufAddr)
    rx.rxState := .packetReading
    rx.wrBytes := s.rx.wrBytes + 8 }

/-- The words of one call: the first is a header when no packet is in progress. -/
def takeWords (ws : List Word) (s : State) : State :=
  match s.rx.rxState, ws with
  | .packetReading, ws => storeWords ws s
  | .packetInit, [] => s
  | .packetInit, h :: ws => storeWords ws (startPacket h s)

/-- Inside a packet all words are payload. -/
theorem takeWords_reading {s : State} (h : s.rx.rxState = .packetReading) (p : Word)
    (ws : List Word) : takeWords ws (memSetWrP p s) = storeWords ws (memSetWrP p s) := by
  simp only [takeWords, memSetWrP, h]

/-- Between packets the first is a header. -/
theorem takeWords_header {s : State} (h : s.rx.rxState = .packetInit) (p w : Word)
    (ws : List Word) :
    takeWords (w :: ws) (memSetWrP p s) = storeWords ws (startPacket w (memSetWrP p s)) := by
  simp only [takeWords, memSetWrP, h]

/-- No word, no packet. -/
theorem takeWords_none {s : State} (h : s.rx.rxState = .packetInit) (p : Word) :
    takeWords [] (memSetWrP p s) = memSetWrP p s := by
  simp only [takeWords, memSetWrP, h]

/-- `rx_data_int_func` when the words `ws` are in the FIFO at its first poll. -/
theorem rxDataIntFunc_words (s : State) (ws : List Word) :
    rxDataIntFunc { s with rxFifo := ⟨ws, []⟩ }
      = { takeWords ws (memSetWrP s.rx.wrBufAddr s) with rxFifo := ⟨[], []⟩ } := by
  cases hst : s.rx.rxState with
  | packetInit =>
    cases ws with
    | nil => simp [rxDataIntFunc, takeWords, memSetWrP, hst, rxDataReady, rxDrain]
    | cons h ws =>
      have hstart : rxDataIntFunc { s with rxFifo := ⟨h :: ws, []⟩ }
          = rxDrain (ws.length + 1)
            { startPacket h (memSetWrP s.rx.wrBufAddr s) with rxFifo := ⟨ws, []⟩ } := by
        unfold rxDataIntFunc
        simp only [memSetWrP, hst, if_true]
        rfl
      rw [hstart, rxDrain_words ws _ _ (Nat.lt_succ_self _), takeWords_header hst]
  | packetReading =>
    have hloop : rxDataIntFunc { s with rxFifo := ⟨ws, []⟩ }
        = rxDrain (ws.length + 1) { memSetWrP s.rx.wrBufAddr s with rxFifo := ⟨ws, []⟩ } := by
      unfold rxDataIntFunc
      simp only [memSetWrP, hst]
      rfl
    rw [hloop, rxDrain_words ws _ _ (Nat.lt_succ_self _), takeWords_reading hst]

/-- Words that arrive just before the first poll are as good as words in the FIFO. -/
theorem rxDataIntFunc_arrive (s : State) (ws : List Word) :
    rxDataIntFunc { s with rxFifo := ⟨[], [ws]⟩ } = rxDataIntFunc { s with rxFifo := ⟨ws, []⟩ } := by
  cases hst : s.rx.rxState with
  | packetInit => cases ws <;> simp [rxDataIntFunc, memSetWrP, hst, rxDataReady, rxDrain]
  | packetReading =>
    have hloop (f : RxFifo) : rxDataIntFunc { s with rxFifo := f }
        = rxDrain (f.words.length + f.arrivals.flatten.length + 1)
          { memSetWrP s.rx.wrBufAddr s with rxFifo := f } := by
      unfold rxDataIntFunc
      simp only [memSetWrP, hst]
      rfl
    have hpoll (n : ℕ) (t : State) : rxDrain (n + 1) { t with rxFifo := ⟨[], [ws]⟩ }
        = rxDrain (n + 1) { t with rxFifo := ⟨ws, []⟩ } := rfl
    rw [hloop, hloop, hpoll]
    simp

/-- `rx_ready_int_func` when the words `ws` are in the FIFO at its first poll. -/
theorem rxReadyIntFunc_arrive (s : State) (ws : List Word) :
    rxReadyIntFunc { s with rxFifo := ⟨[], [ws]⟩ }
      = (rxFinishPacket (if ws = [] then { s with rxFifo := ⟨[], []⟩ }
          else rxDataIntFunc { s with rxFifo := ⟨ws, []⟩ })).pulse .hbcRxPktAck := by
  cases ws <;> rfl

theorem takeWords_rxFifo (ws : List Word) (s : State) : (takeWords ws s).rxFifo = s.rxFifo := by
  unfold takeWords
  split
  · rw [storeWords_eq]
  · rfl
  · rw [storeWords_eq]
    rfl

theorem rxFinishPacket_rxFifo (s : State) : (rxFinishPacket s).rxFifo = s.rxFifo := by
  unfold rxFinishPacket
  split <;> rfl

omit [Board] in
/-- Nothing is left to settle after a handler that emptied the FIFO. -/
theorem rxInterrupt_eq {handler : State → State} {arr : List (List Word)} {s t : State}
    (h : handler { s with rxFifo.arrivals := arr } = t) (ht : t.rxFifo = ⟨[], []⟩) :
    rxInterrupt handler arr s = t := by
  rw [rxInterrupt, h]
  simp only [ht, List.flatten_nil, List.append_nil]
  rw [← ht]

section
variable {s : State} (hf : s.rxFifo = ⟨[], []⟩)
include hf

/-- The data handler on words that are there at its first poll. -/
theorem rxData_interrupt (ws : List Word) :
    rxInterrupt rxDataIntFunc [ws] s = takeWords ws (memSetWrP s.rx.wrBufAddr s) := by
  have hrest : (takeWords ws (memSetWrP s.rx.wrBufAddr s)).rxFifo = ⟨[], []⟩ :=
    (takeWords_rxFifo ws _).trans hf
  refine rxInterrupt_eq ?_ hrest
  rw [hf, rxDataIntFunc_arrive, rxDataIntFunc_words, ← hrest]

/-- The ready handler on them. -/
theorem rxReady_interrupt (ws : List Word) :
    rxInterrupt rxReadyIntFunc [ws] s
      = (rxFinishPacket (if ws = [] then s
          else takeWords ws (memSetWrP s.rx.wrBufAddr s))).pulse .hbcRxPktAck := by
  have hrest : (takeWords ws (memSetWrP s.rx.wrBufAddr s)).rxFifo = ⟨[], []⟩ :=
    (takeWords_rxFifo ws _).trans hf
  refine rxInterrupt_eq ?_ ?_
  · rw [hf, rxReadyIntFunc_arrive]
    by_cases hws : ws = []
    · rw [if_pos hws, if_pos hws, ← hf]
    · rw [if_neg hws, if_neg hws, rxDataIntFunc_words, ← hrest]
  · refine (rxFinishPacket_rxFifo _).trans ?_
    split
    · exact hf
    · exact hrest

end

end

end HbcMac
