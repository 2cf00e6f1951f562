import HbcMac.Lib.Run
import HbcMac.RxRing
import HbcMac.TxFrame

/-!
# Descrambling and transmissions

Receive interrupts and frames in any order. Sender and receiver share one scrambler: a frame
built while a packet is in progress leaves it where the frame ended, and the handler that
stores the rest of the packet does not put it back.
-/

namespace HbcMac

/-! ## Runs -/

/-- What uses the scrambler. The words of a handler call are all there before its first poll. -/
inductive AirEvent
  /-- `rx_data_int_func` draining these words. -/
  | rxData (ws : List Word)
  /-- `rx_ready_int_func`, draining these words first. -/
  | rxReady (ws : List Word)
  /-- A frame built by the main loop from this header and this address. -/
  | frame (loopback : Bool) (headerInfo : PlcpHeader) (addr : Word)

/-- The firmware with the words of the packet in progress, the payload words stored of it, and
both for the packets completed so far. -/
structure AirSys where
  dev : State
  current : List Word
  stored : List Word
  packets : List (List Word × List Word)

/-- The words written to memory between two states. -/
def logged (s s' : State) : List Word := (s'.mem.log.drop s.mem.log.length).map Prod.snd

section
variable [Board]

/-- A transmit branch of the main loop around its protected region. -/
def transmit (loopback : Bool) (headerInfo : PlcpHeader) (addr : Word) (s : State) : State :=
  let s := if loopback then s else rxDisable s
  let s := { s with main := { s.main with headerInfo := headerInfo } }
  let s := (sendFrame (memSetRdP addr s)).2
  if loopback then s else rxEnable s

namespace AirSys

/-- The first call for a packet writes marker and header ahead of the payload words, and
`rx_ready_int_func` the marker again behind them. -/
def step (y : AirSys) : AirEvent → AirSys
  | .rxData ws =>
    let dev := rxInterrupt rxDataIntFunc [ws] y.dev
    { y with
      dev := dev
      current := y.current ++ ws
      stored := y.stored ++ (logged y.dev dev).drop (if y.current = [] then 2 else 0) }
  | .rxReady ws =>
    let dev := rxInterrupt rxReadyIntFunc [ws] y.dev
    let payload := ((logged y.dev dev).drop (if y.current = [] then 2 else 0)).dropLast
    if y.current ++ ws = [] then { y with dev := dev }
    else
      { dev := dev
        current := []
        stored := []
        packets := y.packets ++ [(y.current ++ ws, y.stored ++ payload)] }
  | .frame loopback headerInfo addr =>
    { y with dev := transmit loopback headerInfo addr y.dev }

/-- The payload words stored of a packet are the received ones, each with the keystream word
of its own index under the seed of the packet's own header. -/
def Descrambled : List Word → List Word → Prop
  | [], stored => stored = []
  | h :: ws, stored => stored = descramble (headerSeed h) 0 ws

/-- The payload behind the header. -/
theorem descrambled_iff_tail (words stored : List Word) :
    Descrambled words stored ↔ stored = (packetBody words).tail := by
  cases words <;> rfl

/-- Every payload word stored so far is descrambled as its packet asks. -/
def AllDescrambled (y : AirSys) : Prop :=
  Descrambled y.current y.stored ∧ ∀ p ∈ y.packets, Descrambled p.1 p.2

/-- Nothing has been received. -/
def boot (s : State) : AirSys := ⟨s, [], [], []⟩

end AirSys

end

/-! ## The ledger -/

/-- What the events say: the packet in progress, and where the scrambler stands. -/
structure AirLedger where
  current : List Word
  scram : Scrambler

namespace AirLedger

/-- The scrambler after the words of one call. -/
def take (l : AirLedger) (ws : List Word) : Scrambler :=
  match l.current, ws with
  | [], [] => l.scram
  | [], h :: ws => ⟨headerSeed h, ws.length⟩
  | _ :: _, ws => ⟨l.scram.seed, l.scram.pos + ws.length⟩

/-- What the events alone say. -/
def step (l : AirLedger) : AirEvent → AirLedger
  | .rxData ws => ⟨l.current ++ ws, l.take ws⟩
  | .rxReady ws => ⟨[], l.take ws⟩
  | .frame _ headerInfo _ =>
    { l with scram := ⟨headerInfo.scramblerSeed != 0, (payloadWords headerInfo.pdsuLength).toNat⟩ }

/-- When payload words come for a packet in progress, the scrambler stands where the packet
has got to: no frame has been sent since its header, or one with its seed and its length. -/
def AlignedFor (l : AirLedger) (ws : List Word) : Prop :=
  match l.current with
  | [] => True
  | h :: p => ws ≠ [] → l.scram = ⟨headerSeed h, p.length⟩

/-- The scrambler is aligned for the words of a reception. -/
def Aligned (l : AirLedger) : AirEvent → Prop
  | .rxData ws => l.AlignedFor ws
  | .rxReady ws => l.AlignedFor ws
  | .frame _ _ _ => True

/-- The bytes of the packet fit the 32-bit counter of the writer. -/
def Counted (l : AirLedger) : AirEvent → Prop
  | .rxReady ws => packetBytes (l.current ++ ws) < 2 ^ 32
  | _ => True

end AirLedger

section
variable [Board]

/-! ## What the calls write -/

omit [Board] in
theorem logged_of_append {s s' : State} {new : List (Word × Word)}
    (h : s'.mem.log = s.mem.log ++ new) : logged s s' = new.map Prod.snd := by
  rw [logged, h, List.drop_left]

theorem map_snd_writes (ws : List Word) (m : Mem) :
    ∃ new, (m.writes ws).log = m.log ++ new ∧ new.map Prod.snd = ws := by
  induction ws generalizing m with
  | nil => exact ⟨[], (List.append_nil _).symm, rfl⟩
  | cons w ws ih =>
    obtain ⟨new, hlog, hnew⟩ := ih (m.write w)
    refine ⟨(m.wrP, w) :: new, ?_, by rw [List.map_cons, hnew]⟩
    rw [Mem.writes_cons, hlog, Mem.write_log, List.append_assoc, List.singleton_append]

/-- The ledger tells the writer and the scrambler. -/
structure InStep (y : AirSys) (l : AirLedger) : Prop where
  rxFifo : y.dev.rxFifo = ⟨[], []⟩
  current : y.current = l.current
  scram : y.dev.scram = l.scram
  rxState : y.dev.rx.rxState = if l.current = [] then .packetInit else .packetReading
  wrBytes : y.dev.rx.wrBytes = BitVec.ofNat 32 (packetBytes l.current)

/-- The payload words among `ws`. -/
def payloadOf (l : AirLedger) (ws : List Word) : List Word :=
  match l.current, ws with
  | [], ws => ws.tail
  | _ :: _, ws => ws

/-- The keystream they are stored with starts here. -/
def payloadFrom (l : AirLedger) (ws : List Word) : Scrambler :=
  match l.current, ws with
  | [], [] => l.scram
  | [], h :: _ => ⟨headerSeed h, 0⟩
  | _ :: _, _ => l.scram

/-- What a call of `rx_data_int_func` writes behind marker and header. -/
def writtenPayload (l : AirLedger) (ws : List Word) : List Word :=
  descramble (payloadFrom l ws).seed (payloadFrom l ws).pos (payloadOf l ws)

/-- What it writes ahead of them. -/
def writtenHead (l : AirLedger) (ws : List Word) : List Word :=
  match l.current, ws with
  | [], h :: _ => [-1, h]
  | _, _ => []

/-- **A call of `rx_data_int_func`** on a device in step with the ledger. -/
theorem takeWords_inStep {y : AirSys} {l : AirLedger} (h : InStep y l) (ws : List Word) :
    let s := takeWords ws (memSetWrP y.dev.rx.wrBufAddr y.dev)
    (∃ new, s.mem.log = y.dev.mem.log ++ new ∧
      new.map Prod.snd = writtenHead l ws ++ writtenPayload l ws) ∧
    s.rxFifo = ⟨[], []⟩ ∧ s.scram = l.take ws ∧
    s.rx.rxState = (if l.current ++ ws = [] then .packetInit else .packetReading) ∧
    s.rx.wrBytes = BitVec.ofNat 32 (packetBytes (l.current ++ ws)) := by
  obtain ⟨current, scram⟩ := l
  have hscram : y.dev.scram = scram := h.scram
  have hstate := h.rxState
  have hbytes := h.wrBytes
  simp only at hstate hbytes
  cases current with
  | nil =>
    rw [if_pos rfl] at hstate
    cases ws with
    | nil =>
      -- no word, no header
      have htake : takeWords [] (memSetWrP y.dev.rx.wrBufAddr y.dev)
          = memSetWrP y.dev.rx.wrBufAddr y.dev := by
        simp only [takeWords, memSetWrP, hstate]
      rw [htake]
      exact ⟨⟨[], (List.append_nil _).symm, rfl⟩, h.rxFifo, hscram, hstate, hbytes⟩
    | cons w ws =>
      have htake : takeWords (w :: ws) (memSetWrP y.dev.rx.wrBufAddr y.dev)
          = storeWords ws (startPacket w (memSetWrP y.dev.rx.wrBufAddr y.dev)) := by
        simp only [takeWords, memSetWrP, hstate]
      rw [htake, storeWords_eq]
      -- marker and header are logged ahead of the payload
      obtain ⟨new, hlog, hnew⟩ := map_snd_writes (descramble (headerSeed w) 0 ws)
        (startPacket w (memSetWrP y.dev.rx.wrBufAddr y.dev)).mem
      refine ⟨⟨[(y.dev.rx.wrBufAddr, -1),
        (advance y.dev.mem.writeWraps y.dev.rx.wrBufAddr, w)] ++ new, ?_, ?_⟩, h.rxFifo, ?_, rfl, ?_⟩
      · refine hlog.trans ?_
        simp only [startPacket, memSetWrP, Mem.write_log, List.append_assoc, List.cons_append,
          List.nil_append]
        rfl
      · rw [List.map_append, hnew]
        rfl
      · simp only [startPacket, Nat.zero_add]
        rfl
      · simp only [startPacket, memSetWrP, hbytes, List.nil_append, packetBytes, BitVec.ofNat_add]
        rfl
  | cons w p =>
    rw [if_neg (List.cons_ne_nil w p)] at hstate
    have htake : takeWords ws (memSetWrP y.dev.rx.wrBufAddr y.dev)
        = storeWords ws (memSetWrP y.dev.rx.wrBufAddr y.dev) := by
      simp only [takeWords, memSetWrP, hstate]
    rw [htake, storeWords_eq]
    -- the scrambler goes on from where it stands, frame or no frame
    obtain ⟨new, hlog, hnew⟩ := map_snd_writes (descramble scram.seed scram.pos ws)
      (memSetWrP y.dev.rx.wrBufAddr y.dev).mem
    refine ⟨⟨new, ?_, hnew⟩, h.rxFifo, ?_, ?_, ?_⟩
    · rw [← hscram] at hlog
      exact hlog
    · simp only [memSetWrP, hscram]
      rfl
    · rw [if_neg (List.append_ne_nil_of_left_ne_nil (List.cons_ne_nil w p) ws)]
      exact hstate
    · simp only [memSetWrP, hbytes, List.cons_append, packetBytes, List.length_append]
      rw [← BitVec.ofNat_add]
      congr 1
      omega

/-- Behind marker and header a call writes its payload words. -/
theorem drop_written (l : AirLedger) (ws rest : List Word)
    (hrest : l.current = [] → ws = [] → rest = []) :
    (writtenHead l ws ++ writtenPayload l ws ++ rest).drop (if l.current = [] then 2 else 0)
      = writtenPayload l ws ++ rest := by
  obtain ⟨current, scram⟩ := l
  cases current with
  | nil =>
    cases ws with
    | nil =>
      rw [hrest rfl rfl]
      rfl
    | cons w ws => rfl
  | cons w p => rfl

/-- What a call writes, by the ledger. -/
theorem logged_takeWords {y : AirSys} {l : AirLedger} (h : InStep y l) (ws : List Word) :
    logged y.dev (takeWords ws (memSetWrP y.dev.rx.wrBufAddr y.dev))
      = writtenHead l ws ++ writtenPayload l ws := by
  obtain ⟨⟨new, hlog, hnew⟩, -⟩ := takeWords_inStep h ws
  rw [logged_of_append hlog, hnew]

/-! ## Steps of the ledger -/

/-- A chunk of a packet comes in. -/
theorem InStep.rxData {y : AirSys} {l : AirLedger} (h : InStep y l) (ws : List Word) :
    InStep (y.step (.rxData ws)) (l.step (.rxData ws)) ∧
    (y.step (.rxData ws)).stored = y.stored ++ writtenPayload l ws := by
  obtain ⟨-, hfifo, hscram, hstate, hbytes⟩ := takeWords_inStep h ws
  have hdev := rxData_interrupt h.rxFifo ws
  constructor
  · refine ⟨?_, ?_, ?_, ?_, ?_⟩
    · show (rxInterrupt rxDataIntFunc [ws] y.dev).rxFifo = _
      rw [hdev]
      exact hfifo
    · show y.current ++ ws = l.current ++ ws
      rw [h.current]
    · show (rxInterrupt rxDataIntFunc [ws] y.dev).scram = _
      rw [hdev]
      exact hscram
    · show (rxInterrupt rxDataIntFunc [ws] y.dev).rx.rxState = _
      rw [hdev]
      exact hstate
    · show (rxInterrupt rxDataIntFunc [ws] y.dev).rx.wrBytes = _
      rw [hdev]
      exact hbytes
  · show y.stored ++ (logged y.dev (rxInterrupt rxDataIntFunc [ws] y.dev)).drop _ = _
    have hdrop := drop_written l ws [] fun _ _ => rfl
    rw [List.append_nil, List.append_nil] at hdrop
    rw [hdev, logged_takeWords h, h.current, hdrop]

/-- The words of the last call of a packet, before the marker. -/
theorem lastWords_inStep {y : AirSys} {l : AirLedger} (h : InStep y l) (ws : List Word) :
    ∃ t, rxInterrupt rxReadyIntFunc [ws] y.dev = (rxFinishPacket t).pulse .hbcRxPktAck ∧
      (∃ new, t.mem.log = y.dev.mem.log ++ new ∧
        new.map Prod.snd = writtenHead l ws ++ writtenPayload l ws) ∧
      t.rxFifo = ⟨[], []⟩ ∧ t.scram = l.take ws ∧
      t.rx.rxState = (if l.current ++ ws = [] then .packetInit else .packetReading) ∧
      t.rx.wrBytes = BitVec.ofNat 32 (packetBytes (l.current ++ ws)) := by
  refine ⟨_, rxReady_interrupt h.rxFifo ws, ?_⟩
  by_cases hws : ws = []
  · rw [if_pos hws, hws, List.append_nil]
    obtain ⟨current, scram⟩ := l
    have hscram : y.dev.scram = scram := h.scram
    refine ⟨⟨[], (List.append_nil _).symm, ?_⟩, h.rxFifo, ?_, h.rxState, h.wrBytes⟩
    · cases current <;> rfl
    · cases current with
      | nil => exact hscram
      | cons w p => exact hscram
  · rw [if_neg hws]
    exact takeWords_inStep h ws

theorem AirSys.step_rxReady_idle {y : AirSys} {ws : List Word} (h : y.current ++ ws = []) :
    y.step (.rxReady ws) = { y with dev := rxInterrupt rxReadyIntFunc [ws] y.dev } := if_pos h

theorem AirSys.step_rxReady_packet {y : AirSys} {ws : List Word} (h : y.current ++ ws ≠ []) :
    y.step (.rxReady ws) = {
      dev := rxInterrupt rxReadyIntFunc [ws] y.dev
      current := []
      stored := []
      packets := y.packets ++ [(y.current ++ ws, y.stored
        ++ ((logged y.dev (rxInterrupt rxReadyIntFunc [ws] y.dev)).drop
          (if y.current = [] then 2 else 0)).dropLast)] } := if_neg h

/-- A packet is completed. -/
theorem InStep.rxReady {y : AirSys} {l : AirLedger} (h : InStep y l) (ws : List Word)
    (hcount : l.Counted (.rxReady ws)) :
    InStep (y.step (.rxReady ws)) (l.step (.rxReady ws)) ∧
    (l.current ++ ws = [] → (y.step (.rxReady ws)).packets = y.packets ∧
      (y.step (.rxReady ws)).stored = y.stored) ∧
    (l.current ++ ws ≠ [] → (y.step (.rxReady ws)).packets
        = y.packets ++ [(l.current ++ ws, y.stored ++ writtenPayload l ws)] ∧
      (y.step (.rxReady ws)).stored = []) := by
  obtain ⟨t, hdev, ⟨new, hlog, hnew⟩, hfifo, hscram, hstate, hbytes⟩ := lastWords_inStep h ws
  by_cases hne : l.current ++ ws = []
  · -- nothing in progress
    have hzero : ¬ t.rx.wrBytes ≠ 0 := by
      rw [hbytes, hne]
      decide
    have hfinish : rxFinishPacket t = t := by rw [rxFinishPacket, if_neg hzero]
    rw [hfinish] at hdev
    rw [AirSys.step_rxReady_idle (by rw [h.current]; exact hne), hdev]
    obtain ⟨hcur, rfl⟩ := List.append_eq_nil_iff.mp hne
    refine ⟨⟨hfifo, ?_, hscram, ?_, ?_⟩, fun _ => ⟨rfl, rfl⟩, fun h0 => absurd hne h0⟩
    · rw [h.current, hcur]
      rfl
    · rw [if_pos hne] at hstate
      exact hstate
    · rw [hne] at hbytes
      exact hbytes
  · -- the marker is written once more, behind the payload words of the call
    have hpos := packetBytes_pos hne
    have hlt : packetBytes (l.current ++ ws) < 2 ^ 32 := hcount
    have hnz : t.rx.wrBytes ≠ 0 := by
      rw [hbytes]
      intro h0
      have hmod : packetBytes (l.current ++ ws) % 2 ^ 32 = 0 := by
        simpa using congrArg BitVec.toNat h0
      omega
    have hfinish : rxFinishPacket t = { memWrite t.rx.wrBytes (memSetWrP t.rx.wrPacketAddr t) with
        rx := { t.rx with
          rxState := .packetInit
          packetReady := t.rx.packetReady + 1
          wrBytes := 0 } } := by
      rw [rxFinishPacket, if_pos hnz]
      rfl
    rw [hfinish] at hdev
    rw [AirSys.step_rxReady_packet (by rw [h.current]; exact hne)]
    have hlogged : logged y.dev (rxInterrupt rxReadyIntFunc [ws] y.dev)
        = writtenHead l ws ++ writtenPayload l ws ++ [t.rx.wrBytes] := by
      rw [hdev, ← hnew]
      have happend : ((memWrite t.rx.wrBytes (memSetWrP t.rx.wrPacketAddr t))).mem.log
          = y.dev.mem.log ++ (new ++ [(t.rx.wrPacketAddr, t.rx.wrBytes)]) := by
        rw [← List.append_assoc, ← hlog]
        rfl
      refine (logged_of_append happend).trans ?_
      rw [List.map_append]
      rfl
    have hdrop := drop_written l ws [t.rx.wrBytes]
      fun hcur hws => absurd (by rw [hcur, hws]; rfl) hne
    refine ⟨⟨?_, rfl, ?_, ?_, ?_⟩, fun h0 => absurd h0 hne, fun _ => ⟨?_, rfl⟩⟩
    · rw [hdev]
      exact hfifo
    · rw [hdev]
      exact hscram
    · rw [hdev]
      rfl
    · rw [hdev]
      rfl
    · rw [hlogged, h.current, hdrop, List.dropLast_concat]

/-- A frame is built. -/
theorem InStep.frame {y : AirSys} {l : AirLedger} (h : InStep y l) (loopback : Bool)
    (headerInfo : PlcpHeader) (addr : Word) :
    InStep (y.step (.frame loopback headerInfo addr)) (l.step (.frame loopback headerInfo addr)) := by
  have hsent (s : State) : let t := (sendFrame (memSetRdP addr
        { s with main := { s.main with headerInfo := headerInfo } })).2
      t.rxFifo = s.rxFifo ∧ t.rx = s.rx ∧ t.scram
        = ⟨headerInfo.scramblerSeed != 0, (payloadWords headerInfo.pdsuLength).toNat⟩ := by
    obtain ⟨new, f, heq, -, -⟩ := sendFrame_eq (memSetRdP addr
      { s with main := { s.main with headerInfo := headerInfo } })
    rw [heq]
    exact ⟨rfl, rfl, rfl⟩
  -- `loopback` only decides about the switch of the receiver
  have hdev : (transmit loopback headerInfo addr y.dev).rxFifo = y.dev.rxFifo ∧
      (transmit loopback headerInfo addr y.dev).rx = y.dev.rx ∧
      (transmit loopback headerInfo addr y.dev).scram
        = ⟨headerInfo.scramblerSeed != 0, (payloadWords headerInfo.pdsuLength).toNat⟩ := by
    cases loopback with
    | true => exact hsent y.dev
    | false => exact hsent (rxDisable y.dev)
  obtain ⟨hfifo, hrx, hscram⟩ := hdev
  refine ⟨hfifo.trans h.rxFifo, h.current, hscram, ?_, ?_⟩
  · show (transmit loopback headerInfo addr y.dev).rx.rxState = _
    rw [hrx]
    exact h.rxState
  · show (transmit loopback headerInfo addr y.dev).rx.wrBytes = _
    rw [hrx]
    exact h.wrBytes

/-- Any event. -/
theorem InStep.step {y : AirSys} {l : AirLedger} (h : InStep y l) (e : AirEvent)
    (hcount : l.Counted e) : InStep (y.step e) (l.step e) := by
  cases e with
  | rxData ws => exact (h.rxData ws).1
  | rxReady ws => exact (h.rxReady ws hcount).1
  | frame loopback headerInfo addr => exact h.frame loopback headerInfo addr

/-! ## What the packet asks for -/

/-- The payload words among `ws` as the packet in progress wants them stored. -/
def wantedPayload (l : AirLedger) (ws : List Word) : List Word :=
  match l.current with
  | [] => (packetBody ws).tail
  | h :: p => descramble (headerSeed h) p.length ws

/-- What the packet asks for is added chunk by chunk. -/
theorem tail_packetBody_append (l : AirLedger) (ws : List Word) :
    (packetBody (l.current ++ ws)).tail = (packetBody l.current).tail ++ wantedPayload l ws := by
  obtain ⟨current, scram⟩ := l
  cases current with
  | nil => rfl
  | cons h p =>
    simp only [List.cons_append, packetBody, List.tail_cons, descramble_append, Nat.zero_add,
      wantedPayload]

/-- With the scrambler aligned it is what is written. -/
theorem written_eq_wanted {l : AirLedger} {ws : List Word} (h : l.AlignedFor ws) :
    writtenPayload l ws = wantedPayload l ws := by
  obtain ⟨current, scram⟩ := l
  cases current with
  | nil => cases ws <;> rfl
  | cons w p =>
    by_cases hws : ws = []
    · rw [hws]
      rfl
    · have hscram : scram = ⟨headerSeed w, p.length⟩ := h hws
      rw [hscram]
      rfl

/-- A call keeps the packets descrambled precisely when it writes what they ask for. -/
theorem InStep.descrambled_iff {y : AirSys} {l : AirLedger} (h : InStep y l)
    (hgood : y.AllDescrambled) {e : AirEvent} {ws : List Word} (hcount : l.Counted e)
    (he : e = .rxData ws ∨ e = .rxReady ws) :
    (y.step e).AllDescrambled ↔ writtenPayload l ws = wantedPayload l ws := by
  obtain ⟨hcur, hpackets⟩ := hgood
  have hstored : y.stored = (packetBody l.current).tail := by
    rw [← h.current]
    exact (AirSys.descrambled_iff_tail _ _).mp hcur
  have hwhole (extra : List Word) : AirSys.Descrambled (l.current ++ ws) (y.stored ++ extra) ↔
      extra = wantedPayload l ws := by
    rw [AirSys.descrambled_iff_tail, tail_packetBody_append, hstored]
    exact List.append_right_inj _
  rcases he with rfl | rfl
  · have hnew := (h.rxData ws).2
    constructor
    · rintro ⟨hcur', -⟩
      rw [hnew] at hcur'
      have hcur'' : AirSys.Descrambled (y.current ++ ws) (y.stored ++ writtenPayload l ws) := hcur'
      rw [h.current] at hcur''
      exact (hwhole _).mp hcur''
    · intro heq
      refine ⟨?_, hpackets⟩
      rw [hnew]
      show AirSys.Descrambled (y.current ++ ws) (y.stored ++ writtenPayload l ws)
      rw [h.current]
      exact (hwhole _).mpr heq
  · obtain ⟨hstep, hidle, hpacket⟩ := h.rxReady ws hcount
    have hempty : (y.step (.rxReady ws)).current = [] := hstep.current
    by_cases hne : l.current ++ ws = []
    · -- no packet ends here, and nothing is written
      obtain ⟨hsame, hstored'⟩ := hidle hne
      obtain ⟨hnil, rfl⟩ := List.append_eq_nil_iff.mp hne
      constructor
      · intro _
        obtain ⟨current, scram⟩ := l
        cases hnil
        rfl
      · intro _
        refine ⟨?_, ?_⟩
        · rw [hempty, hstored', hstored, hnil]
          rfl
        · rw [hsame]
          exact hpackets
    · -- the packet is complete and joins the others
      obtain ⟨hadded, hstored'⟩ := hpacket hne
      constructor
      · rintro ⟨-, hall⟩
        rw [hadded] at hall
        exact (hwhole _).mp (hall _ (List.mem_append_right _ (List.mem_singleton_self _)))
      · intro heq
        refine ⟨?_, ?_⟩
        · rw [hempty, hstored']
          rfl
        · rw [hadded]
          intro p hp
          rcases List.mem_append.mp hp with hp | hp
          · exact hpackets p hp
          · rw [List.mem_singleton.mp hp]
            exact (hwhole _).mpr heq

/-- An aligned event keeps every payload descrambled. -/
theorem InStep.keep {y : AirSys} {l : AirLedger} (h : InStep y l) (hgood : y.AllDescrambled)
    {e : AirEvent} (hcount : l.Counted e) (hal : l.Aligned e) :
    InStep (y.step e) (l.step e) ∧ (y.step e).AllDescrambled := by
  refine ⟨h.step e hcount, ?_⟩
  cases e with
  | rxData ws => exact (h.descrambled_iff hgood hcount (Or.inl rfl)).mpr (written_eq_wanted hal)
  | rxReady ws => exact (h.descrambled_iff hgood hcount (Or.inr rfl)).mpr (written_eq_wanted hal)
  | frame loopback headerInfo addr => exact hgood

/-- Along an aligned run everything is descrambled. -/
theorem InStep.always {y : AirSys} {l : AirLedger} (h : InStep y l) (hgood : y.AllDescrambled)
    {evs : List AirEvent} (hcount : Run.Steps AirLedger.step AirLedger.Counted l evs)
    (hal : Run.Steps AirLedger.step AirLedger.Aligned l evs) :
    Run.Always AirSys.step AirSys.AllDescrambled y evs ∧
    InStep (Run.run AirSys.step y evs) (Run.run AirLedger.step l evs) := by
  induction evs generalizing y l with
  | nil => exact ⟨hgood, h⟩
  | cons e evs ih =>
    obtain ⟨hstep, hgood'⟩ := h.keep hgood hcount.1 hal.1
    obtain ⟨halways, hlast⟩ := ih hstep hgood' hcount.2 hal.2
    exact ⟨⟨hgood, halways⟩, hlast⟩

omit [Board] in
/-- The two agree at the start. -/
theorem inStep_boot {s : State} (h : Boot s) : InStep (AirSys.boot s) ⟨[], s.scram⟩ := by
  refine ⟨h.rxFifo, rfl, rfl, ?_, ?_⟩
  · show s.rx.rxState = _
    rw [h.rx]
    rfl
  · show s.rx.wrBytes = _
    rw [h.rx]
    rfl

theorem descrambled_boot (s : State) : (AirSys.boot s).AllDescrambled :=
  ⟨rfl, fun p hp => by cases hp⟩

end

/-! ## A board on which a misplaced scrambler shows -/

/-- A board whose keystream is zero but for one place. -/
@[reducible]
def markedBoard (mark : Scrambler) : Board where
  keystream seed pos := if seed = mark.seed ∧ pos = mark.pos then 1 else 0
  cell := id

/-- Words written from the marked place on come out wrong. -/
theorem written_ne_wanted {l : AirLedger} {ws : List Word} (h : ¬ l.AlignedFor ws) :
    letI := markedBoard l.scram
    writtenPayload l ws ≠ wantedPayload l ws := by
  let := markedBoard l.scram
  obtain ⟨current, scram⟩ := l
  cases current with
  | nil => exact absurd trivial h
  | cons w p =>
    have hmis : ws ≠ [] ∧ scram ≠ ⟨headerSeed w, p.length⟩ := Classical.not_imp.mp h
    obtain ⟨v, ws, rfl⟩ := List.exists_cons_of_ne_nil hmis.1
    intro heq
    have hhead : v ^^^ Board.keystream scram.seed scram.pos
        = v ^^^ Board.keystream (headerSeed w) p.length := (List.cons.inj heq).1
    have hmark : Board.keystream scram.seed scram.pos = 1 := if_pos ⟨rfl, rfl⟩
    have hother : Board.keystream (headerSeed w) p.length = 0 := by
      refine if_neg fun hsame => hmis.2 ?_
      obtain ⟨hseed, hpos⟩ := hsame
      rw [hseed, hpos]
    rw [hmark, hother] at hhead
    have hzero := congrArg (v ^^^ ·) hhead
    simp only [← BitVec.xor_assoc, BitVec.xor_self, BitVec.zero_xor] at hzero
    exact absurd hzero (by decide)

/-- **Descrambling survives transmissions** on every board if and only if, whenever payload
words come for a packet in progress, the scrambler stands where that packet has got to. -/
theorem allDescrambled_iff {s : State} (hboot : Boot s) (evs : List AirEvent)
    (hcount : Run.Steps AirLedger.step AirLedger.Counted ⟨[], s.scram⟩ evs) :
    (∀ _ : Board, Run.Always AirSys.step AirSys.AllDescrambled (AirSys.boot s) evs) ↔
      Run.Steps AirLedger.step AirLedger.Aligned ⟨[], s.scram⟩ evs := by
  constructor
  · intro hall
    by_contra hnot
    obtain ⟨pre, e, post, rfl, hpre, hmis⟩ := Run.exists_first_of_not_steps hnot
    obtain ⟨hcpre, hcpost⟩ := Run.steps_append.mp hcount
    let := markedBoard (Run.run AirLedger.step ⟨[], s.scram⟩ pre).scram
    obtain ⟨hgood, hstep⟩ := (inStep_boot hboot).always (descrambled_boot s) hcpre hpre
    have hlast := Run.always_iff_prefix.mp (hall this) (pre ++ [e]) (by simp)
    rw [Run.run_append, Run.run_cons, Run.run_nil] at hlast
    cases e with
    | rxData ws =>
      exact written_ne_wanted hmis
        ((hstep.descrambled_iff hgood.last hcpost.1 (Or.inl rfl)).mp hlast)
    | rxReady ws =>
      exact written_ne_wanted hmis
        ((hstep.descrambled_iff hgood.last hcpost.1 (Or.inr rfl)).mp hlast)
    | frame loopback headerInfo addr => exact hmis trivial
  · intro hal _
    exact ((inStep_boot hboot).always (descrambled_boot s) hcount hal).1

/-- A frame between two packets does no harm. -/
theorem allDescrambled_frame_between :
    letI := markedBoard ⟨false, 0⟩
    Run.Always AirSys.step AirSys.AllDescrambled (AirSys.boot bootState)
      [.rxData [0], .rxReady [5], .frame true bootState.main.headerInfo 0, .rxReady [0x800, 7]] :=
  (allDescrambled_iff bootState_boot
    [.rxData [0], .rxReady [5], .frame true bootState.main.headerInfo 0, .rxReady [0x800, 7]]
    ⟨trivial, by show packetBytes [0, 5] < 2 ^ 32; decide, trivial,
      by show packetBytes [0x800, 7] < 2 ^ 32; decide, trivial⟩).mpr
    ⟨trivial, fun _ => rfl, trivial, trivial, trivial⟩ (markedBoard ⟨false, 0⟩)

/-- A frame without payload, sent while a packet is in progress: the second payload word of
that packet is stored with the keystream word of the first. -/
theorem frame_breaks_descrambling :
    letI := markedBoard ⟨false, 0⟩
    ¬ Run.Always AirSys.step AirSys.AllDescrambled (AirSys.boot bootState)
      [.rxData [0, 5], .frame true bootState.main.headerInfo 0, .rxData [7]] := by
  let := markedBoard ⟨false, 0⟩
  intro halways
  have hpre := (inStep_boot bootState_boot).always (descrambled_boot bootState)
    (show Run.Steps _ _ _ [.rxData [0, 5], .frame true bootState.main.headerInfo 0] from
      ⟨trivial, trivial, trivial⟩) ⟨trivial, trivial, trivial⟩
  have hlast := halways.last
  have heq := (hpre.2.descrambled_iff (e := .rxData [7]) hpre.1.last trivial (Or.inl rfl)).mp hlast
  exact absurd heq (by decide)

end HbcMac
