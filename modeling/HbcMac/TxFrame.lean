import HbcMac.RxWriter
import HbcMac.TxTrace

/-!
# What a frame sends

The words `build_tx_plcp_header` and `build_tx_payload` hand to the modulator, and what else
they change: `Sends` is `Emits` with only these words kept, `sendFrame_eq` is about a whole
frame.
-/

namespace HbcMac

/-- From `s` to `s'` nothing but the transmit FIFO and the trace changes, and `ws` are the
words that went to the modulator. -/
def Sends (ws : List Word) (s s' : State) : Prop :=
  ∃ new txFifo, s' = { s with out := s.out ++ new, txFifo := txFifo } ∧
    modulated new = ws ∧ dataBytes new = []

namespace Sends

theorem trans {ws ws' : List Word} {s t u : State} (h : Sends ws s t) (h' : Sends ws' t u) :
    Sends (ws ++ ws') s u := by
  obtain ⟨new, f, rfl, hws, hdata⟩ := h
  obtain ⟨new', f', rfl, hws', hdata'⟩ := h'
  refine ⟨new ++ new', f', ?_, ?_, ?_⟩
  · simp only [List.append_assoc]
  · rw [modulated_append, hws, hws']
  · rw [dataBytes_append, hdata, hdata']
    rfl

/-- Quiet steps on both sides add no words. -/
theorem trans_nil {ws : List Word} {s t u : State} (h : Sends ws s t) (h' : Sends [] t u) :
    Sends ws s u := by
  have h'' := h.trans h'
  rwa [List.append_nil] at h''

end Sends

/-- Of what goes to the FIFO, the words for the modulator. -/
theorem Emits.sends {ws : List Out} {s s' : State} (h : Emits ws s s') :
    Sends (modulated ws) s s' := by
  obtain ⟨tr, f, hs, htr⟩ := h
  refine ⟨tr, f, hs, ?_, htr.dataBytes⟩
  rw [← htr.writes, modulated_fifoWrites]

theorem sends_pulse (line : Gpo) (s : State) : Sends [] s (s.pulse line) :=
  ⟨[.gpo line true, .gpo line false], s.txFifo, by
    simp only [State.pulse, State.gpoSet, State.gpoClear, State.emit, List.append_assoc]
    rfl, rfl, rfl⟩

theorem sends_fifoReset (s : State) : Sends [] s (fifoReset s) :=
  ⟨[], _, by rw [List.append_nil, fifoReset], rfl, rfl⟩

/-- The header function modulates the header word and nothing else. -/
theorem sends_buildTxPlcpHeader (headerInfo : PlcpHeader) (s : State) :
    Sends [headerWord headerInfo] s (buildTxPlcpHeader headerInfo s).2 := by
  have h := (emits_buildTxPlcpHeader headerInfo s).sends
  rw [modulated_append, modulated_leadWrites] at h
  exact (sends_fifoReset s).trans h

/-! ## The payload -/

section
variable [Board]

/-- The words successive calls of `mem_read` return. -/
def memReads : ℕ → State → List Word
  | 0, _ => []
  | n + 1, s => (memRead s).1 :: memReads n (memRead s).2

@[simp] theorem length_memReads (n : ℕ) (s : State) : (memReads n s).length = n := by
  induction n generalizing s with
  | zero => rfl
  | succ n ih => rw [memReads, List.length_cons, ih]

/-- What successive reads return depends on the memory only. -/
theorem memReads_congr {n : ℕ} {s s' : State} (h : s'.mem = s.mem) : memReads n s' = memReads n s := by
  induction n generalizing s s' with
  | zero => rfl
  | succ n ih =>
    have hnext : (memRead s').2.mem = (memRead s).2.mem := by
      simp only [memRead, h]
    rw [memReads, memReads, ih hnext]
    simp only [memRead, h]

/-- The payload loop: the words read, each with its keystream word. -/
theorem emits_buildTxWords (n : ℕ) (s : State) :
    Emits ((descramble s.scram.seed s.scram.pos (memReads n s)).map .modulate)
      { s with
        mem.rdP := (advance s.mem.readWraps)^[n] s.mem.rdP
        scram.pos := s.scram.pos + n }
      (buildTxWords n s) := by
  induction n generalizing s with
  | zero => exact Emits.refl s
  | succ n ih =>
    have hword := emits_fifoModulate
      ((memRead s).1 ^^^ (scramblerRead (memRead s).2).1) (scramblerRead (memRead s).2).2
    have hrest := ih (fifoModulate ((memRead s).1 ^^^ (scramblerRead (memRead s).2).1)
      (scramblerRead (memRead s).2).2)
    obtain ⟨tr, f, heq, htr⟩ := hword
    have hmem : (fifoModulate ((memRead s).1 ^^^ (scramblerRead (memRead s).2).1)
        (scramblerRead (memRead s).2).2).mem = (memRead s).2.mem := by
      rw [heq]
      rfl
    rw [memReads_congr hmem, heq] at hrest
    obtain ⟨tr', f', heq', htr'⟩ := hrest
    refine ⟨tr ++ tr', f', ?_, htr.append htr'⟩
    rw [buildTxWords]
    dsimp only
    rw [heq, heq']
    simp only [memRead, scramblerRead, Function.iterate_succ, Function.comp_apply,
      List.append_assoc, Mem.readWraps]
    congr 2
    omega

/-- The payload function, which reseeds the scrambler first, up to the flush. -/
theorem emits_buildTxPayload (headerInfo : PlcpHeader) (s : State) :
    let n := (payloadWords headerInfo.pdsuLength).toNat
    let ws := descramble (headerInfo.scramblerSeed != 0) 0 (memReads n s)
    ∃ t, (buildTxPayload headerInfo s).2 = fifoTrigger (fifoFlush t)
      ∧ Emits (rateWrites headerInfo.dataRate ++ ws.map .modulate)
        { s with
          mem := { s.mem with rdP := (advance s.mem.readWraps)^[n] s.mem.rdP }
          scram := ⟨headerInfo.scramblerSeed != 0, n⟩ } t := by
  intro n ws
  obtain ⟨tr, f, hrate, htr⟩ := emits_fifoSetRate headerInfo.dataRate s
  have hwords := emits_buildTxWords n
    (scramblerReseed headerInfo.scramblerSeed (fifoSetRate headerInfo.dataRate s))
  have hmem : (scramblerReseed headerInfo.scramblerSeed
      (fifoSetRate headerInfo.dataRate s)).mem = s.mem := by
    rw [hrate]
    rfl
  rw [memReads_congr hmem, hrate] at hwords
  obtain ⟨tr', f', hend, htr'⟩ := hwords
  refine ⟨_, rfl, tr ++ tr', f', ?_, htr.append htr'⟩
  refine Eq.trans (congrArg _ (congrArg _ hrate)) (hend.trans ?_)
  simp only [scramblerReseed, Nat.zero_add, List.append_assoc]

/-- The payload is modulated and the transmitter triggered. -/
theorem buildTxPayload_eq (headerInfo : PlcpHeader) (s : State) :
    let n := (payloadWords headerInfo.pdsuLength).toNat
    Sends (descramble (headerInfo.scramblerSeed != 0) 0 (memReads n s))
      { s with
        mem := { s.mem with rdP := (advance s.mem.readWraps)^[n] s.mem.rdP }
        scram := ⟨headerInfo.scramblerSeed != 0, n⟩ }
      (buildTxPayload headerInfo s).2 := by
  intro n
  obtain ⟨t, hlast, hsent⟩ := emits_buildTxPayload headerInfo s
  have hwords := hsent.sends
  rw [modulated_append, modulated_rateWrites, List.nil_append, modulated_map] at hwords
  rw [hlast]
  exact (hwords.trans_nil (sends_pulse .hbcTxFlush t)).trans_nil (emits_fifoTrigger _).sends

/-! ## A whole frame -/

/-- The words of the frame `build_tx_plcp_header` and `build_tx_payload` would send now. -/
def frameWords (s : State) : List Word :=
  headerWord s.main.headerInfo :: descramble (s.main.headerInfo.scramblerSeed != 0) 0
    (memReads (payloadWords s.main.headerInfo.pdsuLength).toNat s)

/-- **A frame.** Its words go to the modulator; the read pointer and the scrambler have moved
on by the payload words, and the checksum is kept in the header. -/
theorem sendFrame_eq (s : State) :
    let h := s.main.headerInfo
    let n := (payloadWords h.pdsuLength).toNat
    Sends (frameWords s)
      { s with
        mem := { s.mem with rdP := (advance s.mem.readWraps)^[n] s.mem.rdP }
        scram := ⟨h.scramblerSeed != 0, n⟩
        main := { s.main with headerInfo := { h with crc8 := HbcMac.crc8 (headerBits h) } } }
      (sendFrame s).2 := by
  intro h n
  obtain ⟨new, f, hhdr, hmod, hdata⟩ := sends_buildTxPlcpHeader h s
  obtain ⟨new', f', hpay, hmod', hdata'⟩ := buildTxPayload_eq
    { h with crc8 := HbcMac.crc8 (headerBits h) }
    { (buildTxPlcpHeader h s).2 with
      main := { (buildTxPlcpHeader h s).2.main with
        headerInfo := { h with crc8 := HbcMac.crc8 (headerBits h) } } }
  refine ⟨new ++ new', f', ?_, ?_, ?_⟩
  · refine Eq.trans hpay ?_
    rw [hhdr]
    simp only [List.append_assoc]
    rfl
  · rw [modulated_append, hmod, hmod', frameWords, List.singleton_append]
    congr 2
    refine memReads_congr ?_
    rw [hhdr]
  · rw [dataBytes_append, hdata, hdata']
    rfl

/-- A frame leaves the receiver, the ports and the memory contents alone. -/
structure FrameStep (s s' : State) : Prop where
  cells : s'.mem.cells = s.mem.cells
  wrP : s'.mem.wrP = s.mem.wrP
  flags : s'.mem.flags = s.mem.flags
  log : s'.mem.log = s.mem.log
  rxFifo : s'.rxFifo = s.rxFifo
  rx : s'.rx = s.rx
  spi : s'.spi = s.spi
  data : dataBytes s'.out = dataBytes s.out

/-- What a frame changes. -/
theorem frameStep_sendFrame (s : State) : FrameStep s (sendFrame s).2 := by
  obtain ⟨new, f, heq, -, hdata⟩ := sendFrame_eq s
  rw [heq]
  refine ⟨rfl, rfl, rfl, rfl, rfl, rfl, rfl, ?_⟩
  rw [dataBytes_append, hdata, List.append_nil]

end

end HbcMac
