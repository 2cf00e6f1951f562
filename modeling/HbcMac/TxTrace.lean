import HbcMac.Lib.OneShot
import HbcMac.System

/-!
# What the transmit FIFO sees

The functions of `fifo.c` and `build_tx.c` leave three kinds of entries in the trace: register
writes, polls of `IRQ_TX_FIFO_ALMOST_FULL`, and the pulse of `HBC_TX_TRIGGER`. `Emits ws s s'`
says that from `s` to `s'` only such entries were added and that `ws` are the register writes
among them. The writes of each function are given by the header alone; how often it finds the
FIFO full decides only where the polls and the pulse stand.
-/

namespace HbcMac

/-- `fifo_trigger` when it does something. -/
def triggerPulse : List Out := [.gpo .hbcTxTrigger true, .gpo .hbcTxTrigger false]

/-- `fifo_flush`. -/
def flushPulse : List Out := [.gpo .hbcTxFlush true, .gpo .hbcTxFlush false]

/-- Writes to the registers of the FIFO and the modulator: words, sizes and rates. -/
def Out.isFifoWrite : Out → Bool
  | .fifo _ | .fifoSize _ | .modulate _ | .modulateSf _ => true
  | _ => false

/-- The entries a function can leave that does not flush. -/
def Out.isFifo : Out → Bool
  | .fifo _ | .fifoSize _ | .modulate _ | .modulateSf _ => true
  | .txFull _ | .gpo .hbcTxTrigger _ => true
  | _ => false

/-- The register writes in a trace. -/
def fifoWrites (tr : List Out) : List Out := tr.filter Out.isFifoWrite

/-- The writes of a longer trace. -/
theorem fifoWrites_append (tr tr' : List Out) :
    fifoWrites (tr ++ tr') = fifoWrites tr ++ fifoWrites tr' := List.filter_append ..

/-- `tr` is a trace of the transmitter with the register writes `ws`, with the trigger sent
before it if `t` and after it if `t'`. -/
structure FifoTrace (ws : List Out) (t : Bool) (tr : List Out) (t' : Bool) : Prop where
  writes : fifoWrites tr = ws
  fifo : ∀ o ∈ tr, o.isFifo = true
  oneShot : OneShot triggerPulse (.txFull true) t tr t'

/-- From `s` to `s'` nothing but the transmit FIFO and the trace changes, and `ws` are the
register writes. -/
def Emits (ws : List Out) (s s' : State) : Prop :=
  ∃ tr txFifo, s' = { s with out := s.out ++ tr, txFifo := txFifo } ∧
    FifoTrace ws s.txFifo.triggered tr txFifo.triggered

/-- Two traces with the writes of both. -/
theorem FifoTrace.append {ws ws' tr tr' : List Out} {t u v : Bool} (h : FifoTrace ws t tr u)
    (h' : FifoTrace ws' u tr' v) : FifoTrace (ws ++ ws') t (tr ++ tr') v where
  writes := by rw [fifoWrites_append, h.writes, h'.writes]
  fifo o ho := (List.mem_append.mp ho).elim (h.fifo o) (h'.fifo o)
  oneShot := h.oneShot.append h'.oneShot

namespace Emits

theorem refl (s : State) : Emits [] s s :=
  ⟨[], s.txFifo, by rw [List.append_nil], rfl, fun _ ho => absurd ho List.not_mem_nil, .nil _⟩

theorem trans {ws ws' : List Out} {s t u : State} (h : Emits ws s t) (h' : Emits ws' t u) :
    Emits (ws ++ ws') s u := by
  obtain ⟨tr, f, rfl, htr⟩ := h
  obtain ⟨tr', f', rfl, htr'⟩ := h'
  refine ⟨tr ++ tr', f', ?_, htr.append htr'⟩
  simp only [List.append_assoc]

end Emits

/-! ## `fifo.c` -/

theorem emits_write {o : Out} (ho : o.isFifoWrite = true) (s : State) :
    Emits [o] s (s.emit o) := by
  refine ⟨[o], s.txFifo, rfl, ?_, ?_, ?_⟩
  · rw [fifoWrites, List.filter_cons_of_pos ho, List.filter_nil]
  · intro o' ho'
    rw [List.mem_singleton.mp ho']
    cases o <;> trivial
  · apply OneShot.single
    · rintro hmem
      cases o <;> simp [triggerPulse, Out.isFifoWrite] at hmem ho
    · rintro rfl
      cases ho

theorem emits_ready (s : State) : Emits [] s (s.emit (.txFull false)) := by
  refine ⟨[.txFull false], s.txFifo, rfl, rfl, ?_, ?_⟩
  · simp [Out.isFifo]
  · exact OneShot.single (by decide) (by decide)

/-- The trigger is no write. -/
theorem emits_fifoTrigger (s : State) : Emits [] s (fifoTrigger s) := by
  unfold fifoTrigger
  cases ht : s.txFifo.triggered with
  | true => exact Emits.refl s
  | false =>
    refine ⟨triggerPulse, { s.txFifo with triggered := true }, ?_, rfl, ?_, ?_⟩
    · simp [State.pulse, State.gpoSet, State.gpoClear, State.emit, triggerPulse]
    · simp [triggerPulse, Out.isFifo]
    · rw [ht]
      exact OneShot.fired

/-- One round of the wait loop: the FIFO is found full, and triggered if it has not been. -/
theorem emits_full (s : State) : Emits [] s (fifoTrigger (s.emit (.txFull true))) := by
  unfold fifoTrigger
  cases ht : s.txFifo.triggered with
  | true =>
    rw [if_pos (show (s.emit (.txFull true)).txFifo.triggered = true from ht)]
    refine ⟨[.txFull true], s.txFifo, rfl, rfl, ?_, ?_⟩
    · simp [Out.isFifo]
    · rw [ht]
      exact OneShot.wait (OneShot.nil true)
  | false =>
    have hnot : ¬ (s.emit (.txFull true)).txFifo.triggered = true := by simp [State.emit, ht]
    rw [if_neg hnot]
    refine ⟨.txFull true :: triggerPulse, { s.txFifo with triggered := true }, ?_, rfl, ?_, ?_⟩
    · simp [State.pulse, State.gpoSet, State.gpoClear, State.emit, triggerPulse]
    · simp [triggerPulse, Out.isFifo]
    · rw [ht]
      have h : OneShot triggerPulse (.txFull true) false
          (.txFull true :: (triggerPulse ++ [])) true := OneShot.fireAndWait (.nil true)
      rwa [List.append_nil] at h

theorem emits_fifoBlock (n : ℕ) (s : State) : Emits [] s (fifoBlock n s) := by
  induction n generalizing s with
  | zero => exact emits_ready s
  | succ n ih => exact (emits_full s).trans (ih _)

theorem emits_fifoWaitSpace (s : State) : Emits [] s (fifoWaitSpace s) := by
  obtain ⟨tr, f, hs, htr⟩ := emits_fifoBlock (s.txFifo.fullPolls.headD 0)
    { s with txFifo.fullPolls := s.txFifo.fullPolls.tail }
  exact ⟨tr, f, hs, htr⟩

/-- A write behind its wait. -/
theorem emits_fifoWrite (w : Word) (s : State) : Emits [.fifo w] s (fifoWrite w s) :=
  (emits_fifoWaitSpace s).trans (emits_write rfl _)

/-- A word for the modulator, behind the same wait. -/
theorem emits_fifoModulate (w : Word) (s : State) : Emits [.modulate w] s (fifoModulate w s) :=
  (emits_fifoWaitSpace s).trans (emits_write rfl _)

theorem emits_fifoWriteSize (b : Byte) (s : State) : Emits [.fifoSize b] s (fifoWriteSize b s) :=
  emits_write rfl s

/-! ## `build_tx.c` -/

/-- The symbol size that goes with a rate. -/
def rateSize (rate : Word) : List Out :=
  if rate = rSf64 ∨ rate = rSf32 then [.fifoSize 32]
  else if rate = rSf16 then [.fifoSize 16]
  else if rate = rSf8 then [.fifoSize 8]
  else []

/-- The writes of `fifo_set_rate`. -/
def rateWrites (rate : Word) : List Out := .modulateSf (rate.setWidth 8) :: rateSize rate

/-- The writes of `put_bitmap_32`. -/
def bitmapWrites (code : Word) : List Out :=
  rateWrites rSf8 ++ (List.range 32).map fun i =>
    .fifo (if code &&& (1 <<< (31 - i)) ≠ 0 then bitMap32_1 else bitMap32_0)

/-- The writes of one preamble. -/
def preambleWrites : List Out := bitmapWrites preamble1 ++ bitmapWrites preamble2

/-- The delimiter between the fillers that shift it in its field. -/
def sfdWrites (headerInfo : PlcpHeader) : List Out :=
  let sfd := bitmapWrites sfd1 ++ bitmapWrites sfd2
  let zero := .fifo bitMap32_0
  if headerInfo.useRi = 0 then sfd
  else if headerInfo.dataRate = rSf64 then sfd ++ [.fifoSize 32, zero, zero, zero]
  else if headerInfo.dataRate = rSf32 then
    [.fifoSize 16, zero] ++ sfd ++ [.fifoSize 32, zero, zero, .fifoSize 16, zero]
  else if headerInfo.dataRate = rSf16 then
    [.fifoSize 32, zero] ++ sfd ++ [.fifoSize 32, zero, zero]
  else if headerInfo.dataRate = rSf8 then
    [.fifoSize 32, zero, .fifoSize 16, zero] ++ sfd ++ [.fifoSize 32, zero, .fifoSize 16, zero]
  else []

/-- The writes in front of the header word. -/
def leadWrites (headerInfo : PlcpHeader) : List Out :=
  preambleWrites ++ preambleWrites ++ preambleWrites ++ preambleWrites ++ sfdWrites headerInfo
    ++ rateWrites (if headerInfo.useRi ≠ 0 then headerInfo.dataRate else rSf64)

/-- All writes of a frame whose payload is modulated as `ws`. -/
def frameWrites (headerInfo : PlcpHeader) (ws : List Word) : List Out :=
  leadWrites headerInfo ++ [.modulate (headerWord headerInfo)]
    ++ rateWrites headerInfo.dataRate ++ ws.map .modulate

theorem emits_fifoSetRate (rate : Word) (s : State) :
    Emits (rateWrites rate) s (fifoSetRate rate s) := by
  have hsf : Emits [.modulateSf (rate.setWidth 8)] s (fifoModulateSf (rate.setWidth 8) s) :=
    emits_write rfl s
  have hsize (b : Byte) : Emits [.modulateSf (rate.setWidth 8), .fifoSize b] s
      (fifoWriteSize b (fifoModulateSf (rate.setWidth 8) s)) :=
    hsf.trans (emits_fifoWriteSize b _)
  unfold fifoSetRate rateWrites rateSize
  dsimp only
  by_cases h64 : rate = rSf64
  · rw [if_pos h64, if_pos (Or.inl h64)]
    exact hsize 32
  by_cases h32 : rate = rSf32
  · rw [if_neg h64, if_pos h32, if_pos (Or.inr h32)]
    exact hsize 32
  rw [if_neg h64, if_neg h32, if_neg (not_or.mpr ⟨h64, h32⟩)]
  split
  · exact hsize 16
  · split
    · exact hsize 8
    · exact hsf

theorem emits_putBit (code : Word) (s : State) (i : ℕ) :
    Emits [.fifo (if code &&& (1 <<< (31 - i)) ≠ 0 then bitMap32_1 else bitMap32_0)] s
      (putBit code s i) := by
  unfold putBit
  split
  · exact emits_fifoWrite _ s
  · exact emits_fifoWrite _ s

theorem emits_putBits (code : Word) (is : List ℕ) (s : State) :
    Emits (is.map fun i =>
        .fifo (if code &&& (1 <<< (31 - i)) ≠ 0 then bitMap32_1 else bitMap32_0)) s
      (is.foldl (putBit code) s) := by
  induction is generalizing s with
  | nil => exact Emits.refl s
  | cons i is ih => exact (emits_putBit code s i).trans (ih _)

/-- The rate and thirty-two words. -/
theorem emits_putBitmap32 (code : Word) (s : State) :
    Emits (bitmapWrites code) s (putBitmap32 code s) :=
  (emits_fifoSetRate rSf8 s).trans (emits_putBits code _ _)

theorem emits_buildTxPreamble (s : State) : Emits preambleWrites s (buildTxPreamble s) :=
  (emits_putBitmap32 preamble1 s).trans (emits_putBitmap32 preamble2 _)

theorem emits_putSfd (s : State) : Emits (bitmapWrites sfd1 ++ bitmapWrites sfd2) s (putSfd s) :=
  (emits_putBitmap32 sfd1 s).trans (emits_putBitmap32 sfd2 _)

/-- The delimiter and its fillers. -/
theorem emits_buildTxSfd (headerInfo : PlcpHeader) (s : State) :
    Emits (sfdWrites headerInfo) s (buildTxSfd headerInfo s) := by
  have hsize (b : Byte) {ws : List Out} {t : State} (h : Emits ws s t) :
      Emits (ws ++ [.fifoSize b]) s (fifoWriteSize b t) := h.trans (emits_fifoWriteSize b t)
  have hzero {ws : List Out} {t : State} (h : Emits ws s t) :
      Emits (ws ++ [.fifo bitMap32_0]) s (fifoWrite bitMap32_0 t) := h.trans (emits_fifoWrite _ t)
  have hsfd {ws : List Out} {t : State} (h : Emits ws s t) :
      Emits (ws ++ (bitmapWrites sfd1 ++ bitmapWrites sfd2)) s (putSfd t) :=
    h.trans (emits_putSfd t)
  have h0 := Emits.refl s
  unfold buildTxSfd sfdWrites
  dsimp only
  split
  · exact hsfd h0
  · split
    · have h64 := hzero (hzero (hzero (hsize 32 (hsfd h0))))
      simpa only [List.append_assoc, List.nil_append, List.cons_append] using h64
    · split
      · have h32 := hzero (hsize 16 (hzero (hzero (hsize 32 (hsfd (hzero (hsize 16 h0)))))))
        simpa only [List.append_assoc, List.nil_append, List.cons_append] using h32
      · split
        · have h16 := hzero (hzero (hsize 32 (hsfd (hzero (hsize 32 h0)))))
          simpa only [List.append_assoc, List.nil_append, List.cons_append] using h16
        · split
          · have h8 := hzero (hsize 16 (hzero (hsize 32
              (hsfd (hzero (hsize 16 (hzero (hsize 32 h0))))))))
            simpa only [List.append_assoc, List.nil_append, List.cons_append] using h8
          · exact h0

/-- Everything ahead of the header word, after the reset of the trigger. -/
theorem emits_buildTxLead (headerInfo : PlcpHeader) (s : State) :
    Emits (leadWrites headerInfo) (fifoReset s) (buildTxLead headerInfo s) := by
  have hpre {ws : List Out} {t : State} (h : Emits ws (fifoReset s) t) :
      Emits (ws ++ preambleWrites) (fifoReset s) (buildTxPreamble t) :=
    h.trans (emits_buildTxPreamble t)
  have hsfd := (hpre (hpre (hpre (emits_buildTxPreamble (fifoReset s))))).trans
    (emits_buildTxSfd headerInfo _)
  unfold buildTxLead leadWrites
  dsimp only
  split
  · exact hsfd.trans (emits_fifoSetRate headerInfo.dataRate _)
  · exact hsfd.trans (emits_fifoSetRate rSf64 _)

/-- Everything up to the header word. -/
theorem emits_buildTxPlcpHeader (headerInfo : PlcpHeader) (s : State) :
    Emits (leadWrites headerInfo ++ [.modulate (headerWord headerInfo)]) (fifoReset s)
      (buildTxPlcpHeader headerInfo s).2 :=
  (emits_buildTxLead headerInfo s).trans (emits_fifoModulate _ _)

/-! ## What is modulated -/

/-- Polls and lines modulate nothing. -/
theorem modulated_fifoWrites (tr : List Out) : modulated (fifoWrites tr) = modulated tr := by
  rw [modulated, modulated, fifoWrites, List.filterMap_filter]
  congr 1
  funext o
  cases o <;> rfl

theorem modulated_map (ws : List Word) : modulated (ws.map .modulate) = ws := by
  rw [modulated, List.filterMap_map]
  exact List.filterMap_some

@[simp] theorem modulated_rateWrites (rate : Word) : modulated (rateWrites rate) = [] := by
  unfold rateWrites rateSize
  split_ifs <;> rfl

@[simp] theorem modulated_bitmapWrites (code : Word) : modulated (bitmapWrites code) = [] := by
  rw [bitmapWrites, modulated_append, modulated_rateWrites, modulated, List.filterMap_map]
  exact List.filterMap_eq_nil_iff.mpr fun _ _ => rfl

/-- Neither the preambles nor the delimiter go through the modulator. -/
theorem modulated_leadWrites (headerInfo : PlcpHeader) :
    modulated (leadWrites headerInfo) = [] := by
  have hpre : modulated preambleWrites = [] := by
    simp [preambleWrites, modulated_append]
  have hsfd : modulated (sfdWrites headerInfo) = [] := by
    unfold sfdWrites
    dsimp only
    split_ifs <;> rfl
  simp [leadWrites, modulated_append, hpre, hsfd]

/-- The transmitter does not use the data port. -/
theorem FifoTrace.dataBytes {ws tr : List Out} {t t' : Bool} (h : FifoTrace ws t tr t') :
    dataBytes tr = [] := by
  apply List.filterMap_eq_nil_iff.mpr
  intro o ho
  have hfifo := h.fifo o ho
  cases o <;> first | rfl | cases hfifo

end HbcMac
