import HbcMac.TxFrame

/-!
# The trigger of a frame

The FIFO may fill up anywhere in a frame, or nowhere. Where the flag is found set for the first
time the modulator is triggered, so that the wait can end; a frame that is never held up is
triggered behind its flush. Either way the same register writes are made.
-/

namespace HbcMac

/-- What a frame may look like from outside. -/
structure TriggeredOnce (tr : List Out) : Prop where
  trigger : ∃ a b, tr = a ++ triggerPulse ++ b ∧ ∀ o ∈ triggerPulse, o ∉ a ++ b
  flush : ∃ a b, tr = a ++ flushPulse ++ b ∧ fifoWrites b = [] ∧ ∀ o ∈ flushPulse, o ∉ a ++ b
  /-- A function that polls the flag again has triggered the modulator. -/
  retry : ∀ a b c full, tr = a ++ .txFull true :: (b ++ .txFull full :: c) →
    triggerPulse <:+: a ++ .txFull true :: b

/-- The trigger behind the flush, unless it has been sent. -/
def closing (t : Bool) : List Out := if t then [] else triggerPulse

theorem oneShot_closing (t : Bool) :
    OneShot triggerPulse (.txFull true) t (flushPulse ++ closing t) true := by
  have hflush : OneShot triggerPulse (.txFull true) t flushPulse t := by
    apply OneShot.quiet (by decide) (by decide)
    exact OneShot.single (by decide) (by decide)
  apply hflush.append
  cases t with
  | true => exact OneShot.nil true
  | false => exact OneShot.fired

/-- A trace of the transmitter that starts untriggered, with the flush and the trigger. -/
theorem FifoTrace.triggeredOnce {ws tr : List Out} {t : Bool} (h : FifoTrace ws false tr t) :
    TriggeredOnce (tr ++ (flushPulse ++ closing t)) where
  trigger := (h.oneShot.append (oneShot_closing t)).once (by decide)
  flush := by
    refine ⟨tr, closing t, (List.append_assoc ..).symm, ?_, ?_⟩
    · cases t <;> rfl
    · intro o ho hmem
      rcases List.mem_append.mp hmem with htr | hclose
      · have hnot : ∀ o ∈ flushPulse, o.isFifo = false := by decide
        exact absurd (h.fifo o htr) (by simp [hnot o ho])
      · have hnot : ∀ t, ∀ o ∈ flushPulse, o ∉ closing t := by decide
        exact hnot t o ho hclose
  retry a b c full hsplit :=
    (h.oneShot.append (oneShot_closing t)).pulse_before_retry (by decide) (by simp [triggerPulse])
      hsplit

theorem fifoWrites_closing (tr : List Out) (t : Bool) :
    fifoWrites (tr ++ (flushPulse ++ closing t)) = fifoWrites tr := by
  have hnone : fifoWrites (flushPulse ++ closing t) = [] := by
    cases t <;> rfl
  rw [fifoWrites_append, hnone, List.append_nil]

/-- The flush and the trigger at the end of a frame. -/
theorem closing_out (s : State) : (fifoTrigger (fifoFlush s)).out
    = s.out ++ (flushPulse ++ closing s.txFifo.triggered) := by
  unfold fifoTrigger
  cases ht : s.txFifo.triggered with
  | true =>
    rw [if_pos (show (fifoFlush s).txFifo.triggered = true from ht)]
    simp [fifoFlush, State.pulse, State.gpoSet, State.gpoClear, State.emit, flushPulse, closing]
  | false =>
    rw [if_neg (show ¬ (fifoFlush s).txFifo.triggered = true from ne_true_of_eq_false ht)]
    simp [fifoFlush, State.pulse, State.gpoSet, State.gpoClear, State.emit, flushPulse, closing,
      triggerPulse]

section
variable [Board]

/-- `build_tx_plcp_header` and `build_tx_payload` on one header. -/
def buildTxFrame (headerInfo : PlcpHeader) (s : State) : State :=
  let h := buildTxPlcpHeader headerInfo s
  (buildTxPayload h.1 h.2).2

/-- The register writes of a frame depend on the header and the payload words, the rest of its
trace on how often each of them finds the FIFO full. -/
theorem buildTxFrame_out (headerInfo : PlcpHeader) (s : State) :
    ∃ tr t, (buildTxFrame headerInfo s).out = s.out ++ (tr ++ (flushPulse ++ closing t))
      ∧ FifoTrace (frameWrites headerInfo (descramble (headerInfo.scramblerSeed != 0) 0
          (memReads (payloadWords headerInfo.pdsuLength).toNat s))) false tr t := by
  obtain ⟨tr, f, hhdr, htr⟩ := emits_buildTxPlcpHeader headerInfo s
  obtain ⟨u, hlast, tr', f', hpay, htr'⟩ := emits_buildTxPayload
    (buildTxPlcpHeader headerInfo s).1 (buildTxPlcpHeader headerInfo s).2
  have hmem : (buildTxPlcpHeader headerInfo s).2.mem = s.mem := by
    rw [hhdr]
    rfl
  rw [memReads_congr hmem] at htr'
  refine ⟨tr ++ tr', f'.triggered, ?_, ?_⟩
  · rw [buildTxFrame, hlast, closing_out, hpay, hhdr]
    simp only [List.append_assoc]
    rfl
  · have hfifo : (buildTxPlcpHeader headerInfo s).2.txFifo.triggered = f.triggered := by
      rw [hhdr]
    have hall := htr.append (hfifo ▸ htr')
    rwa [← List.append_assoc] at hall

/-- **One trigger.** Whatever the FIFO does, a frame triggers the modulator once, before it
waits for space a second time, and flushes it once, behind the last word; the words, sizes and
rates it writes are always the same. -/
theorem frame_triggered_once (headerInfo : PlcpHeader) (s : State) :
    ∃ tr, (buildTxFrame headerInfo s).out = s.out ++ tr ∧ TriggeredOnce tr
      ∧ ∀ txFifo : TxFifo, ∃ tr',
        (buildTxFrame headerInfo { s with txFifo := txFifo }).out = s.out ++ tr'
          ∧ fifoWrites tr' = fifoWrites tr := by
  obtain ⟨tr, t, hout, htr⟩ := buildTxFrame_out headerInfo s
  refine ⟨_, hout, htr.triggeredOnce, fun txFifo => ?_⟩
  obtain ⟨tr', t', hout', htr'⟩ := buildTxFrame_out headerInfo { s with txFifo := txFifo }
  refine ⟨_, hout', ?_⟩
  -- the reads see the same memory, so both lists of writes are the one of the header
  have hreads (n : ℕ) : memReads n { s with txFifo := txFifo } = memReads n s := memReads_congr rfl
  rw [fifoWrites_closing, fifoWrites_closing, htr.writes, htr'.writes, hreads]

end

end HbcMac
