import HbcMac.Messages

/-!
# One outstanding byte

The data port holds one byte. `hbc_data_irq` as an interrupt handler writes the next byte
when the last one has been taken; as `hbc_spi_data_trigger` it writes at once. Whether the port is
free at a trigger depends on the message registered before: the host raises one data interrupt for
each of its bytes, those of the acknowledge and the reply first and then those of the dump.
-/

namespace HbcMac

section
variable [Board] [HostProtocol]

/-- The bytes written to the data port. -/
def Sys.written (y : Sys) : ℕ := (dataBytes y.fw.dev.out).length

/-- The data interrupt comes when the host has taken a byte from the port. -/
def taking (y : Sys) (e : Event) : Prop := e = .data → y.taken < y.written

/-! ## The bytes of a message against the interrupts -/

/-- What the host still has to ask for: a message counts in full when it is registered, and a data
interrupt takes one byte off. `guarded` means that the loop has passed its test of
`hbc_spi_dump_busy` and no command has been completed since. -/
structure PortLedger where
  sys : Sys
  answer : ℕ
  dump : ℕ
  guarded : Bool

namespace PortLedger

/-- The bytes of the acknowledge and the reply. -/
def answerAfter (l : PortLedger) (e : Event) : ℕ :=
  match message l.sys e, e with
  | some m, _ => m.text.length
  | none, .data => if l.sys.pc = .psocHang then l.answer else l.answer - 1
  | none, _ => l.answer

/-- The bytes of the dump, which come when the others have been taken. -/
def dumpAfter (l : PortLedger) (e : Event) : ℕ :=
  match message l.sys e, e with
  | some m, _ => m.dump.elim 0 Dump.bytes
  | none, .data => if l.sys.pc = .psocHang ∨ l.answer ≠ 0 then l.dump else l.dump - 1
  | none, _ => l.dump

/-- From the test of the dump to the call of `hbc_to_spi`. -/
def guardedAfter (l : PortLedger) (e : Event) : Bool :=
  match e with
  | .main =>
    l.sys.pc = .dumpBusy && !hbcSpiDumpBusy l.sys.fw.dev || l.sys.pc = .rxForward && l.guarded
  | _ => (message l.sys e).isNone && l.guarded

/-- The system goes on, and the counts with it. -/
def step (l : PortLedger) (e : Event) : PortLedger :=
  ⟨l.sys.step e, l.answerAfter e, l.dumpAfter e, l.guardedAfter e⟩

/-- A trigger is pulled in its turn: a command is completed when the message before it has been
taken, `CMD_HBC_TX_PACKET`, which registers nothing, when it has been taken but for its last byte.
The loop forwards a packet when acknowledge and reply have been taken and more than the last byte
of the dump; a call without the test when no byte of the dump is left. -/
structure InTurn (l : PortLedger) (e : Event) : Prop where
  command : e ≠ .main → message l.sys e ≠ none → l.answer = 0 ∧ l.dump = 0
  packet : e ≠ .data → pulled l.sys e ≠ none → l.answer + l.dump ≤ 1
  forward : e = .main → message l.sys e ≠ none →
    l.answer = 0 ∧ l.dump ≠ 1 ∧ (l.guarded = false → l.dump = 0)

end PortLedger

/-! ## One call of `hbc_data_irq` -/

/-- The bytes of the acknowledge and the reply that are registered and not yet written. -/
def answerPending (s : State) : ℕ := s.spi.ackBytes + s.spi.replyBytes

omit [HostProtocol] in
/-- One call of `hbc_data_irq` writes at most one byte. -/
theorem length_hbcDataIrq (s : State) : (dataBytes (hbcDataIrq s).out).length
    = (dataBytes s.out).length + if spiPending s ≠ 0 then 1 else 0 := by
  by_cases h : spiPending s = 0
  · rw [hbcDataIrq_idle h, if_neg (not_not.mpr h)]
    rfl
  · obtain ⟨⟨b, hb⟩, -⟩ := hbcDataIrq_writes h
    rw [hb, if_pos h, List.length_append]
    rfl

omit [HostProtocol] in
/-- The byte is one of the answer while there is one, and one of the dump afterwards. -/
theorem pending_hbcDataIrq (s : State) : answerPending (hbcDataIrq s) = answerPending s - 1 ∧
    (hbcDataIrq s).spi.dumpingMem
      = if answerPending s = 0 then s.spi.dumpingMem - 1 else s.spi.dumpingMem := by
  unfold answerPending
  by_cases hack : s.spi.ackBytes = 0
  · by_cases hreply : s.spi.replyBytes = 0
    · by_cases hdump : s.spi.dumpingMem = 0
      · have hidle : spiPending s = 0 := by
          unfold spiPending
          omega
        rw [hbcDataIrq_idle hidle, hdump]
        exact ⟨by omega, by split <;> rfl⟩
      · rw [hbcDataIrq_dump hack hreply hdump, dataDump_eq]
        dsimp only
        rw [if_pos (by omega)]
        exact ⟨by omega, rfl⟩
    · rw [hbcDataIrq_reply hack hreply]
      dsimp only
      rw [if_neg (by omega)]
      exact ⟨by omega, rfl⟩
  · rw [hbcDataIrq_ack hack]
    dsimp only
    rw [if_neg (by omega)]
    exact ⟨by omega, rfl⟩

omit [Board] [HostProtocol] in
/-- Where the port is kept, nothing of it changes. -/
theorem PortKept.counts {s t : State} (h : PortKept s t) :
    (dataBytes t.out).length = (dataBytes s.out).length ∧ answerPending t = answerPending s ∧
      t.spi.dumpingMem = s.spi.dumpingMem := by
  refine ⟨congrArg List.length h.data, ?_, h.dumpingMem⟩
  rw [answerPending, h.ackBytes, h.replyBytes, answerPending]

/-- A data interrupt counts as a byte taken. -/
theorem taken_data {y : Sys} (h : y.pc ≠ .psocHang) : (y.step .data).taken = y.taken + 1 := by
  rw [Sys.step_data h]

/-- Nothing else does. -/
theorem taken_of_ne {y : Sys} (h : y.pc ≠ .psocHang) {e : Event} (he : e ≠ .data) :
    (y.step e).taken = y.taken := by
  cases e with
  | main => rw [Sys.step_main h]
  | ctrl b => rw [Sys.step_ctrl h]
  | data => exact absurd rfl he
  | rxData arr => rw [Sys.step_rxData h]
  | rxReady arr => rw [Sys.step_rxReady h]

/-- The loop registers messages at the call of `hbc_to_spi` only. -/
theorem rxCall_of_message {y : Sys} {m : Msg} (hmsg : message y .main = some m) :
    y.pc = .rxCall true := by
  by_cases hcall : y.pc = .rxCall true ∧ forwards y.fw.dev = true
  · exact hcall.1
  · have hnone : message y .main = none := (congrArg _ (if_neg hcall)).trans (ite_self none)
    cases hnone.symm.trans hmsg

/-! ## The counts over a run -/

namespace PortLedger

/-- At most one byte is outstanding, one whenever bytes are pending, and the outstanding byte is
the one the counts are ahead of the registers. Between the test and the call no dump is on. -/
structure Inv (l : PortLedger) : Prop where
  le : l.sys.taken ≤ l.sys.written
  one : l.sys.written ≤ l.sys.taken + 1
  busy : spiPending l.sys.fw.dev ≠ 0 → l.sys.taken < l.sys.written
  due : (l.answer = answerPending l.sys.fw.dev + (l.sys.written - l.sys.taken) ∧
      l.dump = l.sys.fw.dev.spi.dumpingMem) ∨
    (l.answer = 0 ∧ answerPending l.sys.fw.dev = 0 ∧
      l.dump = l.sys.fw.dev.spi.dumpingMem + (l.sys.written - l.sys.taken))
  guarded : l.guarded = true → l.sys.fw.dev.spi.dumpingMem = 0

variable {l : PortLedger} {e : Event}

@[simp] theorem step_sys : (l.step e).sys = l.sys.step e := rfl
@[simp] theorem step_answer : (l.step e).answer = l.answerAfter e := rfl
@[simp] theorem step_dump : (l.step e).dump = l.dumpAfter e := rfl

omit [Board] [HostProtocol] in
/-- What is pending is answer and dump. -/
theorem spiPending_eq (s : State) : spiPending s = answerPending s + s.spi.dumpingMem := rfl

/-- What the host has to ask for stays when no message is registered and no interrupt is served. -/
theorem counts_kept (hmsg : message l.sys e = none) (hdata : e = .data → l.sys.pc = .psocHang) :
    l.answerAfter e = l.answer ∧ l.dumpAfter e = l.dump := by
  unfold answerAfter dumpAfter
  rw [hmsg]
  cases e with
  | data => exact ⟨if_pos (hdata rfl), if_pos (Or.inl (hdata rfl))⟩
  | main | ctrl b | rxData arr | rxReady arr => exact ⟨rfl, rfl⟩

/-- A step that registers a message and triggers it with everything taken. -/
theorem Inv.registered (h : l.Inv) {m : Msg} (hpc : l.sys.pc ≠ .psocHang) (he : e ≠ .data)
    (hmsg : message l.sys e = some m) (hstarts : Starts m l.sys.fw.dev (l.sys.step e).fw.dev)
    (hfree : l.sys.written = l.sys.taken) : (l.step e).Inv := by
  have htaken := taken_of_ne hpc he
  have hwritten : (l.sys.step e).written = l.sys.written + 1 := by
    rw [Sys.written, hstarts.data, List.length_append]
    rfl
  -- nothing of an older message is left in the registers
  have hidle : spiPending l.sys.fw.dev = 0 := by
    by_contra hpending
    have := h.busy hpending
    omega
  rw [spiPending] at hidle
  have hanswer : answerPending (l.sys.step e).fw.dev + 1 = m.text.length := by
    rw [answerPending, hstarts.ackBytes, hstarts.replyBytes, Msg.length_text]
    cases m.reply with
    | none =>
      show 3 + l.sys.fw.dev.spi.replyBytes + 1 = 4
      omega
    | some w => rfl
  have hdump : (l.sys.step e).fw.dev.spi.dumpingMem = m.dump.elim 0 Dump.bytes := by
    rw [hstarts.dumpingMem]
    cases m.dump with
    | none =>
      show l.sys.fw.dev.spi.dumpingMem = 0
      omega
    | some d => rfl
  have hguard : l.guardedAfter e = false := by
    unfold guardedAfter
    split
    · rw [rxCall_of_message hmsg]
      rfl
    · rw [hmsg]
      rfl
  refine ⟨?_, ?_, fun _ => ?_, Or.inl ⟨?_, ?_⟩, fun hguarded => ?_⟩
  · show (l.sys.step e).taken ≤ (l.sys.step e).written
    omega
  · show (l.sys.step e).written ≤ (l.sys.step e).taken + 1
    omega
  · show (l.sys.step e).taken < (l.sys.step e).written
    omega
  · show l.answerAfter e = answerPending (l.sys.step e).fw.dev
      + ((l.sys.step e).written - (l.sys.step e).taken)
    unfold answerAfter
    rw [hmsg]
    dsimp only
    omega
  · show l.dumpAfter e = (l.sys.step e).fw.dev.spi.dumpingMem
    unfold dumpAfter
    rw [hmsg, hdump]
  · cases hguard.symm.trans hguarded

/-- A step that calls `hbc_data_irq` at most when nothing is pending, and leaves the port alone
otherwise. -/
theorem Inv.other (h : l.Inv) (hpc : l.sys.pc ≠ .psocHang) (he : e ≠ .data)
    (hmsg : message l.sys e = none)
    (hcounts : (l.sys.step e).written = l.sys.written ∧
      answerPending (l.sys.step e).fw.dev = answerPending l.sys.fw.dev ∧
      (l.sys.step e).fw.dev.spi.dumpingMem = l.sys.fw.dev.spi.dumpingMem) : (l.step e).Inv := by
  have htaken := taken_of_ne hpc he
  obtain ⟨hwritten, hanswer, hdump⟩ := hcounts
  have hpending : spiPending (l.sys.step e).fw.dev = spiPending l.sys.fw.dev := by
    rw [spiPending_eq, spiPending_eq, hanswer, hdump]
  obtain ⟨hanswerAfter, hdumpAfter⟩ := counts_kept hmsg fun hdata => absurd hdata he
  refine ⟨?_, ?_, ?_, ?_, fun hguarded => ?_⟩
  · show (l.sys.step e).taken ≤ (l.sys.step e).written
    rw [htaken, hwritten]
    exact h.le
  · show (l.sys.step e).written ≤ (l.sys.step e).taken + 1
    rw [htaken, hwritten]
    exact h.one
  · show spiPending (l.sys.step e).fw.dev ≠ 0 → (l.sys.step e).taken < (l.sys.step e).written
    rw [hpending, htaken, hwritten]
    exact h.busy
  · simp only [step_sys, step_answer, step_dump]
    rw [hanswerAfter, hdumpAfter, hanswer, hdump, hwritten, htaken]
    exact h.due
  · show (l.sys.step e).fw.dev.spi.dumpingMem = 0
    rw [hdump]
    replace hguarded : l.guardedAfter e = true := hguarded
    unfold guardedAfter at hguarded
    split at hguarded
    · rcases Bool.or_eq_true_iff.mp hguarded with htest | hcall
      · have hbusy := (Bool.and_eq_true_iff.mp htest).2
        simpa [hbcSpiDumpBusy] using hbusy
      · exact h.guarded (Bool.and_eq_true_iff.mp hcall).2
    · exact h.guarded (Bool.and_eq_true_iff.mp hguarded).2

/-- In the endless loop nothing moves. -/
theorem Inv.hang (h : l.Inv) (hpc : l.sys.pc = .psocHang) : (l.step e).Inv := by
  have hsys : l.sys.step e = l.sys := Sys.step_hang hpc e
  have hmsg : message l.sys e = none := if_pos hpc
  obtain ⟨hanswer, hdump⟩ := counts_kept hmsg fun _ => hpc
  have hguard : l.guardedAfter e = true → l.guarded = true := by
    unfold guardedAfter
    rw [hpc, hmsg]
    cases e <;> simp
  refine ⟨?_, ?_, ?_, ?_, fun hguarded => ?_⟩
  all_goals simp only [step_sys, step_answer, step_dump, hsys, hanswer, hdump]
  · exact h.le
  · exact h.one
  · exact h.busy
  · exact h.due
  · exact h.guarded (hguard hguarded)

/-- A data interrupt takes one byte off the counts and one out of the registers. -/
theorem Inv.data (h : l.Inv) (hpc : l.sys.pc ≠ .psocHang)
    (htaken : l.sys.taken < l.sys.written) : (l.step .data).Inv := by
  have hmsg : message l.sys .data = none := ite_self none
  have hcount := taken_data hpc
  have hstep : (l.sys.step .data).fw.dev = hbcDataIrq l.sys.fw.dev := by
    rw [Sys.step_data hpc]
  obtain ⟨hanswer, hdump⟩ := pending_hbcDataIrq l.sys.fw.dev
  have hwritten : (l.sys.step .data).written
      = l.sys.written + if spiPending l.sys.fw.dev ≠ 0 then 1 else 0 := by
    rw [Sys.written, hstep, length_hbcDataIrq]
    rfl
  have hone := h.one
  have hpending := spiPending_eq l.sys.fw.dev
  have hanswerAfter : l.answerAfter .data = l.answer - 1 := by
    unfold answerAfter
    rw [hmsg]
    exact if_neg hpc
  have hdumpAfter : l.dumpAfter .data = if l.answer = 0 then l.dump - 1 else l.dump := by
    unfold dumpAfter
    rw [hmsg]
    by_cases hzero : l.answer = 0
    · rw [if_pos hzero]
      exact if_neg (not_or.mpr ⟨hpc, not_not.mpr hzero⟩)
    · rw [if_neg hzero]
      exact if_pos (Or.inr hzero)
  rw [← hstep] at hanswer hdump
  refine ⟨?_, ?_, ?_, ?_, fun hguarded => ?_⟩
  · show (l.sys.step .data).taken ≤ (l.sys.step .data).written
    omega
  · show (l.sys.step .data).written ≤ (l.sys.step .data).taken + 1
    split at hwritten <;> omega
  · show spiPending (l.sys.step .data).fw.dev ≠ 0
      → (l.sys.step .data).taken < (l.sys.step .data).written
    rw [spiPending_eq, hanswer, hdump]
    intro hleft
    have hbusy : spiPending l.sys.fw.dev ≠ 0 := by
      split at hleft <;> omega
    rw [if_pos hbusy] at hwritten
    omega
  · simp only [step_sys, step_answer, step_dump]
    rw [hanswerAfter, hdumpAfter]
    rcases h.due with ⟨hdue, hrest⟩ | ⟨hdue, hnone, hrest⟩
    · by_cases hnone : answerPending l.sys.fw.dev = 0
      · refine Or.inr ⟨by omega, by omega, ?_⟩
        rw [if_pos hnone] at hdump
        rw [if_neg (by omega)]
        split at hwritten <;> omega
      · refine Or.inl ⟨?_, ?_⟩
        · rw [if_pos (by omega)] at hwritten
          omega
        · rw [if_neg hnone] at hdump
          rw [if_neg (by omega), hdump, hrest]
    · refine Or.inr ⟨by omega, by omega, ?_⟩
      rw [if_pos hnone] at hdump
      rw [if_pos hdue]
      split at hwritten <;> omega
  · show (l.sys.step .data).fw.dev.spi.dumpingMem = 0
    have hbefore := h.guarded (Bool.and_eq_true_iff.mp hguarded).2
    rw [hdump, hbefore]
    exact ite_self 0

omit [Board] [HostProtocol] in
/-- The port is free when nothing is due. -/
theorem Inv.free_iff (h : l.Inv) : l.sys.written = l.sys.taken ↔ l.answer = 0 ∧ l.dump = 0 := by
  have hle := h.le
  have hbusy := h.busy
  rw [spiPending_eq] at hbusy
  rcases h.due with ⟨hanswer, hdump⟩ | ⟨hanswer, hnone, hdump⟩
  · omega
  · omega

omit [Board] [HostProtocol] in
/-- Nothing is pending when at most the last byte is due. -/
theorem Inv.idle_iff (h : l.Inv) : spiPending l.sys.fw.dev = 0 ↔ l.answer + l.dump ≤ 1 := by
  have hle := h.le
  have hone := h.one
  have hbusy := h.busy
  rw [spiPending_eq] at hbusy ⊢
  rcases h.due with ⟨hanswer, hdump⟩ | ⟨hanswer, hnone, hdump⟩
  · omega
  · omega

omit [Board] [HostProtocol] in
/-- **The test is worth a dump.** Where the loop has passed it, at most the last byte is due. -/
theorem Inv.dump_le (h : l.Inv) (hguarded : l.guarded = true) : l.dump ≤ 1 := by
  have hzero := h.guarded hguarded
  have hone := h.one
  rcases h.due with ⟨-, hdump⟩ | ⟨-, -, hdump⟩
  · omega
  · omega

/-- In its turn a message finds the port free. -/
theorem InTurn.free (hturn : l.InTurn e) (h : l.Inv) (hmsg : message l.sys e ≠ none) :
    l.sys.written = l.sys.taken := by
  apply h.free_iff.mpr
  by_cases he : e = .main
  · obtain ⟨hanswer, hlast, hunguarded⟩ := hturn.forward he hmsg
    refine ⟨hanswer, ?_⟩
    cases hguarded : l.guarded with
    | false => exact hunguarded hguarded
    | true =>
      have hdump := h.dump_le hguarded
      omega
  · exact hturn.command he hmsg

omit [HostProtocol] in
/-- What a pulled trigger does to the counts. -/
theorem counts_next {s t u : State} (hbefore : PortKept s t) (hafter : PortKept (hbcDataIrq t) u) :
    (dataBytes u.out).length
        = (dataBytes s.out).length + (if spiPending s ≠ 0 then 1 else 0) ∧
      (spiPending s = 0 → answerPending u = answerPending s ∧
        u.spi.dumpingMem = s.spi.dumpingMem) := by
  obtain ⟨hout, hanswer, hdump⟩ := hbefore.counts
  obtain ⟨hout', hanswer', hdump'⟩ := hafter.counts
  refine ⟨?_, fun hidle => ?_⟩
  · rw [hout', length_hbcDataIrq, hout, spiPending_kept hbefore]
  · rw [← spiPending_kept hbefore] at hidle
    rw [hbcDataIrq_idle hidle] at hanswer' hdump'
    exact ⟨hanswer'.trans hanswer, hdump'.trans hdump⟩

/-- A step in its turn keeps the counts right. -/
theorem Inv.step (h : l.Inv) (htaking : taking l.sys e) (hturn : l.InTurn e) : (l.step e).Inv := by
  by_cases hpc : l.sys.pc = .psocHang
  · exact h.hang hpc
  · have hcases := portStep hpc e
    cases hcases with
    | kept hmsg hpull hport hrd =>
      have he : e ≠ .data := by
        rintro rfl
        cases (if_neg hpc).symm.trans hpull
      exact h.other hpc he hmsg hport.counts
    | next t hmsg hpull hbefore hrd hafter hrd' =>
      by_cases he : e = .data
      · subst he
        exact h.data hpc (htaking rfl)
      · have hidle := h.idle_iff.mpr (hturn.packet he (by simp [hpull]))
        obtain ⟨hcount, hkept⟩ := counts_next hbefore hafter
        rw [if_neg (not_not.mpr hidle)] at hcount
        exact h.other hpc he hmsg ⟨hcount, hkept hidle⟩
    | message m hmsg hpull hstarts =>
      have he : e ≠ .data := by
        rintro rfl
        cases (ite_self none).symm.trans hmsg
      exact h.registered hpc he hmsg hstarts (hturn.free h (by simp [hmsg]))

/-- A step that leaves at most one byte outstanding has been taken in its turn. -/
theorem Inv.inTurn (h : l.Inv) (hone : (l.sys.step e).written ≤ (l.sys.step e).taken + 1) :
    l.InTurn e := by
  have hle := h.le
  -- a message goes out at once, so the port has been free
  have hfree (hmsg : message l.sys e ≠ none) : l.answer = 0 ∧ l.dump = 0 := by
    have hpc : l.sys.pc ≠ .psocHang := fun hpc => hmsg (if_pos hpc)
    have he : e ≠ .data := fun he => hmsg (by rw [he]; exact ite_self none)
    have htaken := taken_of_ne hpc he
    have hcases := portStep hpc e
    cases hcases with
    | kept hnone _ _ _ => exact absurd hnone hmsg
    | next _ hnone _ _ _ _ _ => exact absurd hnone hmsg
    | message m _ _ hstarts =>
      have hwritten : (l.sys.step e).written = l.sys.written + 1 := by
        rw [Sys.written, hstarts.data, List.length_append]
        rfl
      exact h.free_iff.mp (by omega)
  refine ⟨fun _ hmsg => hfree hmsg, fun he hpull => ?_, fun _ hmsg => ?_⟩
  · have hpc : l.sys.pc ≠ .psocHang := fun hpc => hpull (if_pos hpc)
    have htaken := taken_of_ne hpc he
    have hcases := portStep hpc e
    cases hcases with
    | kept _ hnone _ _ => exact absurd hnone hpull
    | message _ _ hnone _ => exact absurd hnone hpull
    | next t _ _ hbefore _ hafter _ =>
      apply h.idle_iff.mp
      by_contra hpending
      have hbusy := h.busy hpending
      obtain ⟨hcount, -⟩ := counts_next hbefore hafter
      rw [if_pos hpending] at hcount
      change (l.sys.step e).written = l.sys.written + 1 at hcount
      omega
  · obtain ⟨hanswer, hdump⟩ := hfree hmsg
    exact ⟨hanswer, by omega, fun _ => hdump⟩

end PortLedger

/-- **One outstanding byte.** Let data interrupts come only for bytes taken from the port. From a
port with nothing registered and everything taken, at most one byte is outstanding throughout a run
if and only if every message and every `CMD_HBC_TX_PACKET` comes in its turn. -/
theorem single_outstanding {y : Sys} (hstart : y.written = y.taken)
    (hidle : spiPending y.fw.dev = 0) {evs : List Event}
    (htaking : Run.Steps Sys.step taking y evs) :
    Run.Always Sys.step (fun y => y.written ≤ y.taken + 1) y evs
      ↔ Run.Steps PortLedger.step PortLedger.InTurn ⟨y, 0, 0, false⟩ evs := by
  have hinv : PortLedger.Inv ⟨y, 0, 0, false⟩ := by
    rw [spiPending] at hidle
    refine ⟨Nat.le_of_eq hstart.symm, Nat.le_succ_of_le (Nat.le_of_eq hstart), fun hpending => ?_,
      Or.inl ⟨?_, ?_⟩, fun h => ?_⟩
    · exact absurd hidle hpending
    · show 0 = y.fw.dev.spi.ackBytes + y.fw.dev.spi.replyBytes + (y.written - y.taken)
      omega
    · show 0 = y.fw.dev.spi.dumpingMem
      omega
    · cases h
  have hproj : ∀ (l : PortLedger) e, (l.step e).sys = l.sys.step e := fun _ _ => rfl
  rw [Run.always_project PortLedger.sys hproj (t := ⟨y, 0, 0, false⟩)]
  refine Run.always_iff_steps (A := fun l e => taking l.sys e) (I := PortLedger.Inv) ?_ ?_ hinv
    hinv.one (Run.steps_of_project PortLedger.sys hproj htaking)
  · intro l e h hA hturn
    have hnext := h.step hA hturn
    exact ⟨hnext, hnext.one⟩
  · intro l e h hA hone
    exact h.inTurn hone

end

/-- `CMD_HBC_RX_AUTO`, and the host takes the first byte of the acknowledge. -/
theorem single_outstanding_ack :
    letI := plainDram
    letI := plainProtocol
    Run.Always Sys.step (fun y => y.written ≤ y.taken + 1) (Sys.boot bootState)
        ((Item.command (HostProtocol.code .hbcRxAuto) 1 []).encode.map .ctrl ++ [.data])
      ↔ Run.Steps PortLedger.step PortLedger.InTurn ⟨Sys.boot bootState, 0, 0, false⟩
        ((Item.command (HostProtocol.code .hbcRxAuto) 1 []).encode.map .ctrl ++ [.data]) := by
  let := plainDram
  let := plainProtocol
  have hctrl : Run.Steps Sys.step taking (Sys.boot bootState)
      ((Item.command (HostProtocol.code .hbcRxAuto) 1 []).encode.map .ctrl) := by
    refine Run.steps_of_forall fun y e he hdata => ?_
    obtain ⟨b, -, rfl⟩ := List.mem_map.mp he
    cases hdata
  exact single_outstanding rfl rfl
    (Run.steps_append.mpr ⟨hctrl, fun _ => by decide +kernel, trivial⟩)

/-- The announcement of the packet is written over the acknowledge. -/
theorem two_bytes_outstanding :
    letI := plainDram
    letI := plainProtocol
    Run.Steps Sys.step taking (Sys.boot bootState) packetDuringAck ∧
      ¬ Run.Always Sys.step (fun y => y.written ≤ y.taken + 1) (Sys.boot bootState)
        packetDuringAck := by
  let := plainDram
  let := plainProtocol
  refine ⟨Run.steps_of_forall fun y e he hdata => ?_, fun h => ?_⟩
  · rcases List.mem_append.mp he with h | h
    · obtain ⟨b, -, rfl⟩ := List.mem_map.mp h
      cases hdata
    · rcases List.mem_cons.mp h with rfl | h
      · cases hdata
      · rw [List.eq_of_mem_replicate h] at hdata
        cases hdata
  · have hcount : (Run.run Sys.step (Sys.boot bootState) packetDuringAck).written = 2 ∧
        (Run.run Sys.step (Sys.boot bootState) packetDuringAck).taken = 0 := by
      decide +kernel
    have hlast := h.last
    omega

end HbcMac
