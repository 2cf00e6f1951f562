import HbcMac.DumpIsolation
import HbcMac.RxSwitch
import HbcMac.Lib.SplitStep

/-!
# The main loop access by access

`tx_pending--`, `tx_flood--` and the other assignments that read what they write are a read and a
write, and outside the protected regions an interrupt may come in between. Here each access of the
loop to a static variable is a step of its own. A command that sets the variable in between is lost.
-/

namespace HbcMac

/-- The statements that read what they write, or write it after a test. -/
def Pc.updates : Pc → Bool
  | trigSeed | trigFlood | autoMask | autoSeed | autoDone => true
  | _ => false

/-- What the statement reads. `tx_flood` is read for the test and once more for the decrement. -/
def updateReads (pc : Pc) (m : MainVars) : List Word :=
  match pc with
  | .trigSeed | .autoSeed => [m.headerInfo.scramblerSeed]
  | .trigFlood => if m.txFlood ≠ 0 then [m.txFlood, m.txFlood] else [m.txFlood]
  | .autoMask => [m.pktAddr]
  | .autoDone => [m.txPending]
  | _ => []

/-- The next read, after the values `held`. -/
def updateNext (pc : Pc) (m : MainVars) (held : List Word) : Option Word :=
  match pc, held with
  | .trigSeed, [] | .autoSeed, [] => some m.headerInfo.scramblerSeed
  | .trigFlood, [] => some m.txFlood
  | .trigFlood, [t] => if t ≠ 0 then some m.txFlood else none
  | .autoMask, [] => some m.pktAddr
  | .autoDone, [] => some m.txPending
  | _, _ => none

/-- The variables after the write. -/
def updateWrite (pc : Pc) (held : List Word) (m : MainVars) : MainVars :=
  match pc, held with
  | .trigSeed, [v] | .autoSeed, [v] => { m with headerInfo.scramblerSeed := if v = 0 then 1 else 0 }
  | .trigFlood, [_, v] => { m with txFlood := v - 1 }
  | .autoMask, [v] => { m with pktAddr := v &&& memTxMask }
  | .autoDone, [v] => { m with txPending := v - 1 }
  | _, _ => m

section
variable [Board] [HostProtocol]

/-- The write ends the statement. -/
def Sys.write (y : Sys) (held : List Word) : Sys :=
  if y.pc.updates then
    { y.step .main with fw.dev := { y.fw.dev with main := updateWrite y.pc held y.fw.dev.main } }
  else y.step .main

omit [Board] [HostProtocol] in
/-- What is read next is the next variable of the statement. -/
theorem updateNext_reads {pc : Pc} {m : MainVars} {held : List Word}
    (h : held <+: updateReads pc m) :
    updateNext pc m held = (updateReads pc m)[held.length]? := by
  obtain ⟨rest, hrest⟩ := h
  -- a statement that reads one value
  have hone {v : Word} (hv : held ++ rest = [v]) : held = [] ∨ held = [v] := by
    cases held with
    | nil => exact .inl rfl
    | cons w held =>
      obtain ⟨rfl, hnil⟩ := List.cons.inj hv
      rw [(List.append_eq_nil_iff.mp hnil).1]
      exact .inr rfl
  cases pc with
  | trigSeed | autoSeed | autoMask | autoDone =>
    rcases hone hrest with rfl | rfl
    · rfl
    · rfl
  | trigFlood =>
    rw [updateReads] at hrest ⊢
    by_cases hflood : m.txFlood = 0
    · rw [if_neg (not_not.mpr hflood)] at hrest ⊢
      rcases hone hrest with rfl | rfl
      · rfl
      · exact if_neg (not_not.mpr hflood)
    · rw [if_pos hflood] at hrest ⊢
      cases held with
      | nil => rfl
      | cons t held =>
        obtain ⟨rfl, hsecond⟩ := List.cons.inj hrest
        cases held with
        | nil => exact if_pos hflood
        | cons v held =>
          obtain ⟨rfl, hnil⟩ := List.cons.inj hsecond
          rw [(List.append_eq_nil_iff.mp hnil).1]
          rfl
  | _ =>
    have hnil : held = [] := (List.append_eq_nil_iff.mp hrest).1
    rw [hnil]
    rfl

/-- With everything read undisturbed, the write is the statement. -/
theorem write_updateReads (y : Sys) : y.write (updateReads y.pc y.fw.dev.main) = y.step .main := by
  unfold Sys.write
  split
  · next hupdates =>
    obtain ⟨⟨parser, s⟩, pc, frames, sent, loads, taken⟩ := y
    cases pc with
    | trigSeed | autoMask | autoSeed | autoDone => rfl
    | trigFlood =>
      have hmain : (mainStep .trigFlood s).2 = { s with
          main := updateWrite .trigFlood (updateReads .trigFlood s.main) s.main } := by
        rw [mainStep, updateReads]
        split
        · rfl
        · rfl
      rw [Sys.step_main (fun hpc => by cases hpc)]
      exact congrArg (fun s' => Sys.mk ⟨parser, s'⟩ .trigClear (frames ++ []) sent loads taken)
        hmain.symm
    | _ => cases hupdates
  · rfl

/-- The system with the accesses of the loop. -/
def splitLoop : SplitStep Sys Event Word where
  step := Sys.step
  isMain := Event.isMain
  next y held := updateNext y.pc y.fw.dev.main held
  write := Sys.write
  reads y := updateReads y.pc y.fw.dev.main
  next_reads _ _ h := updateNext_reads h
  write_reads y e he := by
    cases e with
    | main => exact write_updateReads y
    | _ => cases he

/-! ## Statements without a command in between -/

/-- The command sets what the statement updates. -/
def Pc.updatedBy : Pc → Cmd → Bool
  | trigSeed, .hbcTxScramblerSeed | autoSeed, .hbcTxScramblerSeed | trigFlood, .hbcTxFlood
  | autoMask, .hbcTxAddr | autoDone, .hbcTxPacket => true
  | _, _ => false

/-- Between its first access and the write, the statement is the only one to set the variable. -/
def Alone (z : Sys × List Word) (e : Event) : Prop :=
  z.2 ≠ [] → (z.1.command e).any (fun r => z.1.pc.updatedBy r.1) = false

instance (z : Sys × List Word) (e : Event) : Decidable (Alone z e) :=
  inferInstanceAs (Decidable (_ → _))

omit [Board] [HostProtocol] in
/-- A command that does not set the variable leaves what is read. -/
theorem updateReads_varsOfCommand {pc : Pc} {r : Option (Cmd × Word)} {m : MainVars}
    (h : r.any (fun r => pc.updatedBy r.1) = false) :
    updateReads pc (varsOfCommand r m) = updateReads pc m := by
  cases r with
  | none => rfl
  | some r =>
    obtain ⟨cmd, arg⟩ := r
    cases cmd with
    | hbcTxScramblerSeed | hbcTxFlood | hbcTxAddr | hbcTxPacket =>
      cases pc <;> first | rfl | cases h
    | _ => cases pc <;> rfl

/-- So an interrupt without such a command disturbs nothing. -/
theorem Alone.undisturbed {z : Sys × List Word} {e : Event} (h : Alone z e)
    (hz : splitLoop.Current z) : splitLoop.Undisturbed z e := by
  intro he
  have hmain : e ≠ .main := by
    rintro rfl
    cases he
  obtain ⟨y, held⟩ := z
  by_cases hheld : held = []
  · rw [hheld]
    exact List.nil_prefix
  · obtain ⟨toggle, hvars⟩ := y.step_main_vars e
    have hafter : y.varsAfter e = varsOfCommand (y.command e) y.fw.dev.main := by
      cases e with
      | main => exact absurd rfl hmain
      | _ => rfl
    have hreads : updateReads (y.step e).pc (y.step e).fw.dev.main
        = updateReads y.pc y.fw.dev.main := by
      rw [Sys.step_pc hmain, hvars, hafter]
      exact updateReads_varsOfCommand (h hheld)
    show held <+: updateReads (y.step e).pc (y.step e).fw.dev.main
    rw [hreads]
    exact hz

/-- **The statements of the loop are atomic** as long as no command sets a variable the loop is
about to write: access by access, the system does what it does statement by statement, with the same
interrupts in the same order. -/
theorem loop_atomic {y : Sys} {evs : List Event}
    (hC : Run.Steps splitLoop.access Alone (y, []) evs) :
    ∃ es, (Run.run splitLoop.access (y, []) evs).1 = Run.run Sys.step y es ∧
      es.filter (fun e => !e.isMain) = evs.filter fun e => !e.isMain := by
  have hstart : splitLoop.Current (y, []) := List.nil_prefix
  have hcurrent : Run.Always splitLoop.access splitLoop.Current (y, []) evs :=
    Run.always_of_step (fun _ _ hz he => (hz.access (he.undisturbed hz)).1) hstart hC
  have hundisturbed : Run.Steps splitLoop.access splitLoop.Undisturbed (y, []) evs :=
    (hC.and hcurrent.steps).mono fun _ _ h => h.1.undisturbed h.2.1
  exact ⟨_, (hstart.run hundisturbed).2, splitLoop.others_actions (y, []) evs⟩

/-! ## The count of packets -/

/-- An interrupt counts the packet it announces. -/
theorem Sys.step_txPending {y : Sys} {e : Event} (he : e ≠ .main) :
    (y.step e).fw.dev.main.txPending = y.fw.dev.main.txPending
      + BitVec.ofNat 32 ((y.command e).any fun r => r.1 = .hbcTxPacket).toNat ∧
    (y.step e).autoSent = y.autoSent := by
  have hsent : (y.step e).autoSent = y.autoSent := by
    by_cases h : y.pc = .psocHang
    · rw [Sys.step_hang h]
    · cases e with
      | main => exact absurd rfl he
      | ctrl b => rw [Sys.step_ctrl h]
      | data => rw [Sys.step_data h]
      | rxData arr => rw [Sys.step_rxData h]
      | rxReady arr => rw [Sys.step_rxReady h]
  obtain ⟨toggle, hvars⟩ := y.step_main_vars e
  have hafter : y.varsAfter e = varsOfCommand (y.command e) y.fw.dev.main := by
    cases e with
    | main => exact absurd rfl he
    | _ => rfl
  refine ⟨?_, hsent⟩
  rw [hvars, hafter]
  cases y.command e with
  | none => exact (BitVec.add_zero _).symm
  | some r =>
    obtain ⟨cmd, arg⟩ := r
    cases cmd with
    | hbcTxPacket => rfl
    | _ => exact (BitVec.add_zero _).symm

omit [Board] [HostProtocol] in
/-- Of the writes only `tx_pending--` sets the count. -/
theorem updateWrite_txPending {pc : Pc} (hpc : pc ≠ .autoDone) (held : List Word) (m : MainVars) :
    (updateWrite pc held m).txPending = m.txPending := by
  unfold updateWrite
  split
  case h_5 => exact absurd rfl hpc
  all_goals rfl

/-- `tx_pending--`, after the value `v` has been read. -/
theorem Sys.write_autoDone {y : Sys} (hpc : y.pc = .autoDone) (v : Word) :
    (y.write [v]).fw.dev.main.txPending = v - 1 ∧ (y.write [v]).autoSent = y.autoSent + 1 := by
  have hrunning : y.pc ≠ .psocHang := by
    rw [hpc]
    decide
  have hsent : (y.step .main).autoSent = y.autoSent + 1 := by
    rw [Sys.step_main hrunning]
    exact if_pos hpc
  unfold Sys.write
  rw [hpc, if_pos (show Pc.autoDone.updates = true from rfl)]
  exact ⟨rfl, hsent⟩

/-- The other statements leave the count alone. -/
theorem Sys.write_txPending {y : Sys} (hpc : y.pc ≠ .autoDone) (held : List Word) :
    (y.write held).fw.dev.main.txPending = y.fw.dev.main.txPending ∧
      (y.write held).autoSent = y.autoSent := by
  have hsent : (y.step .main).autoSent = y.autoSent := by
    by_cases h : y.pc = .psocHang
    · rw [Sys.step_hang h]
    · rw [Sys.step_main h]
      exact if_neg hpc
  unfold Sys.write
  split
  · exact ⟨updateWrite_txPending hpc held y.fw.dev.main, hsent⟩
  · obtain ⟨toggle, hvars⟩ := y.step_main_vars .main
    refine ⟨?_, hsent⟩
    rw [hvars]
    show (varsOfMain y.pc y.fw.dev).txPending = _
    unfold varsOfMain
    split
    case h_5 => split <;> rfl
    case h_8 heq => exact absurd heq hpc
    all_goals rfl

/-- The loop access by access, the packets announced since start-up, those announced since the
present statement has read its variable, and those of which the count has been lost. -/
structure TxLedger where
  split : Sys × List Word
  queued : ℕ
  window : ℕ
  lost : ℕ

namespace TxLedger

/-- A packet is announced. -/
def queues (l : TxLedger) (e : Event) : ℕ :=
  ((l.split.1.command e).any fun r => r.1 = .hbcTxPacket).toNat

/-- `tx_pending--` writes. -/
def decrements (l : TxLedger) (e : Event) : Bool :=
  e.isMain && l.split.1.pc = .autoDone && l.split.2 ≠ []

/-- At the start nothing has been announced. -/
def boot (s : State) : TxLedger := ⟨(Sys.boot s, []), 0, 0, 0⟩

/-- One access or interrupt, and the counts. A `tx_pending--` loses what was announced after its
read. -/
def step (l : TxLedger) (e : Event) : TxLedger where
  split := splitLoop.access l.split e
  queued := l.queued + l.queues e
  window := if (splitLoop.access l.split e).2 = [] then 0 else l.window + l.queues e
  lost := if l.decrements e then l.lost + l.window else l.lost

/-- `tx_pending` counts the packets that have been announced and neither sent nor lost. -/
structure Inv (l : TxLedger) : Prop where
  pending : l.split.1.fw.dev.main.txPending + BitVec.ofNat 32 l.split.1.autoSent
    + BitVec.ofNat 32 l.lost = BitVec.ofNat 32 l.queued
  window : l.split.2 = [] → l.window = 0
  read : l.split.1.pc = .autoDone → ∀ v rest, l.split.2 = v :: rest →
    rest = [] ∧ v + BitVec.ofNat 32 l.window = l.split.1.fw.dev.main.txPending

variable {l : TxLedger} {e : Event}

/-- An interrupt. -/
theorem Inv.interrupt (h : l.Inv) (he : e.isMain = false) : (l.step e).Inv := by
  have hmain : e ≠ .main := by
    rintro rfl
    cases he
  have hsplit : (l.step e).split = (l.split.1.step e, l.split.2) :=
    (SplitStep.access_other he).1
  have hlost : (l.step e).lost = l.lost := by
    show ite _ _ _ = _
    rw [decrements, he]
    rfl
  have hwindow : (l.step e).window = if l.split.2 = [] then 0 else l.window + l.queues e := by
    show ite ((splitLoop.access l.split e).2 = []) _ _ = _
    rw [(SplitStep.access_other he).1]
  obtain ⟨hpending, hsent⟩ := l.split.1.step_txPending hmain
  refine ⟨?_, fun hnone => ?_, fun hpc v rest hheld => ?_⟩
  · rw [hsplit, hlost, hpending, hsent]
    show _ = BitVec.ofNat 32 (l.queued + l.queues e)
    rw [BitVec.ofNat_add, ← h.pending, queues]
    grind
  · rw [hsplit] at hnone
    rw [hwindow, if_pos hnone]
  · rw [hsplit] at hheld hpc ⊢
    rw [Sys.step_pc hmain] at hpc
    obtain ⟨hrest, hread⟩ := h.read hpc v rest hheld
    refine ⟨hrest, ?_⟩
    rw [hwindow, if_neg (by rw [hheld]; exact List.cons_ne_nil v rest), hpending, ← hread,
      BitVec.ofNat_add, queues]
    grind

/-- An access of the loop. -/
theorem Inv.main (h : l.Inv) : (l.step .main).Inv := by
  have hqueues : l.queues .main = 0 := rfl
  have hheld (v : Word) (rest : List Word) (hpc : l.split.1.pc = .autoDone)
      (hv : l.split.2 = v :: rest) : splitLoop.next l.split.1 l.split.2 = none := by
    show updateNext l.split.1.pc l.split.1.fw.dev.main l.split.2 = none
    rw [hpc, hv]
    rfl
  have hisMain : splitLoop.isMain .main = true := rfl
  cases hnext : splitLoop.next l.split.1 l.split.2 with
  | some r =>
    -- a read: the window begins, if it does, with this one
    have hsplit : (l.step .main).split = (l.split.1, l.split.2 ++ [r]) :=
      (SplitStep.access_read hisMain hnext).1
    have hfirst (hpc : l.split.1.pc = .autoDone) : l.split.2 = [] := by
      cases hv : l.split.2 with
      | nil => rfl
      | cons v rest =>
        rw [hheld v rest hpc hv] at hnext
        cases hnext
    have hlost : (l.step .main).lost = l.lost := by
      show ite _ _ _ = _
      by_cases hpc : l.split.1.pc = .autoDone
      · rw [decrements, hfirst hpc]
        simp
      · rw [decrements, decide_eq_false hpc]
        simp
    have hwindow : (l.step .main).window = l.window := by
      show ite ((splitLoop.access l.split .main).2 = []) _ _ = _
      rw [(SplitStep.access_read hisMain hnext).1]
      exact if_neg (by simp)
    refine ⟨?_, fun hnone => ?_, fun hpc v rest hv => ?_⟩
    · rw [hsplit, hlost]
      exact h.pending
    · rw [hsplit] at hnone
      simp at hnone
    · rw [hsplit] at hpc hv ⊢
      have hnil := hfirst hpc
      rw [hnil, List.nil_append] at hv
      obtain ⟨rfl, rfl⟩ := List.cons.inj hv
      have hr : some l.split.1.fw.dev.main.txPending = some r := by
        rw [← hnext, hnil]
        show _ = updateNext l.split.1.pc l.split.1.fw.dev.main []
        rw [hpc]
        rfl
      rw [hwindow, h.window hnil, Option.some.inj hr]
      exact ⟨rfl, BitVec.add_zero _⟩
  | none =>
    have hsplit : (l.step .main).split = (l.split.1.write l.split.2, []) :=
      (SplitStep.access_write hisMain hnext).1
    have hwindow : (l.step .main).window = 0 := by
      show ite ((splitLoop.access l.split .main).2 = []) _ _ = _
      rw [(SplitStep.access_write hisMain hnext).1]
      exact if_pos rfl
    refine ⟨?_, fun _ => hwindow, fun _ v rest hv => by rw [hsplit] at hv; cases hv⟩
    by_cases hpc : l.split.1.pc = .autoDone
    · -- what has been announced since the read is lost
      cases hv : l.split.2 with
      | nil =>
        have hread : splitLoop.next l.split.1 l.split.2
            = some l.split.1.fw.dev.main.txPending := by
          show updateNext l.split.1.pc l.split.1.fw.dev.main l.split.2 = _
          rw [hpc, hv]
          rfl
        rw [hread] at hnext
        cases hnext
      | cons v rest =>
        obtain ⟨rfl, hread⟩ := h.read hpc v rest hv
        have hlost : (l.step .main).lost = l.lost + l.window := by
          show ite _ _ _ = _
          rw [decrements, hpc, hv]
          simp [Event.isMain]
        obtain ⟨hpending, hsent⟩ := Sys.write_autoDone hpc v
        have hqueued : (l.step .main).queued = l.queued := rfl
        rw [hsplit, hv, hlost, hpending, hsent, hqueued, ← h.pending, ← hread, BitVec.ofNat_add,
          BitVec.ofNat_add]
        grind
    · have hlost : (l.step .main).lost = l.lost := by
        show ite _ _ _ = _
        rw [decrements, decide_eq_false hpc]
        simp
      obtain ⟨hpending, hsent⟩ := Sys.write_txPending hpc l.split.2
      rw [hsplit, hlost, hpending, hsent]
      exact h.pending

/-- One access or interrupt keeps the account. -/
theorem Inv.step (h : l.Inv) (e : Event) : (l.step e).Inv := by
  cases e with
  | main => exact h.main
  | ctrl b | data | rxData arr | rxReady arr => exact h.interrupt rfl

omit [HostProtocol] [Board] in
/-- It is right at the start. -/
theorem inv_boot {s : State} (h : Boot s) : (boot s).Inv := by
  refine ⟨?_, fun _ => rfl, fun _ v rest hv => by cases hv⟩
  show s.main.txPending + 0 + 0 = 0
  rw [h.main]
  rfl

end TxLedger

/-- **The account of `tx_pending`, access by access.** In every run from start-up, wherever the
interrupts come in, `tx_pending` is the number of packets announced less those sent and less those
announced between the read and the write of a `tx_pending--`. -/
theorem tx_pending_split {s : State} (hboot : Boot s) (evs : List Event) :
    let l := Run.run TxLedger.step (TxLedger.boot s) evs
    l.split.1.fw.dev.main.txPending
      = BitVec.ofNat 32 l.queued - BitVec.ofNat 32 l.split.1.autoSent - BitVec.ofNat 32 l.lost := by
  intro l
  have hinv : l.Inv :=
    Run.run_of_invariant (fun _ e h => h.step e) (TxLedger.inv_boot hboot) evs
  rw [← hinv.pending]
  grind

end

/-! ## A frame on trigger, and a packet lost -/

/-- `CMD_HBC_TX_AUTO` comes between the read and the write of `tx_flood--`. -/
def floodOnce [HostProtocol] : List Event :=
  sending .hbcTxFlood 1 ++ List.replicate 10 .main ++ sending .hbcTxAuto 1
    ++ List.replicate 3 .main

theorem loop_atomic_flood :
    letI := plainDram
    letI := plainProtocol
    ∃ es, (Run.run splitLoop.access (Sys.boot bootState, []) floodOnce).1
        = Run.run Sys.step (Sys.boot bootState) es ∧
      es.filter (fun e => !e.isMain) = floodOnce.filter fun e => !e.isMain :=
  @loop_atomic plainDram.toBoard plainProtocol (Sys.boot bootState) (@floodOnce plainProtocol) (by
    decide +kernel)

/-- The second `CMD_HBC_TX_PACKET` comes between the read and the write of `tx_pending--`. -/
def loseOne [HostProtocol] : List Event :=
  sending .hbcTxAuto 1 ++ sending .hbcTxPacket 0 ++ List.replicate 15 .main
    ++ sending .hbcTxPacket 0 ++ [.main]

/-- One packet is announced in between, and its count is lost. -/
theorem tx_pending_split_lost :
    letI := plainDram
    letI := plainProtocol
    let l := Run.run TxLedger.step (TxLedger.boot bootState) loseOne
    l.split.1.fw.dev.main.txPending
      = BitVec.ofNat 32 l.queued - BitVec.ofNat 32 l.split.1.autoSent - BitVec.ofNat 32 l.lost :=
  @tx_pending_split plainDram.toBoard plainProtocol bootState bootState_boot
    (@loseOne plainProtocol)

/-- It has been announced and is not pending, but has not been sent. -/
example :
    letI := plainDram
    letI := plainProtocol
    let l := Run.run TxLedger.step (TxLedger.boot bootState) loseOne
    (l.queued, l.split.1.autoSent, l.lost) = (2, 1, 1) := by
  decide +kernel

end HbcMac
