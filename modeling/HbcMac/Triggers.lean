import HbcMac.Loopback
import HbcMac.RxSwitch

/-!
# Frames on request

`CMD_HBC_TX_TRIGGER` sets `send_packet` and the length in `header_info`. The trigger branch
clears the flag some statements behind the frame, and the auto branch puts its own length into
the same header, so a trigger can get lost and a frame can get the length of another one.
-/

namespace HbcMac

/-- A frame sent with `send_packet` set, and the length of the latest trigger. -/
structure Requested where
  frame : Frame
  pdsuLength : Byte

/-- The system, with what its triggers ask for. -/
structure TriggerWatch where
  sys : Sys
  /-- A trigger has come since the latest frame of the trigger branch was built. -/
  fresh : Bool
  /-- The length of the latest trigger. -/
  asked : Byte
  requested : List Requested

section
variable [Board] [HostProtocol]

/-! ## Runs -/

/-- The length a command asks for, if it is a trigger. -/
def triggerLength : Option (Cmd × Word) → Option Byte
  | some (.hbcTxTrigger, arg) => some (arg.setWidth 8)
  | _ => none

/-- The frame of the trigger branch, if this step sends one with `send_packet` set. -/
def TriggerWatch.newRequested (w : TriggerWatch) : Event → List Requested
  | .main =>
    if w.sys.pc = .trigBuild ∧ w.sys.fw.dev.main.sendPacket ≠ 0 then
      (framesOf .trigBuild w.sys.fw.dev (trigBuild w.sys.fw.dev)).map fun f => ⟨f, w.asked⟩
    else []
  | _ => []

/-- One event, with the triggers that have come and the frames sent for them. -/
def TriggerWatch.step (w : TriggerWatch) (e : Event) : TriggerWatch where
  sys := w.sys.step e
  fresh :=
    match e with
    | .main => w.fresh && w.sys.pc ≠ .trigBuild
    | _ => w.fresh || (triggerLength (w.sys.command e)).isSome
  asked := (triggerLength (w.sys.command e)).getD w.asked
  requested := w.requested ++ w.newRequested e

/-- At the start nothing has been asked for. -/
def TriggerWatch.boot (s : State) : TriggerWatch := ⟨Sys.boot s, false, 0, []⟩

/-! ## The flag -/

/-- The statements of the trigger branch behind the frame, `send_packet = 0` the last of them. -/
def Pc.behindFrame : Pc → Bool
  | .trigSeed | .trigRxEnable | .trigFlood | .trigClear => true
  | _ => false

/-- No trigger is accepted between the frame and `send_packet = 0`. -/
def NotBehindFrame (w : TriggerWatch) (e : Event) : Prop :=
  w.sys.pc.behindFrame = true → triggerLength (w.sys.command e) = none

/-- A trigger that has come since the latest frame is still to be served. -/
structure TriggerInv (w : TriggerWatch) : Prop where
  pending : w.fresh = true → w.sys.fw.dev.main.sendPacket ≠ 0
  served : w.sys.pc.behindFrame = true → w.fresh = false

omit [Board] [HostProtocol] in
/-- A trigger sets the flag. -/
theorem varsOfCommand_sendPacket (r : Option (Cmd × Word)) (m : MainVars) :
    (varsOfCommand r m).sendPacket = if (triggerLength r).isSome then 1 else m.sendPacket := by
  cases r with
  | none => rfl
  | some r =>
    obtain ⟨cmd, arg⟩ := r
    cases cmd <;> rfl

omit [HostProtocol] in
/-- The last statement of the branch clears it. -/
theorem varsOfMain_sendPacket (pc : Pc) (s : State) :
    (varsOfMain pc s).sendPacket = if pc = .trigClear then 0 else s.main.sendPacket := by
  cases pc with
  | trigFlood =>
    unfold varsOfMain
    dsimp only
    split <;> rfl
  | _ => rfl

/-- The statements behind the frame are reached through it. -/
theorem behindFrame_mainStep {pc : Pc} {s : State} (h : (mainStep pc s).1.behindFrame = true) :
    pc = .trigBuild ∨ pc.behindFrame = true ∧ pc ≠ .trigClear := by
  cases pc with
  | trigBuild => exact .inl rfl
  | trigSeed | trigRxEnable | trigFlood => exact .inr ⟨rfl, by decide⟩
  | sendPacket | txFlood | txAuto | pendingMany | pendingOne | loadBusy | rxFlood | rxAuto
  | dumpBusy | psocFlash =>
    simp only [mainStep] at h
    split at h <;> cases h
  | trigLed | trigRxDisable | trigClear | autoLed | autoRxDisable | autoBuild | autoMask | autoSeed
  | autoRxEnable | autoDone | rxForward | rxCall _ | psocCall | psocHang => cases h

/-- A statement of the loop. -/
theorem TriggerInv.main {w : TriggerWatch} (h : TriggerInv w) : TriggerInv (w.step .main) := by
  obtain ⟨hpc, hdev⟩ := w.sys.step_main_dev
  obtain ⟨toggle, hvars⟩ := w.sys.step_main_vars .main
  have hflag : (w.step .main).sys.fw.dev.main.sendPacket
      = if w.sys.pc = .trigClear then 0 else w.sys.fw.dev.main.sendPacket := by
    show (w.sys.step .main).fw.dev.main.sendPacket = _
    rw [hvars]
    exact varsOfMain_sendPacket w.sys.pc w.sys.fw.dev
  have hfresh (hnew : (w.step .main).fresh = true) : w.fresh = true ∧ w.sys.pc ≠ .trigBuild := by
    obtain ⟨hold, hbuild⟩ := Bool.and_eq_true_iff.mp hnew
    exact ⟨hold, of_decide_eq_true hbuild⟩
  constructor
  · -- the flag is cleared behind the frame only, where no trigger is fresh
    intro hnew
    obtain ⟨hold, -⟩ := hfresh hnew
    have hclear : w.sys.pc ≠ .trigClear := by
      intro hat
      have hserved := h.served (by rw [hat]; rfl)
      rw [hserved] at hold
      cases hold
    rw [hflag, if_neg hclear]
    exact h.pending hold
  · -- the way behind the frame leads through it, and the frame makes every trigger old
    intro hbehind
    by_contra hnew
    obtain ⟨hold, hbuild⟩ := hfresh (Bool.not_eq_false _ ▸ hnew)
    have hnext : (mainStep w.sys.pc w.sys.fw.dev).1.behindFrame = true := hpc ▸ hbehind
    rcases behindFrame_mainStep hnext with hat | ⟨hwas, -⟩
    · exact hbuild hat
    · rw [h.served hwas] at hold
      cases hold

/-- Any step with no trigger behind a frame. -/
theorem TriggerInv.step {w : TriggerWatch} {e : Event} (h : TriggerInv w)
    (hC : NotBehindFrame w e) : TriggerInv (w.step e) := by
  by_cases he : e = .main
  · rw [he]
    exact h.main
  · -- an interrupt does not move the main loop
    obtain ⟨toggle, hvars⟩ := w.sys.step_main_vars e
    have hflag : (w.step e).sys.fw.dev.main.sendPacket
        = if (triggerLength (w.sys.command e)).isSome then 1
          else w.sys.fw.dev.main.sendPacket := by
      show (w.sys.step e).fw.dev.main.sendPacket = _
      rw [hvars]
      cases e with
      | main => exact absurd rfl he
      | _ => exact varsOfCommand_sendPacket _ _
    have hfresh : (w.step e).fresh
        = (w.fresh || (triggerLength (w.sys.command e)).isSome) := by
      cases e with
      | main => exact absurd rfl he
      | _ => rfl
    have hpc : (w.step e).sys.pc = w.sys.pc := Sys.step_pc he
    constructor
    · intro hnew
      rw [hflag]
      by_cases htrigger : (triggerLength (w.sys.command e)).isSome = true
      · rw [if_pos htrigger]
        decide
      · rw [if_neg htrigger]
        rw [hfresh, Bool.eq_false_iff.mpr htrigger, Bool.or_false] at hnew
        exact h.pending hnew
    · intro hbehind
      -- the condition: no trigger here
      rw [hpc] at hbehind
      rw [hfresh, h.served hbehind, hC hbehind]
      rfl

/-- **No trigger is lost.** At the head of the main loop `send_packet` is set if a trigger has
come since the latest frame of the trigger branch was built, provided none has come between such
a frame and the statement that clears the flag. -/
theorem trigger_pending_at_head {s : State} {evs : List Event}
    (hC : Run.Steps TriggerWatch.step NotBehindFrame (TriggerWatch.boot s) evs) :
    Run.Always TriggerWatch.step
      (fun w => w.sys.pc = .sendPacket → w.fresh = true → w.sys.fw.dev.main.sendPacket ≠ 0)
      (TriggerWatch.boot s) evs := by
  have hstart : TriggerInv (TriggerWatch.boot s) := by
    constructor
    · intro hfresh
      cases hfresh
    · intro _
      rfl
  refine (Run.always_of_step (I := TriggerInv) (fun _ _ h hstep => h.step hstep) hstart hC).mono ?_
  intro w h _ hfresh
  exact h.pending hfresh

end

/-- A second trigger just behind the frame of the first one. -/
theorem trigger_pending_at_head_second :
    letI := plainDram
    letI := plainProtocol
    Run.Always TriggerWatch.step
      (fun w => w.sys.pc = .sendPacket → w.fresh = true → w.sys.fw.dev.main.sendPacket ≠ 0)
      (TriggerWatch.boot bootState)
      (sending .hbcTxTrigger 5 ++ List.replicate 8 .main ++ sending .hbcTxTrigger 6
        ++ List.replicate 4 .main) := by
  let := plainDram
  let := plainProtocol
  have hmain (w : TriggerWatch) (n : ℕ) :
      Run.Steps TriggerWatch.step NotBehindFrame w (List.replicate n .main) := by
    refine Run.steps_of_forall fun w e he _ => ?_
    rw [List.eq_of_mem_replicate he]
    rfl
  apply trigger_pending_at_head
  refine Run.steps_append.mpr ⟨Run.steps_append.mpr ⟨Run.steps_append.mpr ⟨?_, hmain _ _⟩, ?_⟩,
    hmain _ _⟩
  · refine ⟨?_, ?_, ?_, ?_, ?_, ?_, ?_, trivial⟩ <;>
      intro hbehind <;> exact absurd hbehind (by decide +kernel)
  · refine ⟨?_, ?_, ?_, ?_, ?_, ?_, ?_, trivial⟩ <;>
      intro hbehind <;> exact absurd hbehind (by decide +kernel)

/-- A trigger while the frame of another one has been built but the flag is still set. -/
def triggerBehindFrame [HostProtocol] : List Event :=
  sending .hbcTxTrigger 5 ++ List.replicate 4 .main ++ sending .hbcTxTrigger 6
    ++ List.replicate 8 .main

/-- The second trigger is lost. -/
theorem trigger_lost :
    letI := plainDram
    letI := plainProtocol
    ¬ Run.Always TriggerWatch.step
      (fun w => w.sys.pc = .sendPacket → w.fresh = true → w.sys.fw.dev.main.sendPacket ≠ 0)
      (TriggerWatch.boot bootState) triggerBehindFrame := by
  let := plainDram
  let := plainProtocol
  intro h
  have hpc : (Run.run TriggerWatch.step (TriggerWatch.boot bootState)
      triggerBehindFrame).sys.pc = .sendPacket := by decide +kernel
  have hfresh : (Run.run TriggerWatch.step (TriggerWatch.boot bootState)
      triggerBehindFrame).fresh = true := by decide +kernel
  have hflag : (Run.run TriggerWatch.step (TriggerWatch.boot bootState)
      triggerBehindFrame).sys.fw.dev.main.sendPacket = 0 := by decide +kernel
  have hlast := h.last
  generalize Run.run TriggerWatch.step (TriggerWatch.boot bootState) triggerBehindFrame = w
    at hpc hfresh hflag hlast
  exact hlast hpc hfresh hflag

section
variable [Board] [HostProtocol]

/-! ## The length -/

/-- The header of the frame says `n` bytes, and as many words as `n` bytes take follow it. -/
def Frame.OfLength (f : Frame) (n : Byte) : Prop :=
  f.headerInfo.pdsuLength = n ∧ ∃ header payload, f.words = header :: payload
    ∧ (hdrRead header hdrLenMask hdrLenShift).setWidth 8 = n
    ∧ payload.length = (n.toNat + 3) / 4

/-- Every frame sent with `send_packet` set has the length of the latest trigger. -/
def LengthsAsAsked (w : TriggerWatch) : Prop :=
  ∀ r ∈ w.requested, r.frame.OfLength r.pdsuLength

/-- The command leaves the rate and the seed of the frames alone. -/
def LeavesFields (r : Option (Cmd × Word)) : Prop :=
  ∀ cmd arg, r = some (cmd, arg) → cmd ≠ .hbcTxSpreadFactor ∧ cmd ≠ .hbcTxScramblerSeed

/-- The auto branch builds no frame of another length while a trigger is pending. -/
def AutoMatches (w : TriggerWatch) (e : Event) : Prop :=
  e = .main → w.sys.pc = .autoBuild → w.sys.fw.dev.main.sendPacket = 0 ∨
    (autoHeader w.sys.fw.dev).pdsuLength = w.sys.fw.dev.main.headerInfo.pdsuLength

/-- The header is in range, and as long as `send_packet` is set its length is that of the latest
trigger. -/
structure LengthInv (w : TriggerWatch) : Prop where
  valid : w.sys.fw.dev.main.headerInfo.Valid
  pending : w.sys.fw.dev.main.sendPacket ≠ 0 → w.sys.fw.dev.main.headerInfo.pdsuLength = w.asked
  sent : LengthsAsAsked w

omit [HostProtocol] in
/-- The frame of the trigger branch. -/
theorem framesOf_trigBuild (s : State) : framesOf .trigBuild s (trigBuild s)
    = [⟨false, s.main.headerInfo.built, frameWords (memSetRdP 0 s)⟩] := by
  -- `sendFrame_eq` gives the frame as what is modulated between the two states
  obtain ⟨new, f, heq, hmod, -⟩ := sendFrame_eq (memSetRdP 0 s)
  have hout : (trigBuild s).out = s.out ++ new := by
    rw [trigBuild, heq]
    rfl
  have hheader : (trigBuild s).main.headerInfo = s.main.headerInfo.built := by
    rw [trigBuild, heq]
    rfl
  unfold framesOf
  dsimp only
  rw [hout, hheader, modulated_append, List.drop_left, hmod]

omit [HostProtocol] in
/-- The frame has the length in the header. -/
theorem ofLength_trigBuild {s : State} (h : s.main.headerInfo.Valid) :
    (⟨false, s.main.headerInfo.built, frameWords (memSetRdP 0 s)⟩ : Frame).OfLength
      s.main.headerInfo.pdsuLength := by
  refine ⟨rfl, _, _, rfl, hdrRead_length h, ?_⟩
  rw [length_descramble, length_memReads]
  exact payloadWords_toNat s.main.headerInfo.pdsuLength

omit [Board] [HostProtocol] in
/-- Only the triggers change the length, and the header stays in range. -/
theorem header_varsOfCommand {r : Option (Cmd × Word)} (hr : LeavesFields r) {m : MainVars}
    (hm : m.headerInfo.Valid) : (varsOfCommand r m).headerInfo.Valid
      ∧ (varsOfCommand r m).headerInfo.pdsuLength
        = (triggerLength r).getD m.headerInfo.pdsuLength := by
  cases r with
  | none => exact ⟨hm, rfl⟩
  | some r =>
    obtain ⟨cmd, arg⟩ := r
    obtain ⟨hrate, hseed⟩ := hr cmd arg rfl
    cases cmd with
    | hbcTxSpreadFactor => exact absurd rfl hrate
    | hbcTxScramblerSeed => exact absurd rfl hseed
    | hbcTxTrigger => exact ⟨⟨hm.dataRate, hm.pilotInfo, hm.burstMode, hm.scramblerSeed⟩, rfl⟩
    | _ => exact ⟨hm, rfl⟩

omit [HostProtocol] in
/-- Only the auto branch changes the length. -/
theorem header_varsOfMain (pc : Pc) {s : State} (hs : s.main.headerInfo.Valid) :
    (varsOfMain pc s).headerInfo.Valid ∧ (varsOfMain pc s).headerInfo.pdsuLength
      = if pc = .autoBuild then (autoHeader s).pdsuLength else s.main.headerInfo.pdsuLength := by
  have htoggled : (if s.main.headerInfo.scramblerSeed = 0 then (1 : Word) else 0) = 0
      ∨ (if s.main.headerInfo.scramblerSeed = 0 then (1 : Word) else 0) = 1 := by
    split
    · exact .inr rfl
    · exact .inl rfl
  cases pc with
  | trigFlood =>
    unfold varsOfMain
    dsimp only
    split <;> exact ⟨hs, rfl⟩
  | trigSeed | autoSeed => exact ⟨⟨hs.dataRate, hs.pilotInfo, hs.burstMode, htoggled⟩, rfl⟩
  | trigBuild | autoBuild =>
    exact ⟨⟨hs.dataRate, hs.pilotInfo, hs.burstMode, hs.scramblerSeed⟩, rfl⟩
  | _ => exact ⟨hs, rfl⟩

omit [HostProtocol] in
/-- A new frame has the length of the latest trigger. -/
theorem LengthInv.newRequested {w : TriggerWatch} (h : LengthInv w) (e : Event) :
    ∀ r ∈ w.newRequested e, r.frame.OfLength r.pdsuLength := by
  intro r hr
  cases e with
  | main =>
    unfold TriggerWatch.newRequested at hr
    dsimp only at hr
    split at hr
    · rename_i hbuild
      rw [framesOf_trigBuild] at hr
      rw [List.mem_singleton.mp hr]
      exact h.pending hbuild.2 ▸ ofLength_trigBuild h.valid
    · cases hr
  | _ => cases hr

/-- A step that leaves the length asked for. -/
theorem LengthInv.step {w : TriggerWatch} {e : Event} (h : LengthInv w)
    (hC : LeavesFields (w.sys.command e) ∧ AutoMatches w e) : LengthInv (w.step e) := by
  obtain ⟨hfields, hauto⟩ := hC
  obtain ⟨toggle, hvars⟩ := w.sys.step_main_vars e
  have hsent : LengthsAsAsked (w.step e) := by
    intro r hr
    rcases List.mem_append.mp hr with hold | hnew
    · exact h.sent r hold
    · exact h.newRequested e r hnew
  have hheader : (w.step e).sys.fw.dev.main.headerInfo = (w.sys.varsAfter e).headerInfo := by
    show (w.sys.step e).fw.dev.main.headerInfo = _
    rw [hvars]
  have hflag : (w.step e).sys.fw.dev.main.sendPacket = (w.sys.varsAfter e).sendPacket := by
    show (w.sys.step e).fw.dev.main.sendPacket = _
    rw [hvars]
  by_cases he : e = .main
  · -- the main loop never sets `send_packet`, and only the auto branch sets the length
    subst he
    have hasked : (w.step .main).asked = w.asked := rfl
    obtain ⟨hvalid, hlength⟩ := header_varsOfMain w.sys.pc h.valid
    refine ⟨hheader ▸ hvalid, fun hnew => ?_, hsent⟩
    have hold : w.sys.fw.dev.main.sendPacket ≠ 0 := by
      intro hzero
      rw [hflag, Sys.varsAfter, varsOfMain_sendPacket, hzero, ite_self] at hnew
      exact hnew rfl
    rw [hheader, Sys.varsAfter, hlength, hasked]
    split
    · rename_i hpc
      rw [(hauto rfl hpc).resolve_left hold]
      exact h.pending hold
    · exact h.pending hold
  · -- a trigger sets the flag and the length together
    have hcommand : w.sys.varsAfter e = varsOfCommand (w.sys.command e) w.sys.fw.dev.main := by
      cases e with
      | main => exact absurd rfl he
      | _ => rfl
    have hasked : (w.step e).asked = (triggerLength (w.sys.command e)).getD w.asked := rfl
    obtain ⟨hvalid, hlength⟩ := header_varsOfCommand hfields h.valid
    refine ⟨?_, fun hnew => ?_, hsent⟩
    · rw [hheader, hcommand]
      exact hvalid
    · rw [hflag, hcommand, varsOfCommand_sendPacket] at hnew
      rw [hheader, hcommand, hlength, hasked]
      cases htrigger : triggerLength (w.sys.command e) with
      | none =>
        rw [htrigger] at hnew
        exact h.pending hnew
      | some n => rfl

/-- **A triggered frame has its length**, provided the auto branch builds no frame of another
length between the trigger and the frame. -/
theorem triggered_length {s : State} (hboot : Boot s) {evs : List Event}
    (hfields : Run.Steps TriggerWatch.step (fun w e => LeavesFields (w.sys.command e))
      (TriggerWatch.boot s) evs)
    (hauto : Run.Steps TriggerWatch.step AutoMatches (TriggerWatch.boot s) evs) :
    Run.Always TriggerWatch.step LengthsAsAsked (TriggerWatch.boot s) evs := by
  have hmain := hboot.main
  have hstart : LengthInv (TriggerWatch.boot s) := by
    have hheader : (TriggerWatch.boot s).sys.fw.dev.main.headerInfo = s.main.headerInfo := rfl
    have hflag : (TriggerWatch.boot s).sys.fw.dev.main.sendPacket = s.main.sendPacket := rfl
    constructor
    · rw [hheader, hmain]
      exact ⟨.inl rfl, .inr (.inr rfl), .inl rfl, .inl rfl⟩
    · intro hsend
      rw [hflag, hmain] at hsend
      exact absurd rfl hsend
    · intro r hr
      cases hr
  exact (Run.always_of_step (I := LengthInv) (fun _ _ h hstep => h.step hstep) hstart
    (hfields.and hauto)).mono fun w h => h.sent

end

/-- A frame of 20 bytes. -/
theorem triggered_length_twenty :
    letI := plainDram
    letI := plainProtocol
    Run.Always TriggerWatch.step LengthsAsAsked (TriggerWatch.boot bootState)
      (sending .hbcTxTrigger 20 ++ List.replicate 4 .main) := by
  let := plainDram
  let := plainProtocol
  have hmain (w : TriggerWatch) : Run.Steps TriggerWatch.step
      (fun w e => LeavesFields (w.sys.command e)) w (List.replicate 4 .main) := by
    refine Run.steps_of_forall fun w e he cmd arg hcommand => ?_
    rw [List.eq_of_mem_replicate he] at hcommand
    cases hcommand
  have hnone {r : Option (Cmd × Word)} (h : r = none) : LeavesFields r := by
    intro cmd arg hcommand
    rw [h] at hcommand
    cases hcommand
  have htrigger {r : Option (Cmd × Word)} (h : r = some (.hbcTxTrigger, 20)) : LeavesFields r := by
    intro cmd arg hcommand
    rw [h] at hcommand
    cases hcommand
    exact ⟨by decide, by decide⟩
  apply triggered_length bootState_boot
  · refine Run.steps_append.mpr ⟨⟨?_, ?_, ?_, ?_, ?_, ?_, htrigger ?_, trivial⟩, hmain _⟩
    · exact hnone (by decide +kernel)
    · exact hnone (by decide +kernel)
    · exact hnone (by decide +kernel)
    · exact hnone (by decide +kernel)
    · exact hnone (by decide +kernel)
    · exact hnone (by decide +kernel)
    · decide +kernel
  · refine Run.steps_append.mpr ⟨Run.steps_of_forall fun w e he hmain => ?_, ?_⟩
    · obtain ⟨b, -, rfl⟩ := List.mem_map.mp he
      cases hmain
    · refine ⟨?_, ?_, ?_, ?_, trivial⟩ <;> intro _ hpc <;> exact absurd hpc (by decide +kernel)

/-- A packet of eight bytes for the auto branch, and a trigger of 20 bytes that comes when the test
of the trigger branch is over. -/
def autoAfterTrigger [HostProtocol] : List Event :=
  sending .hbcTxAuto 1
    ++ (Item.command (HostProtocol.code .hbcTxPacket) 8 [4, 0, 0, 0, 1, 2, 3, 4]).encode.map .ctrl
    ++ List.replicate 2 .main ++ sending .hbcTxTrigger 20 ++ List.replicate 18 .main

/-- The triggered frame has the eight bytes of the other packet. -/
theorem triggered_length_of_auto :
    letI := plainDram
    letI := plainProtocol
    ¬ Run.Always TriggerWatch.step LengthsAsAsked (TriggerWatch.boot bootState)
      autoAfterTrigger := by
  let := plainDram
  let := plainProtocol
  intro h
  have hrequested : (Run.run TriggerWatch.step (TriggerWatch.boot bootState)
      autoAfterTrigger).requested.any
      (fun r => r.frame.headerInfo.pdsuLength ≠ r.pdsuLength) = true := by decide +kernel
  have hlast := h.last
  generalize Run.run TriggerWatch.step (TriggerWatch.boot bootState) autoAfterTrigger = w
    at hrequested hlast
  obtain ⟨r, hr, hother⟩ := List.any_eq_true.mp hrequested
  exact of_decide_eq_true hother (hlast r hr).1

end HbcMac
