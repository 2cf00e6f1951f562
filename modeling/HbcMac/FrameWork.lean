import HbcMac.DumpIsolation
import HbcMac.Lib.Progress
import HbcMac.LoadLeak
import HbcMac.MainVars
import HbcMac.TxAccount

/-!
# How many frames the main loop sends

What is left to send is in `send_packet`, `tx_flood` and `tx_pending`, and while a frame is on its
way in the statement the main loop is at. A frame takes one off it, no other statement changes it,
and the loop comes back to each of its branches after at most one turn.
-/

namespace HbcMac

/-! ## What is left -/

/-- The frames of the trigger branch still to be built. Behind the frame the counters are one
frame late. -/
def trigLeft (pc : Pc) (m : MainVars) : ℕ :=
  match pc with
  | .trigLed | .trigRxDisable | .trigBuild => max m.txFlood.toNat 1
  | .trigSeed | .trigRxEnable | .trigFlood => m.txFlood.toNat - 1
  | .trigClear => m.txFlood.toNat
  | _ => max m.txFlood.toNat (if m.sendPacket = 0 then 0 else 1)

/-- The frames of the auto branch still to be built. -/
def autoLeft (pc : Pc) (m : MainVars) : ℕ :=
  match pc with
  | .autoMask | .autoSeed | .autoRxEnable | .autoDone => m.txPending.toNat - 1
  | _ => m.txPending.toNat

/-- The frames one of the branches has sent. -/
def Sys.sent (auto : Bool) (y : Sys) : ℕ := y.frames.countP fun f => f.auto = auto

/-- The main loop is at a statement it comes back to, what it has found still holds, and
`tx_pending` is not a negative number. -/
structure Turning (pc : Pc) (m : MainVars) : Prop where
  copy : pc ≠ .psocCall
  hang : pc ≠ .psocHang
  noPsoc : m.doPsocFlash = 0
  asked : pc = .txFlood → m.sendPacket = 0
  one : pc = .loadBusy → m.txPending = 1
  pending : pc.sendsAuto = true → m.txPending ≠ 0
  signed : m.txPending.toNat < 2 ^ 31

/-- The statements that nothing need be known for. -/
def Pc.plain : Pc → Bool
  | txFlood | loadBusy | psocCall | psocHang => false
  | autoLed | autoRxDisable | autoBuild | autoMask | autoSeed | autoRxEnable | autoDone => false
  | _ => true

namespace Turning

variable {pc : Pc} {m : MainVars}

/-- Where neither branch is under way. -/
theorem plain (hpc : pc.plain = true) (hpsoc : m.doPsocFlash = 0)
    (hsigned : m.txPending.toNat < 2 ^ 31) : Turning pc m := by
  refine ⟨?_, ?_, hpsoc, ?_, ?_, ?_, hsigned⟩
  · rintro rfl
    cases hpc
  · rintro rfl
    cases hpc
  · rintro rfl
    cases hpc
  · rintro rfl
    cases hpc
  · intro hauto
    cases pc <;>
      first | exact absurd hpc Bool.false_ne_true | exact absurd hauto Bool.false_ne_true

/-- Between the two reads of the trigger test. -/
theorem txFlood (hask : m.sendPacket = 0) (hpsoc : m.doPsocFlash = 0)
    (hsigned : m.txPending.toNat < 2 ^ 31) : Turning .txFlood m :=
  ⟨by decide, by decide, hpsoc, fun _ => hask, fun h => absurd h (by decide),
    fun h => absurd h (by decide), hsigned⟩

/-- Behind the test for one pending packet. -/
theorem loadBusy (hone : m.txPending = 1) (hpsoc : m.doPsocFlash = 0) : Turning .loadBusy m :=
  ⟨by decide, by decide, hpsoc, fun h => absurd h (by decide), fun _ => hone,
    fun h => absurd h (by decide), by rw [hone]; decide⟩

/-- Inside the auto branch there is a packet to send. -/
theorem sendsAuto (hpc : pc.sendsAuto = true) (hpending : m.txPending ≠ 0)
    (hpsoc : m.doPsocFlash = 0) (hsigned : m.txPending.toNat < 2 ^ 31) : Turning pc m := by
  refine ⟨?_, ?_, hpsoc, ?_, ?_, fun _ => hpending, hsigned⟩
  · rintro rfl
    cases hpc
  · rintro rfl
    cases hpc
  · rintro rfl
    cases hpc
  · rintro rfl
    cases hpc

end Turning

/-! ## The turn of the loop -/

/-- The place of a statement in the loop. -/
def Pc.place : Pc → ℕ
  | sendPacket => 0 | txFlood => 1
  | trigLed => 2 | trigRxDisable => 3 | trigBuild => 4 | trigSeed => 5 | trigRxEnable => 6
  | trigFlood => 7 | trigClear => 8
  | txAuto => 9 | pendingMany => 10 | pendingOne => 11 | loadBusy => 12
  | autoLed => 13 | autoRxDisable => 14 | autoBuild => 15 | autoMask => 16 | autoSeed => 17
  | autoRxEnable => 18 | autoDone => 19
  | rxFlood => 20 | rxAuto => 21 | dumpBusy => 22 | rxForward => 23 | rxCall _ => 24
  | psocFlash | psocCall | psocHang => 25

/-- The statements that can follow a statement. -/
def Pc.flow : Pc → List Pc
  | sendPacket => [trigLed, txFlood]
  | txFlood => [trigLed, txAuto]
  | trigLed => [trigRxDisable]
  | trigRxDisable => [trigBuild]
  | trigBuild => [trigSeed]
  | trigSeed => [trigRxEnable]
  | trigRxEnable => [trigFlood]
  | trigFlood => [trigClear]
  | trigClear => [txAuto]
  | txAuto => [pendingMany, rxFlood]
  | pendingMany => [autoLed, pendingOne]
  | pendingOne => [loadBusy, rxFlood]
  | loadBusy => [rxFlood, autoLed]
  | autoLed => [autoRxDisable]
  | autoRxDisable => [autoBuild]
  | autoBuild => [autoMask]
  | autoMask => [autoSeed]
  | autoSeed => [autoRxEnable]
  | autoRxEnable => [autoDone]
  | autoDone => [rxFlood]
  | rxFlood => [rxForward, rxAuto]
  | rxAuto => [dumpBusy, psocFlash]
  | dumpBusy => [psocFlash, rxForward]
  | rxForward => [rxCall true, rxCall false]
  | rxCall _ => [psocFlash]
  | psocFlash => [psocCall, sendPacket]
  | psocCall | psocHang => [psocHang]

/-- The statements between `pc` and the next time the loop is at `target`. -/
def Pc.before (target pc : Pc) : ℕ := (target.place + 26 - pc.place) % 26

/-- Counting down to zero. -/
theorem toNat_sub_one {w : Word} (h : w ≠ 0) : (w - 1).toNat = w.toNat - 1 := by
  have hpos : w.toNat ≠ 0 := fun h0 => h (BitVec.eq_of_toNat_eq h0)
  have hlt := w.isLt
  have hone : (1 : Word).toNat = 1 := rfl
  rw [BitVec.toNat_sub, hone]
  omega

/-- The signed comparison, where the sign does not matter. -/
theorem one_slt_iff {w : Word} (h : w.toNat < 2 ^ 31) : (1 : Word).slt w = true ↔ 1 < w.toNat := by
  have hone : (1 : Word).toInt = 1 := by decide
  rw [BitVec.slt_iff_toInt_lt, hone, BitVec.toInt_eq_toNat_of_lt (by omega)]
  omega

section
variable [Board] [HostProtocol] {pc : Pc} {s : State}

/-- What a condition of the loop has found stays so up to the statements it guards. -/
theorem Turning.main (h : Turning pc s.main) : Turning (mainStep pc s).1 (varsOfMain pc s) := by
  obtain ⟨hcopy, hhang, hpsoc, hasked, hone, hpending, hsigned⟩ := h
  have hplain {pc' : Pc} (hpc' : pc'.plain = true) : Turning pc' s.main := .plain hpc' hpsoc hsigned
  cases pc with
  | psocCall => exact absurd rfl hcopy
  | psocHang => exact absurd rfl hhang
  | sendPacket =>
    simp only [mainStep]
    split
    · exact hplain rfl
    · next hnot => exact .txFlood (not_not.mp hnot) hpsoc hsigned
  | pendingMany =>
    simp only [mainStep]
    split
    · next hmany =>
      refine .sendsAuto rfl (fun hzero => ?_) hpsoc hsigned
      have hlt := (one_slt_iff hsigned).mp hmany
      have hpend : s.main.txPending = 0 := hzero
      rw [hpend] at hlt
      cases hlt
    · exact hplain rfl
  | pendingOne =>
    simp only [mainStep]
    split
    · next heq => exact .loadBusy heq hpsoc
    · exact hplain rfl
  | loadBusy =>
    have hpend := hone rfl
    simp only [mainStep]
    split
    · exact hplain rfl
    · refine .sendsAuto rfl (fun hzero => ?_) hpsoc hsigned
      rw [show (varsOfMain .loadBusy s).txPending = 1 from hpend] at hzero
      cases hzero
  | txFlood | txAuto | rxFlood | rxAuto | dumpBusy =>
    simp only [mainStep]
    split
    · exact hplain rfl
    · exact hplain rfl
  | psocFlash =>
    simp only [mainStep, if_neg (not_not.mpr hpsoc)]
    exact hplain rfl
  | trigFlood =>
    simp only [mainStep, varsOfMain]
    split
    · exact .plain rfl hpsoc hsigned
    · exact hplain rfl
  | autoDone =>
    have hless := toNat_sub_one (hpending rfl)
    refine .plain rfl hpsoc ?_
    show (s.main.txPending - 1).toNat < 2 ^ 31
    omega
  | autoLed | autoRxDisable | autoBuild | autoMask | autoSeed =>
    exact .sendsAuto rfl (hpending rfl) hpsoc hsigned
  | autoRxEnable => exact .sendsAuto rfl (hpending rfl) hpsoc hsigned
  | _ => exact .plain rfl hpsoc hsigned

/-- Building a frame takes it off what is left to the trigger branch. -/
theorem trigLeft_main (h : Turning pc s.main) :
    trigLeft (mainStep pc s).1 (varsOfMain pc s) + (if pc = .trigBuild then 1 else 0)
      = trigLeft pc s.main := by
  cases pc with
  | psocCall => exact absurd rfl h.copy
  | psocHang => exact absurd rfl h.hang
  | sendPacket =>
    by_cases hask : s.main.sendPacket = 0
    · have hpc : (mainStep .sendPacket s).1 = .txFlood := if_neg (not_not.mpr hask)
      rw [hpc]
      rfl
    · have hpc : (mainStep .sendPacket s).1 = .trigLed := if_pos hask
      rw [hpc]
      show max s.main.txFlood.toNat 1 + 0 = max _ (if s.main.sendPacket = 0 then 0 else 1)
      rw [if_neg hask, Nat.add_zero]
  | txFlood =>
    by_cases hflood : s.main.txFlood = 0
    · have hpc : (mainStep .txFlood s).1 = .txAuto := if_neg (not_not.mpr hflood)
      rw [hpc]
      rfl
    · have hpc : (mainStep .txFlood s).1 = .trigLed := if_pos hflood
      have hpos : s.main.txFlood.toNat ≠ 0 := fun h0 => hflood (BitVec.eq_of_toNat_eq h0)
      rw [hpc]
      show max s.main.txFlood.toNat 1 + 0 = max _ (if s.main.sendPacket = 0 then 0 else 1)
      rw [if_pos (h.asked rfl)]
      omega
  | trigBuild =>
    show s.main.txFlood.toNat - 1 + 1 = max s.main.txFlood.toNat 1
    omega
  | trigFlood =>
    by_cases hflood : s.main.txFlood = 0
    · have hvars : varsOfMain .trigFlood s = s.main := if_neg (not_not.mpr hflood)
      rw [hvars]
      show s.main.txFlood.toNat = s.main.txFlood.toNat - 1
      rw [hflood]
      rfl
    · have hvars : varsOfMain .trigFlood s = { s.main with txFlood := s.main.txFlood - 1 } :=
        if_pos hflood
      rw [hvars]
      exact toNat_sub_one hflood
  | trigClear =>
    show max s.main.txFlood.toNat 0 + 0 = s.main.txFlood.toNat
    omega
  | txAuto | pendingMany | pendingOne | loadBusy | rxFlood | rxAuto | dumpBusy =>
    simp only [mainStep]
    split
    · rfl
    · rfl
  | psocFlash =>
    simp only [mainStep, if_neg (not_not.mpr h.noPsoc)]
    rfl
  | _ => rfl

/-- And from what is left to the auto branch. -/
theorem autoLeft_main (h : Turning pc s.main) :
    autoLeft (mainStep pc s).1 (varsOfMain pc s) + (if pc = .autoBuild then 1 else 0)
      = autoLeft pc s.main := by
  cases pc with
  | psocCall => exact absurd rfl h.copy
  | psocHang => exact absurd rfl h.hang
  | autoBuild =>
    have hpos : s.main.txPending.toNat ≠ 0 := fun h0 => h.pending rfl (BitVec.eq_of_toNat_eq h0)
    show s.main.txPending.toNat - 1 + 1 = s.main.txPending.toNat
    omega
  | autoDone => exact toNat_sub_one (h.pending rfl)
  | trigFlood =>
    simp only [mainStep, varsOfMain]
    split
    · rfl
    · rfl
  | sendPacket | txFlood | txAuto | pendingMany | pendingOne | loadBusy | rxFlood | rxAuto
  | dumpBusy =>
    simp only [mainStep]
    split
    · rfl
    · rfl
  | psocFlash =>
    simp only [mainStep, if_neg (not_not.mpr h.noPsoc)]
    rfl
  | _ => rfl

/-! ## Distances -/

/-- The statements the loop can go on with. -/
theorem mainStep_flow (pc : Pc) (s : State) : (mainStep pc s).1 ∈ pc.flow := by
  cases pc with
  | sendPacket | txFlood | txAuto | pendingMany | pendingOne | loadBusy | rxFlood | rxAuto
  | dumpBusy | psocFlash =>
    simp only [mainStep]
    split
    · exact List.mem_cons_self
    · exact List.mem_cons_of_mem _ List.mem_cons_self
  | rxForward =>
    show Pc.rxCall (decide (s.main.rxFlood = 0)) ∈ _
    cases decide (s.main.rxFlood = 0)
    · exact List.mem_cons_of_mem _ List.mem_cons_self
    · exact List.mem_cons_self
  | _ => exact List.mem_cons_self

omit [Board] [HostProtocol] in
/-- Unless the trigger branch is passed over, every statement brings its frame nearer. -/
theorem before_trigBuild {pc' : Pc} (h : pc' ∈ pc.flow) (hpc : pc ≠ .trigBuild)
    (hover : pc = .txFlood → pc' ≠ .txAuto) (hcopy : pc' ≠ .psocCall) (hhang : pc' ≠ .psocHang) :
    Pc.before .trigBuild pc' < Pc.before .trigBuild pc := by
  cases pc with
  | trigBuild => exact absurd rfl hpc
  | psocCall | psocHang => exact absurd (List.mem_singleton.mp h) hhang
  | txFlood | psocFlash | sendPacket | txAuto | pendingMany | pendingOne | loadBusy | rxFlood
  | rxAuto | dumpBusy | rxForward =>
    rcases List.mem_pair.mp h with rfl | rfl
    · first | decide | exact absurd rfl hcopy
    · first | decide | exact absurd rfl (hover rfl)
  | rxCall forward =>
    rw [List.mem_singleton.mp h]
    cases forward <;> decide
  | _ =>
    rw [List.mem_singleton.mp h]
    decide

omit [Board] [HostProtocol] in
/-- And likewise for the auto branch. -/
theorem before_autoBuild {pc' : Pc} (h : pc' ∈ pc.flow) (hpc : pc ≠ .autoBuild)
    (hover : pc = .txAuto ∨ pc = .pendingOne ∨ pc = .loadBusy → pc' ≠ .rxFlood)
    (hcopy : pc' ≠ .psocCall) (hhang : pc' ≠ .psocHang) :
    Pc.before .autoBuild pc' < Pc.before .autoBuild pc := by
  cases pc with
  | autoBuild => exact absurd rfl hpc
  | psocCall | psocHang => exact absurd (List.mem_singleton.mp h) hhang
  | txFlood | psocFlash | sendPacket | txAuto | pendingMany | pendingOne | loadBusy | rxFlood
  | rxAuto | dumpBusy | rxForward =>
    rcases List.mem_pair.mp h with rfl | rfl
    · first | decide | exact absurd rfl hcopy | exact absurd rfl (hover (by simp))
    · first | decide | exact absurd rfl (hover (by simp))
  | rxCall forward =>
    rw [List.mem_singleton.mp h]
    cases forward <;> decide
  | _ =>
    rw [List.mem_singleton.mp h]
    decide

/-! ## Steps of the system -/

/-- The commands that ask for frames or can hold them up. -/
def Cmd.asksFrames : Cmd → Bool
  | hbcTxTrigger | hbcTxFlood | hbcTxAuto | hbcTxPacket | memLoad | psocFlash => true
  | _ => false

/-- An event that brings none of these commands. -/
def Unasked (y : Sys) (e : Event) : Prop :=
  ∀ cmd arg, y.command e = some (cmd, arg) → cmd.asksFrames = false

/-- The variables that say what is left to send. -/
structure WorkKept (m m' : MainVars) : Prop where
  sendPacket : m'.sendPacket = m.sendPacket
  txFlood : m'.txFlood = m.txFlood
  txPending : m'.txPending = m.txPending
  txAuto : m'.txAuto = m.txAuto
  doPsocFlash : m'.doPsocFlash = m.doPsocFlash

omit [Board] [HostProtocol] in
/-- A command that asks for no frames leaves what is to be done. -/
theorem workKept_varsOfCommand {r : Option (Cmd × Word)}
    (h : ∀ cmd arg, r = some (cmd, arg) → cmd.asksFrames = false) (m : MainVars) (toggle : Bool) :
    WorkKept m { varsOfCommand r m with toggle := toggle } := by
  cases r with
  | none => exact ⟨rfl, rfl, rfl, rfl, rfl⟩
  | some r =>
    obtain ⟨cmd, arg⟩ := r
    have hcmd := h cmd arg rfl
    cases cmd with
    | hbcTxTrigger | hbcTxFlood | hbcTxAuto | hbcTxPacket | memLoad | psocFlash => cases hcmd
    | _ => exact ⟨rfl, rfl, rfl, rfl, rfl⟩

namespace WorkKept

variable {m m' : MainVars}

omit [Board] [HostProtocol] in
/-- The loop goes on turning. -/
theorem turning (h : WorkKept m m') (ht : Turning pc m) : Turning pc m' := by
  obtain ⟨hcopy, hhang, hpsoc, hasked, hone, hpending, hsigned⟩ := ht
  rw [← h.doPsocFlash] at hpsoc
  rw [← h.sendPacket] at hasked
  rw [← h.txPending] at hone hpending hsigned
  exact ⟨hcopy, hhang, hpsoc, hasked, hone, hpending, hsigned⟩

omit [Board] [HostProtocol] in
theorem trigLeft (h : WorkKept m m') : trigLeft pc m' = trigLeft pc m := by
  unfold HbcMac.trigLeft
  rw [h.sendPacket, h.txFlood]

omit [Board] [HostProtocol] in
theorem autoLeft (h : WorkKept m m') : autoLeft pc m' = autoLeft pc m := by
  unfold HbcMac.autoLeft
  rw [h.txPending]

end WorkKept

/-- What is left to do, by a system that has got so far. -/
def Sys.left (auto : Bool) (y : Sys) : ℕ :=
  if auto then autoLeft y.pc y.fw.dev.main else trigLeft y.pc y.fw.dev.main

/-- The statement of a branch that builds its frame. -/
def Pc.build (auto : Bool) : Pc := if auto then .autoBuild else .trigBuild

omit [Board] [HostProtocol] in
/-- Each branch sends its frame where it builds it. -/
theorem countP_framesOf (auto : Bool) (pc : Pc) (s s' : State) :
    (framesOf pc s s').countP (fun f => f.auto = auto) = if pc = .build auto then 1 else 0 := by
  cases auto <;> cases pc <;> rfl

/-- A step of the main loop. -/
theorem Turning.step_main {y : Sys} (h : Turning y.pc y.fw.dev.main) (auto : Bool) :
    Turning (y.step .main).pc (y.step .main).fw.dev.main
      ∧ (y.step .main).pc = (mainStep y.pc y.fw.dev).1
      ∧ (y.step .main).sent auto = y.sent auto + (if y.pc = .build auto then 1 else 0)
      ∧ (y.step .main).left auto + (if y.pc = .build auto then 1 else 0) = y.left auto := by
  obtain ⟨toggle, hmain⟩ := mainStep_main y.pc y.fw.dev
  have hkept : WorkKept (varsOfMain y.pc y.fw.dev) (mainStep y.pc y.fw.dev).2.main := by
    rw [hmain]
    exact ⟨rfl, rfl, rfl, rfl, rfl⟩
  rw [Sys.step_main h.hang]
  refine ⟨hkept.turning h.main, rfl, ?_, ?_⟩
  · show (y.frames ++ framesOf y.pc _ _).countP _ = _
    rw [List.countP_append, countP_framesOf]
    rfl
  · cases auto with
    | false =>
      show trigLeft _ (mainStep y.pc y.fw.dev).2.main + _ = trigLeft y.pc y.fw.dev.main
      rw [hkept.trigLeft]
      exact trigLeft_main h
    | true =>
      show autoLeft _ (mainStep y.pc y.fw.dev).2.main + _ = autoLeft y.pc y.fw.dev.main
      rw [hkept.autoLeft]
      exact autoLeft_main h

/-- An interrupt that brings no work leaves what is to be sent as it was. -/
theorem Unasked.workKept {y : Sys} {e : Event} (hC : Unasked y e) (he : e ≠ .main) :
    WorkKept y.fw.dev.main (y.step e).fw.dev.main := by
  obtain ⟨toggle, hvars⟩ := y.step_main_vars e
  have hafter : y.varsAfter e = varsOfCommand (y.command e) y.fw.dev.main := by
    cases e with
    | main => exact absurd rfl he
    | _ => rfl
  rw [hvars, hafter]
  exact workKept_varsOfCommand hC _ toggle

/-- Interrupts leave both counts alone. -/
theorem Turning.step_interrupt {y : Sys} {e : Event} (h : Turning y.pc y.fw.dev.main)
    (hC : Unasked y e) (he : e ≠ .main) (auto : Bool) :
    Turning (y.step e).pc (y.step e).fw.dev.main ∧ (y.step e).pc = y.pc
      ∧ (y.step e).sent auto = y.sent auto ∧ (y.step e).left auto = y.left auto := by
  have hkept := hC.workKept he
  have hpc := Sys.step_pc (y := y) he
  refine ⟨?_, hpc, ?_, ?_⟩
  · rw [hpc]
    exact hkept.turning h
  · rw [Sys.sent, Sys.step_frames he, Sys.sent]
  · rw [Sys.left, Sys.left, hpc, hkept.trigLeft, hkept.autoLeft]

/-! ## Runs -/

/-- The branch can go on: its frames are under way, and for the auto branch `tx_auto` is set and
no payload is being loaded. -/
structure Sys.Turns (auto : Bool) (y : Sys) : Prop where
  turning : Turning y.pc y.fw.dev.main
  txAuto : auto = true → y.fw.dev.main.txAuto ≠ 0
  loaded : auto = true → y.fw.dev.spi.loadingMem = 0
  few : auto = true → y.pc = .pendingOne → y.fw.dev.main.txPending.toNat ≤ 1

/-- An event that brings no work starts no load. -/
theorem Unasked.loadingMem {y : Sys} {e : Event} (hC : Unasked y e) (he : e ≠ .main)
    (hpc : y.pc ≠ .psocHang) (hload : y.fw.dev.spi.loadingMem = 0) :
    (y.step e).fw.dev.spi.loadingMem = 0 := by
  cases e with
  | main => exact absurd rfl he
  | data =>
    rw [Sys.step_data hpc]
    exact (txKept_hbcDataIrq y.fw.dev).loadingMem.trans hload
  | rxData arr =>
    rw [Sys.step_rxData hpc]
    exact (congrArg SpiVars.loadingMem (writerStep_rxData y.fw.dev arr).spi).trans hload
  | rxReady arr =>
    rw [Sys.step_rxReady hpc]
    exact (congrArg SpiVars.loadingMem (writerStep_rxReady y.fw.dev arr).spi).trans hload
  | ctrl b =>
    have hnext (s : State) : (ctrlReqNext s).spi = s.spi := rfl
    rw [Sys.step_ctrl hpc]
    show (hbcCtrlIrq b y.fw).dev.spi.loadingMem = 0
    rw [hbcCtrlIrq_dev, if_neg (not_not.mpr hload), hnext]
    cases hcmd : acceptedCmd b y.fw with
    | none => exact hload
    | some r =>
      show (execCmd r.1 r.2 y.fw.dev).spi.loadingMem = 0
      rw [execCmd_loadingMem]
      cases hdecode : decodeCmd r.1 with
      | none => exact hload
      | some cmd =>
        have hasks : cmd.asksFrames = false := by
          refine hC cmd r.2 ?_
          rw [Sys.command_ctrl hpc, acceptedCase, hcmd, Option.bind_some, hdecode]
          rfl
        cases cmd with
        | memLoad | hbcTxPacket => cases hasks
        | _ => exact hload

/-- The frames a branch has still to build, counted in statements of the loop. -/
def Sys.work (auto : Bool) (y : Sys) : ℕ :=
  if y.left auto = 0 then 0 else 26 * y.left auto + Pc.before (.build auto) y.pc

/-- While there is a frame to send, the loop does not pass over the branch that sends it. -/
theorem Sys.Turns.before_lt {auto : Bool} {y : Sys} (h : y.Turns auto) (hleft : y.left auto ≠ 0)
    (hpc : y.pc ≠ .build auto) :
    Pc.before (.build auto) (y.step .main).pc < Pc.before (.build auto) y.pc := by
  obtain ⟨hturning, hstep, -, -⟩ := h.turning.step_main auto
  have hflow := mainStep_flow y.pc y.fw.dev
  rw [← hstep] at hflow
  cases auto with
  | false =>
    refine before_trigBuild hflow hpc (fun hover hskip => hleft ?_) hturning.copy hturning.hang
    rw [hstep, hover] at hskip
    have hflood : y.fw.dev.main.txFlood = 0 := by
      by_contra hne
      have hgo : (mainStep .txFlood y.fw.dev).1 = .trigLed := if_pos hne
      rw [hgo] at hskip
      cases hskip
    show trigLeft y.pc y.fw.dev.main = 0
    rw [hover]
    show max y.fw.dev.main.txFlood.toNat (if y.fw.dev.main.sendPacket = 0 then 0 else 1) = 0
    rw [hflood, h.turning.asked hover]
    rfl
  | true =>
    have hauto := h.txAuto rfl
    have hload := h.loaded rfl
    refine before_autoBuild hflow hpc (fun hover hskip => ?_) hturning.copy hturning.hang
    rw [hstep] at hskip
    rcases hover with hover | hover | hover
    · rw [hover, show (mainStep .txAuto y.fw.dev).1 = .pendingMany from if_pos hauto] at hskip
      cases hskip
    · have hpend : y.fw.dev.main.txPending.toNat ≠ 0 := by
        have hpos : autoLeft y.pc y.fw.dev.main ≠ 0 := hleft
        rw [hover] at hpos
        exact hpos
      have hone : y.fw.dev.main.txPending = 1 := by
        apply BitVec.eq_of_toNat_eq
        have hfew := h.few rfl hover
        show _ = 1
        omega
      rw [hover, show (mainStep .pendingOne y.fw.dev).1 = .loadBusy from if_pos hone] at hskip
      cases hskip
    · have hidle : ¬ hbcSpiLoadBusy y.fw.dev = true := by
        rw [hbcSpiLoadBusy, hload]
        decide
      rw [hover, show (mainStep .loadBusy y.fw.dev).1 = .autoLed from if_neg hidle] at hskip
      cases hskip

/-- The main loop does not touch `tx_auto`. -/
theorem mainStep_txAuto (pc : Pc) (s : State) :
    (mainStep pc s).2.main.txAuto = s.main.txAuto := by
  refine (txKept_mainStep pc s).txAuto.trans ?_
  cases pc with
  | trigFlood =>
    simp only [mainAfter]
    split
    · rfl
    · rfl
  | _ => rfl

/-- Where the loop comes from when it reads `tx_pending` for the second time. -/
theorem of_mainStep_pendingOne {pc : Pc} {s : State} (h : (mainStep pc s).1 = .pendingOne) :
    (mainStep pc s).2 = s ∧ ¬ (1 : Word).slt s.main.txPending = true := by
  cases pc with
  | pendingMany =>
    refine ⟨rfl, fun hmany => ?_⟩
    rw [show (mainStep .pendingMany s).1 = .autoLed from if_pos hmany] at h
    cases h
  | sendPacket | txFlood | txAuto | pendingOne | loadBusy | rxFlood | rxAuto | dumpBusy
  | psocFlash =>
    simp only [mainStep] at h
    split at h
    · cases h
    · cases h
  | _ => cases h

/-- One step, whatever it is. -/
theorem Sys.Turns.step {auto : Bool} {y : Sys} {e : Event} (h : y.Turns auto) (hC : Unasked y e) :
    (y.step e).Turns auto ∧ Run.Works Sys.step (fun _ => Event.isMain) (Sys.work auto) y e := by
  by_cases he : e = .main
  · subst he
    obtain ⟨hturning, hpc, hsent, hleft⟩ := h.turning.step_main auto
    have hdev : (y.step .main).fw.dev = (mainStep y.pc y.fw.dev).2 := y.step_main_dev.2
    have htx := txKept_mainStep y.pc y.fw.dev
    have hwork : y.left auto ≠ 0 → (y.step .main).work auto < y.work auto := by
      intro hne
      rw [Sys.work, Sys.work, if_neg hne]
      by_cases hbuild : y.pc = .build auto
      · -- the frame has been built, and the next one is a whole turn away
        have hfar : Pc.before (.build auto) (y.step .main).pc < 26 := Nat.mod_lt _ (by decide)
        rw [if_pos hbuild] at hleft
        split
        · omega
        · omega
      · have hnear := h.before_lt hne hbuild
        rw [if_neg hbuild, Nat.add_zero] at hleft
        rw [if_neg (by rw [hleft]; exact hne), hleft]
        omega
    refine ⟨⟨hturning, fun hauto => ?_, fun hauto => ?_, fun hauto hone => ?_⟩,
      ⟨?_, fun _ hne => hwork fun h0 => hne (if_pos h0)⟩⟩
    · rw [hdev, mainStep_txAuto]
      exact h.txAuto hauto
    · rw [hdev, (txKept_mainStep y.pc y.fw.dev).loadingMem]
      exact h.loaded hauto
    · rw [hpc] at hone
      obtain ⟨hsame, hfew⟩ := of_mainStep_pendingOne hone
      rw [one_slt_iff h.turning.signed] at hfew
      rw [hdev, hsame]
      exact Nat.not_lt.mp hfew
    · by_cases hne : y.left auto = 0
      · have hzero : (y.step .main).left auto = 0 := by omega
        rw [Sys.work, if_pos hzero]
        exact Nat.zero_le _
      · exact Nat.le_of_lt (hwork hne)
  · obtain ⟨hturning, hpc, hsent, hleft⟩ := h.turning.step_interrupt hC he auto
    have hkept := hC.workKept he
    have hsame : (y.step e).work auto = y.work auto := by rw [Sys.work, Sys.work, hleft, hpc]
    refine ⟨⟨hturning, fun hauto => ?_, fun hauto => ?_, fun hauto hone => ?_⟩,
      ⟨Nat.le_of_eq hsame, fun htick => ?_⟩⟩
    · rw [hkept.txAuto]
      exact h.txAuto hauto
    · exact hC.loadingMem he h.turning.hang (h.loaded hauto)
    · rw [hkept.txPending]
      exact h.few hauto (hpc ▸ hone)
    · cases e with
      | main => exact absurd rfl he
      | _ => cases htick

/-- A run: frames sent and frames left add up. -/
theorem Turning.run {y : Sys} {evs : List Event} (h : Turning y.pc y.fw.dev.main) (auto : Bool)
    (hC : Run.Steps Sys.step Unasked y evs) :
    (Run.run Sys.step y evs).sent auto + (Run.run Sys.step y evs).left auto
      = y.sent auto + y.left auto := by
  refine (Run.run_of_step (C := Unasked)
    (I := fun z => Turning z.pc z.fw.dev.main ∧
      z.sent auto + z.left auto = y.sent auto + y.left auto) ?_ ⟨h, rfl⟩ hC).2
  rintro z e ⟨hz, hsum⟩ hCz
  by_cases he : e = .main
  · subst he
    obtain ⟨hturning, -, hsent, hleft⟩ := hz.step_main auto
    exact ⟨hturning, by omega⟩
  · obtain ⟨hturning, -, hsent, hleft⟩ := hz.step_interrupt hCz he auto
    exact ⟨hturning, by omega⟩

/-- And enough turns of the loop leave nothing to be sent. -/
theorem Sys.Turns.run {auto : Bool} {y : Sys} {evs : List Event} (h : y.Turns auto)
    (hC : Run.Steps Sys.step Unasked y evs) (hticks : y.work auto ≤ evs.countP Event.isMain) :
    (Run.run Sys.step y evs).left auto = 0 := by
  have hcount := Run.ticks_eq_countP Sys.step (fun _ => Event.isMain) (fun _ _ => rfl) y evs
  have hzero := Run.measure_eq_zero (C := Unasked) (I := Sys.Turns auto) (μ := Sys.work auto)
    (fun z e hz hCz => hz.step hCz) h hC (hticks.trans_eq hcount.symm)
  by_contra hne
  have hpos : (Run.run Sys.step y evs).work auto
    = 26 * (Run.run Sys.step y evs).left auto + _ := if_neg hne
  rw [hpos] at hzero
  omega

/-- **Frames asked for are frames sent.** From the head of the loop, with nothing more asked for
and the PSoC not to be flashed, the trigger branch sends no more frames than `send_packet` and
`tx_flood` ask for and the auto branch no more than are pending. Twenty-six statements of the loop
for each frame are enough to send them all, whatever interrupts come in between; the auto branch
needs `tx_auto` for that, and no payload on its way. -/
theorem asked_frames_sent {y : Sys} {evs : List Event} (hpc : y.pc = .sendPacket)
    (hpsoc : y.fw.dev.main.doPsocFlash = 0) (hsigned : y.fw.dev.main.txPending.toNat < 2 ^ 31)
    (hC : Run.Steps Sys.step Unasked y evs) :
    let m := y.fw.dev.main
    let asked := max m.txFlood.toNat (if m.sendPacket = 0 then 0 else 1)
    let z := Run.run Sys.step y evs
    z.sent false ≤ y.sent false + asked ∧ z.sent true ≤ y.sent true + m.txPending.toNat
      ∧ (26 * asked + 4 ≤ evs.countP Event.isMain → z.sent false = y.sent false + asked)
      ∧ (m.txAuto ≠ 0 → y.fw.dev.spi.loadingMem = 0 →
          26 * m.txPending.toNat + 15 ≤ evs.countP Event.isMain →
          z.sent true = y.sent true + m.txPending.toNat) := by
  have hturning : Turning y.pc y.fw.dev.main := by
    rw [hpc]
    exact .plain rfl hpsoc hsigned
  have hfar (auto : Bool) :
      y.work auto ≤ 26 * y.left auto + Pc.before (.build auto) .sendPacket := by
    rw [Sys.work, hpc]
    split
    · exact Nat.zero_le _
    · exact Nat.le_refl _
  have htrig : y.left false = max y.fw.dev.main.txFlood.toNat
      (if y.fw.dev.main.sendPacket = 0 then 0 else 1) := by
    show trigLeft y.pc y.fw.dev.main = _
    rw [hpc]
    rfl
  have hauto : y.left true = y.fw.dev.main.txPending.toNat := by
    show autoLeft y.pc y.fw.dev.main = _
    rw [hpc]
    rfl
  have hsumTrig := hturning.run false hC
  have hsumAuto := hturning.run true hC
  dsimp only
  rw [← htrig, ← hauto]
  refine ⟨by omega, by omega, fun hticks => ?_, fun htx hload hticks => ?_⟩
  · have hnot {p : Prop} (h : false = true) : p := absurd h (by decide)
    have hturns : y.Turns false := ⟨hturning, hnot, hnot, hnot⟩
    have hdone := hturns.run hC ((hfar false).trans hticks)
    omega
  · have hturns : y.Turns true :=
      ⟨hturning, fun _ => htx, fun _ => hload, fun _ hone => absurd hone (by rw [hpc]; decide)⟩
    have hdone := hturns.run hC ((hfar true).trans hticks)
    omega

end

/-- Two frames on trigger and three packets pending, with the host reading all the time. -/
theorem asked_frames_sent_five :
    letI := plainDram
    letI := plainProtocol
    let y := Sys.boot { bootState with
      main.sendPacket := 1, main.txFlood := 2, main.txAuto := 1, main.txPending := 3 }
    let z := Run.run Sys.step y (List.replicate 93 [Event.main, .data]).flatten
    z.sent false = 2 ∧ z.sent true = 3 := by
  let := plainDram
  let := plainProtocol
  have hturns : ((List.replicate 93 [Event.main, .data]).flatten).countP Event.isMain = 93 := by
    rw [List.countP_flatten, List.map_replicate, List.sum_replicate_nat]
    rfl
  have hsteps (y : Sys) :
      Run.Steps Sys.step Unasked y (List.replicate 93 [Event.main, .data]).flatten := by
    refine Run.steps_of_forall fun y e he cmd arg hcmd => ?_
    obtain ⟨l, hl, hel⟩ := List.mem_flatten.mp he
    rw [List.eq_of_mem_replicate hl] at hel
    rcases List.mem_pair.mp hel with rfl | rfl
    · cases hcmd
    · cases hcmd
  have hall := asked_frames_sent (y := Sys.boot { bootState with
      main.sendPacket := 1, main.txFlood := 2, main.txAuto := 1, main.txPending := 3 })
    rfl rfl (by decide) (hsteps _)
  rw [hturns] at hall
  exact ⟨hall.2.2.1 (by decide), hall.2.2.2 (by decide) rfl (by decide)⟩

end HbcMac
