import HbcMac.HeaderConfig
import HbcMac.Loopback
import HbcMac.Triggers
import HbcMac.TxBuffer

/-!
# Every frame can be received

The main loop inverts the scrambler seed behind every frame, and the header of a frame tells the
receiver which of the two it was. Whatever triggers, packets and interrupts come in between, the
seeds of the frames alternate, and each frame is one that a receiver forwards.
-/

namespace HbcMac

/-! ## Seeds -/

/-- `!scrambler_seed`. -/
def flipSeed (seed : Word) : Word := if seed = 0 then 1 else 0

/-- The seed of the frame with number `k`, counted from start-up. -/
def seedOf (k : ℕ) : Word := if k % 2 = 0 then 0 else 1

/-- The seeds alternate. -/
theorem flipSeed_seedOf (k : ℕ) : flipSeed (seedOf k) = seedOf (k + 1) := by
  unfold flipSeed seedOf
  rcases Nat.mod_two_eq_zero_or_one k with h | h
  · have hnext : (k + 1) % 2 = 1 := by omega
    rw [if_pos h, hnext]
    rfl
  · have hnext : (k + 1) % 2 = 0 := by omega
    rw [h, hnext]
    rfl

/-- The seed the next frame will be sent with. Behind a frame it has still to be inverted. -/
def nextSeed (pc : Pc) (m : MainVars) : Word :=
  match pc with
  | .trigSeed | .autoSeed | .autoMask => flipSeed m.headerInfo.scramblerSeed
  | _ => m.headerInfo.scramblerSeed

/-- The command sets neither the seed nor a rate beyond its field. -/
def KeepsSeed (r : Option (Cmd × Word)) : Prop :=
  ∀ c ∈ r, c.1 ≠ .hbcTxScramblerSeed ∧ (c.1 = .hbcTxSpreadFactor → c.2.toNat < 8)

instance : DecidablePred KeepsSeed := fun r => inferInstanceAs (Decidable (∀ c ∈ r, _))

/-- The fields nothing changes, and a rate that fits. -/
structure PlcpHeader.InRange (h : PlcpHeader) : Prop where
  pilotInfo : h.pilotInfo = pilotNone
  burstMode : h.burstMode = 0
  dataRate : h.dataRate.toNat < 8

/-- With a seed that is zero or one, a header in range decodes. -/
theorem PlcpHeader.InRange.decodes {h : PlcpHeader} (hrange : h.InRange)
    (hseed : h.scramblerSeed = 0 ∨ h.scramblerSeed = 1) : Decodes (headerWord h) h := by
  apply (decodes_iff hrange.pilotInfo hrange.burstMode).mpr
  have hnone {i : ℕ} (hi : 1 ≤ i) : (h.scramblerSeed >>> i).setWidth 8 = (0 : Byte) := by
    have hzero : h.scramblerSeed >>> i = 0 := by
      apply BitVec.eq_of_toNat_eq
      rw [BitVec.toNat_ushiftRight, Nat.shiftRight_eq_div_pow]
      have hle : h.scramblerSeed.toNat ≤ 1 := by
        rcases hseed with hs | hs <;> rw [hs] <;> decide
      have hpow : 2 ^ 1 ≤ 2 ^ i := Nat.pow_le_pow_right (by decide) hi
      exact Nat.div_eq_of_lt (by omega)
    rw [hzero]
    rfl
  refine ⟨hrange.dataRate, ?_, ?_, ?_⟩
  · rcases hseed with hs | hs
    · exact .inl hs
    · rw [hs]
      exact .inr rfl
  · rw [hnone (by decide)]
    exact BitVec.or_zero
  · rw [hnone (by decide)]
    exact BitVec.or_zero

section
variable [Board] [HostProtocol]

/-! ## Frames -/

/-- A frame with the seed `seed` that a receiver takes for what it is: the header decodes, the
receiver forwards the frame, and descrambled its payload is `ws`. -/
structure Frame.Received (f : Frame) (seed : Word) (ws : List Word) : Prop where
  scramblerSeed : f.headerInfo.scramblerSeed = seed
  decodes : Decodes (headerWord f.headerInfo) f.headerInfo
  length : ws.length = (f.headerInfo.pdsuLength.toNat + 3) / 4
  forwardable : forwardable f.words = true
  body : packetBody f.words = headerWord f.headerInfo :: ws

omit [HostProtocol] in
/-- The frame built from a header in range. -/
theorem received_frame {h : PlcpHeader} (auto : Bool) (hrange : h.InRange)
    (hseed : h.scramblerSeed = 0 ∨ h.scramblerSeed = 1) (s : State) :
    Frame.Received ⟨auto, h.built, headerWord h :: descramble (h.scramblerSeed != 0) 0
        (memReads (payloadWords h.pdsuLength).toNat s)⟩
      h.scramblerSeed (memReads (payloadWords h.pdsuLength).toNat s) := by
  have hdecodes := hrange.decodes hseed
  have hsame : headerSeed (headerWord h) = (h.scramblerSeed != 0) :=
    congrArg Scrambler.seed (hdecodes.seed s s)
  have hlen : announcedLength (headerWord h) = h.pdsuLength := hdecodes.pdsuLength
  refine ⟨rfl, ⟨hdecodes.crc, hdecodes.pdsuLength, hdecodes.dataRate, hdecodes.pilotInfo,
    hdecodes.burstMode, hdecodes.seed⟩, ?_, ?_, ?_⟩
  · rw [length_memReads, payloadWords_toNat]
    rfl
  · show (decide (headerCrc (headerWord h) = 0)
      && decide ((announcedLength (headerWord h)).toNat ≤ 4 * (descramble _ 0 _).length)) = true
    have hwhole : h.pdsuLength.toNat ≤ 4 * ((h.pdsuLength.toNat + 3) / 4) := by omega
    rw [hdecodes.crc, hlen, length_descramble, length_memReads, payloadWords_toNat,
      decide_eq_true hwhole]
    rfl
  · show headerWord h :: descramble _ 0 (descramble _ 0 _) = _
    rw [hsame, descramble_descramble]
    rfl

/-- The words a statement of the loop reads from the memory for the frame it builds: from address 0
on, or behind the length word at `pkt_addr`. -/
def builtFrom (pc : Pc) (s : State) : List Word :=
  match pc with
  | .trigBuild => memReads (payloadWords s.main.headerInfo.pdsuLength).toNat (memSetRdP 0 s)
  | .autoBuild => memReads (payloadWords (autoHeader s).pdsuLength).toNat (autoRead s)
  | _ => []

/-- The frame a statement of the loop builds, with the words it builds it from. -/
theorem received_framesOf {pc : Pc} {s : State} (hrange : s.main.headerInfo.InRange)
    (hseed : nextSeed pc s.main = 0 ∨ nextSeed pc s.main = 1) :
    ∀ f ∈ framesOf pc s (mainStep pc s).2, f.Received (nextSeed pc s.main) (builtFrom pc s) := by
  intro f hf
  cases pc with
  | trigBuild =>
    have hframe : framesOf .trigBuild s (mainStep .trigBuild s).2 = _ := framesOf_trigBuild s
    rw [hframe] at hf
    rw [List.mem_singleton.mp hf]
    exact received_frame false hrange hseed (memSetRdP 0 s)
  | autoBuild =>
    obtain ⟨hheader, hwords, -⟩ := autoBuild_frame s
    have hframe : f = ⟨true, (autoHeader s).built, headerWord (autoHeader s)
        :: descramble ((autoHeader s).scramblerSeed != 0) 0
          (memReads (payloadWords (autoHeader s).pdsuLength).toNat (autoRead s))⟩ := by
      refine (List.mem_singleton.mp hf).trans ?_
      show Frame.mk true (autoBuild s).main.headerInfo _ = _
      rw [hheader]
      exact congrArg _ hwords
    have hsame : (autoHeader s).InRange := ⟨hrange.pilotInfo, hrange.burstMode, hrange.dataRate⟩
    rw [hframe]
    exact received_frame true hsame hseed (autoRead s)
  | _ => cases hf

/-! ## Steps -/

/-- The statements that build a frame. -/
def Pc.builds : Pc → Bool
  | trigBuild | autoBuild => true
  | _ => false

omit [Board] [HostProtocol] in
/-- A step sends a frame where it builds one. -/
theorem framesOf_length (pc : Pc) (s s' : State) :
    (framesOf pc s s').length = if pc.builds then 1 else 0 := by
  cases pc <;> rfl

/-- A frame inverts the seed of the next one, no other statement does. -/
theorem nextSeed_main (pc : Pc) (s : State) : nextSeed (mainStep pc s).1 (varsOfMain pc s)
    = if pc.builds then flipSeed (nextSeed pc s.main) else nextSeed pc s.main := by
  cases pc with
  | trigFlood =>
    simp only [mainStep, varsOfMain]
    split
    · rfl
    · rfl
  | sendPacket | txFlood | txAuto | pendingMany | pendingOne | loadBusy | rxFlood | rxAuto
  | dumpBusy | psocFlash =>
    simp only [mainStep]
    split
    · rfl
    · rfl
  | _ => rfl

omit [HostProtocol] in
/-- The main loop keeps the fields in their range. -/
theorem inRange_varsOfMain (pc : Pc) {s : State} (h : s.main.headerInfo.InRange) :
    (varsOfMain pc s).headerInfo.InRange := by
  cases pc with
  | trigFlood =>
    simp only [varsOfMain]
    split
    · exact h
    · exact h
  | _ => exact ⟨h.pilotInfo, h.burstMode, h.dataRate⟩

omit [Board] [HostProtocol] in
/-- A command that keeps the seed keeps what comes next. -/
theorem keepsSeed_varsOfCommand {r : Option (Cmd × Word)} (hr : KeepsSeed r) (pc : Pc)
    {m : MainVars} (h : m.headerInfo.InRange) : (varsOfCommand r m).headerInfo.InRange
      ∧ nextSeed pc (varsOfCommand r m) = nextSeed pc m := by
  cases r with
  | none => exact ⟨h, rfl⟩
  | some r =>
    obtain ⟨cmd, arg⟩ := r
    obtain ⟨hseed, hrate⟩ := hr (cmd, arg) rfl
    have hsame (m' : MainVars) (hm : m'.headerInfo.scramblerSeed = m.headerInfo.scramblerSeed) :
        nextSeed pc m' = nextSeed pc m := by
      unfold nextSeed
      rw [hm]
    cases cmd with
    | hbcTxScramblerSeed => exact absurd rfl hseed
    | hbcTxSpreadFactor => exact ⟨⟨h.pilotInfo, h.burstMode, hrate rfl⟩, hsame _ rfl⟩
    | hbcTxTrigger => exact ⟨⟨h.pilotInfo, h.burstMode, h.dataRate⟩, hsame _ rfl⟩
    | _ => exact ⟨h, hsame _ rfl⟩

/-- What is true at every statement of the loop. -/
structure SeedInv (y : Sys) : Prop where
  inRange : y.fw.dev.main.headerInfo.InRange
  next : nextSeed y.pc y.fw.dev.main = seedOf y.frames.length
  received : ∀ (k : ℕ) (f : Frame), y.frames[k]? = some f → ∃ ws, f.Received (seedOf k) ws

/-- A step of the main loop. -/
theorem SeedInv.main {y : Sys} (h : SeedInv y) : SeedInv (y.step .main) := by
  by_cases hpc : y.pc = .psocHang
  · rw [Sys.step_hang hpc]
    exact h
  obtain ⟨toggle, hmain⟩ := mainStep_main y.pc y.fw.dev
  have hnext := nextSeed_main y.pc y.fw.dev
  have hlen := framesOf_length y.pc y.fw.dev (mainStep y.pc y.fw.dev).2
  rw [Sys.step_main hpc]
  refine ⟨?_, ?_, ?_⟩
  · show (mainStep y.pc y.fw.dev).2.main.headerInfo.InRange
    rw [hmain]
    exact inRange_varsOfMain y.pc h.inRange
  · show nextSeed (mainStep y.pc y.fw.dev).1 (mainStep y.pc y.fw.dev).2.main
      = seedOf (y.frames ++ framesOf y.pc y.fw.dev (mainStep y.pc y.fw.dev).2).length
    rw [hmain, List.length_append, hlen]
    refine Eq.trans hnext ?_
    rw [h.next]
    split
    · exact flipSeed_seedOf _
    · rfl
  · intro k f hf
    rcases Nat.lt_or_ge k y.frames.length with hk | hk
    · exact h.received k f (by rwa [List.getElem?_append_left hk] at hf)
    · -- it is the frame just built, the first behind those there were
      rw [List.getElem?_append_right hk] at hf
      have hone : k = y.frames.length := by
        have hlt := (List.getElem?_eq_some_iff.mp hf).1
        rw [hlen] at hlt
        split at hlt <;> omega
      rw [hone, ← h.next]
      refine ⟨_, received_framesOf h.inRange ?_ f (List.mem_of_getElem? hf)⟩
      rw [h.next, seedOf]
      split
      · exact .inl rfl
      · exact .inr rfl

omit [HostProtocol] in
/-- A step that neither moves the loop nor touches the header. -/
theorem SeedInv.same {y y' : Sys} (h : SeedInv y) (hpc : y'.pc = y.pc)
    (hrange : y'.fw.dev.main.headerInfo.InRange)
    (hnext : nextSeed y.pc y'.fw.dev.main = nextSeed y.pc y.fw.dev.main)
    (hframes : y'.frames = y.frames) : SeedInv y' := by
  refine ⟨hrange, ?_, ?_⟩
  · rw [hpc, hframes, hnext]
    exact h.next
  · rw [hframes]
    exact h.received

/-- The next frame has the next seed. -/
theorem SeedInv.step {y : Sys} {e : Event} (h : SeedInv y) (hC : KeepsSeed (y.command e)) :
    SeedInv (y.step e) := by
  by_cases he : e = .main
  · subst he
    exact h.main
  obtain ⟨toggle, hvars⟩ := y.step_main_vars e
  have hafter : y.varsAfter e = varsOfCommand (y.command e) y.fw.dev.main := by
    cases e with
    | main => exact absurd rfl he
    | _ => rfl
  obtain ⟨hrange, hnext⟩ := keepsSeed_varsOfCommand hC y.pc h.inRange
  rw [hafter] at hvars
  refine h.same (Sys.step_pc he) ?_ ?_ (Sys.step_frames he)
  · rw [hvars]
    exact hrange
  · rw [hvars]
    exact hnext

/-- In every run from start-up. -/
theorem seedInv_run {s : State} (hboot : Boot s) {evs : List Event}
    (hC : Run.Steps Sys.step (fun y e => KeepsSeed (y.command e)) (Sys.boot s) evs) :
    SeedInv (Run.run Sys.step (Sys.boot s) evs) := by
  have hstart : SeedInv (Sys.boot s) := by
    refine ⟨?_, ?_, fun k f hf => ?_⟩
    · show s.main.headerInfo.InRange
      rw [hboot.main]
      exact ⟨rfl, rfl, by decide⟩
    · show s.main.headerInfo.scramblerSeed = 0
      rw [hboot.main]
    · cases hf
  exact Run.run_of_step (fun _ _ => SeedInv.step) hstart hC

/-! ## Where a frame comes from -/

/-- Frames are added at the end. -/
theorem Sys.frames_prefix (y : Sys) (evs : List Event) :
    y.frames <+: (Run.run Sys.step y evs).frames := by
  induction evs generalizing y with
  | nil => exact List.prefix_refl _
  | cons e evs ih =>
    refine List.IsPrefix.trans ?_ (ih (y.step e))
    by_cases hpc : y.pc = .psocHang
    · rw [Sys.step_hang hpc]
    · by_cases he : e = .main
      · rw [he, Sys.step_main hpc]
        exact List.prefix_append _ _
      · rw [Sys.step_frames he]

/-- Frame `k` of the run is built from the words `ws`: these are what the statement that builds it
reads from the memory in the state it finds, with `k` frames sent before. -/
def Sys.BuildsFrom (y : Sys) (evs : List Event) (k : ℕ) (ws : List Word) : Prop :=
  ∃ pre post, evs = pre ++ .main :: post ∧ (Run.run Sys.step y pre).frames.length = k ∧
    (Run.run Sys.step y pre).pc.builds = true ∧
    ws = builtFrom (Run.run Sys.step y pre).pc (Run.run Sys.step y pre).fw.dev

/-- A frame added in a run is one that a statement of the loop has built on the way. -/
theorem Sys.frame_built {y : Sys} {evs : List Event} {k : ℕ} {f : Frame}
    (hk : y.frames.length ≤ k) (hf : (Run.run Sys.step y evs).frames[k]? = some f) :
    ∃ pre post, evs = pre ++ .main :: post ∧ (Run.run Sys.step y pre).frames.length = k ∧
      f ∈ framesOf (Run.run Sys.step y pre).pc (Run.run Sys.step y pre).fw.dev
        (mainStep (Run.run Sys.step y pre).pc (Run.run Sys.step y pre).fw.dev).2 := by
  induction evs generalizing y with
  | nil =>
    have hnone : y.frames[k]? = none := List.getElem?_eq_none hk
    cases hnone.symm.trans hf
  | cons e evs ih =>
    by_cases hnext : (y.step e).frames.length ≤ k
    · obtain ⟨pre, post, rfl, hlength, hmem⟩ := ih hnext hf
      exact ⟨e :: pre, post, rfl, hlength, hmem⟩
    · -- this step has added the frame
      have hgrows : y.frames.length < (y.step e).frames.length := by omega
      have hpc : y.pc ≠ .psocHang := by
        intro hpc
        rw [Sys.step_hang hpc] at hgrows
        exact Nat.lt_irrefl _ hgrows
      have he : e = .main := by
        by_contra he
        rw [Sys.step_frames he] at hgrows
        exact Nat.lt_irrefl _ hgrows
      subst he
      have hframes : (y.step .main).frames
          = y.frames ++ framesOf y.pc y.fw.dev (mainStep y.pc y.fw.dev).2 := by
        rw [Sys.step_main hpc]
      have hlength := framesOf_length y.pc y.fw.dev (mainStep y.pc y.fw.dev).2
      rw [hframes, List.length_append, hlength] at hnext hgrows
      have hone : y.frames.length = k := by
        split at hnext <;> omega
      refine ⟨[], evs, rfl, hone, ?_⟩
      obtain ⟨more, hmore⟩ := Sys.frames_prefix (y.step .main) evs
      rw [Run.run_cons, ← hmore, hframes, List.append_assoc,
        List.getElem?_append_right (Nat.le_of_eq hone), hone, Nat.sub_self,
        List.getElem?_append_left (by rw [hlength]; split at hgrows <;> omega)] at hf
      exact List.mem_of_getElem? hf

/-- The frames of a run from start-up, each with the words it is built from. -/
theorem frame_received {s : State} (hboot : Boot s) {evs : List Event}
    (hC : Run.Steps Sys.step (fun y e => KeepsSeed (y.command e)) (Sys.boot s) evs) {k : ℕ}
    {f : Frame} (hf : (Run.run Sys.step (Sys.boot s) evs).frames[k]? = some f) :
    ∃ ws, (Sys.boot s).BuildsFrom evs k ws ∧ f.Received (seedOf k) ws := by
  obtain ⟨pre, post, rfl, hlength, hmem⟩ := Sys.frame_built (Nat.zero_le k) hf
  have hinv := seedInv_run hboot (Run.steps_append.mp hC).1
  have hnext := hinv.next
  rw [hlength] at hnext
  have hbuilds : (Run.run Sys.step (Sys.boot s) pre).pc.builds = true := by
    have hone := List.length_pos_of_mem hmem
    rw [framesOf_length] at hone
    by_contra hnot
    rw [if_neg hnot] at hone
    exact Nat.lt_irrefl 0 hone
  refine ⟨_, ⟨pre, post, rfl, hlength, hbuilds, rfl⟩, ?_⟩
  rw [← hnext]
  refine received_framesOf hinv.inRange ?_ f hmem
  rw [hnext, seedOf]
  split
  · exact .inl rfl
  · exact .inr rfl

/-- **The frames of a run.** Whatever has happened since the start-up, as long as the host has set
neither the seed nor a rate beyond its field, the seeds of the frames sent alternate, and each
frame is forwarded by a receiver and descrambles to the words it was built from, those the memory
held when it was built. -/
theorem every_frame_received {s : State} (hboot : Boot s) {evs : List Event}
    (hC : Run.Steps Sys.step (fun y e => KeepsSeed (y.command e)) (Sys.boot s) evs) (k : ℕ)
    {f : Frame} (hf : (Run.run Sys.step (Sys.boot s) evs).frames[k]? = some f) :
    ∃ ws, (Sys.boot s).BuildsFrom evs k ws ∧ f.Received (if k % 2 = 0 then 0 else 1) ws :=
  frame_received hboot hC hf

end

/-- The first frame, on trigger. -/
theorem every_frame_received_triggered :
    letI := plainDram
    letI := plainProtocol
    ∃ f, (Run.run Sys.step (Sys.boot bootState)
        (sending .hbcTxTrigger 20 ++ List.replicate 4 .main)).frames[0]? = some f
      ∧ ∃ ws, (Sys.boot bootState).BuildsFrom
          (sending .hbcTxTrigger 20 ++ List.replicate 4 .main) 0 ws ∧ f.Received 0 ws := by
  let := plainDram
  let := plainProtocol
  have hsent : ((Run.run Sys.step (Sys.boot bootState)
      (sending .hbcTxTrigger 20 ++ List.replicate 4 .main)).frames[0]?).isSome = true := by
    decide +kernel
  obtain ⟨f, hf⟩ := Option.isSome_iff_exists.mp hsent
  exact ⟨f, hf, every_frame_received bootState_boot (by decide +kernel) 0 hf⟩

end HbcMac
