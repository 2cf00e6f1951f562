import HbcMac.Lib.Run
import HbcMac.Deframe
import HbcMac.MainLoop

/-!
# The account of pending packets

`tx_pending` counts the packets announced and not yet sent, whatever the order in which the
control interrupt and the reads of the transmit condition meet. A packet is sent only when
its payload has been loaded, because no packet can be announced during a load.
-/

namespace HbcMac

/-! ## Loads -/

/-- The loads announced by `CMD_HBC_TX_PACKET`. -/
def txLoads (loads : List Load) : List Load := loads.filter Load.forTx

/-- The packets announced, in their order. -/
theorem txLoads_append (loads loads' : List Load) :
    txLoads (loads ++ loads') = txLoads loads ++ txLoads loads' := List.filter_append ..

/-- All loads but the last are complete, and the last one waits for `n` bytes. -/
def Outstanding (loads : List Load) (n : ℕ) : Prop :=
  (loads = [] ∧ n = 0) ∨ ∃ pre l, loads = pre ++ [l] ∧ (∀ l' ∈ pre, l'.consumed = l'.bytes) ∧
    l.consumed + n = l.bytes

/-- The packet with number `k` has been announced and all of its payload has come. -/
def Loaded (loads : List Load) (k : ℕ) : Prop :=
  ∃ l, (txLoads loads)[k]? = some l ∧ l.consumed = l.bytes

/-- A packet that has been loaded has been announced. -/
theorem Loaded.lt {loads : List Load} {k : ℕ} (h : Loaded loads k) : k < (txLoads loads).length := by
  obtain ⟨l, hl, -⟩ := h
  exact (List.getElem?_eq_some_iff.mp hl).1

/-- Further loads do not change that. -/
theorem Loaded.append {loads : List Load} {k : ℕ} (h : Loaded loads k) (loads' : List Load) :
    Loaded (loads ++ loads') k := by
  obtain ⟨l, hl, hdone⟩ := h
  refine ⟨l, ?_, hdone⟩
  rw [txLoads_append, List.getElem?_append_left (Loaded.lt ⟨l, hl, hdone⟩), hl]

/-- What is in the list of complete loads is loaded. -/
theorem loaded_of_complete {loads : List Load} {k : ℕ} (h : ∀ l ∈ loads, l.consumed = l.bytes)
    (hk : k < (txLoads loads).length) : Loaded loads k := by
  refine ⟨(txLoads loads)[k], List.getElem?_eq_getElem hk, h _ ?_⟩
  exact (List.mem_filter.mp (List.getElem_mem hk)).1

/-- A byte is counted for the last load. -/
theorem countByte_snoc (pre : List Load) (l : Load) :
    countByte (pre ++ [l]) = pre ++ [{ l with consumed := l.consumed + 1 }] := by
  induction pre with
  | nil => rfl
  | cons l' pre ih =>
    obtain ⟨m, rest, hrest⟩ : ∃ m rest, pre ++ [l] = m :: rest := List.exists_cons_of_ne_nil (by simp)
    rw [List.cons_append, List.cons_append, ← ih, hrest]
    rfl

namespace Outstanding

/-- With the loader idle all loads are complete. -/
theorem complete {loads : List Load} (h : Outstanding loads 0) :
    ∀ l ∈ loads, l.consumed = l.bytes := by
  rcases h with ⟨rfl, -⟩ | ⟨pre, l, rfl, hpre, hlast⟩
  · intro l hl
    cases hl
  · intro l' hl'
    rcases List.mem_append.mp hl' with h' | h'
    · exact hpre l' h'
    · rw [List.mem_singleton.mp h']
      exact hlast

/-- A new load, announced when nothing is outstanding. -/
theorem announce {loads : List Load} (h : Outstanding loads 0) (forTx : Bool) (n : ℕ) :
    Outstanding (loads ++ [⟨forTx, n, 0⟩]) n :=
  Or.inr ⟨loads, _, rfl, h.complete, Nat.zero_add n⟩

/-- One more byte of the last load. -/
theorem count {loads : List Load} {n : ℕ} (h : Outstanding loads n) (hn : n ≠ 0) :
    Outstanding (countByte loads) (n - 1) := by
  rcases h with ⟨-, h0⟩ | ⟨pre, l, rfl, hpre, hlast⟩
  · exact absurd h0 hn
  · rw [countByte_snoc]
    refine Or.inr ⟨pre, _, rfl, hpre, ?_⟩
    show l.consumed + 1 + (n - 1) = l.bytes
    omega

/-- Every packet but the last one announced is loaded. -/
theorem loaded {loads : List Load} {n k : ℕ} (h : Outstanding loads n)
    (hk : k + 1 < (txLoads loads).length) : Loaded loads k := by
  rcases h with ⟨rfl, -⟩ | ⟨pre, l, rfl, hpre, -⟩
  · exact absurd hk (Nat.not_lt_zero _)
  · have hone : (txLoads [l]).length ≤ 1 := List.length_filter_le _ _
    rw [txLoads_append, List.length_append] at hk
    exact (loaded_of_complete hpre (by omega)).append [l]

end Outstanding

/-- A byte of an outstanding load does not touch the packets already loaded. -/
theorem Loaded.count {loads : List Load} {n k : ℕ} (h : Loaded loads k)
    (hout : Outstanding loads n) (hn : n ≠ 0) : Loaded (countByte loads) k := by
  rcases hout with ⟨-, h0⟩ | ⟨pre, l, rfl, hpre, hlast⟩
  · exact absurd h0 hn
  · obtain ⟨l', hl', hdone⟩ := h
    rw [countByte_snoc]
    refine (loaded_of_complete hpre ?_).append _
    by_contra hge
    -- the packet would be the one still loading
    rw [txLoads_append, List.getElem?_append_right (by omega)] at hl'
    have hmem : l' ∈ [l] := (List.mem_filter.mp (List.mem_of_getElem? hl')).1
    rw [List.mem_singleton.mp hmem] at hdone
    omega

/-- Counting announces nothing. -/
theorem length_txLoads_countByte (loads : List Load) :
    (txLoads (countByte loads)).length = (txLoads loads).length := by
  rcases List.eq_nil_or_concat loads with rfl | ⟨pre, l, rfl⟩
  · rfl
  · rw [List.concat_eq_append, countByte_snoc, txLoads_append, txLoads_append, List.length_append,
      List.length_append]
    congr 1
    cases hl : l.forTx <;> simp only [txLoads, List.filter, hl, List.length_cons, List.length_nil]

/-! ## The account -/

/-- The packets announced. -/
def Sys.accepted (y : Sys) : ℕ := (txLoads y.loads).length

/-- The statements of the auto branch. -/
def Pc.sendsAuto : Pc → Bool
  | autoLed | autoRxDisable | autoBuild | autoMask | autoSeed | autoRxEnable | autoDone => true
  | _ => false

/-- The account of the packets: those announced and not sent are counted in `tx_pending`, and the
loop is in the auto branch only when the next one has been loaded. -/
structure TxInv (y : Sys) : Prop where
  loads : Outstanding y.loads y.fw.dev.spi.loadingMem
  sent_le : y.autoSent ≤ y.accepted
  pending : y.fw.dev.main.txPending = BitVec.ofNat 32 (y.accepted - y.autoSent)
  -- `tx_pending` was one when it was read for the second time
  one : y.pc = .loadBusy → y.autoSent < y.accepted
  entered : y.pc.sendsAuto = true → Loaded y.loads y.autoSent

section
variable [Board] [HostProtocol]

omit [Board] [HostProtocol] in
/-- Steps that leave loader and count alone keep the account, wherever they lead. -/
theorem TxInv.goto {y y' : Sys} (h : TxInv y)
    (hloading : y'.fw.dev.spi.loadingMem = y.fw.dev.spi.loadingMem)
    (hpending : y'.fw.dev.main.txPending = y.fw.dev.main.txPending)
    (hloads : y'.loads = y.loads) (hsent : y'.autoSent = y.autoSent)
    (hone : y'.pc = .loadBusy → y.autoSent < y.accepted)
    (hentered : y'.pc.sendsAuto = true → Loaded y.loads y.autoSent) : TxInv y' := by
  have haccepted : y'.accepted = y.accepted := by rw [Sys.accepted, hloads, Sys.accepted]
  refine ⟨?_, ?_, ?_, ?_, ?_⟩
  · rw [hloads, hloading]
    exact h.loads
  · rw [haccepted, hsent]
    exact h.sent_le
  · rw [hpending, haccepted, hsent]
    exact h.pending
  · rw [haccepted, hsent]
    exact hone
  · rw [hloads, hsent]
    exact hentered

omit [Board] [HostProtocol] in
/-- What leaves loader and counts alone keeps the account. -/
theorem TxInv.of_kept {y y' : Sys} (h : TxInv y) (hdev : TxKept y.fw.dev y'.fw.dev)
    (hpc : y'.pc = y.pc) (hloads : y'.loads = y.loads) (hsent : y'.autoSent = y.autoSent) :
    TxInv y' :=
  h.goto hdev.loadingMem hdev.txPending hloads hsent (hpc ▸ h.one) (hpc ▸ h.entered)

omit [Board] [HostProtocol] in
/-- A load is announced while nothing is outstanding. -/
theorem TxInv.announce {y y' : Sys} (h : TxInv y) (hidle : y.fw.dev.spi.loadingMem = 0) {l : Load}
    (hl : l.consumed = 0) (hloads : y'.loads = y.loads ++ [l])
    (hloading : y'.fw.dev.spi.loadingMem = l.bytes)
    (hpending : y'.fw.dev.main.txPending
      = if l.forTx then y.fw.dev.main.txPending + 1 else y.fw.dev.main.txPending)
    (hpc : y'.pc = y.pc) (hsent : y'.autoSent = y.autoSent) : TxInv y' := by
  have hout : Outstanding y.loads 0 := hidle ▸ h.loads
  have hle := h.sent_le
  -- only a load of a packet counts
  have haccepted : y'.accepted = y.accepted + if l.forTx then 1 else 0 := by
    rw [Sys.accepted, hloads, txLoads_append, List.length_append]
    cases hf : l.forTx with
    | false => simp only [txLoads, List.filter, hf]; rfl
    | true => simp only [txLoads, List.filter, hf]; rfl
  refine ⟨?_, ?_, ?_, ?_, ?_⟩
  · obtain ⟨forTx, bytes, consumed⟩ := l
    obtain rfl : consumed = 0 := hl
    rw [hloads, hloading]
    exact hout.announce forTx bytes
  · rw [haccepted, hsent]
    omega
  · rw [hpending, haccepted, hsent, h.pending]
    split
    · rw [Nat.sub_add_comm hle, BitVec.ofNat_add]
      rfl
    · rfl
  · intro hone
    have hlt := h.one (hpc ▸ hone)
    rw [haccepted, hsent]
    omega
  · intro hentered
    rw [hloads, hsent]
    exact (h.entered (hpc ▸ hentered)).append _

omit [Board] [HostProtocol] in
/-- More than one packet pending. -/
theorem two_le_of_slt {n : ℕ} (h : (1 : Word).slt (BitVec.ofNat 32 n) = true) : 2 ≤ n := by
  by_contra hlt
  -- a signed comparison: large counts are negative and fail it
  have hn : n = 0 ∨ n = 1 := by omega
  rcases hn with rfl | rfl
  · exact absurd h (by decide)
  · exact absurd h (by decide)

/-! ## One step -/

/-- The last test comes behind the one for a single packet. -/
theorem next_loadBusy {pc : Pc} {s : State} (h : (mainStep pc s).1 = .loadBusy) :
    pc = .pendingOne ∧ s.main.txPending = 1 := by
  cases pc with
  | pendingOne =>
    simp only [mainStep] at h
    split at h
    · next hone => exact ⟨rfl, hone⟩
    · cases h
  | sendPacket | txFlood | txAuto | pendingMany | loadBusy | rxFlood | rxAuto | dumpBusy
  | psocFlash =>
    simp only [mainStep] at h
    split at h
    · cases h
    · cases h
  | _ => cases h

/-- The ways into the auto branch and through it. -/
theorem next_sendsAuto {pc : Pc} {s : State} (h : (mainStep pc s).1.sendsAuto = true) :
    (pc = .pendingMany ∧ (1 : Word).slt s.main.txPending = true) ∨
      (pc = .loadBusy ∧ s.spi.loadingMem = 0) ∨ pc.sendsAuto = true := by
  cases pc with
  | pendingMany =>
    simp only [mainStep] at h
    split at h
    · next hslt => exact Or.inl ⟨rfl, hslt⟩
    · cases h
  | loadBusy =>
    simp only [mainStep] at h
    split at h
    · cases h
    · next hidle =>
      simp only [hbcSpiLoadBusy, ne_eq, decide_not, Bool.not_eq_true', decide_eq_false_iff_not,
        not_not] at hidle
      exact Or.inr (Or.inl ⟨rfl, hidle⟩)
  | sendPacket | txFlood | txAuto | pendingOne | rxFlood | rxAuto | dumpBusy | psocFlash =>
    simp only [mainStep] at h
    split at h
    · cases h
    · cases h
  | autoLed | autoRxDisable | autoBuild | autoMask | autoSeed | autoRxEnable =>
    exact Or.inr (Or.inr rfl)
  | _ => cases h

omit [HostProtocol] in
/-- The count changes at the end of the branch only. -/
theorem mainAfter_txPending {pc : Pc} (hpc : pc ≠ .autoDone) (s : State) :
    (mainAfter pc s).txPending = s.main.txPending := by
  cases pc with
  | autoDone => exact absurd rfl hpc
  | trigFlood =>
    simp only [mainAfter]
    split
    · rfl
    · rfl
  | _ => rfl

/-- A step of the main loop. -/
theorem txInv_main {y : Sys} (h : TxInv y) (hint : y.pc ≠ .psocHang) : TxInv (y.step .main) := by
  rw [Sys.step_main hint]
  obtain ⟨⟨parser, s⟩, pc, frames, sent, loads, taken⟩ := y
  have hkept := txKept_mainStep pc s
  by_cases hdone : pc = .autoDone
  · subst hdone
    -- the statement that counts the frame as sent
    have hloaded : Loaded loads sent := h.entered rfl
    have hlt : sent < (txLoads loads).length := hloaded.lt
    have hpending : s.main.txPending = BitVec.ofNat 32 ((txLoads loads).length - sent) := h.pending
    refine ⟨h.loads, hlt, ?_, (fun hpc => by cases hpc), (fun hpc => by cases hpc)⟩
    show s.main.txPending - 1 = BitVec.ofNat 32 ((txLoads loads).length - (sent + 1))
    have hsucc : (txLoads loads).length - sent = (txLoads loads).length - (sent + 1) + 1 := by omega
    rw [hpending, hsucc, BitVec.ofNat_add]
    exact BitVec.add_sub_cancel _ _
  · have hpending : (mainStep pc s).2.main.txPending = s.main.txPending :=
      hkept.txPending.trans (mainAfter_txPending hdone s)
    have hcount : s.main.txPending = BitVec.ofNat 32 ((txLoads loads).length - sent) := h.pending
    refine h.goto hkept.loadingMem hpending rfl (if_neg hdone) ?_ ?_
    · intro hpc
      -- `loading_mem` is only looked at when exactly one packet is pending
      obtain ⟨-, hone⟩ := next_loadBusy hpc
      by_contra hge
      have hzero : (txLoads loads).length - sent = 0 := Nat.sub_eq_zero_of_le (Nat.le_of_not_lt hge)
      rw [hcount, hzero] at hone
      exact absurd hone (by decide)
    · intro hpc
      rcases next_sendsAuto hpc with ⟨-, hslt⟩ | ⟨rfl, hidle⟩ | hauto
      · -- two pending: the load that goes on belongs to a later one
        have htwo : 2 ≤ (txLoads loads).length - sent := two_le_of_slt (hcount ▸ hslt)
        have hlt : sent + 1 < (txLoads loads).length := by omega
        exact h.loads.loaded hlt
      · have hout : Outstanding loads s.spi.loadingMem := h.loads
        rw [hidle] at hout
        exact loaded_of_complete hout.complete (h.one rfl)
      · exact h.entered hauto

omit [Board] in
/-- The loads after an accepted command. -/
theorem loadsAfter_accepted {b cmd : Byte} {arg : Word} {f : Firmware} (loads : List Load)
    (hload : f.dev.spi.loadingMem = 0) (haccept : acceptedCmd b f = some (cmd, arg)) :
    loadsAfter b f loads = if (decodeCmd cmd).any Cmd.loads
      then loads ++ [⟨decide (decodeCmd cmd = some .hbcTxPacket), arg.toNat, 0⟩] else loads := by
  rw [loadsAfter, if_neg (not_not.mpr hload), haccept]
  dsimp only
  cases hcmd : decodeCmd cmd with
  | none => rfl
  | some c => cases c <;> rfl

/-- A byte on the control port. -/
theorem txInv_ctrl {y : Sys} (h : TxInv y) (b : Byte) (hint : y.pc ≠ .psocHang) :
    TxInv (y.step (.ctrl b)) := by
  rw [Sys.step_ctrl hint]
  obtain ⟨⟨parser, s⟩, pc, frames, sent, loads, taken⟩ := y
  by_cases hload : s.spi.loadingMem = 0
  · obtain ⟨hirq, haccept⟩ := hbcCtrlIrq_push (b := b) (p := parser) hload
    rw [hirq]
    cases hpush : (parser.push b).2 with
    | none =>
      have hloads : loadsAfter b ⟨parser, s⟩ loads = loads := by
        rw [loadsAfter, if_neg (not_not.mpr hload), haccept, hpush]
      exact h.of_kept (TxKept.of_eq rfl rfl) rfl hloads rfl
    | some r =>
      obtain ⟨cmd, arg⟩ := r
      have hnew := loadsAfter_accepted loads hload (haccept.trans hpush)
      have hmem : (ctrlReqNext (execCmd cmd arg s)).spi.loadingMem = _ := execCmd_loadingMem cmd arg s
      have hpend : (ctrlReqNext (execCmd cmd arg s)).main.txPending = _ :=
        execCmd_txPending cmd arg s
      by_cases hloads : (decodeCmd cmd).any Cmd.loads = true
      · -- a loading command opens a load while none is going on
        rw [if_pos hloads] at hnew hmem
        refine h.announce hload rfl hnew hmem ?_ rfl rfl
        simp only [decide_eq_true_eq]
        exact hpend
      · rw [if_neg hloads] at hnew hmem
        have hpacket : decodeCmd cmd ≠ some .hbcTxPacket := fun hc => hloads (by rw [hc]; rfl)
        rw [if_neg hpacket] at hpend
        exact h.goto hmem hpend hnew rfl h.one h.entered
  · -- the byte belongs to the load
    obtain ⟨hirq, haccept⟩ := hbcCtrlIrq_load (b := b) (p := parser) hload
    have hloads : loadsAfter b ⟨parser, s⟩ loads = countByte loads := if_pos hload
    have haccepted : (txLoads (countByte loads)).length = (txLoads loads).length :=
      length_txLoads_countByte loads
    rw [hirq]
    dsimp only
    rw [hloads]
    refine ⟨?_, ?_, ?_, ?_, ?_⟩
    · show Outstanding (countByte loads) (loadByte b s).spi.loadingMem
      rw [loadByte_loadingMem]
      exact h.loads.count hload
    · show sent ≤ (txLoads (countByte loads)).length
      rw [haccepted]
      exact h.sent_le
    · show (loadByte b s).main.txPending = BitVec.ofNat 32 ((txLoads (countByte loads)).length - sent)
      rw [loadByte_main, haccepted]
      exact h.pending
    · intro hpc
      show sent < (txLoads (countByte loads)).length
      rw [haccepted]
      exact h.one hpc
    · exact fun hpc => (h.entered hpc).count h.loads hload

/-- Any step keeps the account. -/
theorem txInv_step {y : Sys} (h : TxInv y) (e : Event) : TxInv (y.step e) := by
  by_cases hint : y.pc = .psocHang
  · rw [Sys.step_hang hint]
    exact h
  · cases e with
    | main => exact txInv_main h hint
    | ctrl b => exact txInv_ctrl h b hint
    | data =>
      rw [Sys.step_data hint]
      exact h.of_kept (txKept_hbcDataIrq _) rfl rfl rfl
    | rxData arr =>
      rw [Sys.step_rxData hint]
      have hw := writerStep_rxData y.fw.dev arr
      exact h.of_kept (TxKept.of_eq hw.spi hw.main) rfl rfl rfl
    | rxReady arr =>
      rw [Sys.step_rxReady hint]
      have hw := writerStep_rxReady y.fw.dev arr
      exact h.of_kept (TxKept.of_eq hw.spi hw.main) rfl rfl rfl

/-! ## Runs -/

/-- It is right in every run. -/
theorem txInv_run {y : Sys} (h : TxInv y) (evs : List Event) : TxInv (Run.run Sys.step y evs) := by
  exact Run.run_of_step (C := fun _ _ => True) (I := TxInv) (fun _ e h _ => txInv_step h e) h
    (Run.steps_of_forall fun _ _ _ => trivial)

/-- The statements of the auto branch behind the building of its frame. -/
def Pc.autoBuilt : Pc → Bool
  | autoMask | autoSeed | autoRxEnable | autoDone => true
  | _ => false

/-- The frames the auto branch has built. -/
def Sys.autoFrames (y : Sys) : ℕ := (y.frames.filter Frame.auto).length

theorem autoBuilt_next {pc : Pc} (hbuild : pc ≠ .autoBuild) (hdone : pc ≠ .autoDone) (s : State) :
    (mainStep pc s).1.autoBuilt = pc.autoBuilt := by
  cases pc with
  | autoBuild => exact absurd rfl hbuild
  | autoDone => exact absurd rfl hdone
  | sendPacket | txFlood | txAuto | pendingMany | pendingOne | loadBusy | rxFlood | rxAuto
  | dumpBusy | psocFlash =>
    simp only [mainStep]
    split
    · rfl
    · rfl
  | _ => rfl

omit [Board] [HostProtocol] in
theorem length_framesOf (pc : Pc) (s s' : State) :
    ((framesOf pc s s').filter Frame.auto).length = if pc = .autoBuild then 1 else 0 := by
  cases pc <;> rfl

/-- A round of the auto branch builds one frame. -/
theorem autoFrames_step {y : Sys} (e : Event)
    (h : y.autoFrames = y.autoSent + if y.pc.autoBuilt then 1 else 0) :
    (y.step e).autoFrames = (y.step e).autoSent + if (y.step e).pc.autoBuilt then 1 else 0 := by
  by_cases hint : y.pc = .psocHang
  · rw [Sys.step_hang hint]
    exact h
  · cases e with
    | main =>
      rw [Sys.step_main hint]
      obtain ⟨⟨parser, s⟩, pc, frames, sent, loads, taken⟩ := y
      have hframes : (frames.filter Frame.auto).length = sent + if pc.autoBuilt then 1 else 0 := h
      show ((frames ++ framesOf pc s (mainStep pc s).2).filter Frame.auto).length
        = (if pc = .autoDone then sent + 1 else sent) + if (mainStep pc s).1.autoBuilt then 1 else 0
      rw [List.filter_append, List.length_append, length_framesOf, hframes]
      by_cases hbuild : pc = .autoBuild
      · subst hbuild
        rfl
      · by_cases hdone : pc = .autoDone
        · subst hdone
          rfl
        · rw [autoBuilt_next hbuild hdone, if_neg hbuild, if_neg hdone]
          rfl
    | ctrl b => rw [Sys.step_ctrl hint]; exact h
    | data => rw [Sys.step_data hint]; exact h
    | rxData arr => rw [Sys.step_rxData hint]; exact h
    | rxReady arr => rw [Sys.step_rxReady hint]; exact h

omit [Board] [HostProtocol] in
/-- It is right at the start. -/
theorem txInv_boot {s : State} (hs : Boot s) : TxInv (Sys.boot s) := by
  refine ⟨Or.inl ⟨rfl, ?_⟩, Nat.le_refl _, ?_, (fun hpc => by cases hpc), (fun hpc => by cases hpc)⟩
  · show s.spi.loadingMem = 0
    rw [hs.spi]
  · show s.main.txPending = 0
    rw [hs.main]

/-- What holds between `tx_pending` and the packets announced and sent. -/
structure TxAccount (y : Sys) : Prop where
  sent_le : y.autoSent ≤ y.accepted
  frames : y.autoFrames = y.autoSent + if y.pc.autoBuilt then 1 else 0
  pending : y.accepted - y.autoSent < 2 ^ 31 →
    y.fw.dev.main.txPending.toInt = (y.accepted - y.autoSent : ℕ)
  entered : y.pc = .autoLed → Loaded y.loads y.autoSent

/-- **No frame before its payload.** In every state of every run `tx_pending` is the number of
packets announced less the rounds of the auto branch, as long as an `int` can hold it, and
the auto branch is entered for a packet only when all of its payload has come. -/
theorem tx_account {s : State} (hs : Boot s) (evs : List Event) :
    Run.Always Sys.step TxAccount (Sys.boot s) evs := by
  have hrun : Run.Always Sys.step
      (fun y => TxInv y ∧ y.autoFrames = y.autoSent + if y.pc.autoBuilt then 1 else 0)
      (Sys.boot s) evs :=
    Run.always_of_step (C := fun _ _ => True)
      (fun y e h _ => ⟨txInv_step h.1 e, autoFrames_step e h.2⟩) ⟨txInv_boot hs, rfl⟩
      (Run.steps_of_forall fun _ _ _ => trivial)
  refine hrun.mono fun y h => ?_
  obtain ⟨hinv, hframes⟩ := h
  refine ⟨hinv.sent_le, hframes, fun hlt => ?_, fun hpc => hinv.entered (hpc ▸ rfl)⟩
  have hnat : y.fw.dev.main.txPending.toNat = y.accepted - y.autoSent := by
    rw [hinv.pending, BitVec.toNat_ofNat, Nat.mod_eq_of_lt (by omega)]
  rw [BitVec.toInt_eq_toNat_of_lt (by omega), hnat]

/-! ## The range of the counter -/

omit [Board] in
/-- A byte announces a packet when it completes the command. -/
theorem length_loadsAfter (b : Byte) (f : Firmware) (loads : List Load) :
    (txLoads (loadsAfter b f loads)).length = (txLoads loads).length
      + (acceptedCmd b f).toList.countP fun r => decodeCmd r.1 = some .hbcTxPacket := by
  by_cases hload : f.dev.spi.loadingMem = 0
  · cases haccept : acceptedCmd b f with
    | none =>
      rw [loadsAfter, if_neg (not_not.mpr hload), haccept]
      rfl
    | some r =>
      obtain ⟨cmd, arg⟩ := r
      rw [loadsAfter_accepted _ hload haccept, Option.toList_some, List.countP_singleton]
      cases hcmd : decodeCmd cmd with
      | none => rfl
      | some c =>
        cases c with
        | memLoad | hbcTxPacket =>
          rw [if_pos (by rfl), txLoads_append, List.length_append]
          rfl
        | _ => rfl
  · have hnone : acceptedCmd b f = none := if_pos hload
    rw [hnone, loadsAfter, if_pos hload, length_txLoads_countByte]
    rfl

/-- Bytes on the control port, one interrupt after the other. -/
theorem run_ctrl (bytes : List Byte) {y : Sys} (h : y.pc ≠ .psocHang) :
    let y' := Run.run Sys.step y (bytes.map .ctrl)
    y'.fw = feed bytes y.fw ∧ y'.autoSent = y.autoSent ∧
      y'.accepted = y.accepted
        + (executed bytes y.fw).countP fun r => decodeCmd r.1 = some .hbcTxPacket := by
  induction bytes generalizing y with
  | nil => exact ⟨rfl, rfl, rfl⟩
  | cons b bytes ih =>
    rw [List.map_cons, Run.run_cons]
    have hstep := Sys.step_ctrl h b
    have hpc : (y.step (.ctrl b)).pc ≠ .psocHang := by
      rw [hstep]
      exact h
    obtain ⟨hfw, hsent, haccepted⟩ := ih hpc
    refine ⟨hfw.trans ?_, hsent.trans ?_, haccepted.trans ?_⟩
    · rw [hstep]
      rfl
    · rw [hstep]
    · have hone : (y.step (.ctrl b)).accepted = y.accepted
          + (acceptedCmd b y.fw).toList.countP fun r => decodeCmd r.1 = some .hbcTxPacket := by
        rw [hstep]
        exact length_loadsAfter b y.fw y.loads
      rw [hone, hstep, executed, List.countP_append, Nat.add_assoc]

/-- `n` packets without payload, one after the other. -/
def emptyPackets (n : ℕ) : List Item :=
  List.replicate n (.command (HostProtocol.code .hbcTxPacket) 0 [])

/-- From start-up the empty packets pile up as long as `tx_auto` is off. -/
theorem pending_emptyPackets {s : State} (hs : Boot s) (n : ℕ) :
    let y := Run.run Sys.step (Sys.boot s) (((emptyPackets n).flatMap Item.encode).map .ctrl)
    y.accepted = n ∧ y.autoSent = 0 ∧ y.fw.dev.main.txPending = BitVec.ofNat 32 n := by
  intro y
  have hvalid : ∀ i ∈ emptyPackets n, i.Valid := by
    intro i hi
    rw [List.eq_of_mem_replicate hi, Item.Valid, announcedBytes, decodeCmd_code]
    rfl
  have hload : s.spi.loadingMem = 0 := by rw [hs.spi]
  obtain ⟨hfeeds, -⟩ := feeds_items (emptyPackets n) hvalid bootParser.pkt hload
  obtain ⟨-, hsent, haccepted⟩ :=
    run_ctrl ((emptyPackets n).flatMap Item.encode) (y := Sys.boot s)
      (fun hpc => by cases hpc)
  have hcommands : (emptyPackets n).flatMap Item.commands
      = List.replicate n (HostProtocol.code .hbcTxPacket, 0) := by
    rw [emptyPackets, List.flatMap_replicate]
    exact List.flatten_replicate_singleton
  have hcount : y.accepted = n := by
    refine haccepted.trans ?_
    have hexec : executed ((emptyPackets n).flatMap Item.encode) (Sys.boot s).fw = _ :=
      hfeeds.commands
    rw [hexec, hcommands, List.countP_replicate, if_pos (by rw [decodeCmd_code]; rfl)]
    exact Nat.zero_add n
  have hinv : TxInv y := txInv_run (txInv_boot hs) _
  refine ⟨hcount, hsent, ?_⟩
  have hzero : y.autoSent = 0 := hsent
  rw [hinv.pending, hcount, hzero, Nat.sub_zero]

end

/-- With 2^31 packets pending `tx_pending` is negative. -/
theorem tx_pending_overflows :
    letI := plainDram
    letI := plainProtocol
    ¬ ∀ evs, Run.Always Sys.step (fun y =>
      y.fw.dev.main.txPending.toInt = (y.accepted : ℤ) - y.autoSent ∧
      0 ≤ y.fw.dev.main.txPending.toInt ∧ (y.pc = .autoLed → Loaded y.loads y.autoSent))
      (Sys.boot bootState) evs := by
  let := plainDram
  let := plainProtocol
  intro h
  have hall (n : ℕ) : 0 ≤ (BitVec.ofNat 32 n).toInt := by
    obtain ⟨-, -, hpending⟩ := pending_emptyPackets bootState_boot n
    obtain ⟨-, hnonneg, -⟩ := (h (((emptyPackets n).flatMap Item.encode).map .ctrl)).last
    rwa [hpending] at hnonneg
  exact absurd (hall (2 ^ 31)) (by decide)

/-- One packet of two bytes, up to the entry of the auto branch. -/
theorem tx_account_two_bytes :
    letI := plainDram
    letI := plainProtocol
    Run.Always Sys.step TxAccount (Sys.boot bootState)
      (([Item.command (HostProtocol.code .hbcTxAuto) 1 [],
        .command (HostProtocol.code .hbcTxPacket) 2 [0x01, 0x02]].flatMap Item.encode).map .ctrl
        ++ List.replicate 6 .main) := by
  let := plainDram
  let := plainProtocol
  exact tx_account bootState_boot _

end HbcMac
