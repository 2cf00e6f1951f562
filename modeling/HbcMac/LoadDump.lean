import HbcMac.Exchange

/-!
# Loading and dumping

A load puts bytes together to words, a dump takes words apart, and they count alike. So a dump of
what has been loaded is what has been loaded, unless an earlier load has left bytes of a word
behind.
-/

namespace HbcMac

open LittleEndian

section
variable [Board] [HostProtocol]

/-! ## Loads of whole words -/

/-- The load that is going on will end with a whole word, and between two words nothing is left. -/
structure Padded (s : State) : Prop where
  index : s.spi.loadIndex < 4
  whole : 4 ∣ s.spi.loadIndex + s.spi.loadingMem
  clear : s.spi.loadIndex = 0 → s.spi.rdData = 0

namespace Padded

variable {s t : State}

omit [Board] [HostProtocol] in
/-- What leaves the loader alone leaves it at the start of a word. -/
theorem kept {m : MainVars} (h : Padded s) (htx : TxKept { s with main := m } t) : Padded t where
  index := lt_of_eq_of_lt htx.loadIndex h.index
  whole := by
    rw [htx.loadIndex, htx.loadingMem]
    exact h.whole
  clear := fun hzero => htx.rdData.trans (h.clear (htx.loadIndex.symm.trans hzero))

omit [HostProtocol] in
/-- A byte of a load. -/
theorem loadByte (h : Padded s) (hload : s.spi.loadingMem ≠ 0) (b : Byte) :
    Padded (loadByte b s) := by
  obtain ⟨hindex, hwhole, -⟩ := h
  by_cases hword : s.spi.loadIndex + 1 = 4
  · rw [loadByte_word hword]
    refine ⟨Nat.zero_lt_succ 3, ?_, fun _ => rfl⟩
    show 4 ∣ 0 + (s.spi.loadingMem - 1)
    omega
  · rw [loadByte_within hword]
    refine ⟨?_, ?_, fun hzero => absurd hzero (Nat.succ_ne_zero _)⟩
    · show s.spi.loadIndex + 1 < 4
      omega
    · show 4 ∣ s.spi.loadIndex + 1 + (s.spi.loadingMem - 1)
      omega

omit [Board] [HostProtocol] in
/-- The acknowledge line is nothing to it. -/
theorem ctrlReqNext (h : Padded s) : Padded (ctrlReqNext s) := ⟨h.index, h.whole, h.clear⟩

omit [Board] [HostProtocol] in
/-- Between two loads nothing is left. -/
theorem idle (h : Padded s) (hload : s.spi.loadingMem = 0) :
    s.spi.loadIndex = 0 ∧ s.spi.rdData = 0 := by
  obtain ⟨hindex, hwhole, hclear⟩ := h
  have hzero : s.spi.loadIndex = 0 := by omega
  exact ⟨hzero, hclear hzero⟩

end Padded

omit [Board] [HostProtocol] in
/-- Four bytes of reply are nothing to the loader. -/
theorem loader_reply {s : State} {r : Word × State} (h : Quiet s r.2) :
    (reply r).spi.loadIndex = s.spi.loadIndex ∧ (reply r).spi.rdData = s.spi.rdData := by
  rw [reply, hbcSpiReply, h.spi]
  exact ⟨rfl, rfl⟩

/-- A command leaves what is in `rd_data`, and only a load starts a word. -/
theorem ctrlSwitch_loader (cmd : Cmd) (arg : Word) (s : State) :
    (ctrlSwitch cmd arg s).spi.loadIndex = (if cmd.loads then 0 else s.spi.loadIndex) ∧
      (ctrlSwitch cmd arg s).spi.rdData = s.spi.rdData := by
  have hdevices (h : cmd.usesDevices = true) := ctrlSwitch_devices h arg s
  cases cmd with
  | memTest | flashRead | flashWrite =>
    obtain ⟨r, hr, hcase⟩ := hdevices rfl
    rw [hcase]
    exact loader_reply hr.quiet
  | hbcRxReady => exact loader_reply (quiet_rxPacketReady s)
  | hbcRxRead => exact loader_reply (quiet_rxRead s)
  | hbcRxCheck => exact loader_reply (quiet_rxCheckPacket s)
  | hbcRxNext =>
    have hspi : (ctrlSwitch .hbcRxNext arg s).spi = s.spi := (quiet_rxPacketNext s).spi
    rw [hspi]
    exact ⟨rfl, rfl⟩
  | hbcTxFilter =>
    obtain ⟨level, hcase⟩ := ctrlSwitch_filter arg s
    rw [hcase]
    exact ⟨rfl, rfl⟩
  | _ => exact ⟨rfl, rfl⟩

/-- A command in an idle loader, of a load of whole words if of any. -/
theorem Padded.command {s : State} (h : Padded s) (hload : s.spi.loadingMem = 0) (cmd : Byte)
    (arg : Word) (hwhole : (decodeCmd cmd).any Cmd.loads = true → 4 ∣ arg.toNat) :
    Padded (execCmd cmd arg s) := by
  obtain ⟨hindex, hclear⟩ := h.idle hload
  refine kept (m := _) ?_ (loader_accepted cmd arg s).1
  cases hcase : decodeCmd cmd with
  | none => exact h
  | some c =>
    obtain ⟨hindex', hrd⟩ := ctrlSwitch_loader c arg s
    have hloading := (switchStep_ctrlSwitch c arg s).loadingMem
    have hzero : (ctrlSwitch c arg s).spi.loadIndex = 0 := by
      rw [hindex', hindex, ite_self]
    rw [hcase, Option.any_some] at hwhole
    refine ⟨?_, ?_, fun _ => hrd.trans hclear⟩
    · show (ctrlSwitch c arg s).spi.loadIndex < 4
      rw [hzero]
      exact Nat.zero_lt_succ 3
    · show 4 ∣ (ctrlSwitch c arg s).spi.loadIndex + (ctrlSwitch c arg s).spi.loadingMem
      rw [hzero, hloading, Nat.zero_add]
      split
      · next hc => exact hwhole hc
      · rw [hload]
        exact Nat.dvd_zero 4

/-! ## Over a run -/

/-- As long as all loads have been of whole words. -/
def WholeLoads (y : Sys) : Prop := (∀ l ∈ y.loads, 4 ∣ l.bytes) → Padded y.fw.dev

omit [Board] [HostProtocol] in
/-- Payload bytes do not change what has been announced. -/
theorem bytes_countByte (loads : List Load) :
    (countByte loads).map Load.bytes = loads.map Load.bytes := by
  rcases List.eq_nil_or_concat' loads with rfl | ⟨pre, l, rfl⟩
  · rfl
  · rw [countByte_snoc, List.map_append, List.map_append]
    rfl

/-- A byte on the control port. -/
theorem WholeLoads.ctrl {y : Sys} (h : WholeLoads y) (b : Byte)
    (hloads : ∀ l ∈ loadsAfter b y.fw y.loads, 4 ∣ l.bytes) : Padded (hbcCtrlIrq b y.fw).dev := by
  rw [hbcCtrlIrq_dev]
  by_cases hload : y.fw.dev.spi.loadingMem = 0
  · cases haccept : acceptedCmd b y.fw with
    | none =>
      have hsame : loadsAfter b y.fw y.loads = y.loads := by
        rw [loadsAfter, if_neg (not_not.mpr hload), haccept]
      rw [hsame] at hloads
      rw [Option.elim_none, if_neg (not_not.mpr hload)]
      exact (h hloads).ctrlReqNext
    | some r =>
      obtain ⟨cmd, arg⟩ := r
      rw [loadsAfter_accepted _ hload haccept] at hloads
      have hnew : Padded (execCmd cmd arg y.fw.dev) := by
        by_cases hcmd : (decodeCmd cmd).any Cmd.loads = true
        · rw [if_pos hcmd, List.forall_mem_append, List.forall_mem_singleton] at hloads
          exact (h hloads.1).command hload cmd arg fun _ => hloads.2
        · rw [if_neg hcmd] at hloads
          exact (h hloads).command hload cmd arg fun hc => absurd hc hcmd
      exact hnew.ctrlReqNext
  · have haccept : acceptedCmd b y.fw = none := if_pos hload
    rw [loadsAfter, if_pos hload, ← List.forall_mem_map (P := (4 ∣ ·)), bytes_countByte,
      List.forall_mem_map] at hloads
    rw [haccept, Option.elim_none, if_pos hload]
    exact ((h hloads).loadByte hload b).ctrlReqNext

/-- A step keeps loader and account together. -/
theorem WholeLoads.step {y : Sys} (h : WholeLoads y) (e : Event) : WholeLoads (y.step e) := by
  by_cases hpc : y.pc = .psocHang
  · rw [Sys.step_hang hpc]
    exact h
  · cases e with
    | main =>
      rw [Sys.step_main hpc]
      exact fun hloads => (h hloads).kept (txKept_mainStep y.pc y.fw.dev)
    | ctrl b =>
      rw [Sys.step_ctrl hpc]
      exact h.ctrl b
    | data =>
      rw [Sys.step_data hpc]
      exact fun hloads => (h hloads).kept (txKept_hbcDataIrq y.fw.dev)
    | rxData arr =>
      have hwriter := writerStep_rxData y.fw.dev arr
      rw [Sys.step_rxData hpc]
      exact fun hloads => (h hloads).kept (TxKept.of_eq hwriter.spi hwriter.main)
    | rxReady arr =>
      have hwriter := writerStep_rxReady y.fw.dev arr
      rw [Sys.step_rxReady hpc]
      exact fun hloads => (h hloads).kept (TxKept.of_eq hwriter.spi hwriter.main)

/-- **Loads of whole words leave nothing behind.** -/
theorem wholeLoads_run {s : State} (hboot : Boot s) (evs : List Event) :
    WholeLoads (Run.run Sys.step (Sys.boot s) evs) := by
  refine Run.run_of_invariant (fun y e h => h.step e) (fun _ => ?_) evs
  have hspi : (Sys.boot s).fw.dev.spi = _ := hboot.spi
  constructor
  · rw [hspi]
    exact Nat.zero_lt_succ 3
  · rw [hspi]
    exact Nat.dvd_zero 4
  · intro _
    rw [hspi]

/-! ## The exchanges -/

/-- `CMD_MEM_RD_ADDR`. -/
def rdAddrItem (a : Word) : Item := .command (HostProtocol.code .memRdAddr) a []

/-- `CMD_MEM_DUMP`. -/
def dumpItem (n : Word) : Item := .command (HostProtocol.code .memDump) n []

/-- `CMD_MEM_LOAD` with its payload. -/
def loadItem (p : List Byte) : Item :=
  .command (HostProtocol.code .memLoad) (BitVec.ofNat 32 p.length) p

/-- The bytes `p` to the memory at `a` and back. -/
def loadDump (a : Word) (p : List Byte) : List Item :=
  [wrAddrItem a, loadItem p, rdAddrItem a, dumpItem (BitVec.ofNat 32 p.length)]

/-- Between two exchanges, `load_addr` is at `a`, `dump_addr` at `e`, nothing is left of a word,
and `cells` is what is in the cells of `quiet`. -/
structure ReadyAt (quiet : Word → Prop) (a e : Word) (cells : Word → Word) (y : Sys) : Prop where
  ready : y.Ready
  loadAddr : y.fw.dev.spi.loadAddr = a
  dumpAddr : y.fw.dev.spi.dumpAddr = e
  rdData : y.fw.dev.spi.rdData = 0
  cells : ∀ c, quiet c → y.fw.dev.mem.cells c = cells c

omit [HostProtocol] in
/-- Cells that agree before the writes agree behind them. -/
theorem replay_congr {quiet : Word → Prop} {m m' : Word → Word} (h : ∀ c, quiet c → m c = m' c)
    (log : List (Word × Word)) {c : Word} (hc : quiet c) : replay m log c = replay m' log c := by
  induction log generalizing m m' with
  | nil => exact h c hc
  | cons w log ih =>
    rw [replay_cons, replay_cons]
    refine ih fun c' hc' => ?_
    unfold store
    split
    · rfl
    · exact h c' hc'

namespace ReadyAt

variable {quiet : Word → Prop} {a e : Word} {cells : Word → Word} {y : Sys} {es : List Event}

/-- A command about addresses. -/
theorem command (h : ReadyAt quiet a e cells y) {cmd : Cmd} (hcmd : cmd.isDram = true)
    (hloads : cmd.loads = false) {arg : Word}
    (hex : Exchange quiet (.command (HostProtocol.code cmd) arg []) y es)
    (hquiet : ∀ d, (dramMsg cmd arg e).dump = some d → ∀ b ∈ d.addrs, quiet (Board.cell b)) :
    ReadyAt quiet (if cmd = .memWrAddr then arg else a) (dumpAddrAfter cmd arg e) cells
        (Run.run Sys.step y es) ∧
      dumpedBy y es = (dramMsg cmd arg e).dump.elim [] fun d =>
        d.image (Run.run Sys.step y es).fw.dev.mem := by
  have hvalid : ([] : List Byte).length = announcedBytes (HostProtocol.code cmd) arg := by
    rw [announcedBytes, decodeCmd_code, Option.any_some, hloads]
    rfl
  obtain ⟨hready, halike, hrespond⟩ := hex.finish h.ready hcmd hvalid
  rw [h.dumpAddr] at hrespond
  obtain ⟨hdumped, hend⟩ := hrespond.complete hex.taken hquiet
  obtain ⟨htx, hmem⟩ := loader_execCmd cmd arg (acked packetSize y.fw.dev)
  have hswitch : (ctrlSwitch cmd arg (acked packetSize y.fw.dev)).spi.loadAddr
        = (if cmd = .memWrAddr then arg else y.fw.dev.spi.loadAddr) ∧
      (ctrlSwitch cmd arg (acked packetSize y.fw.dev)).mem.cells = y.fw.dev.mem.cells := by
    cases cmd with
    | memRdAddr | memWrAddr | memDump => exact ⟨rfl, rfl⟩
    | memLoad => cases hloads
    | _ => cases hcmd
  refine ⟨⟨hready, ?_, hend, ?_, fun c hc => ?_⟩, hdumped⟩
  · rw [h.loadAddr] at hswitch
    exact (halike.loadAddr.trans htx.loadAddr).trans hswitch.1
  · exact (halike.rdData.trans htx.rdData).trans ((ctrlSwitch_loader cmd arg _).2.trans h.rdData)
  · have hkept := hmem.cells.trans hswitch.2
    exact (halike.cells c hc).trans ((congrFun hkept c).trans (h.cells c hc))

/-- A load of whole words. -/
theorem load (h : ReadyAt quiet a e cells y) {p : List Byte} (hp : 4 ∣ p.length)
    (hfits : p.length < 2 ^ 32) (hex : Exchange quiet (loadItem p) y es) :
    ReadyAt quiet (txAddr a (p.length / 4)) e (replay cells (wordLog a (wordsOf p)))
        (Run.run Sys.step y es) ∧ dumpedBy y es = [] := by
  obtain ⟨hready, halike, hrespond⟩ := hex.finish h.ready rfl (LoadItem.valid ⟨false, p, hfits⟩)
  rw [h.dumpAddr] at hrespond
  obtain ⟨hdumped, hend⟩ := hrespond.complete hex.taken nofun
  -- the load starts at the start of a word, with nothing left of another
  let l : LoadItem := ⟨false, p, hfits⟩
  obtain ⟨-, hrd, haddr, -⟩ := l.opened_eq y.fw.dev
  rw [h.rdData] at hrd
  have hstart : (l.opened y.fw.dev).spi.loadAddr = a := haddr.trans h.loadAddr
  have hcells : (l.opened y.fw.dev).mem.cells = y.fw.dev.mem.cells :=
    (loader_execCmd .memLoad (BitVec.ofNat 32 p.length) (acked packetSize y.fw.dev)).2.cells
  have hexec : (loadItem p).exec y.fw.dev = acked p.length (afterLoad p (l.opened y.fw.dev)) :=
    l.exec_eq_afterLoad y.fw.dev
  rw [← loadItem, hexec] at halike
  refine ⟨⟨hready, ?_, hend, ?_, fun c hc => ?_⟩, hdumped⟩
  · rw [← hstart]
    exact halike.loadAddr
  · refine halike.rdData.trans ?_
    show residue (l.opened y.fw.dev).spi.rdData p = 0
    rw [hrd, residue_of_dvd hp]
  · refine (halike.cells c hc).trans ?_
    show ((l.opened y.fw.dev).mem.storeAt (l.opened y.fw.dev).spi.loadAddr
      (loadedWords (l.opened y.fw.dev).spi.rdData p)).cells c = _
    rw [Mem.storeAt_cells, hcells, hstart, hrd, loadedWords_zero]
    exact replay_congr h.cells _ hc

end ReadyAt

/-! ## The bytes of the dump -/

omit [Board] [HostProtocol] in
/-- The addresses of a dump are the words behind its start. -/
theorem mem_addrs {a b : Word} {n : ℕ} (h : b ∈ (Dump.mk false a n).addrs) :
    ∃ i < (n + 3) / 4, b = txAddr a i := by
  rw [Dump.addrs, Dump.next_mem] at h
  obtain ⟨i, hi, rfl⟩ := List.mem_iterate.mp h
  exact ⟨i, hi, advance_iterate_plain i a⟩

omit [HostProtocol] in
/-- Where the words of `p` are, its bytes are. -/
theorem range_byte {m : Mem} {a : Word} {p : List Byte} (hp : 4 ∣ p.length)
    (h : ∀ i (hi : i < (wordsOf p).length), m.get (txAddr a i) = (wordsOf p)[i]) :
    (List.range p.length).map (m.byte a) = p := by
  have hbytes : (wordsOf p).flatMap bytes = p := by
    rw [wordsOf_bytes, Nat.mul_div_cancel' hp, List.take_length]
  refine List.ext_getElem? fun i => ?_
  calc ((List.range p.length).map (m.byte a))[i]?
      = ((wordsOf p).flatMap bytes)[i]? := ?_
    _ = p[i]? := by rw [hbytes]
  by_cases hi : i < p.length
  · have hword : i / 4 < (wordsOf p).length := by
      rw [length_wordsOf]
      omega
    rw [getElem?_flatMap_bytes, List.getElem?_map, List.getElem?_range hi,
      List.getElem?_eq_getElem hword, ← h _ hword]
    rfl
  · rw [List.getElem?_eq_none (by rw [List.length_map, List.length_range]; omega), hbytes,
      List.getElem?_eq_none (by omega)]

/-- **The four exchanges.** -/
theorem ReadyAt.loadDump {quiet : Word → Prop} {a e b : Word} {cells : Word → Word} {y : Sys}
    {es : List Event} (h : ReadyAt quiet b e cells y) {p : List Byte} (hp : 4 ∣ p.length)
    (hfits : p.length < 2 ^ 32) (hquiet : ∀ i < p.length / 4, quiet (Board.cell (txAddr a i)))
    (hes : Exchanges quiet (loadDump a p) y es) :
    ReadyAt quiet (txAddr a (p.length / 4)) (txAddr a (p.length / 4))
        (replay cells (wordLog a (wordsOf p))) (Run.run Sys.step y es) ∧
      dumpedBy y es
        = (List.range p.length).map ((Run.run Sys.step y es).fw.dev.mem.byte a) := by
  obtain ⟨es₁, rest, rfl, hwrAddr, hes⟩ := hes.uncons
  obtain ⟨es₂, rest, rfl, hload, hes⟩ := hes.uncons
  obtain ⟨es₃, rest, rfl, hrdAddr, hes⟩ := hes.uncons
  obtain ⟨es₄, rest, rfl, hdump, hes⟩ := hes.uncons
  obtain rfl := hes.unnil
  have hlen : (BitVec.ofNat 32 p.length).toNat = p.length := by
    rw [BitVec.toNat_ofNat, Nat.mod_eq_of_lt hfits]
  have hread : ∀ d, (dramMsg .memDump (BitVec.ofNat 32 p.length) a).dump = some d →
      ∀ c ∈ d.addrs, quiet (Board.cell c) := by
    intro d hd c hc
    obtain ⟨-, rfl⟩ := dramMsg_dump hd
    rw [hlen] at hc
    obtain ⟨i, hi, rfl⟩ := mem_addrs hc
    exact hquiet i (by omega)
  obtain ⟨h₁, hd₁⟩ := h.command (by rfl) (by rfl) hwrAddr nofun
  obtain ⟨h₂, hd₂⟩ := h₁.load hp hfits hload
  obtain ⟨h₃, hd₃⟩ := h₂.command (by rfl) (by rfl) hrdAddr nofun
  obtain ⟨h₄, hd₄⟩ := h₃.command (by rfl) (by rfl) hdump hread
  rw [dumpedBy_append, dumpedBy_append, dumpedBy_append, dumpedBy_append, hd₁, hd₂, hd₃, hd₄]
  simp only [Run.run_append, Run.run_nil]
  refine ⟨⟨h₄.ready, h₄.loadAddr, h₄.dumpAddr.trans ?_, h₄.rdData, h₄.cells⟩, ?_⟩
  · show txAddr a ((BitVec.ofNat 32 p.length).toNat / 4) = _
    rw [hlen]
  · show [] ++ ([] ++ ([] ++ ((Dump.mk false a (BitVec.ofNat 32 p.length).toNat).image _ ++ []))) = _
    rw [List.nil_append, List.nil_append, List.nil_append, List.append_nil, hlen, Dump.image_mem]

end

section
variable [Dram] [HostProtocol]

/-- **Load and dump.** After loads of whole words only, `p` is loaded to `a` and dumped from there,
each response taken before the next command. Then the dump is `p`, memory outside is as before, as
far as it has not been received into, and both addresses are behind the last byte. -/
theorem load_dump {s : State} (hboot : Boot s) (evs : List Event) {y : Sys}
    (hy : y = Run.run Sys.step (Sys.boot s) evs) (hready : y.Ready)
    (hloads : ∀ l ∈ y.loads, 4 ∣ l.bytes) {a : Word} {p : List Byte} (ha : 4 ∣ a.toNat)
    (hp : 4 ∣ p.length) (hfit : a.toNat + p.length ≤ memSize.toNat) {quiet : Word → Prop}
    (hquiet : ∀ i < p.length / 4, quiet (Board.cell (txAddr a i))) {es : List Event}
    (hes : Exchanges quiet (loadDump a p) y es) :
    dumpedBy y es = p ∧
      (∀ c, quiet c → (∀ i < p.length / 4, c ≠ Board.cell (txAddr a i)) →
        (Run.run Sys.step y es).fw.dev.mem.cells c = y.fw.dev.mem.cells c) ∧
      (Run.run Sys.step y es).fw.dev.spi.loadAddr = a + BitVec.ofNat 32 p.length ∧
      (Run.run Sys.step y es).fw.dev.spi.dumpAddr = a + BitVec.ofNat 32 p.length := by
  have hpadded : Padded y.fw.dev := by
    rw [hy] at hloads ⊢
    exact wholeLoads_run hboot evs hloads
  have hstart : ReadyAt quiet y.fw.dev.spi.loadAddr y.fw.dev.spi.dumpAddr y.fw.dev.mem.cells y :=
    ⟨hready, rfl, rfl, (hpadded.idle hready.idle.loader).2, fun _ _ => rfl⟩
  have hfits : p.length < 2 ^ 32 := by
    rw [memSize_toNat, halfSize_eq] at hfit
    omega
  have hend : txAddr a (p.length / 4) = a + BitVec.ofNat 32 p.length := by
    rw [txAddr, Nat.mul_div_cancel' hp]
  obtain ⟨hfinal, hdumped⟩ := hstart.loadDump hp hfits hquiet hes
  refine ⟨hdumped.trans (range_byte hp fun i hi => ?_), fun c hc hfree => ?_,
    hfinal.loadAddr.trans hend, hfinal.dumpAddr.trans hend⟩
  · -- the words are where they have been loaded to
    rw [length_wordsOf] at hi
    refine (hfinal.cells _ (hquiet i hi)).trans (replay_wordLog_getElem ha ?_ _)
    rw [length_wordsOf]
    omega
  · refine (hfinal.cells c hc).trans (replay_wordLog_of_ne fun i hi => hfree i ?_)
    rwa [length_wordsOf] at hi

end

/-! ## Enough data interrupts -/

/-- The item on the control port, and `k` data interrupts behind it. -/
def takeAfter [HostProtocol] (i : Item) (k : ℕ) : List Event :=
  i.encode.map .ctrl ++ List.replicate k .data

section
variable [Board] [HostProtocol]

/-- Without statements of the loop the counter stays. -/
theorem run_pc {y : Sys} {es : List Event} (h : ∀ e ∈ es, e ≠ .main) :
    (Run.run Sys.step y es).pc = y.pc := by
  have hstep (z : Sys) (e : Event) (hz : z.pc = y.pc) (he : e ≠ .main) : (z.step e).pc = y.pc :=
    (Sys.step_pc he).trans hz
  exact Run.run_of_step hstep rfl (Run.steps_of_forall fun _ => h)

/-- Data interrupts alone are calls of the handler. -/
theorem run_data (k : ℕ) {y : Sys} (h : y.pc ≠ .psocHang) :
    (Run.run Sys.step y (List.replicate k .data)).fw.dev = hbcDataIrq^[k] y.fw.dev := by
  induction k generalizing y with
  | zero => rfl
  | succ k ih =>
    have hstep := Sys.step_data h
    rw [List.replicate_succ, Run.run_cons, Function.iterate_succ_apply, ih (by rwa [hstep]), hstep]

/-- As many data interrupts as bytes are pending are enough. -/
theorem exchange_takeAfter {quiet : Word → Prop} {i : Item} {k : ℕ} {y : Sys} (h : y.pc ≠ .psocHang)
    (hk : spiPending (feed i.encode y.fw).dev ≤ k) : Exchange quiet i y (takeAfter i k) := by
  have hevents : ∀ e ∈ takeAfter i k, (∃ b, e = .ctrl b) ∨ e = .data := by
    intro e he
    rcases List.mem_append.mp he with he | he
    · obtain ⟨b, -, rfl⟩ := List.mem_map.mp he
      exact .inl ⟨b, rfl⟩
    · exact .inr (List.eq_of_mem_replicate he)
  refine ⟨?_, ?_, ?_⟩
  · have hctrl : (i.encode.map Event.ctrl).filterMap Event.byte = i.encode := by
      rw [List.filterMap_map]
      exact List.filterMap_some
    have hdata : (List.replicate k Event.data).filterMap Event.byte = [] :=
      List.filterMap_replicate_of_none rfl
    rw [takeAfter, List.filterMap_append, hctrl, hdata, List.append_nil]
  · refine Run.steps_of_forall fun z e he => ?_
    rcases hevents e he with ⟨b, rfl⟩ | rfl
    · trivial
    · trivial
  · have hpc : (Run.run Sys.step y (i.encode.map .ctrl)).pc = y.pc := by
      apply run_pc
      intro e he
      obtain ⟨b, -, rfl⟩ := List.mem_map.mp he
      nofun
    rw [takeAfter, Run.run_append, run_data k (hpc ▸ h), (run_ctrl i.encode h).1,
      iterate_hbcDataIrq hk]
    exact spiPending_drained _

end

/-- Four bytes to 8 and back. -/
def fourBytes [HostProtocol] : List Event :=
  takeAfter (wrAddrItem 8) 3 ++ (takeAfter (loadItem [1, 2, 3, 4]) 3 ++
    (takeAfter (rdAddrItem 8) 3 ++ (takeAfter (dumpItem 4) 7 ++ [])))

/-- The exchanges of the example. -/
theorem exchanges_fourBytes :
    letI := plainDram
    letI := plainProtocol
    Exchanges (fun _ => True) (loadDump 8 [1, 2, 3, 4]) (Sys.boot bootState) fourBytes := by
  let := plainDram
  let := plainProtocol
  refine .cons (exchange_takeAfter ?_ ?_) (.cons (exchange_takeAfter ?_ ?_)
    (.cons (exchange_takeAfter ?_ ?_) (.cons (exchange_takeAfter ?_ ?_) (.nil _))))
  · decide
  · decide +kernel
  · decide +kernel
  · decide +kernel
  · decide +kernel
  · decide +kernel
  · decide +kernel
  · decide +kernel

/-- Four bytes there and back. -/
theorem load_dump_four :
    letI := plainDram
    letI := plainProtocol
    dumpedBy (Sys.boot bootState) fourBytes = [1, 2, 3, 4] ∧
      (∀ c, True → (∀ i < 1, c ≠ Board.cell (txAddr 8 i)) →
        (Run.run Sys.step (Sys.boot bootState) fourBytes).fw.dev.mem.cells c
          = (Sys.boot bootState).fw.dev.mem.cells c) ∧
      (Run.run Sys.step (Sys.boot bootState) fourBytes).fw.dev.spi.loadAddr
        = 8 + BitVec.ofNat 32 4 ∧
      (Run.run Sys.step (Sys.boot bootState) fourBytes).fw.dev.spi.dumpAddr
        = 8 + BitVec.ofNat 32 4 := by
  let := plainDram
  let := plainProtocol
  have hready : (Sys.boot bootState).Ready := ⟨nofun, ⟨rfl, rfl⟩, rfl⟩
  exact @load_dump plainDram plainProtocol bootState bootState_boot [] (Sys.boot bootState) rfl
    hready nofun 8 [1, 2, 3, 4] (by decide) (by decide) (by decide) (fun _ => True)
    (fun _ _ => trivial) _ exchanges_fourBytes

end HbcMac
