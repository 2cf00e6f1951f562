import HbcMac.DataDrain
import HbcMac.LoadLeak

/-!
# Exchanges

The host sends a command about the DRAM and takes the response, while the main loop goes on. The
loader sees the bytes on the control port only, the data port the data interrupts only, so neither
depends on how the two and the main loop come in between one another.
-/

namespace HbcMac

open LittleEndian

/-- The commands that load and dump the DRAM. -/
def Cmd.isDram : Cmd → Bool
  | .memRdAddr | .memWrAddr | .memDump | .memLoad => true
  | _ => false

/-! ## The loader -/

/-- Two firmwares that take the next bytes on the control port alike: the parser and the variables
of the loader are the same, and so is what is in the cells of `quiet`. -/
structure LoadsAlike (quiet : Word → Prop) (f g : Firmware) : Prop where
  parser : f.parser = g.parser
  loadAddr : f.dev.spi.loadAddr = g.dev.spi.loadAddr
  loadingMem : f.dev.spi.loadingMem = g.dev.spi.loadingMem
  loadIndex : f.dev.spi.loadIndex = g.dev.spi.loadIndex
  rdData : f.dev.spi.rdData = g.dev.spi.rdData
  cells : ∀ c, quiet c → f.dev.mem.cells c = g.dev.mem.cells c

namespace LoadsAlike

variable {quiet : Word → Prop} {f g : Firmware} {p : CmdParser} {s s' t t' : State}

theorem refl (f : Firmware) : LoadsAlike quiet f f := ⟨rfl, rfl, rfl, rfl, rfl, fun _ _ => rfl⟩

theorem symm (h : LoadsAlike quiet f g) : LoadsAlike quiet g f :=
  ⟨h.parser.symm, h.loadAddr.symm, h.loadingMem.symm, h.loadIndex.symm, h.rdData.symm,
    fun c hc => (h.cells c hc).symm⟩

/-- A step that keeps the variables of the loader and the cells of `quiet`. -/
theorem kept {m : MainVars} (h : LoadsAlike quiet ⟨p, s⟩ g) (htx : TxKept { s with main := m } s')
    (hcells : ∀ c, quiet c → s'.mem.cells c = s.mem.cells c) : LoadsAlike quiet ⟨p, s'⟩ g where
  parser := h.parser
  loadAddr := htx.loadAddr.trans h.loadAddr
  loadingMem := htx.loadingMem.trans h.loadingMem
  loadIndex := htx.loadIndex.trans h.loadIndex
  rdData := htx.rdData.trans h.rdData
  cells := fun c hc => (hcells c hc).trans (h.cells c hc)

/-- Parser and loader decide what a byte is. -/
theorem acceptedCmd [HostProtocol] (h : LoadsAlike quiet f g) (b : Byte) :
    acceptedCmd b f = acceptedCmd b g := by
  rw [HbcMac.acceptedCmd, HbcMac.acceptedCmd, h.parser, h.loadingMem]

/-- The acknowledge line is nothing to the loader. -/
theorem ctrlReqNext (h : LoadsAlike quiet ⟨p, s⟩ ⟨p, t⟩) :
    LoadsAlike quiet ⟨p, ctrlReqNext s⟩ ⟨p, ctrlReqNext t⟩ :=
  ⟨rfl, h.loadAddr, h.loadingMem, h.loadIndex, h.rdData, h.cells⟩

section
variable [Board]

/-- The word of a load goes to the same cell in both. -/
theorem loadByte (h : LoadsAlike quiet ⟨p, s⟩ ⟨p, t⟩) (b : Byte) :
    LoadsAlike quiet ⟨p, loadByte b s⟩ ⟨p, loadByte b t⟩ := by
  obtain ⟨-, haddr, hloading, hindex, hrd, hcells⟩ := h
  dsimp only at haddr hloading hindex hrd hcells
  by_cases hword : s.spi.loadIndex + 1 = 4
  · rw [loadByte_word hword, loadByte_word (hindex ▸ hword)]
    refine ⟨rfl, ?_, ?_, rfl, rfl, fun c hc => ?_⟩
    · exact congrArg (· + 4) haddr
    · exact congrArg (· - 1) hloading
    · rw [haddr, hrd, hindex]
      show store s.mem.cells (t.spi.loadAddr, _) c = store t.mem.cells (t.spi.loadAddr, _) c
      unfold store
      split
      · rfl
      · exact hcells c hc
  · rw [loadByte_within hword, loadByte_within (hindex ▸ hword), hrd, hindex, hloading]
    exact ⟨rfl, haddr, rfl, rfl, rfl, hcells⟩

variable [HostProtocol]

/-- A DRAM command does the same to both. -/
theorem ctrlSwitch {cmd : Cmd} (hcmd : cmd.isDram = true) (arg : Word)
    (h : LoadsAlike quiet ⟨p, s⟩ ⟨p, t⟩) :
    LoadsAlike quiet ⟨p, ctrlSwitch cmd arg s⟩ ⟨p, ctrlSwitch cmd arg t⟩ := by
  obtain ⟨-, haddr, hloading, hindex, hrd, hcells⟩ := h
  cases cmd with
  | memRdAddr | memDump => exact ⟨rfl, haddr, hloading, hindex, hrd, hcells⟩
  | memWrAddr => exact ⟨rfl, rfl, hloading, hindex, hrd, hcells⟩
  | memLoad => exact ⟨rfl, haddr, rfl, rfl, hrd, hcells⟩
  | _ => cases hcmd

/-- And so does the whole command. -/
theorem execCmd {cmd : Cmd} (hcmd : cmd.isDram = true) (arg : Word)
    (h : LoadsAlike quiet ⟨p, s⟩ ⟨p, t⟩) :
    LoadsAlike quiet ⟨p, execCmd (HostProtocol.code cmd) arg s⟩
      ⟨p, execCmd (HostProtocol.code cmd) arg t⟩ := by
  obtain ⟨hs, hmem⟩ := loader_execCmd cmd arg s
  obtain ⟨ht, hmem'⟩ := loader_execCmd cmd arg t
  have hleft := (h.ctrlSwitch hcmd arg).kept hs fun c _ => congrFun hmem.cells c
  exact (hleft.symm.kept ht fun c _ => congrFun hmem'.cells c).symm

/-- The next byte on the control port. -/
theorem ctrl (h : LoadsAlike quiet f g) {b : Byte}
    (hdram : ∀ r, HbcMac.acceptedCmd b g = some r →
      ∃ cmd, r.1 = HostProtocol.code cmd ∧ cmd.isDram) :
    LoadsAlike quiet (hbcCtrlIrq b f) (hbcCtrlIrq b g) := by
  obtain ⟨p, s⟩ := f
  obtain ⟨q, t⟩ := g
  obtain rfl : p = q := h.parser
  by_cases hzero : t.spi.loadingMem = 0
  · obtain ⟨hirq, -⟩ := hbcCtrlIrq_push (b := b) (p := p) (h.loadingMem.trans hzero)
    obtain ⟨hirq', haccept⟩ := hbcCtrlIrq_push (b := b) (p := p) hzero
    rw [haccept] at hdram
    rw [hirq, hirq']
    have hpushed : LoadsAlike quiet ⟨(p.push b).1, s⟩ ⟨(p.push b).1, t⟩ :=
      ⟨rfl, h.loadAddr, h.loadingMem, h.loadIndex, h.rdData, h.cells⟩
    cases hpush : (p.push b).2 with
    | none => exact hpushed.ctrlReqNext
    | some r =>
      obtain ⟨cmd, arg⟩ := r
      obtain ⟨c, hcode, hc⟩ := hdram _ hpush
      obtain rfl : cmd = HostProtocol.code c := hcode
      exact (hpushed.execCmd hc arg).ctrlReqNext
  · obtain ⟨hirq, -⟩ := hbcCtrlIrq_load (b := b) (p := p) (mt h.loadingMem.symm.trans hzero)
    obtain ⟨hirq', -⟩ := hbcCtrlIrq_load (b := b) (p := p) hzero
    rw [hirq, hirq']
    exact (h.loadByte b).ctrlReqNext

end

end LoadsAlike

section
variable [Board] [HostProtocol]

/-! ## The response -/

/-- The message of a DRAM command, with `dump_addr` at `a`. -/
def dramMsg (cmd : Cmd) (arg a : Word) : Msg where
  frame := replyFrame ((doAck (some cmd)).setWidth 8) 0
  reply := none
  dump := if cmd = .memDump then some ⟨false, a, arg.toNat⟩ else none

omit [Board] in
/-- Only `CMD_MEM_DUMP` answers with a dump. -/
theorem dramMsg_dump {cmd : Cmd} {arg a : Word} {d : Dump} (h : (dramMsg cmd arg a).dump = some d) :
    cmd = .memDump ∧ d = ⟨false, a, arg.toNat⟩ := by
  rw [dramMsg] at h
  by_cases hcmd : cmd = .memDump
  · rw [if_pos hcmd] at h
    exact ⟨hcmd, (Option.some.inj h).symm⟩
  · rw [if_neg hcmd] at h
    cases h

/-- The answer of a DRAM command depends on `dump_addr` alone. -/
theorem commandMsg_dram {cmd : Cmd} (h : cmd.isDram = true) (arg : Word) (s : State) :
    commandMsg (HostProtocol.code cmd) arg s = dramMsg cmd arg s.spi.dumpAddr := by
  have hreplies : cmd.replies = false := by cases cmd <;> first | rfl | cases h
  rw [commandMsg, dramMsg, decodeCmd_code]
  simp only [Option.bind_some, hreplies, Option.some.injEq, Bool.false_eq_true, if_false]

omit [Board] in
/-- None of them is the command that is not acknowledged. -/
theorem decodeCmd_dram {cmd : Cmd} (h : cmd.isDram = true) :
    decodeCmd (HostProtocol.code cmd) ≠ some .hbcTxPacket := by
  rw [decodeCmd_code]
  rintro ⟨⟩
  cases h

/-- `dump_addr` after a DRAM command and its response. -/
def dumpAddrAfter (cmd : Cmd) (arg a : Word) : Word :=
  match cmd with
  | .memRdAddr => arg
  | .memDump => txAddr a (arg.toNat / 4)
  | _ => a

/-- The message `m` is in the registers, its dump has come to the bytes `dumped`, and `dump_addr`
will come to `e`. A dump reads memory, and no load is going on. -/
structure Responding (quiet : Word → Prop) (m : Msg) (e : Word) (dumped : List Byte) (s : State) :
    Prop where
  speaking : ∃ said reads, Speaking m said dumped reads s ∧
    (m.dump ≠ none → ∀ f ∈ reads, quiet (Board.cell f.1) → f.2 = s.mem.get f.1)
  fromMem : ∀ d, m.dump = some d → d.fromRx = false
  loader : m.dump ≠ none → s.spi.loadingMem = 0
  finish : dumpEnd s = e

namespace Responding

variable {quiet : Word → Prop} {m : Msg} {e : Word} {dumped : List Byte} {s t : State}

omit [HostProtocol] in
/-- What leaves port, loader and cells alone leaves the response on its way. -/
theorem kept (h : Responding quiet m e dumped s) (hport : PortKept s t)
    (hload : m.dump ≠ none → t.spi.loadingMem = 0)
    (hcells : m.dump ≠ none → ∀ c, quiet c → t.mem.cells c = s.mem.cells c) :
    Responding quiet m e dumped t := by
  obtain ⟨said, reads, hspeak, hwords⟩ := h.speaking
  refine ⟨⟨said, reads, hspeak.kept hport fun hdump hrx => ?_, fun hd f hf hquiet => ?_⟩, h.fromMem,
    hload, ?_⟩
  · -- a dump of received data it is not
    cases hd : m.dump with
    | none => exact absurd (hspeak.silent hd).1 hdump
    | some d =>
      rw [(hspeak.dump d hd).fromRx, h.fromMem d hd] at hrx
      cases hrx
  · exact (hwords hd f hf hquiet).trans (hcells hd _ hquiet).symm
  · rw [dumpEnd, hport.dumpingMem, hport.dumpAddr, hport.dumpIndex]
    exact h.finish

omit [HostProtocol] in
/-- A data interrupt takes it one byte on. -/
theorem data (h : Responding quiet m e dumped s) :
    Responding quiet m e (dumped ++ dumpByte s) (hbcDataIrq s) := by
  by_cases hidle : spiPending s = 0
  · rw [hbcDataIrq_idle hidle, dumpByte_idle hidle, List.append_nil]
    exact h
  · obtain ⟨said, reads, hspeak, hwords⟩ := h.speaking
    obtain ⟨said', hnext⟩ := hspeak.next_dumped hidle
    have hindexed : DumpIndexed s := by
      intro hpos
      cases hd : m.dump with
      | none => exact absurd (hspeak.silent hd).1 hpos
      | some d => exact (hspeak.dump d hd).index
    refine ⟨⟨said', _, hnext, fun hd f hf hquiet => ?_⟩, h.fromMem, fun hd => ?_, ?_⟩
    · rw [mem_get_hbcDataIrq]
      rcases List.mem_append.mp hf with hf | hf
      · exact hwords hd f hf hquiet
      · exact word_dataReads hf
    · exact (txKept_hbcDataIrq s).loadingMem.trans (h.loader hd)
    · exact (dumpEnd_hbcDataIrq hindexed).2.trans h.finish

omit [HostProtocol] in
/-- The whole response has been taken. -/
theorem complete (h : Responding quiet m e dumped s) (hidle : spiPending s = 0)
    (hquiet : ∀ d, m.dump = some d → ∀ a ∈ d.addrs, quiet (Board.cell a)) :
    dumped = (m.dump.elim [] fun d => d.image s.mem) ∧ s.spi.dumpAddr = e := by
  obtain ⟨said, reads, hspeak, hwords⟩ := h.speaking
  refine ⟨hspeak.dumped_complete hidle fun f hf => ?_, (dumpEnd_idle hidle).symm.trans h.finish⟩
  have haddrs := (hspeak.complete hidle).1
  have hmem : f.1 ∈ reads.map Prod.fst := List.mem_map_of_mem hf
  rw [haddrs] at hmem
  cases hd : m.dump with
  | none =>
    rw [hd] at hmem
    cases hmem
  | some d =>
    rw [hd] at hmem
    exact hwords (by rw [hd]; exact Option.some_ne_none d) f hf (hquiet d hd f.1 hmem)

omit [Board] [HostProtocol] in
/-- The handshake is a line of its own. -/
theorem spi_ctrlReqNext (s : State) : (ctrlReqNext s).spi = s.spi := rfl

/-- A DRAM command is answered. -/
theorem start {cmd : Cmd} (hcmd : cmd.isDram = true) (arg : Word) (hidle : spiPending s = 0)
    (hload : s.spi.loadingMem = 0) :
    Responding quiet (dramMsg cmd arg s.spi.dumpAddr) (dumpAddrAfter cmd arg s.spi.dumpAddr) []
      (ctrlReqNext (execCmd (HostProtocol.code cmd) arg s)) := by
  have hpacket : cmd ≠ .hbcTxPacket := by
    rintro rfl
    cases hcmd
  have hstarts := execCmd_starts arg s (decodeCmd_dram hcmd)
  rw [commandMsg_dram hcmd] at hstarts
  have hspi := execCmd_spi hpacket arg s
  have hspeak := (hstarts.kept (portKept_ctrlReqNext _) rfl).speaking hidle
  refine ⟨⟨_, [], hspeak, fun _ => nofun⟩, fun d hd => ?_, fun hd => ?_, ?_⟩
  · rw [(dramMsg_dump hd).2]
  · obtain ⟨d, hd⟩ := Option.ne_none_iff_exists'.mp hd
    rw [spi_ctrlReqNext, hspi, (dramMsg_dump hd).1]
    exact hload
  · rw [spiPending] at hidle
    have hnone : s.spi.dumpingMem = 0 := by omega
    rw [dumpEnd, spi_ctrlReqNext, hspi]
    cases cmd with
    | memDump =>
      have hswitch : (ctrlSwitch .memDump arg s).spi
          = { s.spi with dumpIndex := 0, dumpHbcRx := false, dumpingMem := arg.toNat } := rfl
      rw [hswitch, dumpAddrAfter]
      dsimp only
      rw [Nat.zero_add]
      split
      · next hzero =>
        rw [hzero]
        exact (txAddr_zero _).symm
      · rfl
    | memRdAddr | memWrAddr | memLoad => exact if_pos hnone
    | _ => cases hcmd

end Responding

/-! ## An exchange step by step -/

/-- The byte an event brings on the control port. -/
def Event.byte : Event → Option Byte
  | .ctrl b => some b
  | _ => none

/-- What may happen during an exchange: the two interrupts of the ports, receive interrupts that
leave the cells of `quiet` alone, and steps of the main loop that neither forward a packet nor copy
the image for the PSoC. -/
def Undistracted (quiet : Word → Prop) (y : Sys) : Event → Prop
  | .ctrl _ | .data => True
  | .main => y.pc ≠ .psocCall ∧ ¬ (y.pc = .rxCall true ∧ forwards y.fw.dev = true)
  | .rxData arr => ∀ c, quiet c →
    (y.step (.rxData arr)).fw.dev.mem.cells c = y.fw.dev.mem.cells c
  | .rxReady arr => ∀ c, quiet c →
    (y.step (.rxReady arr)).fw.dev.mem.cells c = y.fw.dev.mem.cells c

/-- The bytes the dump branch writes during a run. -/
def dumpedBy : Sys → List Event → List Byte
  | _, [] => []
  | y, e :: es => y.dumpBytes e ++ dumpedBy (y.step e) es

/-- A run can be cut anywhere. -/
theorem dumpedBy_append (y : Sys) (es es' : List Event) :
    dumpedBy y (es ++ es') = dumpedBy y es ++ dumpedBy (Run.run Sys.step y es) es' := by
  induction es generalizing y with
  | nil => rfl
  | cons e es ih => rw [List.cons_append, dumpedBy, dumpedBy, ih, List.append_assoc, Run.run_cons]

/-- So can a stream of bytes. -/
theorem executed_append (bytes bytes' : List Byte) (f : Firmware) :
    executed (bytes ++ bytes') f = executed bytes f ++ executed bytes' (feed bytes f) := by
  induction bytes generalizing f with
  | nil => rfl
  | cons b bytes ih =>
    rw [List.cons_append, executed, ih, executed, List.append_assoc]
    rfl

/-- The last byte of a stream. -/
theorem executed_snoc (bytes : List Byte) (b : Byte) (f : Firmware) :
    executed (bytes ++ [b]) f = executed bytes f ++ (acceptedCmd b (feed bytes f)).toList := by
  rw [executed_append, executed, executed, List.append_nil]

/-- The exchange of a DRAM command from `y₀` on, after the bytes `sent` on the control port and the
bytes `dumped` from the dump branch: the command is still to come, or its response is in the
registers. -/
structure Exchanging (quiet : Word → Prop) (y₀ : Sys) (cmd : Cmd) (arg : Word)
    (sent dumped : List Byte) (y : Sys) : Prop where
  pc : y.pc ≠ .psocHang
  alike : LoadsAlike quiet y.fw (feed sent y₀.fw)
  port : (executed sent y₀.fw = [] ∧ PortKept y₀.fw.dev y.fw.dev ∧ dumped = []) ∨
    executed sent y₀.fw = [(HostProtocol.code cmd, arg)] ∧
      Responding quiet (dramMsg cmd arg y₀.fw.dev.spi.dumpAddr)
        (dumpAddrAfter cmd arg y₀.fw.dev.spi.dumpAddr) dumped y.fw.dev

namespace Exchanging

variable {quiet : Word → Prop} {y₀ y : Sys} {cmd : Cmd} {arg : Word} {sent dumped : List Byte}

/-- A step without a byte for the control port or from the data port. -/
theorem kept {s : State} {m : MainVars} (h : Exchanging quiet y₀ cmd arg sent dumped y)
    {z : Sys} (hz : z.fw = ⟨y.fw.parser, s⟩) (hpc : z.pc ≠ .psocHang)
    (htx : TxKept { y.fw.dev with main := m } s) (hport : PortKept y.fw.dev s)
    (hcells : ∀ c, quiet c → s.mem.cells c = y.fw.dev.mem.cells c) :
    Exchanging quiet y₀ cmd arg sent dumped z := by
  refine ⟨hpc, ?_, ?_⟩
  · rw [hz]
    exact h.alike.kept htx hcells
  · rw [hz]
    rcases h.port with ⟨hexec, hkept, hdumped⟩ | ⟨hexec, hrespond⟩
    · exact .inl ⟨hexec, hkept.trans hport, hdumped⟩
    · exact .inr ⟨hexec, hrespond.kept hport (fun hd => htx.loadingMem.trans (hrespond.loader hd))
        fun _ => hcells⟩

/-- A step of the main loop. -/
theorem main (h : Exchanging quiet y₀ cmd arg sent dumped y)
    (hfree : Undistracted quiet y .main) :
    Exchanging quiet y₀ cmd arg sent dumped (y.step .main) := by
  obtain ⟨hcopy, hforward⟩ := hfree
  have hstep := Sys.step_main h.pc
  have hmem := memKept_mainStep hcopy y.fw.dev
  have hmsg : message y .main = none := (if_neg h.pc).trans (if_neg hforward)
  have hport : PortKept y.fw.dev (mainStep y.pc y.fw.dev).2 := by
    have hcases := portStep_main h.pc
    cases hcases with
    | kept _ _ hport _ => rwa [hstep] at hport
    | next t _ hpull _ _ _ _ => cases (if_neg h.pc).symm.trans hpull
    | message m hmsg' _ _ => cases hmsg.symm.trans hmsg'
  have hhang : (mainStep y.pc y.fw.dev).1 ≠ .psocHang := mainStep_ne_psocHang h.pc hcopy _
  rw [hstep]
  exact h.kept rfl hhang (txKept_mainStep y.pc y.fw.dev) hport fun c _ => congrFun hmem.cells c

/-- A data interrupt. -/
theorem data (h : Exchanging quiet y₀ cmd arg sent dumped y) (hidle : spiPending y₀.fw.dev = 0) :
    Exchanging quiet y₀ cmd arg sent (dumped ++ y.dumpBytes .data) (y.step .data) := by
  have hstep := Sys.step_data h.pc
  have hbytes : y.dumpBytes .data = dumpByte y.fw.dev := Sys.dumpBytes_some (if_neg h.pc)
  rw [hstep, hbytes]
  rcases h.port with ⟨hexec, hkept, hdumped⟩ | ⟨hexec, hrespond⟩
  · -- nothing has been registered yet
    have hquiet : spiPending y.fw.dev = 0 := (spiPending_kept hkept).trans hidle
    rw [dumpByte_idle hquiet, List.append_nil, hbcDataIrq_idle hquiet]
    exact ⟨h.pc, h.alike, .inl ⟨hexec, hkept, hdumped⟩⟩
  · refine ⟨h.pc, ?_, .inr ⟨hexec, hrespond.data⟩⟩
    have hcells := (readerStep_hbcDataIrq y.fw.dev).1.cells
    exact h.alike.kept (txKept_hbcDataIrq y.fw.dev) fun c _ => congrFun hcells c

/-- A byte on the control port that completes no command. -/
theorem byte (h : Exchanging quiet y₀ cmd arg sent dumped y) {b : Byte}
    (haccept : acceptedCmd b y.fw = none) :
    Exchanging quiet y₀ cmd arg (sent ++ [b]) dumped (y.step (.ctrl b)) := by
  have hsame := h.alike.acceptedCmd b
  have hsent : executed (sent ++ [b]) y₀.fw = executed sent y₀.fw := by
    rw [executed_snoc, ← hsame, haccept]
    exact List.append_nil _
  have hfeed : feed (sent ++ [b]) y₀.fw = hbcCtrlIrq b (feed sent y₀.fw) := List.foldl_append ..
  have hport := portKept_hbcCtrlIrq haccept
  have hdev := hbcCtrlIrq_dev b y.fw
  rw [haccept, Option.elim_none] at hdev
  rw [Sys.step_ctrl h.pc]
  refine ⟨h.pc, ?_, ?_⟩
  · rw [hfeed]
    refine h.alike.ctrl fun r hr => ?_
    rw [← hsame, haccept] at hr
    cases hr
  · rw [hsent]
    rcases h.port with ⟨hexec, hkept, hdumped⟩ | ⟨hexec, hrespond⟩
    · exact .inl ⟨hexec, hkept.trans hport, hdumped⟩
    · -- while a dump is going on the loader is idle
      have hidle (hd : (dramMsg cmd arg y₀.fw.dev.spi.dumpAddr).dump ≠ none) :
          (hbcCtrlIrq b y.fw).dev = ctrlReqNext y.fw.dev := by
        rw [hdev, if_neg (not_not.mpr (hrespond.loader hd))]
      refine .inr ⟨hexec, hrespond.kept hport (fun hd => ?_) fun hd c _ => ?_⟩
      · rw [hidle hd]
        exact hrespond.loader hd
      · rw [hidle hd]
        rfl

/-- The last byte of the command. -/
theorem accepted (h : Exchanging quiet y₀ cmd arg sent dumped y) (hcmd : cmd.isDram = true)
    (hidle : spiPending y₀.fw.dev = 0) (hnone : executed sent y₀.fw = []) {b : Byte}
    (haccept : acceptedCmd b y.fw = some (HostProtocol.code cmd, arg)) :
    Exchanging quiet y₀ cmd arg (sent ++ [b]) (dumped ++ y.dumpBytes (.ctrl b))
      (y.step (.ctrl b)) := by
  have hsame := h.alike.acceptedCmd b
  have hsent : executed (sent ++ [b]) y₀.fw = [(HostProtocol.code cmd, arg)] := by
    rw [executed_snoc, ← hsame, haccept, hnone]
    rfl
  have hfeed : feed (sent ++ [b]) y₀.fw = hbcCtrlIrq b (feed sent y₀.fw) := List.foldl_append ..
  obtain ⟨hkept, rfl⟩ : PortKept y₀.fw.dev y.fw.dev ∧ dumped = [] := by
    rcases h.port with ⟨-, hkept, hdumped⟩ | ⟨hexec, -⟩
    · exact ⟨hkept, hdumped⟩
    · rw [hnone] at hexec
      cases hexec
  have hload : y.fw.dev.spi.loadingMem = 0 := by
    by_contra hload
    rw [acceptedCmd, if_pos hload] at haccept
    cases haccept
  -- the trigger writes the first byte of the frame
  have hbytes : y.dumpBytes (.ctrl b) = [] := by
    have hcalls : y.callsDataIrq (.ctrl b)
        = some (registered (HostProtocol.code cmd) arg y.fw.dev) := by
      rw [Sys.callsDataIrq, if_neg h.pc, haccept]
      rfl
    have hack : (registered (HostProtocol.code cmd) arg y.fw.dev).spi.ackBytes = replySize := by
      rw [registered, if_neg (decodeCmd_dram hcmd)]
      rfl
    rw [Sys.dumpBytes_some hcalls]
    exact dumpByte_none (.inl (hack ▸ by decide))
  have hdev : (hbcCtrlIrq b y.fw).dev
      = ctrlReqNext (execCmd (HostProtocol.code cmd) arg y.fw.dev) := by
    rw [hbcCtrlIrq_dev, haccept]
    rfl
  rw [Sys.step_ctrl h.pc, hbytes]
  refine ⟨h.pc, ?_, .inr ⟨hsent, ?_⟩⟩
  · rw [hfeed]
    refine h.alike.ctrl fun r hr => ?_
    rw [← hsame, haccept] at hr
    obtain rfl := Option.some.inj hr
    exact ⟨cmd, rfl, hcmd⟩
  · rw [hdev, ← hkept.dumpAddr]
    exact Responding.start hcmd arg ((spiPending_kept hkept).trans hidle) hload

/-- A receive interrupt. -/
theorem receive (h : Exchanging quiet y₀ cmd arg sent dumped y) {e : Event} {s : State}
    (hstep : y.step e = { y with fw.dev := s }) (hwriter : WriterStep y.fw.dev s)
    (hcells : ∀ c, quiet c → (y.step e).fw.dev.mem.cells c = y.fw.dev.mem.cells c) :
    Exchanging quiet y₀ cmd arg sent dumped (y.step e) := by
  rw [hstep] at hcells ⊢
  exact h.kept rfl h.pc (TxKept.of_eq hwriter.spi hwriter.main)
    (PortKept.of_eq hwriter.spi hwriter.data) hcells

/-- **One step of an exchange.** -/
theorem step (h : Exchanging quiet y₀ cmd arg sent dumped y) (hcmd : cmd.isDram = true)
    (hidle : spiPending y₀.fw.dev = 0) {e : Event} (hfree : Undistracted quiet y e)
    (hexec : executed (sent ++ e.byte.toList) y₀.fw <+: [(HostProtocol.code cmd, arg)]) :
    Exchanging quiet y₀ cmd arg (sent ++ e.byte.toList) (dumped ++ y.dumpBytes e)
      (y.step e) := by
  -- a step without a byte for the control port or from the dump branch
  have hsilent (hbyte : e.byte = none) (hbytes : y.dumpBytes e = [])
      (hnext : Exchanging quiet y₀ cmd arg sent dumped (y.step e)) :
      Exchanging quiet y₀ cmd arg (sent ++ e.byte.toList) (dumped ++ y.dumpBytes e)
        (y.step e) := by
    rw [hbyte, hbytes, Option.toList_none, List.append_nil, List.append_nil]
    exact hnext
  cases e with
  | main => exact hsilent rfl (Sys.dumpBytes_none (if_neg h.pc)) (h.main hfree)
  | ctrl b =>
    cases haccept : acceptedCmd b y.fw with
    | none =>
      have hnone : y.dumpBytes (.ctrl b) = [] := by
        apply Sys.dumpBytes_none
        rw [Sys.callsDataIrq, if_neg h.pc, haccept]
        rfl
      rw [hnone, List.append_nil]
      exact h.byte haccept
    | some r =>
      have hsnoc : executed (sent ++ [b]) y₀.fw = executed sent y₀.fw ++ [r] := by
        rw [executed_snoc, ← h.alike.acceptedCmd b, haccept]
        rfl
      rw [Event.byte, Option.toList_some, hsnoc] at hexec
      -- it is the command of the exchange, and the first one
      rcases h.port with ⟨hnone, -⟩ | ⟨hone, -⟩
      · rw [hnone, List.nil_append] at hexec
        obtain rfl : r = (HostProtocol.code cmd, arg) :=
          List.singleton_inj.mp (hexec.eq_of_length rfl)
        exact h.accepted hcmd hidle hnone haccept
      · rw [hone] at hexec
        have hlen := hexec.length_le
        simp at hlen
  | data =>
    have hdata := h.data hidle
    rwa [← List.append_nil sent] at hdata
  | rxData arr =>
    exact hsilent rfl (Sys.dumpBytes_none (if_neg h.pc))
      (h.receive (Sys.step_rxData h.pc arr) (writerStep_rxData _ arr) hfree)
  | rxReady arr =>
    exact hsilent rfl (Sys.dumpBytes_none (if_neg h.pc))
      (h.receive (Sys.step_rxReady h.pc arr) (writerStep_rxReady _ arr) hfree)

/-- **A run of them.** -/
theorem run (h : Exchanging quiet y₀ cmd arg sent dumped y) (hcmd : cmd.isDram = true)
    (hidle : spiPending y₀.fw.dev = 0) {es : List Event}
    (hfree : Run.Steps Sys.step (Undistracted quiet) y es)
    (hexec : executed (sent ++ es.filterMap Event.byte) y₀.fw
      <+: [(HostProtocol.code cmd, arg)]) :
    Exchanging quiet y₀ cmd arg (sent ++ es.filterMap Event.byte) (dumped ++ dumpedBy y es)
      (Run.run Sys.step y es) := by
  induction es generalizing y sent dumped with
  | nil =>
    rw [List.filterMap_nil, List.append_nil, dumpedBy, List.append_nil]
    exact h
  | cons e es ih =>
    have hsplit : sent ++ (e :: es).filterMap Event.byte
        = sent ++ e.byte.toList ++ es.filterMap Event.byte := by
      rw [List.append_assoc, List.filterMap_cons]
      cases e.byte <;> rfl
    rw [hsplit] at hexec ⊢
    have hfirst : executed (sent ++ e.byte.toList) y₀.fw <+: [(HostProtocol.code cmd, arg)] := by
      rw [executed_append] at hexec
      exact (List.prefix_append _ _).trans hexec
    rw [dumpedBy, ← List.append_assoc, Run.run_cons]
    exact ih (h.step hcmd hidle hfree.1 hfirst) hfree.2 hexec

end Exchanging

/-! ## Exchanges -/

/-- The events `es` bring the item `i` on the control port, and after them the whole response has
been taken. -/
structure Exchange (quiet : Word → Prop) (i : Item) (y : Sys) (es : List Event) : Prop where
  bytes : es.filterMap Event.byte = i.encode
  free : Run.Steps Sys.step (Undistracted quiet) y es
  taken : spiPending (Run.run Sys.step y es).fw.dev = 0

/-- Exchanges one after the other. -/
inductive Exchanges (quiet : Word → Prop) : List Item → Sys → List Event → Prop
  | nil (y : Sys) : Exchanges quiet [] y []
  | cons {i : Item} {items : List Item} {y : Sys} {es es' : List Event} (h : Exchange quiet i y es)
      (hrest : Exchanges quiet items (Run.run Sys.step y es) es') :
      Exchanges quiet (i :: items) y (es ++ es')

/-- The first exchange, and the others. -/
theorem Exchanges.uncons {quiet : Word → Prop} {i : Item} {items : List Item} {y : Sys}
    {es : List Event} (h : Exchanges quiet (i :: items) y es) :
    ∃ first rest, es = first ++ rest ∧ Exchange quiet i y first ∧
      Exchanges quiet items (Run.run Sys.step y first) rest := by
  cases h with
  | cons h hrest => exact ⟨_, _, rfl, h, hrest⟩

/-- No item, no event. -/
theorem Exchanges.unnil {quiet : Word → Prop} {y : Sys} {es : List Event}
    (h : Exchanges quiet [] y es) : es = [] := by
  cases h with
  | nil => rfl

/-- The system between two exchanges. -/
structure Sys.Ready (y : Sys) : Prop where
  pc : y.pc ≠ .psocHang
  idle : y.fw.Idle
  taken : spiPending y.fw.dev = 0

/-- **One exchange.** The loader is where the item takes it, and the host has the response. -/
theorem Exchange.finish {quiet : Word → Prop} {y : Sys} {es : List Event} {cmd : Cmd} {arg : Word}
    {payload : List Byte}
    (h : Exchange quiet (.command (HostProtocol.code cmd) arg payload) y es) (hready : y.Ready)
    (hcmd : cmd.isDram = true) (hvalid : payload.length = announcedBytes (HostProtocol.code cmd) arg) :
    (Run.run Sys.step y es).Ready ∧
      LoadsAlike quiet (Run.run Sys.step y es).fw ⟨idleParser (commandPkt (HostProtocol.code cmd) arg),
        (Item.command (HostProtocol.code cmd) arg payload).exec y.fw.dev⟩ ∧
      Responding quiet (dramMsg cmd arg y.fw.dev.spi.dumpAddr)
        (dumpAddrAfter cmd arg y.fw.dev.spi.dumpAddr) (dumpedBy y es) (Run.run Sys.step y es).fw.dev := by
  obtain ⟨⟨hstate, hcommands⟩, hzero⟩ := hready.idle.feeds
    [.command (HostProtocol.code cmd) arg payload] (List.forall_mem_singleton.mpr hvalid)
  rw [List.flatMap_singleton] at hcommands hstate
  have hstart : Exchanging quiet y cmd arg [] [] y :=
    ⟨hready.pc, LoadsAlike.refl _, .inl ⟨rfl, PortKept.refl _, rfl⟩⟩
  have hrun := hstart.run hcmd hready.taken h.free (by
    rw [h.bytes, List.nil_append, hcommands]
    exact List.prefix_rfl)
  rw [h.bytes, List.nil_append, List.nil_append] at hrun
  have halike := hrun.alike
  rw [hstate] at halike
  have hdone := halike.loadingMem.trans hzero
  refine ⟨⟨hrun.pc, ⟨?_, hdone⟩, h.taken⟩, halike, ?_⟩
  · rw [halike.parser]
    rfl
  · rcases hrun.port with ⟨hnone, -⟩ | ⟨-, hrespond⟩
    · rw [hcommands] at hnone
      cases hnone
    · exact hrespond

end

end HbcMac
