import HbcMac.LoadDump
import HbcMac.MainVars
import HbcMac.Lib.Simulation

/-!
# Requests

The host sends a command and takes the answer, while the main loop goes on and packets come in.
The command is executed in one step of the run, and what comes on the data port is the acknowledge
frame and the reply of that step, whatever happens around it.
-/

namespace HbcMac

open LittleEndian

section
variable [Board] [HostProtocol]

/-- The packet a step accepts as a command. -/
def Sys.executes (y : Sys) (e : Event) : Option (Byte × Word) :=
  match e with
  | .ctrl b => if y.pc = .psocHang then none else acceptedCmd b y.fw
  | _ => none

/-! ## What the parser hears -/

/-- Two firmwares that take the next bytes apart alike. -/
structure HearsAlike (f g : Firmware) : Prop where
  parser : f.parser = g.parser
  loadingMem : f.dev.spi.loadingMem = g.dev.spi.loadingMem

namespace HearsAlike

variable {f g : Firmware}

omit [Board] in
/-- The parser decides what is accepted. -/
theorem acceptedCmd (h : HearsAlike f g) (b : Byte) :
    acceptedCmd b f = acceptedCmd b g := by
  rw [HbcMac.acceptedCmd, HbcMac.acceptedCmd, h.parser, h.loadingMem]

/-- The next byte. -/
theorem ctrl (h : HearsAlike f g) (b : Byte) :
    HearsAlike (hbcCtrlIrq b f) (hbcCtrlIrq b g) := by
  obtain ⟨p, s⟩ := f
  obtain ⟨q, t⟩ := g
  obtain rfl : p = q := h.parser
  have hloading : s.spi.loadingMem = t.spi.loadingMem := h.loadingMem
  by_cases hzero : t.spi.loadingMem = 0
  · obtain ⟨hirq, -⟩ := hbcCtrlIrq_push (b := b) (p := p) (hloading.trans hzero)
    obtain ⟨hirq', -⟩ := hbcCtrlIrq_push (b := b) (p := p) hzero
    rw [hirq, hirq']
    refine ⟨rfl, ?_⟩
    show ((p.push b).2.elim s fun r => execCmd r.1 r.2 s).spi.loadingMem
      = ((p.push b).2.elim t fun r => execCmd r.1 r.2 t).spi.loadingMem
    cases (p.push b).2 with
    | none => exact hloading
    | some r =>
      show (execCmd r.1 r.2 s).spi.loadingMem = (execCmd r.1 r.2 t).spi.loadingMem
      rw [execCmd_loadingMem, execCmd_loadingMem, hloading]
  · obtain ⟨hirq, -⟩ := hbcCtrlIrq_load (b := b) (p := p) (mt hloading.symm.trans hzero)
    obtain ⟨hirq', -⟩ := hbcCtrlIrq_load (b := b) (p := p) hzero
    rw [hirq, hirq']
    refine ⟨rfl, ?_⟩
    show (loadByte b s).spi.loadingMem = (loadByte b t).spi.loadingMem
    rw [loadByte_loadingMem, loadByte_loadingMem, hloading]

end HearsAlike

/-- The main loop does not come to its end. -/
def Running (y : Sys) (e : Event) : Prop := e = .main → y.pc ≠ .psocCall

/-- A step without a byte on the control port. -/
theorem hears_step {y : Sys} {e : Event} (he : e.byte = none) :
    HearsAlike (y.step e).fw y.fw := by
  by_cases hpc : y.pc = .psocHang
  · rw [Sys.step_hang hpc]
    exact ⟨rfl, rfl⟩
  · cases e with
    | main =>
      rw [Sys.step_main hpc]
      exact ⟨rfl, (txKept_mainStep y.pc y.fw.dev).loadingMem⟩
    | ctrl b => cases he
    | data =>
      rw [Sys.step_data hpc]
      exact ⟨rfl, (txKept_hbcDataIrq y.fw.dev).loadingMem⟩
    | rxData arr =>
      rw [Sys.step_rxData hpc]
      exact ⟨rfl, congrArg SpiVars.loadingMem (writerStep_rxData y.fw.dev arr).spi⟩
    | rxReady arr =>
      rw [Sys.step_rxReady hpc]
      exact ⟨rfl, congrArg SpiVars.loadingMem (writerStep_rxReady y.fw.dev arr).spi⟩

/-- The loop does not come to its end. -/
theorem Running.pc {y : Sys} {e : Event} (h : Running y e) (hpc : y.pc ≠ .psocHang) :
    (y.step e).pc ≠ .psocHang := by
  by_cases he : e = .main
  · rw [he, Sys.step_main hpc]
    exact mainStep_ne_psocHang hpc (h he) _
  · rwa [Sys.step_pc he]

/-- **The commands of a run** are those in the bytes of the control port, whatever comes in
between them. -/
theorem commands_run {y : Sys} {g : Firmware} (h : HearsAlike y.fw g) (hpc : y.pc ≠ .psocHang)
    {es : List Event} (hrun : Run.Steps Sys.step Running y es) :
    Run.actions Sys.step Sys.executes y es = executed (es.filterMap Event.byte) g ∧
      HearsAlike (Run.run Sys.step y es).fw (feed (es.filterMap Event.byte) g) ∧
      (Run.run Sys.step y es).pc ≠ .psocHang := by
  induction es generalizing y g with
  | nil => exact ⟨rfl, h, hpc⟩
  | cons e es ih =>
    have hnext := hrun.1.pc hpc
    cases hbyte : e.byte with
    | none =>
      have hnone : y.executes e = none := by
        cases e with
        | ctrl b => cases hbyte
        | _ => rfl
      have hhears := hears_step (y := y) hbyte
      have hstep : HearsAlike (y.step e).fw g :=
        ⟨hhears.parser.trans h.parser, hhears.loadingMem.trans h.loadingMem⟩
      rw [List.filterMap_cons_none hbyte, Run.actions, hnone]
      exact ih hstep hnext hrun.2
    | some b =>
      obtain rfl : e = .ctrl b := by
        cases e with
        | ctrl b' => exact congrArg Event.ctrl (Option.some.inj hbyte)
        | _ => cases hbyte
      have haccepted : y.executes (.ctrl b) = acceptedCmd b g :=
        (if_neg hpc).trans (h.acceptedCmd b)
      have hstep : HearsAlike (y.step (.ctrl b)).fw (hbcCtrlIrq b g) := by
        rw [Sys.step_ctrl hpc]
        exact h.ctrl b
      obtain ⟨hactions, hhears, hend⟩ := ih hstep hnext hrun.2
      rw [List.filterMap_cons_some hbyte, Run.actions, haccepted, hactions]
      exact ⟨rfl, hhears, hend⟩

/-- **The stream of commands under interruption.** However the bytes of the control port come in
between the steps of the main loop, the data interrupts and the receive interrupts: exactly the
commands of the items are executed, once each and in order, and parser and loader are idle at the
end. -/
theorem commands_in_order {y : Sys} (hidle : y.fw.Idle) (hpc : y.pc ≠ .psocHang)
    {items : List Item} (hvalid : ∀ i ∈ items, i.Valid) {es : List Event}
    (hbytes : es.filterMap Event.byte = items.flatMap Item.encode)
    (hrun : Run.Steps Sys.step Running y es) :
    Run.actions Sys.step Sys.executes y es = items.flatMap Item.commands ∧
      (Run.run Sys.step y es).fw.Idle := by
  obtain ⟨⟨hstate, hcommands⟩, hzero⟩ := hidle.feeds items hvalid
  obtain ⟨hactions, hhears, -⟩ := commands_run (g := y.fw) ⟨rfl, rfl⟩ hpc hrun
  rw [hbytes, hcommands] at hactions
  rw [hbytes, hstate] at hhears
  refine ⟨hactions, ?_, hhears.loadingMem.trans hzero⟩
  rw [hhears.parser]
  rfl

/-! ## The step that executes the command -/

/-- A step of an exchange that executes no command. -/
def Uncommanded (quiet : Word → Prop) (y : Sys) (e : Event) : Prop :=
  Undistracted quiet y e ∧ y.executes e = none

/-- In an exchange it does not. -/
theorem Undistracted.running {quiet : Word → Prop} {y : Sys} {e : Event}
    (h : Undistracted quiet y e) : Running y e := by
  rintro rfl
  exact h.1

namespace Uncommanded

variable {quiet : Word → Prop} {y : Sys} {e : Event}

/-- Without a command there is no message. -/
theorem message (h : Uncommanded quiet y e) : HbcMac.message y e = none := by
  obtain ⟨hfree, hnone⟩ := h
  by_cases hpc : y.pc = .psocHang
  · exact if_pos hpc
  · refine (if_neg hpc).trans ?_
    cases e with
    | main => exact if_neg hfree.2
    | ctrl b =>
      have haccept : acceptedCmd b y.fw = none := (if_neg hpc).symm.trans hnone
      dsimp only
      rw [haccept]
      rfl
    | data | rxData | rxReady => rfl

/-- Only a data interrupt has a byte written. -/
theorem pulled (h : Uncommanded quiet y e) {t : State} (ht : HbcMac.pulled y e = some t) :
    t = y.fw.dev := by
  by_cases hpc : y.pc = .psocHang
  · exact absurd ((if_pos hpc).symm.trans ht) (Option.some_ne_none t).symm
  · have hcase := (if_neg hpc).symm.trans ht
    cases e with
    | ctrl b =>
      have haccept : acceptedCmd b y.fw = none := (if_neg hpc).symm.trans h.2
      dsimp only at hcase
      rw [haccept] at hcase
      cases hcase
    | data => exact (Option.some.inj hcase).symm
    | main | rxData | rxReady => cases hcase

/-- What the loader has got stays in memory, and nothing else comes to it. -/
theorem cells (h : Uncommanded quiet y e) (hload : y.fw.dev.spi.loadingMem = 0) :
    (y.step e).fw.dev.spi.loadingMem = 0 ∧
      ∀ c, quiet c → (y.step e).fw.dev.mem.cells c = y.fw.dev.mem.cells c := by
  by_cases hpc : y.pc = .psocHang
  · rw [Sys.step_hang hpc]
    exact ⟨hload, fun _ _ => rfl⟩
  · cases e with
    | main =>
      have hmem := memKept_mainStep h.1.1 y.fw.dev
      rw [Sys.step_main hpc]
      exact ⟨(txKept_mainStep y.pc y.fw.dev).loadingMem.trans hload,
        fun c _ => congrFun hmem.cells c⟩
    | ctrl b =>
      have haccept : acceptedCmd b y.fw = none := (if_neg hpc).symm.trans h.2
      have hdev : (hbcCtrlIrq b y.fw).dev = ctrlReqNext y.fw.dev := by
        rw [hbcCtrlIrq_dev, haccept, Option.elim_none, if_neg (not_not.mpr hload)]
      rw [Sys.step_ctrl hpc]
      dsimp only
      rw [hdev]
      exact ⟨hload, fun _ _ => rfl⟩
    | data =>
      have hcells := (readerStep_hbcDataIrq y.fw.dev).1.cells
      rw [Sys.step_data hpc]
      exact ⟨(txKept_hbcDataIrq y.fw.dev).loadingMem.trans hload,
        fun c _ => congrFun hcells c⟩
    | rxData arr =>
      have hspi := (writerStep_rxData y.fw.dev arr).spi
      refine ⟨?_, h.1⟩
      rw [Sys.step_rxData hpc]
      exact (congrArg SpiVars.loadingMem hspi).trans hload
    | rxReady arr =>
      have hspi := (writerStep_rxReady y.fw.dev arr).spi
      refine ⟨?_, h.1⟩
      rw [Sys.step_rxReady hpc]
      exact (congrArg SpiVars.loadingMem hspi).trans hload

/-- The quiet cells stay. -/
theorem cells_run {es : List Event} (h : Run.Steps Sys.step (Uncommanded quiet) y es)
    (hload : y.fw.dev.spi.loadingMem = 0) :
    (Run.run Sys.step y es).fw.dev.spi.loadingMem = 0 ∧
      ∀ c, quiet c → (Run.run Sys.step y es).fw.dev.mem.cells c = y.fw.dev.mem.cells c := by
  refine Run.run_of_step (I := fun z : Sys => z.fw.dev.spi.loadingMem = 0 ∧
    ∀ c, quiet c → z.fw.dev.mem.cells c = y.fw.dev.mem.cells c) (fun z e hz he => ?_)
    ⟨hload, fun _ _ => rfl⟩ h
  obtain ⟨hidle, hsame⟩ := he.cells hz.1
  exact ⟨hidle, fun c hc => (hsame c hc).trans (hz.2 c hc)⟩

end Uncommanded

/-! ## The answer -/

/-- Of the message `m`, which has no dump, the bytes behind `before` have been written. -/
def Answering (m : Msg) (before : List Byte) (s : State) : Prop :=
  ∃ said, dataBytes s.out = before ++ said ∧ Speaking m said [] [] s

namespace Answering

variable {m : Msg} {before : List Byte} {quiet : Word → Prop} {y : Sys}

omit [HostProtocol] in
/-- A data interrupt takes the answer one byte on. -/
theorem data {s : State} (h : Answering m before s) (hm : m.dump = none) :
    Answering m before (hbcDataIrq s) := by
  obtain ⟨said, hout, hspeak⟩ := h
  by_cases hidle : spiPending s = 0
  · rw [hbcDataIrq_idle hidle]
    exact ⟨said, hout, hspeak⟩
  · obtain ⟨b, said', dumped, hwritten, hcat, hnext⟩ := hspeak.next hidle
    obtain ⟨-, rfl, hreads⟩ := hnext.silent hm
    rw [hreads] at hnext
    rw [List.append_nil, List.append_nil] at hcat
    refine ⟨said', ?_, hnext⟩
    rw [hwritten, hout, hcat, List.append_assoc]

/-- So does any step of an exchange, or it leaves the answer alone. -/
theorem step {e : Event} (h : Answering m before y.fw.dev) (hm : m.dump = none)
    (hpc : y.pc ≠ .psocHang) (he : Uncommanded quiet y e) :
    Answering m before (y.step e).fw.dev := by
  have hkept {s t : State} (h : Answering m before s) (hport : PortKept s t) :
      Answering m before t := by
    obtain ⟨said, hout, hspeak⟩ := h
    exact ⟨said, hport.data.trans hout, hspeak.kept hport fun hdump =>
      absurd (hspeak.silent hm).1 hdump⟩
  have hcases := portStep hpc e
  cases hcases with
  | kept _ _ hport _ => exact hkept h hport
  | next t _ hpull _ _ hafter _ =>
    obtain rfl := he.pulled hpull
    exact hkept (h.data hm) hafter
  | message m' hmsg _ _ => cases he.message.symm.trans hmsg

/-- Whatever happens around it. -/
theorem run {es : List Event} (h : Answering m before y.fw.dev) (hm : m.dump = none)
    (hpc : y.pc ≠ .psocHang) (hfree : Run.Steps Sys.step (Uncommanded quiet) y es) :
    Answering m before (Run.run Sys.step y es).fw.dev :=
  (Run.run_of_step (I := fun z : Sys => z.pc ≠ .psocHang ∧ Answering m before z.fw.dev)
    (fun _ _ hz he => ⟨he.1.running.pc hz.1, hz.2.step hm hz.1 he⟩) ⟨hpc, h⟩ hfree).2

end Answering

/-- While nothing is pending, no command leaves it so. -/
theorem quiet_run {quiet : Word → Prop} {y : Sys} {es : List Event} (hpc : y.pc ≠ .psocHang)
    (hidle : spiPending y.fw.dev = 0)
    (hfree : Run.Steps Sys.step (Uncommanded quiet) y es) :
    (Run.run Sys.step y es).pc ≠ .psocHang ∧ spiPending (Run.run Sys.step y es).fw.dev = 0 ∧
      dataBytes (Run.run Sys.step y es).fw.dev.out = dataBytes y.fw.dev.out := by
  refine Run.run_of_step (I := fun z : Sys => z.pc ≠ .psocHang ∧ spiPending z.fw.dev = 0 ∧
    dataBytes z.fw.dev.out = dataBytes y.fw.dev.out) (fun z e hz he => ?_) ⟨hpc, hidle, rfl⟩ hfree
  obtain ⟨hzpc, hzidle, hout⟩ := hz
  have hcases := portStep hzpc e
  refine ⟨he.1.running.pc hzpc, ?_⟩
  cases hcases with
  | kept _ _ hport _ => exact ⟨(spiPending_kept hport).trans hzidle, hport.data.trans hout⟩
  | next t _ hpull _ _ hafter _ =>
    obtain rfl := he.pulled hpull
    rw [hbcDataIrq_idle hzidle] at hafter
    exact ⟨(spiPending_kept hafter).trans hzidle, hafter.data.trans hout⟩
  | message m' hmsg _ _ => cases he.message.symm.trans hmsg

/-- The events `before`, the byte `b` and the events `after` are an exchange that executes `cmd`
with `b`, and no other command. -/
structure Request (quiet : Word → Prop) (cmd : Cmd) (arg : Word) (y : Sys)
    (before : List Event) (b : Byte) (after : List Event) : Prop where
  waits : Run.Steps Sys.step (Uncommanded quiet) y before
  pc : (Run.run Sys.step y before).pc ≠ .psocHang
  accepts : acceptedCmd b (Run.run Sys.step y before).fw = some (HostProtocol.code cmd, arg)
  answers : Run.Steps Sys.step (Uncommanded quiet)
    ((Run.run Sys.step y before).step (.ctrl b)) after

/-- **A request.** An exchange of a command without payload executes it in one of its steps, and
leaves the system ready for the next. -/
theorem Exchange.request {quiet : Word → Prop} {y : Sys} {es : List Event} {cmd : Cmd} {arg : Word}
    (h : Exchange quiet (.command (HostProtocol.code cmd) arg []) y es) (hready : y.Ready)
    (hloads : cmd.loads = false) :
    (Run.run Sys.step y es).Ready ∧ ∃ before b after, es = before ++ .ctrl b :: after ∧
      Request quiet cmd arg y before b after := by
  have hvalid : ([] : List Byte).length = announcedBytes (HostProtocol.code cmd) arg := by
    rw [announcedBytes, decodeCmd_code, Option.any_some, hloads]
    rfl
  obtain ⟨⟨hstate, hcommands⟩, hzero⟩ := hready.idle.feeds
    [.command (HostProtocol.code cmd) arg []] (List.forall_mem_singleton.mpr hvalid)
  rw [List.flatMap_singleton] at hcommands hstate
  have hrunning : Run.Steps Sys.step Running y es := h.free.mono fun _ _ he => he.running
  obtain ⟨hactions, hhears, hpc⟩ := commands_run (g := y.fw) ⟨rfl, rfl⟩ hready.pc hrunning
  rw [h.bytes, hcommands] at hactions
  rw [h.bytes, hstate] at hhears
  refine ⟨⟨hpc, ⟨?_, hhears.loadingMem.trans hzero⟩, h.taken⟩, ?_⟩
  · rw [hhears.parser]
    rfl
  · obtain ⟨before, e, after, rfl, hnone, haccept, hnone'⟩ := Run.actions_eq_singleton hactions
    obtain ⟨hbefore, hrest⟩ := Run.steps_append.mp h.free
    obtain ⟨b, rfl⟩ : ∃ b, e = .ctrl b := by
      cases e with
      | ctrl b => exact ⟨b, rfl⟩
      | _ => cases haccept
    have hmid : (Run.run Sys.step y before).pc ≠ .psocHang := by
      intro hhang
      rw [Sys.executes, if_pos hhang] at haccept
      cases haccept
    exact ⟨before, b, after, rfl, hbefore.and (Run.steps_of_actions_nil hnone), hmid,
      (if_neg hmid).symm.trans haccept, hrest.2.and (Run.steps_of_actions_nil hnone')⟩

/-- What the host gets for a command that replies with `w`. -/
def answerBytes (w : Word) : List Byte :=
  bytes (replyFrame (HostProtocol.hbcAck.setWidth 8) 0) ++ bytes w

/-- A command that replies answers with the word registered. -/
theorem commandMsg_text {cmd : Cmd} (h : cmd.replies = true) (arg : Word) (s : State) :
    (commandMsg (HostProtocol.code cmd) arg s).text
      = answerBytes (ctrlSwitch cmd arg s).spi.replyData := by
  have hack : doAck (some cmd) = HostProtocol.hbcAck := by
    cases cmd with
    | hbcTxPacket => cases h
    | _ => rfl
  rw [commandMsg, Msg.text, decodeCmd_code, hack, Option.bind_some, if_pos h]
  rfl

/-- The step that executes it. -/
theorem Request.executed {quiet : Word → Prop} {y : Sys} {before after : List Event} {b : Byte}
    {cmd : Cmd} {arg : Word} (h : Request quiet cmd arg y before b after) :
    ((Run.run Sys.step y before).step (.ctrl b)).fw.dev
      = ctrlReqNext (execCmd (HostProtocol.code cmd) arg (Run.run Sys.step y before).fw.dev) := by
  rw [Sys.step_ctrl h.pc]
  dsimp only
  rw [hbcCtrlIrq_dev, h.accepts]
  rfl

/-- **The answer.** The bytes the host gets are the acknowledge frame, and the reply as the command
has left it. -/
theorem Request.answer {quiet : Word → Prop} {y : Sys} {before after : List Event} {b : Byte}
    {cmd : Cmd} {arg : Word} (h : Request quiet cmd arg y before b after) (hready : y.Ready)
    (hdump : cmd ≠ .memDump) (hpacket : cmd ≠ .hbcTxPacket)
    (htaken : spiPending (Run.run Sys.step y (before ++ .ctrl b :: after)).fw.dev = 0) :
    dataBytes (Run.run Sys.step y (before ++ .ctrl b :: after)).fw.dev.out
      = dataBytes y.fw.dev.out
        ++ (commandMsg (HostProtocol.code cmd) arg (Run.run Sys.step y before).fw.dev).text := by
  obtain ⟨hpc, hidle, hout⟩ := quiet_run hready.pc hready.taken h.waits
  have hdecode : decodeCmd (HostProtocol.code cmd) ≠ some .hbcTxPacket := by
    rw [decodeCmd_code]
    exact fun hsame => hpacket (Option.some.inj hsame)
  have hstarts := (execCmd_starts arg (Run.run Sys.step y before).fw.dev hdecode).kept
    (portKept_ctrlReqNext _) rfl
  rw [← h.executed] at hstarts
  have hnodump : (commandMsg (HostProtocol.code cmd) arg (Run.run Sys.step y before).fw.dev).dump
      = none := by
    rw [commandMsg, decodeCmd_code]
    exact if_neg fun hsame => hdump (Option.some.inj hsame)
  have hpc' : ((Run.run Sys.step y before).step (.ctrl b)).pc ≠ .psocHang := by
    rw [Sys.step_ctrl hpc]
    exact hpc
  have hanswering : Answering _ (dataBytes y.fw.dev.out) _ :=
    ⟨_, hstarts.data.trans (congrArg (· ++ _) hout), hstarts.speaking hidle⟩
  obtain ⟨said, hsaid, hspeak⟩ := hanswering.run hnodump hpc' h.answers
  rw [Run.run_append, Run.run_cons] at htaken ⊢
  have hcomplete := (hspeak.complete htaken).2
  rw [hnodump, Option.elim_none, List.append_nil, List.append_nil] at hcomplete
  rw [hsaid, hcomplete]

/-! ## Enough data interrupts -/

/-- The bytes the host takes for a command. -/
def takes (cmd : Cmd) (arg : Word) : ℕ := 7 + if cmd = .memDump then arg.toNat else 0

/-- What is pending after a command without payload. -/
theorem spiPending_request {y : Sys} (hready : y.Ready) {cmd : Cmd} (hloads : cmd.loads = false)
    (hpacket : cmd ≠ .hbcTxPacket) (arg : Word) :
    spiPending (feed (Item.command (HostProtocol.code cmd) arg []).encode y.fw).dev
      ≤ takes cmd arg := by
  have hvalid : ([] : List Byte).length = announcedBytes (HostProtocol.code cmd) arg := by
    rw [announcedBytes, decodeCmd_code, Option.any_some, hloads]
    rfl
  have hstate := (hready.idle.feeds [.command (HostProtocol.code cmd) arg []]
    (List.forall_mem_singleton.mpr hvalid)).1.state
  have hstep := switchStep_ctrlSwitch cmd arg (acked packetSize y.fw.dev)
  have hspi := execCmd_spi hpacket arg (acked packetSize y.fw.dev)
  have hidle : (acked packetSize y.fw.dev).spi = y.fw.dev.spi := rfl
  have htaken := hready.taken
  rw [List.flatMap_singleton] at hstate
  rw [hstate]
  show (execCmd (HostProtocol.code cmd) arg (acked packetSize y.fw.dev)).spi.ackBytes
    + (execCmd (HostProtocol.code cmd) arg (acked packetSize y.fw.dev)).spi.replyBytes
    + (execCmd (HostProtocol.code cmd) arg (acked packetSize y.fw.dev)).spi.dumpingMem ≤ _
  rw [hspi]
  dsimp only
  rw [hstep.replyBytes, hstep.dumpingMem, hidle, takes]
  rw [spiPending] at htaken
  split <;> split <;> omega

/-- With as many data interrupts the exchange is complete. -/
theorem exchange_request (quiet : Word → Prop) {y : Sys} (hready : y.Ready) (cmd : Cmd)
    (hloads : cmd.loads = false) (hpacket : cmd ≠ .hbcTxPacket) (arg : Word) :
    Exchange quiet (.command (HostProtocol.code cmd) arg []) y
      (takeAfter (.command (HostProtocol.code cmd) arg []) (takes cmd arg)) :=
  exchange_takeAfter hready.pc (spiPending_request hready hloads hpacket arg)

end

/-- A damaged packet and a command, with receive interrupts and the main loop in between. -/
theorem commands_in_order_interrupted :
    letI := plainDram
    letI := plainProtocol
    Run.actions Sys.step Sys.executes (Sys.boot bootState)
        ((Item.damaged (Vector.replicate 6 0xAA)).encode.flatMap (fun b => [.main, .ctrl b])
          ++ (Item.command (HostProtocol.code .hbcRxAuto) 1 []).encode.flatMap
            fun b => [.rxData [[0x800]], .ctrl b, .data])
      = [(HostProtocol.code .hbcRxAuto, 1)] := by
  let := plainDram
  let := plainProtocol
  have hdamaged : pktCrc (Vector.replicate 6 0xAA) ≠ 0 := by decide +kernel
  have hlength : ([] : List Byte).length = announcedBytes (HostProtocol.code .hbcRxAuto) 1 := by
    decide +kernel
  have hv : ∀ i ∈ [Item.damaged (Vector.replicate 6 0xAA),
      .command (HostProtocol.code .hbcRxAuto) 1 []], i.Valid := by
    simp only [List.forall_mem_cons, Item.Valid]
    exact ⟨hdamaged, hlength, fun _ hi => absurd hi List.not_mem_nil⟩
  -- no statement of the main loop on the way is the call of `psoc_flash_device`
  have hsteps : Run.Steps Sys.step (fun y e => y.pc = .psocCall → e.byte ≠ none)
      (Sys.boot bootState)
      ((Item.damaged (Vector.replicate 6 0xAA)).encode.flatMap (fun b => [.main, .ctrl b])
        ++ (Item.command (HostProtocol.code .hbcRxAuto) 1 []).encode.flatMap
          fun b => [.rxData [[0x800]], .ctrl b, .data]) := by
    decide +kernel
  refine (commands_in_order ⟨rfl, rfl⟩ (by decide) hv ?_ (hsteps.mono ?_)).1
  · decide +kernel
  · rintro y _ hcall rfl hpc
    exact hcall hpc rfl

end HbcMac
