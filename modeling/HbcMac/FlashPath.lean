import HbcMac.PsocImage
import HbcMac.Requests

/-!
# An image on its way

The host loads an image to the start of the memory, has it written to the flash chip and gets the
result of the comparison. As long as it writes nothing else there, the image is what the programmer
of the PSoC fetches later, and what the host reads back.
-/

namespace HbcMac

open LittleEndian

section
variable [Board] [HostProtocol]

/-! ## Who changes the chip -/

/-- Of the commands only `CMD_FLASH_WRITE` changes the array. -/
theorem flash_cells_ctrlSwitch {cmd : Cmd} (h : cmd ≠ .flashWrite) (arg : Word) (s : State) :
    (ctrlSwitch cmd arg s).flash.cells = s.flash.cells := by
  have hkept {s' : State} (hs' : s'.flash = s.flash) : s'.flash.cells = s.flash.cells :=
    congrArg FlashChip.cells hs'
  have hreply {r : Word × State} (hr : r.2.flash = s.flash) :
      (reply r).flash.cells = s.flash.cells := hkept hr
  cases cmd with
  | flashRead =>
    show (flashRead 0 flashSize 0 s).flash.cells = _
    rw [flashRead_flash]
  | flashWrite => exact absurd rfl h
  | memTest => exact hreply (r := (_, _)) (flash_memTest memSize s)
  | hbcRxNext => exact hkept (flash_rxPacketNext s)
  | hbcRxCheck => exact hkept (flash_rxCheckPacket s)
  | hbcTxFilter =>
    obtain ⟨level, hcase⟩ := ctrlSwitch_filter arg s
    rw [hcase]
    rfl
  | _ => rfl

/-- The chip after a command is the chip after the `switch`. -/
theorem flash_execCmd (cmd : Byte) (arg : Word) (s : State) : (execCmd cmd arg s).flash
    = ((decodeCmd cmd).elim s fun c => ctrlSwitch c arg s).flash := by
  obtain ⟨n, d, hregistered⟩ := registered_ack cmd arg s
  rw [execCmd_eq, flash_hbcDataIrq, hregistered]

/-- A step that does not execute `CMD_FLASH_WRITE`. -/
def Unburnt (y : Sys) (e : Event) : Prop := (y.command e).map Prod.fst ≠ some .flashWrite

/-- So a step without it leaves the array. -/
theorem flash_cells_step {y : Sys} {e : Event} (h : Unburnt y e) :
    (y.step e).fw.dev.flash.cells = y.fw.dev.flash.cells := by
  by_cases hpc : y.pc = .psocHang
  · rw [Sys.step_hang hpc]
  · cases e with
    | main =>
      rw [Sys.step_main hpc]
      dsimp only
      by_cases hcall : y.pc = .psocCall
      · have hread := flashRead_flash flashAddrPsocConf flashPsocSize flashAddrPsocConf y.fw.dev
        rw [hcall, mainStep, hread]
      · rw [flash_mainStep hcall]
    | ctrl b =>
      rw [Unburnt, Sys.command_ctrl hpc, acceptedCase] at h
      rw [Sys.step_ctrl hpc]
      dsimp only
      rw [hbcCtrlIrq_dev]
      show ((acceptedCmd b y.fw).elim _ _ : State).flash.cells = _
      cases haccept : acceptedCmd b y.fw with
      | none =>
        show (ite _ _ _ : State).flash.cells = _
        split
        · obtain ⟨spi, mem, hframe⟩ := loadByte_frame b y.fw.dev
          rw [hframe]
        · rfl
      | some r =>
        show (execCmd r.1 r.2 y.fw.dev).flash.cells = _
        rw [flash_execCmd]
        rw [haccept, Option.bind_some] at h
        cases hcmd : decodeCmd r.1 with
        | none => rfl
        | some c =>
          rw [hcmd] at h
          exact flash_cells_ctrlSwitch (fun hc => h (congrArg some hc)) _ _
    | data =>
      rw [Sys.step_data hpc]
      dsimp only
      rw [flash_hbcDataIrq]
    | rxData arr =>
      rw [Sys.step_rxData hpc]
      show (rxDataIntFunc _).flash.cells = _
      rw [(writerOnly_rxDataIntFunc _).flash]
    | rxReady arr =>
      rw [Sys.step_rxReady hpc]
      show (rxReadyIntFunc _).flash.cells = _
      rw [(rxReadyIntFunc_devices _).1]

/-- **Only `CMD_FLASH_WRITE` changes the chip**, over every run. -/
theorem flash_cells_run {y : Sys} {es : List Event} (h : Run.Steps Sys.step Unburnt y es) :
    (Run.run Sys.step y es).fw.dev.flash.cells = y.fw.dev.flash.cells :=
  Run.run_of_step (I := fun z : Sys => z.fw.dev.flash.cells = y.fw.dev.flash.cells)
    (fun _ _ hz he => (flash_cells_step he).trans hz) rfl h

/-- An uncommanded step executes none. -/
theorem Uncommanded.command {quiet : Word → Prop} {y : Sys} {e : Event}
    (h : Uncommanded quiet y e) : y.command e = none := by
  by_cases hpc : y.pc = .psocHang
  · exact Sys.command_hang hpc e
  · cases e with
    | ctrl b =>
      have haccept : acceptedCmd b y.fw = none := (if_neg hpc).symm.trans h.2
      rw [Sys.command_ctrl hpc, acceptedCase, haccept]
      rfl
    | main | data | rxData | rxReady => rfl

/-- In particular no write. -/
theorem Uncommanded.unburnt {quiet : Word → Prop} {y : Sys} {e : Event}
    (h : Uncommanded quiet y e) : Unburnt y e := by
  rw [Unburnt, h.command]
  exact fun hnone => Option.some_ne_none _ hnone.symm

/-- Without a command the main loop leaves `flash_addr` alone. -/
theorem Uncommanded.flashAddr {quiet : Word → Prop} {y : Sys} {e : Event}
    (h : Uncommanded quiet y e) : (y.step e).fw.dev.main.flashAddr = y.fw.dev.main.flashAddr := by
  have hmain (pc : Pc) (s : State) : (varsOfMain pc s).flashAddr = s.main.flashAddr := by
    unfold varsOfMain
    split <;> first | rfl | (split <;> rfl)
  obtain ⟨toggle, hvars⟩ := Sys.step_main_vars y e
  rw [hvars]
  cases e with
  | main => exact hmain y.pc y.fw.dev
  | ctrl b =>
    show (varsOfCommand (y.command (.ctrl b)) y.fw.dev.main).flashAddr = _
    rw [h.command]
    rfl
  | data | rxData | rxReady => rfl

/-! ## One write -/

omit [HostProtocol] in
/-- From the start of a page on, and with every sector of the range erased, the memory is found in
the array. -/
theorem flashWrite_holds {s : State} (h : s.flash.busy = 0) {size flashAddr : Word}
    (hpage : 256 ∣ flashAddr.toNat) (hfit : flashAddr.toNat + size.toNat ≤ flashSize.toNat)
    (herase : flashAddr.toNat % 65536 + size.toNat ≤ 65536 * ((size.toNat + 65535) / 65536))
    {i : ℕ} (hi : i < size.toNat) :
    (flashWrite 0 size flashAddr s).flash.cells (flashAddr.toNat + i) = s.mem.byte 0 i := by
  have hend : flashSize.toNat = 524288 := rfl
  have hbytes : pageSize = 256 := rfl
  have hsector : sectorSize = 65536 := rfl
  have hcell : erasedCells size flashAddr s (flashAddr.toNat + i) = 0xFF := by
    rw [erasedCells, hsector, if_pos (by omega)]
  have hindex : flashAddr.toNat + i - flashAddr.toNat / 256 * 256 = i := by omega
  have hwrap : Unwrapped s.mem.readWraps 0 size := by
    intro _
    show 0 % halfSize + size.toNat ≤ halfSize
    rw [halfSize_eq]
    omega
  have hones (b : Byte) : 0xFF &&& b = b := BitVec.allOnes_and
  rw [flashWrite_cells h hfit, hcell, hbytes, hindex, if_pos (by omega), hones]
  exact hwrap.stream_eq (Nat.dvd_zero 4) hi

/-- `CMD_FLASH_WRITE`: the memory is in the array, and the reply is zero. -/
theorem ctrlSwitch_flashWrite {s : State} (h : s.flash.busy = 0) (size : Word)
    (hpage : 256 ∣ s.main.flashAddr.toNat)
    (hfit : s.main.flashAddr.toNat + size.toNat ≤ flashSize.toNat)
    (herase : s.main.flashAddr.toNat % 65536 + size.toNat
      ≤ 65536 * ((size.toNat + 65535) / 65536)) :
    (∀ i < size.toNat, (ctrlSwitch .flashWrite size s).flash.cells (s.main.flashAddr.toNat + i)
      = s.mem.byte 0 i) ∧ (ctrlSwitch .flashWrite size s).spi.replyData = 0 := by
  have hidle := (flashWrite_ops h 0 size s.main.flashAddr).1
  have hholds (i : ℕ) (hi : i < size.toNat) := flashWrite_holds h hpage hfit herase hi
  have hend : flashSize.toNat = 524288 := rfl
  obtain ⟨p, f, hwrite⟩ := flashWrite_keeps h hfit 0
  rw [hwrite] at hidle hholds
  have hswitch : ctrlSwitch .flashWrite size s
      = reply (flashVerify 0 size s.main.flashAddr { s with mem.rdP := p, flash := f }) := by
    show reply (flashVerify 0 size (flashWrite 0 size s.main.flashAddr s).main.flashAddr
      (flashWrite 0 size s.main.flashAddr s)) = _
    rw [hwrite]
  have harray := congrArg FlashChip.cells
    (flashVerify_flash 0 size s.main.flashAddr { s with mem.rdP := p, flash := f })
  have hwrap : Unwrapped s.mem.readWraps 0 size := by
    intro _
    show 0 % halfSize + size.toNat ≤ halfSize
    rw [halfSize_eq]
    omega
  rw [hswitch]
  constructor
  · intro i hi
    rw [← hholds i hi]
    exact congrFun harray _
  · apply (flashVerify_zero_iff hidle 0 size hfit).mpr
    intro i hi
    refine (hholds i (by omega)).trans ?_
    exact (hwrap.stream_eq (Nat.dvd_zero 4) (by omega)).symm

/-! ## The exchanges -/

/-- `CMD_FLASH_WRITE_ADDR`. -/
def flashAddrItem (f : Word) : Item := .command (HostProtocol.code .flashWriteAddr) f []

/-- `CMD_FLASH_WRITE`. -/
def flashWriteItem (n : Word) : Item := .command (HostProtocol.code .flashWrite) n []

/-- `CMD_FLASH_READ`, which does not look at its argument. -/
def flashReadItem (arg : Word) : Item := .command (HostProtocol.code .flashRead) arg []

/-- The bytes `p` to the memory, and from there to the flash chip at `f`. -/
def burn (f : Word) (p : List Byte) : List Item :=
  [wrAddrItem 0, loadItem p, flashAddrItem f, flashWriteItem (BitVec.ofNat 32 p.length)]

/-- What `flash_write` is asked for: whole words, from the start of a page on, in sectors that the
erase gets to. -/
structure Burnable (f : Word) (n : ℕ) : Prop where
  words : 4 ∣ n
  page : 256 ∣ f.toNat
  fits : f.toNat + n ≤ flashSize.toNat
  erased : f.toNat % 65536 + n ≤ 65536 * ((n + 65535) / 65536)

/-- The bytes `p` are in the array at `f`. -/
def HoldsAt (cells : ℕ → Byte) (f : ℕ) (p : List Byte) : Prop :=
  ∀ i (hi : i < p.length), cells (f + i) = p[i]

section
variable {quiet : Word → Prop} {y : Sys} {es before after : List Event} {b : Byte}

/-- The state a request finds when it is executed. -/
theorem Request.found {cmd : Cmd} {arg : Word} (h : Request quiet cmd arg y before b after)
    (hready : y.Ready) :
    (∀ c, quiet c → (Run.run Sys.step y before).fw.dev.mem.cells c = y.fw.dev.mem.cells c) ∧
      (Run.run Sys.step y before).fw.dev.main.flashAddr = y.fw.dev.main.flashAddr := by
  refine ⟨(Uncommanded.cells_run h.waits hready.idle.loader).2, ?_⟩
  exact Run.run_of_step (I := fun z : Sys => z.fw.dev.main.flashAddr = y.fw.dev.main.flashAddr)
    (fun _ _ hz he => he.flashAddr.trans hz) rfl h.waits

/-- `CMD_FLASH_WRITE_ADDR`. -/
theorem Exchange.flashAddr {f : Word} (h : Exchange quiet (flashAddrItem f) y es)
    (hready : y.Ready) :
    (Run.run Sys.step y es).Ready ∧ (Run.run Sys.step y es).fw.dev.main.flashAddr = f ∧
      ∀ c, quiet c → (Run.run Sys.step y es).fw.dev.mem.cells c = y.fw.dev.mem.cells c := by
  obtain ⟨hend, before, b, after, rfl, hrequest⟩ := h.request hready rfl
  obtain ⟨hcells, -⟩ := hrequest.found hready
  have hdev := hrequest.executed
  obtain ⟨htx, hmem⟩ := loader_execCmd .flashWriteAddr f (Run.run Sys.step y before).fw.dev
  have hload := (Uncommanded.cells_run hrequest.waits hready.idle.loader).1
  have hload' : ((Run.run Sys.step y before).step (.ctrl b)).fw.dev.spi.loadingMem = 0 := by
    rw [hdev]
    exact htx.loadingMem.trans hload
  have haddr : ((Run.run Sys.step y before).step (.ctrl b)).fw.dev.main.flashAddr = f := by
    rw [hdev]
    show (execCmd _ _ _).main.flashAddr = f
    rw [execCmd_main, decodeCmd_code]
    rfl
  refine ⟨hend, ?_, fun c hc => ?_⟩
  · rw [Run.run_append, Run.run_cons]
    exact Run.run_of_step (I := fun z : Sys => z.fw.dev.main.flashAddr = f)
      (fun _ _ hz he => he.flashAddr.trans hz) haddr hrequest.answers
  · rw [Run.run_append, Run.run_cons, (Uncommanded.cells_run hrequest.answers hload').2 c hc, hdev]
    exact (congrFun hmem.cells c).trans (hcells c hc)

/-- `CMD_FLASH_WRITE`, with the bytes `p` in memory. -/
theorem Exchange.flashWrite {p : List Byte} (h : Exchange quiet
      (flashWriteItem (BitVec.ofNat 32 p.length)) y es) (hready : y.Ready)
    (hidle : y.fw.dev.flash.busy = 0) (hburn : Burnable y.fw.dev.main.flashAddr p.length)
    (hmem : ∀ i (hi : i < (wordsOf p).length), y.fw.dev.mem.get (txAddr 0 i) = (wordsOf p)[i])
    (hquiet : ∀ i < p.length / 4, quiet (Board.cell (txAddr 0 i))) :
    (Run.run Sys.step y es).Ready ∧
      HoldsAt (Run.run Sys.step y es).fw.dev.flash.cells y.fw.dev.main.flashAddr.toNat p ∧
      dataBytes (Run.run Sys.step y es).fw.dev.out
        = dataBytes y.fw.dev.out ++ answerBytes 0 := by
  have hsize : (BitVec.ofNat 32 p.length).toNat = p.length := by
    have hfits := hburn.fits
    have hend : flashSize.toNat = 524288 := rfl
    rw [BitVec.toNat_ofNat, Nat.mod_eq_of_lt (by omega)]
  obtain ⟨hend, before, b, after, rfl, hrequest⟩ := h.request hready rfl
  obtain ⟨hcells, haddr⟩ := hrequest.found hready
  have hbusy := idle_run hidle before
  have hanswer := hrequest.answer hready (by decide) (by decide) h.taken
  generalize hs : (Run.run Sys.step y before).fw.dev = s at hcells haddr hbusy hanswer
  -- the bytes are still in memory
  have hbytes : (List.range p.length).map (s.mem.byte 0) = p := by
    apply range_byte hburn.words
    intro i hi
    rw [← hmem i hi]
    rw [length_wordsOf] at hi
    exact hcells _ (hquiet i hi)
  rw [← haddr] at hburn ⊢
  obtain ⟨hholds, hzero⟩ := ctrlSwitch_flashWrite hbusy (BitVec.ofNat 32 p.length)
    hburn.page (by rw [hsize]; exact hburn.fits) (by rw [hsize]; exact hburn.erased)
  refine ⟨hend, ?_, ?_⟩
  · have hsame := flash_cells_run (hrequest.answers.mono fun _ _ he => he.unburnt)
    intro i hi
    rw [Run.run_append, Run.run_cons, hsame, hrequest.executed, hs]
    show (execCmd _ _ s).flash.cells _ = _
    rw [flash_execCmd, decodeCmd_code, Option.elim_some, hholds i (by rwa [hsize])]
    have hget := congrArg (fun l => l[i]?) hbytes
    simp only [List.getElem?_map, List.getElem?_range hi, List.getElem?_eq_getElem hi,
      Option.map_some, Option.some.injEq] at hget
    exact hget
  · rw [hanswer, commandMsg_text rfl, hzero]

/-- A command about addresses, whatever the loader has left. -/
theorem Exchange.dram {cmd : Cmd} {arg : Word}
    (h : Exchange quiet (.command (HostProtocol.code cmd) arg []) y es) (hready : y.Ready)
    (hcmd : cmd = .memRdAddr ∨ cmd = .memDump)
    (hquiet : ∀ d, (dramMsg cmd arg y.fw.dev.spi.dumpAddr).dump = some d →
      ∀ a ∈ d.addrs, quiet (Board.cell a)) :
    (Run.run Sys.step y es).Ready ∧
      (∀ c, quiet c → (Run.run Sys.step y es).fw.dev.mem.cells c = y.fw.dev.mem.cells c) ∧
      (Run.run Sys.step y es).fw.dev.spi.dumpAddr
        = dumpAddrAfter cmd arg y.fw.dev.spi.dumpAddr ∧
      dumpedBy y es = (dramMsg cmd arg y.fw.dev.spi.dumpAddr).dump.elim [] fun d =>
        d.image (Run.run Sys.step y es).fw.dev.mem := by
  have hdram : cmd.isDram = true := by rcases hcmd with rfl | rfl <;> rfl
  have hvalid : ([] : List Byte).length = announcedBytes (HostProtocol.code cmd) arg := by
    rw [announcedBytes, decodeCmd_code]
    rcases hcmd with rfl | rfl <;> rfl
  obtain ⟨hend, halike, hrespond⟩ := h.finish hready hdram hvalid
  obtain ⟨hdumped, haddr⟩ := hrespond.complete h.taken hquiet
  have hmem := (loader_execCmd cmd arg (acked packetSize y.fw.dev)).2
  have hswitch : (ctrlSwitch cmd arg (acked packetSize y.fw.dev)).mem.cells
      = y.fw.dev.mem.cells := by
    rcases hcmd with rfl | rfl <;> rfl
  exact ⟨hend, fun c hc => (halike.cells c hc).trans (congrFun (hmem.cells.trans hswitch) c),
    haddr, hdumped⟩

end

end

section
variable [Dram] [HostProtocol] {quiet : Word → Prop} {y : Sys} {es : List Event}

/-- `CMD_FLASH_READ`: the array is in memory, from address 0 on. -/
theorem Exchange.flashRead {arg : Word} (h : Exchange quiet (flashReadItem arg) y es)
    (hready : y.Ready) (hidle : y.fw.dev.flash.busy = 0) :
    (Run.run Sys.step y es).Ready ∧ ∀ k, 4 * k < flashSize.toNat → quiet (Board.cell (wordAddr k)) →
      ∀ i < 4, byteAt ((Run.run Sys.step y es).fw.dev.mem.get (wordAddr k)) i
        = y.fw.dev.flash.cells (4 * k + i) := by
  obtain ⟨hend, before, b, after, rfl, hrequest⟩ := h.request hready rfl
  have hbusy := idle_run hidle before
  have hsame := flash_cells_run (hrequest.waits.mono fun _ _ he => he.unburnt)
  have hload := (Uncommanded.cells_run hrequest.waits hready.idle.loader).1
  have hdev := hrequest.executed
  generalize (Run.run Sys.step y before).fw.dev = s at hbusy hsame hload hdev
  obtain ⟨htx, hmem⟩ := loader_execCmd .flashRead arg s
  have hload' : ((Run.run Sys.step y before).step (.ctrl b)).fw.dev.spi.loadingMem = 0 := by
    rw [hdev]
    refine htx.loadingMem.trans ?_
    rw [(switchStep_ctrlSwitch .flashRead arg s).loadingMem]
    exact hload
  refine ⟨hend, fun k hk hquiet i hi => ?_⟩
  have hsize : flashSize.toNat = 524288 := rfl
  have hhalf : halfSize = 16777216 := rfl
  have hword : (4 * k + i) / 4 = k := by omega
  have hbyte : (4 * k + i) % 4 = i := by omega
  have hread : imageByte (HbcMac.flashRead (wordAddr 0) flashSize 0 s).mem (4 * 0 + (4 * k + i))
      = s.flash.cells (((0 : Word).toNat + (4 * k + i)) % flashSize.toNat) :=
    flashRead_imageByte hbusy (by omega) (by omega)
  have hcell : ((0 : Word).toNat + (4 * k + i)) % flashSize.toNat = 4 * k + i := by
    show (0 + (4 * k + i)) % flashSize.toNat = _
    rw [Nat.zero_add, Nat.mod_eq_of_lt (by omega)]
  have hzero : wordAddr 0 = 0 := rfl
  rw [hcell, hsame, Nat.mul_zero, Nat.zero_add, imageByte, hword, hbyte, hzero, Mem.get] at hread
  rw [← hread]
  have hkept := (Uncommanded.cells_run hrequest.answers hload').2 _ hquiet
  rw [hdev] at hkept
  have hreply (r : Word × State) : (reply r).mem = r.2.mem := rfl
  have hswitch : (ctrlSwitch .flashRead arg s).mem = (HbcMac.flashRead 0 flashSize 0 s).mem := by
    unfold ctrlSwitch
    exact hreply (_, _)
  have hnext : (ctrlReqNext (execCmd (HostProtocol.code .flashRead) arg s)).mem.cells
      = (HbcMac.flashRead 0 flashSize 0 s).mem.cells := by
    rw [← hswitch]
    exact hmem.cells
  rw [Run.run_append, Run.run_cons, Mem.get, hkept, hnext]

/-- **The whole way to the chip.** -/
theorem burn_exchanges (hready : y.Ready) (hidle : y.fw.dev.flash.busy = 0)
    (hrd : y.fw.dev.spi.rdData = 0) {f : Word} {p : List Byte} (hburn : Burnable f p.length)
    (hquiet : ∀ i < p.length / 4, quiet (Board.cell (txAddr 0 i)))
    (hes : Exchanges quiet (burn f p) y es) :
    (Run.run Sys.step y es).Ready ∧
      HoldsAt (Run.run Sys.step y es).fw.dev.flash.cells f.toNat p ∧
      ∃ out, dataBytes (Run.run Sys.step y es).fw.dev.out = out ++ answerBytes 0 := by
  obtain ⟨es₁, rest, rfl, hwrAddr, hes⟩ := hes.uncons
  obtain ⟨es₂, rest, rfl, hload, hes⟩ := hes.uncons
  obtain ⟨es₃, rest, rfl, hseek, hes⟩ := hes.uncons
  obtain ⟨es₄, rest, rfl, hwrite, hes⟩ := hes.uncons
  obtain rfl := hes.unnil
  have hfits := hburn.fits
  have hend : flashSize.toNat = 524288 := rfl
  have hsize := memSize_toNat
  have hhalf := halfSize_eq
  have hstart : ReadyAt quiet y.fw.dev.spi.loadAddr y.fw.dev.spi.dumpAddr y.fw.dev.mem.cells y :=
    ⟨hready, rfl, rfl, hrd, fun _ _ => rfl⟩
  have hnodump : ∀ d, (dramMsg .memWrAddr 0 y.fw.dev.spi.dumpAddr).dump = some d →
      ∀ a ∈ d.addrs, quiet (Board.cell a) := by
    intro d hd
    cases hd
  obtain ⟨h₁, -⟩ := hstart.command (by rfl) (by rfl) hwrAddr hnodump
  obtain ⟨h₂, -⟩ := h₁.load hburn.words (by omega) hload
  obtain ⟨hready₃, haddr, hcells⟩ := hseek.flashAddr h₂.ready
  -- the load is in memory when it is written to the chip
  have hmem : ∀ i (hi : i < (wordsOf p).length), (Run.run Sys.step
      (Run.run Sys.step (Run.run Sys.step y es₁) es₂) es₃).fw.dev.mem.get (txAddr 0 i)
        = (wordsOf p)[i] := by
    intro i hi
    have hword := hi
    rw [length_wordsOf] at hword
    refine (hcells _ (hquiet i hword)).trans ((h₂.cells _ (hquiet i hword)).trans ?_)
    apply replay_wordLog_getElem (a := 0) (Nat.dvd_zero 4)
    rw [length_wordsOf]
    show 0 + _ ≤ _
    omega
  have hbusy := idle_run (idle_run (idle_run hidle es₁) es₂) es₃
  rw [← haddr] at hburn
  obtain ⟨hready₄, hholds, hout⟩ := hwrite.flashWrite hready₃ hbusy hburn hmem hquiet
  rw [haddr] at hholds
  simp only [Run.run_append, Run.run_nil]
  exact ⟨hready₄, hholds, _, hout⟩

/-- **Reading back.** `CMD_FLASH_READ` and a dump from the address of `p`. -/
theorem read_back (hready : y.Ready) (hidle : y.fw.dev.flash.busy = 0) {f : Word} {p : List Byte}
    (halign : 4 ∣ f.toNat) (hfit : f.toNat + p.length ≤ flashSize.toNat)
    (hholds : HoldsAt y.fw.dev.flash.cells f.toNat p)
    (hquiet : ∀ i < (p.length + 3) / 4, quiet (Board.cell (txAddr f i))) {arg : Word}
    {es es' : List Event} (hread : Exchange quiet (flashReadItem arg) y es)
    (hdump : Exchanges quiet [rdAddrItem f, dumpItem (BitVec.ofNat 32 p.length)]
      (Run.run Sys.step y es) es') :
    dumpedBy (Run.run Sys.step y es) es' = p := by
  obtain ⟨es₁, rest, rfl, hseek, hdump⟩ := hdump.uncons
  obtain ⟨es₂, rest, rfl, htake, hdump⟩ := hdump.uncons
  obtain rfl := hdump.unnil
  have hend : flashSize.toNat = 524288 := rfl
  have hlen : (BitVec.ofNat 32 p.length).toNat = p.length := by
    rw [BitVec.toNat_ofNat, Nat.mod_eq_of_lt (by omega)]
  have hword (i : ℕ) : txAddr f i = wordAddr (f.toNat / 4 + i) := by
    have hsplit : 4 * (f.toNat / 4 + i) = f.toNat + 4 * i := by omega
    rw [txAddr, wordAddr, hsplit, BitVec.ofNat_add, BitVec.ofNat_toNat, BitVec.setWidth_eq]
  obtain ⟨hready₁, hbytes⟩ := hread.flashRead hready hidle
  generalize Run.run Sys.step y es = z at hseek htake hready₁ hbytes ⊢
  have hnodump : ∀ d, (dramMsg .memRdAddr f z.fw.dev.spi.dumpAddr).dump = some d →
      ∀ a ∈ d.addrs, quiet (Board.cell a) := by
    intro d hd
    cases hd
  obtain ⟨hready₂, hcells₂, haddr₂, hnone⟩ := hseek.dram hready₁ (.inl rfl) hnodump
  have haddrs : ∀ d, (dramMsg .memDump (BitVec.ofNat 32 p.length)
      (Run.run Sys.step z es₁).fw.dev.spi.dumpAddr).dump = some d →
      ∀ a ∈ d.addrs, quiet (Board.cell a) := by
    intro d hd a ha
    obtain ⟨-, rfl⟩ := dramMsg_dump hd
    rw [hlen, haddr₂] at ha
    obtain ⟨i, hi, rfl⟩ := mem_addrs ha
    exact hquiet i hi
  obtain ⟨-, hcells₃, -, himage⟩ := htake.dram hready₂ (.inr rfl) haddrs
  rw [List.append_nil, dumpedBy_append, hnone, himage, haddr₂]
  show [] ++ (Dump.mk false f (BitVec.ofNat 32 p.length).toNat).image _ = p
  rw [List.nil_append, hlen, Dump.image_mem]
  refine List.ext_getElem ?_ fun i hi hi' => ?_
  · rw [List.length_map, List.length_range]
  · have hcell := hquiet (i / 4) (by omega)
    have hbyte := hbytes (f.toNat / 4 + i / 4) (by omega) (by rwa [← hword]) (i % 4)
      (Nat.mod_lt i (by decide))
    have hindex : 4 * (f.toNat / 4 + i / 4) + i % 4 = f.toNat + i := by omega
    rw [← hword, hindex, Mem.get] at hbyte
    rw [List.getElem_map, List.getElem_range, Mem.byte, Mem.get]
    refine Eq.trans ?_ (hbyte.trans (hholds i hi'))
    exact congrArg (byteAt · (i % 4)) ((hcells₃ _ hcell).trans (hcells₂ _ hcell))

/-- **What has been written is what is read.** In a run from start-up in which all loads have been
of whole words the host sends `p` to the chip. However the run goes on without another write, once
the host reads the chip back into memory, the dump from the same address is `p`. -/
theorem image_read_back {s : State} (hboot : Boot s) (hidle : s.flash.busy = 0) (evs : List Event)
    (hy : y = Run.run Sys.step (Sys.boot s) evs) (hready : y.Ready)
    (hloads : ∀ l ∈ y.loads, 4 ∣ l.bytes) {f : Word} {p : List Byte} (hburn : Burnable f p.length)
    (hquiet : ∀ i < p.length / 4, quiet (Board.cell (txAddr 0 i)))
    (hes : Exchanges quiet (burn f p) y es) {later : List Event}
    (hlater : Run.Steps Sys.step Unburnt (Run.run Sys.step y es) later) {z : Sys}
    (hz : z = Run.run Sys.step (Run.run Sys.step y es) later) (hzready : z.Ready)
    {quiet' : Word → Prop} (hquiet' : ∀ i < p.length / 4, quiet' (Board.cell (txAddr f i)))
    {arg : Word} {es₁ es₂ : List Event} (hread : Exchange quiet' (flashReadItem arg) z es₁)
    (hdump : Exchanges quiet' [rdAddrItem f, dumpItem (BitVec.ofNat 32 p.length)]
      (Run.run Sys.step z es₁) es₂) : dumpedBy (Run.run Sys.step z es₁) es₂ = p := by
  have hpadded : Padded y.fw.dev := by
    rw [hy] at hloads ⊢
    exact wholeLoads_run hboot evs hloads
  have hbusy : y.fw.dev.flash.busy = 0 := by
    rw [hy]
    exact idle_run (y := Sys.boot s) hidle evs
  obtain ⟨-, hholds, -⟩ := burn_exchanges hready hbusy (hpadded.idle hready.idle.loader).2 hburn
    hquiet hes
  have hsame := flash_cells_run hlater
  have hwords := hburn.words
  have hpage := hburn.page
  have hzbusy : z.fw.dev.flash.busy = 0 := by
    rw [hz]
    exact idle_run (idle_run hbusy es) later
  have hzholds : HoldsAt z.fw.dev.flash.cells f.toNat p := by
    rw [hz, hsame]
    exact hholds
  exact read_back hzready hzbusy (by omega) hburn.fits hzholds
    (fun i hi => hquiet' i (by omega)) hread hdump

variable [DataFetch]

/-- **The image the host sends is the image the programmer gets.** In a run from start-up in which
all loads have been of whole words, the host sends `p` to the chip for the PSoC. Then the reply is
zero, and however the run goes on without another write, each part of the image is fetched as it is
in `p`. -/
theorem image_delivered {s : State} (hboot : Boot s) (hidle : s.flash.busy = 0) (evs : List Event)
    (hy : y = Run.run Sys.step (Sys.boot s) evs) (hready : y.Ready)
    (hloads : ∀ l ∈ y.loads, 4 ∣ l.bytes) {p : List Byte} (hwords : 4 ∣ p.length)
    (hp : p.length ≤ flashPsocSize.toNat)
    (hquiet : ∀ i < p.length / 4, quiet (Board.cell (txAddr 0 i)))
    (hes : Exchanges quiet (burn flashAddrPsocConf p) y es) {later : List Event}
    (hlater : Run.Steps Sys.step Unburnt (Run.run Sys.step y es) later) (calls : List FetchCall)
    {c : FetchCall} (hc : c.InRange)
    (hin : c.start + c.count ≤ flashAddrPsocConf.toNat + p.length) :
    (∃ out, dataBytes (Run.run Sys.step y es).fw.dev.out = out ++ answerBytes 0) ∧
      (c.load (psocFetch calls (Run.run Sys.step y (es ++ later)).fw.dev)).1
        = (p.drop (c.start - flashAddrPsocConf.toNat)).take c.count := by
  have hpadded : Padded y.fw.dev := by
    rw [hy] at hloads ⊢
    exact wholeLoads_run hboot evs hloads
  have hbusy : y.fw.dev.flash.busy = 0 := by
    rw [hy]
    exact idle_run (y := Sys.boot s) hidle evs
  have hconf : flashAddrPsocConf.toNat = 393216 := rfl
  have hlen : flashPsocSize.toNat = 36912 := rfl
  have hburn : Burnable flashAddrPsocConf p.length := by
    have hsize : flashSize.toNat = 524288 := rfl
    refine ⟨hwords, by decide, ?_, ?_⟩
    · omega
    · rw [hconf]
      omega
  obtain ⟨-, hholds, hout⟩ := burn_exchanges hready hbusy
    (hpadded.idle hready.idle.loader).2 hburn hquiet hes
  refine ⟨hout, ?_⟩
  have hsame := flash_cells_run hlater
  have hcopied : Copied (Run.run Sys.step y (es ++ later)).fw.dev.flash.cells
      ⟨(mainStep .psocCall (Run.run Sys.step y (es ++ later)).fw.dev).2, []⟩ :=
    copied_flashRead (idle_run hbusy _) []
  have hload := (FetchCall.load_exact (FetchCall.copied_loads hcopied calls) hc).1
  refine hload.trans ?_
  rw [Run.run_append, hsame]
  obtain ⟨hlo, -⟩ := hc.fits
  refine List.ext_getElem ?_ fun i hi hi' => ?_
  · rw [List.length_map, List.length_range, List.length_take, List.length_drop]
    omega
  · rw [List.length_map, List.length_range] at hi
    have hcell := hholds (c.start - flashAddrPsocConf.toNat + i) (by omega)
    have hindex : flashAddrPsocConf.toNat + (c.start - flashAddrPsocConf.toNat + i)
        = c.start + i := by omega
    rw [hindex] at hcell
    rw [List.getElem_map, List.getElem_range, List.getElem_take, List.getElem_drop, hcell]

end

/-! ## Runs of four bytes -/

section
variable [Dram] [HostProtocol]

/-- The events of a host that reads the chip back. -/
theorem exchanges_readBack {quiet : Word → Prop} (hquiet : ∀ c, quiet c) {y : Sys}
    (hready : y.Ready) (hidle : y.fw.dev.flash.busy = 0) (arg f n : Word) :
    Exchange quiet (flashReadItem arg) y (takeAfter (flashReadItem arg) (takes .flashRead arg)) ∧
      Exchanges quiet [rdAddrItem f, dumpItem n]
        (Run.run Sys.step y (takeAfter (flashReadItem arg) (takes .flashRead arg)))
        (takeAfter (rdAddrItem f) (takes .memRdAddr f)
          ++ (takeAfter (dumpItem n) (takes .memDump n) ++ [])) := by
  have hread : Exchange quiet (flashReadItem arg) y _ :=
    exchange_request quiet hready .flashRead rfl (by decide) arg
  obtain ⟨hready₁, -⟩ := hread.flashRead hready hidle
  have hseek := exchange_request quiet hready₁ .memRdAddr rfl (by decide) f
  obtain ⟨hready₂, -⟩ := hseek.dram hready₁ (.inl rfl) fun _ _ _ _ => hquiet _
  have htake := exchange_request quiet hready₂ .memDump rfl (by decide) n
  exact ⟨hread, .cons hseek (.cons htake (.nil _))⟩

end

/-- The identifier of a device, written to the chip. -/
def burnFour [HostProtocol] : List Event :=
  takeAfter (wrAddrItem 0) 7 ++ (takeAfter (loadItem [1, 2, 3, 4]) 3 ++
    (takeAfter (flashAddrItem flashAddrPsocConf) 7 ++ (takeAfter (flashWriteItem 4) 7 ++ [])))

/-- The exchanges with which four bytes are written. -/
theorem exchanges_burnFour :
    letI := plainDram
    letI := plainProtocol
    Exchanges (fun _ => True) (burn flashAddrPsocConf [1, 2, 3, 4]) (Sys.boot bootState)
      burnFour := by
  let := plainDram
  let := plainProtocol
  have hready : (Run.run Sys.step (Run.run Sys.step (Run.run Sys.step (Sys.boot bootState)
      (takeAfter (wrAddrItem 0) 7)) (takeAfter (loadItem [1, 2, 3, 4]) 3))
      (takeAfter (flashAddrItem flashAddrPsocConf) 7)).Ready :=
    ⟨by decide +kernel, ⟨by decide +kernel, by decide +kernel⟩, by decide +kernel⟩
  refine .cons (exchange_takeAfter ?_ ?_) (.cons (exchange_takeAfter ?_ ?_)
    (.cons (exchange_takeAfter ?_ ?_)
      (.cons (exchange_request _ hready .flashWrite rfl ?_ 4) (.nil _))))
  · decide
  · decide +kernel
  · decide +kernel
  · decide +kernel
  · decide +kernel
  · decide +kernel
  · decide

/-- The system starts between two exchanges. -/
theorem ready_boot [HostProtocol] : (Sys.boot bootState).Ready :=
  ⟨by decide, ⟨rfl, rfl⟩, rfl⟩

/-- The programmer gets the identifier. -/
theorem image_delivered_identifier :
    letI := plainDram
    letI := plainProtocol
    letI := mapLengths
    (∃ out, dataBytes (Run.run Sys.step (Sys.boot bootState) burnFour).fw.dev.out
        = out ++ answerBytes 0) ∧
      (FetchCall.deviceJtagId.load (psocFetch [.checksumData] (Run.run Sys.step
        (Sys.boot bootState) (burnFour ++ [.main, .data])).fw.dev)).1
          = ([1, 2, 3, 4].drop (FetchCall.deviceJtagId.start - flashAddrPsocConf.toNat)).take
            FetchCall.deviceJtagId.count :=
  @image_delivered plainDram plainProtocol (fun _ => True) (Sys.boot bootState)
    (@burnFour plainProtocol) mapLengths bootState bootState_boot rfl [] rfl
    (@ready_boot plainProtocol) (fun _ hl => absurd hl List.not_mem_nil) [1, 2, 3, 4] (by decide)
    (by decide) (fun _ _ => trivial) exchanges_burnFour [.main, .data]
    ⟨fun h => Option.some_ne_none _ h.symm, fun h => Option.some_ne_none _ h.symm, trivial⟩
    [.checksumData] .deviceJtagId trivial (by decide)

/-- The host reads it back. -/
theorem image_read_back_identifier :
    letI := plainDram
    letI := plainProtocol
    dumpedBy (Run.run Sys.step (Run.run Sys.step (Sys.boot bootState) burnFour)
        (takeAfter (flashReadItem 0) (takes .flashRead 0)))
      (takeAfter (rdAddrItem flashAddrPsocConf) (takes .memRdAddr flashAddrPsocConf)
        ++ (takeAfter (dumpItem 4) (takes .memDump 4) ++ [])) = [1, 2, 3, 4] :=
  have hready := (@burn_exchanges plainDram plainProtocol (fun _ => True) (Sys.boot bootState)
    (@burnFour plainProtocol) (@ready_boot plainProtocol) rfl rfl flashAddrPsocConf [1, 2, 3, 4]
    ⟨by decide, by decide, by decide, by decide⟩ (fun _ _ => trivial) exchanges_burnFour).1
  have hback := @exchanges_readBack plainDram plainProtocol (fun _ => True) (fun _ => trivial) _
    hready (@idle_run plainDram.toBoard plainProtocol (Sys.boot bootState) rfl
      (@burnFour plainProtocol)) 0 flashAddrPsocConf 4
  @image_read_back plainDram plainProtocol (fun _ => True) (Sys.boot bootState)
    (@burnFour plainProtocol) bootState bootState_boot rfl [] rfl (@ready_boot plainProtocol)
    (fun _ hl => absurd hl List.not_mem_nil) flashAddrPsocConf [1, 2, 3, 4]
    ⟨by decide, by decide, by decide, by decide⟩ (fun _ _ => trivial) exchanges_burnFour []
    trivial _ (@Run.run_nil Sys Event _ _).symm hready (fun _ => True) (fun _ _ => trivial) 0 _ _
    hback.1 hback.2

end HbcMac
