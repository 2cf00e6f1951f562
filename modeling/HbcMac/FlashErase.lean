import HbcMac.FlashWrite
import HbcMac.Lib.Run
import HbcMac.MainVars

/-!
# The erase of `flash_write`

No function leaves the chip at work, so every call of `flash_write` finds it idle. Whether the
sectors erased then cover the pages programmed is a matter of the address and the size alone:
the number of sectors is computed from the size, as if the address were that of a sector.
-/

namespace HbcMac

section
variable [Board]

/-! ## An idle chip -/

/-- Reading words is sending zeros. -/
theorem flashReadWords_flash (n : ℕ) (s : State) :
    (flashReadWords n s).flash = s.flash.sends (List.replicate (4 * n) 0) := by
  induction n generalizing s with
  | zero => rfl
  | succ n ih =>
    have hbytes : List.replicate (4 * (n + 1)) (0 : Byte)
        = 0 :: 0 :: 0 :: 0 :: List.replicate (4 * n) 0 := rfl
    rw [flashReadWords, ih, hbytes]
    rfl

/-- So is comparing them. -/
theorem flashVerifyWords_flash (n : ℕ) (retval : Word) (s : State) :
    (flashVerifyWords n retval s).2.flash = s.flash.sends (List.replicate (4 * n) 0) := by
  induction n generalizing retval s with
  | zero => rfl
  | succ n ih =>
    have hbytes : List.replicate (4 * (n + 1)) (0 : Byte)
        = 0 :: 0 :: 0 :: 0 :: List.replicate (4 * n) 0 := rfl
    rw [flashVerifyWords, ih, hbytes]
    rfl

omit [Board] in
/-- A read command leaves the chip as it was. -/
theorem command_read (args : List Byte) (c : FlashChip) :
    c.command (flashOpReadData :: args) = { c with shifted := [] } := by
  rw [FlashChip.command_eq _ _ (by decide)]
  simp [FlashChip.deselect, FlashChip.execute, FlashChip.select, flashOpReadData,
    flashOpWriteEnable, flashOpSectorErase, flashOpPageProgram]

/-- `flash_read` leaves an idle chip as it was. -/
theorem flashRead_flash (memAddr size flashAddr : Word) (s : State) :
    (flashRead memAddr size flashAddr s).flash = { s.flash with shifted := [] } := by
  rw [← command_read ((flashAddr >>> 16).setWidth 8 :: (flashAddr >>> 8).setWidth 8
    :: flashAddr.setWidth 8 :: List.replicate (4 * (size.toNat / 4)) 0)]
  show (flashReadWords (size.toNat / 4) _).flash.deselect = _
  rw [flashReadWords_flash]
  rfl

/-- So does `flash_verify`. -/
theorem flashVerify_flash (memAddr size flashAddr : Word) (s : State) :
    (flashVerify memAddr size flashAddr s).2.flash = { s.flash with shifted := [] } := by
  rw [← command_read ((flashAddr >>> 16).setWidth 8 :: (flashAddr >>> 8).setWidth 8
    :: flashAddr.setWidth 8 :: List.replicate (4 * (size.toNat / 4)) 0)]
  show (flashVerifyWords (size.toNat / 4) 0 _).2.flash.deselect = _
  rw [flashVerifyWords_flash]
  rfl

/-! ## Functions that do not use the chip -/

/-- `mem_test` does not use the chip. -/
theorem flash_memTest (bytes : Word) (s : State) : (memTest bytes s).2.flash = s.flash := by
  have hwrite (n : ℕ) (s : State) : (memTestWrite n s).flash = s.flash := by
    induction n generalizing s with
    | zero => rfl
    | succ n ih => exact ih _
  have hread (n : ℕ) (errors : Word) (s : State) : (memTestRead n errors s).2.flash = s.flash := by
    induction n generalizing errors s with
    | zero => rfl
    | succ n ih => exact ih _ _
  exact (hread _ _ _).trans (hwrite _ _)

omit [Board] in
theorem flash_rxPacketNext (s : State) : (rxPacketNext s).flash = s.flash := by
  unfold rxPacketNext
  split <;> rfl

/-- Nor does the receiver. -/
theorem flash_rxCheckPacket (s : State) : (rxCheckPacket s).2.flash = s.flash := by
  have hloop (bytes : ℕ) (correct chk data : Word) (s : State) :
      (rxCheckLoop bytes correct chk data s).2.flash = s.flash := by
    induction bytes generalizing correct chk data s with
    | zero => rfl
    | succ bytes ih =>
      rw [rxCheckLoop]
      dsimp only
      split
      · exact ih _ _ _ _
      · exact ih _ _ _ s
  have hrx (s : State) : (rxRead s).2.flash = s.flash := rfl
  have hmem (s : State) : (memRead s).2.flash = s.flash := rfl
  have hseek (a : Word) (s : State) : (memSetRdP a s).flash = s.flash := rfl
  unfold rxCheckPacket
  dsimp only
  split
  · rfl
  · split
    · exact flash_rxPacketNext _
    · split
      · exact flash_rxPacketNext _
      · rw [flash_rxPacketNext, hloop, hrx, hmem, hseek, hrx, hrx]
        rfl

theorem flash_dumpFetch (s : State) : (dumpFetch s).flash = s.flash := by
  unfold dumpFetch
  split
  · split
    · rfl
    · rfl
  · rfl

/-- Nor do the ports. -/
theorem flash_hbcDataIrq (s : State) : (hbcDataIrq s).flash = s.flash := by
  unfold hbcDataIrq
  split
  · rfl
  · split
    · rfl
    · split
      · rw [dataDump_eq]
        exact flash_dumpFetch s
      · rfl

omit [Board] in
theorem flash_ledToggle (s : State) : (ledToggle s).flash = s.flash := by
  unfold ledToggle
  dsimp only
  split <;> rfl

variable [HostProtocol]

/-- Nor does the forwarder. -/
theorem flash_hbcToSpi (forward : Bool) (s : State) : (hbcToSpi forward s).flash = s.flash := by
  apply hbcToSpi_keeps (P := fun t => t.flash = s.flash) forward rfl
  · intro t ht
    exact (flash_rxPacketNext t).trans ht
  · intro t ht
    exact (flash_ledToggle t).trans ht
  · intro t ht
    rw [forwardPacket_eq]
    exact ht

omit [HostProtocol] in
/-- Nor does the transmitter. -/
theorem flash_sendFrame (s : State) : (sendFrame s).2.flash = s.flash := by
  obtain ⟨new, f, heq, -, -⟩ := sendFrame_eq s
  rw [heq]

/-- Of the main loop only the PSoC call does. -/
theorem flash_mainStep {pc : Pc} (hpc : pc ≠ .psocCall) (s : State) :
    (mainStep pc s).2.flash = s.flash := by
  have heffect := mainStep_effect pc s
  generalize (mainStep pc s).2 = s' at heffect ⊢
  cases heffect with
  | vars main => rfl
  | led => exact flash_ledToggle s
  | rxOff => rfl
  | rxOn => rfl
  | trigFrame => exact flash_sendFrame (memSetRdP 0 s)
  | autoFrame pktAddr => exact flash_sendFrame (autoRead s)
  | forward forward => exact flash_hbcToSpi forward s
  | psoc => exact absurd rfl hpc

/-! ## Every state of a run -/

/-- Only the two functions of the flash commands that write use the chip for longer. -/
theorem idle_ctrlSwitch (cmd : Cmd) (arg : Word) {s : State} (h : s.flash.busy = 0) :
    (ctrlSwitch cmd arg s).flash.busy = 0 := by
  have hkept {s' : State} (hs' : s'.flash = s.flash) : s'.flash.busy = 0 := by rw [hs', h]
  have hreply {r : Word × State} (hr : r.2.flash = s.flash) : (reply r).flash.busy = 0 := hkept hr
  cases cmd with
  | flashRead =>
    show (flashRead 0 flashSize 0 s).flash.busy = 0
    rw [flashRead_flash]
    exact h
  | flashWrite =>
    unfold ctrlSwitch
    dsimp only
    have hwrite := (flashWrite_ops h 0 arg s.main.flashAddr).1
    generalize flashWrite 0 arg s.main.flashAddr s = t at hwrite
    show (flashVerify 0 arg t.main.flashAddr t).2.flash.busy = 0
    rw [flashVerify_flash]
    exact hwrite
  | memTest =>
    exact hreply (r := (_, _)) (flash_memTest memSize s)
  | hbcRxNext => exact hkept (flash_rxPacketNext s)
  | hbcRxCheck => exact hkept (flash_rxCheckPacket s)
  | hbcTxFilter =>
    obtain ⟨level, hcase⟩ := ctrlSwitch_filter arg s
    rw [hcase]
    exact h
  | _ => exact h

/-- Every command waits until the chip is idle. -/
theorem idle_hbcCtrlIrq (b : Byte) {f : Firmware} (h : f.dev.flash.busy = 0) :
    (hbcCtrlIrq b f).dev.flash.busy = 0 := by
  apply hbcCtrlIrq_keeps (P := fun s => s.flash.busy = 0) _ _ _ _ b h
  · intro s spi mem hs
    exact hs
  · intro cmd arg s hs
    exact idle_ctrlSwitch cmd arg hs
  · intro s hs
    rw [flash_hbcDataIrq]
    exact hs
  · intro s hs
    exact hs

/-- So an idle chip is idle after any step. -/
theorem idle_step {y : Sys} (h : y.fw.dev.flash.busy = 0) (e : Event) :
    (y.step e).fw.dev.flash.busy = 0 := by
  by_cases hhang : y.pc = .psocHang
  · rwa [Sys.step_hang hhang]
  · cases e with
    | main =>
      rw [Sys.step_main hhang]
      dsimp only
      by_cases hpc : y.pc = .psocCall
      · -- `psoc_flash_device` reads the image, it writes nothing to the chip
        have hread := flashRead_flash flashAddrPsocConf flashPsocSize flashAddrPsocConf y.fw.dev
        rw [hpc, mainStep, hread]
        exact h
      · rw [flash_mainStep hpc, h]
    | ctrl b =>
      rw [Sys.step_ctrl hhang]
      exact idle_hbcCtrlIrq b h
    | data =>
      rw [Sys.step_data hhang]
      dsimp only
      rw [flash_hbcDataIrq, h]
    | rxData arr =>
      rw [Sys.step_rxData hhang]
      show (rxDataIntFunc _).flash.busy = 0
      rw [(writerOnly_rxDataIntFunc _).flash, h]
    | rxReady arr =>
      rw [Sys.step_rxReady hhang]
      show (rxReadyIntFunc _).flash.busy = 0
      rw [(rxReadyIntFunc_devices _).1, h]

/-- It is idle in every state of a run. -/
theorem idle_run {y : Sys} (h : y.fw.dev.flash.busy = 0) (evs : List Event) :
    (Run.run Sys.step y evs).fw.dev.flash.busy = 0 :=
  Run.run_of_invariant (I := fun y : Sys => y.fw.dev.flash.busy = 0)
    (fun _ e hy => idle_step hy e) h evs

/-! ## Coverage -/

omit [HostProtocol] in
/-- **The erase covers the pages** exactly when the pages, counted from the start of the first
sector, fit into the number of sectors. -/
theorem eraseCovers_flashWriteOps {s : State} (h : s.flash.busy = 0)
    {memAddr size flashAddr : Word}
    (hfit : flashAddr.toNat + size.toNat ≤ flashSize.toNat) :
    EraseCovers (flashWriteOps memAddr size flashAddr s) ↔
      size = 0 ∨ (flashMemToPage flashAddr).toNat % 256 + (flashNumPages size).toNat
        ≤ 256 * (flashNumSectors size).toNat := by
  have hzero : size = 0 ↔ size.toNat = 0 := BitVec.toNat_inj.symm
  have hend : flashSize.toNat = 524288 := rfl
  rw [flashWriteOps, (flashWrite_ops h _ _ _).2, List.drop_left, eraseCovers_append, hzero,
    flashNumSectors_toNat, flashNumPages_toNat, flashMemToPage_toNat, flashMemToSector_toNat]
  rw [hend] at hfit
  generalize flashAddr.toNat = a at hfit
  generalize size.toNat = n at hfit
  constructor
  · intro hcovers
    by_cases hn : n = 0
    · exact .inl hn
    · -- the last page decides
      obtain ⟨k, hk, hsector⟩ := hcovers ((n + 255) / 256 - 1) (by omega)
      right
      omega
  · intro hle k' hk'
    -- the sector of the page, counted from the first one
    refine ⟨(a / 256 + k') / 256 - a / 65536, ?_, ?_⟩ <;> omega

end

section
variable [Board] [HostProtocol]

/-- In every state of a run that started with an idle chip, `flash_write` erases every sector it
programs a page of exactly when the address and the size let it. -/
theorem flash_write_covers_iff {y : Sys} (hidle : y.fw.dev.flash.busy = 0) (evs : List Event)
    {memAddr size flashAddr : Word} (hfit : flashAddr.toNat + size.toNat ≤ flashSize.toNat) :
    EraseCovers (flashWriteOps memAddr size flashAddr (Run.run Sys.step y evs).fw.dev) ↔
      size = 0 ∨ (flashMemToPage flashAddr).toNat % 256 + (flashNumPages size).toNat
        ≤ 256 * (flashNumSectors size).toNat :=
  eraseCovers_flashWriteOps (idle_run hidle evs) hfit

end

/-- Two sectors from the start of sector 1 on. -/
theorem flash_write_covers_aligned :
    letI := plainDram
    letI := plainProtocol
    EraseCovers (flashWriteOps 0 0x20000 0x10000
        (Run.run Sys.step (Sys.boot bootState) [.main, .data]).fw.dev) ↔
      (0x20000 : Word) = 0 ∨ (flashMemToPage 0x10000).toNat % 256 + (flashNumPages 0x20000).toNat
        ≤ 256 * (flashNumSectors 0x20000).toNat :=
  let := plainDram
  let := plainProtocol
  flash_write_covers_iff (y := Sys.boot bootState) rfl [.main, .data] (by decide)

/-- Two pages from the last page of sector 0 on: only sector 0 is erased. -/
theorem flash_write_uncovered :
    letI := plainDram
    letI := plainProtocol
    (0xFF00 : Word).toNat + (0x200 : Word).toNat ≤ flashSize.toNat
      ∧ ¬ EraseCovers (flashWriteOps 0 0x200 0xFF00 (Sys.boot bootState).fw.dev) := by
  let := plainDram
  let := plainProtocol
  refine ⟨by decide, ?_⟩
  rw [eraseCovers_flashWriteOps rfl (by decide)]
  decide

end HbcMac
