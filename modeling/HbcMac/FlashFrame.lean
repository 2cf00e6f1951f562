import HbcMac.Flash

/-!
# What the flash functions leave alone

Erasing, programming and verifying change the chip and the read pointer of the memory and nothing
else; a read changes the memory instead of the pointer.
-/

namespace HbcMac

/-- Nothing but the chip and the read pointer has changed. -/
def OnlyFlash (s t : State) : Prop :=
  ∃ chip p, t = { s with flash := chip, mem := { s.mem with rdP := p } }

namespace OnlyFlash

variable {s t u : State}

theorem refl (s : State) : OnlyFlash s s := ⟨_, _, rfl⟩

theorem trans (h : OnlyFlash s t) (h' : OnlyFlash t u) : OnlyFlash s u := by
  obtain ⟨chip, p, rfl⟩ := h
  obtain ⟨chip', p', rfl⟩ := h'
  exact ⟨chip', p', rfl⟩

/-- Whatever becomes of the chip. -/
theorem chip (h : OnlyFlash s t) (c : FlashChip) : OnlyFlash s { t with flash := c } :=
  h.trans ⟨c, t.mem.rdP, rfl⟩

/-- And of the read pointer. -/
theorem pointer (h : OnlyFlash s t) (a : Word) :
    OnlyFlash s { t with mem := { t.mem with rdP := a } } := h.trans ⟨t.flash, a, rfl⟩

theorem send (h : OnlyFlash s t) (data : Byte) : OnlyFlash s (flashSend data t) := h.chip _

theorem start (h : OnlyFlash s t) : OnlyFlash s (flashStart t) := h.chip _

theorem finish (h : OnlyFlash s t) : OnlyFlash s (flashEnd t) := h.chip _

/-- `flash_write_enable` is one transfer between start and end. -/
theorem writeEnable (h : OnlyFlash s t) : OnlyFlash s (flashWriteEnable t) :=
  (h.start.send _).finish

/-- An opcode with its address is four transfers. -/
theorem sendAddr (h : OnlyFlash s t) (opcode : Byte) (flashAddr : Word) :
    OnlyFlash s (flashSendAddr opcode flashAddr t) :=
  (((h.start.send opcode).send _).send _).send _

/-- A word is four transfers too. -/
theorem transferWord (h : OnlyFlash s t) : OnlyFlash s (flashTransferWord t).2 :=
  (((h.send 0x00).send 0x00).send 0x00).send 0x00

end OnlyFlash

/-! ## Waiting -/

/-- Polling the status uses the chip alone. -/
theorem onlyFlash_flashPoll (n : ℕ) (s : State) : OnlyFlash s (flashPoll n s) := by
  induction n generalizing s with
  | zero => exact .refl s
  | succ n ih =>
    have hstatus : OnlyFlash s (flashReadStatus s).2 :=
      ((((OnlyFlash.refl s).start).send flashOpReadStatus).send 0x00).finish
    rw [flashPoll]
    split
    · exact hstatus.trans (ih _)
    · exact hstatus

/-- So does the wait. -/
theorem OnlyFlash.waitIdle {s t : State} (h : OnlyFlash s t) : OnlyFlash s (flashWaitIdle t) :=
  h.trans (onlyFlash_flashPoll _ t)

/-! ## The loops -/

/-- So does the loop that erases. -/
theorem onlyFlash_flashSectorErase (num : ℕ) (sector : Word) (s : State) :
    OnlyFlash s (flashSectorErase num sector s) := by
  induction num generalizing sector s with
  | zero => exact .refl s
  | succ num ih =>
    have hopcode := (OnlyFlash.refl s).writeEnable.start.send flashOpSectorErase
    have hsent := ((hopcode.send (sector.setWidth 8)).send 0).send 0
    exact hsent.finish.waitIdle.trans (ih (sector + 1) _)

section
variable [Board]

theorem OnlyFlash.read {s t : State} (h : OnlyFlash s t) : OnlyFlash s (memRead t).2 := h.pointer _

/-- The words of a page are read from the memory. -/
theorem onlyFlash_flashPageWords (n : ℕ) (s : State) : OnlyFlash s (flashPageWords n s) := by
  induction n generalizing s with
  | zero => exact .refl s
  | succ n ih =>
    have hword := (OnlyFlash.refl s).read
    exact ((((hword.send _).send _).send _).send _).trans (ih _)

/-- And so are those of all pages. -/
theorem onlyFlash_flashProgramPages (pages : ℕ) (page : Word) (s : State) :
    OnlyFlash s (flashProgramPages pages page s) := by
  induction pages generalizing page s with
  | zero => exact .refl s
  | succ pages ih =>
    have hopcode := (OnlyFlash.refl s).writeEnable.start.send flashOpPageProgram
    have haddr := ((hopcode.send ((page >>> 8).setWidth 8)).send (page.setWidth 8)).send 0
    have hpage (n : ℕ) := (haddr.trans (onlyFlash_flashPageWords n _)).finish
    rw [flashProgramPages]
    generalize pageSize / 4 = n
    exact (hpage n).waitIdle.trans (ih (page + 1) _)

/-- `flash_write` -/
theorem onlyFlash_flashWrite (memAddr size flashAddr : Word) (s : State) :
    OnlyFlash s (flashWrite memAddr size flashAddr s) :=
  ((onlyFlash_flashSectorErase _ _ s).pointer memAddr).trans (onlyFlash_flashProgramPages _ _ _)

/-- The comparison reads both. -/
theorem onlyFlash_flashVerifyWords (n : ℕ) (retval : Word) (s : State) :
    OnlyFlash s (flashVerifyWords n retval s).2 := by
  induction n generalizing retval s with
  | zero => exact .refl s
  | succ n ih => exact (OnlyFlash.refl s).transferWord.read.trans (ih _ _)

/-- `flash_verify` -/
theorem onlyFlash_flashVerify (memAddr size flashAddr : Word) (s : State) :
    OnlyFlash s (flashVerify memAddr size flashAddr s).2 :=
  ((((OnlyFlash.refl s).pointer memAddr).sendAddr flashOpReadData flashAddr).trans
    (onlyFlash_flashVerifyWords (size.toNat / 4) 0 _)).finish

/-- Reading from the chip writes to the memory, and no more. -/
theorem flashReadWords_frame (n : ℕ) (s : State) :
    ∃ chip mem, flashReadWords n s = { s with flash := chip, mem := mem } := by
  induction n generalizing s with
  | zero => exact ⟨_, _, rfl⟩
  | succ n ih =>
    obtain ⟨chip, mem, hrest⟩ := ih (memWrite (flashTransferWord s).1 (flashTransferWord s).2)
    rw [flashReadWords, hrest]
    exact ⟨chip, mem, rfl⟩

/-- `flash_read` -/
theorem flashRead_frame (memAddr size flashAddr : Word) (s : State) :
    ∃ chip mem, flashRead memAddr size flashAddr s = { s with flash := chip, mem := mem } := by
  obtain ⟨chip, mem, hwords⟩ := flashReadWords_frame (size.toNat / 4)
    (flashSendAddr flashOpReadData flashAddr (memSetWrP memAddr s))
  refine ⟨chip.deselect, mem, ?_⟩
  rw [flashRead, hwords]
  rfl

end

end HbcMac
