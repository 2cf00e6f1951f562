import HbcMac.MainLoop

/-!
# What `flash_write` does to the chip

Each operation is carried out as soon as the chip is deselected, and the wait loop behind it
leaves the chip idle. So the chip sees one accepted erase for every sector the size asks for,
starting at the sector of the address, and then one accepted program for every page.
-/

namespace HbcMac

/-! ## One command -/

namespace FlashChip

/-- The chip after the bytes of a command. -/
def sends (bytes : List Byte) (c : FlashChip) : FlashChip :=
  bytes.foldl (fun c b => (c.transfer b).2) c

/-- The bytes of a command other than a status read are only collected. -/
theorem sends_eq {bytes : List Byte} {c : FlashChip}
    (hop : (c.shifted ++ bytes).head? ≠ some flashOpReadStatus) :
    c.sends bytes = { c with shifted := c.shifted ++ bytes } := by
  induction bytes generalizing c with
  | nil => rw [List.append_nil]; rfl
  | cons b bytes ih =>
    have hpolled : c.shifted.head? ≠ some flashOpReadStatus := by
      cases hc : c.shifted with
      | nil => exact Option.some_ne_none _ |>.symm
      | cons op rest => rwa [hc] at hop
    have hone : (c.transfer b).2 = { c with shifted := c.shifted ++ [b] } := by
      simp only [transfer, if_neg hpolled]
    have hassoc : c.shifted ++ [b] ++ bytes = c.shifted ++ b :: bytes := List.append_cons .. |>.symm
    have hrest := ih (c := { c with shifted := c.shifted ++ [b] }) (by rwa [hassoc])
    show (c.transfer b).2.sends bytes = _
    rw [hone, hrest, hassoc]

/-- A whole command to an idle chip, from the selection to the deselection. -/
def command (bytes : List Byte) (c : FlashChip) : FlashChip := (c.select.sends bytes).deselect

/-- A command other than a status read is carried out at its end. -/
theorem command_eq {op : Byte} (args : List Byte) (c : FlashChip) (hop : op ≠ flashOpReadStatus) :
    c.command (op :: args) = ({ c with shifted := op :: args } : FlashChip).deselect := by
  have hhead : (c.select.shifted ++ op :: args).head? ≠ some flashOpReadStatus := by
    simpa [select] using hop
  rw [command, sends_eq hhead]
  rfl

/-- On an idle chip the latch is set. -/
theorem command_writeEnable {c : FlashChip} (h : c.busy = 0) :
    c.command [flashOpWriteEnable] = { c with wel := true, shifted := [] } := by
  rw [command_eq [] c (by decide)]
  simp [deselect, execute, select, h]

/-- Sector `n` after an accepted erase and the wait for its end. -/
def afterErase (n : ℕ) (c : FlashChip) : FlashChip :=
  { cells := erased c.cells n, wel := false, busy := 0, busyFor := c.busyFor.tail
    shifted := [], ops := c.ops ++ [.sectorErase n true] }

/-- Page `n` after the bytes `data` have been programmed. -/
def afterProgram (n : ℕ) (data : List Byte) (c : FlashChip) : FlashChip :=
  { cells := programmed c.cells n 0 data, wel := false, busy := 0, busyFor := c.busyFor.tail
    shifted := [], ops := c.ops ++ [.pageProgram n true] }

end FlashChip

/-- The address bytes of a sector. -/
theorem address_sector (sector : Word) :
    FlashChip.address [sector.setWidth 8, 0#8, 0#8] = (sector.toNat % 8) * sectorSize := by
  have h : flashSize.toNat = 524288 := rfl
  simp only [FlashChip.address, BitVec.toNat_setWidth, sectorSize, h]
  show (_ * 65536 + 0 * 256 + 0) % 524288 = _
  omega

/-- The address bytes of a page. -/
theorem address_page (page : Word) :
    FlashChip.address [(page >>> 8).setWidth 8, page.setWidth 8, 0#8]
      = (page.toNat % 2048) * pageSize := by
  have h : flashSize.toNat = 524288 := rfl
  simp only [FlashChip.address, BitVec.toNat_setWidth, BitVec.toNat_ushiftRight, pageSize, h,
    Nat.shiftRight_eq_div_pow]
  show (_ * 65536 + _ * 256 + 0) % 524288 = _
  omega

/-- A transfer is one more byte of the command. -/
theorem flashSend_with (b : Byte) (s : State) (c : FlashChip) :
    flashSend b { s with flash := c } = { s with flash := c.sends [b] } := rfl

/-! ## The wait loop -/

/-- A status read returns the status, and lets time pass. -/
theorem flashReadStatus_eq (s : State) : flashReadStatus s = (s.flash.status,
    { s with flash := { s.flash with busy := s.flash.busy - 1, shifted := [] } }) := rfl

/-- The bit says whether the chip is busy. -/
theorem status_wip (c : FlashChip) : c.status &&& flashStatusWip ≠ 0 ↔ c.busy ≠ 0 := by
  unfold FlashChip.status
  cases c.wel <;> by_cases h : c.busy = 0 <;> simp [h, flashStatusWip, flashStatusWel]

/-- The loop goes on until the chip is idle. -/
theorem flashPoll_eq {n : ℕ} {s : State} (h : s.flash.busy < n) :
    flashPoll n s = { s with flash := { s.flash with busy := 0, shifted := [] } } := by
  induction n generalizing s with
  | zero => omega
  | succ n ih =>
    rw [flashPoll, flashReadStatus_eq]
    simp only [status_wip]
    -- every read of the status lets the chip work on
    by_cases hbusy : s.flash.busy = 0
    · simp [hbusy]
    · rw [if_pos hbusy, ih (by dsimp only; omega)]

/-- The wait ends with the chip idle and otherwise unchanged. -/
theorem flashWaitIdle_eq (s : State) :
    flashWaitIdle s = { s with flash := { s.flash with busy := 0, shifted := [] } } :=
  flashPoll_eq (Nat.lt_succ_self _)

/-! ## The erase loop -/

/-- The chip in the body of the erase loop. -/
theorem erase_command {c : FlashChip} (h : c.busy = 0) (sector : Word) :
    ({ (c.command [flashOpWriteEnable]).command
        [flashOpSectorErase, sector.setWidth 8, 0, 0] with
      busy := 0, shifted := [] } : FlashChip) = c.afterErase (sector.toNat % 8) := by
  have hsector : FlashChip.address [sector.setWidth 8, 0#8, 0#8] / sectorSize = sector.toNat % 8 := by
    rw [address_sector]
    exact Nat.mul_div_cancel _ (by decide)
  rw [FlashChip.command_writeEnable h, FlashChip.command_eq _ _ (by decide)]
  simp [FlashChip.deselect, FlashChip.execute, FlashChip.select, FlashChip.startOp, h,
    FlashChip.afterErase, hsector, flashOpSectorErase, flashOpWriteEnable]

/-- `flash_write_enable` is one command. -/
theorem flashWriteEnable_eq (s : State) :
    flashWriteEnable s = { s with flash := s.flash.command [flashOpWriteEnable] } := rfl

/-- So is an erase. -/
theorem flashEnd_sector (sector : Byte) (s : State) :
    flashEnd (flashSend 0 (flashSend 0 (flashSend sector
      (flashSend flashOpSectorErase (flashStart s)))))
      = { s with flash := s.flash.command [flashOpSectorErase, sector, 0, 0] } := by
  rw [flashStart, flashSend_with, flashSend_with, flashSend_with, flashSend_with, flashEnd]
  rfl

/-- One round of the erase loop. -/
theorem flashSectorErase_succ {s : State} (h : s.flash.busy = 0) (num : ℕ) (sector : Word) :
    flashSectorErase (num + 1) sector s = flashSectorErase num (sector + 1)
      { s with flash := s.flash.afterErase (sector.toNat % 8) } := by
  rw [← erase_command h, flashSectorErase]
  dsimp only
  rw [flashEnd_sector, flashWaitIdle_eq, flashWriteEnable_eq]

/-- The erases of `num` sectors from `sector` on. -/
def erases (num sector : ℕ) : List FlashOp :=
  (List.range' sector num).map fun n => .sectorErase (n % 8) true

/-- The loop erases sector after sector, each accepted. -/
theorem flashSectorErase_ops {s : State} (h : s.flash.busy = 0) (num : ℕ) (sector : Word)
    (hfit : sector.toNat + num < 2 ^ 32) :
    (flashSectorErase num sector s).flash.busy = 0
      ∧ (flashSectorErase num sector s).flash.ops = s.flash.ops ++ erases num sector.toNat := by
  induction num generalizing sector s with
  | zero => exact ⟨h, (List.append_nil _).symm⟩
  | succ num ih =>
    -- the sector counter does not wrap
    have hnext : (sector + 1).toNat = sector.toNat + 1 := by
      rw [BitVec.toNat_add]
      show (sector.toNat + 1) % 2 ^ 32 = _
      omega
    -- the chip is idle again, which is what the next write enable needs
    have hrest := ih (s := { s with flash := s.flash.afterErase (sector.toNat % 8) }) rfl
      (sector + 1) (by omega)
    rw [flashSectorErase_succ h]
    refine ⟨hrest.1, ?_⟩
    rw [hrest.2, hnext, erases, erases, List.range'_succ, List.map_cons]
    exact List.append_assoc ..

/-! ## The program loop -/

section
variable [Board]

/-- Reading from memory does not depend on the chip. -/
theorem memReads_flash (n : ℕ) (s : State) (f : FlashChip) :
    memReads n { s with flash := f } = memReads n s := memReads_congr rfl

/-- The words of a page, as bytes for the chip. -/
theorem flashPageWords_eq (n : ℕ) (s : State) : flashPageWords n s = { s with
    mem.rdP := (advance s.mem.readWraps)^[n] s.mem.rdP
    flash := s.flash.sends ((memReads n s).flatMap LittleEndian.bytes) } := by
  induction n generalizing s with
  | zero => rfl
  | succ n ih =>
    -- four transfers, least significant byte first
    have hword (w : Word) (t : State) : flashSend ((w >>> 24).setWidth 8) (flashSend
        ((w >>> 16).setWidth 8) (flashSend ((w >>> 8).setWidth 8) (flashSend (w.setWidth 8) t)))
        = { t with flash := t.flash.sends (LittleEndian.bytes w) } := rfl
    rw [flashPageWords]
    dsimp only
    rw [hword, ih, memReads, List.flatMap_cons, memReads_flash]
    simp only [FlashChip.sends, List.foldl_append]
    rfl

omit [Board] in
/-- The chip in the body of the program loop. -/
theorem program_command {c : FlashChip} (h : c.busy = 0) (page : Word) {data : List Byte}
    (hdata : data ≠ []) :
    ({ (c.command [flashOpWriteEnable]).command
        (flashOpPageProgram :: (page >>> 8).setWidth 8 :: page.setWidth 8 :: 0 :: data) with
      busy := 0, shifted := [] } : FlashChip) = c.afterProgram (page.toNat % 2048) data := by
  have hsize : 0 < pageSize := by decide
  have hpage : FlashChip.address [(page >>> 8).setWidth 8, page.setWidth 8, 0#8] / pageSize
      = page.toNat % 2048 := by
    rw [address_page]
    exact Nat.mul_div_cancel _ hsize
  -- a page starts at its first byte, so nothing wraps inside it
  have hstart : FlashChip.address [(page >>> 8).setWidth 8, page.setWidth 8, 0#8] % pageSize = 0 := by
    rw [address_page]
    exact Nat.mul_mod_left _ _
  have hlen : 0 < data.length := List.length_pos_iff.mpr hdata
  rw [FlashChip.command_writeEnable h, FlashChip.command_eq _ _ (by decide)]
  simp [FlashChip.deselect, FlashChip.execute, FlashChip.select, FlashChip.startOp, h, hlen,
    FlashChip.afterProgram, hpage, hstart, flashOpSectorErase, flashOpWriteEnable,
    flashOpPageProgram]

/-- The bytes that go to one page. -/
def pageBytes (s : State) : List Byte := (memReads (pageSize / 4) s).flatMap LittleEndian.bytes

theorem pageBytes_ne_nil (s : State) : pageBytes s ≠ [] := by
  have hlen : (pageBytes s).length = 4 * (pageSize / 4) := by
    rw [pageBytes, LittleEndian.length_flatMap_bytes, length_memReads]
  intro hnil
  rw [hnil] at hlen
  cases hlen

/-- The state after one page. -/
def afterPage (page : Word) (s : State) : State :=
  { s with
    mem.rdP := (advance s.mem.readWraps)^[pageSize / 4] s.mem.rdP
    flash := s.flash.afterProgram (page.toNat % 2048) (pageBytes s) }

/-- One round of the loop over the pages. -/
theorem flashProgramPages_succ {s : State} (h : s.flash.busy = 0) (pages : ℕ) (page : Word) :
    flashProgramPages (pages + 1) page s
      = flashProgramPages pages (page + 1) (afterPage page s) := by
  have hpage (hi lo : Byte) (t : State) :
      flashEnd (flashPageWords (pageSize / 4) (flashSend 0 (flashSend lo (flashSend hi
        (flashSend flashOpPageProgram (flashStart t))))))
        = { t with
            mem.rdP := (advance t.mem.readWraps)^[pageSize / 4] t.mem.rdP
            flash := t.flash.command (flashOpPageProgram :: hi :: lo :: 0 :: pageBytes t) } := by
    -- the opcode and the address bytes, then the page
    have hopen : flashSend 0 (flashSend lo (flashSend hi (flashSend flashOpPageProgram (flashStart t))))
        = { t with flash := t.flash.select.sends [flashOpPageProgram, hi, lo, 0] } := by
      rw [flashStart, flashSend_with, flashSend_with, flashSend_with, flashSend_with]
      rfl
    have hsends (data : List Byte) (c : FlashChip) :
        (c.sends [flashOpPageProgram, hi, lo, 0]).sends data
          = c.sends (flashOpPageProgram :: hi :: lo :: 0 :: data) := rfl
    rw [hopen, flashPageWords_eq, memReads_flash, hsends, ← pageBytes]
    generalize pageBytes t = data
    rfl
  rw [afterPage, ← program_command h _ (pageBytes_ne_nil s), flashProgramPages]
  dsimp only
  rw [hpage, flashWaitIdle_eq, flashWriteEnable_eq, pageBytes, memReads_flash]
  dsimp only [pageBytes]

/-- The programs of `num` pages from `page` on. -/
def programs (num page : ℕ) : List FlashOp :=
  (List.range' page num).map fun n => .pageProgram (n % 2048) true

/-- It programs page after page, each accepted. -/
theorem flashProgramPages_ops {s : State} (h : s.flash.busy = 0) (pages : ℕ) (page : Word)
    (hfit : page.toNat + pages < 2 ^ 32) :
    (flashProgramPages pages page s).flash.busy = 0
      ∧ (flashProgramPages pages page s).flash.ops
        = s.flash.ops ++ programs pages page.toNat := by
  induction pages generalizing page s with
  | zero => exact ⟨h, (List.append_nil _).symm⟩
  | succ pages ih =>
    have hnext : (page + 1).toNat = page.toNat + 1 := by
      rw [BitVec.toNat_add]
      show (page.toNat + 1) % 2 ^ 32 = _
      omega
    have hrest := ih (s := afterPage page s) rfl (page + 1) (by omega)
    rw [flashProgramPages_succ h]
    refine ⟨hrest.1, ?_⟩
    rw [hrest.2, hnext, programs, programs, List.range'_succ, List.map_cons]
    exact List.append_assoc ..

/-! ## The whole of `flash_write` -/

omit [Board] in
/-- The sector by its number. -/
theorem flashMemToSector_toNat (flashAddr : Word) :
    (flashMemToSector flashAddr).toNat = flashAddr.toNat / 65536 := rfl

omit [Board] in
/-- The page by its number. -/
theorem flashMemToPage_toNat (flashAddr : Word) :
    (flashMemToPage flashAddr).toNat = flashAddr.toNat / 256 := rfl

omit [Board] in
/-- One more unit for what is left over rounds the size up. -/
theorem toNat_roundUp (size unit : Word) (hunit : 1 < unit.toNat) :
    (if size % unit ≠ 0 then size / unit + 1 else size / unit).toNat
      = (size.toNat + (unit.toNat - 1)) / unit.toNat := by
  have hmod : size % unit ≠ 0 ↔ size.toNat % unit.toNat ≠ 0 := not_congr BitVec.toNat_inj.symm
  have hdiv : (size / unit).toNat = size.toNat / unit.toNat := rfl
  have hparts := Nat.div_add_mod size.toNat unit.toNat
  have hleft := Nat.mod_lt size.toNat (Nat.lt_of_succ_lt hunit)
  have hlt := size.isLt
  have hquot : size.toNat / unit.toNat ≤ size.toNat / 2 :=
    Nat.div_le_div_left hunit (by decide)
  simp only [hmod]
  split
  · rename_i hsome
    have hround : size.toNat + (unit.toNat - 1)
        = size.toNat % unit.toNat - 1 + unit.toNat * (size.toNat / unit.toNat + 1) := by
      rw [Nat.mul_add]
      omega
    rw [hround, Nat.add_mul_div_left _ _ (by omega), Nat.div_eq_of_lt (by omega), Nat.zero_add,
      BitVec.toNat_add, hdiv]
    show (size.toNat / unit.toNat + 1) % 2 ^ 32 = _
    exact Nat.mod_eq_of_lt (by omega)
  · rename_i hnone
    have hround : size.toNat + (unit.toNat - 1)
        = (unit.toNat - 1) + unit.toNat * (size.toNat / unit.toNat) := by
      omega
    rw [hround, Nat.add_mul_div_left _ _ (by omega), Nat.div_eq_of_lt (by omega), Nat.zero_add,
      hdiv]

omit [Board] in
/-- The number of sectors, rounded up. -/
theorem flashNumSectors_toNat (size : Word) :
    (flashNumSectors size).toNat = (size.toNat + 65535) / 65536 :=
  toNat_roundUp size 65536 (by decide)

omit [Board] in
/-- The number of pages, rounded up. -/
theorem flashNumPages_toNat (size : Word) :
    (flashNumPages size).toNat = (size.toNat + 255) / 256 :=
  toNat_roundUp size 256 (by decide)

/-- **The operations of `flash_write`.** All erases come first. -/
theorem flashWrite_ops {s : State} (h : s.flash.busy = 0) (memAddr size flashAddr : Word) :
    (flashWrite memAddr size flashAddr s).flash.busy = 0
      ∧ (flashWrite memAddr size flashAddr s).flash.ops = s.flash.ops
        ++ (erases (flashNumSectors size).toNat (flashMemToSector flashAddr).toNat
          ++ programs (flashNumPages size).toNat (flashMemToPage flashAddr).toNat) := by
  have hsize := size.isLt
  have haddr := flashAddr.isLt
  have herase := flashSectorErase_ops h (flashNumSectors size).toNat
    (flashMemToSector flashAddr) (by
      rw [flashNumSectors_toNat, flashMemToSector_toNat]
      omega)
  generalize hs : flashSectorErase (flashNumSectors size).toNat (flashMemToSector flashAddr) s = t
    at herase
  have hprogram := flashProgramPages_ops (s := memSetRdP memAddr t) herase.1
    (flashNumPages size).toNat (flashMemToPage flashAddr) (by
      rw [flashNumPages_toNat, flashMemToPage_toNat]
      omega)
  rw [flashWrite, hs]
  refine ⟨hprogram.1, ?_⟩
  rw [hprogram.2]
  show t.flash.ops ++ _ = _
  rw [herase.2, List.append_assoc]

/-- What a call of `flash_write` makes the chip do. -/
def flashWriteOps (memAddr size flashAddr : Word) (s : State) : List FlashOp :=
  (flashWrite memAddr size flashAddr s).flash.ops.drop s.flash.ops.length

/-- Every page programmed lies in a sector erased before. -/
def EraseCovers (ops : List FlashOp) : Prop :=
  ∀ i n : ℕ, ops[i]? = some (FlashOp.pageProgram n true) →
    ∃ j < i, ops[j]? = some (FlashOp.sectorErase (n / 256) true)

omit [Board] in
/-- Operation `k` of the erase loop. -/
theorem getElem?_erases (num sector k : ℕ) : (erases num sector)[k]?
    = if k < num then some (.sectorErase ((sector + k) % 8) true) else none := by
  by_cases h : k < num <;> simp [erases, h]

omit [Board] in
/-- Operation `k` of the page loop. -/
theorem getElem?_programs (num page k : ℕ) : (programs num page)[k]?
    = if k < num then some (.pageProgram ((page + k) % 2048) true) else none := by
  by_cases h : k < num <;> simp [programs, h]

omit [Board] in
/-- When all erases come first, only the sets of sectors and pages matter. -/
theorem eraseCovers_append {num sector num' page : ℕ} :
    EraseCovers (erases num sector ++ programs num' page) ↔
      ∀ k' < num', ∃ k < num, (sector + k) % 8 = (page + k') % 2048 / 256 := by
  have hlen : (erases num sector).length = num := by simp [erases]
  -- the first `num` operations are the erases
  have hget (i : ℕ) : (erases num sector ++ programs num' page)[i]? =
      if i < num then some (.sectorErase ((sector + i) % 8) true)
      else if i - num < num' then some (.pageProgram ((page + (i - num)) % 2048) true)
      else none := by
    by_cases h : i < num
    · rw [List.getElem?_append_left (by omega), getElem?_erases, if_pos h, if_pos h]
    · rw [List.getElem?_append_right (by omega), getElem?_programs, if_neg h, hlen]
  constructor
  · intro hcovers k' hk'
    obtain ⟨j, -, hj⟩ := hcovers (num + k') ((page + k') % 2048) (by
      rw [hget, if_neg (by omega), Nat.add_sub_cancel_left, if_pos hk'])
    rw [hget] at hj
    by_cases h : j < num
    · rw [if_pos h] at hj
      exact ⟨j, h, by simpa using hj⟩
    · rw [if_neg h] at hj
      -- a program is no erase
      split at hj <;> cases hj
  · intro hcovers i n hi
    rw [hget] at hi
    by_cases h : i < num
    · rw [if_pos h] at hi
      cases hi
    · rw [if_neg h] at hi
      by_cases hk' : i - num < num'
      · rw [if_pos hk'] at hi
        cases hi
        obtain ⟨k, hk, hsector⟩ := hcovers (i - num) hk'
        exact ⟨k, by omega, by rw [hget, if_pos hk, hsector]⟩
      · rw [if_neg hk'] at hi
        cases hi

end

end HbcMac
