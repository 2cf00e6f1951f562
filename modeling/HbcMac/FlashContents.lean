import HbcMac.FlashErase

/-!
# What `flash_write` leaves in the array

An erase sets a sector to ones, a program clears the bits of one page. Over the loops of
`flash_write` byte `j` of the words read from memory goes to byte `j` counted from the start of
the page of the address, and no cell outside the sectors of the range changes.
-/

namespace HbcMac

open LittleEndian

section
variable [Board]

/-! ## The bytes read for the pages -/

/-- Successive reads follow the read pointer. -/
theorem getElem?_memReads {n k : ℕ} (hk : k < n) (s : State) :
    (memReads n s)[k]? = some (s.mem.get ((advance s.mem.readWraps)^[k] s.mem.rdP)) := by
  induction n generalizing k s with
  | zero => omega
  | succ n ih =>
    rw [memReads]
    cases k with
    | zero => rfl
    | succ k =>
      rw [List.getElem?_cons_succ, ih (by omega), Function.iterate_succ_apply]
      rfl

/-- A page is sent whole. -/
theorem length_pageBytes (s : State) : (pageBytes s).length = pageSize := by
  rw [pageBytes, length_flatMap_bytes, length_memReads]
  rfl

/-- Byte `j` of the page is byte `j` of the stream at the read pointer. -/
theorem getElem?_pageBytes {j : ℕ} (hj : j < pageSize) (s : State) :
    (pageBytes s)[j]? = some (s.mem.stream s.mem.rdP j) := by
  have hword : j / 4 < pageSize / 4 := by
    simp only [pageSize] at hj ⊢
    omega
  rw [pageBytes, getElem?_flatMap_bytes, getElem?_memReads hword]
  rfl

/-- The next page starts where the bytes of this one end. -/
theorem stream_afterPage (page : Word) (s : State) (j : ℕ) :
    (afterPage page s).mem.stream (afterPage page s).mem.rdP j
      = s.mem.stream s.mem.rdP (pageSize + j) := by
  have hword : (pageSize + j) / 4 = j / 4 + pageSize / 4 := by
    simp only [pageSize]
    omega
  have hbyte : (pageSize + j) % 4 = j % 4 := by
    simp only [pageSize]
    omega
  rw [Mem.stream, Mem.stream, hword, hbyte, Function.iterate_add_apply]
  rfl

/-! ## One program -/

omit [Board] in
/-- A program clears bits of the bytes it is given, at successive places of the page. -/
theorem programmed_apply {i : ℕ} {data : List Byte} (h : i + data.length ≤ pageSize)
    (cells : ℕ → Byte) (n j : ℕ) : FlashChip.programmed cells n i data j =
      if n * pageSize + i ≤ j ∧ j < n * pageSize + i + data.length then
        cells j &&& data.getD (j - (n * pageSize + i)) 0
      else cells j := by
  induction data generalizing i cells with
  | nil =>
    rw [if_neg (by simp only [List.length_nil]; omega)]
    rfl
  | cons b data ih =>
    rw [List.length_cons] at h
    -- nothing wraps inside the page
    have hplace : i % pageSize = i := Nat.mod_eq_of_lt (by omega)
    rw [FlashChip.programmed, hplace, ih (by omega), List.length_cons]
    by_cases hj : j = n * pageSize + i
    · rw [if_neg (by omega), if_pos hj, if_pos (by omega), hj, Nat.sub_self]
      rfl
    · rw [if_neg hj]
      by_cases hrest : n * pageSize + i + 1 ≤ j ∧ j < n * pageSize + i + 1 + data.length
      · have hindex : j - (n * pageSize + i) = j - (n * pageSize + (i + 1)) + 1 := by omega
        rw [if_pos (by omega), if_pos (by omega), hindex, List.getD_cons_succ]
      · rw [if_neg (by omega), if_neg (by omega)]

/-- Page `n` after the bytes behind the read pointer. -/
theorem programmed_pageBytes (cells : ℕ → Byte) (n j : ℕ) (s : State) :
    FlashChip.programmed cells n 0 (pageBytes s) j =
      if n * pageSize ≤ j ∧ j < (n + 1) * pageSize then
        cells j &&& s.mem.stream s.mem.rdP (j - n * pageSize)
      else cells j := by
  have hlen := length_pageBytes s
  have hend : (n + 1) * pageSize = n * pageSize + pageSize := Nat.succ_mul ..
  rw [programmed_apply (by omega), hlen, Nat.add_zero, hend]
  by_cases hj : n * pageSize ≤ j ∧ j < n * pageSize + pageSize
  · rw [if_pos hj, if_pos hj, List.getD_eq_getElem?_getD, getElem?_pageBytes (by omega)]
    rfl
  · rw [if_neg hj, if_neg hj]

/-! ## The loops -/

omit [Board] in
/-- The erase loop changes the sectors it counts through and nothing else. -/
theorem flashSectorErase_cells {s : State} (h : s.flash.busy = 0) {num : ℕ} {sector : Word}
    (hfit : sector.toNat + num ≤ 8) (j : ℕ) : (flashSectorErase num sector s).flash.cells j =
      if sector.toNat ≤ j / sectorSize ∧ j / sectorSize < sector.toNat + num then 0xFF
      else s.flash.cells j := by
  induction num generalizing sector s with
  | zero =>
    rw [if_neg (by omega)]
    rfl
  | succ num ih =>
    have hnext : (sector + 1).toNat = sector.toNat + 1 := by
      rw [BitVec.toNat_add]
      show (sector.toNat + 1) % 2 ^ 32 = _
      omega
    have herased : ({ s with flash := s.flash.afterErase (sector.toNat % 8) } : State).flash.cells j
        = if j / sectorSize = sector.toNat then 0xFF else s.flash.cells j := by
      show (if j / sectorSize = sector.toNat % 8 then _ else _) = _
      rw [Nat.mod_eq_of_lt (by omega)]
    rw [flashSectorErase_succ h, ih rfl (by omega), herased, hnext]
    by_cases hj : j / sectorSize = sector.toNat
    · rw [if_pos hj, ite_self, if_pos (by omega)]
    · rw [if_neg hj]
      by_cases hrest : sector.toNat ≤ j / sectorSize ∧ j / sectorSize < sector.toNat + (num + 1)
      · rw [if_pos (by omega), if_pos hrest]
      · rw [if_neg (by omega), if_neg hrest]

omit [Board] in
/-- Erasing leaves everything but the chip alone. -/
theorem flashSectorErase_keeps {s : State} (h : s.flash.busy = 0) (num : ℕ) (sector : Word) :
    ∃ f, flashSectorErase num sector s = { s with flash := f } := by
  induction num generalizing sector s with
  | zero => exact ⟨s.flash, rfl⟩
  | succ num ih =>
    obtain ⟨f, hf⟩ := ih (s := { s with flash := s.flash.afterErase (sector.toNat % 8) }) rfl
      (sector + 1)
    rw [flashSectorErase_succ h]
    exact ⟨f, hf⟩

/-- The program loop puts byte `j` of what the read pointer yields at byte `j` counted from the
first page. -/
theorem flashProgramPages_cells {s : State} (h : s.flash.busy = 0) {pages : ℕ} {page : Word}
    (hfit : page.toNat + pages ≤ 2048) (j : ℕ) : (flashProgramPages pages page s).flash.cells j =
      if page.toNat * pageSize ≤ j ∧ j < (page.toNat + pages) * pageSize then
        s.flash.cells j &&& s.mem.stream s.mem.rdP (j - page.toNat * pageSize)
      else s.flash.cells j := by
  induction pages generalizing page s with
  | zero =>
    rw [Nat.add_zero, if_neg (by omega)]
    rfl
  | succ pages ih =>
    have hnext : (page + 1).toNat = page.toNat + 1 := by
      rw [BitVec.toNat_add]
      show (page.toNat + 1) % 2 ^ 32 = _
      omega
    have hmod : page.toNat % 2048 = page.toNat := Nat.mod_eq_of_lt (by omega)
    have hpage : (afterPage page s).flash.cells j =
        if page.toNat * pageSize ≤ j ∧ j < (page.toNat + 1) * pageSize then
          s.flash.cells j &&& s.mem.stream s.mem.rdP (j - page.toNat * pageSize)
        else s.flash.cells j := by
      rw [← programmed_pageBytes, afterPage, FlashChip.afterProgram, hmod]
    have hsucc : (page.toNat + 1) * pageSize = page.toNat * pageSize + pageSize := Nat.succ_mul ..
    have hsum : page.toNat + 1 + pages = page.toNat + (pages + 1) := by omega
    have hle : (page.toNat + 1) * pageSize ≤ (page.toNat + (pages + 1)) * pageSize :=
      Nat.mul_le_mul_right _ (by omega)
    rw [flashProgramPages_succ h, ih rfl (by omega), hpage, hnext, stream_afterPage, hsum, hsucc]
    by_cases hfirst : j < page.toNat * pageSize + pageSize
    · -- the page programmed now
      rw [if_neg (by omega)]
      by_cases hj : page.toNat * pageSize ≤ j
      · rw [if_pos ⟨hj, hfirst⟩, if_pos (by omega)]
      · rw [if_neg (by omega), if_neg (by omega)]
    · by_cases hj : j < (page.toNat + (pages + 1)) * pageSize
      · have hindex : pageSize + (j - (page.toNat * pageSize + pageSize))
            = j - page.toNat * pageSize := by omega
        rw [if_pos (by omega), if_neg (by omega), if_pos (by omega), hindex]
      · rw [if_neg (by omega), if_neg (by omega), if_neg (by omega)]

/-! ## `flash_write` -/

/-- The program loop moves the read pointer and uses the chip. -/
theorem flashProgramPages_keeps {s : State} (h : s.flash.busy = 0) (pages : ℕ) (page : Word) :
    ∃ p f, flashProgramPages pages page s = { s with mem.rdP := p, flash := f } := by
  induction pages generalizing page s with
  | zero => exact ⟨s.mem.rdP, s.flash, rfl⟩
  | succ pages ih =>
    obtain ⟨p, f, hp⟩ := ih (s := afterPage page s) rfl (page + 1)
    rw [flashProgramPages_succ h]
    exact ⟨p, f, hp⟩

omit [Board] in
/-- The range is erased sector by sector, none of them past the end of the array. -/
theorem flashWrite_fits {size flashAddr : Word}
    (hfit : flashAddr.toNat + size.toNat ≤ flashSize.toNat) :
    (flashMemToSector flashAddr).toNat + (flashNumSectors size).toNat ≤ 8
      ∧ (flashMemToPage flashAddr).toNat + (flashNumPages size).toNat ≤ 2048 := by
  have hend : flashSize.toNat = 524288 := rfl
  have hnum := flashNumSectors_toNat size
  have hsector := flashMemToSector_toNat flashAddr
  have hpages := flashNumPages_toNat size
  have hpage := flashMemToPage_toNat flashAddr
  omega

/-- Beside the chip a write moves the read pointer only. -/
theorem flashWrite_keeps {s : State} (h : s.flash.busy = 0) {size flashAddr : Word}
    (hfit : flashAddr.toNat + size.toNat ≤ flashSize.toNat) (memAddr : Word) :
    ∃ p f, flashWrite memAddr size flashAddr s = { s with mem.rdP := p, flash := f } := by
  have hfits := (flashWrite_fits hfit).1
  have hidle := (flashSectorErase_ops h (flashNumSectors size).toNat (flashMemToSector flashAddr)
    (by omega)).1
  obtain ⟨f, hf⟩ := flashSectorErase_keeps h (flashNumSectors size).toNat
    (flashMemToSector flashAddr)
  rw [hf] at hidle
  rw [flashWrite, hf]
  exact flashProgramPages_keeps (s := memSetRdP memAddr { s with flash := f }) hidle _ _

/-- The cells after the erases of `flash_write`. -/
def erasedCells (size flashAddr : Word) (s : State) (j : ℕ) : Byte :=
  if flashAddr.toNat / sectorSize ≤ j / sectorSize
      ∧ j / sectorSize < flashAddr.toNat / sectorSize + (size.toNat + 65535) / 65536 then 0xFF
  else s.flash.cells j

/-- **The array after `flash_write`.** The pages count from the page of the address, whatever
its low byte. -/
theorem flashWrite_cells {s : State} (h : s.flash.busy = 0) {size flashAddr : Word}
    (hfit : flashAddr.toNat + size.toNat ≤ flashSize.toNat) (memAddr : Word) (j : ℕ) :
    (flashWrite memAddr size flashAddr s).flash.cells j =
      if flashAddr.toNat / 256 * pageSize ≤ j
          ∧ j < (flashAddr.toNat / 256 + (size.toNat + 255) / 256) * pageSize then
        erasedCells size flashAddr s j
          &&& s.mem.stream memAddr (j - flashAddr.toNat / 256 * pageSize)
      else erasedCells size flashAddr s j := by
  obtain ⟨hsectors, hpages⟩ := flashWrite_fits hfit
  have hidle := (flashSectorErase_ops h (flashNumSectors size).toNat (flashMemToSector flashAddr)
    (by omega)).1
  have herased := flashSectorErase_cells h hsectors j
  obtain ⟨f, hf⟩ := flashSectorErase_keeps h (flashNumSectors size).toNat
    (flashMemToSector flashAddr)
  rw [hf] at hidle herased
  have hprogram := flashProgramPages_cells (s := memSetRdP memAddr { s with flash := f }) hidle
    hpages j
  rw [flashWrite, hf, hprogram, flashNumPages_toNat, flashMemToPage_toNat]
  show (if _ then f.cells j &&& s.mem.stream memAddr _ else f.cells j) = _
  rw [show f.cells j = _ from herased, flashNumSectors_toNat, flashMemToSector_toNat]
  rfl

/-! ## Confinement -/

/-- The operation found the latch set and the chip idle. -/
def FlashOp.accepted : FlashOp → Bool
  | .sectorErase _ accepted => accepted
  | .pageProgram _ accepted => accepted

/-- The sector of byte `j` intersects `[flash_addr, flash_addr + size)`. -/
def Touches (size flashAddr : Word) (j : ℕ) : Prop :=
  ∃ i < size.toNat, (flashAddr.toNat + i) / sectorSize = j / sectorSize

omit [Board] in
/-- The last sector erased starts before the end of the range. -/
theorem touches_of_sector {size flashAddr : Word} {j : ℕ}
    (hfrom : flashAddr.toNat / sectorSize ≤ j / sectorSize)
    (hto : j / sectorSize < flashAddr.toNat / sectorSize + (size.toNat + 65535) / 65536) :
    Touches size flashAddr j := by
  have hsize : sectorSize = 65536 := rfl
  rw [Touches]
  rw [hsize] at hfrom hto ⊢
  refine ⟨j / 65536 * 65536 - flashAddr.toNat, ?_, ?_⟩ <;> omega

omit [Board] in
/-- The last page programmed starts before the end of the range. -/
theorem touches_of_page {size flashAddr : Word} {j : ℕ}
    (hfrom : flashAddr.toNat / 256 * pageSize ≤ j)
    (hto : j < (flashAddr.toNat / 256 + (size.toNat + 255) / 256) * pageSize) :
    Touches size flashAddr j := by
  have hpage : pageSize = 256 := rfl
  have hsize : sectorSize = 65536 := rfl
  rw [Touches]
  rw [hpage] at hfrom hto
  rw [hsize]
  refine ⟨j / 256 * 256 - flashAddr.toNat, ?_, ?_⟩ <;> omega

/-- `flash_write` from an idle chip: every erase and every program is accepted, no byte outside
the sectors of the range changes, and the chip is idle at the end. -/
theorem flash_write_confined {s : State} (h : s.flash.busy = 0) {size flashAddr : Word}
    (hfit : flashAddr.toNat + size.toNat ≤ flashSize.toNat) (memAddr : Word) :
    (∀ op ∈ flashWriteOps memAddr size flashAddr s, op.accepted = true)
      ∧ (∀ j, ¬ Touches size flashAddr j →
        (flashWrite memAddr size flashAddr s).flash.cells j = s.flash.cells j)
      ∧ (flashWrite memAddr size flashAddr s).flash.busy = 0 := by
  refine ⟨?_, ?_, (flashWrite_ops h memAddr size flashAddr).1⟩
  · intro op hop
    rw [flashWriteOps, (flashWrite_ops h memAddr size flashAddr).2, List.drop_left,
      List.mem_append] at hop
    rcases hop with hop | hop <;> obtain ⟨n, -, rfl⟩ := List.mem_map.mp hop <;> rfl
  · intro j hj
    have hpage : ¬ (flashAddr.toNat / 256 * pageSize ≤ j
        ∧ j < (flashAddr.toNat / 256 + (size.toNat + 255) / 256) * pageSize) :=
      fun hin => hj (touches_of_page hin.1 hin.2)
    have hsector : ¬ (flashAddr.toNat / sectorSize ≤ j / sectorSize
        ∧ j / sectorSize < flashAddr.toNat / sectorSize + (size.toNat + 65535) / 65536) :=
      fun hin => hj (touches_of_sector hin.1 hin.2)
    rw [flashWrite_cells h hfit, if_neg hpage, erasedCells, if_neg hsector]

end

/-- A chip that stays busy for different times. -/
def slowChip : State := { bootState with flash.busyFor := [3, 0, 5, 1] }

/-- Three pages across the end of sector 1. -/
theorem flash_write_confined_busy :
    letI := plainDram
    (∀ op ∈ flashWriteOps 0 0x280 0x1FF80 slowChip, op.accepted = true)
      ∧ (∀ j, ¬ Touches 0x280 0x1FF80 j →
        (flashWrite 0 0x280 0x1FF80 slowChip).flash.cells j = slowChip.flash.cells j)
      ∧ (flashWrite 0 0x280 0x1FF80 slowChip).flash.busy = 0 :=
  @flash_write_confined plainDram.toBoard slowChip rfl 0x280 0x1FF80 (by decide) 0

end HbcMac
