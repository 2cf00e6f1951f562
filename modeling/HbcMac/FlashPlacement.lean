import HbcMac.FlashVerify

/-!
# Where `flash_write` puts the memory

The first byte read from memory goes to the start of the page of the address, not to the address:
what is found at the address and behind it is memory from the low byte of the address on, and
ones where the last page programmed ends before the range does.
-/

namespace HbcMac

open LittleEndian

section
variable [Board]

/-- The sectors of the range are erased. -/
def RangeErased (size flashAddr : Word) (s : State) : Prop :=
  ∀ j, Touches size flashAddr j → s.flash.cells j = 0xFF

/-- The memory range is in place after `flash_write`, and `flash_verify` says so. -/
def PlacedRight (memAddr size flashAddr : Word) (s : State) : Prop :=
  let s' := flashWrite memAddr size flashAddr s
  (∀ i < size.toNat, s'.flash.cells (flashAddr.toNat + i) = s.mem.byte memAddr i)
    ∧ (flashVerify memAddr size flashAddr s').1 = 0

/-- The byte that gets to `flash_addr + i`. -/
def placedByte (memAddr size flashAddr : Word) (m : Mem) (i : ℕ) : Byte :=
  if flashAddr.toNat % 256 + i < 256 * ((size.toNat + 255) / 256) then
    m.stream memAddr (flashAddr.toNat % 256 + i)
  else 0xFF

/-- From the start of a page on, the memory is read in step with the array. -/
theorem placedByte_page {memAddr size flashAddr : Word} (h : 256 ∣ flashAddr.toNat) (m : Mem) {i : ℕ}
    (hi : i < size.toNat) : placedByte memAddr size flashAddr m i = m.stream memAddr i := by
  have hoff : flashAddr.toNat % 256 = 0 := Nat.mod_eq_zero_of_dvd h
  rw [placedByte, hoff, Nat.zero_add, if_pos (by omega)]

/-- Where the range has been erased, byte `i` of it is the byte of memory that the page loop reads
for it. -/
theorem flashWrite_placed {s : State} (h : s.flash.busy = 0) {size flashAddr : Word}
    (hfit : flashAddr.toNat + size.toNat ≤ flashSize.toNat) (herased : RangeErased size flashAddr s)
    (memAddr : Word) {i : ℕ} (hi : i < size.toNat) :
    (flashWrite memAddr size flashAddr s).flash.cells (flashAddr.toNat + i)
      = placedByte memAddr size flashAddr s.mem i := by
  have hpage : pageSize = 256 := rfl
  have hcell : erasedCells size flashAddr s (flashAddr.toNat + i) = 0xFF := by
    rw [erasedCells, herased _ ⟨i, hi, rfl⟩, ite_self]
  have hindex : flashAddr.toNat + i - flashAddr.toNat / 256 * 256 = flashAddr.toNat % 256 + i := by
    omega
  have hones (b : Byte) : 0xFF &&& b = b := BitVec.allOnes_and
  rw [flashWrite_cells h hfit, hcell, hpage, hindex, placedByte]
  by_cases hin : flashAddr.toNat % 256 + i < 256 * ((size.toNat + 255) / 256)
  · rw [if_pos (by omega), if_pos hin, hones]
  · rw [if_neg (by omega), if_neg hin]

/-- **Placement for given contents.** -/
theorem placedRight_iff {s : State} (h : s.flash.busy = 0) {memAddr size flashAddr : Word}
    (hfit : flashAddr.toNat + size.toNat ≤ flashSize.toNat)
    (herased : RangeErased size flashAddr s) : PlacedRight memAddr size flashAddr s ↔
      ∀ i < size.toNat, placedByte memAddr size flashAddr s.mem i = s.mem.byte memAddr i
        ∧ (i < 4 * (size.toNat / 4) → s.mem.stream memAddr i = s.mem.byte memAddr i) := by
  have hidle := (flashWrite_ops h memAddr size flashAddr).1
  have hplaced (i : ℕ) (hi : i < size.toNat) := flashWrite_placed h hfit herased memAddr hi
  obtain ⟨p, f, hwrite⟩ := flashWrite_keeps h hfit memAddr
  have hstream (i : ℕ) : (flashWrite memAddr size flashAddr s).mem.stream memAddr i
      = s.mem.stream memAddr i := by
    rw [hwrite]
    rfl
  rw [PlacedRight, flashVerify_zero_iff hidle memAddr size hfit]
  constructor
  · rintro ⟨hright, hverify⟩ i hi
    refine ⟨(hplaced i hi).symm.trans (hright i hi), fun hword => ?_⟩
    rw [← hstream, ← hverify i hword, hright i hi]
  · intro hall
    refine ⟨fun i hi => (hplaced i hi).trans (hall i hi).1, fun i hword => ?_⟩
    have hi : i < size.toNat := by omega
    rw [hplaced i hi, (hall i hi).1, hstream, (hall i hi).2 hword]

end

/-! ## For all contents -/

/-- Within a page the pointer does not come back. -/
theorem advance_iterate_ne {k : ℕ} (hpos : 0 < k) (hk : k < 64) (wrap : Bool) (a : Word) :
    (advance wrap)^[k] a ≠ a := by
  have hlt := a.isLt
  intro heq
  have hnat := congrArg BitVec.toNat heq
  cases wrap with
  | false =>
    rw [advance_iterate_plain, BitVec.toNat_add, BitVec.toNat_ofNat] at hnat
    omega
  | true =>
    rw [advance_iterate_wrap, halfSize_eq] at hnat
    omega

/-- From an address inside a page on, the byte put at the address is not the first one. -/
theorem placedByte_marked {memAddr size flashAddr : Word} (hsize : size.toNat ≠ 0)
    (h : ¬ 256 ∣ flashAddr.toNat) (wrap : Bool) (flash : ℕ → Byte) :
    letI := plainDram
    placedByte memAddr size flashAddr
      (filled wrap (marked (memAddr + BitVec.ofNat 32 0)) flash).mem 0 = 0 := by
  have hstart : memAddr + BitVec.ofNat 32 0 = memAddr := BitVec.add_zero memAddr
  have hin : flashAddr.toNat % 256 + 0 < 256 * ((size.toNat + 255) / 256) := by omega
  show (if _ then _ else (0xFF : Byte)) = 0
  rw [if_pos hin, hstart]
  by_cases hfirst : flashAddr.toNat % 256 < 4
  · -- another byte of the marked word
    have hbytes : ∀ i < 4, 0 < i → byteAt 1 i = 0 := by decide
    have hdiv : (flashAddr.toNat % 256 + 0) / 4 = 0 := by omega
    have hget : marked memAddr memAddr = 1 := if_pos rfl
    show byteAt (marked memAddr ((advance _)^[(flashAddr.toNat % 256 + 0) / 4] memAddr)) _ = 0
    rw [hdiv]
    show byteAt (marked memAddr memAddr) _ = 0
    rw [hget]
    exact hbytes _ (by omega) (by omega)
  · exact stream_marked (advance_iterate_ne (by omega) (by omega) wrap memAddr) flash

/-- **Placement for all contents.** -/
theorem placedRight_forall_iff {memAddr size flashAddr : Word} (haligned : 4 ∣ memAddr.toNat)
    (hfit : flashAddr.toNat + size.toNat ≤ flashSize.toNat) (wrap : Bool) :
    (∀ [Board] (s : State), s.flash.busy = 0 → s.mem.readWraps = wrap →
        RangeErased size flashAddr s → PlacedRight memAddr size flashAddr s) ↔
      size.toNat = 0 ∨ 256 ∣ flashAddr.toNat ∧ Unwrapped wrap memAddr size := by
  have hfilled (cells : Word → Word) : RangeErased size flashAddr (filled wrap cells fun _ => 0xFF) :=
    fun _ _ => rfl
  constructor
  · intro hright
    by_cases hsize : size.toNat = 0
    · exact .inl hsize
    · have hcells (b : Word) := (@placedRight_iff plainDram.toBoard _ rfl memAddr size flashAddr hfit
        (hfilled _)).mp (@hright plainDram.toBoard (filled wrap (marked b) fun _ => 0xFF) rfl
          (filled_readWraps ..) (hfilled _))
      have hne : (0 : Byte) ≠ 1 := by decide
      have hpage : 256 ∣ flashAddr.toNat := by
        by_contra hinside
        have hbyte := (hcells (memAddr + BitVec.ofNat 32 0) 0 (by omega)).1
        rw [placedByte_marked hsize hinside, byte_marked (Nat.dvd_zero 4)] at hbyte
        exact hne hbyte
      refine .inr ⟨hpage, ?_⟩
      rintro rfl
      by_contra hcross
      obtain ⟨i, hi, hword, hunread⟩ := exists_unread haligned fun hle => hcross (hle rfl)
      have hbyte := (hcells (memAddr + BitVec.ofNat 32 i) i hi).1
      rw [@placedByte_page plainDram.toBoard _ _ _ hpage _ _ hi, stream_marked (hunread _),
        byte_marked hword] at hbyte
      exact hne hbyte
  · intro hcase _ s hidle hmode herased
    refine (placedRight_iff hidle hfit herased).mpr fun i hi => ?_
    rcases hcase with hnone | ⟨hpage, hwrap⟩
    · omega
    · rw [← hmode] at hwrap
      rw [placedByte_page hpage _ hi, hwrap.stream_eq haligned hi]
      exact ⟨rfl, fun _ => rfl⟩

/-- `flash_write` from an idle chip into erased sectors: the memory range is in place for all
contents exactly when the range is empty, or the address is that of a page and the pointer does
not wrap; for given contents exactly when every byte put at the address and behind it happens to
be the byte asked for. -/
theorem flash_write_placed_iff {memAddr size flashAddr : Word} (haligned : 4 ∣ memAddr.toNat)
    (hfit : flashAddr.toNat + size.toNat ≤ flashSize.toNat) :
    (∀ wrap, (∀ [Board] (s : State), s.flash.busy = 0 → s.mem.readWraps = wrap →
        RangeErased size flashAddr s → PlacedRight memAddr size flashAddr s) ↔
      size.toNat = 0 ∨ 256 ∣ flashAddr.toNat ∧ Unwrapped wrap memAddr size)
    ∧ ∀ [Board] (s : State), s.flash.busy = 0 → RangeErased size flashAddr s →
      (PlacedRight memAddr size flashAddr s ↔
        ∀ i < size.toNat, placedByte memAddr size flashAddr s.mem i = s.mem.byte memAddr i
          ∧ (i < 4 * (size.toNat / 4) → s.mem.stream memAddr i = s.mem.byte memAddr i)) :=
  ⟨placedRight_forall_iff haligned hfit, fun _ h herased => placedRight_iff h hfit herased⟩

/-- Three pages minus one byte, to the start of a page. -/
theorem flash_write_placed_pages :
    ((∀ [Board] (s : State), s.flash.busy = 0 → s.mem.readWraps = true →
        RangeErased 0x2FF 0x60100 s → PlacedRight 0x1000 0x2FF 0x60100 s) ↔
      (0x2FF : Word).toNat = 0
        ∨ 256 ∣ (0x60100 : Word).toNat ∧ Unwrapped true 0x1000 0x2FF) :=
  (flash_write_placed_iff (by decide) (by decide)).1 true

/-- Four bytes to flash address 1: the first byte of the memory stays out. -/
theorem flash_write_misplaced :
    letI := plainDram
    let s := filled true (marked 0) fun _ => 0xFF
    4 ∣ (0 : Word).toNat ∧ (1 : Word).toNat + (4 : Word).toNat ≤ flashSize.toNat
      ∧ s.flash.busy = 0 ∧ RangeErased 4 1 s
      ∧ (flashWrite 0 4 1 s).flash.cells 1 ≠ s.mem.byte 0 0
      ∧ (flashVerify 0 4 1 (flashWrite 0 4 1 s)).1 ≠ 0 := by
  have herased : RangeErased 4 1 (filled true (marked 0) fun _ => 0xFF) := fun _ _ => rfl
  refine ⟨by decide, by decide, rfl, herased, ?_, ?_⟩ <;> decide +kernel

end HbcMac
