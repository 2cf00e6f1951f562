import HbcMac.FlashVerify
import HbcMac.Lib.LastWriter

/-!
# The image `psoc_flash_device` programs

The image is copied from the flash chip to the same addresses of the memory. The routines of
`DataFetch.c`, as `hssp.patch` leaves it, then take its parts from there: each sets the read
pointer and takes the words it reads apart.
-/

namespace HbcMac

open LittleEndian

/-! ## `flash.h` -/

/-- Where the identifier of the PSoC is. -/
def flashAddrPsocJtag : Word := flashAddrPsocConf
/-- Where the checksum is. -/
def flashAddrPsocChksum : Word := flashAddrPsocConf + 0x04
/-- Where the configuration latches are. -/
def flashAddrPsocNvl : Word := flashAddrPsocConf + 0x08
/-- Where the latches that are written once are. -/
def flashAddrPsocWol : Word := flashAddrPsocConf + 0x0C
/-- Where the protection bytes are. -/
def flashAddrPsocProtect : Word := flashAddrPsocConf + 0x10
/-- Where the rows begin. -/
def flashAddrPsocFlash : Word := flashAddrPsocConf + 0x30
/-- The bytes of a row. -/
def flashPsocRowSize : Word := 288

/-! ## `DataFetch.c` -/

/-- The lengths set by the header `DataFetch.h` of the programmer. The map in `flash.h` has four
bytes for the identifier and for each latch, and two for the checksum. -/
class DataFetch where
  jtagIdByteLength : ℕ
  nvlByteLength : ℕ
  checksumByteLength : ℕ
  jtagIdByteLength_le : jtagIdByteLength ≤ 4
  nvlByteLength_le : nvlByteLength ≤ 4
  checksumByteLength_le : checksumByteLength ≤ 4

/-- The firmware, with the addresses `mem_read` has been called at. -/
structure Fetcher where
  dev : State
  reads : List Word

section
variable [Board]

/-- The loaders set the read pointer first. -/
def Fetcher.setRdP (addr : Word) (f : Fetcher) : Fetcher := { f with dev := memSetRdP addr f.dev }

/-- And read through it, as everything else does. -/
def Fetcher.read (f : Fetcher) : Word × Fetcher :=
  ((memRead f.dev).1, ⟨(memRead f.dev).2, f.reads ++ [f.dev.mem.rdP]⟩)

/-- `n` times `buf[i] = (unsigned char) data; data >>= 8;`. -/
def unpack : ℕ → Word → List Byte
  | 0, _ => []
  | n + 1, data => data.setWidth 8 :: unpack n (data >>> 8)

/-- The routines that read one word. -/
def fetchWord (addr : Word) (n : ℕ) (f : Fetcher) : List Byte × Fetcher :=
  let r := (f.setRdP addr).read
  (unpack n r.1, r.2)

/-- `if ((i % 4) == 0) data = mem_read();`. -/
def fetchNext (i : ℕ) (data : Word) (f : Fetcher) : Word × Fetcher :=
  if i % 4 = 0 then f.read else (data, f)

/-- The loop of the routines that read as they go, with `n` rounds left. -/
def fetchLoop : ℕ → ℕ → Word → Fetcher → List Byte × Fetcher
  | 0, _, _, f => ([], f)
  | n + 1, i, data, f =>
    let r := fetchNext i data f
    let rest := fetchLoop n (i + 1) (r.1 >>> 8) r.2
    (r.1.setWidth 8 :: rest.1, rest.2)

/-- The routines that read word by word. -/
def fetchBytes (addr : Word) (n : ℕ) (f : Fetcher) : List Byte × Fetcher :=
  fetchLoop n 0 0 (f.setRdP addr)

/-- One row of the image. -/
def loadFlashRowData (rowNumber rowByteSize : BitVec 16) (f : Fetcher) : List Byte × Fetcher :=
  fetchBytes (flashAddrPsocFlash + rowNumber.setWidth 32 * flashPsocRowSize) rowByteSize.toNat f

/-- The protection bytes. -/
def loadFlashProtectionData (protectionByteSize : BitVec 16) (f : Fetcher) : List Byte × Fetcher :=
  fetchBytes flashAddrPsocProtect protectionByteSize.toNat f

section
variable [DataFetch]

/-- The identifier. -/
def loadDeviceJtagId (f : Fetcher) : List Byte × Fetcher :=
  fetchWord flashAddrPsocJtag DataFetch.jtagIdByteLength f

/-- The configuration latches. -/
def loadDeviceConfigNvl (f : Fetcher) : List Byte × Fetcher :=
  fetchWord flashAddrPsocNvl DataFetch.nvlByteLength f

/-- The latches that are written once. -/
def loadWriteOnceNvl (f : Fetcher) : List Byte × Fetcher :=
  fetchWord flashAddrPsocWol DataFetch.nvlByteLength f

/-- The checksum. -/
def loadChecksumData (f : Fetcher) : List Byte × Fetcher :=
  fetchWord flashAddrPsocChksum DataFetch.checksumByteLength f

end

/-! ## Taking words apart -/

omit [Board] in
/-- The bytes come lowest first. -/
theorem unpack_eq (n : ℕ) (data : Word) : unpack n data = (List.range n).map (byteAt data) := by
  induction n generalizing data with
  | zero => rfl
  | succ n ih =>
    rw [unpack, ih, List.range_succ_eq_map, List.map_cons, List.map_map]
    congr 1
    apply List.map_congr_left
    intro i _
    rw [byteAt, Function.comp_apply, byteAt, ← BitVec.shiftRight_add, Nat.mul_succ, Nat.add_comm]

/-- Byte `a` of the memory. -/
def imageByte (m : Mem) (a : ℕ) : Byte := byteAt (m.get (wordAddr (a / 4))) (a % 4)

/-- The image is in the cells. -/
theorem imageByte_congr {m m' : Mem} (h : m'.cells = m.cells) : imageByte m' = imageByte m := by
  funext a
  rw [imageByte, imageByte, Mem.get, Mem.get, h]

/-- In front of round `i` of a loop that started at word `b`: the pointer is at the next word,
and what is left of the last one is in `data`. -/
structure Unpacking (m : Mem) (b i : ℕ) (data : Word) (f : Fetcher) : Prop where
  cells : f.dev.mem.cells = m.cells
  rdP : f.dev.mem.rdP = wordAddr (b + (i + 3) / 4)
  data : i % 4 ≠ 0 → data = m.get (wordAddr (b + i / 4)) >>> (8 * (i % 4))

section
variable {m : Mem} {b i : ℕ} {data : Word} {f : Fetcher}

/-- A round that reads. -/
theorem Unpacking.read (h : Unpacking m b i data f) (hi : i % 4 = 0)
    (hfit : 4 * b + i + 4 < halfSize) :
    f.read.1 = m.get (wordAddr (b + i / 4)) ∧ f.read.2.dev.mem.cells = m.cells
      ∧ f.read.2.dev.mem.rdP = wordAddr (b + i / 4 + 1)
      ∧ f.read.2.reads = f.reads ++ [wordAddr (b + i / 4)] := by
  have hword : (i + 3) / 4 = i / 4 := by omega
  have hptr := h.rdP
  rw [hword] at hptr
  refine ⟨?_, h.cells, ?_, ?_⟩
  · show f.dev.mem.get f.dev.mem.rdP = _
    rw [Mem.get, Mem.get, h.cells, hptr]
  · show advance f.dev.mem.readWraps f.dev.mem.rdP = _
    rw [hptr]
    apply advance_wordAddr
    intro _
    omega
  · rw [Fetcher.read, hptr]

/-- One round. -/
theorem Unpacking.step (h : Unpacking m b i data f) (hfit : 4 * b + i + 4 < halfSize) :
    (fetchNext i data f).1.setWidth 8 = imageByte m (4 * b + i)
      ∧ Unpacking m b (i + 1) ((fetchNext i data f).1 >>> 8) (fetchNext i data f).2 := by
  have hword : (4 * b + i) / 4 = b + i / 4 := by omega
  have hbyte : (4 * b + i) % 4 = i % 4 := by omega
  rw [imageByte, hword, hbyte, fetchNext]
  by_cases hi : i % 4 = 0
  · obtain ⟨hdata, hcells, hptr, -⟩ := h.read hi hfit
    have hnext : (i + 1 + 3) / 4 = i / 4 + 1 := by omega
    have hsame : (i + 1) / 4 = i / 4 := by omega
    have hone : (i + 1) % 4 = 1 := by omega
    rw [if_pos hi, hdata, hi]
    refine ⟨?_, hcells, ?_, fun _ => ?_⟩
    · rw [byteAt, Nat.mul_zero, BitVec.ushiftRight_zero]
    · rw [hptr, hnext, Nat.add_assoc]
    · rw [hsame, hone]
  · have hdata := h.data hi
    rw [if_neg hi]
    refine ⟨?_, h.cells, ?_, fun hlast => ?_⟩
    · rw [hdata, byteAt]
    · have hnext : (i + 1 + 3) / 4 = (i + 3) / 4 := by omega
      rw [hnext, h.rdP]
    · have hsame : (i + 1) / 4 = i / 4 := by omega
      have hone : (i + 1) % 4 = i % 4 + 1 := by omega
      rw [hsame, hone, hdata, Nat.mul_succ, BitVec.shiftRight_add]

/-- The loop gives the bytes behind its start, in order. -/
theorem Unpacking.run (h : Unpacking m b i data f) (n : ℕ) (hfit : 4 * b + i + n + 4 ≤ halfSize) :
    (fetchLoop n i data f).1 = (List.range' (4 * b + i) n).map (imageByte m) := by
  induction n generalizing i data f with
  | zero => rfl
  | succ n ih =>
    obtain ⟨hfirst, hnext⟩ := h.step (by omega)
    rw [fetchLoop, List.range'_succ, List.map_cons, hfirst, ih hnext (by omega)]
    rfl

/-! ## Where the routines read -/

/-- The word at an address is one of those copied. -/
def InImage (a : Word) : Prop := flashAddrPsocConf.toNat ≤ a.toNat
  ∧ a.toNat + 4 ≤ flashAddrPsocConf.toNat + flashPsocSize.toNat

omit [Board] in
/-- The words of the image. -/
theorem inImage_wordAddr {k : ℕ} (hlo : flashAddrPsocConf.toNat ≤ 4 * k)
    (hhi : 4 * k + 4 ≤ flashAddrPsocConf.toNat + flashPsocSize.toNat) : InImage (wordAddr k) := by
  have hend : flashAddrPsocConf.toNat + flashPsocSize.toNat = 430128 := rfl
  have hval : (wordAddr k).toNat = 4 * k := wordAddr_toNat (by omega)
  rw [InImage, hval]
  exact ⟨hlo, hhi⟩

/-- The loop reads from the image only. -/
theorem Unpacking.reads (h : Unpacking m b i data f) (n : ℕ)
    (hlo : flashAddrPsocConf.toNat ≤ 4 * b)
    (hhi : 4 * b + 4 * ((i + n + 3) / 4) ≤ flashAddrPsocConf.toNat + flashPsocSize.toNat) :
    ∃ new, (fetchLoop n i data f).2.reads = f.reads ++ new ∧ ∀ a ∈ new, InImage a := by
  have hend : flashAddrPsocConf.toNat + flashPsocSize.toNat = 430128 := rfl
  have hhalf : halfSize = 16777216 := rfl
  induction n generalizing i data f with
  | zero => exact ⟨[], (List.append_nil _).symm, nofun⟩
  | succ n ih =>
    have hfit : 4 * b + i + 4 < halfSize := by omega
    have hcount : i + 1 + n + 3 = i + (n + 1) + 3 := by omega
    obtain ⟨new, hnew, hinside⟩ := ih (h.step hfit).2 (by rwa [hcount])
    by_cases hi : i % 4 = 0
    · have hread := (h.read hi hfit).2.2.2
      refine ⟨wordAddr (b + i / 4) :: new, ?_, ?_⟩
      · show (fetchLoop n (i + 1) _ (fetchNext i data f).2).2.reads = _
        rw [hnew, fetchNext, if_pos hi, hread, List.append_assoc, List.singleton_append]
      · intro a ha
        rcases List.mem_cons.mp ha with rfl | ha
        · exact inImage_wordAddr (by omega) (by omega)
        · exact hinside a ha
    · refine ⟨new, ?_, hinside⟩
      show (fetchLoop n (i + 1) _ (fetchNext i data f).2).2.reads = _
      rw [hnew, fetchNext, if_neg hi]

end

/-- The routines leave the memory alone. -/
theorem fetchLoop_cells (n i : ℕ) (data : Word) (f : Fetcher) :
    (fetchLoop n i data f).2.dev.mem.cells = f.dev.mem.cells := by
  induction n generalizing i data f with
  | zero => rfl
  | succ n ih =>
    rw [fetchLoop]
    dsimp only
    rw [ih, fetchNext]
    split
    · rfl
    · rfl

/-- A call of a routine at word `b`: the bytes from there on, read from the words they are in. -/
structure Fetched (b n : ℕ) (f : Fetcher) (r : List Byte × Fetcher) : Prop where
  bytes : r.1 = (List.range n).map fun i => imageByte f.dev.mem (4 * b + i)
  reads : ∃ new, r.2.reads = f.reads ++ new ∧ ∀ a ∈ new, InImage a

section
variable {b n : ℕ} (hlo : flashAddrPsocConf.toNat ≤ 4 * b)
include hlo

/-- The routines that read one word fetch its bytes. -/
theorem fetched_fetchWord (hn : n ≤ 4)
    (hhi : 4 * b + 4 ≤ flashAddrPsocConf.toNat + flashPsocSize.toNat) (f : Fetcher) :
    Fetched b n f (fetchWord (wordAddr b) n f) := by
  constructor
  · show unpack n (f.dev.mem.get (wordAddr b)) = _
    rw [unpack_eq]
    apply List.map_congr_left
    intro i hi
    have hi := List.mem_range.mp hi
    have hword : (4 * b + i) / 4 = b := by omega
    have hbyte : (4 * b + i) % 4 = i := by omega
    rw [imageByte, hword, hbyte]
  · refine ⟨[wordAddr b], rfl, fun a ha => ?_⟩
    rw [List.mem_singleton.mp ha]
    exact inImage_wordAddr hlo hhi

/-- The others fetch as many as they are asked for. -/
theorem fetched_fetchBytes
    (hhi : 4 * b + 4 * ((n + 3) / 4) ≤ flashAddrPsocConf.toNat + flashPsocSize.toNat)
    (f : Fetcher) : Fetched b n f (fetchBytes (wordAddr b) n f) := by
  have hend : flashAddrPsocConf.toNat + flashPsocSize.toNat = 430128 := rfl
  have hhalf : halfSize = 16777216 := rfl
  have hstart : Unpacking f.dev.mem b 0 0 (f.setRdP (wordAddr b)) := ⟨rfl, rfl, nofun⟩
  constructor
  · rw [fetchBytes, hstart.run n (by omega), List.range'_eq_map_range, List.map_map]
    rfl
  · apply hstart.reads n hlo
    rwa [Nat.zero_add]

end

/-! ## The copy -/

/-- `k` words of a copy from `start` on to word `b` of the memory are done. -/
structure CopyPass (chip : ℕ → Byte) (m : Word → Word) (start b k : ℕ) (s : State) : Prop where
  cells : s.mem.cells = LastWriter.written (fun i => wordCell (b + i))
    (fun i => flashWord chip start (4 * i)) m k
  wrP : s.mem.wrP = wordAddr (b + k)
  chip : s.flash.cells = chip
  reading : Reading start (4 * k) s.flash

section
variable {chip : ℕ → Byte} {m : Word → Word} {start b k : ℕ} {s : State}

/-- The next word is copied. -/
theorem CopyPass.step (h : CopyPass chip m start b k s) (hfit : 4 * (b + k + 1) < halfSize) :
    CopyPass chip m start b (k + 1) (memWrite (flashTransferWord s).1 (flashTransferWord s).2) := by
  obtain ⟨hword, hstate, hnext⟩ := h.reading.transferWord
  have hmem : (flashTransferWord s).2.mem = s.mem := by rw [hstate]
  have hdata : (flashTransferWord s).1 = flashWord chip start (4 * k) := by
    rw [hword, h.chip]
  constructor
  · show ((flashTransferWord s).2.mem.write (flashTransferWord s).1).cells = _
    rw [hmem, hdata, Mem.write_cells, h.wrP, h.cells, LastWriter.written_succ]
    funext c
    rw [Function.update_apply]
    rfl
  · show ((flashTransferWord s).2.mem.write (flashTransferWord s).1).wrP = _
    rw [hmem, Mem.write_wrP, h.wrP]
    exact advance_wordAddr fun _ => hfit
  · show (flashTransferWord s).2.flash.cells = _
    rw [hstate]
    exact h.chip
  · exact hnext

/-- And a run of words. -/
theorem CopyPass.run (h : CopyPass chip m start b k s) (n : ℕ)
    (hfit : 4 * (b + k + n) < halfSize) : CopyPass chip m start b (k + n) (flashReadWords n s) := by
  induction n generalizing k s with
  | zero => exact h
  | succ n ih =>
    have hrest := ih (h.step (by omega)) (by omega)
    rw [Nat.add_assoc, Nat.add_comm 1 n] at hrest
    exact hrest

end

/-- The memory holds the image. -/
def Copied (chip : ℕ → Byte) (f : Fetcher) : Prop :=
  ∀ a, flashAddrPsocConf.toNat ≤ a → a < flashAddrPsocConf.toNat + flashPsocSize.toNat →
    imageByte f.dev.mem a = chip a

end

section
variable [Dram]

/-- Every byte copied is the byte of the chip. -/
theorem flashRead_imageByte {s : State} (hidle : s.flash.busy = 0) {b : ℕ} {size flashAddr : Word}
    (hfit : 4 * b + size.toNat < halfSize) {i : ℕ} (hi : i < 4 * (size.toNat / 4)) :
    imageByte (flashRead (wordAddr b) size flashAddr s).mem (4 * b + i)
      = s.flash.cells ((flashAddr.toNat + i) % flashSize.toNat) := by
  obtain ⟨hreading, hchip, hmem⟩ :=
    reading_flashSendAddr (s := memSetWrP (wordAddr b) s) hidle flashAddr
  have hstart : CopyPass s.flash.cells s.mem.cells (flashAddr.toNat % flashSize.toNat) b 0
      (flashSendAddr flashOpReadData flashAddr (memSetWrP (wordAddr b) s)) := by
    refine ⟨?_, ?_, hchip, hreading⟩
    · rw [hmem]
      rfl
    · rw [hmem]
      rfl
  have hpass := hstart.run (size.toNat / 4) (by omega)
  rw [Nat.zero_add] at hpass
  have hinj : Set.InjOn (fun i => wordCell (b + i)) {i | i < size.toNat / 4} := by
    intro j (hj : j < _) j' (hj' : j' < _) hcell
    have hbound : memSize.toNat = 2 * halfSize := rfl
    have heq := wordCell_inj (by omega) (by omega) hcell
    omega
  have hword : (4 * b + i) / 4 = b + i / 4 := by omega
  have hbyte : (4 * b + i) % 4 = i % 4 := by omega
  have hlt : i / 4 < size.toNat / 4 := by omega
  have hget : (flashRead (wordAddr b) size flashAddr s).mem.get (wordAddr (b + i / 4))
      = flashWord s.flash.cells (flashAddr.toNat % flashSize.toNat) (4 * (i / 4)) := by
    show (flashReadWords (size.toNat / 4) _).mem.cells (wordCell (b + i / 4)) = _
    rw [hpass.cells, LastWriter.written_cell _ _ _ hlt, LastWriter.lastWriter_of_injOn _ hinj hlt]
  rw [imageByte, hword, hbyte, hget, byteAt_flashWord _ _ _ (Nat.mod_lt i (by decide)), flashByte,
    Nat.div_add_mod, Nat.mod_add_mod]

/-- `flash_read` copies the image to where it is in the flash. -/
theorem copied_flashRead {s : State} (hidle : s.flash.busy = 0) (reads : List Word) :
    Copied s.flash.cells
      ⟨flashRead flashAddrPsocConf flashPsocSize flashAddrPsocConf s, reads⟩ := by
  intro a hlo hhi
  have hconf : flashAddrPsocConf.toNat = 393216 := rfl
  have hsize : flashPsocSize.toNat = 36912 := rfl
  have hend : flashSize.toNat = 524288 := rfl
  have hhalf : halfSize = 16777216 := rfl
  rw [hconf] at hlo hhi
  rw [hsize] at hhi
  have hbyte : imageByte (flashRead (wordAddr 98304) flashPsocSize flashAddrPsocConf s).mem
        (4 * 98304 + (a - 393216))
      = s.flash.cells ((flashAddrPsocConf.toNat + (a - 393216)) % flashSize.toNat) :=
    flashRead_imageByte hidle (by omega) (by omega)
  have haddr : 4 * 98304 + (a - 393216) = a := by omega
  have hcell : (flashAddrPsocConf.toNat + (a - 393216)) % flashSize.toNat = a := by
    rw [hconf, hend]
    omega
  rw [haddr, hcell] at hbyte
  exact hbyte

end

/-! ## Fetching from the copy -/

/-- A call of a routine of `DataFetch.c`. -/
inductive FetchCall
  | deviceJtagId | deviceConfigNvl | writeOnceNvl | checksumData
  | flashRowData (rowNumber rowByteSize : BitVec 16)
  | flashProtectionData (protectionByteSize : BitVec 16)

namespace FetchCall

section
variable [Board] [DataFetch]

/-- The routine behind a call. -/
def load : FetchCall → Fetcher → List Byte × Fetcher
  | deviceJtagId => loadDeviceJtagId
  | deviceConfigNvl => loadDeviceConfigNvl
  | writeOnceNvl => loadWriteOnceNvl
  | checksumData => loadChecksumData
  | flashRowData rowNumber rowByteSize => loadFlashRowData rowNumber rowByteSize
  | flashProtectionData protectionByteSize => loadFlashProtectionData protectionByteSize

end

/-- Where the bytes asked for are in the flash chip. -/
def start : FetchCall → ℕ
  | deviceJtagId => 0x60000
  | checksumData => 0x60004
  | deviceConfigNvl => 0x60008
  | writeOnceNvl => 0x6000C
  | flashProtectionData _ => 0x60010
  | flashRowData rowNumber _ => 0x60030 + 288 * rowNumber.toNat

/-- How many bytes are asked for. -/
def count [DataFetch] : FetchCall → ℕ
  | deviceJtagId => DataFetch.jtagIdByteLength
  | deviceConfigNvl | writeOnceNvl => DataFetch.nvlByteLength
  | checksumData => DataFetch.checksumByteLength
  | flashRowData _ rowByteSize => rowByteSize.toNat
  | flashProtectionData protectionByteSize => protectionByteSize.toNat

/-- Everything starts at a word. -/
theorem four_mul_start (c : FetchCall) : 4 * (c.start / 4) = c.start := by
  cases c with
  | flashRowData rowNumber rowByteSize =>
    simp only [start]
    omega
  | _ => simp only [start]

/-- The parts of the image. -/
def InRange : FetchCall → Prop
  | flashRowData rowNumber rowByteSize => rowNumber.toNat < 128 ∧ rowByteSize.toNat ≤ 288
  | flashProtectionData protectionByteSize => protectionByteSize.toNat ≤ 32
  | _ => True

section
variable [DataFetch]

/-- The words asked for are those of the image. -/
theorem InRange.fits {c : FetchCall} (hc : c.InRange) : flashAddrPsocConf.toNat ≤ c.start
    ∧ c.start + 4 * ((c.count + 3) / 4) ≤ flashAddrPsocConf.toNat + flashPsocSize.toNat := by
  have hconf : flashAddrPsocConf.toNat = 393216 := rfl
  have hend : flashAddrPsocConf.toNat + flashPsocSize.toNat = 430128 := rfl
  have hjtag := DataFetch.jtagIdByteLength_le
  have hnvl := DataFetch.nvlByteLength_le
  have hchksum := DataFetch.checksumByteLength_le
  rw [hend, hconf]
  cases c <;> simp only [InRange, start, count] at hc ⊢ <;> omega

variable [Board]

/-- Each call fetches its part of the image. -/
theorem fetched {c : FetchCall} (hc : c.InRange) (f : Fetcher) :
    Fetched (c.start / 4) c.count f (c.load f) := by
  obtain ⟨hlo, hhi⟩ := hc.fits
  rw [← four_mul_start c] at hlo hhi
  cases c with
  | deviceJtagId =>
    exact fetched_fetchWord hlo DataFetch.jtagIdByteLength_le (by decide) f
  | deviceConfigNvl => exact fetched_fetchWord hlo DataFetch.nvlByteLength_le (by decide) f
  | writeOnceNvl => exact fetched_fetchWord hlo DataFetch.nvlByteLength_le (by decide) f
  | checksumData => exact fetched_fetchWord hlo DataFetch.checksumByteLength_le (by decide) f
  | flashRowData rowNumber rowByteSize =>
    have haddr : flashAddrPsocFlash + rowNumber.setWidth 32 * flashPsocRowSize
        = wordAddr ((flashRowData rowNumber rowByteSize).start / 4) := by
      have hend : flashAddrPsocConf.toNat + flashPsocSize.toNat = 430128 := rfl
      have hbase : flashAddrPsocFlash.toNat = 393264 := rfl
      have hsize : flashPsocRowSize.toNat = 288 := rfl
      apply BitVec.eq_of_toNat_eq
      rw [wordAddr_toNat (by omega), four_mul_start, BitVec.toNat_add, BitVec.toNat_mul,
        BitVec.toNat_setWidth, hbase, hsize, start]
      omega
    show Fetched _ _ f (fetchBytes _ _ f)
    rw [haddr]
    exact fetched_fetchBytes hlo hhi f
  | flashProtectionData protectionByteSize =>
    have haddr : flashAddrPsocProtect
        = wordAddr ((flashProtectionData protectionByteSize).start / 4) := by
      rw [start]
      rfl
    show Fetched _ _ f (fetchBytes _ _ f)
    rw [haddr]
    exact fetched_fetchBytes hlo hhi f

/-- A part of the image is fetched as it is in the chip, and the memory still holds it. -/
theorem load_exact {chip : ℕ → Byte} {f : Fetcher} (hf : Copied chip f) {c : FetchCall}
    (hc : c.InRange) : (c.load f).1 = (List.range c.count).map (fun i => chip (c.start + i))
      ∧ ∃ new, (c.load f).2.reads = f.reads ++ new ∧ ∀ a ∈ new, InImage a := by
  obtain ⟨hlo, hhi⟩ := hc.fits
  have hfetched := fetched hc f
  refine ⟨?_, hfetched.reads⟩
  rw [hfetched.bytes, four_mul_start]
  apply List.map_congr_left
  intro i hi
  have hi := List.mem_range.mp hi
  exact hf _ (by omega) (by omega)

/-- Fetching does not write. -/
theorem cells_load (c : FetchCall) (f : Fetcher) :
    (c.load f).2.dev.mem.cells = f.dev.mem.cells := by
  cases c with
  | flashRowData => exact fetchLoop_cells _ 0 0 _
  | flashProtectionData => exact fetchLoop_cells _ 0 0 _
  | _ => rfl

/-- Whatever has been fetched before. -/
theorem copied_loads {chip : ℕ → Byte} {f : Fetcher} (hf : Copied chip f) (calls : List FetchCall) :
    Copied chip (calls.foldl (fun f c => (c.load f).2) f) := by
  induction calls generalizing f with
  | nil => exact hf
  | cons c calls ih =>
    apply ih
    intro a hlo hhi
    rw [imageByte_congr (cells_load c f)]
    exact hf a hlo hhi

end

end FetchCall

section
variable [Dram] [HostProtocol] [DataFetch]

/-- The programmer of `psoc_flash_device` after the routines `calls`. -/
def psocFetch (calls : List FetchCall) (s : State) : Fetcher :=
  calls.foldl (fun f c => (c.load f).2) ⟨(mainStep .psocCall s).2, []⟩

/-- **The image is fetched as it is.** In every state of a run that started with an idle chip,
whatever `psoc_flash_device` has fetched so far: each part is fetched byte for byte as it is in
the chip, and only words that have been copied are read. -/
theorem psoc_fetch_exact {y : Sys} (hidle : y.fw.dev.flash.busy = 0) (evs : List Event)
    (calls : List FetchCall) {c : FetchCall} (hc : c.InRange) :
    let s := (Run.run Sys.step y evs).fw.dev
    let f := psocFetch calls s
    (c.load f).1 = (List.range c.count).map (fun i => s.flash.cells (c.start + i))
      ∧ ∃ new, (c.load f).2.reads = f.reads ++ new ∧ ∀ a ∈ new, InImage a := by
  intro s f
  have hcopied : Copied s.flash.cells ⟨(mainStep .psocCall s).2, []⟩ :=
    copied_flashRead (idle_run hidle evs) []
  exact FetchCall.load_exact (FetchCall.copied_loads hcopied calls) hc

end

/-- The lengths in the map of `flash.h`. -/
@[reducible]
def mapLengths : DataFetch where
  jtagIdByteLength := 4
  nvlByteLength := 4
  checksumByteLength := 2
  jtagIdByteLength_le := Nat.le_refl 4
  nvlByteLength_le := Nat.le_refl 4
  checksumByteLength_le := by decide

/-- The last row of the image, after the checksum and a part of the protection data. -/
theorem psoc_fetch_exact_last_row :
    letI := plainDram
    letI := plainProtocol
    letI := mapLengths
    let s := (Run.run Sys.step (Sys.boot bootState) [.main, .data]).fw.dev
    let f := psocFetch [.checksumData, .flashProtectionData 7] s
    let c := FetchCall.flashRowData 127 288
    (c.load f).1 = (List.range c.count).map (fun i => s.flash.cells (c.start + i))
      ∧ ∃ new, (c.load f).2.reads = f.reads ++ new ∧ ∀ a ∈ new, InImage a := by
  let := plainDram
  let := plainProtocol
  let := mapLengths
  exact @psoc_fetch_exact plainDram plainProtocol mapLengths (Sys.boot bootState) rfl
    [.main, .data] [.checksumData, .flashProtectionData 7] (.flashRowData 127 288)
    ⟨by decide, by decide⟩

end HbcMac
