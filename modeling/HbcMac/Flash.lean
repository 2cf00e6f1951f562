import HbcMac.State

/-!
# `flash.c`

The functions of `flash.c` over an M25P40: a chip that collects the bytes shifted in while
it is selected, answers status and data reads as they come, and carries out write enable,
sector erase and page program when it is deselected.
-/

namespace HbcMac

/-! ## Constants of `flash.h` -/

/-- `FLASH_SIZE`, the bytes of the array. -/
def flashSize : Word := 512 * 1024
/-- `PAGE_SIZE`, what a program operation can reach. -/
def pageSize : ℕ := 256
/-- `SECTOR_SIZE`, what an erase operation clears. -/
def sectorSize : ℕ := 256 * 256

/-- `FLASH_ADDR_PSOC_CONF`, where the image for the PSoC is kept. -/
def flashAddrPsocConf : Word := 0x60000
/-- `FLASH_PSOC_SIZE`, the bytes of that image. -/
def flashPsocSize : Word := 36912

/-- The opcode that sets the write enable latch. -/
def flashOpWriteEnable : Byte := 0x06
/-- The opcode behind which the status is shifted out. -/
def flashOpReadStatus : Byte := 0x05
/-- The opcode behind which, with an address, the array is shifted out. -/
def flashOpReadData : Byte := 0x03
/-- The opcode that programs bytes in one page. -/
def flashOpPageProgram : Byte := 0x02
/-- The opcode that erases one sector. -/
def flashOpSectorErase : Byte := 0xD8

/-- The status bit of an operation in progress. -/
def flashStatusWip : Byte := 0x01
/-- The status bit of the write enable latch. -/
def flashStatusWel : Byte := 0x02

/-! ## The chip -/

namespace FlashChip

/-- The 24-bit address behind an opcode; the chip decodes the low 19 bits. -/
def address : List Byte → ℕ
  | [hi, mid, lo] => (hi.toNat * 65536 + mid.toNat * 256 + lo.toNat) % flashSize.toNat
  | _ => 0

/-- The status register. -/
def status (c : FlashChip) : Byte :=
  (if c.busy = 0 then 0 else flashStatusWip) ||| (if c.wel then flashStatusWel else 0)

/-- The byte the chip shifts out while it receives the byte after `c.shifted`. -/
def answer (c : FlashChip) : Byte :=
  match c.shifted with
  | [] => 0
  | opcode :: args =>
    if opcode = flashOpReadStatus then c.status
    else if opcode = flashOpReadData ∧ c.busy = 0 ∧ 3 ≤ args.length then
      c.cells ((address (args.take 3) + (args.length - 3)) % flashSize.toNat)
    else 0

/-- One byte exchanged. Time passes for a busy chip when its status is read. -/
def transfer (data : Byte) (c : FlashChip) : Byte × FlashChip :=
  let polled := c.shifted.head? = some flashOpReadStatus
  (c.answer, { c with
    shifted := c.shifted ++ [data]
    busy := if polled then c.busy - 1 else c.busy })

/-- Starts an operation: the latch is cleared and the chip is busy for a while. -/
def startOp (c : FlashChip) (cells : ℕ → Byte) : FlashChip :=
  { c with cells := cells, wel := false, busy := c.busyFor.headD 0, busyFor := c.busyFor.tail }

/-- The array with sector `n` erased. -/
def erased (cells : ℕ → Byte) (n : ℕ) : ℕ → Byte :=
  fun i => if i / sectorSize = n then 0xFF else cells i

/-- The array after the bytes `data` have been programmed from offset `i` of page `n`,
wrapping inside the page. -/
def programmed (cells : ℕ → Byte) (n : ℕ) : ℕ → List Byte → ℕ → Byte
  | _, [] => cells
  | i, b :: data =>
    let cell := n * pageSize + i % pageSize
    programmed (fun j => if j = cell then cells j &&& b else cells j) n (i + 1) data

/-- What the chip does when it is deselected. -/
def execute (c : FlashChip) : FlashChip :=
  match c.shifted with
  | [] => c
  | opcode :: args =>
    let ready := c.wel && c.busy = 0
    if opcode = flashOpWriteEnable then { c with wel := c.wel || c.busy = 0 }
    else if opcode = flashOpSectorErase ∧ args.length = 3 then
      let sector := address args / sectorSize
      let c := { c with ops := c.ops ++ [.sectorErase sector ready] }
      if ready then c.startOp (erased c.cells sector) else c
    else if opcode = flashOpPageProgram ∧ 3 < args.length then
      let start := address (args.take 3)
      let c := { c with ops := c.ops ++ [.pageProgram (start / pageSize) ready] }
      if ready then
        c.startOp (programmed c.cells (start / pageSize) (start % pageSize) (args.drop 3))
      else c
    else c

/-- The chip is selected, with nothing shifted in. -/
def select (c : FlashChip) : FlashChip := { c with shifted := [] }

/-- The chip is deselected and carries out what has been shifted in. -/
def deselect (c : FlashChip) : FlashChip := c.execute.select

end FlashChip

/-! ## Transfers -/

/-- `flash_transfer`, one byte each way. -/
def flashTransfer (data : Byte) (s : State) : Byte × State :=
  let r := s.flash.transfer data
  (r.1, { s with flash := r.2 })

/-- A transfer whose answer is not used. -/
def flashSend (data : Byte) (s : State) : State := (flashTransfer data s).2

/-- `flash_start`. -/
def flashStart (s : State) : State := { s with flash := s.flash.select }

/-- `flash_end`. -/
def flashEnd (s : State) : State := { s with flash := s.flash.deselect }

/-- Four transfers assembled into a little-endian word. -/
def flashTransferWord (s : State) : Word × State :=
  let r0 := flashTransfer 0x00 s
  let r1 := flashTransfer 0x00 r0.2
  let r2 := flashTransfer 0x00 r1.2
  let r3 := flashTransfer 0x00 r2.2
  (r0.1.setWidth 32 ||| r1.1.setWidth 32 <<< 8 ||| r2.1.setWidth 32 <<< 16
    ||| r3.1.setWidth 32 <<< 24, r3.2)

/-- An opcode and a 24-bit address. -/
def flashSendAddr (opcode : Byte) (flashAddr : Word) (s : State) : State :=
  let s := flashSend opcode (flashStart s)
  let s := flashSend ((flashAddr >>> 16).setWidth 8) s
  let s := flashSend ((flashAddr >>> 8).setWidth 8) s
  flashSend (flashAddr.setWidth 8) s

/-- `flash_write_enable`, before each operation. -/
def flashWriteEnable (s : State) : State :=
  flashEnd (flashSend flashOpWriteEnable (flashStart s))

/-- `flash_read_status`. -/
def flashReadStatus (s : State) : Byte × State :=
  let s := flashSend flashOpReadStatus (flashStart s)
  let r := flashTransfer 0x00 s
  (r.1, flashEnd r.2)

/-- `while (flash_read_status() & FLASH_STATUS_WIP) {}`; `n` bounds the number of polls. -/
def flashPoll : ℕ → State → State
  | 0, s => s
  | n + 1, s =>
    let r := flashReadStatus s
    if r.1 &&& flashStatusWip ≠ 0 then flashPoll n r.2 else r.2

/-- The wait loop, which a chip busy for `n` polls leaves at the next one. -/
def flashWaitIdle (s : State) : State := flashPoll (s.flash.busy + 1) s

/-! ## Erase, read, verify and write -/

/-- The page an address is in. -/
def flashMemToPage (flashAddr : Word) : Word := flashAddr / 256

/-- The sector an address is in. -/
def flashMemToSector (flashAddr : Word) : Word := flashAddr / 65536

/-- The pages that `size` bytes from the start of a page take up. -/
def flashNumPages (size : Word) : Word := if size % 256 ≠ 0 then size / 256 + 1 else size / 256

/-- The sectors that `size` bytes from the start of a sector take up. -/
def flashNumSectors (size : Word) : Word :=
  if size % 65536 ≠ 0 then size / 65536 + 1 else size / 65536

/-- `while (num--)`, with the sector as the `int` it is. -/
def flashSectorErase : ℕ → Word → State → State
  | 0, _, s => s
  | num + 1, sector, s =>
    let s := flashWriteEnable s
    let s := flashSend flashOpSectorErase (flashStart s)
    let s := flashSend (sector.setWidth 8) s
    let s := flashSend 0 (flashSend 0 s)
    flashSectorErase num (sector + 1) (flashWaitIdle (flashEnd s))

section
variable [Board]

/-- The copying loop of `flash_read`. -/
def flashReadWords : ℕ → State → State
  | 0, s => s
  | n + 1, s =>
    let r := flashTransferWord s
    flashReadWords n (memWrite r.1 r.2)

/-- `flash_read`: whole words go from the array to the memory. -/
def flashRead (memAddr size flashAddr : Word) (s : State) : State :=
  let s := memSetWrP memAddr s
  let s := flashSendAddr flashOpReadData flashAddr s
  flashEnd (flashReadWords (size.toNat / 4) s)

/-- The comparison loop; `retval` is `-1` after the first word that differs. -/
def flashVerifyWords : ℕ → Word → State → Word × State
  | 0, retval, s => (retval, s)
  | n + 1, retval, s =>
    let r := flashTransferWord s
    let m := memRead r.2
    flashVerifyWords n (if r.1 ≠ m.1 then -1 else retval) m.2

/-- `flash_verify`: whole words of the array are compared with the memory. -/
def flashVerify (memAddr size flashAddr : Word) (s : State) : Word × State :=
  let s := memSetRdP memAddr s
  let s := flashSendAddr flashOpReadData flashAddr s
  let r := flashVerifyWords (size.toNat / 4) 0 s
  (r.1, flashEnd r.2)

/-- The words of one page. -/
def flashPageWords : ℕ → State → State
  | 0, s => s
  | n + 1, s =>
    let m := memRead s
    let s := flashSend (m.1.setWidth 8) m.2
    let s := flashSend ((m.1 >>> 8).setWidth 8) s
    let s := flashSend ((m.1 >>> 16).setWidth 8) s
    flashPageWords n (flashSend ((m.1 >>> 24).setWidth 8) s)

/-- `while (pages--)`. -/
def flashProgramPages : ℕ → Word → State → State
  | 0, _, s => s
  | pages + 1, page, s =>
    let s := flashWriteEnable s
    let s := flashSend flashOpPageProgram (flashStart s)
    let s := flashSend ((page >>> 8).setWidth 8) s
    let s := flashSend 0 (flashSend (page.setWidth 8) s)
    let s := flashEnd (flashPageWords (pageSize / 4) s)
    flashProgramPages pages (page + 1) (flashWaitIdle s)

/-- `flash_write`: the sectors that `size` bytes need are erased from that of the address on, and
whole pages are programmed from its page on. -/
def flashWrite (memAddr size flashAddr : Word) (s : State) : State :=
  let s := flashSectorErase (flashNumSectors size).toNat (flashMemToSector flashAddr) s
  let s := memSetRdP memAddr s
  flashProgramPages (flashNumPages size).toNat (flashMemToPage flashAddr) s

end

end HbcMac
