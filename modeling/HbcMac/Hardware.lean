import HbcMac.Lib.LittleEndian
import Mathlib.Algebra.Group.Nat.Defs

/-!
# The board around the firmware

The devices the firmware drives through `XIOModule_*` calls: the DRAM with its two
auto-incrementing pointers, the scrambler, the FIFOs, the flash chip and the output
registers. What the sources rely on but do not define is collected in `Board`.

Every output write is appended to the trace `State.out`, every DRAM write to `Mem.log`.
-/

namespace HbcMac

open LittleEndian

/-- `uint8_t`. -/
abbrev Byte := BitVec 8
/-- `uint32_t`, and `int` where the sources only add, compare and mask. -/
abbrev Word := BitVec 32

/-! ## Constants of `mem.h` -/

/-- `MEM_SIZE`, the 32 MiB of the DRAM. -/
def memSize : Word := 1024 * 1024 * 32
/-- `MEM_RX_BUF`, where the receive ring begins. -/
def memRxBuf : Word := memSize / 2
/-- `MEM_TX_MASK`, which takes an address into the transmit half. -/
def memTxMask : Word := memRxBuf - 1

/-- `MEM_READ_WRAP_16M`: the read pointer stays in its half. -/
def memReadWrap16M : Byte := 0x02
/-- `MEM_WRITE_WRAP_16M`: the write pointer does. -/
def memWriteWrap16M : Byte := 0x01

/-- Bytes in one of the two circular buffers. -/
def halfSize : ℕ := 2 ^ 24

/-- The memory is two buffers. -/
@[simp] theorem memSize_toNat : memSize.toNat = 2 * halfSize := rfl
@[simp] theorem memRxBuf_toNat : memRxBuf.toNat = halfSize := rfl

/-! ## The parts the sources leave open -/

/-- The hardware parameters. The scrambler output depends only on whether the seed was
non-zero and on the number of reads since; `cell` is the DRAM cell an address selects. -/
class Board where
  keystream : Bool → ℕ → Word
  cell : Word → Word

/-- A board whose DRAM gives every word address below `MEM_SIZE` a cell of its own. -/
class Dram extends Board where
  cell_inj : ∀ p q : Word, p.toNat < memSize.toNat → q.toNat < memSize.toNat →
    4 ∣ p.toNat → 4 ∣ q.toNat → cell p = cell q → p = q

/-- A board whose cells are the addresses and whose scrambler is silent. -/
@[reducible]
def plainDram : Dram where
  keystream _ _ := 0
  cell := id
  cell_inj _ _ _ _ _ _ h := h

/-! ## Devices -/

/-- The DRAM, its two pointers and their flags. -/
structure Mem where
  cells : Word → Word
  rdP : Word
  wrP : Word
  flags : Byte
  /-- Every write so far, with the address the write pointer held. -/
  log : List (Word × Word)

/-- The scrambler: the seed it was started with, and the words read since. -/
structure Scrambler where
  seed : Bool
  pos : ℕ

/-- The receive FIFO: the words in it, and the words that arrive just before each of the
next reads of its `IRQ_RX_DATA_READY` flag. -/
structure RxFifo where
  words : List Word
  arrivals : List (List Word)

/-- The transmit FIFO: the `triggered` flag of `fifo.c`, and for each of the next blocking
writes the number of times its wait loop finds the FIFO almost full. -/
structure TxFifo where
  triggered : Bool
  fullPolls : List ℕ

/-- Output lines set through `GPO_SET` and `GPO_CLEAR`. -/
inductive Gpo
  | hbcDataInt | hbcCtrlInt | hbcTxTrigger | hbcTxFlush | hbcRxPktAck | hbcRxEnable
  | hbcDataSwitch | led1Bit
  deriving DecidableEq

/-- One access to an output register, or one read of the `IRQ_TX_FIFO_ALMOST_FULL` flag. -/
inductive Out
  | gpo (line : Gpo) (level : Bool)
  | data (b : Byte)
  | fifo (w : Word)
  | fifoSize (b : Byte)
  | modulate (w : Word)
  | modulateSf (b : Byte)
  | txFull (b : Bool)
  deriving DecidableEq

/-- What a flash operation did to the array. -/
inductive FlashOp
  | sectorErase (sector : ℕ) (accepted : Bool)
  | pageProgram (page : ℕ) (accepted : Bool)
  deriving DecidableEq

/-- The serial flash chip: `shifted` are the bytes received since it was selected, `busy`
the number of status reads that will still report an operation in progress, `busyFor` the
durations of the next operations. -/
structure FlashChip where
  cells : ℕ → Byte
  wel : Bool
  busy : ℕ
  busyFor : List ℕ
  shifted : List Byte
  ops : List FlashOp

end HbcMac
