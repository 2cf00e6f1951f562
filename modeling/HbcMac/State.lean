import HbcMac.Hardware

/-!
# The state of the firmware

The static variables of `extract_rx.c`, `spi.c` and `main.c`, next to the devices.
Counters that only ever count down from a stored value are `ℕ`; addresses and the other
`int` and `uint32_t` variables are 32-bit words.
-/

namespace HbcMac

/-! ## `build_tx.h` -/

/-- `plcp_header_t`. The enumerations are stored as the host sends them, so they are words. -/
structure PlcpHeader where
  dataRate : Word
  pilotInfo : Word
  burstMode : Word
  useRi : Word
  scramblerSeed : Word
  pdsuLength : Byte
  crc8 : Byte
  deriving DecidableEq

/-! ## `extract_rx.c` -/

/-- `rx_state`: between packets, or inside one. -/
inductive RxState
  | packetInit | packetReading
  deriving DecidableEq

/-- The static variables of the receiver: the two cursors in the ring, the packet being written, and
the marker and header cached from the packet at the read cursor. -/
structure RxVars where
  rdBufAddr : Word
  wrBufAddr : Word
  wrBytes : Word
  packetReady : Word
  rdPacketAddr : Word
  wrPacketAddr : Word
  rdPacketHeader : Word
  rdPacketMarker : Word
  rxState : RxState
  deriving DecidableEq

/-! ## `spi.c` -/

/-- `data_status`, and the words `rd_data` and `wr_data` kept by the two handlers. -/
structure SpiVars where
  loadAddr : Word
  dumpAddr : Word
  loadingMem : ℕ
  dumpingMem : ℕ
  dumpHbcRx : Bool
  loadIndex : ℕ
  dumpIndex : ℕ
  ackData : Word
  ackBytes : ℕ
  replyBytes : ℕ
  replySize : ℕ
  replyData : Word
  rdData : Word
  wrData : Word
  deriving DecidableEq

/-! ## `main.c` -/

/-- The variables shared by the main loop and `ctrl_cmd`. -/
structure MainVars where
  sendPacket : Word
  txFlood : Word
  rxFlood : Word
  txPending : Word
  pktAddr : Word
  rxAuto : Word
  txAuto : Word
  doPsocFlash : Word
  loopback : Word
  headerInfo : PlcpHeader
  flashAddr : Word
  toggle : Bool
  deriving DecidableEq

/-- The devices and the variables of the firmware, with the trace of its output. -/
structure State where
  mem : Mem
  scram : Scrambler
  rxFifo : RxFifo
  txFifo : TxFifo
  flash : FlashChip
  /-- The `IRQ_GPI` input port, as `CMD_IRQ_STATUS_READ` reports it. -/
  gpi : Word
  out : List Out
  rx : RxVars
  spi : SpiVars
  main : MainVars

namespace State

/-- An output register is written, or its flag read. -/
def emit (o : Out) (s : State) : State := { s with out := s.out ++ [o] }

/-- `GPO_SET`. -/
def gpoSet (line : Gpo) (s : State) : State := s.emit (.gpo line true)

/-- `GPO_CLEAR`. -/
def gpoClear (line : Gpo) (s : State) : State := s.emit (.gpo line false)

/-- `GPO_SET` followed by `GPO_CLEAR`. -/
def pulse (line : Gpo) (s : State) : State := (s.gpoSet line).gpoClear line

end State

/-! ## `mem.c` -/

/-- The address a pointer moves to after an access: the next word, which with the 16M wrap
flag set stays in the same 16 MiB half. -/
def advance (wrap : Bool) (p : Word) : Word :=
  if wrap then BitVec.ofNat 32 (p.toNat / halfSize * halfSize + (p.toNat + 4) % halfSize)
  else p + 4

namespace Mem

variable [Board]

/-- The flag of the read pointer. -/
def readWraps (m : Mem) : Bool := m.flags &&& memReadWrap16M != 0
/-- The flag of the write pointer. -/
def writeWraps (m : Mem) : Bool := m.flags &&& memWriteWrap16M != 0

/-- The word at an address. -/
def get (m : Mem) (p : Word) : Word := m.cells (Board.cell p)

/-- A word goes where the write pointer is, which moves on. -/
def write (v : Word) (m : Mem) : Mem :=
  { m with
    cells := fun c => if c = Board.cell m.wrP then v else m.cells c
    wrP := advance m.writeWraps m.wrP
    log := m.log ++ [(m.wrP, v)] }

end Mem

section
variable [Board]

/-- `mem_set_wr_p`. -/
def memSetWrP (data : Word) (s : State) : State := { s with mem.wrP := data }

/-- `mem_set_rd_p`. -/
def memSetRdP (data : Word) (s : State) : State := { s with mem.rdP := data }

/-- `mem_set_flags`. -/
def memSetFlags (flags : Byte) (s : State) : State := { s with mem.flags := flags }

/-- `mem_get_flags`. -/
def memGetFlags (s : State) : Byte := s.mem.flags

/-- `mem_write`, which is through when it returns. -/
def memWrite (data : Word) (s : State) : State := { s with mem := s.mem.write data }

/-- `mem_read`: the word the read pointer is at, which moves on. -/
def memRead (s : State) : Word × State :=
  (s.mem.get s.mem.rdP, { s with mem.rdP := advance s.mem.readWraps s.mem.rdP })

/-! ## `scrambler.c` -/

/-- `scrambler_read`: the next word of the keystream. -/
def scramblerRead (s : State) : Word × State :=
  (Board.keystream s.scram.seed s.scram.pos, { s with scram.pos := s.scram.pos + 1 })

/-- `scrambler_reseed`: only whether the seed is zero reaches the hardware. -/
def scramblerReseed (seed : Word) (s : State) : State :=
  { s with scram := { seed := seed != 0, pos := 0 } }

/-! ## `mem_test` -/

/-- The write pass: `n` keystream words to successive addresses. -/
def memTestWrite : ℕ → State → State
  | 0, s => s
  | n + 1, s =>
    let r := scramblerRead s
    memTestWrite n (memWrite r.1 r.2)

/-- The read pass, counting the words that differ from the keystream. -/
def memTestRead : ℕ → Word → State → Word × State
  | 0, errors, s => (errors, s)
  | n + 1, errors, s =>
    let m := memRead s
    let k := scramblerRead m.2
    memTestRead n (if m.1 ≠ k.1 then errors + 1 else errors) k.2

/-- `mem_test` without the wrap flags, which it puts back at the end. -/
def memTest (bytes : Word) (s : State) : Byte × State :=
  let flags := memGetFlags s
  let s := memSetFlags 0 s
  let s := memSetWrP 0 s
  let s := scramblerReseed 0 s
  let s := memTestWrite (bytes.toNat / 4) s
  let s := memSetRdP 0 s
  let s := memSetWrP 0 s
  let s := scramblerReseed 0 s
  let r := memTestRead (bytes.toNat / 4) 0 s
  let s := memSetRdP 0 r.2
  let s := memSetWrP 0 s
  let s := scramblerReseed 0 s
  let s := memSetFlags flags s
  (if r.1 > 0xff then 0xff else r.1.setWidth 8, s)

end

end HbcMac
