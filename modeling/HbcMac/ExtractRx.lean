import HbcMac.BuildTx

/-!
# `extract_rx.c`

Received packets are kept in the upper half of the DRAM, each behind a marker word with
its size in bytes; the marker is `-1` while the packet is being received.
-/

namespace HbcMac

section
variable [Board]

/-! ## Reader -/

/-- `read_headers`: marker and header of the packet at the read cursor are cached. -/
def readHeaders (s : State) : State :=
  let s := memSetRdP s.rx.rdPacketAddr s
  let r := memRead s
  let s := { r.2 with rx.rdPacketMarker := r.1 }
  let r := memRead s
  { r.2 with rx.rdPacketHeader := r.1 }

/-- The step shared by `inc_rd_buf` and `inc_wr_buf`. -/
def ringNext (addr : Word) : Word := if addr + 4 = memSize then memRxBuf else addr + 4

/-- `inc_rd_buf`. -/
def incRdBuf (s : State) : State := { s with rx.rdBufAddr := ringNext s.rx.rdBufAddr }

/-- `inc_wr_buf`. -/
def incWrBuf (s : State) : State := { s with rx.wrBufAddr := ringNext s.rx.wrBufAddr }

/-- `rx_packet_ready`: reading begins anew at the packet, and the counter is returned. -/
def rxPacketReady (s : State) : Word × State :=
  let s := readHeaders s
  let s := { s with rx.rdBufAddr := s.rx.rdPacketAddr }
  (s.rx.packetReady, s)

/-- `rx_packet_length`, the length announced in the cached header. -/
def rxPacketLength (s : State) : Byte := (hdrRead s.rx.rdPacketHeader hdrLenMask hdrLenShift).setWidth 8

/-- `rx_bytes_read`: the marker less its own word and the header. -/
def rxBytesRead (s : State) : Word := s.rx.rdPacketMarker - 8

/-- The CRC over the four header bytes, which is zero for an intact header. -/
def headerCrc (header : Word) : Byte :=
  let crc := crc8Init
  let crc := crc8Update crc ((header >>> 0).setWidth 8)
  let crc := crc8Update crc ((header >>> 8).setWidth 8)
  let crc := crc8Update crc ((header >>> 16).setWidth 8)
  crc8Update crc ((header >>> 24).setWidth 8)

/-- `rx_check_crc_ok`. -/
def rxCheckCrcOk (s : State) : Bool := headerCrc s.rx.rdPacketHeader = 0

/-- `rx_read`: the word at the read cursor, by way of the read pointer of the DRAM. -/
def rxRead (s : State) : Word × State :=
  let s := memSetRdP s.rx.rdBufAddr s
  let s := incRdBuf s
  memRead s

/-- `rx_read_addr`. -/
def rxReadAddr (s : State) : Word := s.rx.rdPacketAddr

/-- `rx_write_addr`. -/
def rxWriteAddr (s : State) : Word := s.rx.wrPacketAddr

/-- `rx_packet_next`, which has the cached marker for its guard and does not wrap. -/
def rxPacketNext (s : State) : State :=
  if s.rx.rdPacketMarker = -1 then s
  else
    { s with
      -- 8 extra bytes for packet marker and header are part of the marker
      rx.rdPacketAddr := s.rx.rdPacketAddr + s.rx.rdPacketMarker
      rx.packetReady := s.rx.packetReady - 1 }

/-! ## Interrupt handlers -/

/-- The header branch of `rx_data_int_func`. -/
def rxStartPacket (s : State) : State :=
  let s := { s with rx.wrPacketAddr := s.rx.wrBufAddr }
  let r := fifoRead s
  let s := memWrite (-1) r.2
  let s := memWrite r.1 s
  let s := incWrBuf (incWrBuf s)
  let s := scramblerReseed (hdrRead r.1 hdrSsMask hdrSsShift) s
  { s with
    rx.rxState := .packetReading
    rx.wrBytes := s.rx.wrBytes + 8 }

/-- The body of the drain loop of `rx_data_int_func`. -/
def rxStoreWord (s : State) : State :=
  let r := fifoRead s
  let k := scramblerRead r.2
  let s := memWrite (r.1 ^^^ k.1) k.2
  let s := incWrBuf s
  { s with rx.wrBytes := s.rx.wrBytes + 4 }

/-- `while (IRQ_FLAG_SET(IRQ_RX_DATA_READY))`. Every iteration takes one word, so one more
than the words that can still come is enough fuel. -/
def rxDrain : ℕ → State → State
  | 0, s => s
  | fuel + 1, s =>
    let p := rxDataReady s
    if p.1 then rxDrain fuel (rxStoreWord p.2) else p.2

/-- `rx_data_int_func`: the first word of a packet is its header, the others are descrambled. -/
def rxDataIntFunc (s : State) : State :=
  let s := memSetWrP s.rx.wrBufAddr s
  let s :=
    if s.rx.rxState = .packetInit then
      let p := rxDataReady s
      if p.1 then rxStartPacket p.2 else p.2
    else s
  rxDrain (rxFifoTotal s + 1) s

/-- `if (wr_bytes)`: the marker is written and the packet handed over. -/
def rxFinishPacket (s : State) : State :=
  if s.rx.wrBytes ≠ 0 then
    let s := memSetWrP s.rx.wrPacketAddr s
    let s := memWrite s.rx.wrBytes s
    { s with
      rx.rxState := .packetInit
      rx.packetReady := s.rx.packetReady + 1
      rx.wrBytes := 0 }
  else s

/-- `rx_ready_int_func`: the rest of the packet is stored before its end is marked. -/
def rxReadyIntFunc (s : State) : State :=
  let p := rxDataReady s
  let s := if p.1 then rxDataIntFunc p.2 else p.2
  (rxFinishPacket s).pulse .hbcRxPktAck

/-- `rx_enable`. -/
def rxEnable (s : State) : State := s.gpoSet .hbcRxEnable

/-- `rx_disable`. -/
def rxDisable (s : State) : State := s.gpoClear .hbcRxEnable

end

end HbcMac
