import HbcMac.Crc8
import HbcMac.Fifo

/-!
# `build_tx.c`
-/

namespace HbcMac

/-! ## Constants of `build_tx.h` -/

/-- `PREAMBLE_1`, the first half of a preamble. -/
def preamble1 : Word := 0xC4CA5018
/-- `PREAMBLE_2`, the second half. -/
def preamble2 : Word := 0xFAE4B982

/-- `SFD_1`, the first half of the start frame delimiter. -/
def sfd1 : Word := 0x565DDBCA
/-- `SFD_2`, the second half. -/
def sfd2 : Word := 0x58267ACD

/-- `HDR_DR_SHIFT`: the data rate is in the lowest bits of the header word. -/
def hdrDrShift : ℕ := 0
/-- `HDR_PI_SHIFT`: the pilot information. -/
def hdrPiShift : ℕ := 3
/-- `HDR_BM_SHIFT`: the burst mode. -/
def hdrBmShift : ℕ := 8
/-- `HDR_SS_SHIFT`: the scrambler seed. -/
def hdrSsShift : ℕ := 11
/-- `HDR_LEN_SHIFT`: the length of the payload. -/
def hdrLenShift : ℕ := 16
/-- `HDR_CRC_SHIFT`: the checksum. -/
def hdrCrcShift : ℕ := 24

/-- `HDR_DR_MASK`: three bits. -/
def hdrDrMask : Word := 0x00000007
/-- `HDR_PI_MASK`: three bits. -/
def hdrPiMask : Word := 0x00000038
/-- `HDR_BM_MASK`: one bit. -/
def hdrBmMask : Word := 0x00000100
/-- `HDR_SS_MASK`: one bit. -/
def hdrSsMask : Word := 0x00000800
/-- `HDR_LEN_MASK`: one byte. -/
def hdrLenMask : Word := 0x00ff0000

/-- `BIT_MAP_32_0`, what `put_bitmap_32` writes for a zero. -/
def bitMap32_0 : Word := 0x55555555
/-- `BIT_MAP_32_1`, what it writes for a one. -/
def bitMap32_1 : Word := 0xAAAAAAAA

/-- `r_sf_64` of `tx_rate_t`, the slowest rate. -/
def rSf64 : Word := 0
/-- `r_sf_32`. -/
def rSf32 : Word := 1
/-- `r_sf_16`. -/
def rSf16 : Word := 2
/-- `r_sf_8`, the rate of preamble and delimiter. -/
def rSf8 : Word := 3

/-- `pilot_64` of `pilot_period_t`. -/
def pilot64 : Word := 2
/-- `pilot_128`. -/
def pilot128 : Word := 3
/-- `pilot_none`, with which `header_info` is initialised. -/
def pilotNone : Word := 6

/-- `HDR_READ` for a field given by its mask and shift. -/
def hdrRead (hdr mask : Word) (shift : ℕ) : Word := (hdr &&& mask) >>> shift

/-! ## Preamble and start frame delimiter -/

/-- `fifo_set_rate`: the spreading factor goes to the modulator, and the size of its words to the
FIFO. -/
def fifoSetRate (rate : Word) (s : State) : State :=
  let s := fifoModulateSf (rate.setWidth 8) s
  if rate = rSf64 then fifoWriteSize 32 s
  else if rate = rSf32 then fifoWriteSize 32 s
  else if rate = rSf16 then fifoWriteSize 16 s
  else if rate = rSf8 then fifoWriteSize 8 s
  else s

/-- The body of the loop in `put_bitmap_32` for bit `31 - i`. -/
def putBit (code : Word) (s : State) (i : ℕ) : State :=
  if code &&& (1 <<< (31 - i)) ≠ 0 then fifoWrite bitMap32_1 s else fifoWrite bitMap32_0 s

/-- `put_bitmap_32`, the highest bit first. -/
def putBitmap32 (code : Word) (s : State) : State :=
  (List.range 32).foldl (putBit code) (fifoSetRate rSf8 s)

/-- `build_tx_preamble`, one of the four. -/
def buildTxPreamble (s : State) : State := putBitmap32 preamble2 (putBitmap32 preamble1 s)

/-- The two halves of the start frame delimiter. -/
def putSfd (s : State) : State := putBitmap32 sfd2 (putBitmap32 sfd1 s)

/-- The delimiter. Its offset in a field of 12 `sf_8` symbols tells the data rate. -/
def buildTxSfd (headerInfo : PlcpHeader) (s : State) : State :=
  let zero := fifoWrite bitMap32_0
  if headerInfo.useRi = 0 then putSfd s
  else if headerInfo.dataRate = rSf64 then
    zero (zero (zero (fifoWriteSize 32 (putSfd s))))
  else if headerInfo.dataRate = rSf32 then
    let s := putSfd (zero (fifoWriteSize 16 s))
    zero (fifoWriteSize 16 (zero (zero (fifoWriteSize 32 s))))
  else if headerInfo.dataRate = rSf16 then
    let s := putSfd (zero (fifoWriteSize 32 s))
    zero (zero (fifoWriteSize 32 s))
  else if headerInfo.dataRate = rSf8 then
    let s := putSfd (zero (fifoWriteSize 16 (zero (fifoWriteSize 32 s))))
    zero (fifoWriteSize 16 (zero (fifoWriteSize 32 s)))
  else s

/-! ## Header and payload -/

/-- The header bits below the checksum. -/
def headerBits (headerInfo : PlcpHeader) : Word :=
  0 ||| headerInfo.dataRate <<< hdrDrShift
    ||| headerInfo.pilotInfo <<< hdrPiShift
    ||| headerInfo.burstMode <<< hdrBmShift
    ||| headerInfo.scramblerSeed <<< hdrSsShift
    ||| headerInfo.pdsuLength.setWidth 32 <<< hdrLenShift

/-- The header word that is modulated. -/
def headerWord (headerInfo : PlcpHeader) : Word :=
  headerBits headerInfo ||| (crc8 (headerBits headerInfo)).setWidth 32 <<< hdrCrcShift

/-- Everything `build_tx_plcp_header` sends ahead of the header word. -/
def buildTxLead (headerInfo : PlcpHeader) (s : State) : State :=
  let s := fifoWait (fifoReset s)
  let s := buildTxPreamble (buildTxPreamble (buildTxPreamble (buildTxPreamble s)))
  let s := buildTxSfd headerInfo s
  if headerInfo.useRi ≠ 0 then fifoSetRate headerInfo.dataRate s else fifoSetRate rSf64 s

/-- `build_tx_plcp_header`: the checksum is stored back into the structure. -/
def buildTxPlcpHeader (headerInfo : PlcpHeader) (s : State) : PlcpHeader × State :=
  ({ headerInfo with crc8 := HbcMac.crc8 (headerBits headerInfo) },
    fifoModulate (headerWord headerInfo) (buildTxLead headerInfo s))

section
variable [Board]

/-- `while (num_words)`. -/
def buildTxWords : ℕ → State → State
  | 0, s => s
  | numWords + 1, s =>
    let m := memRead s
    let k := scramblerRead m.2
    buildTxWords numWords (fifoModulate (m.1 ^^^ k.1) k.2)

/-- `num_words` after the partial word has been counted; it is a `uint8_t`. -/
def payloadWords (pdsuLength : Byte) : Byte :=
  if pdsuLength % 4 ≠ 0 then pdsuLength / 4 + 1 else pdsuLength / 4

/-- `build_tx_payload` returns the number of whole words. -/
def buildTxPayload (headerInfo : PlcpHeader) (s : State) : Byte × State :=
  let s := fifoSetRate headerInfo.dataRate s
  let s := scramblerReseed headerInfo.scramblerSeed s
  let s := buildTxWords (payloadWords headerInfo.pdsuLength).toNat s
  (headerInfo.pdsuLength / 4, fifoTrigger (fifoFlush s))

end

end HbcMac
