import HbcMac.State
import Mathlib.Logic.Function.Iterate

/-!
# The CRC of `build_tx.c`
-/

namespace HbcMac

/-- `CRC8_POLY`, in the order in which the register shifts. -/
def crc8Poly : Byte := 0xB1
/-- `CRC8_INIT`. -/
def crc8Init : Byte := 0xFF

/-- One iteration of the loop in `crc8_update`. -/
def crc8Bit (crc : Byte) : Byte :=
  if crc &&& 0x01 ≠ 0 then (crc >>> 1) ^^^ crc8Poly else crc >>> 1

/-- `crc8_update`, eight iterations on the register with the byte added. -/
def crc8Update (crc data : Byte) : Byte := crc8Bit^[8] (crc ^^^ data)

/-- `crc8`: the checksum over the low three bytes of a header word. -/
def crc8 (header : Word) : Byte :=
  let crc := crc8Init
  let crc := crc8Update crc ((header >>> 0).setWidth 8)
  let crc := crc8Update crc ((header >>> 8).setWidth 8)
  crc8Update crc ((header >>> 16).setWidth 8)

/-- Feeding the register its own value clears it, so a message followed by its checksum
passes the check. -/
@[simp] theorem crc8Update_self (crc : Byte) : crc8Update crc crc = 0 := by
  rw [crc8Update, BitVec.xor_self]
  rfl

end HbcMac
