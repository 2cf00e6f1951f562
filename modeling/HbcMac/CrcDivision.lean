import HbcMac.CrcErrors
import HbcMac.Lib.PolyDivision

/-!
# The CRC as a remainder

The fold of `crc8_update` is the remainder of a division by the polynomial in the comment on
`CRC8_POLY`, with the bits of the message, as they come, as the coefficients of falling powers. A
remainder of zero comes from one last byte only, so the check compares.
-/

namespace HbcMac

open ShiftRegister LittleEndian Polynomial

/-- `x^0 + x^2 + x^3 + x^7 + (x^8)`. -/
noncomputable def crc8Divisor : (ZMod 2)[X] := X ^ 8 + X ^ 7 + X ^ 3 + X ^ 2 + 1

/-- `CRC8_INIT`: the polynomial of degree seven with all coefficients one. -/
noncomputable def crc8Start : (ZMod 2)[X] := ∑ k ∈ Finset.range 8, X ^ k

/-- A byte string: least significant bit first in each byte, the first bit the coefficient of the
highest power. -/
noncomputable def messagePoly (m : List Byte) : (ZMod 2)[X] := bitsPoly (messageBits m)

/-- The constant of the header is the divisor, read from the other end. -/
theorem divisor_crc8Poly : divisor crc8Poly = crc8Divisor := by
  rw [divisor, crc8Divisor, regPoly]
  simp [Finset.sum_range_succ, crc8Poly]
  ring

/-- The start value is the polynomial of eight ones. -/
theorem regPoly_crc8Init : regPoly crc8Init = crc8Start := by
  have hones : ∀ k < 8, crc8Init.getLsbD (8 - 1 - k) = true := by decide
  apply Finset.sum_congr rfl
  intro k hk
  rw [hones k (Finset.mem_range.mp hk), coeffOf_true, C_1, one_mul]

/-- The polynomial divided for a byte string. -/
noncomputable def crc8Dividend (m : List Byte) : (ZMod 2)[X] :=
  crc8Start * X ^ (8 * m.length) + messagePoly m * X ^ 8

/-- The checksum is the remainder. -/
theorem regPoly_crcOver (m : List Byte) : regPoly (crcOver m) = crc8Dividend m %ₘ crc8Divisor := by
  rw [crcOver, foldl_crc8Update, regPoly_feed crc8Poly (by decide), length_messageBits,
    regPoly_crc8Init, divisor_crc8Poly]
  rfl

/-- `crc8` looks at three bytes of its argument. -/
theorem crc8_low (header : Word) : crc8 (header &&& 0x00FFFFFF) = crc8 header := by
  have hones : ∀ k < 24, (0x00FFFFFF : Word).getLsbD k = true := by decide
  have hbyte (i : ℕ) (hi : i < 3) : byteAt (header &&& 0x00FFFFFF) i = byteAt header i := by
    apply BitVec.eq_of_getLsbD_eq
    intro j hj
    rw [getLsbD_byteAt, getLsbD_byteAt, BitVec.getLsbD_and, hones _ (by omega), Bool.and_true]
  have hcrc (w : Word) : crc8 w = crcOver [byteAt w 0, byteAt w 1, byteAt w 2] := rfl
  rw [hcrc, hcrc, hbyte 0 (by decide), hbyte 1 (by decide), hbyte 2 (by decide)]

/-- Exactly the checksum behind a message passes the check. -/
theorem crcOver_append_eq_zero_iff (m : List Byte) (b : Byte) :
    crcOver (m ++ [b]) = 0 ↔ b = crcOver m := by
  rw [crcOver, List.foldl_append]
  exact crc8Update_eq_zero_iff

/-- **The CRC divides.** Bit `j` of the register behind a byte string is the coefficient of
`X ^ (7 - j)` of the remainder. So the register is cleared by its own value alone, and a header
is accepted exactly when its top byte is the checksum of the others. -/
theorem crc8_division (m : List Byte) :
    (crc8Dividend m %ₘ crc8Divisor).degree < 8
      ∧ (∀ j < 8, (crc8Dividend m %ₘ crc8Divisor).coeff (7 - j)
        = if (crcOver m).getLsbD j then 1 else 0)
      ∧ (∀ b : Byte, crcOver (m ++ [b]) = 0 ↔ b = crcOver m)
      ∧ ∀ s : State, rxCheckCrcOk s = true ↔
        (s.rx.rdPacketHeader >>> 24).setWidth 8 = crc8 (s.rx.rdPacketHeader &&& 0x00FFFFFF) := by
  rw [← regPoly_crcOver]
  refine ⟨degree_regPoly_lt _, ?_, crcOver_append_eq_zero_iff m, ?_⟩
  · intro j hj
    have hlt : 7 - j < 8 := by omega
    have hplace : 8 - 1 - (7 - j) = j := by omega
    rw [coeff_regPoly, if_pos hlt, hplace]
    rfl
  · intro s
    rw [crc8_low, ← crc8Update_eq_zero_iff]
    exact decide_eq_true_iff

end HbcMac
