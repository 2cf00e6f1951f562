import HbcMac.ExtractRx

/-!
# The header word

`build_tx_plcp_header` packs the fields of a header into a word and puts a checksum on top.
With fields in the range of their enumerations the receiver's `HDR_READ`s give them back and
its CRC over the four bytes is zero.
-/

namespace HbcMac

/-- The fields are in the range of their enumerations. -/
structure PlcpHeader.Valid (h : PlcpHeader) : Prop where
  dataRate : h.dataRate = rSf64 ∨ h.dataRate = rSf32 ∨ h.dataRate = rSf16 ∨ h.dataRate = rSf8
  pilotInfo : h.pilotInfo = pilot64 ∨ h.pilotInfo = pilot128 ∨ h.pilotInfo = pilotNone
  burstMode : h.burstMode = 0 ∨ h.burstMode = 1
  scramblerSeed : h.scramblerSeed = 0 ∨ h.scramblerSeed = 1

/-- The fields below the length. -/
def headerLow (h : PlcpHeader) : Word :=
  0 ||| h.dataRate <<< hdrDrShift ||| h.pilotInfo <<< hdrPiShift ||| h.burstMode <<< hdrBmShift
    ||| h.scramblerSeed <<< hdrSsShift

/-- The length is above the other fields. -/
theorem headerBits_eq (h : PlcpHeader) :
    headerBits h = headerLow h ||| h.pdsuLength.setWidth 32 <<< hdrLenShift := rfl

section
variable {h : PlcpHeader} (hv : h.Valid)
include hv

/-- The fields below the length stay below it, and bit 11 is the scrambler seed. -/
theorem headerLow_spec :
    (headerLow h).toNat < 2 ^ 16 ∧ hdrRead (headerLow h) hdrSsMask hdrSsShift = h.scramblerSeed := by
  unfold headerLow
  rcases hv.scramblerSeed with hs | hs <;> rw [hs] <;>
  rcases hv.burstMode with hb | hb <;> rw [hb] <;>
  rcases hv.pilotInfo with hp | hp | hp <;> rw [hp] <;>
  rcases hv.dataRate with hr | hr | hr | hr <;> rw [hr] <;> decide

/-- They leave its place free. -/
theorem getLsbD_headerLow {i : ℕ} (hi : 16 ≤ i) : (headerLow h).getLsbD i = false := by
  have hlt := (headerLow_spec hv).1
  have hle : 2 ^ 16 ≤ 2 ^ i := Nat.pow_le_pow_right (by decide) hi
  exact Nat.testBit_lt_two_pow (Nat.lt_of_lt_of_le hlt hle)

/-- `rx_packet_length` gives the length back. -/
theorem hdrRead_length :
    (hdrRead (headerWord h) hdrLenMask hdrLenShift).setWidth 8 = h.pdsuLength := by
  apply BitVec.eq_of_getLsbD_eq
  intro i hi
  have hmask : ∀ i < 8, hdrLenMask.getLsbD (16 + i) = true := by decide
  have hlow : (headerLow h).getLsbD (16 + i) = false := getLsbD_headerLow hv (by omega)
  have h32 : 16 + i < 32 := by omega
  have h24 : 16 + i < 24 := by omega
  have h16 : ¬ 16 + i < 16 := by omega
  have hi32 : i < 32 := by omega
  rw [hdrRead, headerWord, headerBits_eq, hdrLenShift, hdrCrcShift]
  simp only [BitVec.getLsbD_setWidth, BitVec.getLsbD_ushiftRight, BitVec.getLsbD_and,
    BitVec.getLsbD_or, BitVec.getLsbD_shiftLeft, hmask i hi, hlow, h32, h24, h16, hi,
    hi32, Nat.add_sub_cancel_left]
  simp only [decide_true, decide_false, Bool.not_true, Bool.not_false, Bool.true_and,
    Bool.false_and, Bool.and_true, Bool.false_or, Bool.or_false]

/-- The receiver seeds its scrambler as the sender did. -/
theorem hdrRead_seed : hdrRead (headerWord h) hdrSsMask hdrSsShift = h.scramblerSeed := by
  have hbits : headerWord h &&& hdrSsMask = headerLow h &&& hdrSsMask := by
    apply BitVec.eq_of_getLsbD_eq
    intro i hi
    by_cases hlt : i < 16
    · have h24 : i < 24 := by omega
      simp [headerWord, headerBits_eq, hdrLenShift, hdrCrcShift, hlt, h24]
    · have hmask : ∀ i < 32, ¬ i < 16 → hdrSsMask.getLsbD i = false := by decide
      simp [hmask i hi hlt]
  have hseed := (headerLow_spec hv).2
  rw [hdrRead] at hseed ⊢
  rw [hbits, hseed]

/-- The checksum is the top byte of the header word. -/
theorem headerWord_top : (headerWord h >>> 24).setWidth 8 = crc8 (headerBits h) := by
  apply BitVec.eq_of_getLsbD_eq
  intro i hi
  have hlow : (headerLow h).getLsbD (24 + i) = false := getLsbD_headerLow hv (by omega)
  have hlen : h.pdsuLength.getLsbD (24 + i - 16) = false := BitVec.getLsbD_of_ge _ _ (by omega)
  have h24 : ¬ 24 + i < 24 := by omega
  have h32 : 24 + i < 32 := by omega
  have hi32 : i < 32 := by omega
  have hbits : (headerBits h).getLsbD (24 + i) = false := by
    rw [headerBits_eq, hdrLenShift]
    simp only [BitVec.getLsbD_or, BitVec.getLsbD_shiftLeft, BitVec.getLsbD_setWidth, hlow, hlen,
      Bool.and_false, Bool.or_false]
  rw [headerWord, hdrCrcShift]
  simp only [BitVec.getLsbD_setWidth, BitVec.getLsbD_ushiftRight, BitVec.getLsbD_or,
    BitVec.getLsbD_shiftLeft, hbits, h24, h32, hi, hi32, Nat.add_sub_cancel_left]
  simp only [decide_true, decide_false, Bool.not_false, Bool.true_and, Bool.false_or]

end

/-- Below the top byte the header word is the header without its checksum. -/
theorem headerWord_low (h : PlcpHeader) {k : ℕ} (hk : k ≤ 16) :
    (headerWord h >>> k).setWidth 8 = (headerBits h >>> k).setWidth 8 := by
  apply BitVec.eq_of_getLsbD_eq
  intro i hi
  have h24 : k + i < 24 := by omega
  simp [headerWord, hdrCrcShift, h24]

/-- The receiver's CRC over a header word is zero. -/
theorem headerCrc_headerWord {h : PlcpHeader} (hv : h.Valid) : headerCrc (headerWord h) = 0 := by
  unfold headerCrc
  dsimp only
  rw [headerWord_low h (by decide), headerWord_low h (by decide), headerWord_low h (by decide),
    headerWord_top hv]
  exact crc8Update_self _

end HbcMac
