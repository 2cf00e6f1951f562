import HbcMac.Lib.ShiftRegister
import Mathlib

/-!
# A shift register divides

The register of `Lib.ShiftRegister` computes a remainder over the field of two elements. Its
lowest bit is the coefficient of the highest power, so a shift towards the low end multiplies by
`X`, and the polynomial that is added in when a one falls out takes the leading power away again.
-/

namespace ShiftRegister

open Polynomial

/-- A bit as a coefficient. -/
def coeffOf (b : Bool) : ZMod 2 := if b then 1 else 0

@[simp] theorem coeffOf_false : coeffOf false = 0 := rfl
@[simp] theorem coeffOf_true : coeffOf true = 1 := rfl

theorem coeffOf_xor (a b : Bool) : coeffOf (a ^^ b) = coeffOf a + coeffOf b := by
  cases a <;> cases b <;> decide

/-- The bits of a string, the first one as the coefficient of the highest power. -/
noncomputable def bitsPoly : List Bool → (ZMod 2)[X]
  | [] => 0
  | b :: bs => C (coeffOf b) * X ^ bs.length + bitsPoly bs

/-- The bits of a register, the lowest one as the coefficient of `X ^ (w - 1)`. -/
noncomputable def regPoly {w : ℕ} (c : BitVec w) : (ZMod 2)[X] :=
  ∑ k ∈ Finset.range w, C (coeffOf (c.getLsbD (w - 1 - k))) * X ^ k

/-- The polynomial a register divides by: its own bits and the power above them. -/
noncomputable def divisor {w : ℕ} (poly : BitVec w) : (ZMod 2)[X] := X ^ w + regPoly poly

section
variable {w : ℕ} (poly : BitVec w)

theorem coeff_regPoly (c : BitVec w) (k : ℕ) :
    (regPoly c).coeff k = if k < w then coeffOf (c.getLsbD (w - 1 - k)) else 0 := by
  simp only [regPoly, finsetSum_coeff, coeff_C_mul_X_pow]
  by_cases hk : k < w
  · simp [hk]
  · simp [hk]

theorem degree_regPoly_lt (c : BitVec w) : (regPoly c).degree < w := by
  rw [degree_lt_iff_coeff_zero]
  intro k hk
  rw [coeff_regPoly, if_neg (Nat.not_lt.mpr hk)]

theorem regPoly_xor (a b : BitVec w) : regPoly (a ^^^ b) = regPoly a + regPoly b := by
  ext k
  rw [coeff_add, coeff_regPoly, coeff_regPoly, coeff_regPoly]
  split
  · rw [BitVec.getLsbD_xor, coeffOf_xor]
  · rw [add_zero]

theorem regPoly_entering (hw : 0 < w) (b : Bool) :
    regPoly (entering b : BitVec w) = C (coeffOf b) * X ^ (w - 1) := by
  ext k
  rw [coeff_regPoly, coeff_C_mul_X_pow]
  by_cases hk : k = w - 1
  · have hlt : k < w := by omega
    have hlow : w - 1 - k = 0 := by omega
    rw [if_pos hlt, if_pos hk, hlow]
    cases b <;> simp [entering, hw]
  · rw [if_neg hk]
    split
    · have hhigh : w - 1 - k ≠ 0 := by omega
      cases b <;> simp [entering, hhigh]
    · rfl

theorem monic_divisor : (divisor poly).Monic := by
  apply monic_X_pow_add
  exact degree_regPoly_lt poly

theorem degree_divisor : (divisor poly).degree = w := by
  rw [divisor, degree_add_eq_left_of_degree_lt, degree_X_pow]
  rw [degree_X_pow]
  exact degree_regPoly_lt poly

theorem regPoly_shift (c : BitVec w) :
    regPoly (shift poly c) = regPoly (c >>> 1) + C (coeffOf (c.getLsbD 0)) * regPoly poly := by
  unfold shift
  cases c.getLsbD 0 with
  | false => simp
  | true => simp [regPoly_xor]

/-- Moving the bits down moves the powers up, and the lowest bit out of the register. -/
theorem X_mul_regPoly (hw : 0 < w) (c : BitVec w) :
    X * regPoly c = regPoly (c >>> 1) + C (coeffOf (c.getLsbD 0)) * X ^ w := by
  ext k
  rw [coeff_add, coeff_C_mul_X_pow, coeff_regPoly]
  cases k with
  | zero =>
    have hout : (c >>> 1).getLsbD (w - 1 - 0) = false := by
      rw [BitVec.getLsbD_ushiftRight]
      exact BitVec.getLsbD_of_ge c _ (by omega)
    rw [coeff_X_mul_zero, if_pos hw, hout, if_neg (Nat.ne_of_lt hw)]
    rfl
  | succ k =>
    rw [coeff_X_mul, coeff_regPoly, BitVec.getLsbD_ushiftRight]
    by_cases hk : k + 1 < w
    · have hplace : 1 + (w - 1 - (k + 1)) = w - 1 - k := by omega
      rw [if_pos (by omega), if_pos hk, if_neg (by omega), hplace, add_zero]
    · rw [if_neg hk, zero_add]
      by_cases htop : k + 1 = w
      · have hlow : w - 1 - k = 0 := by omega
        rw [if_pos (by omega), if_pos htop, hlow]
      · rw [if_neg (by omega), if_neg htop]

/-- A shift multiplies by `X`, up to the divisor. -/
theorem regPoly_shift_mod (hw : 0 < w) (c : BitVec w) :
    regPoly (shift poly c) + divisor poly * C (coeffOf (c.getLsbD 0)) = X * regPoly c := by
  have htwo := CharTwo.add_self_eq_zero (C (coeffOf (c.getLsbD 0)) * regPoly poly)
  rw [X_mul_regPoly hw, regPoly_shift, divisor]
  linear_combination htwo

/-- The register behind a string, up to the divisor. -/
theorem regPoly_feed_mod (hw : 0 < w) (c : BitVec w) (bs : List Bool) : ∃ q : (ZMod 2)[X],
    regPoly (feed poly c bs) + divisor poly * q
      = regPoly c * X ^ bs.length + bitsPoly bs * X ^ w := by
  induction bs generalizing c with
  | nil => exact ⟨0, by simp [bitsPoly]⟩
  | cons b bs ih =>
    obtain ⟨q, hq⟩ := ih (shift poly (c ^^^ entering b))
    have hshift := regPoly_shift_mod poly hw (c ^^^ entering b)
    have hpow : X * X ^ (w - 1) = (X ^ w : (ZMod 2)[X]) := by
      rw [← pow_succ', Nat.sub_add_cancel hw]
    rw [regPoly_xor, regPoly_entering hw] at hshift
    refine ⟨q + C (coeffOf ((c ^^^ entering b).getLsbD 0)) * X ^ bs.length, ?_⟩
    rw [feed_cons, bitsPoly, List.length_cons]
    linear_combination hq + X ^ bs.length * hshift + C (coeffOf b) * X ^ bs.length * hpow

/-- **Division.** The register behind a string is the remainder of the string, moved up by the
width of the register, with what was in the register at first on top. -/
theorem regPoly_feed (hw : 0 < w) (c : BitVec w) (bs : List Bool) : regPoly (feed poly c bs)
    = (regPoly c * X ^ bs.length + bitsPoly bs * X ^ w) %ₘ divisor poly := by
  obtain ⟨q, hq⟩ := regPoly_feed_mod poly hw c bs
  have hdegree : (regPoly (feed poly c bs)).degree < (divisor poly).degree := by
    rw [degree_divisor]
    exact degree_regPoly_lt _
  exact (div_modByMonic_unique q _ (monic_divisor poly) ⟨hq, hdegree⟩).2.symm

end

end ShiftRegister
