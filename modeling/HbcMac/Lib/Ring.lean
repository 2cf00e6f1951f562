import Mathlib.Tactic.Common
import Mathlib.Data.Int.ModEq
import Mathlib.Order.Basic

/-!
# Cursors of a ring buffer

A ring of `size` addresses starting at `base`. A cursor is kept as the unbounded number of
units it has advanced since the start, and `slot` is the address it stands for: advancing
is addition, and two cursors less than a lap apart stand for different addresses.
-/

namespace Ring

variable (base size : ℕ)

/-- The address of a cursor that has advanced `k` units. -/
def slot (k : ℕ) : ℕ := base + k % size

variable {base size}

theorem base_le_slot (k : ℕ) : base ≤ slot base size k := Nat.le_add_right ..

theorem slot_lt (hsize : 0 < size) (k : ℕ) : slot base size k < base + size :=
  Nat.add_lt_add_left (Nat.mod_lt k hsize) base

/-- Within one lap, an address determines its cursor. -/
theorem slot_inj {k k' : ℕ} (hle : k ≤ k') (hlap : k' < k + size)
    (h : slot base size k = slot base size k') : k = k' := by
  have hmod : k % size = k' % size := Nat.add_left_cancel h
  have hdvd : size ∣ k' - k := (Nat.modEq_iff_dvd' hle).mp hmod
  have hzero : k' - k = 0 := Nat.eq_zero_of_dvd_of_lt hdvd (by omega)
  omega

theorem slot_ne {k k' : ℕ} (hlt : k < k') (hlap : k' < k + size) :
    slot base size k ≠ slot base size k' :=
  fun h => Nat.ne_of_lt hlt (slot_inj (Nat.le_of_lt hlt) hlap h)

/-- A cursor that has not completed a lap stands at its plain offset. -/
theorem slot_of_lt {k : ℕ} (h : k < size) : slot base size k = base + k := by
  rw [slot, Nat.mod_eq_of_lt h]

/-- A step that does not reach the end of the ring is plain addition. -/
theorem slot_add_of_lt {k d : ℕ} (h : k % size + d < size) :
    slot base size (k + d) = slot base size k + d := by
  rw [slot, slot, Nat.add_mod, Nat.mod_eq_of_lt (Nat.lt_of_le_of_lt (Nat.le_add_left _ _) h),
    Nat.mod_eq_of_lt h, Nat.add_assoc]

/-- A step that ends exactly at the end of the ring starts the next lap at the base. -/
theorem slot_add_of_eq {k d : ℕ} (h : k % size + d = size) :
    slot base size (k + d) = base := by
  have hdvd : (k + d) % size = 0 := by
    have hk := Nat.div_add_mod k size
    have : k + d = size * (k / size + 1) := by
      rw [Nat.mul_add, Nat.mul_one]; omega
    rw [this, Nat.mul_mod_right]
  rw [slot, hdvd, Nat.add_zero]

end Ring
