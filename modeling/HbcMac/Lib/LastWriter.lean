import Mathlib.Tactic.Common
import Mathlib.Data.Nat.Find
import Mathlib.Order.Bounds.Basic
import Mathlib.Data.Set.Function

/-!
# Reading back through an aliasing memory

A pass writes `value 0, value 1, …` to the cells `cell 0, cell 1, …` of a memory. Two writes may
meet in one cell, and then the later one stays. A second pass that reads the same cells in the
same order finds behind each of them the value of its last writer.
-/

namespace LastWriter

variable {C V : Type} [DecidableEq C] (cell : ℕ → C) (value : ℕ → V)

/-- The memory after the writes `0, …, n - 1`. -/
def written (m : C → V) : ℕ → C → V
  | 0 => m
  | n + 1 => Function.update (written m n) (cell n) (value n)

theorem written_succ (m : C → V) (n : ℕ) :
    written cell value m (n + 1) = Function.update (written cell value m n) (cell n) (value n) :=
  rfl

/-- The last of the writes `0, …, n - 1` that goes to the cell of write `i`. -/
def lastWriter (n i : ℕ) : ℕ := Nat.findGreatest (fun j => cell j = cell i) (n - 1)

theorem lastWriter_isGreatest {n i : ℕ} (hi : i < n) :
    IsGreatest {j | j < n ∧ cell j = cell i} (lastWriter cell n i) := by
  have hin : i ≤ n - 1 := by omega
  refine ⟨⟨?_, ?_⟩, ?_⟩
  · have hle : lastWriter cell n i ≤ n - 1 := Nat.findGreatest_le (n - 1)
    omega
  · exact Nat.findGreatest_spec (P := fun j => cell j = cell i) hin rfl
  · rintro j ⟨hj, hcell⟩
    exact Nat.le_findGreatest (by omega) hcell

/-- One more write takes over the cell it goes to. -/
theorem lastWriter_succ {n i : ℕ} (hi : i < n) :
    lastWriter cell (n + 1) i = if cell n = cell i then n else lastWriter cell n i := by
  have hn : n + 1 - 1 = n - 1 + 1 := by omega
  have hlast : n - 1 + 1 = n := by omega
  rw [lastWriter, hn, Nat.findGreatest_succ, hlast]
  rfl

theorem lastWriter_self (n : ℕ) : lastWriter cell (n + 1) n = n := by
  apply Nat.findGreatest_eq
  rfl

/-- **The last writer wins.** -/
theorem written_cell (m : C → V) {n i : ℕ} (hi : i < n) :
    written cell value m n (cell i) = value (lastWriter cell n i) := by
  induction n with
  | zero => omega
  | succ n ih =>
    rw [written_succ, Function.update_apply]
    by_cases hlast : i = n
    · rw [hlast, if_pos rfl, lastWriter_self]
    · have hlt : i < n := by omega
      rw [lastWriter_succ cell hlt, ih hlt]
      by_cases hcell : cell n = cell i
      · rw [if_pos hcell.symm, if_pos hcell]
      · rw [if_neg (Ne.symm hcell), if_neg hcell]

/-! ## Misreadings -/

variable [DecidableEq V]

/-- How many of `n` writes are read back as something else. -/
def misreadings (n : ℕ) : ℕ :=
  (List.range n).countP fun i => value (lastWriter cell n i) ≠ value i

theorem misreadings_le (n : ℕ) : misreadings cell value n ≤ n := by
  have h := List.countP_le_length (p := fun i => decide (value (lastWriter cell n i) ≠ value i))
    (l := List.range n)
  rwa [List.length_range] at h

/-- The comparison of the second pass, index by index. -/
theorem countP_written (m : C → V) (n : ℕ) :
    (List.range n).countP (fun i => written cell value m n (cell i) ≠ value i)
      = misreadings cell value n := by
  apply List.countP_congr
  intro i hi
  rw [written_cell cell value m (List.mem_range.mp hi)]

theorem lastWriter_of_injOn {n : ℕ} (h : Set.InjOn cell {i | i < n}) {i : ℕ} (hi : i < n) :
    lastWriter cell n i = i := by
  have hlast := (lastWriter_isGreatest cell hi).1
  exact h hlast.1 hi hlast.2

/-- Without aliasing every value is read back. -/
theorem misreadings_of_injOn {n : ℕ} (h : Set.InjOn cell {i | i < n}) :
    misreadings cell value n = 0 := by
  apply List.countP_eq_zero.mpr
  intro i hi
  simp [lastWriter_of_injOn cell h (List.mem_range.mp hi)]

end LastWriter
