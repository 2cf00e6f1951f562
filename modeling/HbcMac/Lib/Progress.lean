import HbcMac.Lib.Run

/-!
# Progress within a bound

A machine that works towards an end only in some of its steps, the ticks, whatever happens in
between. With a measure of what is left to do, which no step raises and every tick lowers until it
is zero, as many ticks as the measure says are enough.
-/

namespace Run

variable {σ ε : Type} (step : σ → ε → σ) (T : σ → ε → Bool)

/-- The number of ticks of a run. -/
def ticks : σ → List ε → ℕ
  | _, [] => 0
  | s, e :: evs => (if T s e then 1 else 0) + ticks (step s e) evs

/-- Ticks that can be told by the event alone. -/
theorem ticks_eq_countP {p : ε → Bool} (h : ∀ s e, T s e = p e) (s : σ) (evs : List ε) :
    ticks step T s evs = evs.countP p := by
  induction evs generalizing s with
  | nil => rfl
  | cons e evs ih => rw [ticks, ih, h, List.countP_cons, Nat.add_comm]

variable {step T}

/-- What a step does to the measure of the work that is left. -/
structure Works (step : σ → ε → σ) (T : σ → ε → Bool) (μ : σ → ℕ) (s : σ) (e : ε) : Prop where
  le : μ (step s e) ≤ μ s
  lt : T s e = true → μ s ≠ 0 → μ (step s e) < μ s

/-- **Progress rule.** The measure falls with every tick. -/
theorem measure_run {C : σ → ε → Prop} {I : σ → Prop} {μ : σ → ℕ}
    (hstep : ∀ s e, I s → C s e → I (step s e) ∧ Works step T μ s e) {s : σ} {evs : List ε}
    (h0 : I s) (hC : Steps step C s evs) : μ (run step s evs) ≤ μ s - ticks step T s evs := by
  induction evs generalizing s with
  | nil => exact Nat.le_refl _
  | cons e evs ih =>
    obtain ⟨hI, hle, hlt⟩ := hstep s e h0 hC.1
    have hrest := ih hI hC.2
    rw [run_cons, ticks]
    by_cases htick : T s e = true
    · rw [if_pos htick]
      have hless := hlt htick
      omega
    · rw [if_neg htick]
      omega

/-- **Enough ticks.** -/
theorem measure_eq_zero {C : σ → ε → Prop} {I : σ → Prop} {μ : σ → ℕ}
    (hstep : ∀ s e, I s → C s e → I (step s e) ∧ Works step T μ s e) {s : σ} {evs : List ε}
    (h0 : I s) (hC : Steps step C s evs) (hticks : μ s ≤ ticks step T s evs) :
    μ (run step s evs) = 0 := by
  have hle := measure_run hstep h0 hC
  omega

end Run
