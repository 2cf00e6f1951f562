import HbcMac.Lib.Run

/-!
# The trace of a run

A machine that leaves something behind with every step: `emit s e` are the entries of one step,
`trace` those of a run. A record kept in the state grows by the trace, and every entry of the trace
comes from a step that can be pointed at.
-/

namespace Run

variable {σ ε ω : Type} (step : σ → ε → σ) (emit : σ → ε → List ω)

/-- The entries of the run from `s` on the events. -/
def trace : σ → List ε → List ω
  | _, [] => []
  | s, e :: evs => emit s e ++ trace (step s e) evs

variable {step emit}

/-- A record in the state that every step adds its entries to. -/
theorem record_run (record : σ → List ω)
    (hstep : ∀ s e, record (step s e) = record s ++ emit s e) (s : σ) (evs : List ε) :
    record (run step s evs) = record s ++ trace step emit s evs := by
  induction evs generalizing s with
  | nil => exact (List.append_nil _).symm
  | cons e evs ih => rw [run_cons, ih, hstep, trace, List.append_assoc]

/-- The step an entry comes from, and what is in front of it. -/
theorem trace_split {s : σ} {evs : List ε} {a b : List ω} {o : ω}
    (h : trace step emit s evs = a ++ o :: b) : ∃ pre e post x z, evs = pre ++ e :: post ∧
      emit (run step s pre) e = x ++ o :: z ∧ a = trace step emit s pre ++ x := by
  induction evs generalizing s a with
  | nil => exact absurd h.symm (List.append_ne_nil_of_right_ne_nil a (List.cons_ne_nil o b))
  | cons e evs ih =>
    rw [trace, List.append_eq_append_iff] at h
    obtain ⟨x, rfl, hrest⟩ | ⟨z, hfirst, hlast⟩ := h
    · obtain ⟨pre, e', post, y, z, rfl, hemit, rfl⟩ := ih hrest
      exact ⟨e :: pre, e', post, y, z, rfl, hemit, by rw [trace, List.append_assoc]⟩
    · cases z with
      | nil =>
        rw [List.nil_append] at hlast
        obtain ⟨pre, e', post, y, z, rfl, hemit, ha⟩ := ih (a := []) hlast.symm
        have hnil := List.append_eq_nil_iff.mp ha.symm
        refine ⟨e :: pre, e', post, [], z, rfl, ?_, ?_⟩
        · rw [run_cons, hemit, hnil.2]
        · rw [trace, hnil.1, List.append_nil, List.append_nil, hfirst, List.append_nil]
      | cons o' z =>
        obtain ⟨rfl, -⟩ := List.cons.inj hlast
        exact ⟨[], e, evs, a, z, rfl, hfirst, rfl⟩

end Run
