import HbcMac.Lib.Run

/-!
# Forward simulation with stuttering

A machine next to an abstract one that takes a step in some of the steps of the first and waits
in the others. `act` says which: `act s e = some a` is a step `a` of the abstract machine, `none`
a step it does not see.
-/

namespace Run

variable {σ ε τ α : Type} (step : σ → ε → σ) (act : σ → ε → Option α)

/-- What the abstract machine sees of a run. -/
def actions : σ → List ε → List α
  | _, [] => []
  | s, e :: evs => (act s e).toList ++ actions (step s e) evs

variable {step act} {astep : τ → α → τ}

theorem Steps.mono {C D : σ → ε → Prop} {s : σ} {evs : List ε} (hCD : ∀ s e, C s e → D s e)
    (h : Steps step C s evs) : Steps step D s evs := by
  induction evs generalizing s with
  | nil => trivial
  | cons e evs ih => exact ⟨hCD s e h.1, ih h.2⟩

/-- A run the abstract machine sees nothing of. -/
theorem steps_of_actions_nil {s : σ} {evs : List ε} (h : actions step act s evs = []) :
    Steps step (fun s e => act s e = none) s evs := by
  induction evs generalizing s with
  | nil => trivial
  | cons e evs ih =>
    rw [actions, List.append_eq_nil_iff] at h
    obtain ⟨hfirst, hrest⟩ := h
    exact ⟨Option.toList_eq_nil_iff.mp hfirst, ih hrest⟩

/-- A run of which it sees one step. -/
theorem actions_eq_singleton {s : σ} {evs : List ε} {a : α}
    (h : actions step act s evs = [a]) : ∃ pre e post, evs = pre ++ e :: post ∧
      actions step act s pre = [] ∧ act (run step s pre) e = some a ∧
      actions step act (step (run step s pre) e) post = [] := by
  induction evs generalizing s with
  | nil => cases h
  | cons e evs ih =>
    cases hact : act s e with
    | none =>
      have hrest : actions step act (step s e) evs = [a] := by
        rw [actions, hact] at h
        exact h
      obtain ⟨pre, e', post, rfl, hpre, he', hpost⟩ := ih hrest
      refine ⟨e :: pre, e', post, rfl, ?_, he', hpost⟩
      rw [actions, hact, hpre]
      rfl
    | some b =>
      rw [actions, hact, Option.toList_some, List.singleton_append] at h
      obtain ⟨rfl, hnil⟩ := List.cons.inj h
      exact ⟨[], e, evs, rfl, rfl, hact, hnil⟩

theorem Always.append {P : τ → Prop} {t : τ} {as as' : List α} :
    Always astep P t (as ++ as') ↔ Always astep P t as ∧ Always astep P (run astep t as) as' := by
  induction as generalizing t with
  | nil => exact ⟨fun h => ⟨h.head, h⟩, fun h => h.2⟩
  | cons a as ih => simp only [List.cons_append, Always, ih, run_cons, and_assoc]

/-- **Simulation rule.** If a step the abstract machine does not see keeps the relation `R`, and
one it sees is taken under `D` and leads to related states, as long as the abstract states satisfy
`A`, then the ends of a run are related and the abstract machine has taken its steps under `D`. -/
theorem simulation {R : σ → τ → Prop} {C : σ → ε → Prop} {A : τ → Prop} {D : τ → α → Prop}
    (hquiet : ∀ s t e, R s t → C s e → act s e = none → R (step s e) t)
    (hseen : ∀ s t e a, R s t → C s e → act s e = some a → A t → A (astep t a) →
      D t a ∧ R (step s e) (astep t a))
    {s : σ} {t : τ} {evs : List ε} (hR : R s t) (hC : Steps step C s evs)
    (hA : Always astep A t (actions step act s evs)) :
    Steps astep D t (actions step act s evs)
      ∧ R (run step s evs) (run astep t (actions step act s evs)) := by
  induction evs generalizing s t with
  | nil => exact ⟨trivial, hR⟩
  | cons e evs ih =>
    cases hact : act s e with
    | none =>
      have hnil : actions step act s (e :: evs) = actions step act (step s e) evs := by
        rw [actions, hact]
        rfl
      rw [hnil] at hA ⊢
      exact ih (hquiet s t e hR hC.1 hact) hC.2 hA
    | some a =>
      have hcons : actions step act s (e :: evs) = a :: actions step act (step s e) evs := by
        rw [actions, hact]
        rfl
      rw [hcons] at hA ⊢
      obtain ⟨hD, hnext⟩ := hseen s t e a hR hC.1 hact hA.1 hA.2.head
      obtain ⟨hsteps, hend⟩ := ih hnext hC.2 hA.2
      exact ⟨⟨hD, hsteps⟩, hend⟩

end Run
