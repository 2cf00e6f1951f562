import Mathlib.Tactic.Common
import Mathlib.Data.List.Infix

/-!
# Runs of a deterministic state machine

A machine is a step function `step : σ → ε → σ` driven by a list of events. This file has
the run itself, two predicates over the states and steps of a run, and the induction rules
that turn facts about one step into facts about a whole run:

* `Always step P s evs`: every state the run passes through satisfies `P`;
* `Steps step C s evs`: every step of the run is taken from a state satisfying `C`.
-/

namespace Run

variable {σ ε : Type} (step : σ → ε → σ)

/-- The state reached from `s` on the events `evs`. -/
def run (s : σ) (evs : List ε) : σ := evs.foldl step s

@[simp] theorem run_nil (s : σ) : run step s [] = s := rfl

@[simp] theorem run_cons (s : σ) (e : ε) (evs : List ε) :
    run step s (e :: evs) = run step (step s e) evs := rfl

@[simp] theorem run_append (s : σ) (evs evs' : List ε) :
    run step s (evs ++ evs') = run step (run step s evs) evs' := List.foldl_append ..

/-- Every state of the run satisfies `P`, the first and the last included. -/
def Always (P : σ → Prop) : σ → List ε → Prop
  | s, [] => P s
  | s, e :: evs => P s ∧ Always P (step s e) evs

/-- Every step of the run is taken in a state, and on an event, satisfying `C`. -/
def Steps (C : σ → ε → Prop) : σ → List ε → Prop
  | _, [] => True
  | s, e :: evs => C s e ∧ Steps C (step s e) evs

instance decidableAlways (P : σ → Prop) [DecidablePred P] :
    (s : σ) → (evs : List ε) → Decidable (Always step P s evs)
  | s, [] => inferInstanceAs (Decidable (P s))
  | s, e :: evs =>
    have := decidableAlways P (step s e) evs
    inferInstanceAs (Decidable (P s ∧ Always step P (step s e) evs))

instance decidableSteps (C : σ → ε → Prop) [∀ s e, Decidable (C s e)] :
    (s : σ) → (evs : List ε) → Decidable (Steps step C s evs)
  | _, [] => inferInstanceAs (Decidable True)
  | s, e :: evs =>
    have := decidableSteps C (step s e) evs
    inferInstanceAs (Decidable (C s e ∧ Steps step C (step s e) evs))

variable {step}

theorem Always.head {P : σ → Prop} {s : σ} {evs : List ε} (h : Always step P s evs) : P s := by
  cases evs with
  | nil => exact h
  | cons e evs => exact h.1

theorem Always.last {P : σ → Prop} {s : σ} {evs : List ε} (h : Always step P s evs) :
    P (run step s evs) := by
  induction evs generalizing s with
  | nil => exact h
  | cons e evs ih => exact ih h.2

theorem Always.mono {P Q : σ → Prop} {s : σ} {evs : List ε} (hPQ : ∀ s, P s → Q s)
    (h : Always step P s evs) : Always step Q s evs := by
  induction evs generalizing s with
  | nil => exact hPQ s h
  | cons e evs ih => exact ⟨hPQ s h.1, ih h.2⟩

theorem Steps.and {C D : σ → ε → Prop} {s : σ} {evs : List ε} (h : Steps step C s evs)
    (h' : Steps step D s evs) : Steps step (fun s e => C s e ∧ D s e) s evs := by
  induction evs generalizing s with
  | nil => trivial
  | cons e evs ih => exact ⟨⟨h.1, h'.1⟩, ih h.2 h'.2⟩

/-- A condition that the events meet in every state. -/
theorem steps_of_forall {C : σ → ε → Prop} {s : σ} {evs : List ε}
    (h : ∀ s, ∀ e ∈ evs, C s e) : Steps step C s evs := by
  induction evs generalizing s with
  | nil => trivial
  | cons e evs ih =>
    exact ⟨h s e List.mem_cons_self, ih fun s e' he' => h s e' (List.mem_cons_of_mem e he')⟩

/-- A state predicate that holds throughout holds at both ends of every step. -/
theorem Always.steps {P : σ → Prop} {s : σ} {evs : List ε} (h : Always step P s evs) :
    Steps step (fun s e => P s ∧ P (step s e)) s evs := by
  induction evs generalizing s with
  | nil => trivial
  | cons e evs ih => exact ⟨⟨h.1, h.2.head⟩, ih h.2⟩

/-- A run that fails a step condition has a first step that does. -/
theorem exists_first_of_not_steps {C : σ → ε → Prop} {s : σ} {evs : List ε}
    (h : ¬ Steps step C s evs) :
    ∃ pre e post, evs = pre ++ e :: post ∧ Steps step C s pre ∧ ¬ C (run step s pre) e := by
  induction evs generalizing s with
  | nil => exact absurd trivial h
  | cons e evs ih =>
    by_cases hC : C s e
    · obtain ⟨pre, e', post, hevs, hpre, hfirst⟩ := ih fun hrest => h ⟨hC, hrest⟩
      exact ⟨e :: pre, e', post, by rw [hevs, List.cons_append], ⟨hC, hpre⟩, hfirst⟩
    · exact ⟨[], e, evs, rfl, trivial, hC⟩

theorem steps_append {C : σ → ε → Prop} {s : σ} {pre post : List ε} :
    Steps step C s (pre ++ post) ↔ Steps step C s pre ∧ Steps step C (run step s pre) post := by
  induction pre generalizing s with
  | nil => exact ⟨fun h => ⟨trivial, h⟩, fun h => h.2⟩
  | cons e pre ih => simp only [List.cons_append, Steps, ih, run_cons, and_assoc]

/-- `Always` says what it should: `P` holds after every prefix of the events. -/
theorem always_iff_prefix {P : σ → Prop} {s : σ} {evs : List ε} :
    Always step P s evs ↔ ∀ pre, pre <+: evs → P (run step s pre) := by
  induction evs generalizing s with
  | nil => simp [Always, List.prefix_nil]
  | cons e evs ih =>
    simp only [Always, ih, List.prefix_cons_iff]
    constructor
    · rintro ⟨h0, h⟩ pre (rfl | ⟨t, rfl, ht⟩)
      · exact h0
      · exact h t ht
    · intro h
      exact ⟨h [] (Or.inl rfl), fun pre hpre => h (e :: pre) (Or.inr ⟨pre, rfl, hpre⟩)⟩

/-- **Invariant rule.** What holds at the start and is kept by every step taken under `C`
holds throughout. -/
theorem always_of_step {C : σ → ε → Prop} {I : σ → Prop}
    (hstep : ∀ s e, I s → C s e → I (step s e)) {s : σ} {evs : List ε}
    (h0 : I s) (hC : Steps step C s evs) : Always step I s evs := by
  induction evs generalizing s with
  | nil => exact h0
  | cons e evs ih => exact ⟨h0, ih (hstep s e h0 hC.1) hC.2⟩

theorem run_of_step {C : σ → ε → Prop} {I : σ → Prop}
    (hstep : ∀ s e, I s → C s e → I (step s e)) {s : σ} {evs : List ε}
    (h0 : I s) (hC : Steps step C s evs) : I (run step s evs) :=
  (always_of_step hstep h0 hC).last

/-- An invariant of every step, whatever the event. -/
theorem run_of_invariant {I : σ → Prop} (hstep : ∀ s e, I s → I (step s e)) {s : σ} (h0 : I s)
    (evs : List ε) : I (run step s evs) := by
  induction evs generalizing s with
  | nil => exact h0
  | cons e evs ih => exact ih (hstep s e h0)

/-- **Exact-condition rule.** Among the runs whose steps all meet the assumption `A`: if a
good state with the invariant `I` stays good precisely when the step meets `C`, then a run
stays good throughout precisely when all its steps meet `C`. -/
theorem always_iff_steps {A C : σ → ε → Prop} {I P : σ → Prop}
    (hkeep : ∀ s e, I s → A s e → C s e → I (step s e) ∧ P (step s e))
    (hbreak : ∀ s e, I s → A s e → P (step s e) → C s e)
    {s : σ} {evs : List ε} (hI : I s) (hP : P s) (hA : Steps step A s evs) :
    Always step P s evs ↔ Steps step C s evs := by
  induction evs generalizing s with
  | nil => exact ⟨fun _ => trivial, fun _ => hP⟩
  | cons e evs ih =>
    constructor
    · intro h
      have hC := hbreak s e hI hA.1 h.2.head
      have hk := hkeep s e hI hA.1 hC
      exact ⟨hC, (ih hk.1 hk.2 hA.2).mp h.2⟩
    · intro h
      have hk := hkeep s e hI hA.1 h.1
      exact ⟨hP, (ih hk.1 hk.2 hA.2).mpr h.2⟩

/-! ## A machine that records more -/

/-- A part of the state that runs by itself. -/
theorem run_of_project {τ : Type} {step' : τ → ε → τ} (proj : τ → σ)
    (hproj : ∀ t e, proj (step' t e) = step (proj t) e) (t : τ) (evs : List ε) :
    proj (run step' t evs) = run step (proj t) evs := by
  induction evs generalizing t with
  | nil => rfl
  | cons e evs ih => rw [run_cons, run_cons, ih, hproj]

/-- A condition on the events and on a part of the state that runs by itself. -/
theorem steps_of_project {τ : Type} {step' : τ → ε → τ} (proj : τ → σ)
    (hproj : ∀ t e, proj (step' t e) = step (proj t) e) {C : σ → ε → Prop} {t : τ} {evs : List ε}
    (h : Steps step C (proj t) evs) : Steps step' (fun t e => C (proj t) e) t evs := by
  induction evs generalizing t with
  | nil => trivial
  | cons e evs ih => exact ⟨h.1, ih (hproj t e ▸ h.2)⟩

/-- A property of that part. -/
theorem always_project {τ : Type} {step' : τ → ε → τ} (proj : τ → σ)
    (hproj : ∀ t e, proj (step' t e) = step (proj t) e) {P : σ → Prop} {t : τ} {evs : List ε} :
    Always step P (proj t) evs ↔ Always step' (fun t => P (proj t)) t evs := by
  induction evs generalizing t with
  | nil => exact Iff.rfl
  | cons e evs ih => rw [Always, Always, ← hproj, ih]

/-! ## A machine next to an abstract one -/

section
variable {τ : Type} {astep : τ → ε → τ}

/-- **Exact condition on the abstract machine.** Let `R` imply `P` and be kept by a step
precisely when the abstract successor satisfies `G`, which once lost is lost for good. Then
`P` holds throughout a run if and only if the abstract machine ends in `G`. -/
theorem always_iff_abstract {R : σ → τ → Prop} {A G : τ → Prop} {P : σ → Prop}
    (hgood : ∀ s t, R s t → P s ∧ G t)
    (hkeep : ∀ s t e, R s t → A (astep t e) → G (astep t e) → R (step s e) (astep t e))
    (hbreak : ∀ s t e, R s t → A (astep t e) → ¬ G (astep t e) → ¬ P (step s e))
    (hlost : ∀ t e, G (astep t e) → G t)
    {s : σ} {t : τ} {evs : List ε} (hR : R s t) (hA : Always astep A t evs) :
    Always step P s evs ↔ G (run astep t evs) := by
  have hdown (t : τ) (evs : List ε) : G (run astep t evs) → G t := by
    induction evs generalizing t with
    | nil => exact id
    | cons e evs ih => exact fun h => hlost t e (ih _ h)
  induction evs generalizing s t with
  | nil => exact ⟨fun _ => (hgood s t hR).2, fun _ => (hgood s t hR).1⟩
  | cons e evs ih =>
    have hA' := hA.2.head
    by_cases hG : G (astep t e)
    · have hih := ih (hkeep s t e hR hA' hG) hA.2
      exact ⟨fun h => hih.mp h.2, fun h => ⟨(hgood s t hR).1, hih.mpr h⟩⟩
    · constructor
      · intro h
        exact absurd h.2.head (hbreak s t e hR hA' hG)
      · intro h
        exact absurd (hdown _ evs h) hG

end

end Run
