import Mathlib.Tactic.Common

/-!
# One-shot events in a trace

A component has to fire once before it may wait: the first time it finds itself blocked it fires
before it tries again, and from then on it may be blocked as often as it likes. Firing leaves the
entries `pulse` in the trace, finding itself blocked the entry `blocked`. `OneShot pulse blocked
t tr t'` says that the trace `tr` is one of such a component, which has fired before the trace if
`t` and after it if `t'`.
-/

/-- The traces of a component that fires at most once, and before it waits. -/
inductive OneShot {α : Type} (pulse : List α) (blocked : α) : Bool → List α → Bool → Prop
  | nil (t : Bool) : OneShot pulse blocked t [] t
  | quiet {t t' : Bool} {o : α} {tr : List α} (hpulse : o ∉ pulse) (hblocked : o ≠ blocked)
      (h : OneShot pulse blocked t tr t') : OneShot pulse blocked t (o :: tr) t'
  | fire {t' : Bool} {tr : List α} (h : OneShot pulse blocked true tr t') :
      OneShot pulse blocked false (pulse ++ tr) t'
  | wait {t' : Bool} {tr : List α} (h : OneShot pulse blocked true tr t') :
      OneShot pulse blocked true (blocked :: tr) t'
  | fireAndWait {t' : Bool} {tr : List α} (h : OneShot pulse blocked true tr t') :
      OneShot pulse blocked false (blocked :: (pulse ++ tr)) t'

namespace OneShot

variable {α : Type} {pulse : List α} {blocked : α} {t t' t'' : Bool} {tr tr' : List α}

theorem append (h : OneShot pulse blocked t tr t') (h' : OneShot pulse blocked t' tr' t'') :
    OneShot pulse blocked t (tr ++ tr') t'' := by
  induction h with
  | nil t => exact h'
  | quiet hpulse hblocked _ ih => exact quiet hpulse hblocked (ih h')
  | fire _ ih =>
    rw [List.append_assoc]
    exact fire (ih h')
  | wait _ ih => exact wait (ih h')
  | fireAndWait _ ih =>
    rw [List.cons_append, List.append_assoc]
    exact fireAndWait (ih h')

theorem single {o : α} (hpulse : o ∉ pulse) (hblocked : o ≠ blocked) :
    OneShot pulse blocked t [o] t := quiet hpulse hblocked (nil t)

theorem fired : OneShot pulse blocked false pulse true := by
  have h : OneShot pulse blocked false (pulse ++ []) true := fire (nil true)
  rwa [List.append_nil] at h

/-- Having fired, the component does not fire again. -/
theorem not_again (hpb : blocked ∉ pulse) (h : OneShot pulse blocked true tr t') :
    t' = true ∧ ∀ o ∈ pulse, o ∉ tr := by
  generalize ht : true = t at h
  induction h with
  | nil => exact ⟨rfl, fun o _ => List.not_mem_nil⟩
  | quiet hpulse _ _ ih =>
    obtain ⟨hend, hnone⟩ := ih ht
    refine ⟨hend, fun o ho hmem => ?_⟩
    rcases List.mem_cons.mp hmem with rfl | hmem
    · exact hpulse ho
    · exact hnone o ho hmem
  | fire => cases ht
  | wait _ ih =>
    obtain ⟨hend, hnone⟩ := ih ht
    refine ⟨hend, fun o ho hmem => ?_⟩
    rcases List.mem_cons.mp hmem with rfl | hmem
    · exact hpb ho
    · exact hnone o ho hmem
  | fireAndWait => cases ht

/-- **Once.** A component that has fired in the end but not at the start has fired once. -/
theorem once (hpb : blocked ∉ pulse) (h : OneShot pulse blocked false tr true) :
    ∃ a b, tr = a ++ pulse ++ b ∧ ∀ o ∈ pulse, o ∉ a ++ b := by
  generalize ht : false = t, ht' : true = t' at h
  induction h with
  | nil => cases ht.trans ht'.symm
  | quiet hpulse _ _ ih =>
    obtain ⟨a, b, rfl, hnone⟩ := ih ht ht'
    refine ⟨_ :: a, b, rfl, fun o ho hmem => ?_⟩
    rcases List.mem_cons.mp hmem with rfl | hmem
    · exact hpulse ho
    · exact hnone o ho hmem
  | fire h _ => exact ⟨[], _, rfl, (h.not_again hpb).2⟩
  | wait => cases ht
  | fireAndWait h _ =>
    refine ⟨[blocked], _, rfl, fun o ho hmem => ?_⟩
    rcases List.mem_cons.mp hmem with rfl | hmem
    · exact hpb ho
    · exact (h.not_again hpb).2 o ho hmem

/-- What stands in front of an entry that is none of the pulse begins with the whole pulse if
the trace does. -/
theorem prefix_of_append {o : α} {a b : List α} (ho : o ∉ pulse) (h : pulse ++ tr = a ++ o :: b) :
    pulse <+: a := by
  rcases List.append_eq_append_iff.mp h with ⟨a', ha, -⟩ | ⟨b', hpulse, hrest⟩
  · exact ⟨a', ha.symm⟩
  · cases b' with
    | nil =>
      have ha : pulse = a := hpulse.trans (List.append_nil a)
      exact ⟨[], by rw [List.append_nil, ha]⟩
    | cons x b' =>
      apply absurd _ ho
      rw [hpulse, (List.cons.inj hrest).1]
      simp

/-- **No wait before the pulse.** If the component tries again after it was blocked, it has fired
in between or before. -/
theorem pulse_before_retry (hpb : blocked ∉ pulse) (h : OneShot pulse blocked false tr t')
    {a b c : List α} {o : α} (ho : o ∉ pulse) (hsplit : tr = a ++ blocked :: (b ++ o :: c)) :
    pulse <:+: a ++ blocked :: b := by
  generalize ht : false = t at h
  induction h generalizing a with
  | nil => simp at hsplit
  | quiet hpulse hblocked _ ih =>
    cases a with
    | nil => exact absurd (List.cons.inj hsplit).1 hblocked
    | cons x a => exact List.infix_cons (ih (List.cons.inj hsplit).2 ht)
  | fire =>
    have hfirst : pulse <+: a := prefix_of_append hpb hsplit
    exact (hfirst.trans (List.prefix_append a (blocked :: b))).isInfix
  | wait => cases ht
  | fireAndWait =>
    cases a with
    | nil =>
      have hfirst : pulse <+: b := prefix_of_append ho (List.cons.inj hsplit).2
      exact List.infix_cons hfirst.isInfix
    | cons x a =>
      have hfirst : pulse <+: a := prefix_of_append hpb (List.cons.inj hsplit).2
      exact List.infix_cons (hfirst.trans (List.prefix_append a (blocked :: b))).isInfix

end OneShot
