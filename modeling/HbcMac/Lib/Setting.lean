import Mathlib.Tactic.Common

/-!
# Entries under a setting

A trace in which some entries set a value and others are used under the value set last, such as the
writes to a mode register and those to the data register next to it.
-/

namespace Setting

variable {α β γ : Type} (set : α → Option β) (use : α → Option γ)

/-- The value in force behind the trace. -/
def after (b : β) (tr : List α) : β := tr.foldl (fun b o => (set o).getD b) b

/-- The entries in use, each with the value in force. -/
def uses : β → List α → List (β × γ)
  | _, [] => []
  | b, o :: tr => ((use o).map (Prod.mk b)).toList ++ uses ((set o).getD b) tr

variable {set use}

/-- A trace can be cut anywhere. -/
theorem uses_append (b : β) (tr tr' : List α) :
    uses set use b (tr ++ tr') = uses set use b tr ++ uses set use (after set b tr) tr' := by
  induction tr generalizing b with
  | nil => rfl
  | cons o tr ih =>
    rw [List.cons_append, uses, uses, ih, List.append_assoc]
    rfl

/-- Entries that neither set nor use anything make no difference. -/
theorem uses_filter {p : α → Bool} (hp : ∀ o, p o = false → set o = none ∧ use o = none) (b : β)
    (tr : List α) : uses set use b (tr.filter p) = uses set use b tr := by
  induction tr generalizing b with
  | nil => rfl
  | cons o tr ih =>
    rw [List.filter_cons]
    split
    · rw [uses, uses, ih]
    · next hout =>
      obtain ⟨hset, huse⟩ := hp o (Bool.eq_false_iff.mpr hout)
      rw [uses, ih, hset, huse]
      rfl

/-- A trace in which nothing is used. -/
theorem uses_of_none {tr : List α} (h : ∀ o ∈ tr, use o = none) (b : β) :
    uses set use b tr = [] := by
  induction tr generalizing b with
  | nil => rfl
  | cons o tr ih =>
    obtain ⟨hfirst, hrest⟩ := List.forall_mem_cons.mp h
    rw [uses, hfirst, ih hrest]
    rfl

/-- Entries in use one behind the other, with nothing set in between. -/
theorem uses_map {f : γ → α} (hset : ∀ c, set (f c) = none) (huse : ∀ c, use (f c) = some c) (b : β)
    (cs : List γ) : uses set use b (cs.map f) = cs.map (Prod.mk b) := by
  induction cs with
  | nil => rfl
  | cons c cs ih =>
    rw [List.map_cons, uses, hset, huse, Option.getD_none, ih]
    rfl

end Setting
