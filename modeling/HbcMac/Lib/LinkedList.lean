import Mathlib.Tactic.Common
import Mathlib.Logic.Function.Basic

/-!
# Singly linked lists in a heap

Nodes of type `N` with a pointer to the next one. `Chain next q ps` says that following the
pointers from `q` meets the nodes `ps` and comes to an end. There is at most one such list, so it
cannot come back to a node, and a new node behind the last one leaves the others where they are.
-/

namespace LinkedList

variable {N : Type} {next next' : N → Option N} {q : Option N} {ps : List N}

/-- The nodes from a pointer on, up to the end. -/
inductive Chain (next : N → Option N) : Option N → List N → Prop
  | nil : Chain next none []
  | cons {p : N} {ps : List N} (h : Chain next (next p) ps) : Chain next (some p) (p :: ps)

namespace Chain

theorem unique {ps' : List N} (h : Chain next q ps) (h' : Chain next q ps') : ps = ps' := by
  induction h generalizing ps' with
  | nil =>
    cases h'
    rfl
  | cons _ ih =>
    cases h' with
    | cons h' => rw [ih h']

theorem eq_none (h : Chain next q []) : q = none := by
  cases h
  rfl

/-- The rest of the list from a node on. -/
theorem drop {p : N} {ps' : List N} (h : Chain next q (ps ++ p :: ps')) :
    Chain next (some p) (p :: ps') := by
  induction ps generalizing q with
  | nil =>
    cases h with
    | cons h => exact cons h
  | cons a ps ih =>
    cases h with
    | cons h => exact ih h

/-- A list that ends does not come back to a node. -/
theorem nodup (h : Chain next q ps) : ps.Nodup := by
  induction h with
  | nil => exact List.nodup_nil
  | @cons p ps h ih =>
    apply List.nodup_cons.mpr ⟨?_, ih⟩
    intro hmem
    obtain ⟨a, b, rfl⟩ := List.append_of_mem hmem
    have hsame := (cons h).unique h.drop
    have hlen := congrArg List.length hsame
    simp only [List.length_cons, List.length_append] at hlen
    omega

/-- Only the pointers of its own nodes matter. -/
theorem congr (h : Chain next q ps) (heq : ∀ p ∈ ps, next' p = next p) : Chain next' q ps := by
  induction h with
  | nil => exact nil
  | @cons p ps _ ih =>
    apply cons
    rw [heq p List.mem_cons_self]
    exact ih fun p' hp' => heq p' (List.mem_cons_of_mem p hp')

variable [DecidableEq N]

/-- A node behind the last one. -/
theorem append {p new : N} (h : Chain next q (ps ++ [p])) (hnew : new ∉ ps ++ [p])
    (hend : next new = none) :
    Chain (Function.update next p (some new)) q (ps ++ [p] ++ [new]) := by
  induction ps generalizing q with
  | nil =>
    have hne : new ≠ p := fun heq => hnew (heq ▸ List.mem_cons_self)
    cases h with
    | cons h =>
      apply cons
      rw [Function.update_self]
      apply cons
      rw [Function.update_of_ne hne, hend]
      exact nil
  | cons a ps ih =>
    have hne : a ≠ p := by
      rintro rfl
      have hnodup := h.nodup
      rw [List.cons_append, List.nodup_cons] at hnodup
      exact hnodup.1 (List.mem_append_right ps List.mem_cons_self)
    cases h with
    | cons h =>
      apply cons
      rw [Function.update_of_ne hne]
      exact ih h fun hmem => hnew (List.mem_cons_of_mem a hmem)

end Chain

end LinkedList
