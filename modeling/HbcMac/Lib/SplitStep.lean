import HbcMac.Lib.Simulation

/-!
# Steps taken access by access

A machine one of whose steps reads some values, one at a time, and then writes what it makes of
them. Taken access by access, other steps may come in between. As long as these do not change what
has been read, the machine still does what it does step by step.
-/

/-- The step `main` of a machine with the steps `step`. After the values `held` it reads
`next s held`, or is ready to write; `reads s` is what it reads when nothing comes in between. -/
structure SplitStep (σ ε ρ : Type) where
  step : σ → ε → σ
  isMain : ε → Bool
  next : σ → List ρ → Option ρ
  write : σ → List ρ → σ
  reads : σ → List ρ
  next_reads : ∀ s held, held <+: reads s → next s held = (reads s)[held.length]?
  write_reads : ∀ s e, isMain e = true → write s (reads s) = step s e

namespace SplitStep

variable {σ ε ρ : Type} (M : SplitStep σ ε ρ)

/-- One access, or a step of something else. -/
def access (z : σ × List ρ) (e : ε) : σ × List ρ :=
  if M.isMain e then
    match M.next z.1 z.2 with
    | some r => (z.1, z.2 ++ [r])
    | none => (M.write z.1 z.2, [])
  else (M.step z.1 e, z.2)

/-- The step of the machine that is made with this access. -/
def visible (z : σ × List ρ) (e : ε) : Option ε :=
  if M.isMain e ∧ (M.next z.1 z.2).isSome then none else some e

/-- What has been read would be read again. -/
def Current (z : σ × List ρ) : Prop := z.2 <+: M.reads z.1

/-- A step of something else that does not change what has been read. -/
def Undisturbed (z : σ × List ρ) (e : ε) : Prop :=
  M.isMain e = false → z.2 <+: M.reads (M.step z.1 e)

variable {M} {z : σ × List ρ} {e : ε}

theorem access_read {r : ρ} (he : M.isMain e = true) (hr : M.next z.1 z.2 = some r) :
    M.access z e = (z.1, z.2 ++ [r]) ∧ M.visible z e = none := by
  rw [access, visible, if_pos he, hr, if_pos ⟨he, rfl⟩]
  exact ⟨rfl, rfl⟩

theorem access_write (he : M.isMain e = true) (hnone : M.next z.1 z.2 = none) :
    M.access z e = (M.write z.1 z.2, []) ∧ M.visible z e = some e := by
  rw [access, visible, if_pos he, hnone, if_neg (by simp)]
  exact ⟨rfl, rfl⟩

theorem access_other (he : M.isMain e = false) :
    M.access z e = (M.step z.1 e, z.2) ∧ M.visible z e = some e := by
  have hnot : ¬ M.isMain e = true := by rw [he]; exact Bool.false_ne_true
  rw [access, visible, if_neg hnot, if_neg fun h => hnot h.1]
  exact ⟨rfl, rfl⟩

/-- **One access.** Reads go on, and a write is the whole step. -/
theorem Current.access (h : M.Current z) (hC : M.Undisturbed z e) :
    M.Current (M.access z e) ∧ (M.access z e).1 = (M.visible z e).elim z.1 (M.step z.1) := by
  cases he : M.isMain e with
  | false =>
    obtain ⟨haccess, hvisible⟩ := access_other (z := z) he
    rw [haccess, hvisible]
    exact ⟨hC he, rfl⟩
  | true =>
    have hreads := M.next_reads z.1 z.2 h
    cases hnext : M.next z.1 z.2 with
    | some r =>
      obtain ⟨haccess, hvisible⟩ := access_read he hnext
      rw [haccess, hvisible]
      rw [hnext] at hreads
      refine ⟨?_, rfl⟩
      -- one value more
      obtain ⟨hlt, hr⟩ := List.getElem?_eq_some_iff.mp hreads.symm
      have htake := List.prefix_iff_eq_take.mp h
      show z.2 ++ [r] <+: M.reads z.1
      have hsucc : (M.reads z.1).take (z.2.length + 1) = z.2 ++ [r] := by
        rw [List.take_succ_eq_append_getElem hlt, ← htake, hr]
      rw [← hsucc]
      exact List.take_prefix _ _
    | none =>
      obtain ⟨haccess, hvisible⟩ := access_write he hnext
      rw [haccess, hvisible]
      rw [hnext] at hreads
      have hall : z.2 = M.reads z.1 :=
        h.eq_of_length (Nat.le_antisymm h.length_le (List.getElem?_eq_none_iff.mp hreads.symm))
      refine ⟨List.nil_prefix, ?_⟩
      rw [hall]
      exact M.write_reads z.1 e he

variable (M) in
/-- What is not split is there in both. -/
theorem others_actions (z : σ × List ρ) (evs : List ε) :
    (Run.actions M.access M.visible z evs).filter (fun e => !M.isMain e)
      = evs.filter fun e => !M.isMain e := by
  induction evs generalizing z with
  | nil => rfl
  | cons e evs ih =>
    rw [Run.actions, List.filter_append, ih, List.filter_cons]
    cases he : M.isMain e with
    | false =>
      rw [(access_other he).2, Option.toList_some, List.filter_singleton, he]
      rfl
    | true =>
      have hnone : (M.visible z e).toList.filter (fun e => !M.isMain e) = [] := by
        rw [visible]
        split
        · rfl
        · rw [Option.toList_some, List.filter_singleton, he]
          rfl
      rw [hnone]
      rfl

/-- **A run access by access** in which nothing is disturbed is a run of the machine. -/
theorem Current.run {evs : List ε} (h : M.Current z)
    (hC : Run.Steps M.access M.Undisturbed z evs) :
    M.Current (Run.run M.access z evs) ∧
      (Run.run M.access z evs).1 = Run.run M.step z.1 (Run.actions M.access M.visible z evs) := by
  induction evs generalizing z with
  | nil => exact ⟨h, rfl⟩
  | cons e evs ih =>
    obtain ⟨hnext, hstep⟩ := h.access hC.1
    obtain ⟨hend, hrun⟩ := ih hnext hC.2
    refine ⟨hend, ?_⟩
    rw [Run.run_cons, hrun, hstep, Run.actions, Run.run_append]
    cases M.visible z e with
    | none => rfl
    | some e' => rfl

end SplitStep
