import HbcMac.Hardware
import HbcMac.Lib.LinkedList
import Mathlib.Data.List.Basic

/-!
# `interrupt.c`

The handlers are static structures, chained in the order of their registration; `N` are their
addresses and `F` the addresses of the functions. A function that is called is an entry of the
trace, and so is an acknowledge. The two loops over the chain end only if the chain does: they
have fuel, and no result when it runs out.
-/

namespace HbcMac

open LinkedList

/-! ## The code -/

/-- `int_handler_t`. -/
structure IntHandler (N F : Type) where
  irqLine : Word
  func : F
  next : Option N

/-- What `int_handler` does to the outside. -/
inductive IntEvent (F : Type)
  | ack (mask : Word)
  | call (func : F)

/-- The structures, `int_handler_list` and the interrupts pending at the controller, one bit for
each; those of the lines are the upper sixteen. -/
structure Interrupts (N F : Type) where
  handlers : N → IntHandler N F
  intHandlerList : Option N
  pending : Word
  trace : List (IntEvent F)

section
variable {N F : Type}

/-- `XIOModule_AckIntr`. -/
def ackIntr (mask : Word) (s : Interrupts N F) : Interrupts N F :=
  { s with pending := s.pending &&& ~~~mask, trace := s.trace ++ [.ack mask] }

/-- The bit of a line. -/
def lineMask (irqLine : ℕ) : Word := 1 <<< (irqLine + 16)

/-- `for (irq_line = 0; irq_line < 16; irq_line++)` with `n` rounds left. -/
def findLine (pendingMask : Word) : ℕ → ℕ → ℕ
  | 0, irqLine => irqLine
  | n + 1, irqLine =>
    if pendingMask &&& lineMask irqLine ≠ 0 then irqLine
    else findLine pendingMask n (irqLine + 1)

/-- `while (int_handler)`. -/
def callHandlers (irqLine : ℕ) : ℕ → Option N → Interrupts N F → Option (Interrupts N F)
  | _, none, s => some s
  | 0, some _, _ => none
  | fuel + 1, some p, s =>
    let h := s.handlers p
    callHandlers irqLine fuel h.next
      (if h.irqLine = BitVec.ofNat 32 irqLine then { s with trace := s.trace ++ [.call h.func] }
      else s)

/-- `int_handler`: the lowest pending line is acknowledged, and the handlers registered for it are
called. -/
def intHandler (fuel : ℕ) (s : Interrupts N F) : Option (Interrupts N F) :=
  let irqLine := findLine s.pending 16 0
  callHandlers irqLine fuel s.intHandlerList (ackIntr (lineMask irqLine) s)

/-- `while (last_handler)` in `add_int_handler`. -/
def lastHandler (handlers : N → IntHandler N F) : ℕ → N → Option N
  | 0, _ => none
  | fuel + 1, p =>
    match (handlers p).next with
    | none => some p
    | some q => lastHandler handlers fuel q

variable [DecidableEq N]

/-- `p->next = q`. -/
def setNext (p : N) (q : Option N) (s : Interrupts N F) : Interrupts N F :=
  { s with handlers := Function.update s.handlers p { s.handlers p with next := q } }

/-- `add_int_handler`: the new handler goes to the end of the list. -/
def addIntHandler (fuel : ℕ) (newHandler : N) (s : Interrupts N F) : Option (Interrupts N F) :=
  let s' := setNext newHandler none s
  match s.intHandlerList with
  | none => some { s' with intHandlerList := some newHandler }
  | some p => (lastHandler s'.handlers fuel p).map fun last => setNext last (some newHandler) s'

end

/-! ## Pending lines -/

/-- The line is pending. -/
def linePending (pending : Word) (irqLine : ℕ) : Bool := pending.getLsbD (irqLine + 16)

/-- The pending lines, the lowest first. -/
def pendingLines (pending : Word) : List ℕ := (List.range 16).filter (linePending pending)

/-- The mask of a line picks its bit. -/
theorem and_lineMask (pending : Word) {irqLine : ℕ} (h : irqLine < 16) :
    pending &&& lineMask irqLine ≠ 0 ↔ linePending pending irqLine = true := by
  have hmask : lineMask irqLine = BitVec.twoPow 32 (irqLine + 16) := rfl
  rw [hmask, BitVec.and_twoPow, linePending]
  cases pending.getLsbD (irqLine + 16) with
  | true =>
    have hne : BitVec.twoPow 32 (irqLine + 16) ≠ 0#32 := by
      intro hzero
      have hbit := congrArg (fun m : Word => m.getLsbD (irqLine + 16)) hzero
      simp only [BitVec.getLsbD_twoPow, BitVec.getLsbD_zero] at hbit
      simp at hbit
      omega
    simpa using hne
  | false => simp

/-- The scan stops at the first line that is pending. -/
theorem findLine_eq {pending : Word} {n irqLine l : ℕ} {ls : List ℕ} (h : irqLine + n ≤ 16)
    (hls : (List.range' irqLine n).filter (linePending pending) = l :: ls) :
    findLine pending n irqLine = l := by
  induction n generalizing irqLine with
  | zero => cases hls
  | succ n ih =>
    rw [List.range'_succ] at hls
    rw [findLine]
    cases hbit : linePending pending irqLine with
    | true =>
      rw [if_pos ((and_lineMask pending (by omega)).mpr hbit)]
      rw [List.filter_cons_of_pos hbit] at hls
      exact (List.cons.inj hls).1
    | false =>
      rw [if_neg (mt (and_lineMask pending (by omega)).mp (ne_true_of_eq_false hbit))]
      rw [List.filter_cons_of_neg (ne_true_of_eq_false hbit)] at hls
      exact ih (by omega) hls

/-- An acknowledge clears one line. -/
theorem linePending_ack (pending : Word) {l i : ℕ} (hi : i < 16) :
    linePending (pending &&& ~~~lineMask l) i = (decide (i ≠ l) && linePending pending i) := by
  have hmask : lineMask l = BitVec.twoPow 32 (l + 16) := rfl
  have hlt : i + 16 < 32 := by omega
  rw [linePending, hmask, BitVec.getLsbD_and, BitVec.getLsbD_not, BitVec.getLsbD_twoPow,
    linePending]
  by_cases hil : i = l
  · simp [hil]
  · simp [hil, Ne.symm hil, hlt]

/-- Acknowledging the lowest line leaves the others pending. -/
theorem pendingLines_ack {pending : Word} {l : ℕ} {ls : List ℕ}
    (h : pendingLines pending = l :: ls) : pendingLines (pending &&& ~~~lineMask l) = ls := by
  have hnodup : (l :: ls).Nodup := by
    rw [← h]
    exact List.nodup_range.filter _
  have hfilter : pendingLines (pending &&& ~~~lineMask l)
      = (pendingLines pending).filter fun i => decide (i ≠ l) := by
    rw [pendingLines, pendingLines, List.filter_filter]
    apply List.filter_congr
    intro i hi
    exact linePending_ack pending (List.mem_range.mp hi)
  rw [hfilter, h, List.filter_cons_of_neg (by simp)]
  apply List.filter_eq_self.mpr
  intro i hi
  have hne : i ≠ l := by
    rintro rfl
    exact (List.nodup_cons.mp hnodup).1 hi
  exact decide_eq_true hne

/-! ## Registration -/

section
variable {N F : Type}

/-- The handlers registered, in the order of their registration: the chain ends behind them. -/
def Registered (s : Interrupts N F) (ps : List N) : Prop :=
  Chain (fun p => (s.handlers p).next) s.intHandlerList ps

/-- Between `s` and `s'` only pointers change. -/
structure Relinked (s s' : Interrupts N F) : Prop where
  irqLine : ∀ p, (s'.handlers p).irqLine = (s.handlers p).irqLine
  func : ∀ p, (s'.handlers p).func = (s.handlers p).func
  pending : s'.pending = s.pending
  trace : s'.trace = s.trace

theorem Relinked.refl (s : Interrupts N F) : Relinked s s :=
  ⟨fun _ => rfl, fun _ => rfl, rfl, rfl⟩

theorem Relinked.trans {s s' s'' : Interrupts N F} (h : Relinked s s') (h' : Relinked s' s'') :
    Relinked s s'' :=
  ⟨fun p => (h'.irqLine p).trans (h.irqLine p), fun p => (h'.func p).trans (h.func p),
    h'.pending.trans h.pending, h'.trace.trans h.trace⟩

/-- The loop comes to the end of the list. -/
theorem lastHandler_eq {handlers : N → IntHandler N F} {p last : N} {ps : List N} {fuel : ℕ}
    (h : Chain (fun p => (handlers p).next) (some p) (ps ++ [last])) (hfuel : ps.length < fuel) :
    lastHandler handlers fuel p = some last := by
  induction ps generalizing p fuel with
  | nil =>
    cases fuel with
    | zero => omega
    | succ fuel =>
      cases h with
      | cons h =>
        have hend : (handlers last).next = none := h.eq_none
        rw [lastHandler, hend]
  | cons a ps ih =>
    cases fuel with
    | zero => omega
    | succ fuel =>
      cases h with
      | cons h =>
        cases hnext : (handlers a).next with
        | none =>
          rw [hnext] at h
          exact absurd (h.unique .nil) (by simp)
        | some q =>
          rw [hnext] at h
          rw [lastHandler, hnext]
          exact ih h (Nat.lt_of_succ_lt_succ hfuel)

variable [DecidableEq N]

/-- One handler gets another successor. -/
theorem handlers_setNext (p p' : N) (q : Option N) (s : Interrupts N F) :
    (setNext p q s).handlers p'
      = if p' = p then { s.handlers p with next := q } else s.handlers p' :=
  Function.update_apply ..

/-- The successors are updated in one place. -/
theorem next_setNext (p : N) (q : Option N) (s : Interrupts N F) :
    (fun p' => ((setNext p q s).handlers p').next)
      = Function.update (fun p' => (s.handlers p').next) p q := by
  funext p'
  rw [handlers_setNext, Function.update_apply]
  by_cases heq : p' = p
  · rw [if_pos heq, if_pos heq]
  · rw [if_neg heq, if_neg heq]

/-- Only the links change. -/
theorem relinked_setNext (p : N) (q : Option N) (s : Interrupts N F) :
    Relinked s (setNext p q s) := by
  refine ⟨fun p' => ?_, fun p' => ?_, rfl, rfl⟩ <;> rw [handlers_setNext]
  · by_cases heq : p' = p
    · rw [if_pos heq, heq]
    · rw [if_neg heq]
  · by_cases heq : p' = p
    · rw [if_pos heq, heq]
    · rw [if_neg heq]

/-- A handler is registered behind the others, which stay where they are. -/
theorem addIntHandler_registered {s : Interrupts N F} {ps : List N} {new : N} {fuel : ℕ}
    (h : Registered s ps) (hnew : new ∉ ps) (hfuel : ps.length ≤ fuel) :
    ∃ s', addIntHandler fuel new s = some s' ∧ Registered s' (ps ++ [new]) ∧ Relinked s s' := by
  have hend := next_setNext new none s
  have hothers : Chain (fun p => ((setNext new none s).handlers p).next) s.intHandlerList ps := by
    rw [hend]
    apply h.congr
    intro p hp
    exact Function.update_of_ne (fun heq : p = new => hnew (heq ▸ hp)) _ _
  have hnone : ((setNext new none s).handlers new).next = none := by
    rw [handlers_setNext, if_pos rfl]
  rcases List.eq_nil_or_concat' ps with rfl | ⟨ps, last, rfl⟩
  · have hempty : s.intHandlerList = none := h.eq_none
    refine ⟨{ setNext new none s with intHandlerList := some new }, ?_, ?_, ?_⟩
    · rw [addIntHandler, hempty]
    · apply Chain.cons
      rw [hnone]
      exact Chain.nil
    · obtain ⟨hline, hfunc, hpending, htrace⟩ := relinked_setNext new none s
      exact ⟨hline, hfunc, hpending, htrace⟩
  · refine ⟨setNext last (some new) (setNext new none s), ?_, ?_, ?_⟩
    · obtain ⟨p, hp⟩ : ∃ p, s.intHandlerList = some p := by
        cases hlist : s.intHandlerList with
        | none =>
          rw [hlist] at hothers
          exact absurd (hothers.unique .nil) (by simp)
        | some p => exact ⟨p, rfl⟩
      rw [hp] at hothers
      rw [List.length_append] at hfuel
      have hlast := lastHandler_eq hothers hfuel
      simp only [addIntHandler, hp, hlast, Option.map_some]
    · rw [Registered, next_setNext]
      exact hothers.append hnew hnone
    · exact (relinked_setNext new none s).trans (relinked_setNext last (some new) _)

/-- The registrations, one after the other. -/
def registerAll (fuel : ℕ) : List N → Interrupts N F → Option (Interrupts N F)
  | [], s => some s
  | p :: regs, s => (addIntHandler fuel p s).bind (registerAll fuel regs)

/-- Handlers are registered in the order of the calls. -/
theorem registerAll_registered {s : Interrupts N F} {ps regs : List N} {fuel : ℕ}
    (h : Registered s ps) (hdistinct : (ps ++ regs).Nodup) (hfuel : (ps ++ regs).length ≤ fuel) :
    ∃ s', registerAll fuel regs s = some s' ∧ Registered s' (ps ++ regs) ∧ Relinked s s' := by
  induction regs generalizing s ps with
  | nil =>
    rw [List.append_nil]
    exact ⟨s, rfl, h, Relinked.refl s⟩
  | cons p regs ih =>
    have hassoc : ps ++ p :: regs = ps ++ [p] ++ regs := List.append_cons ps p regs
    have hnew : p ∉ ps := by
      intro hmem
      exact (List.nodup_append.mp hdistinct).2.2 p hmem p List.mem_cons_self rfl
    have hroom : ps.length ≤ fuel := by
      rw [List.length_append] at hfuel
      omega
    obtain ⟨s₁, hadd, hreg, hlinks⟩ := addIntHandler_registered h hnew hroom
    rw [hassoc] at hdistinct hfuel
    obtain ⟨s₂, hrest, hall, hlinks'⟩ := ih hreg hdistinct hfuel
    rw [hassoc]
    refine ⟨s₂, ?_, hall, hlinks.trans hlinks'⟩
    rw [registerAll, hadd]
    exact hrest

end

/-! ## Dispatch -/

section
variable {N F : Type}

/-- The calls of those of the handlers `ps` that are for a line. -/
def callsFor (handlers : N → IntHandler N F) (irqLine : ℕ) (ps : List N) : List (IntEvent F) :=
  (ps.filter fun p => (handlers p).irqLine = BitVec.ofNat 32 irqLine).map fun p =>
    .call (handlers p).func

/-- What is done when a line is served. -/
def served (handlers : N → IntHandler N F) (ps : List N) (irqLine : ℕ) : List (IntEvent F) :=
  .ack (lineMask irqLine) :: callsFor handlers irqLine ps

/-- The loop calls the handlers of the line, in the order of the chain. -/
theorem callHandlers_eq {q : Option N} {ps : List N} {s : Interrupts N F} {fuel : ℕ} (irqLine : ℕ)
    (h : Chain (fun p => (s.handlers p).next) q ps) (hfuel : ps.length ≤ fuel) :
    callHandlers irqLine fuel q s
      = some { s with trace := s.trace ++ callsFor s.handlers irqLine ps } := by
  induction ps generalizing q s fuel with
  | nil =>
    rw [h.eq_none]
    cases fuel <;> simp [callHandlers, callsFor]
  | cons a ps ih =>
    cases fuel with
    | zero => cases hfuel
    | succ fuel =>
      cases h with
      | cons h =>
        rw [callHandlers]
        by_cases hline : (s.handlers a).irqLine = BitVec.ofNat 32 irqLine
        · simp only [hline, if_true]
          rw [ih (s := { s with trace := s.trace ++ [.call (s.handlers a).func] }) h
            (Nat.le_of_succ_le_succ hfuel)]
          simp [callsFor, hline]
        · simp only [hline, if_false]
          rw [ih h (Nat.le_of_succ_le_succ hfuel)]
          simp [callsFor, hline]

/-- One interrupt serves the lowest pending line. -/
theorem intHandler_eq {s : Interrupts N F} {ps : List N} {fuel l : ℕ} {ls : List ℕ}
    (h : Registered s ps) (hfuel : ps.length ≤ fuel) (hlines : pendingLines s.pending = l :: ls) :
    intHandler fuel s = some { s with
      pending := s.pending &&& ~~~lineMask l
      trace := s.trace ++ served s.handlers ps l } := by
  have hfind : findLine s.pending 16 0 = l := findLine_eq (n := 16) (by decide) hlines
  rw [intHandler, hfind, callHandlers_eq (s := ackIntr (lineMask l) s) l h hfuel]
  simp only [ackIntr, served, List.append_assoc, List.singleton_append]

/-- `n` interrupts without new arrivals. -/
def dispatch (fuel : ℕ) : ℕ → Interrupts N F → Option (Interrupts N F)
  | 0, s => some s
  | n + 1, s => (intHandler fuel s).bind (dispatch fuel n)

/-- The interrupts served one after the other, as many as lines are pending. -/
theorem dispatch_eq {s : Interrupts N F} {ps : List N} {fuel : ℕ} {ls : List ℕ}
    (h : Registered s ps) (hfuel : ps.length ≤ fuel) (hlines : pendingLines s.pending = ls) :
    ∃ t, dispatch fuel ls.length s = some t
      ∧ t.trace = s.trace ++ ls.flatMap (served s.handlers ps)
      ∧ t.handlers = s.handlers ∧ t.intHandlerList = s.intHandlerList
      ∧ pendingLines t.pending = [] := by
  induction ls generalizing s with
  | nil => exact ⟨s, rfl, (List.append_nil _).symm, rfl, rfl, hlines⟩
  | cons l ls ih =>
    have hfirst := intHandler_eq h hfuel hlines
    obtain ⟨t, hrest, htrace, hhandlers, hlist, hnone⟩ := ih
      (s := { s with
        pending := s.pending &&& ~~~lineMask l
        trace := s.trace ++ served s.handlers ps l }) h (pendingLines_ack hlines)
    refine ⟨t, ?_, ?_, hhandlers, hlist, hnone⟩
    · rw [List.length_cons, dispatch, hfirst]
      exact hrest
    · rw [htrace, List.flatMap_cons, List.append_assoc]

/-- **Every pending line is served once.** After any registrations of distinct handlers, as many
interrupts as there are pending lines acknowledge these lines, the lowest first, and call for
each of them its handlers in the order of registration. The chain is that of the registrations,
with an end, before and after. -/
theorem interrupts_served [DecidableEq N] (handlers : N → IntHandler N F) {regs : List N}
    (hdistinct : regs.Nodup) (pending : Word) {fuel : ℕ} (hfuel : regs.length ≤ fuel) :
    ∃ s t, registerAll fuel regs ⟨handlers, none, pending, []⟩ = some s
      ∧ dispatch fuel (pendingLines pending).length s = some t
      ∧ Registered s regs ∧ Registered t regs
      ∧ t.trace = (pendingLines pending).flatMap (served handlers regs)
      ∧ pendingLines t.pending = [] := by
  have hempty : Registered ⟨handlers, none, pending, []⟩ [] := Chain.nil
  obtain ⟨s, hregister, hreg, hlinks⟩ := registerAll_registered hempty hdistinct hfuel
  rw [List.nil_append] at hreg
  have hpending : pendingLines s.pending = pendingLines pending := by rw [hlinks.pending]
  obtain ⟨t, hdispatch, htrace, hhandlers, hlist, hnone⟩ := dispatch_eq hreg hfuel hpending
  refine ⟨s, t, hregister, hdispatch, hreg, ?_, ?_, hnone⟩
  · rw [Registered, hhandlers, hlist]
    exact hreg
  · have hserved : served s.handlers regs = served handlers regs := by
      funext irqLine
      simp only [served, callsFor, hlinks.irqLine, hlinks.func]
    rw [htrace, hlinks.trace, hserved, List.nil_append]

end

/-- Two handlers on line 3 with one on line 5 between them; lines 3, 5 and 9 are pending. -/
theorem interrupts_served_three :
    let handlers : ℕ → IntHandler ℕ ℕ := fun p => ⟨if p = 1 then 5 else 3, 10 * p, none⟩
    ∃ s t, registerAll 3 [2, 1, 0] ⟨handlers, none, 0x02280000, []⟩ = some s
      ∧ dispatch 3 (pendingLines 0x02280000).length s = some t
      ∧ Registered s [2, 1, 0] ∧ Registered t [2, 1, 0]
      ∧ t.trace = (pendingLines 0x02280000).flatMap (served handlers [2, 1, 0])
      ∧ pendingLines t.pending = [] :=
  interrupts_served _ (by decide) 0x02280000 (Nat.le_refl 3)

end HbcMac
