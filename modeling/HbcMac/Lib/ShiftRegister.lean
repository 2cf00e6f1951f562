import Mathlib.Tactic.Common
import Mathlib.Logic.Function.Iterate

/-!
# Linear feedback shift registers

A register of `w` bits that shifts towards its low end; when a one falls out the polynomial is
added in. Bits are fed in by adding them at the low end before each shift, which is how a
reflected CRC consumes a message. Everything is linear over exclusive or, so the effect of an
error on the register does not depend on the message it hits.
-/

namespace ShiftRegister

variable {w : ℕ} {poly : BitVec w}

/-! ## One shift -/

/-- One shift of the register. -/
def shift (poly c : BitVec w) : BitVec w :=
  if c.getLsbD 0 then (c >>> 1) ^^^ poly else c >>> 1

theorem getLsbD_shift (poly c : BitVec w) (i : ℕ) :
    (shift poly c).getLsbD i = (c.getLsbD (1 + i) ^^ (c.getLsbD 0 && poly.getLsbD i)) := by
  unfold shift
  cases c.getLsbD 0 with
  | false => simp
  | true => simp

theorem shift_xor (a b : BitVec w) : shift poly (a ^^^ b) = shift poly a ^^^ shift poly b := by
  apply BitVec.eq_of_getLsbD_eq
  intro i _
  simp only [getLsbD_shift, BitVec.getLsbD_xor]
  cases a.getLsbD 0 <;> cases b.getLsbD 0 <;> cases poly.getLsbD i <;>
    cases a.getLsbD (1 + i) <;> cases b.getLsbD (1 + i) <;> rfl

theorem shift_zero : shift poly 0#w = 0#w := by
  have h : shift poly (0#w ^^^ 0#w) = shift poly 0#w ^^^ shift poly 0#w := shift_xor 0#w 0#w
  rwa [BitVec.xor_self, BitVec.xor_self] at h

theorem iterate_shift_zero (n : ℕ) : (shift poly)^[n] 0#w = 0#w :=
  Function.iterate_fixed shift_zero n

/-- With the top bit of the polynomial set a shift loses nothing: the top bit of the result
tells whether a one fell out. -/
theorem shift_ne_zero (hpoly : poly.getLsbD (w - 1) = true) {c : BitVec w} (hc : c ≠ 0#w) :
    shift poly c ≠ 0#w := by
  intro hzero
  have hbit (i : ℕ) : (c.getLsbD (1 + i) ^^ (c.getLsbD 0 && poly.getLsbD i)) = false := by
    rw [← getLsbD_shift, hzero]
    exact BitVec.getLsbD_zero
  have hlow : c.getLsbD 0 = false := by
    have htop := hbit (w - 1)
    rw [BitVec.getLsbD_of_ge c (1 + (w - 1)) (by omega), hpoly, Bool.and_true,
      Bool.false_xor] at htop
    exact htop
  apply hc
  apply BitVec.eq_of_getLsbD_eq
  intro i _
  rw [BitVec.getLsbD_zero]
  cases i with
  | zero => exact hlow
  | succ i =>
    have hi := hbit i
    rw [hlow, Bool.false_and, Bool.xor_false, Nat.add_comm] at hi
    exact hi

theorem iterate_shift_ne_zero (hpoly : poly.getLsbD (w - 1) = true) {c : BitVec w} (hc : c ≠ 0#w)
    (n : ℕ) : (shift poly)^[n] c ≠ 0#w := by
  induction n generalizing c with
  | zero => exact hc
  | succ n ih => exact ih (shift_ne_zero hpoly hc)

/-! ## Feeding bits -/

/-- A bit at the low end. -/
def entering (b : Bool) : BitVec w := if b then 1#w else 0#w

/-- The register after the bits `bs`. -/
def feed (poly c : BitVec w) (bs : List Bool) : BitVec w :=
  bs.foldl (fun c b => shift poly (c ^^^ entering b)) c

@[simp] theorem feed_nil (c : BitVec w) : feed poly c [] = c := rfl

@[simp] theorem feed_cons (c : BitVec w) (b : Bool) (bs : List Bool) :
    feed poly c (b :: bs) = feed poly (shift poly (c ^^^ entering b)) bs := rfl

theorem feed_append (c : BitVec w) (bs bs' : List Bool) :
    feed poly c (bs ++ bs') = feed poly (feed poly c bs) bs' := List.foldl_append ..

theorem entering_xor (b d : Bool) : entering (w := w) (b ^^ d) = entering b ^^^ entering d := by
  cases b <;> cases d <;> simp [entering]

/-- **Linearity.** The register after a message with an error is the register after the
message, with the register after the error alone added. -/
theorem feed_xor {bs es : List Bool} (h : es.length = bs.length) (c d : BitVec w) :
    feed poly (c ^^^ d) (List.zipWith Bool.xor bs es) = feed poly c bs ^^^ feed poly d es := by
  induction bs generalizing es c d with
  | nil =>
    rw [List.eq_nil_of_length_eq_zero h]
    rfl
  | cons b bs ih =>
    cases es with
    | nil => cases h
    | cons e es =>
      have hadd : c ^^^ d ^^^ entering (b ^^ e) = c ^^^ entering b ^^^ (d ^^^ entering e) := by
        rw [entering_xor]
        ac_rfl
      rw [List.zipWith_cons_cons, feed_cons, feed_cons, feed_cons, hadd, shift_xor]
      exact ih (Nat.succ.inj h) _ _

theorem feed_zeros (c : BitVec w) (n : ℕ) :
    feed poly c (List.replicate n false) = (shift poly)^[n] c := by
  induction n generalizing c with
  | zero => rfl
  | succ n ih =>
    have hnone : c ^^^ entering false = c := BitVec.xor_zero
    rw [List.replicate_succ, feed_cons, hnone, ih, Function.iterate_succ_apply]

/-! ## Short strings -/

/-- The bits as a word, the first one lowest. -/
def word (bs : List Bool) : BitVec w := (BitVec.ofBoolListLE bs).setWidth w

theorem getLsbD_word (bs : List Bool) {i : ℕ} (hi : i < w) :
    (word (w := w) bs).getLsbD i = bs.getD i false := by
  rw [word, BitVec.getLsbD_setWidth, BitVec.getLsbD_ofBoolListLE, decide_eq_true hi,
    Bool.true_and]

theorem word_cons (b : Bool) (bs : List Bool) :
    word (w := w) (b :: bs) = entering b ^^^ (word bs <<< 1) := by
  apply BitVec.eq_of_getLsbD_eq
  intro i hi
  rw [getLsbD_word _ hi, BitVec.getLsbD_xor, BitVec.getLsbD_shiftLeft]
  cases i with
  | zero => cases b <;> simp [entering, hi]
  | succ i =>
    have hlow : (entering b : BitVec w).getLsbD (i + 1) = false := by
      cases b with
      | false => exact BitVec.getLsbD_zero
      | true => simp [entering]
    rw [hlow, Nat.add_sub_cancel, getLsbD_word _ (by omega)]
    simp [hi]

/-- A word short of the top is moved up and back down without loss. -/
theorem shift_word (bs : List Bool) (h : bs.length < w) :
    shift poly (word bs <<< 1) = word bs := by
  apply BitVec.eq_of_getLsbD_eq
  intro i hi
  rw [getLsbD_shift]
  have hlow : (word (w := w) bs <<< 1).getLsbD 0 = false := by simp
  rw [hlow, Bool.false_and, Bool.xor_false, BitVec.getLsbD_shiftLeft]
  by_cases htop : 1 + i < w
  · simp [htop]
  · have hout : bs.length ≤ i := by omega
    rw [getLsbD_word _ hi]
    simp [htop, hout]

/-- At most `w` bits may as well be added to the register all at once. -/
theorem feed_word (c : BitVec w) (bs : List Bool) (h : bs.length ≤ w) :
    feed poly c bs = (shift poly)^[bs.length] (c ^^^ word bs) := by
  induction bs generalizing c with
  | nil =>
    have hzero : word (w := w) [] = 0#w := by
      apply BitVec.eq_of_getLsbD_eq
      intro i hi
      rw [getLsbD_word _ hi]
      simp
    rw [hzero]
    exact BitVec.xor_zero.symm
  | cons b bs ih =>
    have hlt : bs.length < w := h
    rw [feed_cons, ih _ (Nat.le_of_lt hlt), List.length_cons, Function.iterate_succ_apply,
      word_cons, ← BitVec.xor_assoc, shift_xor (c ^^^ entering b), shift_word bs hlt]

/-! ## Errors that leave a mark -/

/-- A burst no longer than the register. -/
theorem feed_burst_ne_zero (hpoly : poly.getLsbD (w - 1) = true) {p q : ℕ} {bs : List Bool}
    (hlen : bs.length ≤ w) (hset : true ∈ bs) :
    feed poly 0#w (List.replicate p false ++ (bs ++ List.replicate q false)) ≠ 0#w := by
  have hword : word (w := w) bs ≠ 0#w := by
    intro hzero
    obtain ⟨i, hi, hbit⟩ := List.mem_iff_getElem.mp hset
    have hget := getLsbD_word (w := w) bs (Nat.lt_of_lt_of_le hi hlen)
    simp [hzero, hi, hbit] at hget
  rw [feed_append, feed_zeros, iterate_shift_zero, feed_append, feed_zeros, feed_word _ _ hlen,
    BitVec.zero_xor]
  exact iterate_shift_ne_zero hpoly (iterate_shift_ne_zero hpoly hword _) _

/-- Two bits at a distance that is no multiple of the period of the register. -/
theorem feed_pair_ne_zero (hpoly : poly.getLsbD (w - 1) = true) {p d q : ℕ}
    (hd : (shift poly)^[d + 1] 1#w ≠ 1#w) :
    feed poly 0#w (List.replicate p false
      ++ (true :: (List.replicate d false ++ (true :: List.replicate q false)))) ≠ 0#w := by
  have hone (c : BitVec w) : c ^^^ entering true = c ^^^ 1#w := rfl
  have hpair : (shift poly)^[d + 1] 1#w ^^^ 1#w ≠ 0#w := by
    intro hzero
    exact hd (BitVec.xor_eq_zero_iff.mp hzero)
  rw [feed_append, feed_zeros, iterate_shift_zero, feed_cons, hone, BitVec.zero_xor, feed_append,
    feed_zeros, ← Function.iterate_succ_apply, feed_cons, hone, feed_zeros]
  exact iterate_shift_ne_zero hpoly (shift_ne_zero hpoly hpair) _

/-! ## Errors given by their positions -/

theorem zeros_of_none {es : List Bool} (h : ∀ k : ℕ, es[k]? ≠ some true) :
    es = List.replicate es.length false := by
  apply List.eq_replicate_of_mem
  intro b hb
  obtain ⟨k, hk⟩ := List.mem_iff_getElem?.mp hb
  cases b with
  | false => rfl
  | true => exact absurd hk (h k)

/-- What lies ahead of the position `p`, when nothing there is set. -/
theorem take_zeros {es : List Bool} {p : ℕ} (h : ∀ k : ℕ, es[k]? = some true → p ≤ k) :
    es.take p = List.replicate (es.take p).length false := by
  apply zeros_of_none
  intro k hk
  rw [List.getElem?_take] at hk
  by_cases hkp : k < p
  · rw [if_pos hkp] at hk
    have := h k hk
    omega
  · rw [if_neg hkp] at hk
    cases hk

/-- What lies behind the position `p`, when nothing there is set. -/
theorem drop_zeros {es : List Bool} {p : ℕ} (h : ∀ k : ℕ, es[k]? = some true → k < p) :
    es.drop p = List.replicate (es.drop p).length false := by
  apply zeros_of_none
  intro k hk
  rw [List.getElem?_drop] at hk
  have := h _ hk
  omega

/-- An error within a window of the register's length leaves a mark. -/
theorem feed_window_ne_zero (hpoly : poly.getLsbD (w - 1) = true) {p : ℕ} {es : List Bool}
    (hset : true ∈ es) (hwindow : ∀ k : ℕ, es[k]? = some true → p ≤ k ∧ k < p + w) :
    feed poly 0#w es ≠ 0#w := by
  have hahead := take_zeros (fun k hk => (hwindow k hk).1)
  have hbehind := drop_zeros (fun k hk => (hwindow k hk).2)
  have hsplit : es = es.take p ++ ((es.drop p).take w ++ es.drop (p + w)) := by
    rw [← List.drop_drop, List.take_append_drop, List.take_append_drop]
  rw [hsplit, hahead, hbehind]
  apply feed_burst_ne_zero hpoly (List.length_take_le ..)
  rw [hsplit, hahead, hbehind] at hset
  simpa using hset

/-- Two errors at a distance that is no multiple of the period leave a mark. -/
theorem feed_two_ne_zero (hpoly : poly.getLsbD (w - 1) = true) {i j : ℕ} {es : List Bool}
    (hij : i < j) (hset : ∀ k : ℕ, es[k]? = some true ↔ k = i ∨ k = j)
    (hd : (shift poly)^[j - i] 1#w ≠ 1#w) : feed poly 0#w es ≠ 0#w := by
  have hat (k : ℕ) (hk : es[k]? = some true) : es.drop k = true :: es.drop (k + 1) := by
    obtain ⟨hlt, hget⟩ := List.getElem?_eq_some_iff.mp hk
    rw [List.drop_eq_getElem_cons hlt, hget]
  have hahead : es.take i = List.replicate (es.take i).length false := by
    apply take_zeros
    intro k hk
    have := (hset k).mp hk
    omega
  have hbetween : (es.drop (i + 1)).take (j - (i + 1)) = List.replicate (j - i - 1) false := by
    have hlt : j < es.length := (List.getElem?_eq_some_iff.mp ((hset j).mpr (.inr rfl))).1
    have hlen : ((es.drop (i + 1)).take (j - (i + 1))).length = j - i - 1 := by
      rw [List.length_take, List.length_drop]
      omega
    rw [← hlen]
    apply take_zeros
    intro k hk
    rw [List.getElem?_drop] at hk
    have := (hset _).mp hk
    omega
  have hbehind : es.drop (j + 1) = List.replicate (es.drop (j + 1)).length false := by
    apply drop_zeros
    intro k hk
    have := (hset k).mp hk
    omega
  have hlast : (es.drop (i + 1)).drop (j - (i + 1)) = es.drop j := by
    rw [List.drop_drop]
    congr 1
    omega
  have hdist : j - i - 1 + 1 = j - i := by omega
  have hsplit : es = es.take i ++ (true ::
      (List.replicate (j - i - 1) false ++ (true :: es.drop (j + 1)))) := by
    calc es = es.take i ++ es.drop i := (List.take_append_drop i es).symm
      _ = es.take i ++ (true :: es.drop (i + 1)) := by rw [hat i ((hset i).mpr (.inl rfl))]
      _ = _ := by
        rw [← hat j ((hset j).mpr (.inr rfl)), ← hlast, ← hbetween, List.take_append_drop]
  rw [hsplit, hahead, hbehind]
  apply feed_pair_ne_zero hpoly
  rwa [hdist]

end ShiftRegister
