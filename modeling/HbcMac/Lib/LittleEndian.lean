import Mathlib.Tactic.Common

/-!
# Little-endian bytes of a 32-bit word

`byteAt w i` is the byte a C program gets from `w >> (8 * i)` truncated to eight bits;
`ofBytes` is the word that `|=`-ing each byte shifted to its place builds up.
-/

namespace LittleEndian

/-- Byte `i` of a word, the least significant byte first. -/
def byteAt (w : BitVec 32) (i : ℕ) : BitVec 8 := (w >>> (8 * i)).setWidth 8

/-- The four bytes of a word, the least significant byte first. -/
def bytes (w : BitVec 32) : List (BitVec 8) := [byteAt w 0, byteAt w 1, byteAt w 2, byteAt w 3]

/-- A byte moved to place `i` of a word. -/
def place (b : BitVec 8) (i : ℕ) : BitVec 32 := b.setWidth 32 <<< (8 * i)

/-- The word whose bytes, the least significant first, are `b₀ b₁ b₂ b₃`. -/
def ofBytes (b₀ b₁ b₂ b₃ : BitVec 8) : BitVec 32 :=
  place b₀ 0 ||| place b₁ 1 ||| place b₂ 2 ||| place b₃ 3

@[simp] theorem length_bytes (w : BitVec 32) : (bytes w).length = 4 := rfl

theorem getElem?_bytes (w : BitVec 32) (i : ℕ) (hi : i < 4) :
    (bytes w)[i]? = some (byteAt w i) := by
  match i, hi with
  | 0, _ | 1, _ | 2, _ | 3, _ => rfl

theorem length_flatMap_bytes (ws : List (BitVec 32)) : (ws.flatMap bytes).length = 4 * ws.length := by
  induction ws with
  | nil => rfl
  | cons w ws ih =>
    rw [List.flatMap_cons, List.length_append, ih, length_bytes, List.length_cons]
    omega

/-- Byte `i` of a list of words is byte `i % 4` of word `i / 4`. -/
theorem getElem?_flatMap_bytes (ws : List (BitVec 32)) (i : ℕ) :
    (ws.flatMap bytes)[i]? = ws[i / 4]?.map fun w => byteAt w (i % 4) := by
  induction ws generalizing i with
  | nil => rfl
  | cons w ws ih =>
    rw [List.flatMap_cons]
    by_cases hi : i < 4
    · rw [List.getElem?_append_left (by rwa [length_bytes]), getElem?_bytes w i hi,
        Nat.div_eq_of_lt hi, Nat.mod_eq_of_lt hi]
      rfl
    · have hge : (bytes w).length ≤ i := by rw [length_bytes]; omega
      have hdiv : i / 4 = (i - 4) / 4 + 1 := by omega
      have hmod : i % 4 = (i - 4) % 4 := by omega
      rw [List.getElem?_append_right hge, length_bytes, ih, hdiv, hmod, List.getElem?_cons_succ]

theorem getLsbD_byteAt (w : BitVec 32) (i j : ℕ) :
    (byteAt w i).getLsbD j = (decide (j < 8) && w.getLsbD (8 * i + j)) := by
  simp [byteAt]

theorem getLsbD_place (b : BitVec 8) (i j : ℕ) :
    (place b i).getLsbD j = (decide (j < 32) && !decide (j < 8 * i) && b.getLsbD (j - 8 * i)) := by
  by_cases hj : j < 32
  · simp [place, hj]
  · simp [place, hj]

/-- Bit `j` of byte `i` put back to its place. -/
theorem getLsbD_place_byteAt (w : BitVec 32) (i j : ℕ) :
    (place (byteAt w i) i).getLsbD j = (decide (8 * i ≤ j ∧ j < 8 * i + 8) && w.getLsbD j) := by
  rw [getLsbD_place, getLsbD_byteAt]
  by_cases hlow : j < 8 * i
  · have hout : ¬ (8 * i ≤ j ∧ j < 8 * i + 8) := by omega
    simp [hlow, hout]
  · have hj : 8 * i + (j - 8 * i) = j := by omega
    by_cases h32 : j < 32
    · have hiff : (j - 8 * i < 8) ↔ (8 * i ≤ j ∧ j < 8 * i + 8) := by omega
      simp only [hj, hlow, h32, hiff, decide_true, decide_false, Bool.not_false, Bool.true_and]
    · have hge : w.getLsbD j = false := BitVec.getLsbD_of_ge w j (by omega)
      simp [hge, hj]

@[simp] theorem byteAt_zero (i : ℕ) : byteAt 0 i = 0 := by
  simp [byteAt]

theorem byteAt_or (v w : BitVec 32) (i : ℕ) : byteAt (v ||| w) i = byteAt v i ||| byteAt w i := by
  rw [byteAt, BitVec.ushiftRight_or_distrib, BitVec.setWidth_or]
  rfl

/-- The byte at the place it was moved to, and zero at the others. -/
theorem byteAt_place (b : BitVec 8) {i j : ℕ} (hi : i < 4) :
    byteAt (place b i) j = if j = i then b else 0 := by
  apply BitVec.eq_of_getLsbD_eq
  intro k hk
  rw [getLsbD_byteAt, getLsbD_place]
  by_cases hj : j = i
  · have hin : 8 * j + k < 32 := by omega
    have hge : ¬ 8 * j + k < 8 * i := by omega
    have hindex : 8 * j + k - 8 * i = k := by omega
    rw [if_pos hj, hindex]
    simp [hk, hin, hge]
  · rw [if_neg hj]
    by_cases hlow : 8 * j + k < 8 * i
    · simp [hlow]
    · have hout : b.getLsbD (8 * j + k - 8 * i) = false := BitVec.getLsbD_of_ge b _ (by omega)
      simp [hout]

theorem bytes_ofBytes (b₀ b₁ b₂ b₃ : BitVec 8) : bytes (ofBytes b₀ b₁ b₂ b₃) = [b₀, b₁, b₂, b₃] := by
  simp [bytes, ofBytes, byteAt_or, byteAt_place]

theorem ofBytes_byteAt (w : BitVec 32) :
    ofBytes (byteAt w 0) (byteAt w 1) (byteAt w 2) (byteAt w 3) = w := by
  apply BitVec.eq_of_getLsbD_eq
  intro j hj
  have hcover : (8 * 0 ≤ j ∧ j < 8 * 0 + 8) ∨ (8 * 1 ≤ j ∧ j < 8 * 1 + 8)
      ∨ (8 * 2 ≤ j ∧ j < 8 * 2 + 8) ∨ (8 * 3 ≤ j ∧ j < 8 * 3 + 8) := by omega
  simp only [ofBytes, BitVec.getLsbD_or, getLsbD_place_byteAt, ← Bool.and_or_distrib_right,
    ← Bool.decide_or, or_assoc]
  rw [decide_eq_true hcover, Bool.true_and]

theorem byteAt_ofBytes (f : ℕ → BitVec 8) {i : ℕ} (hi : i < 4) :
    byteAt (ofBytes (f 0) (f 1) (f 2) (f 3)) i = f i := by
  apply Option.some.inj
  rw [← getElem?_bytes _ i hi, bytes_ofBytes]
  have hcases : i = 0 ∨ i = 1 ∨ i = 2 ∨ i = 3 := by omega
  rcases hcases with rfl | rfl | rfl | rfl <;> rfl

/-- Words are equal when their bytes are. -/
theorem eq_iff_byteAt {v w : BitVec 32} : v = w ↔ ∀ i < 4, byteAt v i = byteAt w i := by
  constructor
  · rintro rfl i _
    rfl
  · intro h
    rw [← ofBytes_byteAt v, ← ofBytes_byteAt w, h 0 (by decide), h 1 (by decide), h 2 (by decide),
      h 3 (by decide)]

end LittleEndian
