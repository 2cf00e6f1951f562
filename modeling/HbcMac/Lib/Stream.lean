import Mathlib.Tactic.Common

/-!
# A stream written against a text

A stream that is produced one item at a time and is to spell out a given text, after which
it may go on freely. `Agrees b e` says that nothing is wrong yet: one of the two is a prefix
of the other.
-/

namespace Stream

variable {α : Type}

/-- The item at the place after a prefix makes it longer. -/
theorem prefix_snoc {b e : List α} {x : α} (h : b <+: e) (hx : e[b.length]? = some x) :
    b ++ [x] <+: e := by
  obtain ⟨t, rfl⟩ := h
  rw [List.getElem?_append_right (Nat.le_refl _), Nat.sub_self] at hx
  cases t with
  | nil => cases hx
  | cons y t =>
    obtain rfl : y = x := Option.some.inj hx
    exact ⟨t, by rw [List.append_assoc, List.singleton_append]⟩

/-- What has been written agrees with the text as far as both go. -/
def Agrees (b e : List α) : Prop := b <+: e ∨ e <+: b

theorem Agrees.nil (e : List α) : Agrees [] e := Or.inl (List.nil_prefix)

/-- The next item has to be the one at its place in the text, if there is one. -/
theorem Agrees.snoc {b e : List α} {x : α} (h : Agrees b e)
    (hx : ∀ y, e[b.length]? = some y → x = y) : Agrees (b ++ [x]) e := by
  rcases h with ⟨t, rfl⟩ | h
  · cases t with
    | nil =>
      rw [List.append_nil]
      exact Or.inr (List.prefix_append b [x])
    | cons y t =>
      have hy : x = y := hx y (by rw [List.getElem?_append_right (Nat.le_refl _), Nat.sub_self]; rfl)
      rw [hy]
      exact Or.inl ⟨t, by rw [List.append_assoc, List.singleton_append]⟩
  · exact Or.inr (h.trans (List.prefix_append b [x]))

/-- Behind the end of the text anything agrees. -/
theorem Agrees.append {b e : List α} (h : Agrees b e) (hlen : e.length ≤ b.length) (more : List α) :
    Agrees (b ++ more) e := by
  have hall : e <+: b := by
    rcases h with h | h
    · have hsame : b = e := h.eq_of_length (Nat.le_antisymm h.length_le hlen)
      subst hsame
      exact List.prefix_refl b
    · exact h
  exact Or.inr (hall.trans (List.prefix_append b more))

/-- A stream no longer than the text and `n` more items can be completed to that length. -/
theorem Agrees.complete [Inhabited α] {b e : List α} {n : ℕ} (h : Agrees b e)
    (hlen : b.length ≤ e.length + n) :
    ∃ rest tail, b ++ rest = e ++ tail ∧ tail.length = n ∧
      b.length + rest.length = e.length + n := by
  rcases h with ⟨t, rfl⟩ | ⟨t, rfl⟩
  · refine ⟨t ++ List.replicate n default, List.replicate n default, ?_, List.length_replicate, ?_⟩
    · rw [List.append_assoc]
    · rw [List.length_append, List.length_append, List.length_replicate, Nat.add_assoc]
  · rw [List.length_append] at hlen
    have hle : t.length ≤ n := Nat.le_of_add_le_add_left hlen
    refine ⟨List.replicate (n - t.length) default, t ++ List.replicate (n - t.length) default,
      ?_, ?_, ?_⟩
    · rw [List.append_assoc]
    · rw [List.length_append, List.length_replicate]
      omega
    · rw [List.length_append, List.length_replicate]
      omega

end Stream
