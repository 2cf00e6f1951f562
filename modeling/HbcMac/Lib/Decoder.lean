import Mathlib.Data.List.Forall2
import Mathlib.Tactic.Common

/-!
# Self-delimiting messages

A decoder takes messages off the front of a text, one at a time, and waits where the next one is not
there in whole. What it has taken does not change while the text grows, so a reader that gets the
text in pieces ends with the messages of the whole text.
-/

/-- `next` takes a message off the front. What comes behind the message makes no difference. -/
structure Decoder (α β : Type) where
  next : List α → Option (β × List α)
  shorter : ∀ {t b rest}, next t = some (b, rest) → rest.length < t.length
  more : ∀ {t b rest} (u), next t = some (b, rest) → next (t ++ u) = some (b, rest ++ u)

namespace Decoder

variable {α β : Type} (d : Decoder α β)

/-- At most `n` messages, and what is left. -/
def take : ℕ → List α → List β × List α
  | 0, t => ([], t)
  | n + 1, t =>
    match d.next t with
    | none => ([], t)
    | some (b, rest) => (b :: (take n rest).1, (take n rest).2)

/-- The messages of a text, and what is left. -/
def decode (t : List α) : List β × List α := d.take t.length t

variable {d} {t u rest : List α} {b : β}

/-- A reader between two pieces of a text has the messages so far, and what is left. -/
def feed (d : Decoder α β) (s : List β × List α) (u : List α) : List β × List α :=
  (s.1 ++ (d.decode (s.2 ++ u)).1, (d.decode (s.2 ++ u)).2)

/-- The text `m` is the message `b` and nothing else. -/
def Codes (d : Decoder α β) (b : β) (m : List α) : Prop := d.next m = some (b, [])

variable {bs : List β} {ms : List (List α)}

/-- A part of a message is none. -/
theorem Codes.waits {m : List α} (h : d.Codes b m) (hpart : t <+: m) (hne : t ≠ m) :
    d.next t = none := by
  obtain ⟨u, rfl⟩ := hpart
  cases hnext : d.next t with
  | none => rfl
  | some r =>
    have hmore := d.more u hnext
    rw [h] at hmore
    obtain ⟨-, hrest⟩ := Prod.mk.inj (Option.some.inj hmore)
    rw [(List.append_eq_nil_iff.mp hrest.symm).2, List.append_nil] at hne
    exact absurd rfl hne

end Decoder
