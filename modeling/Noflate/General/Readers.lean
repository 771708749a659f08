import Mathlib.Data.List.Basic

/-!
# Exact readers

A reader takes a value from the front of a list, and leaves what is behind it. It is exact when what it leaves is behind what it
takes, and when items that it leaves at the end need not have been there. Exact readers compose.
-/

namespace Readers

variable {β α γ : Type}

/-- A reader that leaves the end of the list, and reads the same without items at the end that it leaves. The items that may be
absent are of an admissible kind. -/
structure Exact (admissible : List β → Prop) (f : List β → Option (α × List β)) : Prop where
  suffix : ∀ {bs a rest}, f bs = some (a, rest) → rest <:+ bs
  shorten : ∀ {bs x a rest}, admissible x → f (bs ++ x) = some (a, rest ++ x) → f bs = some (a, rest)

namespace Exact

variable {admissible : List β → Prop}

theorem pure (a : α) : Exact admissible fun bs => some (a, bs) := by
  constructor
  · intro bs a' rest h
    cases h
    exact List.suffix_refl _
  · intro bs x a' rest _ h
    obtain ⟨rfl, heq⟩ := Prod.mk.inj (Option.some.inj h)
    rw [List.append_cancel_right heq]

theorem fail : Exact admissible fun _ => (none : Option (α × List β)) :=
  ⟨fun h => (nomatch h), fun _ h => (nomatch h)⟩

/-- One reader behind another. -/
theorem bind {f : List β → Option (α × List β)} {g : α × List β → Option (γ × List β)} (hf : Exact admissible f)
    (hg : ∀ a, Exact admissible fun bs => g (a, bs)) : Exact admissible fun bs => (f bs).bind g := by
  constructor
  · intro bs c rest h
    obtain ⟨⟨a, between⟩, h1, h2⟩ := Option.bind_eq_some_iff.mp h
    exact ((hg a).suffix h2).trans (hf.suffix h1)
  · intro bs x c rest hx h
    obtain ⟨⟨a, between⟩, h1, h2⟩ := Option.bind_eq_some_iff.mp h
    -- the first reader leaves what the second one leaves
    obtain ⟨front, hfront⟩ := (hg a).suffix h2
    rw [← hfront, ← List.append_assoc] at h1 h2
    exact Option.bind_eq_some_iff.mpr ⟨_, hf.shorten hx h1, (hg a).shorten hx h2⟩

/-- A reader whose value is computed further, or is bad. -/
theorem bindValue {o : Option α} {g : α → List β → Option (γ × List β)} (hg : ∀ a, Exact admissible (g a)) :
    Exact admissible fun bs => o.bind fun a => g a bs := by
  cases o with
  | none => exact fail
  | some a => exact hg a

theorem ite (c : Prop) [Decidable c] {f g : List β → Option (α × List β)} (hf : Exact admissible f)
    (hg : Exact admissible g) : Exact admissible fun bs => if c then f bs else g bs := by
  by_cases h : c
  · simpa only [if_pos h] using hf
  · simpa only [if_neg h] using hg

/-- What an exact reader leaves is no longer than the list. -/
theorem length_le {f : List β → Option (α × List β)} (hf : Exact admissible f) {bs rest : List β} {a : α}
    (h : f bs = some (a, rest)) : rest.length ≤ bs.length := (hf.suffix h).length_le

end Exact

end Readers
