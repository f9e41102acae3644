import Mathlib.Data.List.Basic

/-!
# Computations that may end early

A computation of a program that may end in the middle returns an `Except`. Two judgments relate it
to a postcondition: `Ensures x P` says that `P` holds of the result, if there is one, and
`Returns x P` says that there is a result and that `P` holds of it. Both are proved along the
structure of the computation.

## Main definitions

* `Ensures`, `Returns`.

## Main results

* `Ensures.bind`, `Returns.bind`: the rules of composition.
* `Ensures.foldlM`, `Returns.foldlM`: the rules of loops with an invariant.
-/

namespace Beethoven.Lib

variable {ε α β σ : Type} {x : Except ε α} {f : α → Except ε β} {P P' : α → Prop} {Q : β → Prop}
  {a : α} {b : β}

theorem bind_eq_ok : (x >>= f) = .ok b ↔ ∃ a, x = .ok a ∧ f a = .ok b := by
  constructor
  · intro h
    cases x with
    | error e => cases h
    | ok a => exact ⟨a, rfl, h⟩
  · rintro ⟨a, rfl, h⟩
    exact h

/-- `P` holds of the result, if the computation returns one. -/
def Ensures (x : Except ε α) (P : α → Prop) : Prop := ∀ a, x = .ok a → P a

/-- The computation returns a result of which `P` holds. -/
def Returns (x : Except ε α) (P : α → Prop) : Prop := ∃ a, x = .ok a ∧ P a

namespace Ensures

theorem ok (h : P a) : Ensures (.ok a : Except ε α) P := by
  intro b hb
  cases hb
  exact h

theorem error (e : ε) : Ensures (.error e : Except ε α) P := by
  intro b hb
  cases hb

theorem mono (h : Ensures x P) (hP : ∀ a, P a → P' a) : Ensures x P' := fun a ha => hP a (h a ha)

/-- What is known of the result of the first part is what the second part starts from. -/
theorem bind (hx : Ensures x P) (hf : ∀ a, P a → Ensures (f a) Q) : Ensures (x >>= f) Q := by
  intro b hb
  obtain ⟨a, ha, hfa⟩ := bind_eq_ok.mp hb
  exact hf a (hx a ha) b hfa

theorem foldlM {g : σ → α → Except ε σ} {I : σ → Prop} {l : List α} {s : σ} (hs : I s)
    (hg : ∀ s, ∀ a ∈ l, I s → Ensures (g s a) I) : Ensures (l.foldlM g s) I := by
  induction l generalizing s with
  | nil => exact .ok hs
  | cons a l ih =>
    refine (hg s a List.mem_cons_self hs).bind fun t ht => ih ht fun s b hb => ?_
    exact hg s b (List.mem_cons_of_mem a hb)

end Ensures

namespace Returns

theorem ok (h : P a) : Returns (.ok a : Except ε α) P := ⟨a, rfl, h⟩

theorem mono (h : Returns x P) (hP : ∀ a, P a → P' a) : Returns x P' := by
  obtain ⟨a, ha, hPa⟩ := h
  exact ⟨a, ha, hP a hPa⟩

theorem bind (hx : Returns x P) (hf : ∀ a, P a → Returns (f a) Q) : Returns (x >>= f) Q := by
  obtain ⟨a, rfl, ha⟩ := hx
  exact hf a ha

/-- A loop whose body keeps the invariant and never ends early returns with the invariant. -/
theorem foldlM {g : σ → α → Except ε σ} {I : σ → Prop} {l : List α} {s : σ} (hs : I s)
    (hg : ∀ s, ∀ a ∈ l, I s → Returns (g s a) I) : Returns (l.foldlM g s) I := by
  induction l generalizing s with
  | nil => exact .ok hs
  | cons a l ih =>
    refine (hg s a List.mem_cons_self hs).bind fun t ht => ih ht fun s b hb => ?_
    exact hg s b (List.mem_cons_of_mem a hb)

end Returns

end Beethoven.Lib
