import Beethoven.Lib.TransitionSystem

/-!
# Coupled systems

Two transition systems that take steps together. A label of the coupled system stands for some steps
of each side, which may depend on the states of both; it is disabled where one side waits for the
other. Each side of a run of the coupled system is a run of its own, guarded if the steps that the
labels stand for are.

## Main definitions

* `System.Allowed`: the steps along a list of labels satisfy a guard.
* `Coupling`, `System.couple`.

## Main results

* `System.Reaches.left`, `System.Reaches.right`: the sides of a run.
-/

namespace Beethoven.Lib

variable {σ α τ β γ : Type*}

namespace System

section Allowed

variable {S : System σ α} {ok : σ → α → Prop} {s t : σ} {l : List α}

/-- The steps along a list of labels satisfy a guard, as far as they are defined. -/
def Allowed (S : System σ α) (ok : σ → α → Prop) : σ → List α → Prop
  | _, [] => True
  | s, a :: l => ok s a ∧ ∀ t ∈ S.step s a, S.Allowed ok t l

instance decidableAllowed [∀ s a, Decidable (ok s a)] :
    (s : σ) → (l : List α) → Decidable (S.Allowed ok s l)
  | _, [] => inferInstanceAs (Decidable True)
  | s, a :: l =>
    have : ∀ t, Decidable (S.Allowed ok t l) := fun t => decidableAllowed t l
    inferInstanceAs (Decidable (ok s a ∧ ∀ t ∈ S.step s a, S.Allowed ok t l))

theorem Allowed.run (h : S.Allowed ok s l) (hrun : S.Run anyStep s l t) : S.Run ok s l t := by
  induction hrun with
  | nil s => exact .nil s
  | cons _ hstep _ ih => exact .cons h.1 hstep (ih (h.2 _ hstep))

end Allowed

/-- The steps of the two sides that a label stands for, and where it is enabled. -/
structure Coupling (σ α τ β γ : Type*) where
  left : σ × τ → γ → List α
  right : σ × τ → γ → List β
  enabled : σ × τ → γ → Bool

/-- The coupled system. -/
def couple (S : System σ α) (T : System τ β) (c : Coupling σ α τ β γ) : System (σ × τ) γ where
  init := (S.init, T.init)
  step x g :=
    if c.enabled x g then
      (S.exec anyStep x.1 (c.left x g)).bind fun s =>
        (T.exec anyStep x.2 (c.right x g)).map fun t => (s, t)
    else none

section Couple

variable {S : System σ α} {T : System τ β} {c : Coupling σ α τ β γ} {x y : σ × τ} {g : γ}
  {okS : σ → α → Prop} {okT : τ → β → Prop} {ok : σ × τ → γ → Prop}

/-- **A step of the coupled system** is a run of each side. -/
theorem couple_step (h : (S.couple T c).step x g = some y) :
    c.enabled x g = true ∧ S.Run anyStep x.1 (c.left x g) y.1 ∧
      T.Run anyStep x.2 (c.right x g) y.2 := by
  change (if c.enabled x g = true then _ else _) = some y at h
  split_ifs at h with henabled
  obtain ⟨s, hs, h⟩ := Option.bind_eq_some_iff.mp h
  obtain ⟨t, ht, rfl⟩ := Option.map_eq_some_iff.mp h
  exact ⟨henabled, run_of_exec hs, run_of_exec ht⟩

/-- Where a label is enabled, runs of the two sides make a step. -/
theorem step_couple (henabled : c.enabled x g = true) (hleft : S.Run anyStep x.1 (c.left x g) y.1)
    (hright : T.Run anyStep x.2 (c.right x g) y.2) : (S.couple T c).step x g = some y := by
  change (if c.enabled x g = true then _ else _) = some y
  rw [if_pos henabled, exec_of_run hleft, Option.bind_some, exec_of_run hright]
  rfl

theorem Reaches.left (hok : ∀ x g, ok x g → S.Allowed okS x.1 (c.left x g))
    (h : (S.couple T c).Reaches ok x) : S.Reaches okS x.1 := by
  refine h.invariant (I := fun x => S.Reaches okS x.1) (.init S okS) fun x g y hx hg hstep => ?_
  exact hx.trans_run ((hok x g hg).run (couple_step hstep).2.1)

theorem Reaches.right (hok : ∀ x g, ok x g → T.Allowed okT x.2 (c.right x g))
    (h : (S.couple T c).Reaches ok x) : T.Reaches okT x.2 := by
  refine h.invariant (I := fun x => T.Reaches okT x.2) (.init T okT) fun x g y hx hg hstep => ?_
  exact hx.trans_run ((hok x g hg).run (couple_step hstep).2.2)

end Couple

end System

end Beethoven.Lib
