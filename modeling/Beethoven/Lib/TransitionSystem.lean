import Mathlib.Data.List.Basic

/-!
# Guarded runs of a labelled transition system

A labelled transition system is an initial state together with a partial step function. Its runs
are finite sequences of labels, each step being taken only where a guard `ok` on the state before
the step and on the label holds. The unguarded runs are those of the guard that always holds.

An invariant of the guarded steps holds in every state that a guarded run reaches
(`System.Reaches.invariant`). A guard that can be decided gives an executable form of the runs
(`System.exec`), which is how concrete runs are exhibited.

## Main definitions

* `System`, `System.Run`, `System.Reaches`, `System.exec`.
* `System.logged`: a system with a log of what its steps show.
* `System.relabel`: a system under other labels.

## Main results

* `System.Run.invariant`, `System.Reaches.invariant`: the invariant rule.
* `System.Reaches.trans_run`: a run continues a reached state.
* `System.Reaches.exists_run`: the progress rule.
* `System.exists_reaches`: an executed run reaches its final state.
* `System.Reaches.of_logged`: the log does not change the states reached.
-/

namespace Beethoven.Lib

variable {σ α : Type*}

/-- A labelled transition system: an initial state and a partial step for every label. -/
structure System (σ α : Type*) where
  init : σ
  step : σ → α → Option σ

namespace System

/-- `S.Run ok s l t`: the labels `l` lead from `s` to `t`, every step satisfying the guard. -/
inductive Run (S : System σ α) (ok : σ → α → Prop) : σ → List α → σ → Prop
  | nil (s : σ) : Run S ok s [] s
  | cons {s t u : σ} {a : α} {l : List α} (hok : ok s a) (hstep : S.step s a = some t)
      (hrun : Run S ok t l u) : Run S ok s (a :: l) u

/-- The states that a guarded run from the initial state reaches. -/
def Reaches (S : System σ α) (ok : σ → α → Prop) (t : σ) : Prop :=
  ∃ l, S.Run ok S.init l t

/-- The guard that always holds. -/
def anyStep : σ → α → Prop := fun _ _ => True

instance (s : σ) (a : α) : Decidable (anyStep s a) := inferInstanceAs (Decidable True)

variable {S : System σ α} {ok ok' : σ → α → Prop} {s t u : σ} {l l' : List α}

theorem Run.append (h : S.Run ok s l t) (h' : S.Run ok t l' u) : S.Run ok s (l ++ l') u := by
  induction h with
  | nil s => exact h'
  | cons hok hstep _ ih => exact .cons hok hstep (ih h')

theorem Run.eq_of_nil (h : S.Run ok s [] t) : t = s := by
  cases h
  rfl

theorem Run.step_of_singleton {a : α} (h : S.Run ok s [a] t) : S.step s a = some t := by
  cases h with
  | cons _ hstep hnil => rwa [hnil.eq_of_nil]

theorem Run.of_append (h : S.Run ok s (l ++ l') u) : ∃ t, S.Run ok s l t ∧ S.Run ok t l' u := by
  induction l generalizing s with
  | nil => exact ⟨s, .nil s, h⟩
  | cons a l ih =>
    cases h with
    | cons hok hstep hrun =>
      obtain ⟨t, hl, hl'⟩ := ih hrun
      exact ⟨t, .cons hok hstep hl, hl'⟩

theorem Run.mono (hmono : ∀ s a, ok s a → ok' s a) (h : S.Run ok s l t) : S.Run ok' s l t := by
  induction h with
  | nil s => exact .nil s
  | cons hok hstep _ ih => exact .cons (hmono _ _ hok) hstep ih

/-- What holds at the start of a run and is kept by every guarded step holds at its end. -/
theorem Run.invariant {I : σ → Prop}
    (hI : ∀ s a t, I s → ok s a → S.step s a = some t → I t)
    (h : S.Run ok s l t) (hs : I s) : I t := by
  induction h with
  | nil s => exact hs
  | cons hok hstep _ ih => exact ih (hI _ _ _ hs hok hstep)

theorem Reaches.init (S : System σ α) (ok : σ → α → Prop) : S.Reaches ok S.init :=
  ⟨[], .nil _⟩

theorem Reaches.trans_run (h : S.Reaches ok s) (hrun : S.Run ok s l t) : S.Reaches ok t := by
  obtain ⟨l₀, h₀⟩ := h
  exact ⟨l₀ ++ l, h₀.append hrun⟩

theorem Reaches.step {a : α} (h : S.Reaches ok s) (hok : ok s a) (hstep : S.step s a = some t) :
    S.Reaches ok t :=
  h.trans_run (.cons hok hstep (.nil t))

theorem Reaches.mono (hmono : ∀ s a, ok s a → ok' s a) (h : S.Reaches ok t) :
    S.Reaches ok' t := by
  obtain ⟨l, hl⟩ := h
  exact ⟨l, hl.mono hmono⟩

/-- **Invariant rule.** What holds initially and is kept by every guarded step holds in every
state that a guarded run reaches. -/
theorem Reaches.invariant {I : σ → Prop} (h₀ : I S.init)
    (hI : ∀ s a t, I s → ok s a → S.step s a = some t → I t) (h : S.Reaches ok t) : I t := by
  obtain ⟨l, hl⟩ := h
  exact hl.invariant hI h₀

/-- The invariant rule with a second invariant `J` that is already known of every state reached. -/
theorem Reaches.invariant_of {I J : σ → Prop} (hJ : ∀ s, S.Reaches ok s → J s) (h₀ : I S.init)
    (hI : ∀ s a t, J s → I s → ok s a → S.step s a = some t → I t) (h : S.Reaches ok t) : I t := by
  have hboth : S.Reaches ok t ∧ I t := by
    refine Reaches.invariant (I := fun s => S.Reaches ok s ∧ I s) ⟨.init S ok, h₀⟩ ?_ h
    rintro s a t ⟨hs, hIs⟩ hok hstep
    exact ⟨hs.step hok hstep, hI s a t (hJ s hs) hIs hok hstep⟩
  exact hboth.2

/-- **Progress rule.** If from every state reached in which `P` holds and the goal does not, some
step keeps `P` and decreases the measure, then a run leads to the goal. -/
theorem Reaches.exists_run {P goal : σ → Prop} (m : σ → ℕ)
    (hstep : ∀ s, S.Reaches ok s → P s → ¬ goal s →
      ∃ a t, ok s a ∧ S.step s a = some t ∧ P t ∧ m t < m s)
    (h : S.Reaches ok s) (hP : P s) : ∃ l t, S.Run ok s l t ∧ P t ∧ goal t := by
  induction hn : m s using Nat.strongRecOn generalizing s with
  | ind n ih =>
    by_cases hgoal : goal s
    · exact ⟨[], s, .nil s, hP, hgoal⟩
    · obtain ⟨a, t, hok, ht, hPt, hlt⟩ := hstep s h hP hgoal
      obtain ⟨l, u, hrun, hPu, hu⟩ := ih (m t) (hn ▸ hlt) (h.step hok ht) hPt rfl
      exact ⟨a :: l, u, .cons hok ht hrun, hPu, hu⟩

/-! ### Logs -/

section Logged

variable {ε : Type*} {ev : σ → α → List ε} {x y : σ × List ε} {okl : σ × List ε → α → Prop}

/-- The system with a log of the events that its steps show. -/
def logged (S : System σ α) (ev : σ → α → List ε) : System (σ × List ε) α where
  init := (S.init, [])
  step x a := (S.step x.1 a).map fun t => (t, x.2 ++ ev x.1 a)

theorem logged_step {a : α} (h : (S.logged ev).step x a = some y) :
    S.step x.1 a = some y.1 ∧ y.2 = x.2 ++ ev x.1 a := by
  obtain ⟨t, ht, rfl⟩ := Option.map_eq_some_iff.mp h
  exact ⟨ht, rfl⟩

theorem step_logged {a : α} (h : S.step s a = some t) (l : List ε) :
    (S.logged ev).step (s, l) a = some (t, l ++ ev s a) := by
  simp [logged, h]

theorem Reaches.of_logged (h : (S.logged ev).Reaches okl x) : S.Reaches anyStep x.1 := by
  refine Reaches.invariant (I := fun x => S.Reaches anyStep x.1) (.init S anyStep) ?_ h
  intro x a y hx _ hstep
  exact hx.step trivial (logged_step hstep).1

end Logged

/-! ### Labels -/

/-- The system under labels that stand for its own. -/
def relabel {β : Type*} (S : System σ α) (f : β → α) : System σ β :=
  ⟨S.init, fun s b => S.step s (f b)⟩

theorem Reaches.of_relabel {β : Type*} {f : β → α} {okl : σ → β → Prop}
    (h : (S.relabel f).Reaches okl s) : S.Reaches anyStep s := by
  refine Reaches.invariant (S := S.relabel f) (I := S.Reaches anyStep) (.init S anyStep) ?_ h
  intro s b t hs _ hstep
  exact hs.step trivial hstep

/-! ### Executing a run -/

/-- The final state of the run along `l`, if every step is defined and satisfies the guard. -/
def exec (S : System σ α) (ok : σ → α → Prop) [∀ s a, Decidable (ok s a)] :
    σ → List α → Option σ
  | s, [] => some s
  | s, a :: l => if ok s a then (S.step s a).bind fun t => S.exec ok t l else none

variable [∀ s a, Decidable (ok s a)]

theorem run_of_exec (h : S.exec ok s l = some t) : S.Run ok s l t := by
  induction l generalizing s with
  | nil =>
    obtain rfl : s = t := by simpa [exec] using h
    exact .nil s
  | cons a l ih =>
    rw [exec] at h
    split_ifs at h with hok
    obtain ⟨s', hs', hrest⟩ := Option.bind_eq_some_iff.mp h
    exact .cons hok hs' (ih hrest)

theorem exec_of_run (h : S.Run ok s l t) : S.exec ok s l = some t := by
  induction h with
  | nil s => rfl
  | cons hok hstep _ ih => rw [exec, if_pos hok, hstep, Option.bind_some, ih]

/-- A run that can be executed reaches a state with the properties of its final state. -/
theorem exists_reaches (S : System σ α) (ok : σ → α → Prop) [∀ s a, Decidable (ok s a)]
    (p : σ → Prop) [DecidablePred p] (l : List α) (h : (S.exec ok S.init l).any fun t => p t) :
    ∃ t, S.Reaches ok t ∧ p t := by
  cases hexec : S.exec ok S.init l with
  | none =>
    rw [hexec] at h
    exact absurd h (by simp)
  | some t =>
    rw [hexec] at h
    exact ⟨t, ⟨l, run_of_exec hexec⟩, of_decide_eq_true h⟩

end System

end Beethoven.Lib
