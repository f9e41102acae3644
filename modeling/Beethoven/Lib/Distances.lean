import Mathlib.Data.List.Pairwise

/-!
# Distances between events

Events of several kinds happen at several places. An event imposes earliest times for later events,
for each place and kind, and a table keeps the latest of them. If an event happens only when the
table allows it at all its places, then every two events keep the distance that the earlier one
imposes.

## Main definitions

* `Rules`: the places and the kind of an event, and the times that it imposes.
* `Rules.Apart`: two events keep their distance.
* `Rules.Covers`: the table has the times imposed by the events so far.

## Main results

* `Rules.Covers.append`, `Rules.pairwise_append`: an event that the table allows.
-/

namespace Beethoven.Lib

/-- The places at which an event happens and its kind, and the earliest times that an event which
happens at a time imposes. -/
structure Rules (ε β τ : Type*) where
  places : ε → β → Prop
  kind : ε → τ
  imposes : ε → ℕ → β → τ → ℕ → Prop

namespace Rules

variable {ε β τ : Type*} (R : Rules ε β τ)

/-- The second event keeps the distance that the first one imposes. -/
def Apart (x y : ℕ × ε) : Prop :=
  ∀ b t, R.places y.2 b → R.imposes x.2 x.1 b (R.kind y.2) t → t ≤ y.1

/-- The table has the times that the events of the log impose. -/
def Covers (table : β → τ → ℕ) (log : List (ℕ × ε)) : Prop :=
  ∀ x ∈ log, ∀ b k t, R.imposes x.2 x.1 b k t → t ≤ table b k

variable {R} {table table' : β → τ → ℕ} {log : List (ℕ × ε)} {x : ℕ × ε}

theorem covers_nil : R.Covers table [] := by simp [Covers]

theorem Covers.mono (h : R.Covers table log) (hle : ∀ b k, table b k ≤ table' b k) :
    R.Covers table' log :=
  fun x hx b k t ht => Nat.le_trans (h x hx b k t ht) (hle b k)

theorem Covers.append (h : R.Covers table log) (hle : ∀ b k, table b k ≤ table' b k)
    (hx : ∀ b k t, R.imposes x.2 x.1 b k t → t ≤ table' b k) : R.Covers table' (log ++ [x]) := by
  intro y hy
  rcases List.mem_append.mp hy with hy | hy
  · exact h.mono hle y hy
  · obtain rfl := List.mem_singleton.mp hy
    exact hx

/-- **An event that the table allows** keeps its distance from all events before it. -/
theorem pairwise_append (h : R.Covers table log) (hlog : log.Pairwise R.Apart)
    (hx : ∀ b, R.places x.2 b → table b (R.kind x.2) ≤ x.1) : (log ++ [x]).Pairwise R.Apart := by
  refine List.pairwise_append.mpr ⟨hlog, List.pairwise_singleton _ _, fun y hy z hz => ?_⟩
  obtain rfl := List.mem_singleton.mp hz
  intro b t hb ht
  exact Nat.le_trans (h y hy b _ t ht) (hx b hb)

end Rules

end Beethoven.Lib
