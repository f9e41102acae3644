import Mathlib.Data.List.Nodup
import Mathlib.Logic.Function.Basic

/-!
# Claims that are released and finished once

Workers claim tokens, release what a token stands for, and finish with the token. A worker starts
only on a token that no worker has claimed and none has finished. Then every token is released at
most once and finished at most once.

## Main definitions

* `Claims`, `Claims.Step`, `Claims.Inv`.

## Main results

* `Claims.Inv.step`: every step keeps the invariant.
-/

namespace Beethoven.Lib

open Function

variable {ι τ : Type*}

/-- The claims of the workers, each with whether it is released, and the logs of the tokens released
and finished. -/
structure Claims (ι τ : Type*) where
  claim : ι → Option (τ × Bool)
  released : List τ
  finished : List τ

namespace Claims

/-- The steps of the workers. -/
inductive Step [DecidableEq ι] (s : Claims ι τ) : Claims ι τ → Prop
  | start {i t} (hi : s.claim i = none) (hclaim : ∀ j b, s.claim j ≠ some (t, b))
      (hfinished : t ∉ s.finished) :
      Step s { s with claim := update s.claim i (some (t, false)) }
  | release {i t} (hi : s.claim i = some (t, false)) :
      Step s { s with
        claim := update s.claim i (some (t, true)), released := s.released ++ [t] }
  | finish {i t} (hi : s.claim i = some (t, true)) :
      Step s { s with claim := update s.claim i none, finished := s.finished ++ [t] }

/-- A token has at most one claim; it is released when its claim says so or when it is finished. -/
structure Inv (s : Claims ι τ) : Prop where
  unique : ∀ i j t b b', s.claim i = some (t, b) → s.claim j = some (t, b') → i = j
  unreleased : ∀ i t, s.claim i = some (t, false) → t ∉ s.released
  unfinished : ∀ i t b, s.claim i = some (t, b) → t ∉ s.finished
  released : ∀ t ∈ s.released, t ∈ s.finished ∨ ∃ i, s.claim i = some (t, true)
  nodup_released : s.released.Nodup
  nodup_finished : s.finished.Nodup

variable [DecidableEq ι] {s s' : Claims ι τ}

/-- A change of claim `i` keeps the claims of the others. -/
private theorem exists_claim_update {f : ι → Option (τ × Bool)} {i : ι} {c : Option (τ × Bool)}
    {x : τ × Bool} (hne : f i ≠ some x) (h : ∃ j, f j = some x) :
    ∃ j, update f i c j = some x := by
  obtain ⟨j, hj⟩ := h
  have hji : j ≠ i := by
    rintro rfl
    exact hne hj
  exact ⟨j, by rw [update_of_ne hji, hj]⟩

/-- **Every step keeps the invariant.** -/
theorem Inv.step (h : Inv s) (hstep : Step s s') : Inv s' := by
  obtain ⟨hunique, hunreleased, hunfinished, hreleased, hnodup, hnodup'⟩ := h
  cases hstep with
  | @start i t hi hclaim hfinished =>
    have hfresh : t ∉ s.released := fun hmem =>
      (hreleased t hmem).elim hfinished fun ⟨j, hj⟩ => hclaim j true hj
    refine ⟨?_, ?_, ?_, fun u hu => ?_, hnodup, hnodup'⟩
    · grind [update_apply]
    · grind [update_apply]
    · grind [update_apply]
    · exact (hreleased u hu).imp id (exists_claim_update (by simp [hi]))
  | @release i t hi =>
    have hfresh := hunreleased i t hi
    refine ⟨?_, ?_, ?_, fun u hu => ?_, ?_, hnodup'⟩
    · grind [update_apply]
    · grind [update_apply]
    · grind [update_apply]
    · rcases List.mem_append.mp hu with hu | hu
      · exact (hreleased u hu).imp id (exists_claim_update (by simp [hi]))
      · obtain rfl := List.mem_singleton.mp hu
        exact .inr ⟨i, update_self ..⟩
    · grind [List.nodup_append]
  | @finish i t hi =>
    have hfresh := hunfinished i t true hi
    refine ⟨?_, ?_, ?_, fun u hu => ?_, hnodup, ?_⟩
    · grind [update_apply]
    · grind [update_apply]
    · grind [update_apply]
    · by_cases hut : u = t
      · exact .inl (by simp [hut])
      · refine (hreleased u hu).imp (List.mem_append_left _) (exists_claim_update ?_)
        simpa [hi] using Ne.symm hut
    · grind [List.nodup_append]

end Claims

end Beethoven.Lib
