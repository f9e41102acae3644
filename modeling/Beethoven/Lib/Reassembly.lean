import Mathlib.Data.Nat.Find
import Mathlib.Logic.Function.Iterate

/-!
# Reassembling data that arrives in pieces

A block of data is delivered in beats of `m` words each, in order, while its words arrive in any
order. The beats that can be delivered are the leading ones all of whose words have arrived
(`deliverable`). A loop that hands out the next beat as long as it is complete (`drain`) delivers
exactly those.

## Main definitions

* `drain`: a loop with outputs, for at most a given number of rounds.
* `deliverable`: the number of leading complete beats.

## Main results

* `drain_spec`: the rounds of the loop, and where it stops.
* `deliverable_eq`: where the loop stops.
* `deliverable_of_all`: all beats are deliverable when all words have arrived.
-/

namespace Beethoven.Lib

variable {σ β : Type*}

/-- While `ready`, output `out` and go on to `next`, for at most `n` rounds. -/
def drain (ready : σ → Bool) (next : σ → σ) (out : σ → β) : ℕ → σ → σ × List β
  | 0, s => (s, [])
  | n + 1, s =>
    if ready s then
      let r := drain ready next out n (next s)
      (r.1, out s :: r.2)
    else (s, [])

/-- The loop makes some number of rounds, at each of which the condition holds; if it does not use
up its rounds, it stops where the condition fails. -/
theorem drain_spec (ready : σ → Bool) (next : σ → σ) (out : σ → β) (n : ℕ) (s : σ) :
    ∃ k ≤ n, drain ready next out n s =
        (next^[k] s, (List.range k).map fun j => out (next^[j] s)) ∧
      (∀ j < k, ready (next^[j] s) = true) ∧ (k < n → ready (next^[k] s) = false) := by
  induction n generalizing s with
  | zero => exact ⟨0, le_rfl, rfl, by simp, by simp⟩
  | succ n ih =>
    rw [drain]
    split_ifs with hready
    · obtain ⟨k, hk, heq, hrounds, hstop⟩ := ih (next s)
      refine ⟨k + 1, by omega, ?_, fun j hj => ?_, fun hlt => hstop (by omega)⟩
      · rw [heq, List.range_succ_eq_map, List.map_cons, List.map_map]
        rfl
      · cases j with
        | zero => exact hready
        | succ j => exact hrounds j (by omega)
    · exact ⟨0, Nat.zero_le _, rfl, by simp, fun _ => Bool.eq_false_iff.mpr hready⟩

section deliverable

variable {m b p : ℕ} {arrived : ℕ → Prop} [DecidablePred arrived]

/-- The number of leading beats, of `m` words each and `b` in all, whose words have all arrived. -/
def deliverable (m b : ℕ) (arrived : ℕ → Prop) [DecidablePred arrived] : ℕ :=
  Nat.findGreatest (fun p => ∀ w < p * m, arrived w) b

/-- Delivery has stopped where all beats are delivered or the next one lacks a word. -/
theorem deliverable_eq (hp : p ≤ b) (harrived : ∀ w < p * m, arrived w)
    (hstop : p < b → ∃ w < m, ¬ arrived (p * m + w)) : deliverable m b arrived = p := by
  refine Nat.findGreatest_eq_iff.mpr ⟨hp, fun _ => harrived, fun q hlt hle hq => ?_⟩
  obtain ⟨w, hw, hmissing⟩ := hstop (by omega)
  have hpq : (p + 1) * m ≤ q * m := Nat.mul_le_mul_right m hlt
  rw [Nat.add_mul] at hpq
  exact hmissing (hq _ (by omega))

theorem arrived_of_lt_deliverable {w : ℕ} (hw : w < deliverable m b arrived * m) : arrived w :=
  Nat.findGreatest_spec (P := fun p => ∀ w < p * m, arrived w) (Nat.zero_le b) (by simp) w hw

theorem deliverable_of_all (h : ∀ w < b * m, arrived w) : deliverable m b arrived = b :=
  deliverable_eq le_rfl h fun hlt => absurd hlt (lt_irrefl b)

end deliverable

end Beethoven.Lib
