import Mathlib.Data.Set.Insert

/-!
# Maximal runs of consecutive numbers

The maximal runs of a set of natural numbers are the blocks of consecutive members that cannot be
made longer on either side. A set that is an interval has one of them, and the maximal runs of two
sets with a gap between them are those of the one and those of the other.

## Main definitions

* `IsMaximalRun`.

## Main results

* `isMaximalRun_Ico_iff`: the maximal run of an interval.
* `isMaximalRun_union_iff`: the maximal runs on both sides of a gap.
-/

namespace Beethoven.Lib

/-- The `n` numbers from `s` on are members of `S`, but neither the number before them nor the one
after them. -/
structure IsMaximalRun (S : Set ℕ) (s n : ℕ) : Prop where
  pos : 0 < n
  mem : ∀ i, s ≤ i → i < s + n → i ∈ S
  before : ∀ i, i + 1 = s → i ∉ S
  after : s + n ∉ S

namespace IsMaximalRun

variable {S A B : Set ℕ} {s n b m : ℕ}

theorem start_mem (h : IsMaximalRun S s n) : s ∈ S :=
  h.mem s le_rfl (Nat.lt_add_of_pos_right h.pos)

theorem last_mem (h : IsMaximalRun S s n) : s + n - 1 ∈ S :=
  h.mem _ (by have := h.pos; omega) (by have := h.pos; omega)

/-- A run that starts in one of two sets with no step from it into the other stays in this set. -/
private theorem mem_of_start (h : IsMaximalRun (A ∪ B) s n) (hs : s ∈ A)
    (hstep : ∀ i ∈ A, i + 1 ∉ B) : ∀ k, k < n → s + k ∈ A := by
  intro k
  induction k with
  | zero => exact fun _ => hs
  | succ k ih =>
    intro hk
    have hprev : s + k ∈ A := ih (Nat.lt_of_succ_lt hk)
    exact (h.mem (s + (k + 1)) (by omega) (by omega)).resolve_right (hstep _ hprev)

private theorem of_union (h : IsMaximalRun (A ∪ B) s n) (hs : s ∈ A)
    (hstep : ∀ i ∈ A, i + 1 ∉ B) : IsMaximalRun A s n where
  pos := h.pos
  mem i hle hlt := by
    have hmem := mem_of_start h hs hstep (i - s) (by omega)
    rwa [Nat.add_sub_cancel' hle] at hmem
  before i hi hA := h.before i hi (.inl hA)
  after hA := h.after (.inl hA)

private theorem union (h : IsMaximalRun A s n) (hstep : ∀ i ∈ A, i + 1 ∉ B)
    (hback : ∀ i ∈ B, i + 1 ∉ A) : IsMaximalRun (A ∪ B) s n where
  pos := h.pos
  mem i hle hlt := .inl (h.mem i hle hlt)
  before i hi hAB := by
    rcases hAB with hA | hB
    · exact h.before i hi hA
    · exact hback i hB (hi ▸ h.start_mem)
  after hAB := by
    rcases hAB with hA | hB
    · exact h.after hA
    · have hpos := h.pos
      refine hstep _ h.last_mem ?_
      rwa [Nat.sub_add_cancel (by omega)]

end IsMaximalRun

variable {A B : Set ℕ} {s n b m : ℕ}

/-- The maximal runs of two sets with a gap between them. -/
theorem isMaximalRun_union_iff (hgap : ∀ i ∈ A, ∀ j ∈ B, i + 1 < j) :
    IsMaximalRun (A ∪ B) s n ↔ IsMaximalRun A s n ∨ IsMaximalRun B s n := by
  have hstep : ∀ i ∈ A, i + 1 ∉ B := fun i hi hj => absurd (hgap i hi _ hj) (lt_irrefl _)
  have hback : ∀ i ∈ B, i + 1 ∉ A := by
    intro i hi hj
    have := hgap _ hj i hi
    omega
  constructor
  · intro h
    rcases h.start_mem with hs | hs
    · exact .inl (h.of_union hs hstep)
    · exact .inr ((Set.union_comm A B ▸ h).of_union hs hback)
  · rintro (h | h)
    · exact h.union hstep hback
    · exact Set.union_comm B A ▸ h.union hback hstep

/-- An interval that is not empty is its only maximal run. -/
theorem isMaximalRun_Ico_iff (hm : 0 < m) :
    IsMaximalRun {i | b ≤ i ∧ i < b + m} s n ↔ s = b ∧ n = m := by
  constructor
  · intro h
    obtain ⟨hle, hlt⟩ := h.start_mem
    have hs : s = b := by
      by_contra hne
      exact h.before (s - 1) (by omega) ⟨by omega, by omega⟩
    subst hs
    obtain ⟨-, hlast⟩ := h.last_mem
    have hafter : ¬ s + n < s + m := fun hlt' => h.after ⟨by omega, hlt'⟩
    exact ⟨rfl, by have := h.pos; omega⟩
  · rintro ⟨rfl, rfl⟩
    refine ⟨hm, fun i hle hlt => ⟨hle, hlt⟩, ?_, fun hafter => absurd hafter.2 (lt_irrefl _)⟩
    rintro i hi ⟨hle, -⟩
    omega

end Beethoven.Lib
