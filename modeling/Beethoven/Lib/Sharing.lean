import Mathlib.Data.List.Basic
import Mathlib.Logic.Function.Basic
import Mathlib.Logic.Relation

/-!
# Shared resources

Holders, each in a slot of its own, may hold a reference to a resource, and a ledger has a number of
counted references for every resource. A reference that is taken is counted, and one that is given
up is no longer counted; a reference may also be moved to another slot. A reference that is *lost*
is overwritten and stays counted.

The counted references are never fewer than the holders, and they are as many as the holders if no
reference is lost.

## Main definitions

* `Ledger`, `Ledger.holders`, `Ledger.Step`, `Ledger.Steps`, `Ledger.Loss`.

## Main results

* `Ledger.Sound.steps`, `Ledger.Sound.loss`: no holder is uncounted.
* `Ledger.Exact.steps`: without losses every counted reference has a holder.
-/

namespace Beethoven.Lib

open Function

variable {ρ : Type*}

/-- The slots of the holders and the number of references counted for every resource. -/
@[ext] structure Ledger (ρ : Type*) where
  slots : List (Option ρ)
  refs : ρ → ℕ

namespace Ledger

variable [DecidableEq ρ] {l l' : Ledger ρ} {r : ρ} {k : ℕ}

/-- The number of holders of a resource. -/
def holders (l : Ledger ρ) (r : ρ) : ℕ := l.slots.count (some r)

theorem holders_eq_zero : l.holders r = 0 ↔ some r ∉ l.slots := List.count_eq_zero

/-- What a slot holds counts for its resource. -/
def share (x : Option ρ) (r : ρ) : ℕ := if x = some r then 1 else 0

theorem count_set_add {slots : List (Option ρ)} {x : Option ρ} (hk : slots[k]? = some x)
    (y : Option ρ) (r : ρ) :
    (slots.set k y).count (some r) + share x r = slots.count (some r) + share y r := by
  obtain ⟨hlt, rfl⟩ := List.getElem?_eq_some_iff.mp hk
  have hle : share slots[k] r ≤ slots.count (some r) := by
    rw [share]
    split_ifs with hx
    · exact List.count_pos_iff.mpr (hx ▸ List.getElem_mem hlt)
    · exact Nat.zero_le _
  rw [List.count_set hlt]
  simp only [share, beq_iff_eq] at hle ⊢
  omega

/-- The changes of a ledger in which no reference is lost. -/
inductive Step (l : Ledger ρ) : Ledger ρ → Prop
  | stay : Step l l
  | grow : Step l ⟨l.slots ++ [none], l.refs⟩
  | take {k : ℕ} (r : ρ) (hk : l.slots[k]? = some none) :
      Step l ⟨l.slots.set k (some r), update l.refs r (l.refs r + 1)⟩
  | give {k : ℕ} {r : ρ} (hk : l.slots[k]? = some (some r)) :
      Step l ⟨l.slots.set k none, update l.refs r (l.refs r - 1)⟩
  | move {k j : ℕ} {x : Option ρ} (hk : l.slots[k]? = some none) (hj : l.slots[j]? = some x)
      (hkj : k ≠ j) : Step l ⟨(l.slots.set k x).set j none, l.refs⟩

/-- The loss of a reference. -/
inductive Loss (l : Ledger ρ) : Ledger ρ → Prop
  | lose {k : ℕ} {x : Option ρ} (hk : l.slots[k]? = some x) : Loss l ⟨l.slots.set k none, l.refs⟩

/-- Every holder is counted. -/
def Sound (l : Ledger ρ) : Prop := ∀ r, l.holders r ≤ l.refs r

/-- The counted references are those of the holders. -/
def Exact (l : Ledger ρ) : Prop := ∀ r, l.holders r = l.refs r

/-- What a step does to the holders and to the counted references: both change alike. -/
theorem Step.balance (h : Step l l') (r : ρ) :
    (l'.holders r = l.holders r ∧ l'.refs r = l.refs r) ∨
      (l'.holders r = l.holders r + 1 ∧ l'.refs r = l.refs r + 1) ∨
      (l'.holders r + 1 = l.holders r ∧ l'.refs r = l.refs r - 1) := by
  cases h with
  | stay => exact .inl ⟨rfl, rfl⟩
  | grow => exact .inl ⟨by simp [holders], rfl⟩
  | @take k r' hk =>
    have hcount := count_set_add hk (some r') r
    by_cases hr : r = r'
    · subst hr
      refine .inr (.inl ⟨?_, update_self ..⟩)
      simpa [holders, share] using hcount
    · refine .inl ⟨?_, update_of_ne hr _ _⟩
      simpa [holders, share, Ne.symm hr] using hcount
  | @give k r' hk =>
    have hcount := count_set_add hk none r
    by_cases hr : r = r'
    · subst hr
      refine .inr (.inr ⟨?_, update_self ..⟩)
      simpa [holders, share] using hcount
    · refine .inl ⟨?_, update_of_ne hr _ _⟩
      simpa [holders, share, Ne.symm hr] using hcount
  | @move k j x hk hj hkj =>
    have hj' : (l.slots.set k x)[j]? = some x := by rw [List.getElem?_set_ne hkj, hj]
    have hinto := count_set_add hk x r
    have hfrom := count_set_add hj' none r
    refine .inl ⟨?_, rfl⟩
    simp only [holders, share] at hinto hfrom ⊢
    simp only [reduceCtorEq, if_false] at hinto hfrom
    omega

theorem Sound.step (h : l.Sound) (hstep : Step l l') : l'.Sound := by
  intro r
  have hr := h r
  rcases hstep.balance r with ⟨hh, hc⟩ | ⟨hh, hc⟩ | ⟨hh, hc⟩ <;> omega

theorem Exact.step (h : l.Exact) (hstep : Step l l') : l'.Exact := by
  intro r
  have hr := h r
  rcases hstep.balance r with ⟨hh, hc⟩ | ⟨hh, hc⟩ | ⟨hh, hc⟩ <;> omega

/-- A sequence of changes in which no reference is lost. -/
def Steps (l l' : Ledger ρ) : Prop := Relation.ReflTransGen Step l l'

theorem Step.steps (h : Step l l') : Steps l l' := .single h

theorem Sound.steps (h : l.Sound) (hsteps : Steps l l') : l'.Sound := by
  induction hsteps with
  | refl => exact h
  | tail _ hstep ih => exact ih.step hstep

theorem Exact.steps (h : l.Exact) (hsteps : Steps l l') : l'.Exact := by
  induction hsteps with
  | refl => exact h
  | tail _ hstep ih => exact ih.step hstep

theorem Sound.loss (h : l.Sound) (hloss : Loss l l') : l'.Sound := by
  intro r
  cases hloss with
  | @lose k x hk =>
    have hcount := count_set_add hk none r
    have hr := h r
    simp only [holders, share, reduceCtorEq, if_false] at hcount hr ⊢
    omega

end Ledger

end Beethoven.Lib
