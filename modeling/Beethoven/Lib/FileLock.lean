import Mathlib.Data.List.Basic

/-!
# Advisory locks on files

Processes open files and lock them, shared or exclusively, without waiting. A lock belongs to the
file that is open, whatever path led to it. A process is described by any type `α`, with a function
that says which file it has open and whether it holds a lock on it; a system is the list of its
processes.

A lock is granted when it agrees with the locks of all other processes on the same file
(`Grants`). As long as locks are taken only when they are granted, no two of them conflict
(`NoConflict`).

## Main definitions

* `LockMode`, `LockMode.Agrees`, `Handle`.
* `Grants`, `NoConflict`.

## Main results

* `NoConflict.set_of_unlocked`, `NoConflict.set_of_granted`, `NoConflict.append`: the changes of one
  process that keep the locks apart.
* `NoConflict.eq_of_exclusive`: an exclusive lock has one holder.
-/

namespace Beethoven.Lib

/-- The two kinds of a lock. -/
inductive LockMode
  | shared
  | exclusive
  deriving DecidableEq, Repr

/-- Two processes may hold locks of these kinds on one file. -/
def LockMode.Agrees : LockMode → LockMode → Prop
  | shared, shared => True
  | _, _ => False

instance : (m m' : LockMode) → Decidable (m.Agrees m')
  | .shared, .shared => inferInstanceAs (Decidable True)
  | .shared, .exclusive => inferInstanceAs (Decidable False)
  | .exclusive, _ => inferInstanceAs (Decidable False)

theorem LockMode.Agrees.symm {m m' : LockMode} (h : m.Agrees m') : m'.Agrees m := by
  cases m <;> cases m' <;> exact h

/-- An open file, with the lock that is held on it. -/
structure Handle where
  inode : ℕ
  lock : Option LockMode
  deriving DecidableEq, Repr

section Processes

variable {α : Type*} (handle : α → Option Handle)

/-- The process holds a lock of the kind `m` on the file. -/
def Holds (x : α) (inode : ℕ) (m : LockMode) : Prop := handle x = some ⟨inode, some m⟩

instance (x : α) (inode : ℕ) (m : LockMode) : Decidable (Holds handle x inode m) :=
  inferInstanceAs (Decidable (_ = _))

/-- A lock of process `p` agrees with all locks of the other processes on the file. -/
def Grants (procs : List α) (p inode : ℕ) (m : LockMode) : Prop :=
  ∀ q < procs.length, q ≠ p → ∀ x ∈ procs[q]?, ∀ m' ∈ [LockMode.shared, .exclusive],
    Holds handle x inode m' → m.Agrees m'

instance (procs : List α) (p inode : ℕ) (m : LockMode) :
    Decidable (Grants handle procs p inode m) :=
  inferInstanceAs (Decidable (∀ q < _, _ → ∀ x ∈ procs[q]?, ∀ m' ∈ _, _ → _))

/-- The locks of different processes on one file agree. -/
def NoConflict (procs : List α) : Prop :=
  ∀ (p q : ℕ) (x y : α) (inode : ℕ) (m m' : LockMode), p ≠ q →
    procs[p]? = some x → procs[q]? = some y →
    Holds handle x inode m → Holds handle y inode m' → m.Agrees m'

variable {handle} {procs : List α} {p inode : ℕ} {x y : α} {m m' : LockMode}

theorem Grants.agrees (h : Grants handle procs p inode m) {q : ℕ} (hq : q ≠ p)
    (hy : procs[q]? = some y) (hholds : Holds handle y inode m') : m.Agrees m' := by
  have hlt : q < procs.length := (List.getElem?_eq_some_iff.mp hy).1
  refine h q hlt hq y hy m' ?_ hholds
  cases m' <;> decide

/-- Locks that were held at the same places before do not conflict. -/
theorem NoConflict.of_held (h : NoConflict handle procs) {procs' : List α}
    (hheld : ∀ (q : ℕ) z inode m, procs'[q]? = some z → Holds handle z inode m →
      ∃ z', procs[q]? = some z' ∧ Holds handle z' inode m) : NoConflict handle procs' := by
  intro q q' z z' inode m m' hne hz hz' hholds hholds'
  obtain ⟨w, hw, hwholds⟩ := hheld q z inode m hz hholds
  obtain ⟨w', hw', hwholds'⟩ := hheld q' z' inode m' hz' hholds'
  exact h q q' w w' inode m m' hne hw hw' hwholds hwholds'

/-- A process that changes and holds no new lock conflicts with nobody. -/
theorem NoConflict.set_of_imp (h : NoConflict handle procs) (hx : procs[p]? = some x)
    (hy : ∀ inode m, Holds handle y inode m → Holds handle x inode m) :
    NoConflict handle (procs.set p y) := by
  refine h.of_held fun q z inode m hz hholds => ?_
  by_cases hq : p = q
  · subst hq
    rw [List.getElem?_set_self (List.getElem?_eq_some_iff.mp hx).1, Option.some.injEq] at hz
    subst hz
    exact ⟨x, hx, hy inode m hholds⟩
  · rw [List.getElem?_set_ne hq] at hz
    exact ⟨z, hz, hholds⟩

/-- A process that changes and holds no lock then conflicts with nobody. -/
theorem NoConflict.set_of_unlocked (h : NoConflict handle procs) (hx : procs[p]? = some x)
    (hy : ∀ inode m, ¬ Holds handle y inode m) : NoConflict handle (procs.set p y) :=
  h.set_of_imp hx fun inode m hholds => absurd hholds (hy inode m)

/-- A process that takes a lock that is granted conflicts with nobody. -/
theorem NoConflict.set_of_granted (h : NoConflict handle procs) (hx : procs[p]? = some x)
    (hgrant : Grants handle procs p inode m) (hy : Holds handle y inode m) :
    NoConflict handle (procs.set p y) := by
  have hlt : p < procs.length := (List.getElem?_eq_some_iff.mp hx).1
  have hself : (procs.set p y)[p]? = some y := List.getElem?_set_self hlt
  have honly : ∀ inode' m', Holds handle y inode' m' → inode' = inode ∧ m' = m := by
    intro inode' m' hy'
    have heq := Option.some.inj (hy'.symm.trans hy)
    rw [Handle.mk.injEq, Option.some.injEq] at heq
    exact heq
  -- the new lock against any lock of another process
  have hagrees : ∀ q z inode' m₁ m₂, q ≠ p → (procs.set p y)[q]? = some z →
      Holds handle y inode' m₁ → Holds handle z inode' m₂ → m₁.Agrees m₂ := by
    intro q z inode' m₁ m₂ hq hz hy' hz'
    obtain ⟨rfl, rfl⟩ := honly inode' m₁ hy'
    rw [List.getElem?_set_ne hq.symm] at hz
    exact hgrant.agrees hq hz hz'
  intro q q' z z' inode' m₁ m₂ hne hz hz' hholds hholds'
  by_cases hq : q = p
  · subst hq
    obtain rfl := Option.some.inj (hself.symm.trans hz)
    exact hagrees q' z' inode' m₁ m₂ hne.symm hz' hholds hholds'
  · by_cases hq' : q' = p
    · subst hq'
      obtain rfl := Option.some.inj (hself.symm.trans hz')
      exact (hagrees q z inode' m₂ m₁ hq hz hholds' hholds).symm
    · rw [List.getElem?_set_ne (Ne.symm hq)] at hz
      rw [List.getElem?_set_ne (Ne.symm hq')] at hz'
      exact h q q' z z' inode' m₁ m₂ hne hz hz' hholds hholds'

theorem NoConflict.append (h : NoConflict handle procs) (hx : ∀ inode m, ¬ Holds handle x inode m) :
    NoConflict handle (procs ++ [x]) := by
  refine h.of_held fun q z inode m hz hholds => ⟨z, ?_, hholds⟩
  by_cases hq : q < procs.length
  · rwa [List.getElem?_append_left hq] at hz
  · rw [List.getElem?_append_right (Nat.not_lt.mp hq)] at hz
    obtain rfl := List.mem_singleton.mp (List.mem_of_getElem? hz)
    exact absurd hholds (hx inode m)

/-- **An exclusive lock has one holder.** -/
theorem NoConflict.eq_of_exclusive (h : NoConflict handle procs) {q : ℕ} (hx : procs[p]? = some x)
    (hy : procs[q]? = some y) (hholds : Holds handle x inode .exclusive)
    (hholds' : Holds handle y inode .exclusive) : p = q := by
  by_contra hne
  exact h p q x y inode .exclusive .exclusive hne hx hy hholds hholds'

end Processes

end Beethoven.Lib
