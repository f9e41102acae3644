import Mathlib.Data.List.Nodup
import Mathlib.Data.List.Perm.Subperm
import Mathlib.Logic.Function.Basic
import Mathlib.Order.Lattice

/-!
# Requests in flight

A client issues requests under keys to a server that completes them in any order. The client files
the requests in flight in one queue per key, and takes a completion under a key for the oldest
request of that queue; several requests may share a key, and one request may be issued under several
keys. As long as the server completes what it has accepted, and that once, every issue is either in
flight or completed.

The second part is about the order of the log that a client keeps of its requests: a log to which a
request is appended only while all smaller requests of its class are closed, and while it is itself
open, lists the requests of a class in increasing order.

## Main definitions

* `keysOf`, `InFlight`, `InFlight.Step`, `InFlight.Balanced`.
* `ClosedOrder`.

## Main results

* `InFlight.Balanced.step`: every step keeps the balance.
* `InFlight.Balanced.completed_perm`: as many completions as issues are the completions of all.
* `ClosedOrder.append`: the order of the log.
-/

namespace Beethoven.Lib

open Function

variable {ρ κ ι : Type*}

section keysOf

variable [DecidableEq ρ]

/-- The entries of the request `r` in a log, in the order of the log. -/
def keysOf (l : List (ρ × κ)) (r : ρ) : List κ :=
  l.filterMap fun x => if x.1 = r then some x.2 else none

variable {l l' : List (ρ × κ)} {r r' : ρ} {k : κ}

@[simp] theorem keysOf_nil : keysOf ([] : List (ρ × κ)) r = [] := rfl

@[simp] theorem keysOf_append : keysOf (l ++ l') r = keysOf l r ++ keysOf l' r :=
  List.filterMap_append

@[simp] theorem keysOf_singleton_self : keysOf [(r, k)] r = [k] := by simp [keysOf]

theorem keysOf_singleton_of_ne (h : r ≠ r') : keysOf [(r, k)] r' = [] := by simp [keysOf, h]

@[simp] theorem mem_keysOf : k ∈ keysOf l r ↔ (r, k) ∈ l := by
  simp only [keysOf, List.mem_filterMap, Option.ite_none_right_eq_some, Option.some.injEq]
  constructor
  · rintro ⟨⟨r', k'⟩, hmem, rfl, rfl⟩
    exact hmem
  · intro hmem
    exact ⟨(r, k), hmem, rfl, rfl⟩

@[simp] theorem keysOf_map_self (ks : List κ) : keysOf (ks.map (r, ·)) r = ks := by
  simp [keysOf, List.filterMap_map]

theorem keysOf_map_of_ne (h : r ≠ r') (ks : List κ) : keysOf (ks.map (r, ·)) r' = [] := by
  simp [keysOf, List.filterMap_map, h]

theorem keysOf_eq_nil (h : ∀ x ∈ l, x.1 ≠ r) : keysOf l r = [] := by
  refine List.filterMap_eq_nil_iff.mpr fun x hx => ?_
  rw [if_neg (h x hx)]

end keysOf

/-- The issues and the completions so far, the queues of the requests in flight, and the keys that
the server has accepted and not completed. -/
structure InFlight (ρ κ : Type*) where
  issued : List (ρ × κ)
  waiting : κ → List ρ
  completed : List (ρ × κ)
  pending : List κ

namespace InFlight

variable [DecidableEq ρ] [DecidableEq κ] {f f' : InFlight ρ κ} {r : ρ} {k : κ}

/-- A request is issued under a key, or the server completes a key that it has accepted. -/
inductive Step (f : InFlight ρ κ) : InFlight ρ κ → Prop
  | issue (r : ρ) (k : κ) :
      Step f ⟨f.issued ++ [(r, k)], update f.waiting k (f.waiting k ++ [r]), f.completed,
        f.pending ++ [k]⟩
  | complete {k : κ} {r : ρ} {rest : List ρ} (hpending : k ∈ f.pending)
      (hk : f.waiting k = r :: rest) :
      Step f ⟨f.issued, update f.waiting k rest, f.completed ++ [(r, k)],
        f.pending.erase k⟩

/-- Every issue is in flight or completed, and the queues hold what the server has accepted. -/
structure Balanced (f : InFlight ρ κ) : Prop where
  count_issued : ∀ r k,
    (keysOf f.issued r).count k = (f.waiting k).count r + (keysOf f.completed r).count k
  count_pending : ∀ k, f.pending.count k = (f.waiting k).length

private theorem count_keysOf_singleton (r r' : ρ) (k k' : κ) :
    (keysOf [(r, k)] r').count k' = if r = r' ∧ k = k' then 1 else 0 := by
  by_cases hr : r = r'
  · subst hr
    by_cases hk : k = k'
    · simp [hk]
    · simp [hk]
  · simp [keysOf_singleton_of_ne hr, hr]

/-- **Every step keeps the balance.** -/
theorem Balanced.step (h : f.Balanced) (hstep : Step f f') : f'.Balanced := by
  cases hstep with
  | issue r k =>
    refine ⟨fun r' k' => ?_, fun k' => ?_⟩
    · have hbal := h.count_issued r' k'
      simp only [keysOf_append, List.count_append, count_keysOf_singleton]
      by_cases hk : k' = k
      · subst hk
        by_cases hr : r = r'
        · subst hr
          simp only [and_self, if_true, update_self, List.count_append,
            List.count_singleton_self]
          omega
        · simp only [hr, false_and, if_false, update_self, List.count_append,
            List.count_singleton, beq_iff_eq]
          omega
      · rw [update_of_ne hk, if_neg fun hrk => hk hrk.2.symm]
        omega
    · have hpend := h.count_pending k'
      rw [List.count_append]
      by_cases hk : k' = k
      · subst hk
        simp only [update_self, List.count_singleton_self, List.length_append,
          List.length_singleton]
        omega
      · simp only [update_of_ne hk]
        rw [List.count_singleton, if_neg (by simpa using Ne.symm hk)]
        omega
  | @complete k r rest hpending hk =>
    refine ⟨fun r' k' => ?_, fun k' => ?_⟩
    · have hbal := h.count_issued r' k'
      simp only [keysOf_append, List.count_append, count_keysOf_singleton]
      by_cases hk' : k' = k
      · subst hk'
        rw [hk, List.count_cons] at hbal
        by_cases hr : r = r'
        · subst hr
          simp only [beq_self_eq_true, if_true] at hbal
          simp only [and_self, if_true, update_self]
          omega
        · rw [if_neg (by simpa using hr)] at hbal
          simp only [hr, false_and, if_false, update_self]
          omega
      · rw [update_of_ne hk', if_neg fun hrk => hk' hrk.2.symm]
        omega
    · have hpend := h.count_pending k'
      by_cases hk' : k' = k
      · subst hk'
        rw [hk, List.length_cons] at hpend
        simp only [update_self, List.count_erase_self]
        omega
      · simp only [update_of_ne hk', List.count_erase_of_ne hk']
        exact hpend

/-- A key that the server may complete has a request waiting under it. -/
theorem Balanced.waiting_ne_nil (h : f.Balanced) (hk : k ∈ f.pending) : f.waiting k ≠ [] := by
  intro hnil
  have hcount := h.count_pending k
  rw [hnil, List.length_nil] at hcount
  exact List.count_eq_zero.mp hcount hk

theorem Balanced.mem_issued (h : f.Balanced) (hr : r ∈ f.waiting k) : (r, k) ∈ f.issued := by
  have hpos := List.count_pos_iff.mpr hr
  have hbal := h.count_issued r k
  exact mem_keysOf.mp (List.count_pos_iff.mp (by omega))

theorem Balanced.completed_subperm (h : f.Balanced) (r : ρ) :
    (keysOf f.completed r).Subperm (keysOf f.issued r) := by
  refine List.subperm_ext_iff.mpr fun k _ => ?_
  have hbal := h.count_issued r k
  omega

theorem Balanced.mem_issued_of_completed (h : f.Balanced) (hk : (r, k) ∈ f.completed) :
    (r, k) ∈ f.issued :=
  mem_keysOf.mp ((h.completed_subperm r).subset (mem_keysOf.mpr hk))

/-- **Completions of all issues.** As many completions as issues are one for each issue. -/
theorem Balanced.completed_perm (h : f.Balanced)
    (hlen : (keysOf f.completed r).length = (keysOf f.issued r).length) :
    (keysOf f.completed r).Perm (keysOf f.issued r) :=
  (h.completed_subperm r).perm_of_length_le hlen.ge

/-- A request in flight has fewer completions than issues. -/
theorem Balanced.completed_length_lt (h : f.Balanced) (hr : r ∈ f.waiting k) :
    (keysOf f.completed r).length < (keysOf f.issued r).length := by
  refine lt_of_le_of_ne (h.completed_subperm r).length_le fun hlen => ?_
  have hcount := (h.completed_perm hlen).count_eq k
  have hbal := h.count_issued r k
  have hpos := List.count_pos_iff.mpr hr
  omega

/-- When the server has nothing left to complete, every issue is completed. -/
theorem Balanced.completed_length_eq (h : f.Balanced) (hnil : f.pending = []) (r : ρ) :
    (keysOf f.completed r).length = (keysOf f.issued r).length := by
  refine le_antisymm (h.completed_subperm r).length_le ?_
  refine List.Subperm.length_le (List.subperm_ext_iff.mpr fun k _ => ?_)
  have hpend := h.count_pending k
  rw [hnil, List.count_nil] at hpend
  have hwait := List.length_eq_zero_iff.mp hpend.symm
  have hbal := h.count_issued r k
  rw [hwait, List.count_nil] at hbal
  omega

end InFlight

/-! ### The order of a log -/

variable [LinearOrder ρ]

/-- The entries of a class stand in the log in increasing order, and the requests of a class below
an entry are closed. -/
structure ClosedOrder (cls : ρ → ι) (closed : ρ → Prop) (l : List ρ) : Prop where
  sorted : l.Pairwise fun i j => cls i = cls j → i ≤ j
  closed : ∀ j ∈ l, ∀ i < j, cls i = cls j → closed i

namespace ClosedOrder

variable {cls cls' : ρ → ι} {closed closed' : ρ → Prop} {l l' : List ρ} {i : ρ}

theorem nil : ClosedOrder cls closed [] := ⟨.nil, by simp⟩

/-- Classes and closed requests matter below the entries of the log only. -/
theorem congr (h : ClosedOrder cls closed l) (hcls : ∀ j ∈ l, ∀ i ≤ j, cls' i = cls i)
    (hclosed : ∀ j ∈ l, ∀ i < j, closed i → closed' i) : ClosedOrder cls' closed' l := by
  constructor
  · refine h.sorted.imp_of_mem fun {i j} hi hj hle heq => hle ?_
    rw [← hcls i hi i le_rfl, heq, hcls j hj j le_rfl]
  · intro j hj i hlt heq
    refine hclosed j hj i hlt (h.closed j hj i hlt ?_)
    rw [← hcls j hj i hlt.le, heq, hcls j hj j le_rfl]

/-- **Order of the log.** Entries of an open request are appended while the smaller requests of its
class are closed. -/
theorem append (h : ClosedOrder cls closed l) (hopen : ¬ closed i)
    (hbelow : ∀ j < i, cls j = cls i → closed j) (hl' : ∀ x ∈ l', x = i) :
    ClosedOrder cls closed (l ++ l') := by
  constructor
  · refine List.pairwise_append.mpr ⟨h.sorted, ?_, fun j hj x hx heq => ?_⟩
    · refine List.pairwise_of_forall_mem_list fun x hx y hy _ => ?_
      rw [hl' x hx, hl' y hy]
    · obtain rfl := hl' x hx
      -- a larger entry of the class would have closed the request
      by_contra hlt
      exact hopen (h.closed j hj _ (not_le.mp hlt) heq.symm)
  · intro j hj x hlt heq
    rcases List.mem_append.mp hj with hj | hj
    · exact h.closed j hj x hlt heq
    · obtain rfl := hl' j hj
      exact hbelow x hlt heq

end ClosedOrder

end Beethoven.Lib
