import Mathlib.Order.Lattice
import Mathlib.Data.List.Basic

/-!
# Ordered sets

A finite set of elements of a linear order, kept as its strictly increasing list: the container
that orders its elements by `<` and holds each of them once. The smallest element comes first.

## Main definitions

* `OrderedSet`, with `OrderedSet.emplace`, `OrderedSet.first` and `OrderedSet.eraseFirst`.

## Main results

* `OrderedSet.mem_emplace`, `OrderedSet.mem_eraseFirst`: the elements after each operation.
-/

namespace Beethoven.Lib

variable {α : Type*} [LinearOrder α]

/-- Insert an element at its place in an increasing list, unless it is there already. -/
def insertSorted (a : α) : List α → List α
  | [] => [a]
  | b :: l => if a < b then a :: b :: l else if b < a then b :: insertSorted a l else b :: l

theorem mem_insertSorted {a b : α} {l : List α} : b ∈ insertSorted a l ↔ b = a ∨ b ∈ l := by
  induction l with
  | nil => simp [insertSorted]
  | cons c l ih =>
    rw [insertSorted]
    split_ifs with hac hca
    · simp
    · simp only [List.mem_cons, ih]
      tauto
    · obtain rfl : a = c := le_antisymm (not_lt.mp hca) (not_lt.mp hac)
      simp

theorem pairwise_insertSorted {a : α} {l : List α} (h : l.Pairwise (· < ·)) :
    (insertSorted a l).Pairwise (· < ·) := by
  induction l with
  | nil => simp [insertSorted]
  | cons c l ih =>
    obtain ⟨hc, hl⟩ := List.pairwise_cons.mp h
    rw [insertSorted]
    split_ifs with hac hca
    · refine List.pairwise_cons.mpr ⟨fun x hx => ?_, h⟩
      rcases List.mem_cons.mp hx with rfl | hx
      · exact hac
      · exact lt_trans hac (hc x hx)
    · refine List.pairwise_cons.mpr ⟨fun x hx => ?_, ih hl⟩
      rcases mem_insertSorted.mp hx with rfl | hx
      · exact hca
      · exact hc x hx
    · exact h

/-- A finite set kept as its strictly increasing list of elements. -/
structure OrderedSet (α : Type*) [LinearOrder α] where
  toList : List α
  sorted : toList.Pairwise (· < ·)

namespace OrderedSet

/-- The set with no elements. -/
def empty : OrderedSet α := ⟨[], List.Pairwise.nil⟩

instance : Membership α (OrderedSet α) := ⟨fun s a => a ∈ s.toList⟩

instance (a : α) (s : OrderedSet α) : Decidable (a ∈ s) :=
  inferInstanceAs (Decidable (a ∈ s.toList))

/-- Add an element; nothing changes if it is there. -/
def emplace (s : OrderedSet α) (a : α) : OrderedSet α :=
  ⟨insertSorted a s.toList, pairwise_insertSorted s.sorted⟩

/-- The smallest element. -/
def first (s : OrderedSet α) : Option α := s.toList.head?

/-- Remove the smallest element. -/
def eraseFirst (s : OrderedSet α) : OrderedSet α := ⟨s.toList.tail, s.sorted.tail⟩

variable {a b : α} {s : OrderedSet α}

@[simp] theorem notMem_empty : a ∉ (empty : OrderedSet α) := List.not_mem_nil

theorem eq_empty (h : ∀ a, a ∉ s) : s = empty := by
  obtain ⟨l, hl⟩ := s
  obtain rfl : l = [] := List.eq_nil_iff_forall_not_mem.mpr h
  rfl

@[simp] theorem mem_emplace : b ∈ s.emplace a ↔ b = a ∨ b ∈ s := mem_insertSorted

theorem mem_of_first (h : s.first = some a) : a ∈ s := List.mem_of_head? h

/-- Removing the smallest element `a` removes `a` and nothing else. -/
theorem mem_eraseFirst (h : s.first = some a) : b ∈ s.eraseFirst ↔ b ≠ a ∧ b ∈ s := by
  obtain ⟨l, hl⟩ := s
  cases l with
  | nil => simp [first] at h
  | cons c l =>
    obtain rfl : c = a := by simpa [first] using h
    obtain ⟨hc, -⟩ := List.pairwise_cons.mp hl
    change b ∈ l ↔ b ≠ c ∧ b ∈ c :: l
    constructor
    · intro hb
      exact ⟨ne_of_gt (hc b hb), List.mem_cons_of_mem c hb⟩
    · rintro ⟨hne, hb⟩
      exact (List.mem_cons.mp hb).resolve_left hne

end OrderedSet

end Beethoven.Lib
