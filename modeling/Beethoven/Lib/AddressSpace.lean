import Mathlib.Data.List.Basic

/-!
# Address spaces

The mapped regions of an address space, each with a label. A new region is mapped where nothing is
mapped; unmapping a range takes away every region that the range touches. The regions are never
empty and do not overlap, so to unmap the range of a region takes away that region alone.

## Main definitions

* `MappedRegion`, `AddressSpace`, `AddressSpace.mmap`, `AddressSpace.munmap`.

## Main results

* `AddressSpace.mem_munmap`: a region that is not touched stays mapped.
* `AddressSpace.not_touches`: two regions of an address space do not touch.
-/

namespace Beethoven.Lib

variable {ι : Type*} {limit : ℕ}

/-- A mapped region with its label. -/
structure MappedRegion (ι : Type*) where
  label : ι
  addr : ℕ
  len : ℕ
  deriving DecidableEq, Repr

/-- A range of addresses has an address in common with the region. -/
def MappedRegion.Touches (r : MappedRegion ι) (addr len : ℕ) : Prop :=
  r.addr < addr + len ∧ addr < r.addr + r.len

instance (r : MappedRegion ι) (addr len : ℕ) : Decidable (r.Touches addr len) :=
  inferInstanceAs (Decidable (r.addr < addr + len ∧ addr < r.addr + r.len))

/-- A range that can be mapped and unmapped: it is not empty, and it ends below the limit. -/
def ValidRange (limit addr len : ℕ) : Prop := 0 < len ∧ addr + len ≤ limit

instance (limit addr len : ℕ) : Decidable (ValidRange limit addr len) :=
  inferInstanceAs (Decidable (0 < len ∧ addr + len ≤ limit))

/-- The mapped regions of the addresses below a limit, of which no two overlap. -/
structure AddressSpace (ι : Type*) (limit : ℕ) where
  regions : List (MappedRegion ι)
  valid : ∀ r ∈ regions, ValidRange limit r.addr r.len
  disjoint : regions.Pairwise fun r r' => ¬ r.Touches r'.addr r'.len

namespace AddressSpace

variable (s : AddressSpace ι limit)

def empty : AddressSpace ι limit := ⟨[], by simp, .nil⟩

/-- Map a region at an address where nothing is mapped. -/
def mmap (label : ι) (addr len : ℕ) : Option (AddressSpace ι limit) :=
  if h : ValidRange limit addr len ∧ ∀ r ∈ s.regions, ¬ r.Touches addr len then
    some {
      regions := s.regions ++ [⟨label, addr, len⟩]
      valid := by
        intro r hr
        rcases List.mem_append.mp hr with hr | hr
        · exact s.valid r hr
        · rw [List.mem_singleton.mp hr]
          exact h.1
      disjoint := by
        refine List.pairwise_append.mpr ⟨s.disjoint, List.pairwise_singleton _ _, ?_⟩
        intro r hr r' hr'
        rw [List.mem_singleton.mp hr']
        exact h.2 r hr }
  else none

/-- Unmap a range of addresses; nothing happens if the range is not valid. -/
def munmap (addr len : ℕ) : AddressSpace ι limit :=
  if ValidRange limit addr len then
    { regions := s.regions.filter fun r => ¬ r.Touches addr len
      valid := fun r hr => s.valid r (List.mem_filter.mp hr).1
      disjoint := s.disjoint.filter _ }
  else s

variable {s} {t : AddressSpace ι limit} {r r' : MappedRegion ι} {label : ι} {addr len : ℕ}

theorem mmap_eq_some (h : s.mmap label addr len = some t) :
    t.regions = s.regions ++ [⟨label, addr, len⟩] := by
  rw [mmap] at h
  split_ifs at h
  obtain rfl := Option.some.inj h
  rfl

theorem mem_munmap (hr : r ∈ s.regions) (htouch : ¬ r.Touches addr len) :
    r ∈ (s.munmap addr len).regions := by
  rw [munmap]
  split_ifs
  · exact List.mem_filter.mpr ⟨hr, decide_eq_true htouch⟩
  · exact hr

theorem munmap_subset : (s.munmap addr len).regions ⊆ s.regions := by
  rw [munmap]
  split_ifs
  · exact List.filter_subset_self ..
  · exact List.Subset.refl _

theorem not_touches (hr : r ∈ s.regions) (hr' : r' ∈ s.regions) (hne : r ≠ r') :
    ¬ r.Touches r'.addr r'.len := by
  have hpairwise := List.pairwise_iff_getElem.mp s.disjoint
  obtain ⟨i, hi, rfl⟩ := List.getElem_of_mem hr
  obtain ⟨j, hj, rfl⟩ := List.getElem_of_mem hr'
  rcases Nat.lt_trichotomy i j with hij | rfl | hij
  · exact hpairwise i j hi hj hij
  · exact absurd rfl hne
  · exact fun htouch => hpairwise j i hj hi hij ⟨htouch.2, htouch.1⟩

end AddressSpace

end Beethoven.Lib
