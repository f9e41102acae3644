import Beethoven.Lib.Runs
import Beethoven.Allocator.Outcomes

/-!
# The segments of the free list

The large path of `malloc` scans the free list for segments of consecutive superblocks. The scan
starts with the segment start zero instead of the first entry of the list, so the first segment that
it reports starts at superblock zero, whatever the list holds. The other segments are right, and so
is the first one if the list starts with superblock zero.
-/

namespace Beethoven.Allocator

open Lib

/-- The superblocks that the scan has still to report: the `currentLen` ones from `currentSegBegin`
on, and the rest of the list. -/
def pendingSuperblocks (l : List ℕ) (currentLen currentSegBegin : ℕ) : Set ℕ :=
  {i | currentSegBegin ≤ i ∧ i < currentSegBegin + currentLen} ∪ {i | i ∈ l}

/-- The scan of the free list reports the maximal runs of consecutive superblocks, each once, as
pairs of first superblock and length. -/
structure SegmentsExact (freeList : List ℕ) : Prop where
  nodup : (scanSegments freeList 0 0).Nodup
  mem_iff : ∀ s n, (s, n) ∈ scanSegments freeList 0 0 ↔ IsMaximalRun {i | i ∈ freeList} s n

variable {x y s n currentLen currentSegBegin : ℕ} {rest : List ℕ}

theorem pendingSuperblocks_cons (h : currentSegBegin + currentLen = x) (l : List ℕ) :
    pendingSuperblocks (x :: l) currentLen currentSegBegin =
      pendingSuperblocks l (currentLen + 1) currentSegBegin := by
  ext i
  simp only [pendingSuperblocks, Set.mem_union, Set.mem_ofPred_eq, List.mem_cons]
  constructor
  · rintro (⟨hle, hlt⟩ | rfl | hi)
    · exact .inl ⟨hle, by omega⟩
    · exact .inl ⟨by omega, by omega⟩
    · exact .inr hi
  · rintro (⟨hle, hlt⟩ | hi)
    · by_cases hix : i = x
      · exact .inr (.inl hix)
      · exact .inl ⟨hle, by omega⟩
    · exact .inr (.inr hi)

@[simp] theorem pendingSuperblocks_zero (l : List ℕ) :
    pendingSuperblocks l 0 currentSegBegin = {i | i ∈ l} := by
  ext i
  simp only [pendingSuperblocks, Set.mem_union, Set.mem_ofPred_eq]
  exact or_iff_right fun h => by omega

/-- **The segments reported from an iteration on**, if the current segment ends just before the
superblock under the iterator: the maximal runs of the superblocks that are still to report. -/
theorem mem_scanSegments (hl : (x :: rest).Pairwise (· < ·))
    (h : currentSegBegin + currentLen = x) :
    (s, n) ∈ scanSegments (x :: rest) currentLen currentSegBegin ↔
      IsMaximalRun (pendingSuperblocks (x :: rest) currentLen currentSegBegin) s n := by
  induction rest generalizing x currentLen currentSegBegin with
  | nil =>
    -- the end of the list closes the current segment
    have hpending : pendingSuperblocks [x] currentLen currentSegBegin =
        {i | currentSegBegin ≤ i ∧ i < currentSegBegin + (currentLen + 1)} := by
      rw [pendingSuperblocks_cons h]
      ext i
      simp [pendingSuperblocks]
    rw [hpending, isMaximalRun_Ico_iff (Nat.succ_pos currentLen), scanSegments,
      List.mem_singleton, Prod.mk.injEq]
  | cons y rest ih =>
    obtain ⟨hx, hrest⟩ := List.pairwise_cons.mp hl
    have hxy : x < y := hx y List.mem_cons_self
    rw [scanSegments, pendingSuperblocks_cons h]
    split_ifs with hgap
    · -- a gap closes the current segment, and the next one starts behind it
      have hsplit : pendingSuperblocks (y :: rest) (currentLen + 1) currentSegBegin =
          {i | currentSegBegin ≤ i ∧ i < currentSegBegin + (currentLen + 1)} ∪
            pendingSuperblocks (y :: rest) 0 y := by
        rw [pendingSuperblocks_zero]
        rfl
      have hapart : ∀ i ∈ {i | currentSegBegin ≤ i ∧ i < currentSegBegin + (currentLen + 1)},
          ∀ j ∈ pendingSuperblocks (y :: rest) 0 y, i + 1 < j := by
        rintro i ⟨-, hi⟩ j hj
        rw [pendingSuperblocks_zero] at hj
        have hyj : y ≤ j := by
          obtain rfl | hj := List.mem_cons.mp hj
          · exact le_rfl
          · exact ((List.pairwise_cons.mp hrest).1 j hj).le
        omega
      rw [hsplit, isMaximalRun_union_iff hapart, isMaximalRun_Ico_iff (Nat.succ_pos currentLen),
        List.mem_cons, ih hrest (Nat.add_zero y), Prod.mk.injEq]
    · exact ih hrest (by omega)

theorem nodup_scanSegments (hl : (x :: rest).Pairwise (· < ·))
    (h : currentSegBegin + currentLen = x) :
    (scanSegments (x :: rest) currentLen currentSegBegin).Nodup := by
  induction rest generalizing x currentLen currentSegBegin with
  | nil => exact List.nodup_singleton _
  | cons y rest ih =>
    obtain ⟨hx, hrest⟩ := List.pairwise_cons.mp hl
    rw [scanSegments]
    split_ifs with hgap
    · refine List.nodup_cons.mpr ⟨fun hmem => ?_, ih hrest (Nat.add_zero y)⟩
      -- the segments behind the gap start with later superblocks
      have hstart := ((mem_scanSegments hrest (Nat.add_zero y)).mp hmem).start_mem
      rw [pendingSuperblocks_zero] at hstart
      have hlt := hx currentSegBegin hstart
      omega
    · exact ih hrest (by omega)

/-- **The segment scan** of an increasing free list reports exactly its maximal runs if and only if
the list is empty or starts with superblock zero. -/
theorem scan_reports_maximal_runs {freeList : List ℕ} (hl : freeList.Pairwise (· < ·)) :
    SegmentsExact freeList ↔ ∀ first ∈ freeList.head?, first = 0 := by
  cases freeList with
  | nil =>
    refine iff_of_true ⟨List.nodup_nil, fun s n => ⟨by simp [scanSegments], fun h => ?_⟩⟩ (by simp)
    exact absurd h.start_mem List.not_mem_nil
  | cons x rest =>
    have hfirst : (∀ first ∈ (x :: rest).head?, first = 0) ↔ x = 0 := by simp
    rw [hfirst]
    constructor
    · intro h
      obtain ⟨n, hmem⟩ := exists_mem_scanSegments x rest 0 0
      have hzero : 0 ∈ x :: rest := ((h.mem_iff 0 n).mp hmem).start_mem
      obtain rfl | hzero := List.mem_cons.mp hzero
      · rfl
      · exact absurd ((List.pairwise_cons.mp hl).1 0 hzero) (Nat.not_lt_zero x)
    · rintro rfl
      refine ⟨nodup_scanSegments hl rfl, fun s n => ?_⟩
      rw [mem_scanSegments hl rfl, pendingSuperblocks_zero]

/-- A free list with a run of two superblocks and a single one. -/
theorem scan_reports_maximal_runs_two :
    scanSegments [0, 1, 5] 0 0 = [(0, 2), (5, 1)] ∧ SegmentsExact [0, 1, 5] :=
  ⟨by decide, (scan_reports_maximal_runs (by decide)).mpr (by decide)⟩

/-- A free list with the superblock 1 alone is reported as a segment at superblock 0. -/
theorem not_scan_reports_maximal_runs :
    scanSegments [1] 0 0 = [(0, 1)] ∧
      ¬∀ freeList : List ℕ, freeList.Pairwise (· < ·) → SegmentsExact freeList := by
  refine ⟨by decide, fun h => ?_⟩
  have hmem := ((h [1] (by decide)).mem_iff 0 1).mp (by decide)
  exact absurd hmem.start_mem (by decide)

end Beethoven.Allocator
