import Mathlib.Tactic.Ring
import Mathlib.Tactic.Linarith
import Beethoven.Allocator.DeviceAllocator

/-!
# Arithmetic of the device allocator

What the loops of the allocator compute: `log2up` is the least exponent of a power of two that is
not smaller than its argument, a mask loop of `n` iterations has `n + 1` set bits, and the walk of
`unpack_free_list_THREAD_UNSAFE` changes neither the set of superblocks in use nor the order of the
free list.
-/

namespace Beethoven.Allocator

/-! ### Logarithms -/

private theorem log2upLoop_spec (val : ℕ) : ∀ (n i acc : ℕ), n + i = 64 → (n ≠ 0 → acc = 2 ^ i) →
    (∀ j < i, 2 ^ j < val) →
    log2upLoop val n i acc ≤ 64 ∧ (∀ j < log2upLoop val n i acc, 2 ^ j < val) ∧
      (log2upLoop val n i acc < 64 → val ≤ 2 ^ log2upLoop val n i acc)
  | 0, i, _, hi, _, hlt => by
    simp only [log2upLoop]
    exact ⟨by omega, hlt, by omega⟩
  | n + 1, i, acc, hi, hacc, hlt => by
    have hacc' : acc = 2 ^ i := hacc (Nat.succ_ne_zero n)
    rw [log2upLoop]
    split_ifs with hval
    · exact ⟨by omega, hlt, fun _ => hacc' ▸ hval⟩
    · refine log2upLoop_spec val n (i + 1) _ (by omega) (fun hn => ?_) (fun j hj => ?_)
      · have hpow : 2 ^ (i + 1) < 2 ^ 64 := Nat.pow_lt_pow_right (by norm_num) (by omega)
        rw [hacc', Nat.shiftLeft_eq, pow_one, ← pow_succ, Nat.mod_eq_of_lt hpow]
      · rcases Nat.lt_succ_iff_lt_or_eq.mp hj with hj | rfl
        · exact hlt j hj
        · exact hacc' ▸ not_le.mp hval

theorem log2up_le (val : ℕ) : log2up val ≤ 64 :=
  (log2upLoop_spec val 64 0 1 rfl (fun _ => rfl) (by simp)).1

/-- `log2up` is the least exponent below 64 of a power of two that is large enough. -/
theorem log2up_le_iff {val k : ℕ} (hk : k < 64) : log2up val ≤ k ↔ val ≤ 2 ^ k := by
  obtain ⟨-, hlt, hle⟩ := log2upLoop_spec val 64 0 1 rfl (fun _ => rfl) (by simp)
  change (∀ j < log2up val, 2 ^ j < val) at hlt
  change (log2up val < 64 → val ≤ 2 ^ log2up val) at hle
  constructor
  · intro h
    exact (hle (by omega)).trans (Nat.pow_le_pow_right (by norm_num) h)
  · intro h
    by_contra hnot
    exact absurd (hlt k (not_le.mp hnot)) (not_lt.mpr h)

theorem log2up_two_pow {k : ℕ} (hk : k < 64) : log2up (2 ^ k) = k := by
  apply le_antisymm ((log2up_le_iff hk).mpr le_rfl)
  by_contra hnot
  have hlt : log2up (2 ^ k) < k := not_le.mp hnot
  have hle := (log2up_le_iff (by omega)).mp (le_refl (log2up (2 ^ k)))
  exact absurd hle (not_le.mpr (Nat.pow_lt_pow_right (by norm_num) hlt))

theorem superblockSize_eq : superblockSize = 2 ^ 21 := rfl

@[simp] theorem superblockSize_pos : 0 < superblockSize := by decide

@[simp] theorem logMinBlock_eq : logMinBlock = 12 := log2up_two_pow (k := 12) (by norm_num)

@[simp] theorem logSuperblockSize_eq : logSuperblockSize = 21 :=
  log2up_two_pow (k := 21) (by norm_num)

@[simp] theorem numLists_eq : numLists = 9 := by simp [numLists]

theorem logNumSuperblocks_le (allocatorBytes : ℕ) : logNumSuperblocks allocatorBytes ≤ 43 := by
  have hle := log2up_le allocatorBytes
  rw [logNumSuperblocks, logSuperblockSize_eq]
  omega

theorem twelve_le_logBlockSizeOf (len : ℕ) : 12 ≤ logBlockSizeOf len := by
  simp [logBlockSizeOf]

theorem le_two_pow_logBlockSizeOf {len : ℕ} (h : logBlockSizeOf len < 64) :
    len ≤ 2 ^ logBlockSizeOf len :=
  (log2up_le_iff h).mp (le_max_left _ _)

/-! ### Masks -/

theorem onesMask_eq {n : ℕ} (hn : n ≤ 62) : onesMask n = 2 ^ (n + 1) - 1 := by
  induction n with
  | zero => rfl
  | succ n ih =>
    have hpos : 0 < 2 ^ (n + 1) := by positivity
    have hpow : 2 ^ (n + 1 + 1) < 2 ^ 64 := Nat.pow_lt_pow_right (by norm_num) (by omega)
    have hsum : onesMask n <<< 1 ||| 1 = 2 ^ (n + 1 + 1) - 1 := by
      rw [← Nat.shiftLeft_add_eq_or_of_lt (by norm_num : 1 < 2 ^ 1), ih (by omega),
        Nat.shiftLeft_eq, pow_succ 2 (n + 1)]
      omega
    rw [onesMask, hsum, Nat.mod_eq_of_lt (by omega)]

/-- Masking with the mask of `n` iterations keeps the low `n + 1` bits. -/
theorem and_onesMask {n : ℕ} (hn : n ≤ 62) (x : ℕ) : x &&& onesMask n = x % 2 ^ (n + 1) := by
  rw [onesMask_eq hn, Nat.and_two_pow_sub_one_eq_mod]

/-! ### The free list -/

/-- The walk over the back of the free list stops at a shorter list and a lower index; the
superblocks below the index that are not in the list are the same as before. -/
theorem unpackFreeListLoop_spec : ∀ (l : List ℕ) (freeIdx : ℕ), l.Nodup → (∀ i ∈ l, i < freeIdx) →
    (unpackFreeListLoop l freeIdx).1.Nodup ∧
      (∀ i ∈ (unpackFreeListLoop l freeIdx).1, i < (unpackFreeListLoop l freeIdx).2) ∧
      (unpackFreeListLoop l freeIdx).2 ≤ freeIdx ∧
      ∀ i, (i < (unpackFreeListLoop l freeIdx).2 ∧ i ∉ (unpackFreeListLoop l freeIdx).1) ↔
        (i < freeIdx ∧ i ∉ l)
  | [], _, _, _ => by simp [unpackFreeListLoop]
  | s :: rest, freeIdx, hnodup, hlt => by
    rw [unpackFreeListLoop]
    split_ifs with hs
    · obtain ⟨hsrest, hrest⟩ := List.nodup_cons.mp hnodup
      have hlt' : ∀ i ∈ rest, i < freeIdx - 1 := by
        intro i hi
        have hne : i ≠ s := fun h => hsrest (h ▸ hi)
        have := hlt i (List.mem_cons_of_mem s hi)
        omega
      obtain ⟨h₁, h₂, h₃, h₄⟩ := unpackFreeListLoop_spec rest (freeIdx - 1) hrest hlt'
      refine ⟨h₁, h₂, by omega, fun i => (h₄ i).trans ?_⟩
      rw [List.mem_cons]
      constructor
      · rintro ⟨hi, hmem⟩
        refine ⟨by omega, ?_⟩
        rintro (h | h)
        · omega
        · exact hmem h
      · rintro ⟨hi, hmem⟩
        rw [not_or] at hmem
        exact ⟨by omega, hmem.2⟩
    · exact ⟨hnodup, hlt, le_rfl, fun _ => Iff.rfl⟩

private theorem upperBoundLoop_le (l : List ℕ) (v : ℕ) : ∀ fuel first len : ℕ,
    upperBoundLoop l v fuel first len ≤ first + len
  | 0, first, len => by simp [upperBoundLoop]
  | fuel + 1, first, len => by
    rw [upperBoundLoop]
    split_ifs with hlen
    · omega
    · dsimp only
      split_ifs
      · exact (upperBoundLoop_le l v fuel first (len / 2)).trans (by omega)
      · exact (upperBoundLoop_le l v fuel _ _).trans (by omega)

/-- The position that the binary search returns lies in the list or just past its end. -/
theorem upperBound_le_length (l : List ℕ) (v : ℕ) : upperBound l v ≤ l.length := by
  simpa [upperBound] using upperBoundLoop_le l v l.length 0 l.length

private theorem getD_le_getD {l : List ℕ} (hl : l.Pairwise (· < ·)) {i j : ℕ} (hij : i ≤ j)
    (hj : j < l.length) : l.getD i 0 ≤ l.getD j 0 := by
  rw [List.getD_eq_getElem _ _ (hij.trans_lt hj), List.getD_eq_getElem _ _ hj]
  obtain rfl | hlt := hij.eq_or_lt
  · exact le_rfl
  · exact (List.pairwise_iff_getElem.mp hl i j _ hj hlt).le

/-- The binary search keeps the entries before its interval at most `v` and those after it
larger. -/
private theorem upperBoundLoop_spec {l : List ℕ} {v : ℕ} (hl : l.Pairwise (· < ·)) :
    ∀ fuel first len : ℕ, len ≤ fuel → first + len ≤ l.length →
      (∀ i < first, l.getD i 0 ≤ v) → (∀ i < l.length, first + len ≤ i → v < l.getD i 0) →
      (∀ i < upperBoundLoop l v fuel first len, l.getD i 0 ≤ v) ∧
        ∀ i < l.length, upperBoundLoop l v fuel first len ≤ i → v < l.getD i 0
  | 0, first, len, hfuel, _, hlow, hhigh => by
    obtain rfl : len = 0 := by omega
    exact ⟨hlow, hhigh⟩
  | fuel + 1, first, len, hfuel, hlen, hlow, hhigh => by
    rw [upperBoundLoop]
    split_ifs with hzero
    · subst hzero
      exact ⟨hlow, hhigh⟩
    · dsimp only
      split_ifs with hlt
      · refine upperBoundLoop_spec hl fuel first (len / 2) (by omega) (by omega) hlow ?_
        intro i hi hge
        exact hlt.trans_le (getD_le_getD hl hge hi)
      · refine upperBoundLoop_spec hl fuel _ _ (by omega) (by omega) ?_ ?_
        · intro i hi
          exact (getD_le_getD hl (by omega) (by omega)).trans (not_lt.mp hlt)
        · intro i hi hge
          exact hhigh i hi (by omega)

private theorem insertIdx_eq_take_append_drop (v : ℕ) : ∀ (l : List ℕ) (n : ℕ), n ≤ l.length →
    l.insertIdx n v = l.take n ++ v :: l.drop n
  | _, 0, _ => by simp
  | [], n + 1, h => absurd h (by simp)
  | x :: l, n + 1, h => by
    simp [insertIdx_eq_take_append_drop v l n (by simpa using h)]

/-- In an increasing list, the place that the binary search returns keeps the list increasing. -/
theorem pairwise_insertIdx_upperBound {l : List ℕ} {v : ℕ} (hl : l.Pairwise (· < ·)) (hv : v ∉ l) :
    (l.insertIdx (upperBound l v) v).Pairwise (· < ·) := by
  obtain ⟨hlow, hhigh⟩ := upperBoundLoop_spec (v := v) hl l.length 0 l.length le_rfl (by omega)
    (by simp) (by omega)
  have hlow' : ∀ y ∈ l.take (upperBound l v), y < v := by
    intro y hy
    obtain ⟨i, hi, rfl⟩ := List.mem_take_iff_getElem.mp hy
    have hle := hlow i (by simp only [upperBound] at hi; omega)
    rw [List.getD_eq_getElem _ _ (by omega)] at hle
    exact lt_of_le_of_ne hle fun heq => hv (heq ▸ List.getElem_mem _)
  have hhigh' : ∀ y ∈ l.drop (upperBound l v), v < y := by
    intro y hy
    obtain ⟨i, hi, rfl⟩ := List.mem_drop_iff_getElem.mp hy
    have hlt := hhigh (upperBound l v + i) (by omega) (Nat.le_add_right _ _)
    rwa [List.getD_eq_getElem _ _ (by omega)] at hlt
  rw [insertIdx_eq_take_append_drop v l _ (upperBound_le_length l v), List.pairwise_append,
    List.pairwise_cons]
  refine ⟨hl.sublist (List.take_sublist _ _), ⟨hhigh', hl.sublist (List.drop_sublist _ _)⟩, ?_⟩
  intro y hy z hz
  obtain rfl | hz := List.mem_cons.mp hz
  · exact hlow' y hy
  · exact (hlow' y hy).trans (hhigh' z hz)

end Beethoven.Allocator
