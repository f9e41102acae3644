import Mathlib.Tactic.IntervalCases
import Beethoven.Allocator.LayoutSteps

/-!
# What the calls of the allocator return

For every branch of `malloc` and `free`, the address and the state that a call returns. A `malloc`
takes a block of the first open superblock of the size class, opens a superblock, or takes fresh
superblocks; the branch that takes superblocks of the free list is never reached, as the search
before it does not end when the free list has an element.
-/

namespace Beethoven.Allocator

open Function

variable {allocatorBytes fuel len l s addr : ℕ} {d d' : DeviceAllocator}

/-! ### Requests for a block -/

theorem isBlockRequest_iff :
    logBlockSizeOf len - logMinBlock < numLists ↔ logBlockSizeOf len < 21 := by
  have hge := twelve_le_logBlockSizeOf len
  rw [logMinBlock_eq, numLists_eq]
  omega

theorem mallocBlock_open (hl : 12 ≤ l)
    (hfirst : (d.superblockHeadList (l - logMinBlock)).first = none) :
    mallocBlock d l =
      .ok ((acquireSuperblock d).1 * superblockSize + (2 ^ (21 - l) - 1) * 2 ^ l,
        { (acquireSuperblock d).2 with
          superblocks := update (acquireSuperblock d).2.superblocks (acquireSuperblock d).1
            ⟨l, blockAlloc, List.range (2 ^ (21 - l) - 1)⟩
          superblockHeadList := update (acquireSuperblock d).2.superblockHeadList
            (l - logMinBlock)
            (((acquireSuperblock d).2.superblockHeadList (l - logMinBlock)).emplace
              (acquireSuperblock d).1) }) := by
  have hsmall : ¬(2 ^ (21 - l) ≥ 0x10000) := by
    have hle : 2 ^ (21 - l) ≤ 2 ^ 9 := Nat.pow_le_pow_right (by norm_num) (by omega)
    omega
  have hpos : 0 < 2 ^ (21 - l) := by positivity
  obtain ⟨n, hn⟩ : ∃ n, 2 ^ (21 - l) = n + 1 := ⟨2 ^ (21 - l) - 1, by omega⟩
  have hlast : (List.range (2 ^ (21 - l))).getLastD 0 = 2 ^ (21 - l) - 1 := by
    rw [hn, List.range_succ]
    simp
  have hdrop : (List.range (2 ^ (21 - l))).dropLast = List.range (2 ^ (21 - l) - 1) := by
    rw [hn, List.range_succ]
    simp
  simp only [mallocBlock, hfirst, logSuperblockSize_eq, Nat.one_shiftLeft, if_neg hsmall, hlast,
    hdrop]

theorem mallocBlock_take (hfirst : (d.superblockHeadList (l - logMinBlock)).first = some s) :
    mallocBlock d l =
      .ok (s * superblockSize + (d.superblocks s).freeBlocks.getLastD 0 * 2 ^ l,
        { d with
          superblocks := withFreeBlocks d.superblocks s (d.superblocks s).freeBlocks.dropLast
          superblockHeadList :=
            if (d.superblocks s).freeBlocks.dropLast = [] then
              update d.superblockHeadList (l - logMinBlock)
                (d.superblockHeadList (l - logMinBlock)).eraseFirst
            else d.superblockHeadList }) := by
  simp only [mallocBlock, hfirst, Nat.one_shiftLeft, withFreeBlocks]

/-! ### Requests for superblocks -/

/-- The first segment that is reported has the start with which the scan began. -/
theorem exists_mem_scanSegments (y : ℕ) (rest : List ℕ) (currentLen currentSegBegin : ℕ) :
    ∃ n, (currentSegBegin, n) ∈ scanSegments (y :: rest) currentLen currentSegBegin := by
  induction rest generalizing y currentLen with
  | nil => exact ⟨_, List.mem_singleton_self _⟩
  | cons z rest ih =>
    rw [scanSegments]
    split_ifs
    · exact ⟨_, List.mem_cons_self⟩
    · exact ih z (currentLen + 1)

theorem scanSegments_cons_ne_nil (y : ℕ) (rest : List ℕ) (currentLen currentSegBegin : ℕ) :
    scanSegments (y :: rest) currentLen currentSegBegin ≠ [] := by
  obtain ⟨n, hn⟩ := exists_mem_scanSegments y rest currentLen currentSegBegin
  exact List.ne_nil_of_mem hn

/-- The best-fit search does not end when there is a segment, as it removes none. -/
theorem bestFitLoop_eq_none {needed : ℕ} {segments : List (ℕ × ℕ)} (h : segments ≠ [])
    (b : BestFit) : bestFitLoop needed segments fuel b = none := by
  induction fuel generalizing b with
  | zero => rfl
  | succ fuel ih =>
    rw [bestFitLoop, List.getLast?_eq_some_getLast h]
    exact ih _

theorem freeList_eq_nil_of_bestFitLoop {needed : ℕ} {ys : List ℕ} {b b' : BestFit}
    (h : bestFitLoop needed (scanSegments ys 0 0) fuel b = some b') : ys = [] ∧ b' = b := by
  cases ys with
  | nil =>
    refine ⟨rfl, ?_⟩
    cases fuel with
    | zero => simp [bestFitLoop] at h
    | succ fuel => simpa [bestFitLoop, scanSegments] using h.symm
  | cons y ys =>
    rw [bestFitLoop_eq_none (scanSegments_cons_ne_nil y ys 0 0)] at h
    exact absurd h (by simp)

/-- A request for superblocks does not end while the free list has an element. -/
theorem mallocSuperblocks_looping (hbits : numSuperblocksNeeded l &&& 0xFFFF0000 = 0)
    (hfree : d.freeList ≠ []) : mallocSuperblocks allocatorBytes fuel d l = .looping := by
  obtain ⟨y, ys, hys⟩ := List.exists_cons_of_ne_nil hfree
  have hnone : bestFitLoop (numSuperblocksNeeded l) (scanSegments d.freeList 0 0) fuel
      ⟨1 <<< logNumSuperblocks allocatorBytes, none⟩ = none := by
    rw [hys]
    exact bestFitLoop_eq_none (scanSegments_cons_ne_nil y ys 0 0) _
  simp only [mallocSuperblocks, hbits, ne_eq, not_true_eq_false, if_false, hnone]

/-- A `malloc` of superblocks that returns has taken fresh ones, the free list being empty. -/
theorem mallocSuperblocks_ok (h : mallocSuperblocks allocatorBytes fuel d l = .ok (addr, d')) :
    numSuperblocksNeeded l &&& 0xFFFF0000 = 0 ∧ d.freeList = [] ∧
      d.superblockFreeIdx + numSuperblocksNeeded l ≤ numSuperblocks allocatorBytes ∧
      addr = d.superblockFreeIdx * superblockSize % 2 ^ 32 ∧
      d' = { d with
        superblockFreeIdx := d.superblockFreeIdx + numSuperblocksNeeded l
        superblocks :=
          markAllocation d.superblocks d.superblockFreeIdx (numSuperblocksNeeded l) } := by
  simp only [mallocSuperblocks] at h
  by_cases hbits : numSuperblocksNeeded l &&& 0xFFFF0000 ≠ 0
  · rw [if_pos hbits] at h
    exact absurd h (by simp)
  rw [if_neg hbits] at h
  cases hfit : bestFitLoop (numSuperblocksNeeded l) (scanSegments d.freeList 0 0) fuel
      ⟨1 <<< logNumSuperblocks allocatorBytes, none⟩ with
  | none => simp [hfit] at h
  | some b =>
    obtain ⟨hnil, rfl⟩ := freeList_eq_nil_of_bestFitLoop hfit
    simp only [hfit] at h
    split_ifs at h with hroom
    simp only [Outcome.ok.injEq, Prod.mk.injEq] at h
    exact ⟨not_not.mp hbits, hnil, by omega, h.1.symm, h.2.symm⟩

/-- The best-fit search of a request that returns finds no segment. -/
theorem mallocSuperblocks_bestFitLoop
    (h : mallocSuperblocks allocatorBytes fuel d l = .ok (addr, d')) :
    bestFitLoop (numSuperblocksNeeded l) (scanSegments d.freeList 0 0) fuel
      ⟨1 <<< logNumSuperblocks allocatorBytes, none⟩ =
        some ⟨1 <<< logNumSuperblocks allocatorBytes, none⟩ := by
  obtain ⟨hbits, hnil, -⟩ := mallocSuperblocks_ok h
  cases fuel with
  | zero => simp [mallocSuperblocks, hbits, bestFitLoop] at h
  | succ fuel => simp [hnil, scanSegments, bestFitLoop]

/-- A request that returns also returns in a state with the same free list and the same index. -/
theorem mallocSuperblocks_congr {e : DeviceAllocator}
    (h : mallocSuperblocks allocatorBytes fuel d l = .ok (addr, d'))
    (hfree : e.freeList = d.freeList) (hidx : e.superblockFreeIdx = d.superblockFreeIdx) :
    mallocSuperblocks allocatorBytes fuel e l = .ok (addr, { e with
      superblockFreeIdx := d.superblockFreeIdx + numSuperblocksNeeded l
      superblocks :=
        markAllocation e.superblocks d.superblockFreeIdx (numSuperblocksNeeded l) }) := by
  have hfit := mallocSuperblocks_bestFitLoop h
  obtain ⟨hbits, -, hroom, rfl, -⟩ := mallocSuperblocks_ok h
  simp only [mallocSuperblocks, hbits, ne_eq, not_true_eq_false, if_false, hfree, hidx, hfit,
    if_neg (not_lt.mpr hroom), gt_iff_lt]

theorem numSuperblocksNeeded_pos (l : ℕ) : 0 < numSuperblocksNeeded l := by
  rw [numSuperblocksNeeded, Nat.one_shiftLeft]
  positivity

theorem numSuperblocksNeeded_eq (hl : l < 53) : numSuperblocksNeeded l = 2 ^ (l - 21) := by
  rw [numSuperblocksNeeded, logSuperblockSize_eq, Nat.one_shiftLeft,
    Nat.mod_eq_of_lt (by omega : l - 21 < 32)]

/-- A number of superblocks that passes the check of its high half fits in 16 bits. -/
theorem lt_of_and_eq_zero {k : ℕ} (hk : k < 32) (h : 2 ^ k &&& 0xFFFF0000 = 0) :
    2 ^ k < 2 ^ 16 := by
  by_contra hnot
  have hge : 16 ≤ k := by
    by_contra hlt
    exact hnot (Nat.pow_lt_pow_right (by norm_num) (by omega))
  interval_cases k <;> simp at h

/-- The superblocks of a request hold it, unless the shift that computes their number wraps. -/
theorem le_numSuperblocksNeeded_mul (hlarge : ¬ logBlockSizeOf len < 21)
    (hlt : logBlockSizeOf len < 53) :
    len ≤ numSuperblocksNeeded (logBlockSizeOf len) * superblockSize := by
  rw [numSuperblocksNeeded_eq hlt, superblockSize_eq, ← pow_add, Nat.sub_add_cancel (by omega)]
  exact le_two_pow_logBlockSizeOf (by omega)

/-- The branches of a `malloc` that returns. -/
theorem malloc_cases (h : malloc allocatorBytes fuel d len = .ok (addr, d')) :
    (logBlockSizeOf len < 21 ∧
      (d.superblockHeadList (logBlockSizeOf len - logMinBlock)).first = none ∧
      mallocBlock d (logBlockSizeOf len) = .ok (addr, d')) ∨
    (∃ s, logBlockSizeOf len < 21 ∧
      (d.superblockHeadList (logBlockSizeOf len - logMinBlock)).first = some s ∧
      mallocBlock d (logBlockSizeOf len) = .ok (addr, d')) ∨
    (¬ logBlockSizeOf len < 21 ∧
      mallocSuperblocks allocatorBytes fuel d (logBlockSizeOf len) = .ok (addr, d')) := by
  simp only [malloc, isBlockRequest_iff] at h
  by_cases hlt : logBlockSizeOf len < 21
  · rw [if_pos hlt] at h
    cases hfirst : (d.superblockHeadList (logBlockSizeOf len - logMinBlock)).first with
    | none => exact .inl ⟨hlt, rfl, h⟩
    | some s => exact .inr (.inl ⟨s, hlt, rfl, h⟩)
  · rw [if_neg hlt] at h
    exact .inr (.inr ⟨hlt, h⟩)

/-! ### Releases -/

theorem superblockId_eq (h : addr / superblockSize < numSuperblocks allocatorBytes) :
    (addr >>> logSuperblockSize) &&& superblockIdMask allocatorBytes = addr / superblockSize := by
  have hlt : addr / superblockSize < 2 ^ (logNumSuperblocks allocatorBytes + 1) := by
    rw [numSuperblocks, Nat.one_shiftLeft] at h
    rw [pow_succ]
    omega
  have hlog := logNumSuperblocks_le allocatorBytes
  rw [superblockIdMask, and_onesMask (by omega), Nat.shiftRight_eq_div_pow, logSuperblockSize_eq,
    ← superblockSize_eq, Nat.mod_eq_of_lt hlt]

theorem freeBlock_eq (d : DeviceAllocator) (s blockId : ℕ) :
    freeBlock d s blockId =
      let l := (d.superblocks s).logBlockSize
      let blocks := (d.superblocks s).freeBlocks ++ [blockId % 2 ^ 16]
      let d₁ := { d with superblocks := withFreeBlocks d.superblocks s blocks }
      if blocks.length = 2 ^ (21 - l) ∨ blocks.length = 1 then
        if l - logMinBlock ≥ numLists then .exit 6
        else if blocks.length = 2 ^ (21 - l) then .ok (releaseSuperblock d₁ (l - logMinBlock) s)
        else .ok { d₁ with
          superblockHeadList := update d.superblockHeadList (l - logMinBlock)
            ((d.superblockHeadList (l - logMinBlock)).emplace s) }
      else .ok d₁ := by
  simp only [freeBlock, withFreeBlocks, Nat.one_shiftLeft, logSuperblockSize_eq]

/-- The branches of the release of a block: the superblock becomes free, it has its first free
block, or neither. -/
theorem freeBlock_cases {blockId : ℕ} (h : freeBlock d s blockId = .ok d') :
    let l := (d.superblocks s).logBlockSize
    let blocks := (d.superblocks s).freeBlocks ++ [blockId % 2 ^ 16]
    let d₁ := { d with superblocks := withFreeBlocks d.superblocks s blocks }
    (blocks.length = 2 ^ (21 - l) ∧ d' = releaseSuperblock d₁ (l - logMinBlock) s) ∨
    (blocks.length ≠ 2 ^ (21 - l) ∧ blocks.length = 1 ∧
      d' = { d₁ with
        superblockHeadList := update d.superblockHeadList (l - logMinBlock)
          ((d.superblockHeadList (l - logMinBlock)).emplace s) }) ∨
    (blocks.length ≠ 2 ^ (21 - l) ∧ blocks.length ≠ 1 ∧ d' = d₁) := by
  intro l blocks d₁
  rw [freeBlock_eq] at h
  dsimp only at h
  split_ifs at h with hsome hidx hfull
  · exact .inl ⟨hfull, (Outcome.ok.inj h).symm⟩
  · exact .inr (.inl ⟨hfull, hsome.resolve_left hfull, (Outcome.ok.inj h).symm⟩)
  · exact .inr (.inr ⟨fun hfull => hsome (.inl hfull), fun hone => hsome (.inr hone),
      (Outcome.ok.inj h).symm⟩)

theorem findBase_self {sb : ℕ → Superblock} (h : (sb s).flags &&& baseAllocation ≠ 0) :
    findBase sb s = some s := by
  cases s with
  | zero => exact if_pos h
  | succ n => exact if_pos h

theorem findBase_eq_some {sb : ℕ → Superblock} {id : ℕ} (h : findBase sb s = some id) :
    (sb id).flags &&& baseAllocation ≠ 0 := by
  induction s with
  | zero =>
    rw [findBase] at h
    split_ifs at h with hbase
    exact Option.some.inj h ▸ hbase
  | succ s ih =>
    rw [findBase] at h
    split_ifs at h with hbase
    · exact Option.some.inj h ▸ hbase
    · exact ih h

theorem freeSuperblocks_cases (h : freeSuperblocks d s = .ok d') :
    ∃ id, findBase d.superblocks s = some id ∧
      let n := (d.superblocks id).freeBlocks.headD 0
      let d₁ := { d with superblocks := withFreeBlocks d.superblocks id [] }
      (id + n + 1 = d.superblockFreeIdx ∧
        d' = unpackFreeList { d₁ with superblockFreeIdx := id }) ∨
      (id + n + 1 ≠ d.superblockFreeIdx ∧
        d' = { d₁ with freeList := d.freeList ++ (List.range n).map (id + ·) }) := by
  rw [freeSuperblocks] at h
  cases hfind : findBase d.superblocks s with
  | none => simp [hfind] at h
  | some id =>
    refine ⟨id, rfl, ?_⟩
    simp only [hfind] at h
    split_ifs at h with htop
    · exact .inl ⟨htop, (Outcome.ok.inj h).symm⟩
    · exact .inr ⟨htop, (Outcome.ok.inj h).symm⟩

/-- The branches of a `free` that returns. -/
theorem free_cases (h : free allocatorBytes d addr = .ok d') :
    let s := (addr >>> logSuperblockSize) &&& superblockIdMask allocatorBytes
    let sb := d.superblocks s
    (sb.flags &&& blockAlloc ≠ 0 ∧ sb.flags &&& baseAllocation = 0 ∧
      freeBlock d s ((addr >>> sb.logBlockSize) &&& blockIdMask logSuperblockSize) = .ok d') ∨
    (sb.flags &&& blockAlloc = 0 ∧ freeSuperblocks d s = .ok d') := by
  intro s sb
  by_cases hblock : sb.flags &&& blockAlloc ≠ 0
  · have hinfo : getBlockInfo allocatorBytes d addr =
        (s, (addr >>> sb.logBlockSize) &&& blockIdMask logSuperblockSize) := if_pos hblock
    simp only [free, hinfo] at h
    rw [if_pos hblock] at h
    split_ifs at h with hboth
    exact .inl ⟨hblock, not_not.mp fun hbase => hboth ⟨hblock, hbase⟩, h⟩
  · have hinfo : getBlockInfo allocatorBytes d addr = (s, 0) := if_neg hblock
    simp only [free, hinfo] at h
    rw [if_neg (fun hboth => hblock hboth.1), if_neg hblock] at h
    exact .inr ⟨not_not.mp hblock, h⟩

end Beethoven.Allocator
