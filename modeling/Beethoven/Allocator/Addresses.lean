import Beethoven.Allocator.Session

/-!
# Addresses and the places that they stand for

`get_block_info` decodes an address into a superblock and a block. For an address in a run of
superblocks the decoded superblock is enough: `free` walks down to the base of the run, so every
address in the run frees it (`free_interior`). For an address of a block, the mask of the block
number has 22 bits whatever the size of the blocks, more than there are blocks in a superblock: the
decoded block number has bits of the superblock number in it. The address of a run is a product in
32 bits, which wraps for a run that starts at 4 GiB or above.
-/

namespace Beethoven.Allocator

open Lib

variable {allocatorBytes fuel len s n b addr : ℕ} {d d' : DeviceAllocator}

/-- An address below the size of the device lies in one of its superblocks. -/
theorem div_superblockSize_lt {a : UInt64} (h : a.toNat < allocatorBytes) :
    a.toNat / superblockSize < numSuperblocks allocatorBytes := by
  rw [numSuperblocks, Nat.one_shiftLeft, superblockSize_eq, Nat.div_lt_iff_lt_mul (by norm_num),
    ← pow_add]
  by_cases hlog : log2up allocatorBytes < 64
  · have hle : allocatorBytes ≤ 2 ^ log2up allocatorBytes := (log2up_le_iff hlog).mp le_rfl
    refine (h.trans_le hle).trans_le (Nat.pow_le_pow_right (by norm_num) ?_)
    rw [logNumSuperblocks, logSuperblockSize_eq]
    omega
  · refine a.toNat_lt.trans_le (Nat.pow_le_pow_right (by norm_num) ?_)
    rw [logNumSuperblocks, logSuperblockSize_eq]
    omega

/-! ### Runs of superblocks -/

/-- The `n` superblocks from `s` on are marked as one allocation: the first one is flagged as its
base and records its length, the others carry no flag. -/
structure MarkedRun (sb : ℕ → Superblock) (s n : ℕ) : Prop where
  base : (sb s).flags = baseAllocation
  freeBlocks : (sb s).freeBlocks = [n]
  interior : ∀ i, s < i → i < s + n → (sb i).flags = 0

theorem markedRun_markAllocation (sb : ℕ → Superblock) (s : ℕ) (hn : n < 2 ^ 16) :
    MarkedRun (markAllocation sb s n) s n where
  base := by simp [markAllocation]
  freeBlocks := by rw [markAllocation, if_pos rfl, Nat.mod_eq_of_lt hn]
  interior i hlt hle := by
    rw [markAllocation, if_neg hlt.ne', if_pos ⟨hlt, hle⟩]

namespace MarkedRun

variable {sb : ℕ → Superblock}

theorem not_blockAlloc (h : MarkedRun sb s n) {i : ℕ} (hle : s ≤ i) (hlt : i < s + n) :
    (sb i).flags &&& blockAlloc = 0 := by
  obtain rfl | hne := hle.eq_or_lt
  · rw [h.base]
    decide
  · rw [h.interior i hne hlt]
    decide

/-- The walk down from any superblock of the run ends at its base. -/
theorem findBase (h : MarkedRun sb s n) {i : ℕ} (hle : s ≤ i) (hlt : i < s + n) :
    Allocator.findBase sb i = some s := by
  have hbase : (sb s).flags &&& baseAllocation ≠ 0 := by
    rw [h.base]
    decide
  induction i, hle using Nat.le_induction with
  | base => exact findBase_self hbase
  | succ i hle ih =>
    have hflags := h.interior (i + 1) (by omega) hlt
    rw [Allocator.findBase, hflags, if_neg (by decide)]
    exact ih (by omega)

end MarkedRun

/-- A release in a run does not depend on the superblock of the run that it starts from. -/
theorem freeSuperblocks_eq (h : MarkedRun d.superblocks s n) {i : ℕ} (hle : s ≤ i)
    (hlt : i < s + n) : freeSuperblocks d i = freeSuperblocks d s := by
  have hpos : s < s + n := hle.trans_lt hlt
  rw [freeSuperblocks, freeSuperblocks, h.findBase hle hlt, h.findBase le_rfl hpos]

theorem freeSuperblocks_ok (h : MarkedRun d.superblocks s n) (hn : 0 < n) :
    ∃ d', freeSuperblocks d s = .ok d' := by
  rw [freeSuperblocks, h.findBase le_rfl (Nat.lt_add_of_pos_right hn)]
  dsimp only
  split_ifs
  · exact ⟨_, rfl⟩
  · exact ⟨_, rfl⟩

/-- An address in a run leads into the branch for runs of superblocks. -/
theorem free_of_markedRun (h : MarkedRun d.superblocks s n) {a : UInt64}
    (hle : s * superblockSize ≤ a.toNat) (hlt : a.toNat < (s + n) * superblockSize)
    (hdevice : a.toNat < allocatorBytes) :
    free allocatorBytes d a.toNat = freeSuperblocks d (a.toNat / superblockSize) := by
  have hle' : s ≤ a.toNat / superblockSize := (Nat.le_div_iff_mul_le superblockSize_pos).mpr hle
  have hlt' : a.toNat / superblockSize < s + n :=
    (Nat.div_lt_iff_lt_mul superblockSize_pos).mpr hlt
  have hflags := h.not_blockAlloc hle' hlt'
  simp only [free, getBlockInfo, superblockId_eq (div_superblockSize_lt hdevice), hflags, ne_eq,
    not_true_eq_false, if_false, false_and]

/-- **Freeing through an interior pointer.** In a state in which the `n` superblocks from `s` on
are marked as one allocation, every address in them frees the allocation: the call returns, in the
same state as the call with the address of superblock `s`. -/
theorem free_interior (h : MarkedRun d.superblocks s n) {a : UInt64}
    (hle : s * superblockSize ≤ a.toNat) (hlt : a.toNat < (s + n) * superblockSize)
    (hdevice : a.toNat < allocatorBytes) :
    ∃ d', free allocatorBytes d a.toNat = .ok d' ∧
      free allocatorBytes d (s * superblockSize) = .ok d' := by
  have hn : 0 < n := by
    by_contra hzero
    rw [Nat.eq_zero_of_not_pos hzero, Nat.add_zero] at hlt
    omega
  have hbase : (UInt64.ofNat (s * superblockSize)).toNat = s * superblockSize :=
    UInt64.toNat_ofNat_of_lt' (hle.trans_lt a.toNat_lt)
  have hend : s * superblockSize < (s + n) * superblockSize :=
    Nat.mul_lt_mul_of_pos_right (Nat.lt_add_of_pos_right hn) superblockSize_pos
  have hfree := free_of_markedRun h hle hlt hdevice
  have hfree' := free_of_markedRun (a := UInt64.ofNat (s * superblockSize)) h hbase.ge
    (hbase.symm ▸ hend) (hbase.symm ▸ hle.trans_lt hdevice)
  rw [hbase, Nat.mul_div_cancel _ superblockSize_pos] at hfree'
  obtain ⟨d', hd'⟩ := freeSuperblocks_ok h hn
  refine ⟨d', ?_, hfree'.trans hd'⟩
  rw [hfree, freeSuperblocks_eq h ((Nat.le_div_iff_mul_le superblockSize_pos).mpr hle)
    ((Nat.div_lt_iff_lt_mul superblockSize_pos).mpr hlt), hd']

/-- The third superblock of a run of four that starts at superblock 1. -/
theorem free_interior_third :
    ∃ d', free (2 ^ 23) ⟨5, [], markAllocation (fun _ => {}) 1 4, fun _ => .empty⟩
        (0x612345 : UInt64).toNat = .ok d' ∧
      free (2 ^ 23) ⟨5, [], markAllocation (fun _ => {}) 1 4, fun _ => .empty⟩
        (1 * superblockSize) = .ok d' :=
  free_interior (markedRun_markAllocation _ 1 (by decide)) (by decide) (by decide) (by decide)

/-! ### Places of new allocations -/

variable (allocatorBytes) in
/-- The superblock and the block of the allocation that `malloc` makes, if its search ends; a run of
superblocks has the block number zero. -/
def placement (fuel : ℕ) (d : DeviceAllocator) (len : ℕ) : Option (ℕ × ℕ) :=
  let logBlockSize := logBlockSizeOf len
  let idx := logBlockSize - logMinBlock
  if idx < numLists then
    match (d.superblockHeadList idx).first with
    | none =>
      some ((acquireSuperblock d).1,
        (List.range (1 <<< (logSuperblockSize - logBlockSize))).getLastD 0)
    | some superblockId => some (superblockId, (d.superblocks superblockId).freeBlocks.getLastD 0)
  else
    (bestFitLoop (numSuperblocksNeeded logBlockSize) (scanSegments d.freeList 0 0) fuel
      ⟨1 <<< logNumSuperblocks allocatorBytes, none⟩).map fun fit =>
        (fit.allocStart.getD d.superblockFreeIdx, 0)

theorem getLastD_range_blocks (l : ℕ) :
    (List.range (1 <<< (logSuperblockSize - l))).getLastD 0 = 2 ^ (21 - l) - 1 := by
  have hn : 2 ^ (21 - l) = 2 ^ (21 - l) - 1 + 1 := by
    have hpos : 0 < 2 ^ (21 - l) := by positivity
    omega
  rw [logSuperblockSize_eq, Nat.one_shiftLeft, hn, List.range_succ]
  simp

/-- The place of a block is one of the device: its superblock lies in the device, the block lies in
its superblock, and an open superblock from which the block is taken has a free block and is cut
into blocks of the size class. -/
def PlaceInDevice (allocatorBytes : ℕ) (d : DeviceAllocator) (len s b : ℕ) : Prop :=
  let logBlockSize := logBlockSizeOf len
  logBlockSize < logSuperblockSize →
    s < numSuperblocks allocatorBytes ∧ b < 2 ^ (logSuperblockSize - logBlockSize) ∧
      ((d.superblockHeadList (logBlockSize - logMinBlock)).first = some s →
        (d.superblocks s).freeBlocks ≠ [] ∧ (d.superblocks s).flags &&& blockAlloc ≠ 0 ∧
          (d.superblocks s).logBlockSize = logBlockSize)

instance (d : DeviceAllocator) (len s b : ℕ) : Decidable (PlaceInDevice allocatorBytes d len s b) :=
  inferInstanceAs (Decidable (_ → _ ∧ _ ∧ (_ → _)))

/-- The address of a place is decoded to it. For a block, the bits of the superblock number that get
into the block number are zero. For a run, its address is below 4 GiB. -/
def PlaceDecodes (len s : ℕ) : Prop :=
  let logBlockSize := logBlockSizeOf len
  if logBlockSize < logSuperblockSize then 2 ^ (logBlockSize + 1) ∣ s
  else s * superblockSize < 2 ^ 32

instance (len s : ℕ) : Decidable (PlaceDecodes len s) := inferInstanceAs (Decidable (ite _ _ _))

/-- The number that is decoded for a block: it has bits of the superblock number in it. -/
theorem and_blockIdMask_block {l : ℕ} (hl : l < 21) (s b : ℕ) :
    ((s * superblockSize + b * 2 ^ l) >>> l) &&& blockIdMask logSuperblockSize =
      (s * 2 ^ (21 - l) + b) % 2 ^ 22 := by
  have haddr : s * superblockSize + b * 2 ^ l = (s * 2 ^ (21 - l) + b) * 2 ^ l := by
    rw [Nat.add_mul, Nat.mul_assoc, ← pow_add, Nat.sub_add_cancel hl.le, superblockSize_eq]
  rw [blockIdMask, logSuperblockSize_eq, and_onesMask (by norm_num), Nat.shiftRight_eq_div_pow,
    haddr, Nat.mul_div_cancel _ (by positivity)]

/-- No bit of the superblock number is decoded as part of the block number. -/
theorem add_mod_eq_iff {l : ℕ} (hl : l < 21) (hb : b < 2 ^ (21 - l)) :
    (s * 2 ^ (21 - l) + b) % 2 ^ 22 = b ↔ 2 ^ (l + 1) ∣ s := by
  have hlt : b < 2 ^ 22 := hb.trans_le (Nat.pow_le_pow_right (by norm_num) (by omega))
  have hpow : 2 ^ 22 = 2 ^ (l + 1) * 2 ^ (21 - l) := by
    rw [← pow_add]
    congr 1
    omega
  have hdvd : 2 ^ 22 ∣ s * 2 ^ (21 - l) ↔ 2 ^ (l + 1) ∣ s := by
    rw [hpow]
    exact Nat.mul_dvd_mul_iff_right (by positivity)
  rw [← hdvd]
  generalize s * 2 ^ (21 - l) = x
  omega

theorem getBlockInfo_block_iff (hlen : logBlockSizeOf len < 21)
    (hs : s < numSuperblocks allocatorBytes) (hb : b < 2 ^ (21 - logBlockSizeOf len))
    (hflags : (d.superblocks s).flags &&& blockAlloc ≠ 0)
    (hlog : (d.superblocks s).logBlockSize = logBlockSizeOf len) :
    getBlockInfo allocatorBytes d (s * superblockSize + b * 2 ^ logBlockSizeOf len) = (s, b) ↔
      2 ^ (logBlockSizeOf len + 1) ∣ s := by
  have hsuper : (s * superblockSize + b * 2 ^ logBlockSizeOf len) / superblockSize = s :=
    (Allocation.block_of_addr (s := s) hlen hb).1
  simp only [getBlockInfo, superblockId_eq (hsuper.symm ▸ hs), hsuper]
  rw [if_pos hflags, hlog, and_blockIdMask_block hlen, ← add_mod_eq_iff hlen hb]
  exact Prod.mk_right_inj

/-- The decoding of the first address of a superblock that is not cut into blocks. -/
theorem getBlockInfo_run (hs : s < numSuperblocks allocatorBytes)
    (hflags : (d.superblocks s).flags &&& blockAlloc = 0) :
    getBlockInfo allocatorBytes d (s * superblockSize) = (s, 0) := by
  have hsuper : s * superblockSize / superblockSize = s := Nat.mul_div_cancel _ superblockSize_pos
  simp only [getBlockInfo, superblockId_eq (hsuper.symm ▸ hs), hsuper]
  rw [if_neg (not_not_intro hflags)]

/-- The address of a run at 4 GiB or above wraps around to a superblock below. -/
theorem getBlockInfo_run_iff (hs : s < numSuperblocks allocatorBytes)
    (hflags : (d.superblocks s).flags &&& blockAlloc = 0) :
    getBlockInfo allocatorBytes d (s * superblockSize % 2 ^ 32) = (s, 0) ↔
      s * superblockSize < 2 ^ 32 := by
  refine ⟨fun h => ?_, fun h => ?_⟩
  · by_contra hge
    have hfst : (getBlockInfo allocatorBytes d (s * superblockSize % 2 ^ 32)).1 ≤
        s * superblockSize % 2 ^ 32 / superblockSize := by
      rw [getBlockInfo, logSuperblockSize_eq, superblockSize_eq, ← Nat.shiftRight_eq_div_pow]
      split_ifs <;> exact Nat.and_le_left
    rw [h, superblockSize_eq] at hfst
    rw [superblockSize_eq] at hge
    omega
  · rw [Nat.mod_eq_of_lt h]
    exact getBlockInfo_run hs hflags

/-- **Addresses are decoded to their places**, for exactly the places that can be decoded: if
`malloc` returns and has placed the allocation at block `b` of superblock `s`, or at the run of
superblocks from `s` on, then the address that it returns is decoded to `s` and `b` if and only if
the place decodes. -/
theorem address_decodes (h : malloc allocatorBytes fuel d len = .ok (addr, d'))
    (hplace : placement allocatorBytes fuel d len = some (s, b))
    (hdevice : PlaceInDevice allocatorBytes d len s b) :
    getBlockInfo allocatorBytes d' addr = (s, b) ↔ PlaceDecodes len s := by
  have hge := twelve_le_logBlockSizeOf len
  simp only [placement, isBlockRequest_iff] at hplace
  simp only [PlaceInDevice, logSuperblockSize_eq] at hdevice
  simp only [PlaceDecodes, logSuperblockSize_eq]
  obtain ⟨hlt, hfirst, hok⟩ | ⟨t, hlt, hfirst, hok⟩ | ⟨hlarge, hok⟩ := malloc_cases h
  · -- a superblock is opened for the size class
    rw [if_pos hlt] at hplace ⊢
    simp only [hfirst, getLastD_range_blocks, Option.some.injEq, Prod.mk.injEq] at hplace
    rw [mallocBlock_open hge hfirst] at hok
    simp only [Outcome.ok.injEq, Prod.mk.injEq] at hok
    obtain ⟨rfl, rfl⟩ := hplace
    obtain ⟨rfl, rfl⟩ := hok
    obtain ⟨hs, hb, -⟩ := hdevice hlt
    exact getBlockInfo_block_iff hlt hs hb (by simp [blockAlloc]) (by simp)
  · -- a block of an open superblock is taken
    rw [if_pos hlt] at hplace ⊢
    simp only [hfirst, Option.some.injEq, Prod.mk.injEq] at hplace
    rw [mallocBlock_take hfirst] at hok
    simp only [Outcome.ok.injEq, Prod.mk.injEq] at hok
    obtain ⟨rfl, rfl⟩ := hplace
    obtain ⟨rfl, rfl⟩ := hok
    obtain ⟨hs, hb, hopen⟩ := hdevice hlt
    obtain ⟨-, hflags, hlog⟩ := hopen hfirst
    exact getBlockInfo_block_iff hlt hs hb (by simpa using hflags) (by simpa using hlog)
  · -- a run of fresh superblocks
    rw [if_neg hlarge] at hplace ⊢
    have hpos := numSuperblocksNeeded_pos (logBlockSizeOf len)
    rw [mallocSuperblocks_bestFitLoop hok] at hplace
    obtain ⟨-, -, hroom, rfl, rfl⟩ := mallocSuperblocks_ok hok
    simp only [Option.map_some, Option.getD_none, Option.some.injEq, Prod.mk.injEq] at hplace
    obtain ⟨rfl, rfl⟩ := hplace
    refine getBlockInfo_run_iff (by omega) ?_
    simp [markAllocation, baseAllocation, blockAlloc]

/-- The first block of a fresh allocator is the last one of superblock 0. -/
theorem address_decodes_fresh :
    ∃ addr d', malloc (2 ^ 22) 0 {} 4096 = .ok (addr, d') ∧
      getBlockInfo (2 ^ 22) d' addr = (0, 511) := by
  obtain ⟨⟨addr, d'⟩, hok⟩ := Option.isSome_iff_exists.mp
    (by decide +kernel : (malloc (2 ^ 22) 0 {} 4096).toOption.isSome)
  have hok' := Outcome.toOption_eq_some.mp hok
  exact ⟨addr, d', hok',
    (address_decodes hok' (by decide +kernel) (by decide +kernel)).mpr (by decide +kernel)⟩

/-- The block after a run of one superblock lies in superblock 1, as block 511. The number of the
superblock reaches into the block number that is decoded, which is 1023. -/
theorem not_address_decodes :
    ¬∀ k, 21 ≤ k → ∀ x, (session (2 ^ k)).Reaches System.anyStep x →
      ∀ (len : UInt64) (fuel addr : ℕ) (d' : DeviceAllocator) (s b : ℕ),
        malloc (2 ^ k) fuel x.allocator len.toNat = .ok (addr, d') →
        placement (2 ^ k) fuel x.allocator len.toNat = some (s, b) →
        getBlockInfo (2 ^ k) d' addr = (s, b) := by
  intro h
  obtain ⟨x, hx, hplace, hinfo⟩ := (session (2 ^ 22)).exists_reaches System.anyStep
    (fun x => placement (2 ^ 22) 0 x.allocator (4096 : UInt64).toNat = some (1, 511) ∧
      ∃ r ∈ (malloc (2 ^ 22) 0 x.allocator (4096 : UInt64).toNat).toOption,
        getBlockInfo (2 ^ 22) r.2 r.1 = (1, 1023))
    [.malloc 0x200000 1] (by decide +kernel)
  obtain ⟨⟨addr, d'⟩, hok, hinfo⟩ := hinfo
  have heq := h 22 (by norm_num) x hx 4096 0 addr d' 1 511 (Outcome.toOption_eq_some.mp hok) hplace
  rw [hinfo] at heq
  exact absurd heq (by decide)

end Beethoven.Allocator
