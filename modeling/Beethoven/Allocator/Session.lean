import Beethoven.Lib.TransitionSystem
import Beethoven.Allocator.Outcomes

/-!
# Sessions of the device allocator

A session is a finite sequence of `malloc` and `free` calls on a freshly constructed allocator, each
`free` being given the address of a live allocation, as the data server makes them
(`runtime/src/core/data_server.cc`, operations `ALLOC` and `FREE`).

Five slips of the source let a session go wrong, each at a call that can be told from the state
before it: a block is freed in a superblock whose number reaches into the recorded block number, a
superblock is emptied that is not the first of its size class, a run of superblocks is freed one
superblock below the upper address space, a run is placed above 4 GiB or asked for with a length
whose shift wraps, a superblock is opened past the end of the device. `Call.Safe` says that a call
is none of these. Sessions of safe calls keep the allocator consistent (`Consistent`).
-/

namespace Beethoven.Allocator

open Lib Function

/-! ### Calls -/

/-- An allocator with the allocations that are live. -/
structure Session where
  allocator : DeviceAllocator := {}
  live : List Allocation := []

/-- A call of the allocator. A `malloc` comes with a bound on the iterations of its search. -/
inductive Call where
  | malloc (len : UInt64) (fuel : ℕ)
  | free (addr : ℕ)

/-- The effect of a call that returns; a `free` needs the address of a live allocation. -/
def Session.step (allocatorBytes : ℕ) (x : Session) : Call → Option Session
  | .malloc len fuel =>
    (malloc allocatorBytes fuel x.allocator len.toNat).toOption.map fun r =>
      ⟨r.2, ⟨r.1, len.toNat⟩ :: x.live⟩
  | .free addr =>
    if x.live.any fun a => a.addr == addr then
      (free allocatorBytes x.allocator addr).toOption.map fun d =>
        ⟨d, x.live.eraseP fun a => a.addr == addr⟩
    else none

/-- What a step of a session is: a call that returned, with its result. -/
theorem Session.step_cases {allocatorBytes : ℕ} {x y : Session} {c : Call}
    (h : x.step allocatorBytes c = some y) :
    (∃ len fuel addr d, c = .malloc len fuel ∧
      Allocator.malloc allocatorBytes fuel x.allocator len.toNat = .ok (addr, d) ∧
      y = ⟨d, ⟨addr, len.toNat⟩ :: x.live⟩) ∨
    (∃ addr d, c = .free addr ∧ (x.live.any fun a => a.addr == addr) ∧
      Allocator.free allocatorBytes x.allocator addr = .ok d ∧
      y = ⟨d, x.live.eraseP fun a => a.addr == addr⟩) := by
  cases c with
  | malloc len fuel =>
    obtain ⟨⟨addr, d⟩, hok, rfl⟩ := Option.map_eq_some_iff.mp h
    exact .inl ⟨len, fuel, addr, d, rfl, Outcome.toOption_eq_some.mp hok, rfl⟩
  | free addr =>
    rw [Session.step] at h
    split_ifs at h with hlive
    obtain ⟨d, hok, rfl⟩ := Option.map_eq_some_iff.mp h
    exact .inr ⟨addr, d, rfl, hlive, Outcome.toOption_eq_some.mp hok, rfl⟩

/-- The sessions of an allocator of the given size. -/
def session (allocatorBytes : ℕ) : System Session Call := ⟨{}, Session.step allocatorBytes⟩

/-- The call meets none of the slips of the source: for a `malloc` of a block, a superblock that
must be opened exists; for a `malloc` of superblocks, the shift and the product stay within 32 bits;
for a `free` of a block, the recorded block number is that of the block and a superblock that
becomes free is the first of its class; for a `free` of superblocks, they do not end one superblock
below the upper address space. -/
def Call.Safe (allocatorBytes : ℕ) (x : Session) : Call → Prop
  | .malloc len _ =>
    let logBlockSize := logBlockSizeOf len.toNat
    if logBlockSize - logMinBlock < numLists then
      (x.allocator.superblockHeadList (logBlockSize - logMinBlock)).first = none →
        x.allocator.freeList = [] → x.allocator.superblockFreeIdx < numSuperblocks allocatorBytes
    else logBlockSize < 53 ∧ x.allocator.superblockFreeIdx * superblockSize < 2 ^ 32
  | .free addr =>
    let s := addr / superblockSize
    let sb := x.allocator.superblocks s
    if sb.flags = blockAlloc then
      s * 2 ^ (logSuperblockSize - sb.logBlockSize) % 2 ^ 16 = 0 ∧
        (sb.freeBlocks.length + 1 = 2 ^ (logSuperblockSize - sb.logBlockSize) →
          (x.allocator.superblockHeadList (sb.logBlockSize - logMinBlock)).first = some s)
    else s + sb.freeBlocks.headD 0 + 1 ≠ x.allocator.superblockFreeIdx

instance (allocatorBytes : ℕ) (x : Session) : (c : Call) → Decidable (c.Safe allocatorBytes x)
  | .malloc _ _ => inferInstanceAs (Decidable (ite _ (_ → _ → _) _))
  | .free _ => inferInstanceAs (Decidable (ite _ _ _))

/-! ### The invariant -/

/-- The superblocks in use: below the upper address space and not in the free list. -/
def DeviceAllocator.used (d : DeviceAllocator) : Set ℕ :=
  {i | i < d.superblockFreeIdx ∧ i ∉ d.freeList}

/-- The free list holds distinct superblocks below the upper address space. -/
structure DeviceAllocator.FreeListOk (d : DeviceAllocator) : Prop where
  nodup : d.freeList.Nodup
  lt : ∀ i ∈ d.freeList, i < d.superblockFreeIdx

/-- The allocator and its live allocations fit together. -/
structure Consistent (allocatorBytes : ℕ) (x : Session) : Prop where
  freeIdx_le : x.allocator.superblockFreeIdx ≤ numSuperblocks allocatorBytes
  freeList : x.allocator.FreeListOk
  layout : Layout x.allocator.used x.allocator.superblocks x.allocator.superblockHeadList x.live

theorem consistent_init (allocatorBytes : ℕ) :
    Consistent allocatorBytes (session allocatorBytes).init where
  freeIdx_le := Nat.zero_le _
  freeList := ⟨List.nodup_nil, by simp [session]⟩
  layout := by
    have hused : (session allocatorBytes).init.allocator.used = ∅ := by
      ext i
      simp [session, DeviceAllocator.used]
    rw [hused]
    refine ⟨by simp [session], by simp [session], by simp, ?_, ?_, ?_, ?_⟩
    · rintro s ⟨hs, -⟩
      exact absurd hs (Set.notMem_empty s)
    · rintro s ⟨hs, -⟩
      exact absurd hs (Set.notMem_empty s)
    · rintro s ⟨hs, -⟩
      exact absurd hs (Set.notMem_empty s)
    · intro c s
      constructor
      · intro hs
        exact absurd hs OrderedSet.notMem_empty
      · rintro ⟨⟨hs, -⟩, -⟩
        exact absurd hs (Set.notMem_empty s)

/-! ### Allocation -/

/-- The superblock that `acquireSuperblock` takes was not in use, and is now. -/
theorem acquireSuperblock_spec {d : DeviceAllocator} (h : d.FreeListOk) :
    (acquireSuperblock d).1 ∉ d.used ∧
      (acquireSuperblock d).2.used = insert (acquireSuperblock d).1 d.used ∧
      (acquireSuperblock d).2.FreeListOk ∧
      (acquireSuperblock d).2.superblocks = d.superblocks ∧
      (acquireSuperblock d).2.superblockHeadList = d.superblockHeadList := by
  unfold acquireSuperblock
  cases hfree : d.freeList with
  | nil =>
    refine ⟨fun hused => absurd hused.1 (lt_irrefl _), ?_, ⟨by simp, by simp⟩,
      rfl, rfl⟩
    ext i
    simp only [DeviceAllocator.used, hfree, List.not_mem_nil, not_false_eq_true, and_true,
      Set.mem_ofPred_eq, Set.mem_insert_iff]
    omega
  | cons s rest =>
    have hnodup := h.nodup
    have hlt := h.lt
    rw [hfree] at hnodup hlt
    obtain ⟨hs, hrest⟩ := List.nodup_cons.mp hnodup
    refine ⟨fun hused => hused.2 (by simp [hfree]), ?_,
      ⟨hrest, fun i hi => hlt i (List.mem_cons_of_mem s hi)⟩, rfl, rfl⟩
    ext i
    simp only [DeviceAllocator.used, hfree, List.mem_cons, Set.mem_ofPred_eq, Set.mem_insert_iff]
    have hslt := hlt s List.mem_cons_self
    constructor
    · rintro ⟨hi, hnot⟩
      by_cases his : i = s
      · exact Or.inl his
      · exact Or.inr ⟨hi, by simp [his, hnot]⟩
    · rintro (rfl | ⟨hi, hnot⟩)
      · exact ⟨hslt, hs⟩
      · exact ⟨hi, fun hmem => hnot (Or.inr hmem)⟩

theorem acquireSuperblock_freeIdx_le {d : DeviceAllocator} {n : ℕ} (hle : d.superblockFreeIdx ≤ n)
    (hroom : d.freeList = [] → d.superblockFreeIdx < n) :
    (acquireSuperblock d).2.superblockFreeIdx ≤ n := by
  unfold acquireSuperblock
  cases hfree : d.freeList with
  | nil => exact hroom hfree
  | cons s rest => exact hle

variable {allocatorBytes : ℕ} {x : Session}

theorem logBlockSizeOf_eq_add (len : ℕ) :
    logBlockSizeOf len = 12 + (logBlockSizeOf len - logMinBlock) := by
  have hge := twelve_le_logBlockSizeOf len
  rw [logMinBlock_eq]
  omega

private theorem Consistent.mallocOpen (h : Consistent allocatorBytes x) {len : ℕ}
    (hlt : logBlockSizeOf len < 21)
    (hfirst : (x.allocator.superblockHeadList (logBlockSizeOf len - logMinBlock)).first = none)
    (hroom : x.allocator.freeList = [] →
      x.allocator.superblockFreeIdx < numSuperblocks allocatorBytes)
    {addr : ℕ} {d : DeviceAllocator}
    (hok : mallocBlock x.allocator (logBlockSizeOf len) = .ok (addr, d)) :
    Consistent allocatorBytes ⟨d, ⟨addr, len⟩ :: x.live⟩ := by
  have hge := twelve_le_logBlockSizeOf len
  obtain ⟨hnot, hused, hfl, hsb, hheads⟩ := acquireSuperblock_spec h.freeList
  rw [mallocBlock_open hge hfirst, hsb, hheads] at hok
  simp only [Outcome.ok.injEq, Prod.mk.injEq] at hok
  obtain ⟨rfl, rfl⟩ := hok
  refine ⟨acquireSuperblock_freeIdx_le h.freeIdx_le hroom, ⟨hfl.nodup, hfl.lt⟩, ?_⟩
  change Layout (acquireSuperblock x.allocator).2.used _ _ _
  rw [hused]
  refine h.layout.openSuperblock hnot (logBlockSizeOf_eq_add len) hlt fun c t => ?_
  change t ∈ update x.allocator.superblockHeadList _ _ c ↔ _
  by_cases hc : c = logBlockSizeOf len - logMinBlock
  · subst hc
    simp only [update_self, OrderedSet.mem_emplace, true_and]
    exact or_comm
  · rw [update_of_ne hc]
    simp only [hc, false_and, or_false]

private theorem Consistent.mallocTake (h : Consistent allocatorBytes x) {len s : ℕ}
    (hfirst : (x.allocator.superblockHeadList (logBlockSizeOf len - logMinBlock)).first = some s)
    {addr : ℕ} {d : DeviceAllocator}
    (hok : mallocBlock x.allocator (logBlockSizeOf len) = .ok (addr, d)) :
    Consistent allocatorBytes ⟨d, ⟨addr, len⟩ :: x.live⟩ := by
  have hge := twelve_le_logBlockSizeOf len
  have hs := OrderedSet.mem_of_first hfirst
  obtain ⟨-, hlog, hne⟩ := (h.layout.mem_heads _ s).mp hs
  have hsplit := (List.dropLast_concat_getLast hne).symm
  have hlast : (x.allocator.superblocks s).freeBlocks.getLastD 0 =
      (x.allocator.superblocks s).freeBlocks.getLast hne := by
    rw [List.getLastD_eq_getLast?, List.getLast?_eq_some_getLast hne, Option.getD_some]
  rw [mallocBlock_take hfirst, hlast, Outcome.ok.injEq, Prod.mk.injEq] at hok
  obtain ⟨rfl, rfl⟩ := hok
  refine ⟨h.freeIdx_le, ⟨h.freeList.nodup, h.freeList.lt⟩, ?_⟩
  refine h.layout.takeBlock hs (logBlockSizeOf_eq_add len) hsplit fun c t => ?_
  dsimp only
  by_cases hnil : (x.allocator.superblocks s).freeBlocks.dropLast = []
  · rw [if_pos hnil]
    by_cases hc : c = logBlockSizeOf len - logMinBlock
    · subst hc
      rw [update_self, OrderedSet.mem_eraseFirst hfirst]
      simp [hnil, and_comm]
    · rw [update_of_ne hc]
      refine ⟨fun ht => ⟨ht, fun hts => absurd ?_ hc⟩, fun ht => ht.1⟩
      have hlog' := ((h.layout.mem_heads _ _).mp ht).2.1
      rw [hts, hlog] at hlog'
      omega
  · rw [if_neg hnil]
    exact ⟨fun ht => ⟨ht, fun _ => hnil⟩, fun ht => ht.1⟩

private theorem Consistent.mallocRun (h : Consistent allocatorBytes x) {len fuel : ℕ}
    (hlarge : ¬logBlockSizeOf len < 21) (hlt53 : logBlockSizeOf len < 53)
    (hlt32 : x.allocator.superblockFreeIdx * superblockSize < 2 ^ 32) {addr : ℕ}
    {d : DeviceAllocator}
    (hok : mallocSuperblocks allocatorBytes fuel x.allocator (logBlockSizeOf len) = .ok (addr, d)) :
    Consistent allocatorBytes ⟨d, ⟨addr, len⟩ :: x.live⟩ := by
  obtain ⟨hbits, hnil, hroom, rfl, rfl⟩ := mallocSuperblocks_ok hok
  have hn := numSuperblocksNeeded_eq hlt53
  have hpos : 0 < numSuperblocksNeeded (logBlockSizeOf len) := by
    rw [hn]
    positivity
  have hlt16 : numSuperblocksNeeded (logBlockSizeOf len) < 2 ^ 16 := by
    rw [hn] at hbits ⊢
    exact lt_of_and_eq_zero (by omega) hbits
  have hlen := le_numSuperblocksNeeded_mul hlarge hlt53
  refine ⟨hroom, ⟨h.freeList.nodup, fun i hi => ?_⟩, ?_⟩
  · rw [hnil] at hi
    exact absurd hi List.not_mem_nil
  · have hlayout := h.layout.openRun (s := x.allocator.superblockFreeIdx)
      (fun i hi _ hused => absurd hused.1 (not_lt.mpr hi)) hlarge rfl hpos hlt16 hlen
    rw [Nat.mod_eq_of_lt hlt32]
    convert hlayout using 1
    ext i
    simp only [DeviceAllocator.used, hnil, List.not_mem_nil, not_false_eq_true, and_true,
      Set.mem_union, Set.mem_ofPred_eq]
    omega

/-- A safe `malloc` that returns keeps the invariant. -/
theorem Consistent.malloc (h : Consistent allocatorBytes x) {len : UInt64} {fuel addr : ℕ}
    {d : DeviceAllocator} (hsafe : (Call.malloc len fuel).Safe allocatorBytes x)
    (hok : Allocator.malloc allocatorBytes fuel x.allocator len.toNat = .ok (addr, d)) :
    Consistent allocatorBytes ⟨d, ⟨addr, len.toNat⟩ :: x.live⟩ := by
  simp only [Call.Safe, isBlockRequest_iff] at hsafe
  obtain ⟨hlt, hfirst, hok⟩ | ⟨s, hlt, hfirst, hok⟩ | ⟨hlarge, hok⟩ := malloc_cases hok
  · rw [if_pos hlt] at hsafe
    exact h.mallocOpen hlt hfirst (hsafe hfirst) hok
  · exact h.mallocTake hfirst hok
  · rw [if_neg hlarge] at hsafe
    exact h.mallocRun hlarge hsafe.1 hsafe.2 hok

/-! ### Release -/

theorem unpackFreeList_spec {d : DeviceAllocator} (h : d.FreeListOk) :
    (unpackFreeList d).FreeListOk ∧ (unpackFreeList d).used = d.used ∧
      (unpackFreeList d).superblockFreeIdx ≤ d.superblockFreeIdx := by
  obtain ⟨hnodup, hlt, hle, hused⟩ := unpackFreeListLoop_spec d.freeList.reverse d.superblockFreeIdx
    (List.nodup_reverse.mpr h.nodup) (fun i hi => h.lt i (List.mem_reverse.mp hi))
  refine ⟨⟨List.nodup_reverse.mpr hnodup, fun i hi => hlt i (List.mem_reverse.mp hi)⟩, ?_, hle⟩
  ext i
  have hi := hused i
  rw [List.mem_reverse] at hi
  simpa [DeviceAllocator.used, unpackFreeList] using hi

/-- A superblock in use that is given back is no longer in use, and the first superblock of its
size class leaves the head list. -/
theorem releaseSuperblock_spec {d : DeviceAllocator} (h : d.FreeListOk) (headIdx : ℕ) {s : ℕ}
    (hs : s ∈ d.used) :
    (releaseSuperblock d headIdx s).FreeListOk ∧
      (releaseSuperblock d headIdx s).used = d.used \ {s} ∧
      (releaseSuperblock d headIdx s).superblockFreeIdx ≤ d.superblockFreeIdx ∧
      (releaseSuperblock d headIdx s).superblocks = d.superblocks ∧
      (releaseSuperblock d headIdx s).superblockHeadList =
        update d.superblockHeadList headIdx (d.superblockHeadList headIdx).eraseFirst := by
  obtain ⟨hslt, hsnot⟩ := hs
  rw [releaseSuperblock]
  dsimp only
  split_ifs with htop
  · have hok : DeviceAllocator.FreeListOk { d with
        superblockHeadList := update d.superblockHeadList headIdx
          (d.superblockHeadList headIdx).eraseFirst
        superblockFreeIdx := d.superblockFreeIdx - 1 } := by
      refine ⟨h.nodup, fun i hi => ?_⟩
      have hne : i ≠ s := fun heq => hsnot (heq ▸ hi)
      have := h.lt i hi
      dsimp only
      omega
    obtain ⟨hfl, hused, hle⟩ := unpackFreeList_spec hok
    refine ⟨hfl, ?_, hle.trans (Nat.sub_le _ _), rfl, rfl⟩
    rw [hused]
    ext i
    simp only [DeviceAllocator.used, Set.mem_ofPred_eq, Set.mem_sdiff, Set.mem_singleton_iff]
    constructor
    · rintro ⟨hi, hnot⟩
      exact ⟨⟨by omega, hnot⟩, by omega⟩
    · rintro ⟨⟨hi, hnot⟩, hne⟩
      exact ⟨by omega, hnot⟩
  · have hperm := List.perm_insertIdx s d.freeList (upperBound_le_length d.freeList s)
    refine ⟨⟨hperm.nodup_iff.mpr (List.nodup_cons.mpr ⟨hsnot, h.nodup⟩), fun i hi => ?_⟩, ?_,
      le_rfl,
      rfl, rfl⟩
    · rcases List.mem_cons.mp (hperm.mem_iff.mp hi) with rfl | hi
      · exact hslt
      · exact h.lt i hi
    · ext i
      simp only [DeviceAllocator.used, Set.mem_ofPred_eq, hperm.mem_iff, List.mem_cons,
        Set.mem_sdiff, Set.mem_singleton_iff, not_or]
      rw [and_assoc, and_comm (a := i ≠ s)]

theorem mem_eraseP_addr {live : List Allocation} (hnodup : (live.map Allocation.addr).Nodup)
    (addr : ℕ) (a : Allocation) :
    a ∈ live.eraseP (fun a => a.addr == addr) ↔ a ∈ live ∧ a.addr ≠ addr := by
  induction live with
  | nil => simp
  | cons b live ih =>
    obtain ⟨hb, hlive⟩ := List.nodup_cons.mp hnodup
    by_cases hbaddr : b.addr = addr
    · subst hbaddr
      rw [List.eraseP_cons_of_pos (by simp), List.mem_cons]
      constructor
      · intro ha
        exact ⟨Or.inr ha, fun haddr => hb (haddr ▸ List.mem_map_of_mem ha)⟩
      · rintro ⟨rfl | ha, hne⟩
        · exact absurd rfl hne
        · exact ha
    · rw [List.eraseP_cons_of_neg (by simpa using hbaddr), List.mem_cons, List.mem_cons, ih hlive]
      constructor
      · rintro (rfl | ⟨ha, hne⟩)
        · exact ⟨Or.inl rfl, hbaddr⟩
        · exact ⟨Or.inr ha, hne⟩
      · rintro ⟨rfl | ha, hne⟩
        · exact Or.inl rfl
        · exact Or.inr ⟨ha, hne⟩

theorem Consistent.superblockId (h : Consistent allocatorBytes x) {a : Allocation}
    (ha : a ∈ x.live) :
    (a.addr >>> logSuperblockSize) &&& superblockIdMask allocatorBytes = a.superblock :=
  superblockId_eq ((h.layout.superblock_mem_used ha).1.trans_le h.freeIdx_le)

/-- The block number that `free` records: it reaches into the superblock number. -/
theorem PlacedBlock.recorded {used : Set ℕ} {sb : ℕ → Superblock} {a : Allocation}
    (h : PlacedBlock used sb a) :
    ((a.addr >>> a.logBlock) &&& blockIdMask logSuperblockSize) % 2 ^ 16 =
      (a.superblock * 2 ^ (21 - a.logBlock) + a.block) % 2 ^ 16 := by
  have hsmall : a.logBlock < 21 := by simpa [Allocation.IsSmall] using h.small
  have haddr : a.addr = (a.superblock * 2 ^ (21 - a.logBlock) + a.block) * 2 ^ a.logBlock := by
    conv_lhs => rw [h.addr_eq]
    rw [Nat.add_mul, Nat.mul_assoc, ← pow_add, Nat.sub_add_cancel hsmall.le, superblockSize_eq]
  rw [blockIdMask, logSuperblockSize_eq, and_onesMask (by norm_num), Nat.shiftRight_eq_div_pow]
  conv_lhs => rw [haddr]
  rw [Nat.mul_div_cancel _ (by positivity), Nat.mod_mod_of_dvd _ (by norm_num)]

/-- The number of a placed block fits the entries of the list of free blocks. -/
theorem PlacedBlock.block_mod {used : Set ℕ} {sb : ℕ → Superblock} {a : Allocation}
    (h : PlacedBlock used sb a) : a.block % 2 ^ 16 = a.block := by
  have hge := twelve_le_logBlockSizeOf a.len
  refine Nat.mod_eq_of_lt (h.block_lt.trans_le (Nat.pow_le_pow_right (by norm_num) ?_))
  rw [Allocation.logBlock]
  omega

theorem PlacedBlock.recorded_mod {used : Set ℕ} {sb : ℕ → Superblock} {a : Allocation}
    (h : PlacedBlock used sb a) :
    ((a.addr >>> a.logBlock) &&& blockIdMask logSuperblockSize) % 2 ^ 16 % 2 ^ (21 - a.logBlock) =
      a.block := by
  have hge := twelve_le_logBlockSizeOf a.len
  have hdvd : 2 ^ (21 - a.logBlock) ∣ 2 ^ 16 := by
    refine Nat.pow_dvd_pow 2 ?_
    rw [Allocation.logBlock]
    omega
  rw [h.recorded, Nat.mod_mod_of_dvd _ hdvd, Nat.mul_comm, Nat.mul_add_mod,
    Nat.mod_eq_of_lt h.block_lt]

theorem Consistent.freeBlock (h : Consistent allocatorBytes x) {a : Allocation}
    (ha : a ∈ x.live) (hsmall : a.IsSmall) {blockId : ℕ} (hrec : blockId % 2 ^ 16 = a.block)
    (hfirst : (x.allocator.superblocks a.superblock).freeBlocks.length + 1 = 2 ^ (21 - a.logBlock) →
      (x.allocator.superblockHeadList (a.logBlock - logMinBlock)).first = some a.superblock)
    {d : DeviceAllocator}
    (hok : Allocator.freeBlock x.allocator a.superblock blockId = .ok d) :
    Consistent allocatorBytes ⟨d, x.live.eraseP fun b => b.addr == a.addr⟩ := by
  have hab := h.layout.placedBlock ha hsmall
  have hlog := (h.layout.logBlockSize_mem _ hab.isBlockSuperblock).1
  rw [hab.logBlockSize] at hlog
  have hlt : a.logBlock < 21 := by simpa [Allocation.IsSmall] using hsmall
  have hlive := mem_eraseP_addr h.layout.addr_nodup a.addr
  have hsub : (x.live.eraseP fun b => b.addr == a.addr).Sublist x.live := List.eraseP_sublist
  have hcases := freeBlock_cases hok
  simp only [hrec, hab.logBlockSize] at hcases
  obtain ⟨hfull, rfl⟩ | ⟨hfull, hone, rfl⟩ | ⟨hfull, hone, rfl⟩ := hcases
  · have hfirst' := hfirst (by simpa using hfull)
    let d' : DeviceAllocator := { x.allocator with
      superblocks := withFreeBlocks x.allocator.superblocks a.superblock
        ((x.allocator.superblocks a.superblock).freeBlocks ++ [a.block]) }
    obtain ⟨hfl, hused, hle, hsb, hheads⟩ := releaseSuperblock_spec (d := d')
      ⟨h.freeList.nodup, h.freeList.lt⟩ (a.logBlock - logMinBlock) hab.used
    refine ⟨hle.trans h.freeIdx_le, hfl, ?_⟩
    change Layout (releaseSuperblock d' (a.logBlock - logMinBlock) a.superblock).used
      (releaseSuperblock d' (a.logBlock - logMinBlock) a.superblock).superblocks
      (releaseSuperblock d' (a.logBlock - logMinBlock) a.superblock).superblockHeadList _
    rw [hused, hsb, hheads]
    refine h.layout.closeSuperblock ha hsmall hlive hsub hfull fun c t => ?_
    by_cases hc : c = a.logBlock - logMinBlock
    · subst hc
      rw [update_self, OrderedSet.mem_eraseFirst hfirst']
      exact and_comm
    · rw [update_of_ne hc]
      refine ⟨fun ht => ⟨ht, fun hts => hc ?_⟩, fun ht => ht.1⟩
      have hlog' := ((h.layout.mem_heads _ _).mp ht).2.1
      rw [hts, hab.logBlockSize] at hlog'
      rw [logMinBlock_eq]
      omega
  · refine ⟨h.freeIdx_le, ⟨h.freeList.nodup, h.freeList.lt⟩, ?_⟩
    refine h.layout.returnBlock ha hsmall hlive hsub hfull fun c t => ?_
    dsimp only
    by_cases hc : c = a.logBlock - logMinBlock
    · subst hc
      rw [update_self, OrderedSet.mem_emplace, logMinBlock_eq]
      have heq : a.logBlock = 12 + (a.logBlock - 12) := by omega
      rw [and_iff_left heq, or_comm]
    · rw [update_of_ne hc]
      rw [logMinBlock_eq] at hc
      have hne : a.logBlock ≠ 12 + c := by omega
      exact ⟨.inl, fun ht => ht.resolve_right fun hand => hne hand.2⟩
  · refine ⟨h.freeIdx_le, ⟨h.freeList.nodup, h.freeList.lt⟩, ?_⟩
    refine h.layout.returnBlock ha hsmall hlive hsub hfull fun c t => ?_
    refine ⟨Or.inl, fun ht => ht.elim id ?_⟩
    rintro ⟨rfl, hclass⟩
    refine (h.layout.mem_heads _ _).mpr ⟨hab.isBlockSuperblock, ?_, ?_⟩
    · rw [hab.logBlockSize, hclass]
    · rintro hnil
      exact hone (by simp [hnil])

theorem PlacedRun.findBase {used : Set ℕ} {sb : ℕ → Superblock} {a : Allocation}
    (h : PlacedRun used sb a) : Allocator.findBase sb a.superblock = some a.superblock := by
  refine findBase_self ?_
  rw [h.flags]
  decide

/-- Releasing a run of superblocks that does not end one superblock below the upper address
space. -/
theorem Consistent.freeRun (h : Consistent allocatorBytes x) {a : Allocation}
    (ha : a ∈ x.live) (hlarge : ¬a.IsSmall)
    (hend : a.superblock + a.span + 1 ≠ x.allocator.superblockFreeIdx) {d : DeviceAllocator}
    (hok : freeSuperblocks x.allocator a.superblock = .ok d) :
    Consistent allocatorBytes ⟨d, x.live.eraseP fun b => b.addr == a.addr⟩ := by
  have har := h.layout.placedRun ha hlarge
  have hlive := mem_eraseP_addr h.layout.addr_nodup a.addr
  have hsub : (x.live.eraseP fun b => b.addr == a.addr).Sublist x.live := List.eraseP_sublist
  obtain ⟨id, hfind, hcases⟩ := freeSuperblocks_cases hok
  obtain rfl : a.superblock = id := Option.some.inj (har.findBase.symm.trans hfind)
  simp only [har.freeBlocks, List.headD_cons] at hcases
  obtain ⟨htop, -⟩ | ⟨-, rfl⟩ := hcases
  · exact absurd htop hend
  have hmem : ∀ i, i ∈ (List.range a.span).map (a.superblock + ·) ↔ a.Covers i := by
    intro i
    simp only [List.mem_map, List.mem_range, Allocation.Covers]
    constructor
    · rintro ⟨j, hj, rfl⟩
      omega
    · rintro ⟨hle, hlt⟩
      exact ⟨i - a.superblock, by omega, by omega⟩
  refine ⟨h.freeIdx_le, ⟨?_, ?_⟩, ?_⟩
  · refine List.nodup_append.mpr ⟨h.freeList.nodup,
      (List.nodup_map_iff (add_right_injective _)).mpr List.nodup_range, ?_⟩
    rintro i hi j hj rfl
    exact (har.used i ((hmem i).mp hj)).2 hi
  · intro i hi
    rcases List.mem_append.mp hi with hi | hi
    · exact h.freeList.lt i hi
    · exact (har.used i ((hmem i).mp hi)).1
  · have hused : {i | i < x.allocator.superblockFreeIdx ∧
        i ∉ x.allocator.freeList ++ (List.range a.span).map (a.superblock + ·)} =
          x.allocator.used \ {i | a.Covers i} := by
      ext i
      simp only [DeviceAllocator.used, Set.mem_ofPred_eq, List.mem_append, hmem, Set.mem_sdiff,
        not_or, and_assoc]
    change Layout {i | i < x.allocator.superblockFreeIdx ∧ i ∉ _} _ _ _
    rw [hused]
    exact h.layout.closeRun ha hlarge hlive hsub

/-- A safe `free` of a live allocation that returns keeps the invariant. -/
theorem Consistent.free (h : Consistent allocatorBytes x) {addr : ℕ} {d : DeviceAllocator}
    (hlive : x.live.any fun a => a.addr == addr) (hsafe : (Call.free addr).Safe allocatorBytes x)
    (hok : Allocator.free allocatorBytes x.allocator addr = .ok d) :
    Consistent allocatorBytes ⟨d, x.live.eraseP fun a => a.addr == addr⟩ := by
  obtain ⟨a, ha, haddr⟩ := List.any_eq_true.mp hlive
  obtain rfl : a.addr = addr := by simpa using haddr
  have hcases := free_cases hok
  simp only [h.superblockId ha] at hcases
  simp only [Call.Safe, show a.addr / superblockSize = a.superblock from rfl] at hsafe
  by_cases hsmall : a.IsSmall
  · have hab := h.layout.placedBlock ha hsmall
    rw [if_pos hab.flags, hab.logBlockSize, logSuperblockSize_eq] at hsafe
    rw [hab.flags, hab.logBlockSize] at hcases
    obtain ⟨-, -, hok⟩ | ⟨hnot, -⟩ := hcases
    · refine h.freeBlock ha hsmall ?_ hsafe.2 hok
      rw [hab.recorded, Nat.add_mod, hsafe.1, Nat.zero_add, Nat.mod_mod, hab.block_mod]
    · exact absurd hnot (by decide)
  · have har := h.layout.placedRun ha hsmall
    have hne : baseAllocation ≠ blockAlloc := by decide
    rw [har.flags, if_neg hne, har.freeBlocks, List.headD_cons] at hsafe
    rw [har.flags] at hcases
    obtain ⟨hnot, -⟩ | ⟨-, hok⟩ := hcases
    · exact absurd hnot (by decide)
    · exact h.freeRun ha hsmall hsafe hok

/-- **Safe sessions keep the allocator consistent.** -/
theorem consistent_of_reaches
    (hx : (session allocatorBytes).Reaches (fun x c => Call.Safe allocatorBytes x c) x) :
    Consistent allocatorBytes x := by
  refine hx.invariant (consistent_init allocatorBytes) ?_
  intro x c y h hsafe hstep
  obtain ⟨len, fuel, addr, d, rfl, hok, rfl⟩ | ⟨addr, d, rfl, hlive, hok, rfl⟩ :=
    Session.step_cases hstep
  · exact h.malloc hsafe hok
  · exact h.free hlive hsafe hok

end Beethoven.Allocator
