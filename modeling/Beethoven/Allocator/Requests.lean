import Beethoven.Allocator.Session

/-!
# Single requests

Whether a request ends, and whether the memory that it returns lies in the device.

The best-fit search of `malloc` removes no segment, so that a request for whole superblocks never
ends while the free list has an element; all other requests end.

The path for blocks opens superblocks without a look at the size of the device, and the number of a
block that it takes may be larger than the superblock, either because `free` recorded it with bits
of the superblock number or because an emptied superblock was left in a head list. The path for
superblocks checks the size of the device, but the shift that computes the number of superblocks
wraps for very long requests. `Call.Fits` says that a call meets none of this, nor reads from an
empty container. In sessions of such calls every request that returns fits the device.
-/

namespace Beethoven.Allocator

open Lib Function

variable {allocatorBytes fuel len l s addr : ℕ} {d d' : DeviceAllocator}

/-! ### Termination -/

/-- The request is for a block, or is too large for the record of its length, or finds an empty free
list. -/
def RequestEnds (d : DeviceAllocator) (len : ℕ) : Prop :=
  logBlockSizeOf len < logSuperblockSize ∨
    numSuperblocksNeeded (logBlockSizeOf len) &&& 0xFFFF0000 ≠ 0 ∨ d.freeList = []

/-- A request for superblocks looks at most once for segments of an empty free list. -/
theorem mallocSuperblocks_of_freeList_eq_nil (hnil : d.freeList = []) (hfuel : 1 ≤ fuel) :
    mallocSuperblocks allocatorBytes fuel d l = mallocSuperblocks allocatorBytes 1 d l := by
  obtain ⟨n, rfl⟩ : ∃ n, fuel = n + 1 := ⟨fuel - 1, by omega⟩
  simp only [mallocSuperblocks, hnil, scanSegments, bestFitLoop, List.getLast?_nil]

theorem mallocSuperblocks_ne_looping (allocatorBytes l : ℕ) (hnil : d.freeList = []) :
    mallocSuperblocks allocatorBytes 1 d l ≠ .looping := by
  simp only [mallocSuperblocks, hnil, scanSegments, bestFitLoop, List.getLast?_nil]
  split_ifs <;> simp

theorem mallocBlock_ne_looping (d : DeviceAllocator) (l : ℕ) : mallocBlock d l ≠ .looping := by
  simp only [mallocBlock]
  split
  · split_ifs <;> simp
  · simp

theorem malloc_looping (hlarge : ¬ RequestEnds d len) :
    malloc allocatorBytes fuel d len = .looping := by
  rw [RequestEnds, logSuperblockSize_eq] at hlarge
  push Not at hlarge
  obtain ⟨hsize, hneeded, hfree⟩ := hlarge
  simp only [malloc, isBlockRequest_iff]
  rw [if_neg (not_lt.mpr hsize)]
  exact mallocSuperblocks_looping hneeded hfree

/-- **Termination.** In every state of the allocator, a request returns or exits, so that from some
number of iterations on its outcome is there and stays the same, if and only if it is for a block,
or too large, or finds an empty free list. The search for the start of a segment in the free list is
never reached. -/
theorem malloc_terminates (d : DeviceAllocator) (len : UInt64) :
    ((∃ n o, o ≠ .looping ∧ ∀ fuel ≥ n, malloc allocatorBytes fuel d len.toNat = o) ↔
      RequestEnds d len.toNat) ∧
    ∀ fuel b, bestFitLoop (numSuperblocksNeeded (logBlockSizeOf len.toNat))
      (scanSegments d.freeList 0 0) fuel ⟨1 <<< logNumSuperblocks allocatorBytes, none⟩ = some b →
      b.allocStart = none := by
  refine ⟨⟨fun ⟨n, o, hends, ho⟩ => ?_, fun h => ?_⟩, fun fuel b hb => ?_⟩
  · by_contra hlarge
    exact hends ((ho n le_rfl).symm.trans (malloc_looping hlarge))
  · simp only [malloc, isBlockRequest_iff]
    by_cases hsmall : logBlockSizeOf len.toNat < 21
    · exact ⟨0, _, mallocBlock_ne_looping _ _, fun fuel _ => if_pos hsmall⟩
    · simp only [if_neg hsmall]
      obtain hblock | hlarge | hnil := h
      · rw [logSuperblockSize_eq] at hblock
        exact absurd hblock hsmall
      · exact ⟨0, .exit 1, by simp, fun fuel _ => if_pos hlarge⟩
      · exact ⟨1, _, mallocSuperblocks_ne_looping allocatorBytes _ hnil,
          fun fuel hfuel => mallocSuperblocks_of_freeList_eq_nil hnil hfuel⟩
  · rw [(freeList_eq_nil_of_bestFitLoop hb).2]

/-- After a block and a superblock were allocated, a request for two superblocks ends. -/
theorem malloc_terminates_twoCalls :
    ∃ x, (session (2 ^ 23)).Reaches System.anyStep x ∧ x.live.length = 2 ∧
      ∃ n o, o ≠ .looping ∧
        ∀ fuel ≥ n, malloc (2 ^ 23) fuel x.allocator (0x400000 : UInt64).toNat = o := by
  obtain ⟨x, hx, hlive, hfree⟩ := (session (2 ^ 23)).exists_reaches System.anyStep
    (fun x => x.live.length = 2 ∧ x.allocator.freeList = []) [.malloc 4096 0, .malloc 0x200000 1]
    (by decide +kernel)
  exact ⟨x, hx, hlive, (malloc_terminates x.allocator 0x400000).1.mpr (.inr (.inr hfree))⟩

/-- After a superblock was allocated and released, a request for a superblock never ends. -/
theorem not_malloc_terminates :
    ∃ x, (session (2 ^ 22)).Reaches System.anyStep x ∧ x.live = [] ∧
      ∀ fuel, malloc (2 ^ 22) fuel x.allocator (0x200000 : UInt64).toNat = .looping := by
  obtain ⟨x, hx, hlive, hfree⟩ := (session (2 ^ 22)).exists_reaches System.anyStep
    (fun x => x.live = [] ∧ x.allocator.freeList = [0]) [.malloc 0x200000 1, .free 0]
    (by decide +kernel)
  refine ⟨x, hx, hlive, fun fuel => malloc_looping ?_⟩
  rw [RequestEnds, hfree]
  decide +kernel

/-! ### Calls that stay in the device -/

variable (allocatorBytes) in
/-- The superblocks whose entries a `malloc` reads or writes, when it returns. -/
def mallocTouched (fuel : ℕ) (d : DeviceAllocator) (len : ℕ) : List ℕ :=
  let logBlockSize := logBlockSizeOf len
  let idx := logBlockSize - logMinBlock
  if idx < numLists then
    match (d.superblockHeadList idx).first with
    | none => [(acquireSuperblock d).1]
    | some superblockId => [superblockId]
  else
    let needed := numSuperblocksNeeded logBlockSize
    match bestFitLoop needed (scanSegments d.freeList 0 0) fuel
        ⟨1 <<< logNumSuperblocks allocatorBytes, none⟩ with
    | none => []
    | some ⟨_, some allocStart⟩ => (List.range needed).map (allocStart + ·)
    | some ⟨_, none⟩ => (List.range needed).map (d.superblockFreeIdx + ·)

/-- For a request of the size class `l`, the open superblock `s` has a block to take, or, if there
is none, the superblock to be opened is one of the device. -/
def DeviceAllocator.HasBlock (allocatorBytes : ℕ) (d : DeviceAllocator) (l : ℕ) : Option ℕ → Prop
  | none => d.freeList = [] → d.superblockFreeIdx < numSuperblocks allocatorBytes
  | some s => ∃ b ∈ (d.superblocks s).freeBlocks.getLast?, b < 2 ^ (logSuperblockSize - l)

instance : (o : Option ℕ) → Decidable (d.HasBlock allocatorBytes l o)
  | none => inferInstanceAs (Decidable (_ → _))
  | some _ => inferInstanceAs (Decidable (∃ _ ∈ _, _))

/-- The call stays in the device: a `malloc` of a block opens a superblock of the device or takes a
block that the superblock has, and the shift of a `malloc` of superblocks does not wrap. A `free`
neither erases from an empty head list nor reads the length of a run that has none. -/
def Call.Fits (allocatorBytes : ℕ) (x : Session) : Call → Prop
  | .malloc len _ =>
    let logBlockSize := logBlockSizeOf len.toNat
    if logBlockSize - logMinBlock < numLists then
      x.allocator.HasBlock allocatorBytes logBlockSize
        (x.allocator.superblockHeadList (logBlockSize - logMinBlock)).first
    else logBlockSize < 53
  | .free addr =>
    let s := addr / superblockSize
    let sb := x.allocator.superblocks s
    if sb.flags &&& blockAlloc ≠ 0 then
      sb.freeBlocks.length + 1 = 2 ^ (logSuperblockSize - sb.logBlockSize) →
        (x.allocator.superblockHeadList (sb.logBlockSize - logMinBlock)).first ≠ none
    else ∀ id ∈ findBase x.allocator.superblocks s, (x.allocator.superblocks id).freeBlocks ≠ []

instance (allocatorBytes : ℕ) (x : Session) : (c : Call) → Decidable (c.Fits allocatorBytes x)
  | .malloc _ _ => inferInstanceAs (Decidable (ite _ _ _))
  | .free _ => inferInstanceAs (Decidable (ite _ (_ → _) (∀ _ ∈ _, _)))

/-- The numbers of superblocks that the allocator and its live allocations hold are those of the
device. -/
structure InDevice (allocatorBytes : ℕ) (x : Session) : Prop where
  freeIdx_le : x.allocator.superblockFreeIdx ≤ numSuperblocks allocatorBytes
  freeList_lt : ∀ i ∈ x.allocator.freeList, i < numSuperblocks allocatorBytes
  heads_lt : ∀ c, ∀ s ∈ x.allocator.superblockHeadList c, s < numSuperblocks allocatorBytes
  run_le : ∀ s, (x.allocator.superblocks s).flags &&& baseAllocation ≠ 0 →
    ∀ n ∈ (x.allocator.superblocks s).freeBlocks, s + n ≤ numSuperblocks allocatorBytes
  live_lt : ∀ a ∈ x.live, a.superblock < numSuperblocks allocatorBytes

/-! ### Bounds of the parts -/

theorem acquireSuperblock_lt {n : ℕ} (hlist : ∀ i ∈ d.freeList, i < n)
    (hroom : d.freeList = [] → d.superblockFreeIdx < n) : (acquireSuperblock d).1 < n := by
  unfold acquireSuperblock
  cases hfree : d.freeList with
  | nil => exact hroom hfree
  | cons s rest => exact hlist s (by simp [hfree])

theorem mem_acquireSuperblock_freeList {i : ℕ} (h : i ∈ (acquireSuperblock d).2.freeList) :
    i ∈ d.freeList := by
  unfold acquireSuperblock at h
  cases hfree : d.freeList with
  | nil =>
    simp only [hfree] at h
    exact h
  | cons s rest =>
    simp only [hfree] at h
    exact List.mem_cons_of_mem s h

theorem acquireSuperblock_superblocks (d : DeviceAllocator) :
    (acquireSuperblock d).2.superblocks = d.superblocks := by
  unfold acquireSuperblock
  split <;> rfl

theorem acquireSuperblock_superblockHeadList (d : DeviceAllocator) :
    (acquireSuperblock d).2.superblockHeadList = d.superblockHeadList := by
  unfold acquireSuperblock
  split <;> rfl

private theorem unpackFreeListLoop_suffix (ys : List ℕ) (freeIdx : ℕ) :
    (unpackFreeListLoop ys freeIdx).1 <:+ ys ∧ (unpackFreeListLoop ys freeIdx).2 ≤ freeIdx := by
  induction ys generalizing freeIdx with
  | nil => exact ⟨List.suffix_rfl, le_rfl⟩
  | cons y ys ih =>
    rw [unpackFreeListLoop]
    split_ifs
    · obtain ⟨hsuffix, hle⟩ := ih (freeIdx - 1)
      exact ⟨hsuffix.trans (List.suffix_cons y ys), hle.trans (Nat.sub_le _ _)⟩
    · exact ⟨List.suffix_rfl, le_rfl⟩

/-- Giving superblocks back to the upper address space makes the free list and the index smaller. -/
theorem unpackFreeList_bounds (d : DeviceAllocator) :
    (unpackFreeList d).superblockFreeIdx ≤ d.superblockFreeIdx ∧
      ∀ i ∈ (unpackFreeList d).freeList, i ∈ d.freeList := by
  obtain ⟨hsuffix, hle⟩ := unpackFreeListLoop_suffix d.freeList.reverse d.superblockFreeIdx
  exact ⟨hle, fun i hi => List.mem_reverse.mp (hsuffix.subset (List.mem_reverse.mp hi))⟩

theorem releaseSuperblock_bounds (d : DeviceAllocator) (headIdx s : ℕ) :
    (releaseSuperblock d headIdx s).superblockFreeIdx ≤ d.superblockFreeIdx ∧
      (∀ i ∈ (releaseSuperblock d headIdx s).freeList, i = s ∨ i ∈ d.freeList) ∧
      (releaseSuperblock d headIdx s).superblocks = d.superblocks ∧
      (releaseSuperblock d headIdx s).superblockHeadList =
        update d.superblockHeadList headIdx (d.superblockHeadList headIdx).eraseFirst := by
  rw [releaseSuperblock]
  dsimp only
  split_ifs with htop
  · obtain ⟨hle, hmem⟩ := unpackFreeList_bounds { d with
      superblockHeadList := update d.superblockHeadList headIdx
        (d.superblockHeadList headIdx).eraseFirst
      superblockFreeIdx := d.superblockFreeIdx - 1 }
    exact ⟨hle.trans (Nat.sub_le _ _), fun i hi => .inr (hmem i hi), rfl, rfl⟩
  · have hperm := List.perm_insertIdx s d.freeList (upperBound_le_length d.freeList s)
    exact ⟨le_rfl, fun i hi => List.mem_cons.mp (hperm.mem_iff.mp hi), rfl, rfl⟩

theorem getLastD_eq_of_mem {ys : List ℕ} {b : ℕ} (h : b ∈ ys.getLast?) : ys.getLastD 0 = b := by
  rw [List.getLastD_eq_getLast?, Option.mem_def.mp h, Option.getD_some]

theorem mem_of_mem_eraseFirst {t : ℕ} {set : OrderedSet ℕ} (h : t ∈ set.eraseFirst) : t ∈ set :=
  List.mem_of_mem_tail h

/-- Heads that are in the device stay there when a set of them changes to one that is. -/
private theorem heads_lt_update {n c₀ : ℕ} {heads : ℕ → OrderedSet ℕ} {set : OrderedSet ℕ}
    (h : ∀ c, ∀ t ∈ heads c, t < n) (hset : ∀ t ∈ set, t < n) :
    ∀ c, ∀ t ∈ update heads c₀ set c, t < n := by
  intro c t ht
  by_cases hc : c = c₀
  · subst hc
    rw [update_self] at ht
    exact hset t ht
  · rw [update_of_ne hc] at ht
    exact h c t ht

namespace InDevice

variable {x : Session} (h : InDevice allocatorBytes x)
include h

theorem superblockId {a : Allocation} (ha : a ∈ x.live) :
    (a.addr >>> logSuperblockSize) &&& superblockIdMask allocatorBytes = a.superblock :=
  superblockId_eq (h.live_lt a ha)

theorem live_cons {a : Allocation} (ha : a.superblock < numSuperblocks allocatorBytes) :
    ∀ a' ∈ a :: x.live, a'.superblock < numSuperblocks allocatorBytes := by
  intro a' ha'
  obtain rfl | ha' := List.mem_cons.mp ha'
  · exact ha
  · exact h.live_lt a' ha'

private theorem run_le_withFreeBlocks (s : ℕ) (blocks : List ℕ)
    (hblocks : (x.allocator.superblocks s).flags &&& baseAllocation ≠ 0 →
      ∀ n ∈ blocks, s + n ≤ numSuperblocks allocatorBytes) (t : ℕ)
    (ht : (withFreeBlocks x.allocator.superblocks s blocks t).flags &&& baseAllocation ≠ 0) :
    ∀ n ∈ (withFreeBlocks x.allocator.superblocks s blocks t).freeBlocks,
      t + n ≤ numSuperblocks allocatorBytes := by
  rw [withFreeBlocks_flags] at ht
  by_cases hts : t = s
  · subst hts
    rw [withFreeBlocks_freeBlocks_self]
    exact hblocks ht
  · rw [withFreeBlocks_of_ne _ _ hts]
    exact h.run_le t ht

private theorem mallocOpen (hlt : logBlockSizeOf len < 21)
    (hfirst : (x.allocator.superblockHeadList (logBlockSizeOf len - logMinBlock)).first = none)
    (hroom : x.allocator.freeList = [] →
      x.allocator.superblockFreeIdx < numSuperblocks allocatorBytes)
    (hok : mallocBlock x.allocator (logBlockSizeOf len) = .ok (addr, d)) :
    InDevice allocatorBytes ⟨d, ⟨addr, len⟩ :: x.live⟩ := by
  have hs := acquireSuperblock_lt h.freeList_lt hroom
  rw [mallocBlock_open (twelve_le_logBlockSizeOf len) hfirst, Outcome.ok.injEq, Prod.mk.injEq,
    acquireSuperblock_superblocks, acquireSuperblock_superblockHeadList] at hok
  obtain ⟨rfl, rfl⟩ := hok
  refine ⟨acquireSuperblock_freeIdx_le h.freeIdx_le hroom,
    fun i hi => h.freeList_lt i (mem_acquireSuperblock_freeList hi),
    heads_lt_update h.heads_lt fun t ht => ?_, fun t ht => ?_, h.live_cons ?_⟩
  · obtain rfl | ht := OrderedSet.mem_emplace.mp ht
    · exact hs
    · exact h.heads_lt _ t ht
  · dsimp only at ht ⊢
    by_cases hts : t = (acquireSuperblock x.allocator).1
    · rw [hts, update_self] at ht
      exact absurd ht (show ¬ (blockAlloc &&& baseAllocation ≠ 0) by decide)
    · rw [update_of_ne hts] at ht ⊢
      exact h.run_le t ht
  · have hlast : 2 ^ (21 - logBlockSizeOf len) - 1 < 2 ^ (21 - logBlockSizeOf len) :=
      Nat.sub_lt (by positivity) Nat.one_pos
    rw [(Allocation.block_of_addr hlt hlast).1]
    exact hs

private theorem mallocTake (hlt : logBlockSizeOf len < 21)
    (hfirst : (x.allocator.superblockHeadList (logBlockSizeOf len - logMinBlock)).first = some s)
    {b : ℕ} (hb : (x.allocator.superblocks s).freeBlocks.getLastD 0 = b)
    (hblt : b < 2 ^ (21 - logBlockSizeOf len))
    (hok : mallocBlock x.allocator (logBlockSizeOf len) = .ok (addr, d)) :
    InDevice allocatorBytes ⟨d, ⟨addr, len⟩ :: x.live⟩ := by
  rw [mallocBlock_take hfirst, hb, Outcome.ok.injEq, Prod.mk.injEq] at hok
  obtain ⟨rfl, rfl⟩ := hok
  refine ⟨h.freeIdx_le, h.freeList_lt, ?_, h.run_le_withFreeBlocks _ _ fun hbase n hn => ?_,
    h.live_cons ?_⟩
  · dsimp only
    split_ifs
    · exact heads_lt_update h.heads_lt fun t ht => h.heads_lt _ t (mem_of_mem_eraseFirst ht)
    · exact h.heads_lt
  · exact h.run_le s hbase n (List.mem_of_mem_dropLast hn)
  · rw [(Allocation.block_of_addr hlt hblt).1]
    exact h.heads_lt _ s (OrderedSet.mem_of_first hfirst)

private theorem mallocRun
    (hok : mallocSuperblocks allocatorBytes fuel x.allocator (logBlockSizeOf len) = .ok (addr, d)) :
    InDevice allocatorBytes ⟨d, ⟨addr, len⟩ :: x.live⟩ := by
  obtain ⟨-, hnil, hroom, rfl, rfl⟩ := mallocSuperblocks_ok hok
  have hpos := numSuperblocksNeeded_pos (logBlockSizeOf len)
  refine ⟨hroom, h.freeList_lt, h.heads_lt, fun t ht => ?_, h.live_cons ?_⟩
  · dsimp only [markAllocation] at ht ⊢
    split_ifs at ht ⊢ with hstart hinside
    · intro n hn
      obtain rfl := List.mem_singleton.mp hn
      have hle := Nat.mod_le (numSuperblocksNeeded (logBlockSizeOf len)) (2 ^ 16)
      omega
    · exact absurd (Nat.zero_and _) ht
    · exact h.run_le t ht
  · have hle : x.allocator.superblockFreeIdx * superblockSize % 2 ^ 32 / superblockSize ≤
        x.allocator.superblockFreeIdx := by
      calc _ ≤ x.allocator.superblockFreeIdx * superblockSize / superblockSize :=
            Nat.div_le_div_right (Nat.mod_le _ _)
        _ = x.allocator.superblockFreeIdx := Nat.mul_div_cancel _ superblockSize_pos
    exact hle.trans_lt (by omega)

/-- A `malloc` that stays in the device keeps the invariant. -/
theorem malloc {len : UInt64} (hfits : (Call.malloc len fuel).Fits allocatorBytes x)
    (hok : Allocator.malloc allocatorBytes fuel x.allocator len.toNat = .ok (addr, d)) :
    InDevice allocatorBytes ⟨d, ⟨addr, len.toNat⟩ :: x.live⟩ := by
  simp only [Call.Fits, isBlockRequest_iff] at hfits
  obtain ⟨hlt, hfirst, hok⟩ | ⟨s, hlt, hfirst, hok⟩ | ⟨hlarge, hok⟩ := malloc_cases hok
  · rw [if_pos hlt, hfirst] at hfits
    exact h.mallocOpen hlt hfirst hfits hok
  · rw [if_pos hlt, hfirst] at hfits
    obtain ⟨b, hb, hblt⟩ := hfits
    rw [logSuperblockSize_eq] at hblt
    exact h.mallocTake hlt hfirst (getLastD_eq_of_mem hb) hblt hok
  · exact h.mallocRun hok

private theorem freeBlock {live : List Allocation} (hlive : ∀ a ∈ live, a ∈ x.live) {blockId : ℕ}
    (hs : s < numSuperblocks allocatorBytes)
    (hbase : (x.allocator.superblocks s).flags &&& baseAllocation = 0)
    (hok : Allocator.freeBlock x.allocator s blockId = .ok d) :
    InDevice allocatorBytes ⟨d, live⟩ := by
  have hruns := h.run_le_withFreeBlocks s
    ((x.allocator.superblocks s).freeBlocks ++ [blockId % 2 ^ 16]) fun hnot => absurd hbase hnot
  have hlive' : ∀ a ∈ live, a.superblock < numSuperblocks allocatorBytes :=
    fun a ha => h.live_lt a (hlive a ha)
  obtain ⟨-, rfl⟩ | ⟨-, -, rfl⟩ | ⟨-, -, rfl⟩ := freeBlock_cases hok
  · let d₁ : DeviceAllocator := { x.allocator with
      superblocks := withFreeBlocks x.allocator.superblocks s
        ((x.allocator.superblocks s).freeBlocks ++ [blockId % 2 ^ 16]) }
    obtain ⟨hle, hmem, hsb, hheads⟩ := releaseSuperblock_bounds d₁
      ((x.allocator.superblocks s).logBlockSize - logMinBlock) s
    refine ⟨hle.trans h.freeIdx_le, fun i hi => ?_, ?_, ?_, hlive'⟩
    · obtain rfl | hi := hmem i hi
      · exact hs
      · exact h.freeList_lt i hi
    · intro c t ht
      change t ∈ (releaseSuperblock d₁ _ s).superblockHeadList c at ht
      rw [hheads] at ht
      refine heads_lt_update h.heads_lt (fun t ht => ?_) c t ht
      exact h.heads_lt _ t (mem_of_mem_eraseFirst ht)
    · change ∀ t, ((releaseSuperblock d₁ _ s).superblocks t).flags &&& _ ≠ 0 → _
      rw [hsb]
      exact hruns
  · refine ⟨h.freeIdx_le, h.freeList_lt, heads_lt_update h.heads_lt fun t ht => ?_, hruns, hlive'⟩
    obtain rfl | ht := OrderedSet.mem_emplace.mp ht
    · exact hs
    · exact h.heads_lt _ t ht
  · exact ⟨h.freeIdx_le, h.freeList_lt, h.heads_lt, hruns, hlive'⟩

private theorem freeSuperblocks {live : List Allocation} (hlive : ∀ a ∈ live, a ∈ x.live)
    (hok : Allocator.freeSuperblocks x.allocator s = .ok d) :
    InDevice allocatorBytes ⟨d, live⟩ := by
  obtain ⟨id, hfind, hcases⟩ := freeSuperblocks_cases hok
  have hrun := h.run_le id (findBase_eq_some hfind)
  have hruns := h.run_le_withFreeBlocks id [] (by simp)
  have hlive' : ∀ a ∈ live, a.superblock < numSuperblocks allocatorBytes :=
    fun a ha => h.live_lt a (hlive a ha)
  obtain ⟨htop, rfl⟩ | ⟨-, rfl⟩ := hcases
  · obtain ⟨hle, hmem⟩ := unpackFreeList_bounds { x.allocator with
      superblocks := withFreeBlocks x.allocator.superblocks id []
      superblockFreeIdx := id }
    have hid : id ≤ numSuperblocks allocatorBytes := by
      have := h.freeIdx_le
      omega
    exact ⟨hle.trans hid, fun i hi => h.freeList_lt i (hmem i hi), h.heads_lt, hruns, hlive'⟩
  · refine ⟨h.freeIdx_le, fun i hi => ?_, h.heads_lt, hruns, hlive'⟩
    obtain hi | hi := List.mem_append.mp hi
    · exact h.freeList_lt i hi
    · obtain ⟨j, hj, rfl⟩ := List.mem_map.mp hi
      have hlt := List.mem_range.mp hj
      cases hblocks : (x.allocator.superblocks id).freeBlocks with
      | nil => simp [hblocks] at hlt
      | cons n rest =>
        rw [hblocks, List.headD_cons] at hlt
        have := hrun n (by simp [hblocks])
        omega

/-- A `free` of a live allocation keeps the invariant. -/
theorem free (hlive : x.live.any fun a => a.addr == addr)
    (hok : Allocator.free allocatorBytes x.allocator addr = .ok d) :
    InDevice allocatorBytes ⟨d, x.live.eraseP fun a => a.addr == addr⟩ := by
  obtain ⟨a, ha, haddr⟩ := List.any_eq_true.mp hlive
  obtain rfl : a.addr = addr := by simpa using haddr
  have hsub : ∀ a' ∈ x.live.eraseP fun b => b.addr == a.addr, a' ∈ x.live :=
    fun a' ha' => List.mem_of_mem_eraseP ha'
  have hcases := free_cases hok
  simp only [h.superblockId ha] at hcases
  obtain ⟨-, hbase, hok⟩ | ⟨-, hok⟩ := hcases
  · exact h.freeBlock hsub (h.live_lt a ha) hbase hok
  · exact h.freeSuperblocks hsub hok

end InDevice

/-! ### Requests fit the device -/

variable {x : Session}

theorem inDevice_of_reaches
    (hx : (session allocatorBytes).Reaches (fun x c => c.Fits allocatorBytes x) x) :
    InDevice allocatorBytes x := by
  refine hx.invariant ⟨Nat.zero_le _, by simp [session], fun c t ht => ?_, by simp [session],
    by simp [session]⟩ ?_
  · exact absurd ht OrderedSet.notMem_empty
  · intro x c y h hfits hstep
    obtain ⟨len, fuel, addr, d, rfl, hok, rfl⟩ | ⟨addr, d, rfl, hlive, hok, rfl⟩ :=
      Session.step_cases hstep
    · exact h.malloc hfits hok
    · exact h.free hlive hok

theorem numSuperblocks_mul {k : ℕ} (hk : 21 ≤ k) (hk' : k < 64) :
    numSuperblocks (2 ^ k) * superblockSize = 2 ^ k := by
  rw [numSuperblocks, logNumSuperblocks, log2up_two_pow hk', logSuperblockSize_eq,
    Nat.one_shiftLeft, superblockSize_eq, ← pow_add, Nat.sub_add_cancel hk]

/-- The memory ends in the device, and the superblocks `touched`, outside of which no superblock is
changed, are those of the device. -/
private structure WithinDevice (allocatorBytes : ℕ) (x : Session) (d : DeviceAllocator)
    (addr len : ℕ) (touched : List ℕ) : Prop where
  end_le : addr + len ≤ numSuperblocks allocatorBytes * superblockSize
  touched_lt : ∀ i ∈ touched, i < numSuperblocks allocatorBytes
  superblocks_eq : ∀ i, i ∉ touched → d.superblocks i = x.allocator.superblocks i

private theorem block_end_le_device {b : ℕ} (hlt : logBlockSizeOf len < 21)
    (hb : b < 2 ^ (21 - logBlockSizeOf len)) (hs : s < numSuperblocks allocatorBytes) :
    s * superblockSize + b * 2 ^ logBlockSizeOf len + len ≤
      numSuperblocks allocatorBytes * superblockSize :=
  (Allocation.block_end_le hlt hb).trans (Nat.mul_le_mul_right _ hs)

private theorem withinDevice_open (h : InDevice allocatorBytes x) (hlt : logBlockSizeOf len < 21)
    (hfirst : (x.allocator.superblockHeadList (logBlockSizeOf len - logMinBlock)).first = none)
    (hroom : x.allocator.freeList = [] →
      x.allocator.superblockFreeIdx < numSuperblocks allocatorBytes)
    (hok : mallocBlock x.allocator (logBlockSizeOf len) = .ok (addr, d)) :
    WithinDevice allocatorBytes x d addr len [(acquireSuperblock x.allocator).1] := by
  have hs := acquireSuperblock_lt h.freeList_lt hroom
  rw [mallocBlock_open (twelve_le_logBlockSizeOf _) hfirst, Outcome.ok.injEq, Prod.mk.injEq,
    acquireSuperblock_superblocks] at hok
  obtain ⟨rfl, rfl⟩ := hok
  refine ⟨block_end_le_device hlt ?_ hs, fun i hi => List.mem_singleton.mp hi ▸ hs, fun i hi => ?_⟩
  · exact Nat.sub_lt (by positivity) Nat.one_pos
  · exact update_of_ne (List.mem_singleton.not.mp hi) _ _

private theorem withinDevice_take (h : InDevice allocatorBytes x) (hlt : logBlockSizeOf len < 21)
    (hfirst : (x.allocator.superblockHeadList (logBlockSizeOf len - logMinBlock)).first = some s)
    {b : ℕ} (hb : b ∈ (x.allocator.superblocks s).freeBlocks.getLast?)
    (hblt : b < 2 ^ (21 - logBlockSizeOf len))
    (hok : mallocBlock x.allocator (logBlockSizeOf len) = .ok (addr, d)) :
    WithinDevice allocatorBytes x d addr len [s] := by
  have hs := h.heads_lt _ s (OrderedSet.mem_of_first hfirst)
  rw [mallocBlock_take hfirst, getLastD_eq_of_mem hb, Outcome.ok.injEq, Prod.mk.injEq] at hok
  obtain ⟨rfl, rfl⟩ := hok
  refine ⟨block_end_le_device hlt hblt hs, fun i hi => List.mem_singleton.mp hi ▸ hs,
    fun i hi => ?_⟩
  exact withFreeBlocks_of_ne _ _ (List.mem_singleton.not.mp hi)

private theorem markAllocation_of_notMem {superblocks : ℕ → Superblock} {start n i : ℕ} (hn : 0 < n)
    (hi : i ∉ (List.range n).map (start + ·)) :
    markAllocation superblocks start n i = superblocks i := by
  have houtside : ∀ j < n, start + j ≠ i :=
    fun j hj heq => hi (List.mem_map.mpr ⟨j, List.mem_range.mpr hj, heq⟩)
  have hstart : i ≠ start := fun heq => houtside 0 hn heq.symm
  have hinside : ¬ (start < i ∧ i < start + n) := fun ⟨hge, hlt⟩ =>
    houtside (i - start) (by omega) (by omega)
  simp only [markAllocation, if_neg hstart, if_neg hinside]

private theorem withinDevice_run (hlarge : ¬ logBlockSizeOf len < 21)
    (hlog : logBlockSizeOf len < 53)
    (hok : mallocSuperblocks allocatorBytes fuel x.allocator (logBlockSizeOf len) = .ok (addr, d)) :
    WithinDevice allocatorBytes x d addr len ((List.range
      (numSuperblocksNeeded (logBlockSizeOf len))).map (x.allocator.superblockFreeIdx + ·)) := by
  have hlen := le_numSuperblocksNeeded_mul hlarge hlog
  obtain ⟨-, -, hroom, rfl, rfl⟩ := mallocSuperblocks_ok hok
  refine ⟨?_, fun i hi => ?_, fun i hi => ?_⟩
  · calc x.allocator.superblockFreeIdx * superblockSize % 2 ^ 32 + len
        ≤ x.allocator.superblockFreeIdx * superblockSize +
          numSuperblocksNeeded (logBlockSizeOf len) * superblockSize :=
            Nat.add_le_add (Nat.mod_le _ _) hlen
      _ = (x.allocator.superblockFreeIdx + numSuperblocksNeeded (logBlockSizeOf len)) *
            superblockSize := (Nat.add_mul _ _ _).symm
      _ ≤ numSuperblocks allocatorBytes * superblockSize := Nat.mul_le_mul_right _ hroom
  · obtain ⟨j, hj, rfl⟩ := List.mem_map.mp hi
    have hlt := List.mem_range.mp hj
    omega
  · exact markAllocation_of_notMem (numSuperblocksNeeded_pos _) hi

/-- **Requests fit the device.** In a session of calls that stay in the device, the memory that such
a `malloc` returns ends in the device, and the superblocks that it uses, outside of which it changes
no superblock, are those of the device. -/
theorem malloc_fits_device {k : ℕ} (hk : 21 ≤ k) (hk' : k ≤ 37)
    (hx : (session (2 ^ k)).Reaches (fun x c => c.Fits (2 ^ k) x) x) {len : UInt64}
    (hfits : (Call.malloc len fuel).Fits (2 ^ k) x)
    (hok : malloc (2 ^ k) fuel x.allocator len.toNat = .ok (addr, d)) :
    addr + len.toNat ≤ 2 ^ k ∧
      (∀ i ∈ mallocTouched (2 ^ k) fuel x.allocator len.toNat, i < numSuperblocks (2 ^ k)) ∧
      ∀ i, i ∉ mallocTouched (2 ^ k) fuel x.allocator len.toNat →
        d.superblocks i = x.allocator.superblocks i := by
  have h := inDevice_of_reaches hx
  suffices hwithin : WithinDevice (2 ^ k) x d addr len.toNat
      (mallocTouched (2 ^ k) fuel x.allocator len.toNat) from
    ⟨numSuperblocks_mul hk (by omega) ▸ hwithin.end_le, hwithin.touched_lt, hwithin.superblocks_eq⟩
  simp only [Call.Fits, isBlockRequest_iff] at hfits
  simp only [mallocTouched, isBlockRequest_iff]
  obtain ⟨hlt, hfirst, hok⟩ | ⟨s, hlt, hfirst, hok⟩ | ⟨hlarge, hok⟩ := malloc_cases hok
  · simp only [if_pos hlt, hfirst] at hfits ⊢
    exact withinDevice_open h hlt hfirst hfits hok
  · simp only [if_pos hlt, hfirst] at hfits ⊢
    obtain ⟨b, hb, hblt⟩ := hfits
    rw [logSuperblockSize_eq] at hblt
    exact withinDevice_take h hlt hfirst hb hblt hok
  · rw [if_neg hlarge] at hfits ⊢
    simp only [mallocSuperblocks_bestFitLoop hok]
    exact withinDevice_run hlarge hfits hok

/-- In a device of one superblock, the second half of the superblock is returned. -/
theorem malloc_fits_device_second :
    ∃ x, (session (2 ^ 21)).Reaches (fun x c => c.Fits (2 ^ 21) x) x ∧ ∃ d,
      malloc (2 ^ 21) 0 x.allocator (0x100000 : UInt64).toNat = .ok (0, d) ∧
      0 + (0x100000 : UInt64).toNat ≤ 2 ^ 21 := by
  obtain ⟨x, hx, hfits, hok⟩ := (session (2 ^ 21)).exists_reaches (fun x c => c.Fits (2 ^ 21) x)
    (fun x => (Call.malloc 0x100000 0).Fits (2 ^ 21) x ∧
      (malloc (2 ^ 21) 0 x.allocator (0x100000 : UInt64).toNat).toOption.map Prod.fst = some 0)
    [.malloc 0x100000 0] (by decide +kernel)
  obtain ⟨⟨addr, d⟩, hd, rfl⟩ := Option.map_eq_some_iff.mp hok
  have hd' := Outcome.toOption_eq_some.mp hd
  exact ⟨x, hx, d, hd', (malloc_fits_device (by norm_num) (by norm_num) hx hfits hd').1⟩

/-- In a device of two superblocks, the block at `0x300000` is freed as block 3 of the second one.
The next request of its size is given that block, which lies past the end of the device. -/
theorem not_malloc_fits_device :
    ∃ x, (session (2 ^ 22)).Reaches System.anyStep x ∧ ∃ d,
      malloc (2 ^ 22) 0 x.allocator (0x100000 : UInt64).toNat = .ok (0x500000, d) ∧
      ¬ 0x500000 + (0x100000 : UInt64).toNat ≤ 2 ^ 22 := by
  obtain ⟨x, hx, hok⟩ := (session (2 ^ 22)).exists_reaches System.anyStep
    (fun x => (malloc (2 ^ 22) 0 x.allocator (0x100000 : UInt64).toNat).toOption.map Prod.fst =
      some 0x500000)
    [.malloc 0x200000 1, .malloc 0x100000 0, .malloc 0x100000 0, .free 0x300000] (by decide +kernel)
  obtain ⟨⟨addr, d⟩, hd, rfl⟩ := Option.map_eq_some_iff.mp hok
  exact ⟨x, hx, d, Outcome.toOption_eq_some.mp hd, by decide⟩

end Beethoven.Allocator
