import Beethoven.Allocator.Requests

/-!
# Full release

When every allocation has been released, the allocator should be as it was constructed. Three slips
of the source keep it from that: a run of superblocks that ends at the upper address space, or one
superblock below it, is not given back to it, and a run is appended to the free list whatever its
place; a superblock that becomes free may leave another one out of its head list; and the block
numbers that `free` records reach into the superblock number, so that a later `malloc` may take a
block of another superblock. `Call.Orderly` says that a call meets none of this.

The recorded block numbers are wrong in most sessions, but do no harm until they are taken. The
allocator is therefore compared with one that has the numbers cut to their width (`Shadows`): the
session keeps the second allocator consistent.
-/

namespace Beethoven.Allocator

open Lib

variable {allocatorBytes fuel len l s addr : ℕ} {d d' e : DeviceAllocator} {x : Session}

/-! ### Orderly calls -/

/-- The call meets none of the slips: a `malloc` of a block has a block to take or a superblock to
open, and a `malloc` of superblocks stays within 32 bits; a `free` that empties a superblock finds
it first in its head list; a `free` of a run finds it above the free list and ends neither at the
upper address space nor one superblock below it. -/
def Call.Orderly (allocatorBytes : ℕ) (x : Session) : Call → Prop
  | .malloc len _ =>
    let logBlockSize := logBlockSizeOf len.toNat
    if logBlockSize - logMinBlock < numLists then
      x.allocator.HasBlock allocatorBytes logBlockSize
        (x.allocator.superblockHeadList (logBlockSize - logMinBlock)).first
    else logBlockSize < 53 ∧ x.allocator.superblockFreeIdx * superblockSize < 2 ^ 32
  | .free addr =>
    let s := addr / superblockSize
    let sb := x.allocator.superblocks s
    if sb.flags = blockAlloc then
      sb.freeBlocks.length + 1 = 2 ^ (logSuperblockSize - sb.logBlockSize) →
        (x.allocator.superblockHeadList (sb.logBlockSize - logMinBlock)).first = some s
    else
      s + sb.freeBlocks.headD 0 ≠ x.allocator.superblockFreeIdx ∧
        s + sb.freeBlocks.headD 0 + 1 ≠ x.allocator.superblockFreeIdx ∧
        ∀ i ∈ x.allocator.freeList, i < s

instance (allocatorBytes : ℕ) (x : Session) : (c : Call) → Decidable (c.Orderly allocatorBytes x)
  | .malloc _ _ => inferInstanceAs (Decidable (ite _ _ _))
  | .free _ => inferInstanceAs (Decidable (ite _ (_ → _) _))

/-! ### The allocator with the right block numbers -/

/-- `sb'` is the superblock `sb` with its free blocks numbered within the superblock. -/
structure Superblock.Shadows (sb sb' : Superblock) : Prop where
  logBlockSize : sb'.logBlockSize = sb.logBlockSize
  flags : sb'.flags = sb.flags
  blocks : sb.flags = blockAlloc →
    sb'.freeBlocks = sb.freeBlocks.map (· % 2 ^ (21 - sb.logBlockSize))
  runs : sb.flags = baseAllocation → sb'.freeBlocks = sb.freeBlocks

/-- `d'` is the allocator `d` with the free blocks of every superblock numbered within the
superblock. -/
structure Shadows (d d' : DeviceAllocator) : Prop where
  freeIdx : d'.superblockFreeIdx = d.superblockFreeIdx
  freeList : d'.freeList = d.freeList
  heads : d'.superblockHeadList = d.superblockHeadList
  superblocks : ∀ s, (d.superblocks s).Shadows (d'.superblocks s)

theorem Superblock.Shadows.of_lt {sb : Superblock}
    (h : ∀ b ∈ sb.freeBlocks, b < 2 ^ (21 - sb.logBlockSize)) : sb.Shadows sb where
  logBlockSize := rfl
  flags := rfl
  blocks _ := ((List.map_congr_left fun b hb => Nat.mod_eq_of_lt (h b hb)).trans
    (List.map_id' _)).symm
  runs _ := rfl

theorem Superblock.Shadows.of_base {sb sb' : Superblock} {blocks : List ℕ}
    (h : sb.Shadows sb') :
    Superblock.Shadows { sb with flags := baseAllocation, freeBlocks := blocks }
      { sb' with flags := baseAllocation, freeBlocks := blocks } where
  logBlockSize := h.logBlockSize
  flags := rfl
  blocks hblock := absurd hblock (show baseAllocation ≠ blockAlloc by decide)
  runs _ := rfl

theorem Superblock.Shadows.of_interior {sb sb' : Superblock} (h : sb.Shadows sb') :
    Superblock.Shadows { sb with flags := 0 } { sb' with flags := 0 } where
  logBlockSize := h.logBlockSize
  flags := rfl
  blocks hblock := absurd hblock (show 0 ≠ blockAlloc by decide)
  runs hbase := absurd hbase (show 0 ≠ baseAllocation by decide)

theorem Superblock.Shadows.update {sb sb' : ℕ → Superblock} (h : ∀ s, (sb s).Shadows (sb' s))
    {t t' : Superblock} (ht : t.Shadows t') (i : ℕ) :
    (Function.update sb s t i).Shadows (Function.update sb' s t' i) := by
  by_cases his : i = s
  · subst his
    rw [Function.update_self, Function.update_self]
    exact ht
  · rw [Function.update_of_ne his, Function.update_of_ne his]
    exact h i

theorem Superblock.Shadows.markAllocation {sb sb' : ℕ → Superblock}
    (h : ∀ s, (sb s).Shadows (sb' s)) (allocStart needed i : ℕ) :
    (markAllocation sb allocStart needed i).Shadows
      (Allocator.markAllocation sb' allocStart needed i) := by
  simp only [Allocator.markAllocation]
  split_ifs
  · exact (h i).of_base
  · exact (h i).of_interior
  · exact h i

theorem shadows_init : Shadows ({} : DeviceAllocator) {} :=
  ⟨rfl, rfl, rfl, fun _ => .of_lt (by simp)⟩

namespace Shadows

variable (h : Shadows d d')
include h

theorem used_eq : d'.used = d.used := by
  rw [DeviceAllocator.used, h.freeIdx, h.freeList, DeviceAllocator.used]

theorem acquireSuperblock :
    (acquireSuperblock d').1 = (acquireSuperblock d).1 ∧
      Shadows (Allocator.acquireSuperblock d).2 (Allocator.acquireSuperblock d').2 := by
  simp only [Allocator.acquireSuperblock, h.freeList, h.freeIdx]
  cases d.freeList with
  | nil | cons s rest => exact ⟨rfl, rfl, rfl, h.heads, h.superblocks⟩

theorem releaseSuperblock (headIdx s : ℕ) :
    Shadows (releaseSuperblock d headIdx s) (Allocator.releaseSuperblock d' headIdx s) := by
  simp only [Allocator.releaseSuperblock, unpackFreeList, h.freeIdx, h.freeList, h.heads]
  split_ifs
  · exact ⟨rfl, rfl, rfl, h.superblocks⟩
  · exact ⟨rfl, rfl, rfl, h.superblocks⟩

private theorem mallocOpen {l : ℕ} (hge : 12 ≤ l)
    (hfirst : (d.superblockHeadList (l - logMinBlock)).first = none)
    (hok : mallocBlock d l = .ok (addr, e)) :
    ∃ e', mallocBlock d' l = .ok (addr, e') ∧ Shadows e e' := by
  have hfirst' := hfirst
  rw [← h.heads] at hfirst'
  obtain ⟨hs, hacquire⟩ := h.acquireSuperblock
  rw [mallocBlock_open hge hfirst, Outcome.ok.injEq, Prod.mk.injEq] at hok
  obtain ⟨rfl, rfl⟩ := hok
  rw [mallocBlock_open hge hfirst', hs]
  refine ⟨_, rfl, hacquire.freeIdx, hacquire.freeList, ?_, ?_⟩
  · rw [hacquire.heads]
  · refine Superblock.Shadows.update hacquire.superblocks (.of_lt fun b hb => ?_)
    have := List.mem_range.mp hb
    dsimp only
    omega

/-- The last free block of a superblock is taken on both sides, when its number is right. -/
private theorem mallocTake {b l : ℕ}
    (hfirst : (d.superblockHeadList (l - logMinBlock)).first = some s)
    (hflags : (d.superblocks s).flags = blockAlloc) (hlog : (d.superblocks s).logBlockSize = l)
    (hb : b ∈ (d.superblocks s).freeBlocks.getLast?) (hblt : b < 2 ^ (21 - l))
    (hok : mallocBlock d l = .ok (addr, e)) :
    ∃ e', mallocBlock d' l = .ok (addr, e') ∧ Shadows e e' := by
  have hfirst' := hfirst
  rw [← h.heads] at hfirst'
  have hs := h.superblocks s
  have hblocks := hs.blocks hflags
  rw [hlog] at hblocks
  have hb' : b ∈ (d'.superblocks s).freeBlocks.getLast? := by
    rw [hblocks, List.getLast?_map, Option.mem_def.mp hb]
    exact congrArg some (Nat.mod_eq_of_lt hblt)
  have hdrop : (d'.superblocks s).freeBlocks.dropLast =
      (d.superblocks s).freeBlocks.dropLast.map (· % 2 ^ (21 - l)) := by
    rw [hblocks, List.map_dropLast]
  rw [mallocBlock_take hfirst, getLastD_eq_of_mem hb, Outcome.ok.injEq, Prod.mk.injEq] at hok
  obtain ⟨rfl, rfl⟩ := hok
  rw [mallocBlock_take hfirst', getLastD_eq_of_mem hb']
  refine ⟨_, rfl, h.freeIdx, h.freeList, ?_, Superblock.Shadows.update h.superblocks ?_⟩
  · simp only [hdrop, List.map_eq_nil_iff, h.heads]
  · refine ⟨hs.logBlockSize, hs.flags, fun _ => ?_, fun hbase => ?_⟩
    · rw [hdrop, hlog]
    · exact absurd (hflags.symm.trans hbase) (by decide)

/-- A `malloc` makes the same step on both sides, when the block number that it takes is right. -/
theorem malloc (hcons : Consistent allocatorBytes ⟨d', x.live⟩) {len : UInt64}
    (hd : x.allocator = d) (horderly : (Call.malloc len fuel).Orderly allocatorBytes x)
    (hok : Allocator.malloc allocatorBytes fuel d len.toNat = .ok (addr, e)) :
    ∃ e', Allocator.malloc allocatorBytes fuel d' len.toNat = .ok (addr, e') ∧ Shadows e e' := by
  subst hd
  simp only [Call.Orderly, isBlockRequest_iff] at horderly
  simp only [Allocator.malloc, isBlockRequest_iff]
  obtain ⟨hlt, hfirst, hok⟩ | ⟨s, hlt, hfirst, hok⟩ | ⟨hlarge, hok⟩ := malloc_cases hok
  · rw [if_pos hlt]
    exact h.mallocOpen (twelve_le_logBlockSizeOf len.toNat) hfirst hok
  · rw [if_pos hlt, hfirst] at horderly
    obtain ⟨b, hb, hblt⟩ := horderly
    rw [logSuperblockSize_eq] at hblt
    -- the superblock is cut into blocks of the size class
    obtain ⟨⟨-, hflags⟩, hlog, -⟩ :=
      (hcons.layout.mem_heads _ s).mp (OrderedSet.mem_of_first (h.heads ▸ hfirst))
    rw [(h.superblocks s).flags] at hflags
    rw [(h.superblocks s).logBlockSize, ← logBlockSizeOf_eq_add] at hlog
    rw [if_pos hlt]
    exact h.mallocTake hfirst hflags hlog hb hblt hok
  · rw [if_neg hlarge, mallocSuperblocks_congr hok h.freeList h.freeIdx]
    obtain ⟨-, -, -, -, rfl⟩ := mallocSuperblocks_ok hok
    exact ⟨_, rfl, rfl, h.freeList, h.heads, Superblock.Shadows.markAllocation h.superblocks _ _⟩

/-- The release of a block makes the same step on both sides, the number that is recorded on the
right being that of the block. -/
theorem freeBlock {blockId b : ℕ} (hflags : (d.superblocks s).flags = blockAlloc)
    (hb : blockId % 2 ^ 16 % 2 ^ (21 - (d.superblocks s).logBlockSize) = b % 2 ^ 16)
    (hok : Allocator.freeBlock d s blockId = .ok e) :
    ∃ e', Allocator.freeBlock d' s b = .ok e' ∧ Shadows e e' := by
  have hs := h.superblocks s
  have hblocks : (d'.superblocks s).freeBlocks ++ [b % 2 ^ 16] =
      ((d.superblocks s).freeBlocks ++ [blockId % 2 ^ 16]).map
        (· % 2 ^ (21 - (d.superblocks s).logBlockSize)) := by
    rw [List.map_append, ← hs.blocks hflags, List.map_singleton, hb]
  have hlength := congrArg List.length hblocks
  rw [List.length_map] at hlength
  -- the superblock with one more free block
  have hnew : Superblock.Shadows
      { d.superblocks s with freeBlocks := (d.superblocks s).freeBlocks ++ [blockId % 2 ^ 16] }
      { d'.superblocks s with freeBlocks := (d'.superblocks s).freeBlocks ++ [b % 2 ^ 16] } :=
    ⟨hs.logBlockSize, hs.flags, fun _ => hblocks, fun hbase => absurd (hflags.symm.trans hbase)
      (by decide)⟩
  have hd : ∀ heads, Shadows
      { d with
        superblocks := withFreeBlocks d.superblocks s
          ((d.superblocks s).freeBlocks ++ [blockId % 2 ^ 16])
        superblockHeadList := heads }
      { d' with
        superblocks := withFreeBlocks d'.superblocks s
          ((d'.superblocks s).freeBlocks ++ [b % 2 ^ 16])
        superblockHeadList := heads } :=
    fun heads => ⟨h.freeIdx, h.freeList, rfl, Superblock.Shadows.update h.superblocks hnew⟩
  rw [freeBlock_eq] at hok ⊢
  simp only [hlength, hs.logBlockSize, h.heads] at hok ⊢
  split_ifs at hok ⊢
  · exact ⟨_, rfl, Outcome.ok.inj hok ▸ (hd d.superblockHeadList).releaseSuperblock _ s⟩
  · exact ⟨_, rfl, Outcome.ok.inj hok ▸ hd _⟩
  · exact ⟨_, rfl, Outcome.ok.inj hok ▸ hd _⟩

theorem freeSuperblocks (hbase : (d.superblocks s).flags = baseAllocation)
    (hok : Allocator.freeSuperblocks d s = .ok e) :
    ∃ e', Allocator.freeSuperblocks d' s = .ok e' ∧ Shadows e e' := by
  have hs := h.superblocks s
  have hfind : ∀ {d : DeviceAllocator}, (d.superblocks s).flags = baseAllocation →
      findBase d.superblocks s = some s := fun hflags => findBase_self (by rw [hflags]; decide)
  have hnew : Superblock.Shadows { d.superblocks s with freeBlocks := [] }
      { d'.superblocks s with freeBlocks := [] } :=
    ⟨hs.logBlockSize, hs.flags, fun _ => rfl, fun _ => rfl⟩
  have hsb := Superblock.Shadows.update (s := s) h.superblocks hnew
  simp only [Allocator.freeSuperblocks, hfind hbase, hfind (hs.flags.trans hbase), hs.runs hbase,
    unpackFreeList, h.freeIdx, h.freeList] at hok ⊢
  split_ifs at hok ⊢
  · exact ⟨_, rfl, Outcome.ok.inj hok ▸ ⟨rfl, rfl, h.heads, hsb⟩⟩
  · exact ⟨_, rfl, Outcome.ok.inj hok ▸ ⟨rfl, rfl, h.heads, hsb⟩⟩

end Shadows

/-! ### The free list -/

/-- The free list is increasing, and the superblock below the upper address space is not in it. -/
structure DeviceAllocator.Tight (d : DeviceAllocator) : Prop where
  sorted : d.freeList.Pairwise (· < ·)
  below : ∀ i ∈ d.freeList, i + 1 < d.superblockFreeIdx

namespace DeviceAllocator.Tight

theorem of_freeList_eq_nil (h : d.freeList = []) : d.Tight := by
  constructor
  · rw [h]
    exact List.Pairwise.nil
  · intro i hi
    rw [h] at hi
    exact absurd hi List.not_mem_nil

private theorem unpackFreeListLoop_spec (ys : List ℕ) (freeIdx : ℕ) (hys : ys.Pairwise (· > ·))
    (hlt : ∀ i ∈ ys, i < freeIdx) :
    (unpackFreeListLoop ys freeIdx).1.Pairwise (· > ·) ∧
      ∀ i ∈ (unpackFreeListLoop ys freeIdx).1, i + 1 < (unpackFreeListLoop ys freeIdx).2 := by
  induction ys generalizing freeIdx with
  | nil => simp [unpackFreeListLoop]
  | cons y ys ih =>
    obtain ⟨hy, hys'⟩ := List.pairwise_cons.mp hys
    have hylt := hlt y List.mem_cons_self
    rw [unpackFreeListLoop]
    split_ifs with htop
    · refine ih _ hys' fun i hi => ?_
      have := hy i hi
      omega
    · refine ⟨hys, fun i hi => ?_⟩
      obtain rfl | hi := List.mem_cons.mp hi
      · dsimp only
        omega
      · have := hy i hi
        dsimp only
        omega

/-- Giving superblocks back to the upper address space leaves no superblock of the free list below
it. -/
theorem unpackFreeList (hsorted : d.freeList.Pairwise (· < ·))
    (hlt : ∀ i ∈ d.freeList, i < d.superblockFreeIdx) : (unpackFreeList d).Tight := by
  obtain ⟨hpair, hbelow⟩ := unpackFreeListLoop_spec d.freeList.reverse d.superblockFreeIdx
    (List.pairwise_reverse.mpr hsorted) (fun i hi => hlt i (List.mem_reverse.mp hi))
  exact ⟨List.pairwise_reverse.mpr hpair, fun i hi => hbelow i (List.mem_reverse.mp hi)⟩

variable (h : d.Tight)
include h

theorem acquireSuperblock : (acquireSuperblock d).2.Tight := by
  unfold Allocator.acquireSuperblock
  cases hfree : d.freeList with
  | nil => exact of_freeList_eq_nil rfl
  | cons s rest =>
    have hsorted := h.sorted
    have hbelow := h.below
    rw [hfree] at hsorted hbelow
    exact ⟨(List.pairwise_cons.mp hsorted).2, fun i hi => hbelow i (List.mem_cons_of_mem s hi)⟩

theorem releaseSuperblock (headIdx : ℕ) (hs : s ∈ d.used) :
    (releaseSuperblock d headIdx s).Tight := by
  obtain ⟨hslt, hsnot⟩ := hs
  rw [Allocator.releaseSuperblock]
  dsimp only
  split_ifs with htop
  · refine unpackFreeList h.sorted fun i hi => ?_
    have := h.below i hi
    dsimp only
    omega
  · refine ⟨pairwise_insertIdx_upperBound h.sorted hsnot, fun i hi => ?_⟩
    obtain rfl | hi := List.eq_or_mem_of_mem_insertIdx hi
    · dsimp only
      omega
    · exact h.below i hi

theorem malloc (hok : malloc allocatorBytes fuel d len = .ok (addr, e)) : e.Tight := by
  obtain ⟨-, hfirst, hok⟩ | ⟨s, -, hfirst, hok⟩ | ⟨-, hok⟩ := malloc_cases hok
  · rw [mallocBlock_open (twelve_le_logBlockSizeOf len) hfirst, Outcome.ok.injEq,
      Prod.mk.injEq] at hok
    obtain ⟨-, rfl⟩ := hok
    exact ⟨h.acquireSuperblock.sorted, h.acquireSuperblock.below⟩
  · rw [mallocBlock_take hfirst, Outcome.ok.injEq, Prod.mk.injEq] at hok
    obtain ⟨-, rfl⟩ := hok
    exact ⟨h.sorted, h.below⟩
  · obtain ⟨-, hnil, -, -, rfl⟩ := mallocSuperblocks_ok hok
    exact of_freeList_eq_nil hnil

theorem freeBlock {blockId : ℕ} (hs : s ∈ d.used) (hok : freeBlock d s blockId = .ok e) :
    e.Tight := by
  obtain ⟨-, rfl⟩ | ⟨-, -, rfl⟩ | ⟨-, -, rfl⟩ := freeBlock_cases hok
  · have hd : DeviceAllocator.Tight { d with
        superblocks := withFreeBlocks d.superblocks s
          ((d.superblocks s).freeBlocks ++ [blockId % 2 ^ 16]) } := ⟨h.sorted, h.below⟩
    exact hd.releaseSuperblock _ hs
  · exact ⟨h.sorted, h.below⟩
  · exact ⟨h.sorted, h.below⟩

/-- A run above the free list that ends below the upper address space keeps the free list in
order. -/
theorem freeSuperblocks {n : ℕ} (hfind : findBase d.superblocks s = some s)
    (hn : (d.superblocks s).freeBlocks.headD 0 = n) (hend : s + n < d.superblockFreeIdx)
    (hne : s + n + 1 ≠ d.superblockFreeIdx) (habove : ∀ i ∈ d.freeList, i < s)
    (hok : freeSuperblocks d s = .ok e) : e.Tight := by
  obtain ⟨id, hfind', hcases⟩ := freeSuperblocks_cases hok
  obtain rfl : s = id := Option.some.inj (hfind.symm.trans hfind')
  simp only [hn] at hcases
  obtain ⟨htop, -⟩ | ⟨-, rfl⟩ := hcases
  · exact absurd htop hne
  · refine ⟨List.pairwise_append.mpr ⟨h.sorted, ?_, fun i hi j hj => ?_⟩, fun i hi => ?_⟩
    · exact List.pairwise_map.mpr (List.pairwise_lt_range.imp fun hlt => by omega)
    · obtain ⟨j, -, rfl⟩ := List.mem_map.mp hj
      exact (habove i hi).trans_le (Nat.le_add_right _ _)
    · obtain hi | hi := List.mem_append.mp hi
      · exact h.below i hi
      · obtain ⟨j, hj, rfl⟩ := List.mem_map.mp hi
        have := List.mem_range.mp hj
        dsimp only
        omega

end DeviceAllocator.Tight

/-! ### Sessions of orderly calls -/

/-- The free list is in order, and the allocator with the right block numbers is consistent. -/
structure Restorable (allocatorBytes : ℕ) (x : Session) : Prop where
  tight : x.allocator.Tight
  shadow : ∃ d', Shadows x.allocator d' ∧ Consistent allocatorBytes ⟨d', x.live⟩

namespace Restorable

/-- An orderly `malloc` that returns keeps the invariant. -/
theorem malloc (h : Restorable allocatorBytes x) {len : UInt64}
    (horderly : (Call.malloc len fuel).Orderly allocatorBytes x)
    (hok : Allocator.malloc allocatorBytes fuel x.allocator len.toNat = .ok (addr, e)) :
    Restorable allocatorBytes ⟨e, ⟨addr, len.toNat⟩ :: x.live⟩ := by
  obtain ⟨d', hshadow, hcons⟩ := h.shadow
  obtain ⟨e', hok', hshadow'⟩ := hshadow.malloc hcons rfl horderly hok
  suffices hsafe : (Call.malloc len fuel).Safe allocatorBytes ⟨d', x.live⟩ from
    ⟨h.tight.malloc hok, e', hshadow', hcons.malloc hsafe hok'⟩
  simp only [Call.Orderly] at horderly
  simp only [Call.Safe, hshadow.heads, hshadow.freeList, hshadow.freeIdx]
  split_ifs at horderly ⊢
  · intro hfirst
    rw [hfirst] at horderly
    exact horderly
  · exact horderly

private theorem freeBlock (h : Restorable allocatorBytes x) {a : Allocation} (ha : a ∈ x.live)
    {d' : DeviceAllocator} (hshadow : Shadows x.allocator d')
    (hcons : Consistent allocatorBytes ⟨d', x.live⟩) (hsmall : a.IsSmall)
    (horderly : (Call.free a.addr).Orderly allocatorBytes x)
    (hok : Allocator.free allocatorBytes x.allocator a.addr = .ok e) :
    Restorable allocatorBytes ⟨e, x.live.eraseP fun a' => a'.addr == a.addr⟩ := by
  have hsb := hshadow.superblocks a.superblock
  have hab := hcons.layout.placedBlock ha hsmall
  have hflags := hsb.flags ▸ hab.flags
  have hlog : (x.allocator.superblocks a.superblock).logBlockSize = a.logBlock :=
    hsb.logBlockSize ▸ hab.logBlockSize
  have hcases := free_cases hok
  simp only [hcons.superblockId ha] at hcases
  simp only [Call.Orderly, show a.addr / superblockSize = a.superblock from rfl] at horderly
  rw [if_pos hflags, hlog, logSuperblockSize_eq] at horderly
  rw [hflags, hlog] at hcases
  obtain ⟨-, -, hok⟩ | ⟨hnot, -⟩ := hcases
  · have hmod := hab.block_mod
    have hnumber := hab.recorded_mod
    rw [← hlog, ← hmod] at hnumber
    obtain ⟨e', hok', hshadow'⟩ := hshadow.freeBlock hflags hnumber (hlog ▸ hok)
    refine ⟨h.tight.freeBlock (hshadow.used_eq ▸ hab.used) hok, e', hshadow', ?_⟩
    refine hcons.freeBlock ha hsmall hmod (fun hfull => ?_) hok'
    have hlength := congrArg List.length (hsb.blocks hflags)
    rw [List.length_map] at hlength
    change (d'.superblocks _).freeBlocks.length + 1 = _ at hfull
    change (d'.superblockHeadList _).first = _
    rw [hlength] at hfull
    rw [hshadow.heads]
    exact horderly hfull
  · exact absurd hnot (by decide)

private theorem freeRun (h : Restorable allocatorBytes x) {a : Allocation} (ha : a ∈ x.live)
    {d' : DeviceAllocator} (hshadow : Shadows x.allocator d')
    (hcons : Consistent allocatorBytes ⟨d', x.live⟩) (hlarge : ¬ a.IsSmall)
    (horderly : (Call.free a.addr).Orderly allocatorBytes x)
    (hok : Allocator.free allocatorBytes x.allocator a.addr = .ok e) :
    Restorable allocatorBytes ⟨e, x.live.eraseP fun a' => a'.addr == a.addr⟩ := by
  have hsb := hshadow.superblocks a.superblock
  have har := hcons.layout.placedRun ha hlarge
  have hflags := hsb.flags ▸ har.flags
  have hblocks : (x.allocator.superblocks a.superblock).freeBlocks = [a.span] :=
    hsb.runs hflags ▸ har.freeBlocks
  have hne : ¬ baseAllocation = blockAlloc := by decide
  have hcases := free_cases hok
  simp only [hcons.superblockId ha] at hcases
  simp only [Call.Orderly, show a.addr / superblockSize = a.superblock from rfl] at horderly
  rw [hflags, if_neg hne, hblocks, List.headD_cons] at horderly
  rw [hflags] at hcases
  obtain ⟨hnot, -⟩ | ⟨-, hok⟩ := hcases
  · exact absurd hnot (by decide)
  · obtain ⟨htop, hend, habove⟩ := horderly
    obtain ⟨e', hok', hshadow'⟩ := hshadow.freeSuperblocks hflags hok
    -- the last superblock of the run is in use
    have hlast := (har.used (a.superblock + a.span - 1) (by
      have := har.span_pos
      constructor <;> omega)).1
    change _ < d'.superblockFreeIdx at hlast
    rw [hshadow.freeIdx] at hlast
    refine ⟨?_, e', hshadow', hcons.freeRun ha hlarge ?_ hok'⟩
    · have hself := findBase_self (by rw [hflags]; decide)
      refine h.tight.freeSuperblocks hself ?_ ?_ hend habove hok
      · rw [hblocks, List.headD_cons]
      · omega
    · change _ ≠ d'.superblockFreeIdx
      rw [hshadow.freeIdx]
      exact hend

/-- An orderly `free` of a live allocation that returns keeps the invariant. -/
theorem free (h : Restorable allocatorBytes x) (hlive : x.live.any fun a => a.addr == addr)
    (horderly : (Call.free addr).Orderly allocatorBytes x)
    (hok : Allocator.free allocatorBytes x.allocator addr = .ok e) :
    Restorable allocatorBytes ⟨e, x.live.eraseP fun a => a.addr == addr⟩ := by
  obtain ⟨d', hshadow, hcons⟩ := h.shadow
  obtain ⟨a, ha, haddr⟩ := List.any_eq_true.mp hlive
  obtain rfl : a.addr = addr := by simpa using haddr
  by_cases hsmall : a.IsSmall
  · exact h.freeBlock ha hshadow hcons hsmall horderly hok
  · exact h.freeRun ha hshadow hcons hsmall horderly hok

theorem init (allocatorBytes : ℕ) : Restorable allocatorBytes (session allocatorBytes).init :=
  ⟨.of_freeList_eq_nil rfl, {}, shadows_init, consistent_init allocatorBytes⟩

theorem used_eq_empty (h : Restorable allocatorBytes x) (hlive : x.live = []) :
    x.allocator.used = ∅ := by
  obtain ⟨d', hshadow, hcons⟩ := h.shadow
  rw [← hshadow.used_eq]
  refine Set.eq_empty_of_forall_notMem fun i hi => ?_
  obtain ⟨a, ha, -⟩ := hcons.layout.owned i hi
  rw [hlive] at ha
  exact absurd ha List.not_mem_nil

/-- When nothing is live, the upper address space is all of the device and the lists are empty. -/
theorem of_live_eq_nil (h : Restorable allocatorBytes x) (hlive : x.live = []) :
    x.allocator.superblockFreeIdx = 0 ∧ x.allocator.freeList = [] ∧
      ∀ c, x.allocator.superblockHeadList c = .empty := by
  have hused := h.used_eq_empty hlive
  have hidx : x.allocator.superblockFreeIdx = 0 := by
    by_contra hpos
    -- otherwise the last superblock would be in the free list
    have htop : x.allocator.superblockFreeIdx - 1 ∈ x.allocator.freeList := by
      by_contra hnot
      have hmem : x.allocator.superblockFreeIdx - 1 ∈ x.allocator.used := ⟨by omega, hnot⟩
      rw [hused] at hmem
      exact absurd hmem (Set.notMem_empty _)
    have := h.tight.below _ htop
    omega
  refine ⟨hidx, List.eq_nil_iff_forall_not_mem.mpr fun i hi => ?_, fun c => ?_⟩
  · have := h.tight.below i hi
    omega
  · obtain ⟨d', hshadow, hcons⟩ := h.shadow
    refine OrderedSet.eq_empty fun s hs => ?_
    rw [← hshadow.heads] at hs
    have hmem := ((hcons.layout.mem_heads c s).mp hs).1.1
    change s ∈ d'.used at hmem
    rw [hshadow.used_eq, hused] at hmem
    exact absurd hmem (Set.notMem_empty s)

end Restorable

theorem restorable_of_reaches
    (hx : (session allocatorBytes).Reaches (fun x c => c.Orderly allocatorBytes x) x) :
    Restorable allocatorBytes x := by
  refine hx.invariant (Restorable.init allocatorBytes) ?_
  intro x c y h horderly hstep
  obtain ⟨len, fuel, addr, d, rfl, hok, rfl⟩ | ⟨addr, d, rfl, hlive, hok, rfl⟩ :=
    Session.step_cases hstep
  · exact h.malloc horderly hok
  · exact h.free hlive horderly hok

/-- An allocator with nothing in use serves the requests that a new one serves, at the same
addresses. -/
theorem malloc_of_restored (hidx : d.superblockFreeIdx = 0) (hfree : d.freeList = [])
    (hheads : ∀ c, d.superblockHeadList c = .empty)
    (hok : malloc allocatorBytes fuel {} len = .ok (addr, e)) :
    ∃ e', malloc allocatorBytes fuel d len = .ok (addr, e') := by
  have hfirst : (d.superblockHeadList (logBlockSizeOf len - logMinBlock)).first = none := by
    rw [hheads]
    rfl
  simp only [malloc, isBlockRequest_iff]
  obtain ⟨hlt, hfirst', hok⟩ | ⟨s, -, hfirst', -⟩ | ⟨hlarge, hok⟩ := malloc_cases hok
  · have hge := twelve_le_logBlockSizeOf len
    have hs : (acquireSuperblock d).1 = (acquireSuperblock {}).1 := by
      simp only [acquireSuperblock, hfree, hidx]
    rw [mallocBlock_open hge hfirst', Outcome.ok.injEq, Prod.mk.injEq] at hok
    rw [if_pos hlt, mallocBlock_open hge hfirst, hs, hok.1]
    exact ⟨_, rfl⟩
  · exact absurd hfirst' (by simp [OrderedSet.first, OrderedSet.empty])
  · rw [if_neg hlarge]
    exact ⟨_, mallocSuperblocks_congr hok hfree hidx⟩

/-- **Full release.** After a session of orderly calls in which every allocation has been released,
the upper address space is all of the device, the free list and the head lists are empty, and every
request that a new allocator serves is served, at the same address. -/
theorem full_release
    (hx : (session allocatorBytes).Reaches (fun x c => c.Orderly allocatorBytes x) x)
    (hlive : x.live = []) :
    x.allocator.superblockFreeIdx = 0 ∧ x.allocator.freeList = [] ∧
      (∀ c, x.allocator.superblockHeadList c = .empty) ∧
      ∀ (len : UInt64) (fuel addr : ℕ) (d : DeviceAllocator),
        malloc allocatorBytes fuel {} len.toNat = .ok (addr, d) →
        ∃ d', malloc allocatorBytes fuel x.allocator len.toNat = .ok (addr, d') := by
  obtain ⟨hidx, hfree, hheads⟩ := (restorable_of_reaches hx).of_live_eq_nil hlive
  exact ⟨hidx, hfree, hheads, fun len fuel addr d hok => malloc_of_restored hidx hfree hheads hok⟩

/-- A session of an allocator of 8 MiB with blocks of three classes and a run, all released. -/
theorem full_release_mixed :
    ∃ x, (session (2 ^ 23)).Reaches (fun x c => c.Orderly (2 ^ 23) x) x ∧ x.live = [] ∧
      x.allocator.superblockFreeIdx = 0 ∧ x.allocator.freeList = [] := by
  obtain ⟨x, hx, hlive⟩ := (session (2 ^ 23)).exists_reaches
    (fun x c => c.Orderly (2 ^ 23) x) (fun x => x.live = [])
    [.malloc 4096 1, .malloc 0x200000 1, .malloc 70000 1, .malloc 600000 1, .free 0x200000,
      .free 0x700000, .free 0x5e0000, .free 0x1ff000] (by decide +kernel)
  obtain ⟨hidx, hfree, -⟩ := full_release hx hlive
  exact ⟨x, hx, hlive, hidx, hfree⟩

/-- After one superblock has been allocated and released, it stays in the free list below the upper
address space, and the next request for a superblock, which a new allocator serves, never ends. -/
theorem not_full_release :
    ∃ x, (session (2 ^ 22)).Reaches System.anyStep x ∧ x.live = [] ∧
      x.allocator.superblockFreeIdx = 1 ∧ x.allocator.freeList = [0] ∧
      (malloc (2 ^ 22) 1 {} 0x200000).toOption.isSome ∧
      malloc (2 ^ 22) 1 x.allocator 0x200000 = .looping := by
  obtain ⟨x, hx, hlive, hidx, hfree⟩ := (session (2 ^ 22)).exists_reaches System.anyStep
    (fun x => x.live = [] ∧ x.allocator.superblockFreeIdx = 1 ∧ x.allocator.freeList = [0])
    [.malloc 0x200000 1, .free 0] (by decide +kernel)
  have hlarge : ¬ logBlockSizeOf 0x200000 < 21 := by decide +kernel
  refine ⟨x, hx, hlive, hidx, hfree, by decide +kernel, ?_⟩
  simp only [malloc, isBlockRequest_iff]
  rw [if_neg hlarge]
  exact mallocSuperblocks_looping (by decide +kernel) (by simp [hfree])

end Beethoven.Allocator
