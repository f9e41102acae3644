import Beethoven.Allocator.Session

/-!
# What a session leaves in the device memory

After a session of safe calls the live allocations share no byte, every superblock below the upper
address space is free, cut into blocks of which one is live, or part of one live run, and the lists
of the size classes hold the superblocks that have a free block. All of this fails for sessions with
an unsafe call: releasing the run that ends one superblock below the upper address space returns the
live superblock above it as well, and releasing a block of a superblock other than the first one
records a block that the superblock does not have.
-/

namespace Beethoven.Allocator

open Lib

variable {allocatorBytes : ℕ} {x : Session}

/-- The session that releases the lower of two superblocks and allocates both again. -/
def reclaimCalls : List Call :=
  [.malloc 0x200000 1, .malloc 0x200000 1, .free 0, .malloc 0x200000 1, .malloc 0x200000 1]

/-! ### Live ranges -/

/-- No byte belongs to both allocations. -/
def Allocation.Apart (a b : Allocation) : Prop := ∀ y, ¬(a.Contains y ∧ b.Contains y)

theorem Layout.pairwise_apart {used : Set ℕ} {sb : ℕ → Superblock} {heads : ℕ → OrderedSet ℕ}
    {live : List Allocation} (h : Layout used sb heads live) :
    live.Pairwise Allocation.Apart := by
  have haddr : live.Pairwise fun a b => a.addr ≠ b.addr := List.pairwise_map.mp h.addr_nodup
  refine haddr.imp_of_mem fun ha hb hne y hy => ?_
  exact h.disjoint ha hb hne hy.1 hy.2

/-- **Disjointness.** After every session of safe calls, the byte ranges of the live allocations
are pairwise disjoint. -/
theorem live_pairwise_apart
    (hx : (session allocatorBytes).Reaches (fun x c => c.Safe allocatorBytes x) x) :
    x.live.Pairwise Allocation.Apart :=
  (consistent_of_reaches hx).layout.pairwise_apart

/-- A session of an allocator of 8 MiB with blocks of two classes and a run, one block released. -/
theorem live_pairwise_apart_mixed :
    ∃ x, (session (2 ^ 23)).Reaches (fun x c => c.Safe (2 ^ 23) x) x ∧ x.live.length = 3 ∧
      x.live.Pairwise Allocation.Apart := by
  obtain ⟨x, hx, hlen⟩ := (session (2 ^ 23)).exists_reaches
    (fun x c => c.Safe (2 ^ 23) x) (fun x => x.live.length = 3)
    [.malloc 4096 1, .malloc 0x400000 1, .malloc 100 1, .malloc 70000 1, .free 0x1ff000]
    (by decide +kernel)
  exact ⟨x, hx, hlen, live_pairwise_apart hx⟩

/-- Without the guard two live allocations may share bytes. -/
theorem not_live_pairwise_apart :
    ¬∀ k, 21 ≤ k → ∀ x, (session (2 ^ k)).Reaches System.anyStep x →
      x.live.Pairwise Allocation.Apart := by
  intro h
  obtain ⟨x, hx, hlive⟩ := (session (2 ^ 22)).exists_reaches System.anyStep
    (fun x => x.live = [⟨0x200000, 0x200000⟩, ⟨0, 0x200000⟩, ⟨0x200000, 0x200000⟩])
    reclaimCalls (by decide +kernel)
  have hpair := h 22 (by norm_num) x hx
  rw [hlive] at hpair
  have hapart := (List.pairwise_cons.mp hpair).1 ⟨0x200000, 0x200000⟩ (by simp)
  exact hapart 0x200000 (by simp [Allocation.Contains])

/-! ### Superblocks -/

instance (a : Allocation) (i : ℕ) : Decidable (a.Covers i) :=
  inferInstanceAs (Decidable (_ ∧ _))

/-- Superblock `i` is reserved for the allocation or holds one of its bytes. -/
def Allocation.Touches (a : Allocation) (i : ℕ) : Prop :=
  a.Covers i ∨ ∃ y, a.Contains y ∧ y / superblockSize = i

/-- Superblock `i` occurs exactly once in the free list. -/
def Session.InFreeList (x : Session) (i : ℕ) : Prop := x.allocator.freeList.count i = 1

/-- Superblock `i` is cut into blocks and one of them at least is live. -/
def Session.HoldsBlock (x : Session) (i : ℕ) : Prop :=
  (x.allocator.superblocks i).flags &&& blockAlloc ≠ 0 ∧
    ∃ a ∈ x.live, a.IsSmall ∧ a.superblock = i

/-- Superblock `i` belongs to exactly one live run of superblocks. -/
def Session.InRun (x : Session) (i : ℕ) : Prop :=
  (x.live.countP fun a => ¬a.IsSmall ∧ a.Covers i) = 1

/-- Every superblock below the upper address space is in exactly one of the three situations, and
no live allocation touches a superblock of the upper address space. -/
structure Session.Ownership (x : Session) : Prop where
  situation : ∀ i < x.allocator.superblockFreeIdx,
    (x.InFreeList i ∧ ¬x.HoldsBlock i ∧ ¬x.InRun i) ∨
    (¬x.InFreeList i ∧ x.HoldsBlock i ∧ ¬x.InRun i) ∨
    (¬x.InFreeList i ∧ ¬x.HoldsBlock i ∧ x.InRun i)
  below : ∀ a ∈ x.live, ∀ i, a.Touches i → i < x.allocator.superblockFreeIdx

namespace Consistent

variable (h : Consistent allocatorBytes x) {i : ℕ}
include h

private theorem used_of_holdsBlock (hblock : x.HoldsBlock i) :
    i ∈ x.allocator.used ∧ (x.allocator.superblocks i).flags = blockAlloc := by
  obtain ⟨-, a, ha, hsmall, rfl⟩ := hblock
  have hab := h.layout.placedBlock ha hsmall
  exact ⟨hab.used, hab.flags⟩

private theorem used_of_inRun (hrun : x.InRun i) :
    i ∈ x.allocator.used ∧ (x.allocator.superblocks i).flags ≠ blockAlloc := by
  obtain ⟨a, ha, hcov⟩ := List.countP_pos_iff.mp (hrun ▸ Nat.one_pos)
  obtain ⟨hlarge, hcov⟩ := of_decide_eq_true hcov
  have har := h.layout.placedRun ha hlarge
  exact ⟨har.used i hcov, fun hflags => har.not_covers hflags hcov⟩

/-- A superblock of a live run belongs to no other live run. -/
private theorem inRun_of_covers {a : Allocation} (ha : a ∈ x.live) (hlarge : ¬a.IsSmall)
    (hcov : a.Covers i) : x.InRun i := by
  have honly : ∀ b ∈ x.live, (¬b.IsSmall ∧ b.Covers i) ↔ b = a := by
    intro b hb
    constructor
    · rintro ⟨hlarge', hcov'⟩
      by_contra hne
      have haddr : b.addr ≠ a.addr := fun heq => hne (h.layout.eq_of_addr_eq hb ha heq)
      exact hlarge' (h.layout.isSmall_of_covers hb ha haddr hcov' hcov).1
    · rintro rfl
      exact ⟨hlarge, hcov⟩
  have hcount : x.live.countP (fun b => ¬b.IsSmall ∧ b.Covers i) = x.live.count a :=
    List.countP_congr fun b hb => by simpa using honly b hb
  rw [Session.InRun, hcount]
  exact List.count_eq_one_of_mem h.layout.addr_nodup.of_map ha

/-- The three situations exclude each other and leave out no superblock. -/
theorem ownership : x.Ownership where
  situation i hi := by
    have hcount : x.InFreeList i ↔ i ∈ x.allocator.freeList := by
      rw [Session.InFreeList]
      exact ⟨fun hone => List.count_pos_iff.mp (hone ▸ Nat.one_pos),
        List.count_eq_one_of_mem h.freeList.nodup⟩
    by_cases hfree : i ∈ x.allocator.freeList
    · refine .inl ⟨hcount.mpr hfree, fun hblock => ?_, fun hrun => ?_⟩
      · exact (h.used_of_holdsBlock hblock).1.2 hfree
      · exact (h.used_of_inRun hrun).1.2 hfree
    · have hnot : ¬x.InFreeList i := fun hone => hfree (hcount.mp hone)
      obtain ⟨a, ha, hcov⟩ := h.layout.owned i ⟨hi, hfree⟩
      by_cases hsmall : a.IsSmall
      · obtain rfl := (Allocation.covers_iff_of_isSmall hsmall).mp hcov
        have hflags := (h.layout.placedBlock ha hsmall).flags
        refine .inr (.inl ⟨hnot, ⟨?_, a, ha, hsmall, rfl⟩, fun hrun => ?_⟩)
        · rw [hflags]
          decide
        · exact (h.used_of_inRun hrun).2 hflags
      · have hrun := h.inRun_of_covers ha hsmall hcov
        refine .inr (.inr ⟨hnot, fun hblock => ?_, hrun⟩)
        exact (h.used_of_inRun hrun).2 (h.used_of_holdsBlock hblock).2
  below a ha i hi := by
    rcases hi with hcov | ⟨y, hy, rfl⟩
    · exact (h.layout.used_of_covers ha hcov).1
    · exact (h.layout.used_of_covers ha (h.layout.covers_of_contains ha hy)).1

end Consistent

/-- **Ownership.** After every session of safe calls, every superblock below the upper address space
is in exactly one of the three situations, and no live allocation touches the others. -/
theorem superblock_ownership
    (hx : (session allocatorBytes).Reaches (fun x c => c.Safe allocatorBytes x) x) :
    x.Ownership :=
  (consistent_of_reaches hx).ownership

/-- A session of an allocator of 8 MiB that leaves a free superblock, one with a live block and a
live run. -/
theorem superblock_ownership_mixed :
    ∃ x, (session (2 ^ 23)).Reaches (fun x c => c.Safe (2 ^ 23) x) x ∧
      x.allocator.freeList = [0] ∧ x.live = [⟨0x7f0000, 60000⟩, ⟨0x200000, 0x200001⟩] ∧
      x.Ownership := by
  obtain ⟨x, hx, hfree, hlive⟩ := (session (2 ^ 23)).exists_reaches
    (fun x c => c.Safe (2 ^ 23) x)
    (fun x => x.allocator.freeList = [0] ∧ x.live = [⟨0x7f0000, 60000⟩, ⟨0x200000, 0x200001⟩])
    [.malloc 0x200000 1, .malloc 0x200001 1, .malloc 60000 1, .free 0] (by decide +kernel)
  exact ⟨x, hx, hfree, hlive, superblock_ownership hx⟩

/-- Without the guard a live allocation may lie in the upper address space. -/
theorem not_superblock_ownership :
    ¬∀ k, 21 ≤ k → ∀ x, (session (2 ^ k)).Reaches System.anyStep x → x.Ownership := by
  intro h
  obtain ⟨x, hx, hidx, hlive⟩ := (session (2 ^ 22)).exists_reaches System.anyStep
    (fun x => x.allocator.superblockFreeIdx = 0 ∧ x.live = [⟨0x200000, 0x200000⟩])
    (reclaimCalls.take 3) (by decide +kernel)
  have hbelow := (h 22 (by norm_num) x hx).below ⟨0x200000, 0x200000⟩ (by simp [hlive]) 1
    (.inl (by decide))
  omega

/-! ### Size classes -/

/-- The head list of a size class has the superblocks in use of that class that have a free block,
and the free blocks of a superblock in use that is cut into blocks are those that are not live, each
once. -/
structure Session.ClassesExact (x : Session) : Prop where
  mem_headList : ∀ c s, s ∈ x.allocator.superblockHeadList c ↔
    IsBlockSuperblock x.allocator.used x.allocator.superblocks s ∧
      (x.allocator.superblocks s).logBlockSize = 12 + c ∧
      (x.allocator.superblocks s).freeBlocks ≠ []
  nodup : ∀ s, IsBlockSuperblock x.allocator.used x.allocator.superblocks s →
    (x.allocator.superblocks s).freeBlocks.Nodup
  lt : ∀ s, IsBlockSuperblock x.allocator.used x.allocator.superblocks s →
    ∀ b ∈ (x.allocator.superblocks s).freeBlocks,
      b < 2 ^ (21 - (x.allocator.superblocks s).logBlockSize)
  mem_freeBlocks : ∀ s, IsBlockSuperblock x.allocator.used x.allocator.superblocks s →
    ∀ b < 2 ^ (21 - (x.allocator.superblocks s).logBlockSize),
      b ∈ (x.allocator.superblocks s).freeBlocks ↔ ¬LiveBlock x.live s b

theorem Consistent.classesExact (h : Consistent allocatorBytes x) : x.ClassesExact where
  mem_headList := h.layout.mem_heads
  nodup := h.layout.freeBlocks_nodup
  lt s hs b hb := ((h.layout.mem_freeBlocks s hs b).mp hb).1
  mem_freeBlocks s hs b hb := (h.layout.mem_freeBlocks s hs b).trans (and_iff_right hb)

/-- **Size classes.** After every session of safe calls, a superblock is in the list of a size class
if and only if it is in use for this class and has a free block, and its free blocks are exactly the
ones that are not live. -/
theorem size_classes_exact
    (hx : (session allocatorBytes).Reaches (fun x c => c.Safe allocatorBytes x) x) :
    x.ClassesExact :=
  (consistent_of_reaches hx).classesExact

/-- Two size classes, one of them with a block that was released. -/
theorem size_classes_exact_two :
    ∃ x, (session (2 ^ 23)).Reaches (fun x c => c.Safe (2 ^ 23) x) x ∧
      (x.allocator.superblocks 0).freeBlocks = [0, 1] ∧ 0 ∈ x.allocator.superblockHeadList 7 ∧
      x.ClassesExact := by
  obtain ⟨x, hx, hblocks, hmem⟩ := (session (2 ^ 23)).exists_reaches
    (fun x c => c.Safe (2 ^ 23) x)
    (fun x => (x.allocator.superblocks 0).freeBlocks = [0, 1] ∧
      0 ∈ x.allocator.superblockHeadList 7)
    [.malloc 0x80000 1, .malloc 4096 1, .malloc 0x80000 1, .malloc 0x80000 1, .free 0x80000]
    (by decide +kernel)
  exact ⟨x, hx, hblocks, hmem, size_classes_exact hx⟩

/-- A superblock of two blocks, cut out of superblock 1, records the block 3 when its block 1 is
released. -/
theorem not_size_classes_exact :
    ¬∀ k, 21 ≤ k → ∀ x, (session (2 ^ k)).Reaches System.anyStep x → x.ClassesExact := by
  intro h
  obtain ⟨x, hx, hidx, hfree, hsb⟩ := (session (2 ^ 22)).exists_reaches System.anyStep
    (fun x => x.allocator.superblockFreeIdx = 2 ∧ x.allocator.freeList = [] ∧
      x.allocator.superblocks 1 = ⟨20, blockAlloc, [3]⟩)
    [.malloc 0x200000 1, .malloc 0x100000 1, .malloc 0x100000 1, .free 0x300000]
    (by decide +kernel)
  have hblk : IsBlockSuperblock x.allocator.used x.allocator.superblocks 1 :=
    ⟨⟨by omega, by simp [hfree]⟩, by rw [hsb]⟩
  have hlt := (h 22 (by norm_num) x hx).lt 1 hblk 3 (by rw [hsb]; decide)
  rw [hsb] at hlt
  exact absurd hlt (by decide)

end Beethoven.Allocator
