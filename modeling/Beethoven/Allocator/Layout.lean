import Mathlib.Data.Set.Insert
import Mathlib.Data.Finset.Card
import Mathlib.Data.Finset.Range
import Beethoven.Allocator.Arithmetic

/-!
# Layouts of live allocations

A layout says which superblocks are in use and how the live allocations lie in them, whatever the
allocator's way of keeping its free superblocks. A live block lies in a superblock of its size
class and is not one of the free blocks of that superblock; a live run of superblocks starts at a
superblock flagged as its base and no other superblock of the run carries a flag. Two live
allocations at different addresses then share no byte (`Layout.disjoint`).
-/

namespace Beethoven.Allocator

open Lib

/-! ### Allocations -/

/-- A live allocation: the address that `malloc` returned and the length it was asked for. -/
structure Allocation where
  addr : ℕ
  len : ℕ
  deriving DecidableEq, Repr

namespace Allocation

variable (a : Allocation)

/-- The logarithm of the size of the blocks that serve the request. -/
def logBlock : ℕ := logBlockSizeOf a.len

/-- The request is served by a block of a superblock. -/
def IsSmall : Prop := a.logBlock < logSuperblockSize

instance : Decidable a.IsSmall := inferInstanceAs (Decidable (_ < _))

/-- The superblock in which the allocation starts. -/
def superblock : ℕ := a.addr / superblockSize

/-- The block of the superblock in which a small allocation lies. -/
def block : ℕ := a.addr % superblockSize / 2 ^ a.logBlock

/-- The number of superblocks that the allocation lies in. -/
def span : ℕ := if a.IsSmall then 1 else numSuperblocksNeeded a.logBlock

/-- Superblock `i` is one of those the allocation lies in. -/
def Covers (i : ℕ) : Prop := a.superblock ≤ i ∧ i < a.superblock + a.span

/-- The byte `x` belongs to the allocation. -/
def Contains (x : ℕ) : Prop := a.addr ≤ x ∧ x < a.addr + a.len

variable {a}

theorem isSmall_iff : a.IsSmall ↔ logBlockSizeOf a.len < 21 := by
  rw [IsSmall, logSuperblockSize_eq, logBlock]

theorem covers_iff_of_isSmall (h : a.IsSmall) {i : ℕ} : a.Covers i ↔ i = a.superblock := by
  rw [Covers, span, if_pos h]
  omega

/-- The superblock and the block of an address that `malloc` makes from them. -/
theorem block_of_addr {s b len : ℕ} (hlen : logBlockSizeOf len < 21)
    (hb : b < 2 ^ (21 - logBlockSizeOf len)) :
    (⟨s * superblockSize + b * 2 ^ logBlockSizeOf len, len⟩ : Allocation).superblock = s ∧
      (⟨s * superblockSize + b * 2 ^ logBlockSizeOf len, len⟩ : Allocation).block = b := by
  have hpos : 0 < 2 ^ logBlockSizeOf len := by positivity
  have hlt : b * 2 ^ logBlockSizeOf len < superblockSize := by
    calc b * 2 ^ logBlockSizeOf len
        < 2 ^ (21 - logBlockSizeOf len) * 2 ^ logBlockSizeOf len :=
          Nat.mul_lt_mul_of_pos_right hb hpos
      _ = superblockSize := by rw [← pow_add, superblockSize_eq]; congr 1; omega
  constructor
  · simp only [superblock]
    rw [Nat.mul_comm s, Nat.mul_add_div (by simp), Nat.div_eq_of_lt hlt, Nat.add_zero]
  · simp only [block, logBlock]
    rw [Nat.mul_comm s, Nat.mul_add_mod, Nat.mod_eq_of_lt hlt, Nat.mul_div_cancel _ hpos]

theorem block_end_le {s b len : ℕ} (hlen : logBlockSizeOf len < 21)
    (hb : b < 2 ^ (21 - logBlockSizeOf len)) :
    s * superblockSize + b * 2 ^ logBlockSizeOf len + len ≤ (s + 1) * superblockSize := by
  have hle : len ≤ 2 ^ logBlockSizeOf len := le_two_pow_logBlockSizeOf (hlen.trans (by norm_num))
  have hblock : (b + 1) * 2 ^ logBlockSizeOf len ≤ superblockSize := by
    calc (b + 1) * 2 ^ logBlockSizeOf len
        ≤ 2 ^ (21 - logBlockSizeOf len) * 2 ^ logBlockSizeOf len := Nat.mul_le_mul_right _ hb
      _ = superblockSize := by rw [← pow_add, superblockSize_eq]; congr 1; omega
  linarith [Nat.add_mul b 1 (2 ^ logBlockSizeOf len), Nat.add_mul s 1 superblockSize]

theorem superblock_of_mul {s len : ℕ} :
    (⟨s * superblockSize, len⟩ : Allocation).superblock = s := by
  simp [superblock]

end Allocation

/-! ### Layouts -/

/-- The small allocation `a` lies in a superblock in use that is cut into blocks of its size, in a
block that is not free. -/
structure PlacedBlock (used : Set ℕ) (sb : ℕ → Superblock) (a : Allocation) : Prop where
  small : a.IsSmall
  used : a.superblock ∈ used
  flags : (sb a.superblock).flags = blockAlloc
  logBlockSize : (sb a.superblock).logBlockSize = a.logBlock
  addr_eq : a.addr = a.superblock * superblockSize + a.block * 2 ^ a.logBlock
  block_lt : a.block < 2 ^ (21 - a.logBlock)
  block_notMem : a.block ∉ (sb a.superblock).freeBlocks

/-- The large allocation `a` lies in a run of superblocks in use, of which the first is flagged as
the base of the run and records its length. -/
structure PlacedRun (used : Set ℕ) (sb : ℕ → Superblock) (a : Allocation) : Prop where
  large : ¬a.IsSmall
  used : ∀ i, a.Covers i → i ∈ used
  flags : (sb a.superblock).flags = baseAllocation
  freeBlocks : (sb a.superblock).freeBlocks = [a.span]
  interior : ∀ i, a.Covers i → i ≠ a.superblock → (sb i).flags = 0
  addr_eq : a.addr = a.superblock * superblockSize
  len_le : a.len ≤ a.span * superblockSize
  span_pos : 0 < a.span

/-- A superblock in use that is cut into blocks. -/
def IsBlockSuperblock (used : Set ℕ) (sb : ℕ → Superblock) (s : ℕ) : Prop :=
  s ∈ used ∧ (sb s).flags = blockAlloc

/-- Block `b` of superblock `s` is live. -/
def LiveBlock (live : List Allocation) (s b : ℕ) : Prop :=
  ∃ a ∈ live, a.IsSmall ∧ a.superblock = s ∧ a.block = b

/-- How the live allocations lie in the superblocks in use. -/
structure Layout (used : Set ℕ) (sb : ℕ → Superblock) (heads : ℕ → OrderedSet ℕ)
    (live : List Allocation) : Prop where
  placed : ∀ a ∈ live, PlacedBlock used sb a ∨ PlacedRun used sb a
  addr_nodup : (live.map Allocation.addr).Nodup
  owned : ∀ i ∈ used, ∃ a ∈ live, a.Covers i
  logBlockSize_mem : ∀ s, IsBlockSuperblock used sb s →
    12 ≤ (sb s).logBlockSize ∧ (sb s).logBlockSize < 21
  freeBlocks_nodup : ∀ s, IsBlockSuperblock used sb s → (sb s).freeBlocks.Nodup
  mem_freeBlocks : ∀ s, IsBlockSuperblock used sb s → ∀ b,
    b ∈ (sb s).freeBlocks ↔ b < 2 ^ (21 - (sb s).logBlockSize) ∧ ¬LiveBlock live s b
  mem_heads : ∀ c s, s ∈ heads c ↔
    IsBlockSuperblock used sb s ∧ (sb s).logBlockSize = 12 + c ∧ (sb s).freeBlocks ≠ []

namespace PlacedBlock

variable {used used' : Set ℕ} {sb sb' : ℕ → Superblock} {a : Allocation}

theorem isBlockSuperblock (h : PlacedBlock used sb a) : IsBlockSuperblock used sb a.superblock :=
  ⟨h.used, h.flags⟩

theorem end_le (h : PlacedBlock used sb a) :
    a.addr + a.len ≤ (a.superblock + 1) * superblockSize := by
  rw [h.addr_eq]
  exact Allocation.block_end_le (Allocation.isSmall_iff.mp h.small) h.block_lt

theorem covers_superblock (h : PlacedBlock used sb a) : a.Covers a.superblock :=
  (Allocation.covers_iff_of_isSmall h.small).mpr rfl

/-- The allocation made from a superblock of the right size class and a block that is no longer
free is placed. -/
theorem of_addr {s b len : ℕ} (hs : IsBlockSuperblock used sb s)
    (hlog : (sb s).logBlockSize = logBlockSizeOf len) (hlen : logBlockSizeOf len < 21)
    (hb : b < 2 ^ (21 - logBlockSizeOf len)) (hnot : b ∉ (sb s).freeBlocks) :
    PlacedBlock used sb ⟨s * superblockSize + b * 2 ^ logBlockSizeOf len, len⟩ := by
  obtain ⟨hsup, hblock⟩ := Allocation.block_of_addr (s := s) hlen hb
  refine ⟨Allocation.isSmall_iff.mpr hlen, ?_, ?_, ?_, ?_, ?_, ?_⟩
  · rw [hsup]
    exact hs.1
  · rw [hsup]
    exact hs.2
  · rw [hsup]
    exact hlog
  · rw [hsup, hblock]
    rfl
  · rw [hblock]
    exact hb
  · rw [hsup, hblock]
    exact hnot

theorem congr (h : PlacedBlock used sb a) (hused : a.superblock ∈ used')
    (hsb : sb' a.superblock = sb a.superblock) : PlacedBlock used' sb' a where
  small := h.small
  used := hused
  flags := by rw [hsb, h.flags]
  logBlockSize := by rw [hsb, h.logBlockSize]
  addr_eq := h.addr_eq
  block_lt := h.block_lt
  block_notMem := by rw [hsb]; exact h.block_notMem

end PlacedBlock

namespace PlacedRun

variable {used used' : Set ℕ} {sb sb' : ℕ → Superblock} {a : Allocation}

theorem covers_superblock (h : PlacedRun used sb a) : a.Covers a.superblock :=
  ⟨le_rfl, Nat.lt_add_of_pos_right h.span_pos⟩

theorem end_le (h : PlacedRun used sb a) :
    a.addr + a.len ≤ (a.superblock + a.span) * superblockSize := by
  rw [h.addr_eq, Nat.add_mul]
  exact Nat.add_le_add_left h.len_le _

theorem not_covers (h : PlacedRun used sb a) {s : ℕ} (hs : (sb s).flags = blockAlloc) :
    ¬a.Covers s := by
  intro hcov
  by_cases hbase : s = a.superblock
  · rw [hbase, h.flags] at hs
    exact absurd hs (by decide)
  · rw [h.interior s hcov hbase] at hs
    exact absurd hs (by decide)

theorem congr (h : PlacedRun used sb a) (hused : ∀ i, a.Covers i → i ∈ used')
    (hsb : ∀ i, a.Covers i → sb' i = sb i) : PlacedRun used' sb' a where
  large := h.large
  used := hused
  flags := by rw [hsb _ h.covers_superblock, h.flags]
  freeBlocks := by rw [hsb _ h.covers_superblock, h.freeBlocks]
  interior i hi hne := by rw [hsb i hi, h.interior i hi hne]
  addr_eq := h.addr_eq
  len_le := h.len_le
  span_pos := h.span_pos

end PlacedRun

namespace Layout

variable {used : Set ℕ} {sb : ℕ → Superblock} {heads : ℕ → OrderedSet ℕ}
  {live : List Allocation} {a a' : Allocation}

theorem placedBlock (h : Layout used sb heads live) (ha : a ∈ live) (hsmall : a.IsSmall) :
    PlacedBlock used sb a :=
  (h.placed a ha).resolve_right fun hrun => hrun.large hsmall

theorem placedRun (h : Layout used sb heads live) (ha : a ∈ live) (hlarge : ¬a.IsSmall) :
    PlacedRun used sb a :=
  (h.placed a ha).resolve_left fun hblock => hlarge hblock.small

theorem used_of_covers (h : Layout used sb heads live) (ha : a ∈ live) {i : ℕ}
    (hi : a.Covers i) : i ∈ used := by
  rcases h.placed a ha with hb | hr
  · rw [(Allocation.covers_iff_of_isSmall hb.small).mp hi]
    exact hb.used
  · exact hr.used i hi

theorem end_le (h : Layout used sb heads live) (ha : a ∈ live) :
    a.addr + a.len ≤ (a.superblock + a.span) * superblockSize := by
  rcases h.placed a ha with hb | hr
  · have hspan : a.span = 1 := if_pos hb.small
    rw [hspan]
    exact hb.end_le
  · exact hr.end_le

/-- A byte of a live allocation lies in a superblock that the allocation covers. -/
theorem covers_of_contains (h : Layout used sb heads live) (ha : a ∈ live) {x : ℕ}
    (hx : a.Contains x) : a.Covers (x / superblockSize) := by
  have hend := h.end_le ha
  obtain ⟨hle, hlt⟩ := hx
  constructor
  · exact Nat.div_le_div_right hle
  · rw [Nat.div_lt_iff_lt_mul (by simp)]
    omega

/-- Two runs that share a superblock start at the same address. -/
private theorem addr_eq_of_runs (ha : PlacedRun used sb a) (ha' : PlacedRun used sb a') {i : ℕ}
    (hle : a.superblock ≤ a'.superblock) (hi : a.Covers i) (hi' : a'.Covers i) :
    a.addr = a'.addr := by
  have hcov : a.Covers a'.superblock := ⟨hle, lt_of_le_of_lt hi'.1 hi.2⟩
  have hsame : a'.superblock = a.superblock := by
    by_contra hne
    have hflags := ha.interior _ hcov hne
    rw [ha'.flags] at hflags
    exact absurd hflags (by decide)
  rw [ha.addr_eq, ha'.addr_eq, hsame]

/-- Live allocations that share a superblock are blocks of it, unless they start at the same
address. -/
theorem isSmall_of_covers (h : Layout used sb heads live) (ha : a ∈ live) (ha' : a' ∈ live)
    (hne : a.addr ≠ a'.addr) {i : ℕ} (hi : a.Covers i) (hi' : a'.Covers i) :
    a.IsSmall ∧ a'.IsSmall := by
  rcases h.placed a ha with hb | hr <;> rcases h.placed a' ha' with hb' | hr'
  · exact ⟨hb.small, hb'.small⟩
  · rw [(Allocation.covers_iff_of_isSmall hb.small).mp hi] at hi'
    exact absurd hi' (hr'.not_covers hb.flags)
  · rw [(Allocation.covers_iff_of_isSmall hb'.small).mp hi'] at hi
    exact absurd hi (hr.not_covers hb'.flags)
  · rcases le_total a.superblock a'.superblock with hle | hle
    · exact absurd (addr_eq_of_runs hr hr' hle hi hi') hne
    · exact absurd (addr_eq_of_runs hr' hr hle hi' hi).symm hne

/-- Blocks of one superblock at different addresses share no byte. -/
private theorem disjoint_blocks (hb : PlacedBlock used sb a) (hb' : PlacedBlock used sb a')
    (hs : a.superblock = a'.superblock) (hlt : a.block < a'.block) {x : ℕ} (hx : a.Contains x) :
    ¬a'.Contains x := by
  have hlog : a.logBlock = a'.logBlock := by rw [← hb.logBlockSize, hs, hb'.logBlockSize]
  have hsmall : a.logBlock < 21 := by simpa [Allocation.IsSmall] using hb.small
  have hlen : a.len ≤ 2 ^ a.logBlock := le_two_pow_logBlockSizeOf (hsmall.trans (by norm_num))
  have hblock : (a.block + 1) * 2 ^ a.logBlock ≤ a'.block * 2 ^ a.logBlock :=
    Nat.mul_le_mul_right _ hlt
  have haddr := hb.addr_eq
  have haddr' := hb'.addr_eq
  rw [← hs, ← hlog] at haddr'
  rw [Nat.add_mul, Nat.one_mul] at hblock
  rintro ⟨hle', -⟩
  have hlt' := hx.2
  omega

/-- **Live allocations are disjoint.** Two live allocations at different addresses share no
byte. -/
theorem disjoint (h : Layout used sb heads live) (ha : a ∈ live) (ha' : a' ∈ live)
    (hne : a.addr ≠ a'.addr) {x : ℕ} (hx : a.Contains x) : ¬a'.Contains x := by
  intro hx'
  have hi := h.covers_of_contains ha hx
  have hi' := h.covers_of_contains ha' hx'
  obtain ⟨hsmall, hsmall'⟩ := h.isSmall_of_covers ha ha' hne hi hi'
  have hb := h.placedBlock ha hsmall
  have hb' := h.placedBlock ha' hsmall'
  have hs : a.superblock = a'.superblock := by
    rw [← (Allocation.covers_iff_of_isSmall hsmall).mp hi,
      (Allocation.covers_iff_of_isSmall hsmall').mp hi']
  rcases lt_trichotomy a.block a'.block with hlt | heq | hgt
  · exact disjoint_blocks hb hb' hs hlt hx hx'
  · have hlog : a.logBlock = a'.logBlock := by rw [← hb.logBlockSize, hs, hb'.logBlockSize]
    exact hne (by rw [hb.addr_eq, hb'.addr_eq, hs, heq, hlog])
  · exact disjoint_blocks hb' hb hs.symm hgt hx' hx

end Layout

end Beethoven.Allocator
