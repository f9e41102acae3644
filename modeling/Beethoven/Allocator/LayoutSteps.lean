import Beethoven.Allocator.Layout

/-!
# How a layout changes

The six ways in which an allocator call changes the layout of the live allocations: a block of an
open superblock is taken, a superblock is opened for a size class and its last block taken, a run
of superblocks is taken; a block is returned to a superblock that stays in use, a superblock whose
last live block is returned is closed, a run is given back. A change concerns one superblock, or
superblocks that are not cut into blocks; the others keep what the layout says of them
(`SuperblockOk.congr`).
-/

namespace Beethoven.Allocator

open Lib Function

/-- The superblocks after the free blocks of superblock `s` have become `l`. -/
def withFreeBlocks (sb : ℕ → Superblock) (s : ℕ) (l : List ℕ) : ℕ → Superblock :=
  update sb s { sb s with freeBlocks := l }

section WithFreeBlocks

variable (sb : ℕ → Superblock) (s t : ℕ) (l : List ℕ)

@[simp] theorem withFreeBlocks_flags : (withFreeBlocks sb s l t).flags = (sb t).flags := by
  by_cases h : t = s
  · subst h
    simp [withFreeBlocks]
  · simp [withFreeBlocks, h]

@[simp] theorem withFreeBlocks_logBlockSize :
    (withFreeBlocks sb s l t).logBlockSize = (sb t).logBlockSize := by
  by_cases h : t = s
  · subst h
    simp [withFreeBlocks]
  · simp [withFreeBlocks, h]

@[simp] theorem withFreeBlocks_freeBlocks_self : (withFreeBlocks sb s l s).freeBlocks = l := by
  simp [withFreeBlocks]

variable {s t} in
theorem withFreeBlocks_of_ne (h : t ≠ s) : withFreeBlocks sb s l t = sb t := by
  simp [withFreeBlocks, h]

@[simp] theorem isBlockSuperblock_withFreeBlocks {used : Set ℕ} :
    IsBlockSuperblock used (withFreeBlocks sb s l) t ↔ IsBlockSuperblock used sb t := by
  simp [IsBlockSuperblock]

end WithFreeBlocks

theorem liveBlock_cons {live : List Allocation} {a : Allocation} {s b : ℕ} :
    LiveBlock (a :: live) s b ↔
      (a.IsSmall ∧ a.superblock = s ∧ a.block = b) ∨ LiveBlock live s b := by
  simp [LiveBlock]

/-- What a layout says of a single superblock. -/
structure SuperblockOk (used : Set ℕ) (sb : ℕ → Superblock) (heads : ℕ → OrderedSet ℕ)
    (live : List Allocation) (s : ℕ) : Prop where
  logBlockSize_mem : IsBlockSuperblock used sb s →
    12 ≤ (sb s).logBlockSize ∧ (sb s).logBlockSize < 21
  freeBlocks_nodup : IsBlockSuperblock used sb s → (sb s).freeBlocks.Nodup
  mem_freeBlocks : IsBlockSuperblock used sb s → ∀ b,
    b ∈ (sb s).freeBlocks ↔ b < 2 ^ (21 - (sb s).logBlockSize) ∧ ¬LiveBlock live s b
  mem_heads : ∀ c, s ∈ heads c ↔
    IsBlockSuperblock used sb s ∧ (sb s).logBlockSize = 12 + c ∧ (sb s).freeBlocks ≠ []

theorem SuperblockOk.congr {used used' : Set ℕ} {sb sb' : ℕ → Superblock}
    {heads heads' : ℕ → OrderedSet ℕ} {live live' : List Allocation} {s : ℕ}
    (h : SuperblockOk used sb heads live s)
    (hblk : IsBlockSuperblock used' sb' s ↔ IsBlockSuperblock used sb s)
    (hsb : IsBlockSuperblock used sb s → sb' s = sb s)
    (hlive : ∀ b, LiveBlock live' s b ↔ LiveBlock live s b)
    (hheads : ∀ c, s ∈ heads' c ↔ s ∈ heads c) : SuperblockOk used' sb' heads' live' s := by
  refine ⟨fun hs => ?_, fun hs => ?_, fun hs b => ?_, fun c => ?_⟩
  · rw [hsb (hblk.mp hs)]
    exact h.logBlockSize_mem (hblk.mp hs)
  · rw [hsb (hblk.mp hs)]
    exact h.freeBlocks_nodup (hblk.mp hs)
  · rw [hsb (hblk.mp hs), hlive]
    exact h.mem_freeBlocks (hblk.mp hs) b
  · rw [hheads, h.mem_heads, hblk]
    refine and_congr_right fun hs => ?_
    rw [hsb hs]

namespace Layout

variable {used : Set ℕ} {sb : ℕ → Superblock} {heads heads' : ℕ → OrderedSet ℕ}
  {live live' : List Allocation} {s b c len : ℕ}

theorem superblockOk (h : Layout used sb heads live) (s : ℕ) : SuperblockOk used sb heads live s :=
  ⟨h.logBlockSize_mem s, h.freeBlocks_nodup s, h.mem_freeBlocks s, fun c => h.mem_heads c s⟩

private theorem of_superblocks
    (hplaced : ∀ x ∈ live, PlacedBlock used sb x ∨ PlacedRun used sb x)
    (hnodup : (live.map Allocation.addr).Nodup) (howned : ∀ i ∈ used, ∃ x ∈ live, x.Covers i)
    (hok : ∀ t, SuperblockOk used sb heads live t) : Layout used sb heads live :=
  ⟨hplaced, hnodup, howned, fun t => (hok t).logBlockSize_mem, fun t => (hok t).freeBlocks_nodup,
    fun t => (hok t).mem_freeBlocks, fun c t => (hok t).mem_heads c⟩

theorem superblock_mem_used (h : Layout used sb heads live) {x : Allocation} (hx : x ∈ live) :
    x.superblock ∈ used := by
  rcases h.placed x hx with hb | hr
  · exact hb.used
  · exact hr.used _ hr.covers_superblock

/-- An allocation in a superblock that is not in use has an address of its own. -/
private theorem addr_nodup_cons (h : Layout used sb heads live) {a : Allocation}
    (ha : a.superblock ∉ used) : ((a :: live).map Allocation.addr).Nodup := by
  rw [List.map_cons, List.nodup_cons]
  refine ⟨fun hmem => ?_, h.addr_nodup⟩
  obtain ⟨x, hx, haddr⟩ := List.mem_map.mp hmem
  have hxa : x.superblock = a.superblock := by
    rw [Allocation.superblock, Allocation.superblock, haddr]
  exact ha (hxa ▸ h.superblock_mem_used hx)

private theorem addr_ne_of_not_liveBlock (h : Layout used sb heads live)
    (hs : IsBlockSuperblock used sb s) (hlog : (sb s).logBlockSize = logBlockSizeOf len)
    (hlen : logBlockSizeOf len < 21) (hb : b < 2 ^ (21 - logBlockSizeOf len))
    (hfree : ¬LiveBlock live s b) {x : Allocation} (hx : x ∈ live) :
    x.addr ≠ s * superblockSize + b * 2 ^ logBlockSizeOf len := by
  intro haddr
  obtain ⟨hsup, hblock⟩ := Allocation.block_of_addr (s := s) hlen hb
  have hxs : x.superblock = s := by
    rw [← hsup, Allocation.superblock, Allocation.superblock, haddr]
  rcases h.placed x hx with hxb | hxr
  · have hxlog : x.logBlock = logBlockSizeOf len := by rw [← hxb.logBlockSize, hxs, hlog]
    have hxblock : x.block = b := by
      rw [← hblock, Allocation.block, Allocation.block, haddr, hxlog]
      rfl
    exact hfree ⟨x, hx, hxb.small, hxs, hxblock⟩
  · exact hxr.not_covers hs.2 (hxs ▸ hxr.covers_superblock)

/-- An allocation stays placed when the free blocks of a superblock change to others than its
own. -/
private theorem placed_withFreeBlocks (h : Layout used sb heads live)
    (hs : IsBlockSuperblock used sb s) {l : List ℕ} {x : Allocation} (hx : x ∈ live)
    (hl : x.IsSmall → x.superblock = s → x.block ∉ l) :
    PlacedBlock used (withFreeBlocks sb s l) x ∨ PlacedRun used (withFreeBlocks sb s l) x := by
  rcases h.placed x hx with hxb | hxr
  · left
    by_cases hxs : x.superblock = s
    · refine ⟨hxb.small, hxb.used, by simpa using hxb.flags, by simpa using hxb.logBlockSize,
        hxb.addr_eq, hxb.block_lt, ?_⟩
      rw [hxs, withFreeBlocks_freeBlocks_self]
      exact hl hxb.small hxs
    · exact hxb.congr hxb.used (withFreeBlocks_of_ne sb l hxs)
  · right
    refine hxr.congr hxr.used fun i hi => withFreeBlocks_of_ne sb l ?_
    rintro rfl
    exact hxr.not_covers hs.2 hi

theorem takeBlock (h : Layout used sb heads live) {rest : List ℕ} (hs : s ∈ heads c)
    (hlen : logBlockSizeOf len = 12 + c) (hsplit : (sb s).freeBlocks = rest ++ [b])
    (hheads : ∀ c' t, t ∈ heads' c' ↔ t ∈ heads c' ∧ (t = s → rest ≠ [])) :
    Layout used (withFreeBlocks sb s rest) heads'
      (⟨s * superblockSize + b * 2 ^ logBlockSizeOf len, len⟩ :: live) := by
  obtain ⟨hblk, hlog, -⟩ := (h.mem_heads c s).mp hs
  have hlog' : (sb s).logBlockSize = logBlockSizeOf len := hlog.trans hlen.symm
  have hlt : logBlockSizeOf len < 21 := hlog' ▸ (h.logBlockSize_mem s hblk).2
  have hnodup : (rest ++ [b]).Nodup := hsplit ▸ h.freeBlocks_nodup s hblk
  have hbrest : b ∉ rest := fun hb => (List.nodup_append.mp hnodup).2.2 b hb b (by simp) rfl
  have hb : b < 2 ^ (21 - logBlockSizeOf len) ∧ ¬LiveBlock live s b := by
    have hmem := (h.mem_freeBlocks s hblk b).mp (by simp [hsplit])
    rwa [hlog'] at hmem
  obtain ⟨hsup, hblock⟩ := Allocation.block_of_addr (s := s) hlt hb.1
  have hsmall : (⟨s * superblockSize + b * 2 ^ logBlockSizeOf len, len⟩ : Allocation).IsSmall :=
    Allocation.isSmall_iff.mpr hlt
  refine of_superblocks ?_ ?_ ?_ fun t => ?_
  · intro x hx
    rcases List.mem_cons.mp hx with rfl | hx
    · left
      exact .of_addr (by simpa using hblk) (by simpa using hlog') hlt hb.1
        (by simpa using hbrest)
    · refine h.placed_withFreeBlocks hblk hx fun hxsmall hxs hmem => ?_
      refine (h.placedBlock hx hxsmall).block_notMem ?_
      rw [hxs, hsplit]
      exact List.mem_append_left _ hmem
  · rw [List.map_cons, List.nodup_cons]
    refine ⟨fun hmem => ?_, h.addr_nodup⟩
    obtain ⟨x, hx, haddr⟩ := List.mem_map.mp hmem
    exact h.addr_ne_of_not_liveBlock hblk hlog' hlt hb.1 hb.2 hx haddr
  · intro i hi
    obtain ⟨x, hx, hcov⟩ := h.owned i hi
    exact ⟨x, List.mem_cons_of_mem _ hx, hcov⟩
  by_cases hts : t = s
  · subst hts
    refine ⟨fun _ => ?_, fun _ => ?_, fun _ b' => ?_, fun c' => ?_⟩
    · simpa using h.logBlockSize_mem t hblk
    · rw [withFreeBlocks_freeBlocks_self]
      exact (List.nodup_append.mp hnodup).1
    · have hmem := h.mem_freeBlocks t hblk b'
      rw [hsplit, List.mem_append, List.mem_singleton] at hmem
      rw [liveBlock_cons, hsup, hblock, withFreeBlocks_logBlockSize, withFreeBlocks_freeBlocks_self]
      constructor
      · intro hb'
        have hne : b ≠ b' := fun heq => hbrest (heq ▸ hb')
        obtain ⟨hlt', hnot⟩ := hmem.mp (Or.inl hb')
        exact ⟨hlt', by simp [hne, hnot]⟩
      · rintro ⟨hlt', hnot⟩
        rw [not_or] at hnot
        rcases hmem.mpr ⟨hlt', hnot.2⟩ with hb' | rfl
        · exact hb'
        · exact absurd ⟨hsmall, rfl, rfl⟩ hnot.1
    · have hne : rest ++ [b] ≠ [] := by simp
      rw [hheads, h.mem_heads, isBlockSuperblock_withFreeBlocks, withFreeBlocks_logBlockSize,
        withFreeBlocks_freeBlocks_self, hsplit]
      simp only [ne_eq, hne, not_false_eq_true, and_true, forall_const, and_assoc]
  · refine (h.superblockOk t).congr (by simp) (fun _ => withFreeBlocks_of_ne sb rest hts)
      (fun b' => ?_) fun c' => ?_
    · rw [liveBlock_cons, hsup]
      simp [Ne.symm hts]
    · rw [hheads]
      simp [hts]

/-- An allocation stays placed when the superblocks it covers stay in use and do not change. -/
private theorem placed_congr (h : Layout used sb heads live) {used' : Set ℕ}
    {sb' : ℕ → Superblock} {x : Allocation} (hx : x ∈ live)
    (hcov : ∀ i, x.Covers i → i ∈ used' ∧ sb' i = sb i) :
    PlacedBlock used' sb' x ∨ PlacedRun used' sb' x := by
  rcases h.placed x hx with hxb | hxr
  · obtain ⟨hused, hsb⟩ := hcov _ hxb.covers_superblock
    exact Or.inl (hxb.congr hused hsb)
  · exact Or.inr (hxr.congr (fun i hi => (hcov i hi).1) fun i hi => (hcov i hi).2)

/-- Opening a superblock that is not in use for a size class, and taking its last block. -/
theorem openSuperblock (h : Layout used sb heads live) (hs : s ∉ used)
    (hlen : logBlockSizeOf len = 12 + c) (hlt : logBlockSizeOf len < 21)
    (hheads : ∀ c' t, t ∈ heads' c' ↔ t ∈ heads c' ∨ (c' = c ∧ t = s)) :
    Layout (insert s used)
      (update sb s ⟨logBlockSizeOf len, blockAlloc,
        List.range (2 ^ (21 - logBlockSizeOf len) - 1)⟩) heads'
      (⟨s * superblockSize + (2 ^ (21 - logBlockSizeOf len) - 1) * 2 ^ logBlockSizeOf len, len⟩ ::
        live) := by
  have htwo : 2 ≤ 2 ^ (21 - logBlockSizeOf len) := by
    calc 2 = 2 ^ 1 := rfl
      _ ≤ 2 ^ (21 - logBlockSizeOf len) := Nat.pow_le_pow_right (by norm_num) (by omega)
  have hb : 2 ^ (21 - logBlockSizeOf len) - 1 < 2 ^ (21 - logBlockSizeOf len) := by omega
  obtain ⟨hsup, hblock⟩ := Allocation.block_of_addr (s := s) hlt hb
  have hsmall : (⟨s * superblockSize + (2 ^ (21 - logBlockSizeOf len) - 1) *
      2 ^ logBlockSizeOf len, len⟩ : Allocation).IsSmall := Allocation.isSmall_iff.mpr hlt
  have hnew : IsBlockSuperblock (insert s used) (update sb s ⟨logBlockSizeOf len,
      blockAlloc, List.range (2 ^ (21 - logBlockSizeOf len) - 1)⟩) s :=
    ⟨Set.mem_insert s used, by simp⟩
  have hold : ¬IsBlockSuperblock used sb s := fun hold => hs hold.1
  have hnotLive : ∀ b', ¬LiveBlock live s b' := by
    rintro b' ⟨x, hx, -, hxs, -⟩
    exact hs (hxs ▸ h.superblock_mem_used hx)
  refine of_superblocks ?_ ?_ ?_ fun t => ?_
  · intro x hx
    rcases List.mem_cons.mp hx with rfl | hx
    · left
      exact .of_addr hnew (by simp) hlt hb (by simp)
    · refine h.placed_congr hx fun i hi => ?_
      have hused := h.used_of_covers hx hi
      have hne : i ≠ s := fun heq => hs (heq ▸ hused)
      exact ⟨Set.mem_insert_of_mem s hused, by simp [hne]⟩
  · refine h.addr_nodup_cons ?_
    rw [hsup]
    exact hs
  · intro i hi
    rcases Set.mem_insert_iff.mp hi with rfl | hi
    · refine ⟨_, List.mem_cons_self, ?_⟩
      rw [Allocation.covers_iff_of_isSmall hsmall, hsup]
    · obtain ⟨x, hx, hcov⟩ := h.owned i hi
      exact ⟨x, List.mem_cons_of_mem _ hx, hcov⟩
  by_cases hts : t = s
  · subst hts
    refine ⟨fun _ => ?_, fun _ => ?_, fun _ b' => ?_, fun c' => ?_⟩
    · simp [hlt, twelve_le_logBlockSizeOf]
    · simp [List.nodup_range]
    · rw [liveBlock_cons, hsup, hblock]
      simp only [update_self, List.mem_range, hsmall, hnotLive b', true_and, or_false]
      omega
    · rw [hheads, h.mem_heads]
      simp only [hold, hnew, false_and, false_or, and_true, true_and, update_self,
        List.range_eq_nil, ne_eq]
      omega
  · refine (h.superblockOk t).congr (by simp [IsBlockSuperblock, hts])
      (fun _ => update_of_ne hts _ _) (fun b' => ?_) fun c' => ?_
    · rw [liveBlock_cons, hsup]
      simp [Ne.symm hts]
    · rw [hheads]
      simp [hts]

theorem openRun (h : Layout used sb heads live) {n : ℕ} (hfree : ∀ i, s ≤ i → i < s + n → i ∉ used)
    (hlarge : ¬logBlockSizeOf len < 21) (hn : numSuperblocksNeeded (logBlockSizeOf len) = n)
    (hpos : 0 < n) (hlt : n < 2 ^ 16) (hlen : len ≤ n * superblockSize) :
    Layout (used ∪ {i | s ≤ i ∧ i < s + n}) (markAllocation sb s n) heads
      (⟨s * superblockSize, len⟩ :: live) := by
  have hnotSmall : ¬(⟨s * superblockSize, len⟩ : Allocation).IsSmall :=
    fun hsmall => hlarge (Allocation.isSmall_iff.mp hsmall)
  have hspan : (⟨s * superblockSize, len⟩ : Allocation).span = n := by
    rw [Allocation.span, if_neg hnotSmall]
    exact hn
  have hsup : (⟨s * superblockSize, len⟩ : Allocation).superblock = s :=
    Allocation.superblock_of_mul
  have hcovers : ∀ i, (⟨s * superblockSize, len⟩ : Allocation).Covers i ↔ s ≤ i ∧ i < s + n := by
    intro i
    rw [Allocation.Covers, hsup, hspan]
  have hold : ∀ i ∈ used, markAllocation sb s n i = sb i := by
    intro i hi
    have hout : ¬(s ≤ i ∧ i < s + n) := fun hin => hfree i hin.1 hin.2 hi
    rw [markAllocation, if_neg (by omega), if_neg (by omega)]
  have hblk : ∀ t, IsBlockSuperblock (used ∪ {i | s ≤ i ∧ i < s + n}) (markAllocation sb s n) t ↔
      IsBlockSuperblock used sb t := by
    intro t
    constructor
    · rintro ⟨ht | ⟨hle, hlt'⟩, hflags⟩
      · exact ⟨ht, hold t ht ▸ hflags⟩
      · rw [markAllocation] at hflags
        split_ifs at hflags with hbase hin
        · exact absurd hflags (by simp [baseAllocation, blockAlloc])
        · exact absurd hflags (by simp [blockAlloc])
        · omega
    · rintro ⟨ht, hflags⟩
      exact ⟨Or.inl ht, (hold t ht).symm ▸ hflags⟩
  refine of_superblocks ?_ ?_ ?_ fun t => (h.superblockOk t).congr (hblk t)
    (fun ht => hold t ht.1) (fun b' => ?_) fun c' => Iff.rfl
  · intro x hx
    rcases List.mem_cons.mp hx with rfl | hx
    · right
      refine ⟨hnotSmall, fun i hi => Or.inr ((hcovers i).mp hi), ?_, ?_, ?_, ?_, ?_, ?_⟩
      · rw [hsup, markAllocation, if_pos rfl]
      · rw [hsup, hspan, markAllocation, if_pos rfl, Nat.mod_eq_of_lt hlt]
      · intro i hi hne
        rw [hsup] at hne
        rw [hcovers] at hi
        rw [markAllocation, if_neg hne, if_pos (by omega)]
      · rw [hsup]
      · rw [hspan]
        exact hlen
      · rw [hspan]
        exact hpos
    · refine h.placed_congr hx fun i hi => ?_
      have hused := h.used_of_covers hx hi
      exact ⟨Or.inl hused, hold i hused⟩
  · refine h.addr_nodup_cons ?_
    rw [hsup]
    exact hfree s le_rfl (by omega)
  · rintro i (hi | hi)
    · obtain ⟨x, hx, hcov⟩ := h.owned i hi
      exact ⟨x, List.mem_cons_of_mem _ hx, hcov⟩
    · exact ⟨_, List.mem_cons_self, (hcovers i).mpr hi⟩
  · rw [liveBlock_cons]
    simp [hnotSmall]

/-! ### Releases -/

variable {a : Allocation}

theorem eq_of_addr_eq (h : Layout used sb heads live) {x : Allocation} (hx : x ∈ live)
    (ha : a ∈ live) (haddr : x.addr = a.addr) : x = a :=
  List.inj_on_of_nodup_map h.addr_nodup hx ha haddr

private theorem addr_eq_of_block_eq (h : Layout used sb heads live) {x : Allocation} (hx : x ∈ live)
    (ha : a ∈ live) (hxsmall : x.IsSmall) (hsmall : a.IsSmall) (hs : x.superblock = a.superblock)
    (hblock : x.block = a.block) : x.addr = a.addr := by
  have hxb := h.placedBlock hx hxsmall
  have hab := h.placedBlock ha hsmall
  have hlog : x.logBlock = a.logBlock := by rw [← hxb.logBlockSize, hs, hab.logBlockSize]
  rw [hxb.addr_eq, hab.addr_eq, hs, hblock, hlog]

private theorem liveBlock_release (h : Layout used sb heads live) (ha : a ∈ live)
    (hsmall : a.IsSmall) (hlive : ∀ x, x ∈ live' ↔ x ∈ live ∧ x.addr ≠ a.addr) {t b' : ℕ} :
    LiveBlock live' t b' ↔ LiveBlock live t b' ∧ ¬(t = a.superblock ∧ b' = a.block) := by
  constructor
  · rintro ⟨x, hx, hxsmall, rfl, rfl⟩
    obtain ⟨hx, hne⟩ := (hlive x).mp hx
    refine ⟨⟨x, hx, hxsmall, rfl, rfl⟩, ?_⟩
    rintro ⟨hs, hblock⟩
    exact hne (h.addr_eq_of_block_eq hx ha hxsmall hsmall hs hblock)
  · rintro ⟨⟨x, hx, hxsmall, rfl, rfl⟩, hne⟩
    refine ⟨x, (hlive x).mpr ⟨hx, fun haddr => hne ?_⟩, hxsmall, rfl, rfl⟩
    rw [h.eq_of_addr_eq hx ha haddr]
    exact ⟨rfl, rfl⟩

private theorem owned_release (h : Layout used sb heads live) (ha : a ∈ live)
    (hlive : ∀ x, x ∈ live' ↔ x ∈ live ∧ x.addr ≠ a.addr) {i : ℕ} (hi : i ∈ used)
    (hnot : ¬a.Covers i) : ∃ x ∈ live', x.Covers i := by
  obtain ⟨x, hx, hcov⟩ := h.owned i hi
  refine ⟨x, (hlive x).mpr ⟨hx, fun haddr => hnot ?_⟩, hcov⟩
  rwa [h.eq_of_addr_eq hx ha haddr] at hcov

private theorem nodup_release (h : Layout used sb heads live) (ha : a ∈ live) (hsmall : a.IsSmall) :
    ((sb a.superblock).freeBlocks ++ [a.block]).Nodup := by
  have hab := h.placedBlock ha hsmall
  refine List.nodup_append.mpr
    ⟨h.freeBlocks_nodup _ hab.isBlockSuperblock, List.nodup_singleton _, ?_⟩
  intro x hx y hy heq
  rw [List.mem_singleton.mp hy] at heq
  exact hab.block_notMem (heq ▸ hx)

private theorem subset_release (h : Layout used sb heads live) (ha : a ∈ live)
    (hsmall : a.IsSmall) : ∀ b' ∈ (sb a.superblock).freeBlocks ++ [a.block],
      b' < 2 ^ (21 - a.logBlock) := by
  have hab := h.placedBlock ha hsmall
  intro b' hb'
  rcases List.mem_append.mp hb' with hb' | hb'
  · rw [← hab.logBlockSize]
    exact ((h.mem_freeBlocks _ hab.isBlockSuperblock b').mp hb').1
  · rw [List.mem_singleton.mp hb']
    exact hab.block_lt

/-- A list of distinct numbers below `n` holds all of them just when its length is `n`. -/
private theorem forall_mem_iff_length_eq {l : List ℕ} {n : ℕ} (hnodup : l.Nodup)
    (hlt : ∀ x ∈ l, x < n) : (∀ x < n, x ∈ l) ↔ l.length = n := by
  have hsub : l ⊆ List.range n := fun x hx => List.mem_range.mpr (hlt x hx)
  have hle : l.Subperm (List.range n) := List.subperm_of_subset hnodup hsub
  constructor
  · intro hall
    have hge : (List.range n).Subperm l :=
      List.subperm_of_subset List.nodup_range fun x hx => hall x (List.mem_range.mp hx)
    simpa using le_antisymm hle.length_le hge.length_le
  · intro hlen x hx
    have hperm : l.Perm (List.range n) := hle.perm_of_length_le (by simp [hlen])
    exact hperm.mem_iff.mpr (List.mem_range.mpr hx)

/-- In a superblock that is not entirely free after the release, another block is live. -/
private theorem exists_liveBlock_of_length_ne (h : Layout used sb heads live) (ha : a ∈ live)
    (hsmall : a.IsSmall)
    (hlen : ((sb a.superblock).freeBlocks ++ [a.block]).length ≠ 2 ^ (21 - a.logBlock)) :
    ∃ b', LiveBlock live a.superblock b' ∧ b' ≠ a.block := by
  have hab := h.placedBlock ha hsmall
  obtain ⟨b', hb', hnot⟩ : ∃ b' < 2 ^ (21 - a.logBlock),
      b' ∉ (sb a.superblock).freeBlocks ++ [a.block] := by
    by_contra hall
    push Not at hall
    exact hlen ((forall_mem_iff_length_eq (h.nodup_release ha hsmall)
      (h.subset_release ha hsmall)).mp hall)
  rw [List.mem_append, List.mem_singleton, not_or,
    h.mem_freeBlocks _ hab.isBlockSuperblock, hab.logBlockSize] at hnot
  refine ⟨b', ?_, hnot.2⟩
  by_contra hno
  exact hnot.1 ⟨hb', hno⟩

theorem returnBlock (h : Layout used sb heads live) (ha : a ∈ live) (hsmall : a.IsSmall)
    (hlive : ∀ x, x ∈ live' ↔ x ∈ live ∧ x.addr ≠ a.addr) (hsub : live'.Sublist live)
    (hlen : ((sb a.superblock).freeBlocks ++ [a.block]).length ≠ 2 ^ (21 - a.logBlock))
    (hheads : ∀ c t, t ∈ heads' c ↔ t ∈ heads c ∨ (t = a.superblock ∧ a.logBlock = 12 + c)) :
    Layout used
      (withFreeBlocks sb a.superblock ((sb a.superblock).freeBlocks ++ [a.block]))
      heads' live' := by
  have hab := h.placedBlock ha hsmall
  refine of_superblocks ?_ (h.addr_nodup.sublist (hsub.map _)) ?_ fun t => ?_
  · intro x hx
    obtain ⟨hx, hne⟩ := (hlive x).mp hx
    refine h.placed_withFreeBlocks hab.isBlockSuperblock hx fun hxsmall hxs => ?_
    rw [List.mem_append, List.mem_singleton, not_or]
    exact ⟨hxs ▸ (h.placedBlock hx hxsmall).block_notMem,
      fun hblock => hne (h.addr_eq_of_block_eq hx ha hxsmall hsmall hxs hblock)⟩
  · intro i hi
    by_cases his : i = a.superblock
    · obtain ⟨b', hlb, hne⟩ := h.exists_liveBlock_of_length_ne ha hsmall hlen
      obtain ⟨x, hx, hxsmall, hxs, -⟩ := (h.liveBlock_release ha hsmall hlive).mpr
        ⟨hlb, fun heq => hne heq.2⟩
      exact ⟨x, hx, (Allocation.covers_iff_of_isSmall hxsmall).mpr (his.trans hxs.symm)⟩
    · exact h.owned_release ha hlive hi fun hcov =>
        his ((Allocation.covers_iff_of_isSmall hsmall).mp hcov)
  by_cases hts : t = a.superblock
  · subst hts
    refine ⟨fun _ => ?_, fun _ => ?_, fun _ b' => ?_, fun c => ?_⟩
    · simpa using h.logBlockSize_mem _ hab.isBlockSuperblock
    · rw [withFreeBlocks_freeBlocks_self]
      exact h.nodup_release ha hsmall
    · rw [h.liveBlock_release ha hsmall hlive, withFreeBlocks_logBlockSize,
        withFreeBlocks_freeBlocks_self, List.mem_append, List.mem_singleton,
        h.mem_freeBlocks _ hab.isBlockSuperblock, hab.logBlockSize]
      have hlt := hab.block_lt
      constructor
      · rintro (⟨hlt', hnot⟩ | rfl)
        · exact ⟨hlt', fun hl => hnot hl.1⟩
        · exact ⟨hlt, fun hl => hl.2 ⟨rfl, rfl⟩⟩
      · rintro ⟨hlt', hnot⟩
        by_cases hblock : b' = a.block
        · exact Or.inr hblock
        · exact Or.inl ⟨hlt', fun hl => hnot ⟨hl, fun heq => hblock heq.2⟩⟩
    · have hne : (sb a.superblock).freeBlocks ++ [a.block] ≠ [] := by simp
      rw [hheads, h.mem_heads, isBlockSuperblock_withFreeBlocks, withFreeBlocks_logBlockSize]
      simp only [withFreeBlocks_freeBlocks_self, hne, ne_eq, not_false_eq_true, and_true, true_and,
        hab.logBlockSize, hab.isBlockSuperblock]
      tauto
  · refine (h.superblockOk t).congr (by simp) (fun _ => withFreeBlocks_of_ne sb _ hts)
      (fun b' => ?_) fun c => ?_
    · rw [h.liveBlock_release ha hsmall hlive]
      simp [hts]
    · rw [hheads]
      simp [hts]

theorem closeSuperblock (h : Layout used sb heads live) (ha : a ∈ live) (hsmall : a.IsSmall)
    (hlive : ∀ x, x ∈ live' ↔ x ∈ live ∧ x.addr ≠ a.addr) (hsub : live'.Sublist live)
    (hlen : ((sb a.superblock).freeBlocks ++ [a.block]).length = 2 ^ (21 - a.logBlock))
    (hheads : ∀ c t, t ∈ heads' c ↔ t ∈ heads c ∧ t ≠ a.superblock) :
    Layout (used \ {a.superblock})
      (withFreeBlocks sb a.superblock ((sb a.superblock).freeBlocks ++ [a.block]))
      heads' live' := by
  have hab := h.placedBlock ha hsmall
  have hall := (forall_mem_iff_length_eq (h.nodup_release ha hsmall)
    (h.subset_release ha hsmall)).mpr hlen
  -- nothing that stays live lies in the superblock
  have hout : ∀ x ∈ live', ∀ i, x.Covers i → i ≠ a.superblock := by
    rintro x hx i hcov rfl
    obtain ⟨hx, hne⟩ := (hlive x).mp hx
    rcases h.placed x hx with hxb | hxr
    · have hxs := ((Allocation.covers_iff_of_isSmall hxb.small).mp hcov).symm
      have hlog : x.logBlock = a.logBlock := by rw [← hxb.logBlockSize, hxs, hab.logBlockSize]
      rcases List.mem_append.mp (hall x.block (hlog ▸ hxb.block_lt)) with hmem | hmem
      · exact hxb.block_notMem (hxs ▸ hmem)
      · exact hne (h.addr_eq_of_block_eq hx ha hxb.small hsmall hxs (List.mem_singleton.mp hmem))
    · exact hxr.not_covers hab.flags hcov
  have hclosed : ¬IsBlockSuperblock (used \ {a.superblock})
      (withFreeBlocks sb a.superblock ((sb a.superblock).freeBlocks ++ [a.block]))
        a.superblock := fun hblk => hblk.1.2 rfl
  refine of_superblocks ?_ (h.addr_nodup.sublist (hsub.map _)) ?_ fun t => ?_
  · intro x hx
    refine h.placed_congr ((hlive x).mp hx).1 fun i hi => ?_
    have hne := hout x hx i hi
    exact ⟨⟨h.used_of_covers ((hlive x).mp hx).1 hi, hne⟩, withFreeBlocks_of_ne sb _ hne⟩
  · rintro i ⟨hi, hne⟩
    exact h.owned_release ha hlive hi fun hcov =>
      hne ((Allocation.covers_iff_of_isSmall hsmall).mp hcov)
  by_cases hts : t = a.superblock
  · subst hts
    refine ⟨fun hblk => absurd hblk hclosed, fun hblk => absurd hblk hclosed,
      fun hblk => absurd hblk hclosed, fun c => ?_⟩
    simp [hheads, hclosed]
  · refine (h.superblockOk t).congr (by simp [IsBlockSuperblock, hts])
      (fun _ => withFreeBlocks_of_ne sb _ hts) (fun b' => ?_) fun c => ?_
    · rw [h.liveBlock_release ha hsmall hlive]
      simp [hts]
    · rw [hheads]
      simp [hts]

theorem closeRun (h : Layout used sb heads live) (ha : a ∈ live) (hlarge : ¬a.IsSmall)
    (hlive : ∀ x, x ∈ live' ↔ x ∈ live ∧ x.addr ≠ a.addr) (hsub : live'.Sublist live) :
    Layout (used \ {i | a.Covers i}) (withFreeBlocks sb a.superblock []) heads live' := by
  have har := h.placedRun ha hlarge
  have hne : ∀ t, ¬a.Covers t → t ≠ a.superblock := by
    rintro t ht rfl
    exact ht har.covers_superblock
  have hout : ∀ x ∈ live', ∀ i, x.Covers i → ¬a.Covers i := by
    intro x hx i hcov hcov'
    obtain ⟨hx, hne⟩ := (hlive x).mp hx
    exact hlarge (h.isSmall_of_covers hx ha hne hcov hcov').2
  have hblk : ∀ t, IsBlockSuperblock (used \ {i | a.Covers i})
      (withFreeBlocks sb a.superblock []) t ↔ IsBlockSuperblock used sb t := by
    intro t
    simp only [IsBlockSuperblock, Set.mem_sdiff, Set.mem_ofPred_eq, withFreeBlocks_flags]
    constructor
    · rintro ⟨⟨ht, -⟩, hflags⟩
      exact ⟨ht, hflags⟩
    · rintro ⟨ht, hflags⟩
      exact ⟨⟨ht, har.not_covers hflags⟩, hflags⟩
  have hsb : ∀ t, IsBlockSuperblock used sb t → withFreeBlocks sb a.superblock [] t = sb t :=
    fun t ht => withFreeBlocks_of_ne sb _ (hne t (har.not_covers ht.2))
  refine of_superblocks ?_ (h.addr_nodup.sublist (hsub.map _)) ?_ fun t =>
    (h.superblockOk t).congr (hblk t) (hsb t) (fun b' => ?_) fun c => Iff.rfl
  · intro x hx
    refine h.placed_congr ((hlive x).mp hx).1 fun i hi => ?_
    have hnot := hout x hx i hi
    exact ⟨⟨h.used_of_covers ((hlive x).mp hx).1 hi, hnot⟩,
      withFreeBlocks_of_ne sb _ (hne i hnot)⟩
  · rintro i ⟨hi, hnot⟩
    exact h.owned_release ha hlive hi hnot
  · constructor
    · rintro ⟨x, hx, hrest⟩
      exact ⟨x, ((hlive x).mp hx).1, hrest⟩
    · rintro ⟨x, hx, hxsmall, hxs, hblock⟩
      refine ⟨x, (hlive x).mpr ⟨hx, fun haddr => hlarge ?_⟩, hxsmall, hxs, hblock⟩
      rw [← h.eq_of_addr_eq hx ha haddr]
      exact hxsmall

end Layout

end Beethoven.Allocator
