import Beethoven.Client.RemotePtr

/-!
# When remote pointers unmap their regions

The count of a control block is the number of its counted references modulo `2 ^ 16`, so the block
of a region that more than `2 ^ 16` objects share may be deleted, and the region unmapped, while
objects still share it (`not_noPrematureUnmap`). This is the only way to unmap a region too early,
and the arguments of `munmap` are always those of the constructor.

A move assignment overwrites its target without giving up the reference of the target, and so the
region of the target may never be unmapped (`not_noLeak`).
-/

namespace Beethoven.Client

open Lib Function

/-- The count of a control block is the number of its counted references, as a 16-bit number. -/
structure BlockOk (blk : ControlBlock) (refs : ℕ) : Prop where
  count : blk.live = true → blk.count = UInt16.ofNat refs
  refs_pos : blk.live = true → 0 < refs

/-- The invariant of the control blocks. -/
structure AccountsOk (s : Pointers) : Prop where
  block : ∀ b, BlockOk (s.blocks b) (s.refs b)
  unmade : ∀ b, s.made ≤ b → (s.blocks b).live = false ∧ s.refs b = 0
  unmapped : ∀ x ∈ s.munmaps,
    x.1 < s.made ∧ (s.blocks x.1).live = false ∧ x.2 = s.region x.1
  nodup : (s.munmaps.map Prod.fst).Nodup

/-- The invariant of the objects: each knows the region of its control block. -/
def ObjectsOk (s : Pointers) : Prop :=
  ∀ p, some p ∈ s.objects → ∀ b, p.block = some b → b < s.made ∧ p.region = s.region b

variable {s t : Pointers} {a : Action} {p q : RemotePtr} {k j b : ℕ} {x : Option ℕ}
  {keepsNull : Bool}

theorem Pointers.mem_of_get (h : s.get k = some p) : some p ∈ s.objects :=
  List.mem_of_getElem? (Pointers.get_eq_some.mp h)

/-! ### The control blocks -/

/-- A relation between the values of two functions, after an update of both at one place. -/
private theorem forall_update {β γ : Type*} {R : ℕ → β → γ → Prop} {f : ℕ → β} {g : ℕ → γ}
    (h : ∀ b, R b (f b) (g b)) {y : β} {z : γ} (hb : R b y z) (b' : ℕ) :
    R b' (update f b y b') (update g b z b') := by
  by_cases hne : b' = b
  · subst hne
    rwa [update_self, update_self]
  · rw [update_of_ne hne, update_of_ne hne]
    exact h b'

namespace BlockOk

variable {blk : ControlBlock} {refs : ℕ}

theorem acquire (h : BlockOk blk refs) :
    BlockOk { blk with count := blk.count + 1 } (refs + 1) := by
  refine ⟨fun hlive => ?_, fun _ => Nat.succ_pos refs⟩
  change blk.count + 1 = UInt16.ofNat (refs + 1)
  rw [h.count hlive, UInt16.ofNat_add]
  rfl

/-- The count comes to zero with the last reference, or when it has wrapped around. -/
theorem count_sub_one (h : BlockOk blk refs) (hlive : blk.live = true) :
    blk.count - 1 = UInt16.ofNat (refs - 1) ∧ (blk.count - 1 = 0 ↔ refs % 2 ^ 16 = 1) := by
  have hpos := h.refs_pos hlive
  have hcount : blk.count - 1 = UInt16.ofNat (refs - 1) := by
    rw [h.count hlive, UInt16.ofNat_sub hpos]
    rfl
  refine ⟨hcount, ?_⟩
  rw [hcount, ← UInt16.toNat_inj, UInt16.toNat_ofNat']
  change (refs - 1) % 2 ^ 16 = 0 ↔ _
  omega

theorem release (h : BlockOk blk refs) (hlive : blk.live = true) :
    BlockOk ⟨blk.count - 1, blk.count - 1 != 0⟩ (refs - 1) := by
  obtain ⟨hcount, hzero⟩ := h.count_sub_one hlive
  have hpos := h.refs_pos hlive
  refine ⟨fun _ => hcount, fun hleft => ?_⟩
  have hne : ¬ refs % 2 ^ 16 = 1 := hzero.not.mp (bne_iff_ne.mp hleft)
  omega

end BlockOk

namespace AccountsOk

theorem init : AccountsOk .init := by
  constructor <;> simp [Pointers.init]
  exact ⟨by simp, by simp⟩

theorem lt_made (h : AccountsOk s) (hlive : (s.blocks b).live = true) : b < s.made := by
  by_contra hle
  rw [(h.unmade b (not_lt.mp hle)).1] at hlive
  cases hlive

theorem ne_of_made_le (h : AccountsOk s) (hlive : (s.blocks b).live = true) {b' : ℕ}
    (hb' : s.made ≤ b') : b' ≠ b := by
  rintro rfl
  exact absurd (h.lt_made hlive) (not_lt.mpr hb')

theorem ne_of_unmapped (h : AccountsOk s) (hlive : (s.blocks b).live = true)
    {y : ℕ × UInt64 × UInt64} (hy : y ∈ s.munmaps) : y.1 ≠ b := by
  rintro rfl
  rw [(h.unmapped y hy).2.1] at hlive
  cases hlive

theorem construct (h : AccountsOk s) (fpgaAddr hostAddr len : UInt64) :
    AccountsOk (s.construct fpgaAddr hostAddr len) := by
  constructor
  · exact forall_update (R := fun _ => BlockOk) h.block ⟨fun _ => rfl, fun _ => Nat.one_pos⟩
  · intro b hb
    have hlt : s.made < b := hb
    simp only [Pointers.construct, update_of_ne hlt.ne']
    exact h.unmade b hlt.le
  · intro y hy
    obtain ⟨hlt, hdead, hregion⟩ := h.unmapped y hy
    simp only [Pointers.construct, update_of_ne hlt.ne]
    exact ⟨Nat.lt_succ_of_lt hlt, hdead, hregion⟩
  · exact h.nodup

theorem acquire (h : AccountsOk s) (ht : s.acquire x = some t) : AccountsOk t := by
  rcases Pointers.acquire_cases ht with ⟨-, rfl⟩ | ⟨b, -, hlive, rfl⟩
  · exact h
  constructor
  · exact forall_update (R := fun _ => BlockOk) h.block (h.block b).acquire
  · intro b' hb'
    simp only [update_of_ne (h.ne_of_made_le hlive hb')]
    exact h.unmade b' hb'
  · intro y hy
    simp only [update_of_ne (h.ne_of_unmapped hlive hy)]
    exact h.unmapped y hy
  · exact h.nodup

theorem release (h : AccountsOk s) (hregion : ∀ b, p.block = some b → p.region = s.region b)
    (ht : s.release p keepsNull = some t) : AccountsOk t := by
  rcases Pointers.release_cases ht with ⟨-, rfl⟩ | ⟨b, hblock, hlive, rfl⟩
  · exact h
  constructor
  · exact forall_update (R := fun _ => BlockOk) h.block ((h.block b).release hlive)
  · intro b' hb'
    simp only [update_of_ne (h.ne_of_made_le hlive hb')]
    exact h.unmade b' hb'
  · intro y hy
    dsimp only at hy ⊢
    by_cases hold : y ∈ s.munmaps
    · rw [update_of_ne (h.ne_of_unmapped hlive hold)]
      exact h.unmapped y hold
    · split_ifs at hy with hunmap
      · obtain rfl := List.mem_singleton.mp ((List.mem_append.mp hy).resolve_left hold)
        rw [update_self, hunmap.1]
        exact ⟨h.lt_made hlive, rfl, hregion b hblock⟩
      · exact absurd hy hold
  · dsimp only
    split_ifs
    · rw [List.map_append, List.nodup_append]
      refine ⟨h.nodup, List.nodup_singleton _, ?_⟩
      rintro _ hmem _ hmem' rfl
      obtain ⟨y, hy, hyb⟩ := List.mem_map.mp hmem
      exact h.ne_of_unmapped hlive hy (hyb.trans (List.mem_singleton.mp hmem'))
    · exact h.nodup

end AccountsOk

/-! ### The objects -/

namespace ObjectsOk

theorem of_get (h : ObjectsOk s) (hk : s.get k = some p) :
    ∀ b, p.block = some b → b < s.made ∧ p.region = s.region b :=
  h p (Pointers.mem_of_get hk)

theorem frame (h : ObjectsOk s) (hobjects : t.objects = s.objects) (hmade : t.made = s.made)
    (hregion : t.region = s.region) : ObjectsOk t := by
  rw [ObjectsOk, hobjects, hmade, hregion]
  exact h

theorem push (h : ObjectsOk s) (hp : ∀ b, p.block = some b → b < s.made ∧ p.region = s.region b) :
    ObjectsOk (s.push p) := by
  intro p' hp'
  rcases List.mem_append.mp hp' with hp' | hp'
  · exact h p' hp'
  · obtain rfl : p' = p := Option.some.inj (List.mem_singleton.mp hp')
    exact hp

theorem put (h : ObjectsOk s) (hp : ∀ b, p.block = some b → b < s.made ∧ p.region = s.region b)
    (k : ℕ) : ObjectsOk (s.put k p) := by
  intro p' hp'
  rcases List.mem_or_eq_of_mem_set hp' with hp' | hp'
  · exact h p' hp'
  · obtain rfl : p' = p := Option.some.inj hp'
    exact hp

theorem erase (h : ObjectsOk s) (k : ℕ) : ObjectsOk (s.erase k) := by
  intro p hp
  rcases List.mem_or_eq_of_mem_set hp with hp | hp
  · exact h p hp
  · cases hp

theorem construct (h : ObjectsOk s) (fpgaAddr hostAddr len : UInt64) :
    ObjectsOk (s.construct fpgaAddr hostAddr len) := by
  intro p hp b hb
  rcases List.mem_append.mp hp with hp | hp
  · obtain ⟨hlt, hregion⟩ := h p hp b hb
    simp only [Pointers.construct, update_of_ne hlt.ne]
    exact ⟨Nat.lt_succ_of_lt hlt, hregion⟩
  · obtain rfl := Option.some.inj (List.mem_singleton.mp hp)
    obtain rfl : s.made = b := Option.some.inj hb
    simp [Pointers.construct, RemotePtr.region]

end ObjectsOk

theorem StepCase.invariant (h : StepCase s a t) (haccounts : AccountsOk s)
    (hobjects : ObjectsOk s) : AccountsOk t ∧ ObjectsOk t := by
  cases h with
  | construct fpgaAddr hostAddr len =>
    exact ⟨haccounts.construct fpgaAddr hostAddr len, hobjects.construct fpgaAddr hostAddr len⟩
  | uncounted fpgaAddr hostAddr len offset =>
    obtain ⟨hblock, hunmade, hunmapped, hnodup⟩ := haccounts
    exact ⟨⟨hblock, hunmade, hunmapped, hnodup⟩, hobjects.push (by simp)⟩
  | @share _ k p q t hget hblock hregion hacquire =>
    obtain ⟨hobj, hmade, hreg, -⟩ := Pointers.acquire_frame hacquire
    obtain ⟨hblk, hunmade, hunmapped, hnodup⟩ := haccounts.acquire hacquire
    refine ⟨⟨hblk, hunmade, hunmapped, hnodup⟩, (hobjects.frame hobj hmade hreg).push ?_⟩
    rw [hblock, hregion, hmade, hreg]
    exact hobjects.of_get hget
  | @moveConstruct k p hget =>
    obtain ⟨hblock, hunmade, hunmapped, hnodup⟩ := haccounts
    exact ⟨⟨hblock, hunmade, hunmapped, hnodup⟩,
      (hobjects.put (by simp [RemotePtr.default]) k).push (hobjects.of_get hget)⟩
  | selfAssign => exact ⟨haccounts, hobjects⟩
  | @copyAssign k j p q u v hkj hget hget' hrelease hacquire =>
    obtain ⟨hobj, hmade, hreg⟩ := Pointers.release_frame hrelease
    obtain ⟨hobj', hmade', hreg', -⟩ := Pointers.acquire_frame hacquire
    have hreleased := haccounts.release (fun b hb => (hobjects.of_get hget b hb).2) hrelease
    obtain ⟨hblk, hunmade, hunmapped, hnodup⟩ := hreleased.acquire hacquire
    refine ⟨⟨hblk, hunmade, hunmapped, hnodup⟩,
      ((hobjects.frame hobj hmade hreg).frame hobj' hmade' hreg').put ?_ k⟩
    rw [hmade', hreg', hmade, hreg]
    exact hobjects.of_get hget'
  | @moveAssign k j p q hget hget' =>
    obtain ⟨hblock, hunmade, hunmapped, hnodup⟩ := haccounts
    exact ⟨⟨hblock, hunmade, hunmapped, hnodup⟩,
      (hobjects.put (hobjects.of_get hget') k).put (by simp) j⟩
  | @destroy k p t hget hrelease =>
    obtain ⟨hobj, hmade, hreg⟩ := Pointers.release_frame hrelease
    obtain ⟨hblk, hunmade, hunmapped, hnodup⟩ :=
      haccounts.release (fun b hb => (hobjects.of_get hget b hb).2) hrelease
    exact ⟨⟨hblk, hunmade, hunmapped, hnodup⟩, (hobjects.frame hobj hmade hreg).erase k⟩

/-- The invariant of every program: no holder of a control block is uncounted. -/
structure PointersOk (s : Pointers) : Prop where
  accounts : AccountsOk s
  objects : ObjectsOk s
  sound : s.ledger.Sound

theorem PointersOk.of_reaches {ok : Pointers → Action → Prop} (h : pointers.Reaches ok s) :
    PointersOk s := by
  refine System.Reaches.invariant (I := PointersOk) ?_ ?_ h
  · exact ⟨.init, by simp [ObjectsOk, pointers, Pointers.init], fun b => Nat.zero_le _⟩
  · intro s a t hs _ hstep
    have hcase := stepCase_of_step hstep
    obtain ⟨haccounts, hobjects⟩ := hcase.invariant hs.accounts hs.objects
    refine ⟨haccounts, hobjects, ?_⟩
    rcases hcase.ledger (hs.accounts.unmade s.made le_rfl).2 with hsteps | ⟨-, l, hloss, hsteps⟩
    · exact hs.sound.steps hsteps
    · exact (hs.sound.loss hloss).steps hsteps

theorem PointersOk.not_shared (h : PointersOk s) (hrefs : s.refs b = 0) (hp : some p ∈ s.objects) :
    p.block ≠ some b := by
  intro hb
  have hnone : s.ledger.holders b = 0 := Nat.le_zero.mp (hrefs ▸ h.sound b)
  refine Ledger.holders_eq_zero.mp hnone (List.mem_map.mpr ⟨some p, hp, ?_⟩)
  exact hb

/-! ### No region is unmapped too early -/

/-- No region is unmapped while a live object shares its control block, or a second time, or with
other arguments than those of the constructor. -/
structure NoPrematureUnmap (s : Pointers) : Prop where
  unshared : ∀ y ∈ s.munmaps, ∀ p, some p ∈ s.objects → p.block ≠ some y.1
  once : (s.munmaps.map Prod.fst).Nodup
  arguments : ∀ y ∈ s.munmaps, y.2 = s.region y.1

/-- The object whose reference a step gives up. -/
def Action.releases : Action → Option ℕ
  | .destroy this => some this
  | .copyAssign this other => if this = other then none else some this
  | _ => none

/-- A reference is given up only while the 16-bit count tells whether it is the last one. -/
def CountFits (s : Pointers) (a : Action) : Prop :=
  ∀ k ∈ a.releases, ∀ p ∈ s.get k, ∀ b ∈ p.block, s.refs b % 2 ^ 16 = 1 → s.refs b = 1

instance (s : Pointers) (a : Action) : Decidable (CountFits s a) :=
  inferInstanceAs (Decidable (∀ k ∈ a.releases, ∀ p ∈ s.get k, ∀ b ∈ p.block,
    s.refs b % 2 ^ 16 = 1 → s.refs b = 1))

/-- A deleted control block has no counted references. -/
def DeadUncounted (s : Pointers) : Prop := ∀ b, (s.blocks b).live = false → s.refs b = 0

namespace DeadUncounted

theorem acquire (h : DeadUncounted s) (ht : s.acquire x = some t) : DeadUncounted t := by
  rcases Pointers.acquire_cases ht with ⟨-, rfl⟩ | ⟨b, -, hlive, rfl⟩
  · exact h
  · refine forall_update (R := fun _ (blk : ControlBlock) refs => blk.live = false → refs = 0) h
      fun hdead => ?_
    rw [hlive] at hdead
    cases hdead

theorem release (h : DeadUncounted s) (haccounts : AccountsOk s)
    (hfits : ∀ b ∈ p.block, s.refs b % 2 ^ 16 = 1 → s.refs b = 1)
    (ht : s.release p keepsNull = some t) : DeadUncounted t := by
  rcases Pointers.release_cases ht with ⟨-, rfl⟩ | ⟨b, hblock, hlive, rfl⟩
  · exact h
  · refine forall_update (R := fun _ (blk : ControlBlock) refs => blk.live = false → refs = 0) h
      fun hdead => ?_
    have hzero := ((haccounts.block b).count_sub_one hlive).2.mp (by simpa using hdead)
    rw [hfits b hblock hzero]

theorem step (h : DeadUncounted s) (haccounts : AccountsOk s) (hcase : StepCase s a t)
    (hfits : CountFits s a) : DeadUncounted t := by
  cases hcase with
  | construct fpgaAddr hostAddr len =>
    exact forall_update (R := fun _ (blk : ControlBlock) refs => blk.live = false → refs = 0) h
      (by simp)
  | uncounted fpgaAddr hostAddr len offset => exact h
  | share hget hblock hregion hacquire =>
    have hacquired := h.acquire hacquire
    exact hacquired
  | moveConstruct hget => exact h
  | selfAssign => exact h
  | @copyAssign k j p q u v hkj hget hget' hrelease hacquire =>
    have hreleased := h.release haccounts (hfits k (by simp [Action.releases, hkj]) p hget) hrelease
    have hacquired := hreleased.acquire hacquire
    exact hacquired
  | moveAssign hget hget' => exact h
  | @destroy k p u hget hrelease =>
    have hreleased := h.release haccounts (hfits k rfl p hget) hrelease
    exact hreleased

theorem of_reaches (h : pointers.Reaches CountFits s) : DeadUncounted s := by
  refine System.Reaches.invariant_of (I := DeadUncounted) (J := PointersOk)
    (fun s hs => .of_reaches hs) (fun _ _ => rfl) ?_ h
  intro s a t hok hs hfits hstep
  exact hs.step hok.accounts (stepCase_of_step hstep) hfits

end DeadUncounted

/-- **No premature unmap**, in the programs in which the counts fit. -/
theorem noPrematureUnmap_of_reaches (h : pointers.Reaches CountFits s) : NoPrematureUnmap s := by
  have hok := PointersOk.of_reaches h
  have hdead := DeadUncounted.of_reaches h
  refine ⟨fun y hy p hp => ?_, hok.accounts.nodup, fun y hy => (hok.accounts.unmapped y hy).2.2⟩
  exact hok.not_shared (hdead y.1 (hok.accounts.unmapped y hy).2.1) hp

/-- Three objects share a region, one of them at an offset; the last one unmaps it. -/
theorem noPrematureUnmap_three_objects : ∃ s, pointers.Reaches CountFits s ∧
    s.munmaps = [(0, 4096, 64)] ∧ NoPrematureUnmap s := by
  obtain ⟨s, hreach, hmunmaps⟩ := System.exists_reaches pointers CountFits
    (fun s => s.munmaps = [(0, 4096, 64)])
    [.construct 16 4096 64, .copyConstruct 0, .add 0 8, .destroy 0, .destroy 1, .destroy 2]
    (by decide +kernel)
  exact ⟨s, hreach, hmunmaps, noPrematureUnmap_of_reaches hreach⟩

theorem exists_copies (n : ℕ) : ∃ s, pointers.Reaches System.anyStep s ∧
    s.objects = List.replicate (n + 1) (some ⟨16, 4096, 64, 0, some 0⟩) ∧
    s.blocks 0 = ⟨UInt16.ofNat (n + 1), true⟩ := by
  induction n with
  | zero =>
    exact ⟨_, (System.Reaches.init pointers System.anyStep).step (a := .construct 16 4096 64)
      trivial rfl, rfl, rfl⟩
  | succ n ih =>
    obtain ⟨s, hreach, hobjects, hblock⟩ := ih
    have hget : s.get 0 = some ⟨16, 4096, 64, 0, some 0⟩ := by
      simp [Pointers.get, hobjects]
    have hstep : step s (.copyConstruct 0) = some (Pointers.push { s with
        blocks := update s.blocks 0 ⟨(s.blocks 0).count + 1, (s.blocks 0).live⟩
        refs := update s.refs 0 (s.refs 0 + 1) } ⟨16, 4096, 64, 0, some 0⟩) := by
      simp [step, hget, Pointers.share, Pointers.acquire, hblock]
    refine ⟨_, hreach.step (a := .copyConstruct 0) trivial hstep, ?_, ?_⟩
    · simp only [Pointers.push, hobjects]
      exact List.replicate_succ'.symm
    · simp only [Pointers.push, update_self, hblock, UInt16.ofNat_add]
      rfl

theorem step_destroy_of_count (hget : s.get k = some p) (hblock : p.block = some b)
    (hone : s.blocks b = ⟨1, true⟩) : ∃ t, step s (.destroy k) = some t ∧
      (b, p.region) ∈ t.munmaps ∧ t.objects = s.objects.set k none := by
  simp [step, Pointers.destroy, Pointers.release, Pointers.erase, hget, hblock, hone]

/-- With `2 ^ 16 + 1` objects the count is one again, so the destruction of any of them unmaps the
region that all the others share. -/
theorem not_noPrematureUnmap : ∃ s, pointers.Reaches System.anyStep s ∧ ¬ NoPrematureUnmap s := by
  obtain ⟨n, hn⟩ : ∃ n, n = 2 ^ 16 := ⟨_, rfl⟩
  obtain ⟨s, hreach, hobjects, hblock⟩ := exists_copies n
  have hget : s.get 1 = some ⟨16, 4096, 64, 0, some 0⟩ := by
    rw [Pointers.get_eq_some, hobjects, List.getElem?_replicate_of_lt (by omega)]
  have hone : s.blocks 0 = ⟨1, true⟩ := by
    rw [hblock, hn]
    rfl
  obtain ⟨t, ht, hmunmap, hobjects'⟩ := step_destroy_of_count hget rfl hone
  refine ⟨t, hreach.step (a := .destroy 1) trivial ht, fun h => ?_⟩
  refine h.unshared _ hmunmap ⟨16, 4096, 64, 0, some 0⟩ ?_ rfl
  rw [hobjects', hobjects]
  refine List.mem_of_getElem? (i := 0) ?_
  rw [List.getElem?_set_ne (by decide), List.getElem?_replicate_of_lt (by omega)]

/-! ### No region stays mapped -/

/-- A region whose control block no live object shares has been unmapped. -/
def NoLeak (s : Pointers) : Prop :=
  ∀ b < s.made, (∀ p, some p ∈ s.objects → p.block ≠ some b) → b ∈ s.munmaps.map Prod.fst

/-- A copy assignment to the last holder of a region does not find its host address null. -/
def NullFree (s : Pointers) : Action → Prop
  | .copyAssign this other => this ≠ other → ∀ p ∈ s.get this, ∀ b ∈ p.block,
      (s.blocks b).count = 1 → p.hostAddr ≠ 0
  | _ => True

/-- No reference is lost, and no region is forgotten. -/
def NothingLost (s : Pointers) (a : Action) : Prop := MovesToEmpty s a ∧ NullFree s a

instance (s : Pointers) : DecidablePred (MovesToEmpty s)
  | .moveAssign this _ => inferInstanceAs (Decidable (∀ p ∈ s.get this, p.block = none))
  | .construct .. | .constructUncounted .. | .copyConstruct _ | .moveConstruct _ | .copyAssign ..
  | .add .. | .sub .. | .destroy _ => isTrue trivial

instance (s : Pointers) : DecidablePred (NullFree s)
  | .copyAssign this other => inferInstanceAs (Decidable (this ≠ other → ∀ p ∈ s.get this,
      ∀ b ∈ p.block, (s.blocks b).count = 1 → p.hostAddr ≠ 0))
  | .construct .. | .constructUncounted .. | .copyConstruct _ | .moveConstruct _ | .moveAssign ..
  | .add .. | .sub .. | .destroy _ => isTrue trivial

instance (s : Pointers) (a : Action) : Decidable (NothingLost s a) :=
  inferInstanceAs (Decidable (MovesToEmpty s a ∧ NullFree s a))

/-- The region of a deleted control block has been unmapped. -/
def DeadUnmapped (s : Pointers) : Prop :=
  ∀ b < s.made, (s.blocks b).live = false → b ∈ s.munmaps.map Prod.fst

namespace DeadUnmapped

theorem acquire (h : DeadUnmapped s) (ht : s.acquire x = some t) : DeadUnmapped t := by
  rcases Pointers.acquire_cases ht with ⟨-, rfl⟩ | ⟨b, -, hlive, rfl⟩
  · exact h
  · intro b' hb' hdead
    dsimp only at hdead
    by_cases hne : b' = b
    · subst hne
      rw [update_self, hlive] at hdead
      cases hdead
    · rw [update_of_ne hne] at hdead
      exact h b' hb' hdead

theorem release (h : DeadUnmapped s)
    (hnull : keepsNull = true → ∀ b ∈ p.block, (s.blocks b).count = 1 → p.hostAddr ≠ 0)
    (ht : s.release p keepsNull = some t) : DeadUnmapped t := by
  rcases Pointers.release_cases ht with ⟨-, rfl⟩ | ⟨b, hblock, hlive, rfl⟩
  · exact h
  · intro b' hb' hdead
    dsimp only at hdead ⊢
    by_cases hne : b' = b
    · subst hne
      have hzero : (s.blocks b').count - 1 = 0 := by simpa using hdead
      have hone : (s.blocks b').count = 1 := by
        rw [← sub_add_cancel (s.blocks b').count 1, hzero, zero_add]
      rw [if_pos ⟨hzero, fun hkeep => hnull hkeep.1 b' hblock hone hkeep.2⟩]
      simp
    · rw [update_of_ne hne] at hdead
      have hold := h b' hb' hdead
      split_ifs
      · rw [List.map_append]
        exact List.mem_append_left _ hold
      · exact hold

theorem step (h : DeadUnmapped s) (hcase : StepCase s a t) (hnull : NullFree s a) :
    DeadUnmapped t := by
  cases hcase with
  | construct fpgaAddr hostAddr len =>
    intro b hb hdead
    simp only [Pointers.construct] at hb hdead ⊢
    by_cases hne : b = s.made
    · subst hne
      simp at hdead
    · rw [update_of_ne hne] at hdead
      exact h b (by omega) hdead
  | uncounted fpgaAddr hostAddr len offset => exact h
  | share hget hblock hregion hacquire =>
    have hacquired := h.acquire hacquire
    exact hacquired
  | moveConstruct hget => exact h
  | selfAssign => exact h
  | @copyAssign k j p q u v hkj hget hget' hrelease hacquire =>
    have hacquired := (h.release (fun _ => hnull hkj p hget) hrelease).acquire hacquire
    exact hacquired
  | moveAssign hget hget' => exact h
  | destroy hget hrelease =>
    have hreleased := h.release (by simp) hrelease
    exact hreleased

end DeadUnmapped

/-- What holds in the programs in which no reference is lost. -/
theorem exact_of_reaches (h : pointers.Reaches NothingLost s) :
    s.ledger.Exact ∧ DeadUnmapped s := by
  refine System.Reaches.invariant_of (I := fun s => s.ledger.Exact ∧ DeadUnmapped s)
    (J := PointersOk) (fun s hs => .of_reaches hs) ?_ ?_ h
  · exact ⟨fun b => rfl, fun b hb => absurd hb (Nat.not_lt_zero b)⟩
  · rintro s a t hok ⟨hexact, hdead⟩ ⟨hmoves, hnull⟩ hstep
    have hcase := stepCase_of_step hstep
    refine ⟨?_, hdead.step hcase hnull⟩
    rcases hcase.ledger (hok.accounts.unmade s.made le_rfl).2 with hsteps | ⟨hloses, -⟩
    · exact hexact.steps hsteps
    · exact absurd hmoves hloses

/-- **No leak**, in the programs in which no reference is lost: the region of a control block that
no live object shares has been unmapped. -/
theorem noLeak_of_reaches (h : pointers.Reaches NothingLost s) : NoLeak s := by
  have hok := PointersOk.of_reaches h
  obtain ⟨hexact, hdead⟩ := exact_of_reaches h
  intro b hb hunshared
  have hnone : s.refs b = 0 := by
    rw [← show s.ledger.refs b = s.refs b from rfl, ← hexact b, Ledger.holders_eq_zero]
    intro hmem
    obtain ⟨k, p, hget, hblock⟩ := Pointers.holds_of_slots hmem
    exact hunshared p (Pointers.mem_of_get hget) hblock
  refine hdead b hb (Bool.eq_false_iff.mpr fun hlive => ?_)
  have hpos := (hok.accounts.block b).refs_pos hlive
  omega

/-- Two objects share a region, one of them is overwritten by a copy of a pointer to another region
and the other one is moved and destroyed. -/
theorem noLeak_two_regions : ∃ s, pointers.Reaches NothingLost s ∧ s.made = 2 ∧
    s.munmaps = [(0, 4096, 64)] ∧ NoLeak s := by
  obtain ⟨s, hreach, hmade, hmunmaps⟩ := System.exists_reaches pointers NothingLost
    (fun s => s.made = 2 ∧ s.munmaps = [(0, 4096, 64)])
    [.construct 16 4096 64, .copyConstruct 0, .construct 32 8192 64, .copyAssign 0 2,
      .moveConstruct 1, .destroy 1, .destroy 3] (by decide +kernel)
  exact ⟨s, hreach, hmade, hmunmaps, noLeak_of_reaches hreach⟩

/-- The statement `p = p + 8` assigns a temporary by move to `p`. When both are destroyed, the
region stays mapped. -/
theorem not_noLeak : ∃ s, pointers.Reaches System.anyStep s ∧ ¬ NoLeak s := by
  obtain ⟨s, hreach, hmade, hobjects, hmunmaps⟩ := System.exists_reaches pointers System.anyStep
    (fun s => s.made = 1 ∧ s.objects = [none, none] ∧ s.munmaps = [])
    [.construct 16 4096 64, .add 0 8, .moveAssign 0 1, .destroy 1, .destroy 0]
    (by decide +kernel)
  refine ⟨s, hreach, fun h => ?_⟩
  have hmem := h 0 (by omega) (by simp [hobjects])
  rw [hmunmaps] at hmem
  simp at hmem

end Beethoven.Client
