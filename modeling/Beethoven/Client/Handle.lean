import Beethoven.Client.Unmapping
import Beethoven.Lib.AddressSpace

/-!
# The regions of an FPGA handle

A model of `fpga_handle_t::malloc`, `fpga_handle_t::free` and `~fpga_handle_t` on top of the remote
pointers. A region that `malloc` maps has two owners: the remote pointers, the last of which unmaps
it, and the handle, which unmaps all regions in its table when it is destroyed. On real silicon the
handle has no such table, and `free` unmaps the region of the pointer given to it. So regions are
unmapped twice, and the second time another region may be mapped at the same addresses
(`not_releasedOnce`). The remote pointers alone unmap their regions once.

The daemon decides the accelerator address of a region, and the operating system decides where in
the host's address space it is mapped. The parameter of `free` is an object that its caller
constructs and destroys.
-/

namespace Beethoven.Client

open Lib Function

/-- Whether the daemon simulates the accelerator (`is_simulation`, and all discrete targets) or
drives the silicon of a Zynq device. -/
inductive Platform where
  | simulation
  | silicon
  deriving DecidableEq

/-- An entry of `device2virtual`; its length is an `int`. -/
structure TableEntry where
  /-- History: the control block of the remote pointers to the region. -/
  block : ℕ
  ptr : UInt64
  len : Int32

/-- A handle, the remote pointers of the program and the regions mapped in its address space, which
are labelled with the control blocks of the remote pointers to them. -/
structure Handle where
  pointers : Pointers
  /-- The elements of the `std::map`, in order. -/
  device2virtual : List (UInt64 × TableEntry)
  alive : Bool
  space : AddressSpace ℕ (2 ^ 64)
  /-- History: the control blocks of the regions that calls of `munmap` were made for. -/
  unmapped : List ℕ

namespace Handle

/-- The steps of a program: `malloc` with the size of the mapping, the accelerator address and the
host address, a step over remote pointers, `free` and the destructor. -/
inductive Action where
  | malloc (len fpgaAddr ptr : UInt64)
  | pointer (a : Client.Action)
  | free (ptr : ℕ)
  | destroy

def init : Handle := ⟨.init, [], true, .empty, []⟩

/-- The assignment `device2virtual[key] = entry`. -/
def assignEntry (key : UInt64) (entry : TableEntry) :
    List (UInt64 × TableEntry) → List (UInt64 × TableEntry)
  | [] => [(key, entry)]
  | (k, e) :: table =>
    if key < k then (key, entry) :: (k, e) :: table
    else if k < key then (k, e) :: assignEntry key entry table
    else (key, entry) :: table

variable (s : Handle)

/-- A call of `munmap` for the region of a control block. It fails on an empty range and on one that
goes beyond the 64-bit addresses; the operating system also refuses other ranges that reach past the
addresses of a process, and so unmaps no more than this. -/
def munmap (block : Option ℕ) (addr len : UInt64) : Handle :=
  { s with
    space := s.space.munmap addr.toNat len.toNat
    unmapped := if ValidRange (2 ^ 64) addr.toNat len.toNat then s.unmapped ++ block.toList
      else s.unmapped }

/-- The calls of `munmap` that remote pointers make. -/
def munmaps (l : List (ℕ × UInt64 × UInt64)) : Handle :=
  l.foldl (fun s x => s.munmap (some x.1) x.2.1 x.2.2) s

/-- `malloc`, after the daemon has answered and the region has been mapped. -/
def malloc (platform : Platform) (len fpgaAddr ptr : UInt64) : Option Handle := do
  let space ← s.space.mmap s.pointers.made ptr.toNat len.toNat
  return { s with
    pointers := s.pointers.construct fpgaAddr ptr len
    space
    device2virtual := match platform with
      | .simulation =>
        assignEntry fpgaAddr ⟨s.pointers.made, ptr, len.toUInt32.toInt32⟩ s.device2virtual
      | .silicon => s.device2virtual }

/-- A step over remote pointers; only `malloc` makes new regions. -/
def pointer (a : Client.Action) : Option Handle :=
  match a with
  | .construct .. => none
  | a => (Client.step s.pointers a).map fun pointers =>
    { s with pointers }.munmaps (pointers.munmaps.drop s.pointers.munmaps.length)

/-- On silicon `free` unmaps what its parameter points to; otherwise it is a request to the
daemon. -/
def free (platform : Platform) (ptr : ℕ) : Option Handle := do
  let p ← s.pointers.get ptr
  match platform with
  | .simulation => return s
  | .silicon => return s.munmap p.block p.hostAddr p.len

/-- The destructor. -/
def destroy : Handle :=
  { s.device2virtual.foldl (fun s x => s.munmap (some x.2.block) x.2.ptr (RemotePtr.word x.2.len)) s
    with
    device2virtual := []
    alive := false }

/-- A handle is not used after its destruction; remote pointers may be. -/
def step (platform : Platform) : Action → Option Handle
  | .malloc len fpgaAddr ptr => if s.alive then s.malloc platform len fpgaAddr ptr else none
  | .pointer a => s.pointer a
  | .free ptr => if s.alive then s.free platform ptr else none
  | .destroy => if s.alive then some s.destroy else none

end Handle

/-- The programs over a handle and remote pointers. -/
def handles (platform : Platform) : System Handle Handle.Action :=
  ⟨.init, fun s => s.step platform⟩

/-- No region is unmapped twice, and the region of every live remote pointer is mapped. -/
structure ReleasedOnce (s : Handle) : Prop where
  once : s.unmapped.Nodup
  mapped : ∀ p, some p ∈ s.pointers.objects → ∀ b, p.block = some b →
    ∃ r ∈ s.space.regions, r.label = b

/-- Only the remote pointers unmap regions: the handle is destroyed while its table is empty, and
there is no `free` on silicon. -/
def SingleOwner (platform : Platform) (s : Handle) : Handle.Action → Prop
  | .malloc .. => True
  | .pointer a => CountFits s.pointers a
  | .free _ => platform = .simulation
  | .destroy => s.device2virtual = []

instance (platform : Platform) (s : Handle) : DecidablePred (SingleOwner platform s)
  | .malloc .. => isTrue trivial
  | .pointer a => inferInstanceAs (Decidable (CountFits s.pointers a))
  | .free _ => inferInstanceAs (Decidable (platform = .simulation))
  | .destroy => match h : s.device2virtual with
    | [] => isTrue h
    | _ :: _ => isFalse (by simp [SingleOwner, h])

/-! ### What the remote pointers unmap -/

/-- No control block is made, and the regions that are unmapped are those of live control blocks. -/
structure Shrinks (s t : Pointers) : Prop where
  made : t.made = s.made
  region : t.region = s.region
  live : ∀ b, (t.blocks b).live = true → (s.blocks b).live = true
  munmaps : ∃ l, t.munmaps = s.munmaps ++ l ∧ ∀ x ∈ l, (s.blocks x.1).live = true

namespace Shrinks

variable {s t u : Pointers} {p : RemotePtr} {keepsNull : Bool} {x : Option ℕ}

theorem refl (s : Pointers) : Shrinks s s := ⟨rfl, rfl, fun _ h => h, [], by simp, by simp⟩

theorem trans (h : Shrinks s t) (h' : Shrinks t u) : Shrinks s u := by
  obtain ⟨l, hl, hlive⟩ := h.munmaps
  obtain ⟨l', hl', hlive'⟩ := h'.munmaps
  refine ⟨h'.made.trans h.made, h'.region.trans h.region, fun b hb => h.live b (h'.live b hb),
    l ++ l', by rw [hl', hl, List.append_assoc], fun x hx => ?_⟩
  rcases List.mem_append.mp hx with hx | hx
  · exact hlive x hx
  · exact h.live x.1 (hlive' x hx)

theorem acquire (h : s.acquire x = some t) : Shrinks s t := by
  rcases Pointers.acquire_cases h with ⟨-, rfl⟩ | ⟨b, -, hlive, rfl⟩
  · exact .refl _
  · refine ⟨rfl, rfl, fun b' hb' => ?_, [], by simp, by simp⟩
    by_cases hne : b' = b
    · exact hne ▸ hlive
    · simpa only [update_of_ne hne] using hb'

theorem release (h : s.release p keepsNull = some t) : Shrinks s t := by
  rcases Pointers.release_cases h with ⟨-, rfl⟩ | ⟨b, hblock, hlive, rfl⟩
  · exact .refl _
  · refine ⟨rfl, rfl, fun b' hb' => ?_, ?_⟩
    · by_cases hne : b' = b
      · exact hne ▸ hlive
      · simpa only [update_of_ne hne] using hb'
    · dsimp only
      split_ifs
      · exact ⟨[(b, p.region)], rfl, by simpa using hlive⟩
      · exact ⟨[], by simp, by simp⟩

theorem congr {objects : List (Option RemotePtr)} (h : Shrinks s t) :
    Shrinks s { t with objects } :=
  ⟨h.made, h.region, h.live, h.munmaps⟩

end Shrinks

theorem StepCase.shrinks {s t : Pointers} {a : Client.Action} (h : StepCase s a t)
    (ha : ∀ fpgaAddr hostAddr len, a ≠ .construct fpgaAddr hostAddr len) : Shrinks s t := by
  cases h with
  | construct fpgaAddr hostAddr len => exact absurd rfl (ha fpgaAddr hostAddr len)
  | uncounted fpgaAddr hostAddr len offset => exact (Shrinks.refl s).congr
  | share hget hblock hregion hacquire => exact (Shrinks.acquire hacquire).congr
  | moveConstruct hget => exact (Shrinks.refl s).congr
  | selfAssign => exact .refl s
  | copyAssign hkj hget hget' hrelease hacquire =>
    exact ((Shrinks.release hrelease).trans (Shrinks.acquire hacquire)).congr
  | moveAssign hget hget' => exact (Shrinks.refl s).congr
  | destroy hget hrelease => exact (Shrinks.release hrelease).congr

/-! ### The regions of a handle -/

namespace Handle

variable {s : Handle} {r : MappedRegion ℕ} {l : List (ℕ × UInt64 × UInt64)}

theorem pointers_munmaps (s : Handle) (l : List (ℕ × UInt64 × UInt64)) :
    (s.munmaps l).pointers = s.pointers := by
  induction l generalizing s with
  | nil => rfl
  | cons x l ih => exact ih (s.munmap (some x.1) x.2.1 x.2.2)

theorem munmaps_subset (s : Handle) (l : List (ℕ × UInt64 × UInt64)) :
    (s.munmaps l).space.regions ⊆ s.space.regions := by
  induction l generalizing s with
  | nil => exact List.Subset.refl _
  | cons x l ih =>
    exact List.Subset.trans (ih (s.munmap (some x.1) x.2.1 x.2.2)) AddressSpace.munmap_subset

theorem mem_munmaps (hr : r ∈ s.space.regions)
    (htouch : ∀ x ∈ l, ¬ r.Touches x.2.1.toNat x.2.2.toNat) :
    r ∈ (s.munmaps l).space.regions := by
  induction l generalizing s with
  | nil => exact hr
  | cons x l ih =>
    obtain ⟨hx, hl⟩ := List.forall_mem_cons.mp htouch
    exact ih (s := s.munmap (some x.1) x.2.1 x.2.2) (AddressSpace.mem_munmap hr hx) hl

theorem unmapped_munmaps (hvalid : ∀ x ∈ l, ValidRange (2 ^ 64) x.2.1.toNat x.2.2.toNat) :
    (s.munmaps l).unmapped = s.unmapped ++ l.map Prod.fst := by
  induction l generalizing s with
  | nil => simp [munmaps]
  | cons x l ih =>
    obtain ⟨hx, hl⟩ := List.forall_mem_cons.mp hvalid
    have hhead : (s.munmap (some x.1) x.2.1 x.2.2).unmapped = s.unmapped ++ [x.1] := if_pos hx
    have hrest := ih (s := s.munmap (some x.1) x.2.1 x.2.2) hl
    rw [hhead] at hrest
    simpa [munmaps] using hrest

end Handle

/-- The invariant of the programs in which only remote pointers unmap regions. -/
structure HandleOk (s : Handle) : Prop where
  reaches : pointers.Reaches CountFits s.pointers
  unmapped : s.unmapped = s.pointers.munmaps.map Prod.fst
  region : ∀ r ∈ s.space.regions, r.label < s.pointers.made ∧
    r.addr = (s.pointers.region r.label).1.toNat ∧ r.len = (s.pointers.region r.label).2.toNat
  live : ∀ b, (s.pointers.blocks b).live = true → ∃ r ∈ s.space.regions, r.label = b

namespace HandleOk

variable {s t : Handle} {platform : Platform}

theorem malloc (h : HandleOk s) {len fpgaAddr ptr : UInt64}
    (ht : s.malloc platform len fpgaAddr ptr = some t) : HandleOk t := by
  obtain ⟨space, hspace, ht⟩ := Option.bind_eq_some_iff.mp ht
  obtain rfl := Option.some.inj ht
  have hregions := AddressSpace.mmap_eq_some hspace
  refine ⟨?_, h.unmapped, fun r hr => ?_, fun b hb => ?_⟩
  · exact h.reaches.step (a := .construct fpgaAddr ptr len) (fun k hk => nomatch hk) rfl
  · rw [hregions] at hr
    simp only [Pointers.construct]
    rcases List.mem_append.mp hr with hr | hr
    · obtain ⟨hlt, haddr, hlen⟩ := h.region r hr
      rw [update_of_ne hlt.ne]
      exact ⟨Nat.lt_succ_of_lt hlt, haddr, hlen⟩
    · obtain rfl := List.mem_singleton.mp hr
      rw [update_self]
      exact ⟨Nat.lt_succ_self _, rfl, rfl⟩
  · dsimp only
    rw [hregions]
    by_cases hne : b = s.pointers.made
    · exact ⟨_, List.mem_append_right _ (List.mem_singleton_self _), hne.symm⟩
    · simp only [Pointers.construct, update_of_ne hne] at hb
      obtain ⟨r, hr, hlabel⟩ := h.live b hb
      exact ⟨r, List.mem_append_left _ hr, hlabel⟩

theorem pointer (h : HandleOk s) {a : Client.Action} (hfits : CountFits s.pointers a)
    (ht : s.pointer a = some t) : HandleOk t := by
  obtain ⟨ps, hstep, hne, rfl⟩ : ∃ ps, Client.step s.pointers a = some ps ∧
      (∀ fpgaAddr hostAddr len, a ≠ .construct fpgaAddr hostAddr len) ∧
      t = ({ s with pointers := ps } : Handle).munmaps
        (ps.munmaps.drop s.pointers.munmaps.length) := by
    cases a with
    | construct fpgaAddr hostAddr len => cases ht
    | _ =>
      simp only [Handle.pointer, Option.map_eq_some_iff] at ht
      obtain ⟨ps, hstep, rfl⟩ := ht
      exact ⟨ps, hstep, by simp, rfl⟩
  have hshrinks := (stepCase_of_step hstep).shrinks hne
  have hreaches := h.reaches.step hfits hstep
  have haccounts := (PointersOk.of_reaches hreaches).accounts
  obtain ⟨l, hl, hlive⟩ := hshrinks.munmaps
  rw [hl, List.drop_left]
  -- every region that is unmapped is the mapped region of a control block
  have hmapped : ∀ x ∈ l, ∃ r ∈ s.space.regions, r.label = x.1 ∧
      r.addr = x.2.1.toNat ∧ r.len = x.2.2.toNat := by
    intro x hx
    obtain ⟨r, hr, hlabel⟩ := h.live x.1 (hlive x hx)
    obtain ⟨-, haddr, hlen⟩ := h.region r hr
    have hx' := (haccounts.unmapped x (hl ▸ List.mem_append_right _ hx)).2.2
    rw [hshrinks.region] at hx'
    rw [hlabel, ← hx'] at haddr hlen
    exact ⟨r, hr, hlabel, haddr, hlen⟩
  refine ⟨?_, ?_, fun r hr => ?_, fun b hb => ?_⟩
  · rw [Handle.pointers_munmaps]
    exact hreaches
  · rw [Handle.pointers_munmaps, Handle.unmapped_munmaps, hl, List.map_append, h.unmapped]
    intro x hx
    obtain ⟨r, hr, -, haddr, hlen⟩ := hmapped x hx
    rw [← haddr, ← hlen]
    exact s.space.valid r hr
  · rw [Handle.pointers_munmaps]
    obtain ⟨hlt, haddr, hlen⟩ :=
      h.region r (Handle.munmaps_subset ({ s with pointers := ps } : Handle) l hr)
    rw [← hshrinks.made] at hlt
    rw [← hshrinks.region] at haddr hlen
    exact ⟨hlt, haddr, hlen⟩
  · rw [Handle.pointers_munmaps] at hb
    obtain ⟨r, hr, hlabel⟩ := h.live b (hshrinks.live b hb)
    refine ⟨r, Handle.mem_munmaps hr fun x hx => ?_, hlabel⟩
    obtain ⟨r', hr', hlabel', haddr, hlen⟩ := hmapped x hx
    rw [← haddr, ← hlen]
    refine AddressSpace.not_touches hr hr' fun heq => ?_
    have hdead := (haccounts.unmapped x (hl ▸ List.mem_append_right _ hx)).2.1
    rw [← hlabel', ← heq, hlabel] at hdead
    dsimp only at hb
    rw [hdead] at hb
    cases hb

theorem of_reaches (h : (handles platform).Reaches (SingleOwner platform) s) : HandleOk s := by
  refine System.Reaches.invariant (I := HandleOk) ?_ ?_ h
  · exact ⟨.init _ _, rfl, by simp [handles, Handle.init, AddressSpace.empty],
      by simp [handles, Handle.init, Pointers.init]⟩
  · intro s a t hs hok hstep
    cases a with
    | malloc len fpgaAddr ptr =>
      simp only [handles, Handle.step] at hstep
      split_ifs at hstep
      exact hs.malloc hstep
    | pointer a => exact hs.pointer hok hstep
    | free ptr =>
      simp only [handles, Handle.step] at hstep
      split_ifs at hstep
      obtain ⟨p, -, hstep⟩ := Option.bind_eq_some_iff.mp hstep
      rw [show platform = .simulation from hok] at hstep
      cases hstep
      exact hs
    | destroy =>
      simp only [handles, Handle.step] at hstep
      split_ifs at hstep
      cases hstep
      have hempty : s.device2virtual = [] := hok
      obtain ⟨hreaches, hunmapped, hregion, hlive⟩ := hs
      simp only [Handle.destroy, hempty, List.foldl_nil]
      exact ⟨hreaches, hunmapped, hregion, hlive⟩

end HandleOk

/-- **Regions are released once**, in the programs in which only remote pointers unmap regions. -/
theorem releasedOnce_of_reaches {platform : Platform} {s : Handle}
    (h : (handles platform).Reaches (SingleOwner platform) s) : ReleasedOnce s := by
  have hok := HandleOk.of_reaches h
  have hpointers := PointersOk.of_reaches hok.reaches
  have hdead := DeadUncounted.of_reaches hok.reaches
  refine ⟨?_, fun p hp b hb => hok.live b ?_⟩
  · rw [hok.unmapped]
    exact hpointers.accounts.nodup
  · by_contra hlive
    exact hpointers.not_shared (hdead b (Bool.eq_false_iff.mpr hlive)) hp hb

/-- A region is mapped, copied, freed and unmapped; then another one is mapped at its addresses. -/
theorem releasedOnce_recycled : ∃ s,
    (handles .simulation).Reaches (SingleOwner .simulation) s ∧ s.unmapped = [0] ∧
    s.space.regions = [⟨1, 4096, 64⟩] ∧ ReleasedOnce s := by
  obtain ⟨s, hreach, hunmapped, hregions⟩ := System.exists_reaches (handles .simulation)
    (SingleOwner .simulation) (fun s => s.unmapped = [0] ∧ s.space.regions = [⟨1, 4096, 64⟩])
    [.malloc 64 16 4096, .pointer (.copyConstruct 0), .free 1, .pointer (.destroy 1),
      .pointer (.destroy 0), .malloc 64 16 4096] (by decide +kernel)
  exact ⟨s, hreach, hunmapped, hregions, releasedOnce_of_reaches hreach⟩

theorem ReleasedOnce.false_of_unmapped {s : Handle} {k b : ℕ} {p : RemotePtr} (h : ReleasedOnce s)
    (hget : s.pointers.get k = some p) (hb : p.block = some b) (hregions : s.space.regions = []) :
    False := by
  obtain ⟨r, hr, -⟩ := h.mapped p (Pointers.mem_of_get hget) b hb
  rw [hregions] at hr
  cases hr

/-- A region is unmapped by its last remote pointer and then by the destructor of the handle; the
destructor may unmap a later region at the same addresses, to which there is a live pointer; and
`free` on silicon unmaps the region of its parameter. -/
theorem not_releasedOnce :
    (∃ s, (handles .simulation).Reaches System.anyStep s ∧ s.unmapped = [0, 0] ∧
      ¬ ReleasedOnce s) ∧
    (∃ s, (handles .simulation).Reaches System.anyStep s ∧ s.unmapped = [0, 0, 1] ∧
      s.pointers.get 1 = some ⟨96, 4096, 64, 0, some 1⟩ ∧ s.space.regions = [] ∧
      ¬ ReleasedOnce s) ∧
    ∃ s, (handles .silicon).Reaches System.anyStep s ∧
      s.pointers.get 0 = some ⟨16, 4096, 64, 0, some 0⟩ ∧ s.space.regions = [] ∧
      ¬ ReleasedOnce s := by
  refine ⟨?_, ?_, ?_⟩
  · obtain ⟨s, hreach, hunmapped⟩ := System.exists_reaches (handles .simulation) System.anyStep
      (fun s => s.unmapped = [0, 0])
      [.malloc 64 16 4096, .pointer (.destroy 0), .destroy] (by decide +kernel)
    refine ⟨s, hreach, hunmapped, fun h => ?_⟩
    have hnodup := h.once
    rw [hunmapped] at hnodup
    simp at hnodup
  · obtain ⟨s, hreach, hunmapped, hget, hregions⟩ := System.exists_reaches (handles .simulation)
      System.anyStep (fun s => s.unmapped = [0, 0, 1] ∧
        s.pointers.get 1 = some ⟨96, 4096, 64, 0, some 1⟩ ∧ s.space.regions = [])
      [.malloc 64 16 4096, .pointer (.destroy 0), .malloc 64 96 4096, .destroy] (by decide +kernel)
    exact ⟨s, hreach, hunmapped, hget, hregions, fun h => h.false_of_unmapped hget rfl hregions⟩
  · obtain ⟨s, hreach, hget, hregions⟩ := System.exists_reaches (handles .silicon)
      System.anyStep (fun s => s.pointers.get 0 = some ⟨16, 4096, 64, 0, some 0⟩ ∧
        s.space.regions = [])
      [.malloc 64 16 4096, .free 0] (by decide +kernel)
    exact ⟨s, hreach, hget, hregions, fun h => h.false_of_unmapped hget rfl hregions⟩

end Beethoven.Client
