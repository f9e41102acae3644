import Mathlib.Data.UInt
import Beethoven.Lib.Sharing
import Beethoven.Lib.TransitionSystem

/-!
# Reference-counted remote pointers

A model of `remote_ptr` in `alloc.h` and `alloc.cc`. A pointer to memory of the accelerator has the
address and the length of the host's mapping of that memory. The copies of a pointer share a control
block, which is a mutex and a 16-bit count, and the last one of them unmaps the host's mapping.
Pointer arithmetic gives a copy that is shifted by a number of bytes.

A program over remote pointers is a sequence of constructions, assignments and destructions of
objects. An object is referred to by its number in the order of the constructions; the program uses
an object only while it is live. The steps take the mutex where they touch the count, so a program
of several threads is an interleaving of these steps. A step that uses a deleted control block is
undefined. Addresses, lengths and offsets are 64-bit machine words that wrap around.
-/

namespace Beethoven.Client

open Lib Function

/-- A `remote_ptr`. The members `mutex` and `count` point to the two parts of one control block, or
are both null. -/
structure RemotePtr where
  fpgaAddr : UInt64
  hostAddr : UInt64
  len : UInt64
  offset : UInt64
  block : Option ℕ
  deriving DecidableEq, Repr

namespace RemotePtr

/-- The default constructor. -/
def default : RemotePtr := ⟨0, 0, 0, 0, none⟩

/-- An `int` as a machine word. -/
def word (q : Int32) : UInt64 := .ofInt q.toInt

/-- The members of the result of `operator+`. -/
def add (p : RemotePtr) (q : Int32) : RemotePtr :=
  ⟨p.fpgaAddr + word q, p.hostAddr + word q, p.len - word q, p.offset + word q, p.block⟩

/-- The members of the result of `operator-`. -/
def sub (p : RemotePtr) (q : Int32) : RemotePtr :=
  ⟨p.fpgaAddr - word q, p.hostAddr - word q, p.len + word q, p.offset - word q, p.block⟩

/-- The arguments with which the destructor calls `munmap`. -/
def region (p : RemotePtr) : UInt64 × UInt64 := (p.hostAddr - p.offset, p.len + p.offset)

theorem region_add (p : RemotePtr) (q : Int32) : (p.add q).region = p.region := by
  simp only [region, add, Prod.mk.injEq]
  constructor <;> grind

theorem region_sub (p : RemotePtr) (q : Int32) : (p.sub q).region = p.region := by
  simp only [region, sub, Prod.mk.injEq]
  constructor <;> grind

end RemotePtr

/-- A control block; it is `live` until it is deleted. -/
structure ControlBlock where
  count : UInt16
  live : Bool
  deriving DecidableEq, Repr

/-- The state of a program over remote pointers. Control blocks are numbered in the order in which
they are made. -/
structure Pointers where
  /-- The objects, with nothing in the place of those that have been destroyed. -/
  objects : List (Option RemotePtr)
  blocks : ℕ → ControlBlock
  made : ℕ
  /-- The calls of `munmap`, each with the control block and the arguments. -/
  munmaps : List (ℕ × UInt64 × UInt64)
  /-- History: the address and the length of the region given to the constructor. -/
  region : ℕ → UInt64 × UInt64
  /-- History: the number of increments less that of decrements of the count. -/
  refs : ℕ → ℕ

namespace Pointers

variable (s : Pointers)

def init : Pointers := ⟨[], fun _ => ⟨0, false⟩, 0, [], fun _ => (0, 0), fun _ => 0⟩

/-- A live object. -/
def get (k : ℕ) : Option RemotePtr := s.objects[k]?.join

def push (p : RemotePtr) : Pointers := { s with objects := s.objects ++ [some p] }

def put (k : ℕ) (p : RemotePtr) : Pointers := { s with objects := s.objects.set k (some p) }

/-- The members of an object go away with it. -/
def erase (k : ℕ) : Pointers := { s with objects := s.objects.set k none }

/-- Increment the count of a control block, if there is one. -/
def acquire : Option ℕ → Option Pointers
  | none => some s
  | some b =>
    if (s.blocks b).live then
      some { s with
        blocks := update s.blocks b { s.blocks b with count := (s.blocks b).count + 1 }
        refs := update s.refs b (s.refs b + 1) }
    else none

/-- Decrement the count of the control block of `p`, if there is one. At zero the block is deleted
and the region unmapped, unless `keepsNull` and the host address is null. -/
def release (p : RemotePtr) (keepsNull : Bool) : Option Pointers :=
  match p.block with
  | none => some s
  | some b =>
    if (s.blocks b).live then
      let count := (s.blocks b).count - 1
      some { s with
        blocks := update s.blocks b ⟨count, count != 0⟩
        munmaps := if count = 0 ∧ ¬ (keepsNull ∧ p.hostAddr = 0) then s.munmaps ++ [(b, p.region)]
          else s.munmaps
        refs := update s.refs b (s.refs b - 1) }
    else none

/-- The constructor for a region of the host. -/
def construct (fpgaAddr hostAddr len : UInt64) : Pointers :=
  { s with
    objects := s.objects ++ [some ⟨fpgaAddr, hostAddr, len, 0, some s.made⟩]
    blocks := update s.blocks s.made ⟨1, true⟩
    made := s.made + 1
    region := update s.region s.made (hostAddr, len)
    refs := update s.refs s.made 1 }

/-- The constructor that the copy constructor, `operator+` and `operator-` have in common: an object
with the members `p`. -/
def share (p : RemotePtr) : Option Pointers := (s.acquire p.block).map fun s => s.push p

/-- The move constructor. -/
def moveConstruct (other : ℕ) : Option Pointers := do
  let p ← s.get other
  return (s.put other .default).push p

/-- The copy assignment. A target without a control block has nothing to release; otherwise the
release is that of the destructor, but for the test of `host_addr`. -/
def copyAssign (this other : ℕ) : Option Pointers := do
  let p ← s.get this
  let q ← s.get other
  if this = other then return s
  let s ← s.release p true
  let s ← s.acquire q.block
  return s.put this q

/-- The move assignment: the source keeps its members but for those that point to the control
block. -/
def moveAssign (this other : ℕ) : Option Pointers := do
  let _ ← s.get this
  let q ← s.get other
  return (s.put this q).put other { q with block := none }

/-- The destructor. -/
def destroy (this : ℕ) : Option Pointers := do
  let p ← s.get this
  let s ← s.release p false
  return s.erase this

end Pointers

/-- The steps of a program. The constructors without a control block are one step: `remote_ptr()`,
`remote_ptr(faddr)` and `remote_ptr(faddr, haddr, l, off)` only differ in their members. -/
inductive Action where
  | construct (fpgaAddr hostAddr len : UInt64)
  | constructUncounted (fpgaAddr hostAddr len offset : UInt64)
  | copyConstruct (other : ℕ)
  | moveConstruct (other : ℕ)
  | copyAssign (this other : ℕ)
  | moveAssign (this other : ℕ)
  | add (this : ℕ) (q : Int32)
  | sub (this : ℕ) (q : Int32)
  | destroy (this : ℕ)
  deriving DecidableEq

def step (s : Pointers) : Action → Option Pointers
  | .construct fpgaAddr hostAddr len => some (s.construct fpgaAddr hostAddr len)
  | .constructUncounted fpgaAddr hostAddr len offset =>
    some (s.push ⟨fpgaAddr, hostAddr, len, offset, none⟩)
  | .copyConstruct other => (s.get other).bind s.share
  | .moveConstruct other => s.moveConstruct other
  | .copyAssign this other => s.copyAssign this other
  | .moveAssign this other => s.moveAssign this other
  | .add this q => (s.get this).bind fun p => s.share (p.add q)
  | .sub this q => (s.get this).bind fun p => s.share (p.sub q)
  | .destroy this => s.destroy this

/-- The programs over remote pointers. -/
def pointers : System Pointers Action := ⟨.init, step⟩

/-! ### What a step does -/

/-- The steps, in terms of the operations on the count and of the objects. -/
inductive StepCase (s : Pointers) : Action → Pointers → Prop
  | construct (fpgaAddr hostAddr len : UInt64) :
      StepCase s (.construct fpgaAddr hostAddr len) (s.construct fpgaAddr hostAddr len)
  | uncounted (fpgaAddr hostAddr len offset : UInt64) :
      StepCase s (.constructUncounted fpgaAddr hostAddr len offset)
        (s.push ⟨fpgaAddr, hostAddr, len, offset, none⟩)
  | share {a : Action} {k : ℕ} {p q : RemotePtr} {t : Pointers} (hget : s.get k = some q)
      (hblock : p.block = q.block) (hregion : p.region = q.region)
      (hacquire : s.acquire p.block = some t) : StepCase s a (t.push p)
  | moveConstruct {k : ℕ} {p : RemotePtr} (hget : s.get k = some p) :
      StepCase s (.moveConstruct k) ((s.put k .default).push p)
  | selfAssign {k : ℕ} : StepCase s (.copyAssign k k) s
  | copyAssign {k j : ℕ} {p q : RemotePtr} {t u : Pointers} (hkj : k ≠ j)
      (hget : s.get k = some p) (hget' : s.get j = some q) (hrelease : s.release p true = some t)
      (hacquire : t.acquire q.block = some u) : StepCase s (.copyAssign k j) (u.put k q)
  | moveAssign {k j : ℕ} {p q : RemotePtr} (hget : s.get k = some p) (hget' : s.get j = some q) :
      StepCase s (.moveAssign k j) ((s.put k q).put j { q with block := none })
  | destroy {k : ℕ} {p : RemotePtr} {t : Pointers} (hget : s.get k = some p)
      (hrelease : s.release p false = some t) : StepCase s (.destroy k) (t.erase k)

variable {s t : Pointers} {a : Action} {p q : RemotePtr} {k j b : ℕ} {x : Option ℕ}
  {keepsNull : Bool}

theorem stepCase_of_step (h : step s a = some t) : StepCase s a t := by
  cases a with
  | construct fpgaAddr hostAddr len =>
    cases h
    exact .construct fpgaAddr hostAddr len
  | constructUncounted fpgaAddr hostAddr len offset =>
    cases h
    exact .uncounted fpgaAddr hostAddr len offset
  | copyConstruct other =>
    obtain ⟨p, hp, h⟩ := Option.bind_eq_some_iff.mp h
    obtain ⟨u, hu, rfl⟩ := Option.map_eq_some_iff.mp h
    exact .share hp rfl rfl hu
  | moveConstruct other =>
    obtain ⟨p, hp, h⟩ := Option.bind_eq_some_iff.mp h
    cases h
    exact .moveConstruct hp
  | copyAssign this other =>
    obtain ⟨p, hp, h⟩ := Option.bind_eq_some_iff.mp h
    obtain ⟨q, hq, h⟩ := Option.bind_eq_some_iff.mp h
    split_ifs at h with heq
    · cases h
      subst heq
      exact .selfAssign
    · obtain ⟨u, hu, h⟩ := Option.bind_eq_some_iff.mp h
      obtain ⟨v, hv, h⟩ := Option.bind_eq_some_iff.mp h
      cases h
      exact .copyAssign heq hp hq hu hv
  | moveAssign this other =>
    obtain ⟨p, hp, h⟩ := Option.bind_eq_some_iff.mp h
    obtain ⟨q, hq, h⟩ := Option.bind_eq_some_iff.mp h
    cases h
    exact .moveAssign hp hq
  | add this n =>
    obtain ⟨p, hp, h⟩ := Option.bind_eq_some_iff.mp h
    obtain ⟨u, hu, rfl⟩ := Option.map_eq_some_iff.mp h
    exact .share hp rfl (p.region_add n) hu
  | sub this n =>
    obtain ⟨p, hp, h⟩ := Option.bind_eq_some_iff.mp h
    obtain ⟨u, hu, rfl⟩ := Option.map_eq_some_iff.mp h
    exact .share hp rfl (p.region_sub n) hu
  | destroy this =>
    obtain ⟨p, hp, h⟩ := Option.bind_eq_some_iff.mp h
    obtain ⟨u, hu, h⟩ := Option.bind_eq_some_iff.mp h
    cases h
    exact .destroy hp hu

namespace Pointers

theorem get_eq_some : s.get k = some p ↔ s.objects[k]? = some (some p) :=
  Option.join_eq_some_iff

theorem acquire_cases (h : s.acquire x = some t) :
    x = none ∧ t = s ∨ ∃ b, x = some b ∧ (s.blocks b).live = true ∧ t = { s with
      blocks := update s.blocks b { s.blocks b with count := (s.blocks b).count + 1 }
      refs := update s.refs b (s.refs b + 1) } := by
  cases x with
  | none =>
    cases h
    exact .inl ⟨rfl, rfl⟩
  | some b =>
    rw [acquire] at h
    split_ifs at h with hlive
    cases h
    exact .inr ⟨b, rfl, hlive, rfl⟩

theorem release_cases (h : s.release p keepsNull = some t) :
    p.block = none ∧ t = s ∨ ∃ b, p.block = some b ∧ (s.blocks b).live = true ∧ t = { s with
      blocks := update s.blocks b
        ⟨(s.blocks b).count - 1, (s.blocks b).count - 1 != 0⟩
      munmaps := if (s.blocks b).count - 1 = 0 ∧ ¬ (keepsNull ∧ p.hostAddr = 0) then
          s.munmaps ++ [(b, p.region)] else s.munmaps
      refs := update s.refs b (s.refs b - 1) } := by
  rw [release] at h
  cases hblock : p.block with
  | none =>
    rw [hblock] at h
    cases h
    exact .inl ⟨rfl, rfl⟩
  | some b =>
    rw [hblock] at h
    by_cases hlive : (s.blocks b).live = true
    · simp only [if_pos hlive] at h
      exact .inr ⟨b, rfl, hlive, (Option.some.inj h).symm⟩
    · simp only [if_neg hlive] at h
      cases h

theorem acquire_frame (h : s.acquire x = some t) :
    t.objects = s.objects ∧ t.made = s.made ∧ t.region = s.region ∧ t.munmaps = s.munmaps := by
  rcases acquire_cases h with ⟨-, rfl⟩ | ⟨b, -, -, rfl⟩ <;> exact ⟨rfl, rfl, rfl, rfl⟩

theorem release_frame (h : s.release p keepsNull = some t) :
    t.objects = s.objects ∧ t.made = s.made ∧ t.region = s.region := by
  rcases release_cases h with ⟨-, rfl⟩ | ⟨b, -, -, rfl⟩ <;> exact ⟨rfl, rfl, rfl⟩

end Pointers

/-! ### The references -/

/-- The references that the objects hold to the control blocks. -/
def Pointers.ledger (s : Pointers) : Ledger ℕ :=
  ⟨s.objects.map fun x => x.bind RemotePtr.block, s.refs⟩

namespace Pointers

theorem slots_of_get (h : s.get k = some p) : s.ledger.slots[k]? = some p.block := by
  simp [ledger, get_eq_some.mp h]

theorem holds_of_slots (h : some b ∈ s.ledger.slots) :
    ∃ k p, s.get k = some p ∧ p.block = some b := by
  obtain ⟨x, hx, hxb⟩ := List.mem_map.mp h
  obtain ⟨p, rfl, hp⟩ := Option.bind_eq_some_iff.mp hxb
  obtain ⟨k, hk⟩ := List.mem_iff_getElem?.mp hx
  exact ⟨k, p, get_eq_some.mpr hk, hp⟩

private theorem set_none_of_none {slots : List (Option ℕ)} (h : slots[k]? = some none) :
    slots.set k none = slots := by
  obtain ⟨hlt, hnone⟩ := List.getElem?_eq_some_iff.mp h
  rw [← hnone, List.set_getElem_self]

theorem steps_acquire {l : Ledger ℕ} (hrefs : l.refs = s.refs) (hk : l.slots[k]? = some none)
    (h : s.acquire x = some t) : l.Steps ⟨l.slots.set k x, t.refs⟩ := by
  rcases acquire_cases h with ⟨rfl, rfl⟩ | ⟨b, rfl, -, rfl⟩
  · rw [set_none_of_none hk, ← hrefs]
    exact .refl
  · rw [← hrefs]
    exact (Ledger.Step.take b hk).steps

theorem steps_release {l : Ledger ℕ} (hrefs : l.refs = s.refs) (hk : l.slots[k]? = some p.block)
    (h : s.release p keepsNull = some t) : l.Steps ⟨l.slots.set k none, t.refs⟩ := by
  rcases release_cases h with ⟨hblock, rfl⟩ | ⟨b, hblock, -, rfl⟩
  · rw [hblock] at hk
    rw [set_none_of_none hk, ← hrefs]
    exact .refl
  · rw [hblock] at hk
    rw [← hrefs]
    exact (Ledger.Step.give hk).steps

private theorem set_append_none (slots : List (Option ℕ)) (x : Option ℕ) :
    (slots ++ [none]).set slots.length x = slots ++ [x] := by
  rw [List.set_append_right _ _ le_rfl, Nat.sub_self, List.set_cons_zero]

private theorem getElem?_append_none (slots : List (Option ℕ)) :
    (slots ++ [none])[slots.length]? = some none := by simp

theorem steps_construct (s : Pointers) (fpgaAddr hostAddr len : UInt64)
    (hrefs : s.refs s.made = 0) : s.ledger.Steps (s.construct fpgaAddr hostAddr len).ledger := by
  have htake := (Ledger.Step.take (l := ⟨s.ledger.slots ++ [none], s.refs⟩) s.made
    (getElem?_append_none s.ledger.slots)).steps
  have hgoal : (s.construct fpgaAddr hostAddr len).ledger =
      ⟨(s.ledger.slots ++ [none]).set s.ledger.slots.length (some s.made),
        update s.refs s.made (s.refs s.made + 1)⟩ := by
    rw [set_append_none, hrefs]
    simp [ledger, construct]
  rw [hgoal]
  exact Ledger.Step.grow.steps.trans htake

theorem steps_share (h : s.acquire p.block = some t) : s.ledger.Steps (t.push p).ledger := by
  have htake := steps_acquire (l := ⟨s.ledger.slots ++ [none], s.refs⟩) rfl
    (getElem?_append_none s.ledger.slots) h
  have hgoal : (t.push p).ledger =
      ⟨(s.ledger.slots ++ [none]).set s.ledger.slots.length p.block, t.refs⟩ := by
    rw [set_append_none]
    simp [ledger, push, (acquire_frame h).1]
  rw [hgoal]
  exact Ledger.Step.grow.steps.trans htake

theorem steps_moveConstruct (h : s.get k = some p) :
    s.ledger.Steps ((s.put k .default).push p).ledger := by
  have hk := slots_of_get h
  have hlt : k < s.ledger.slots.length := (List.getElem?_eq_some_iff.mp hk).1
  have hmove := (Ledger.Step.move (l := ⟨s.ledger.slots ++ [none], s.refs⟩)
    (getElem?_append_none s.ledger.slots) (by rwa [List.getElem?_append_left hlt])
    hlt.ne').steps
  have hgoal : ((s.put k .default).push p).ledger =
      ⟨((s.ledger.slots ++ [none]).set s.ledger.slots.length p.block).set k none, s.refs⟩ := by
    rw [set_append_none, List.set_append_left _ _ hlt]
    simp [ledger, push, put, List.map_set, RemotePtr.default]
  rw [hgoal]
  exact Ledger.Step.grow.steps.trans hmove

theorem steps_copyAssign {u : Pointers} (hk : s.get k = some p)
    (hrelease : s.release p keepsNull = some t) (hacquire : t.acquire q.block = some u) :
    s.ledger.Steps (u.put k q).ledger := by
  have hk' := slots_of_get hk
  have hlt : k < s.ledger.slots.length := (List.getElem?_eq_some_iff.mp hk').1
  have hgive := steps_release rfl hk' hrelease
  have htake := steps_acquire (l := ⟨s.ledger.slots.set k none, t.refs⟩) (k := k) rfl
    (by simp [hlt]) hacquire
  have hgoal : (u.put k q).ledger = ⟨(s.ledger.slots.set k none).set k q.block, u.refs⟩ := by
    simp [ledger, put, List.map_set, (acquire_frame hacquire).1, (release_frame hrelease).1]
  rw [hgoal]
  exact hgive.trans htake

theorem steps_destroy (hk : s.get k = some p) (hrelease : s.release p keepsNull = some t) :
    s.ledger.Steps (t.erase k).ledger := by
  have hgoal : (t.erase k).ledger = ⟨s.ledger.slots.set k none, t.refs⟩ := by
    simp [ledger, erase, List.map_set, (release_frame hrelease).1]
  rw [hgoal]
  exact steps_release rfl (slots_of_get hk) hrelease

/-- A move assignment moves a reference to its target, whose own reference is lost before. -/
theorem steps_moveAssign (hk : s.get k = some p) (hj : s.get j = some q) :
    Ledger.Steps ⟨s.ledger.slots.set k none, s.refs⟩
      ((s.put k q).put j { q with block := none }).ledger := by
  have hlt : k < s.ledger.slots.length := (List.getElem?_eq_some_iff.mp (slots_of_get hk)).1
  have hgoal : ((s.put k q).put j { q with block := none }).ledger =
      ⟨((s.ledger.slots.set k none).set k q.block).set j none, s.refs⟩ := by
    simp [ledger, put, List.map_set]
  rw [hgoal]
  by_cases hkj : k = j
  · subst hkj
    rw [List.set_set, List.set_set]
    exact .refl
  · refine (Ledger.Step.move (by simp [hlt]) ?_ hkj).steps
    rw [List.getElem?_set_ne hkj]
    exact slots_of_get hj

end Pointers

/-- The target of a move assignment holds no reference. -/
def MovesToEmpty (s : Pointers) : Action → Prop
  | .moveAssign this _ => ∀ p ∈ s.get this, p.block = none
  | _ => True

/-- **The references under a step**: they are taken, given up and moved, and before a move
assignment the reference of the target is lost. -/
theorem StepCase.ledger (h : StepCase s a t) (hrefs : s.refs s.made = 0) :
    s.ledger.Steps t.ledger ∨
      ¬ MovesToEmpty s a ∧ ∃ l, Ledger.Loss s.ledger l ∧ l.Steps t.ledger := by
  cases h with
  | construct fpgaAddr hostAddr len => exact .inl (s.steps_construct fpgaAddr hostAddr len hrefs)
  | uncounted fpgaAddr hostAddr len offset =>
    exact .inl (Pointers.steps_share (p := ⟨fpgaAddr, hostAddr, len, offset, none⟩) rfl)
  | share hget hblock hregion hacquire => exact .inl (Pointers.steps_share hacquire)
  | moveConstruct hget => exact .inl (Pointers.steps_moveConstruct hget)
  | selfAssign => exact .inl .refl
  | copyAssign hkj hget hget' hrelease hacquire =>
    exact .inl (Pointers.steps_copyAssign hget hrelease hacquire)
  | @moveAssign k j p q hget hget' =>
    have hsteps := Pointers.steps_moveAssign hget hget'
    cases hblock : p.block with
    | none =>
      have hk := Pointers.slots_of_get hget
      rw [hblock] at hk
      rw [Pointers.set_none_of_none hk] at hsteps
      exact .inl hsteps
    | some b =>
      refine .inr ⟨fun hempty => ?_, _, .lose (Pointers.slots_of_get hget), hsteps⟩
      rw [hempty p hget] at hblock
      cases hblock
  | destroy hget hrelease => exact .inl (Pointers.steps_destroy hget hrelease)

end Beethoven.Client
