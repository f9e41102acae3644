import Beethoven.Lib.PolledStream
import Beethoven.Lib.TransitionSystem

/-!
# A memory behind a write buffer

Writes are buffered, and those of one place are merged while one of them is in the buffer. A read of
a place in the buffer is answered from the buffer, and any other read waits until the memory is
read at its place, for all the reads that wait there. A buffered write is stored in the memory only
while no read of its place waits.

The writes of a place are numbered in the order in which they were accepted. The last theorem says
what this machine is for: every read is answered with the newest write of its place before it.

## Main definitions

* `WriteBuffer.Event`, `WriteBuffer.State`, `WriteBuffer.system`.
* `WriteBuffer.contents`: the newest write of a place, and the one in the memory, after a log.

## Main results

* `WriteBuffer.Coherent.fetched`, `WriteBuffer.Coherent.forwarded`, `WriteBuffer.coherent`: what the
  reads are answered.
-/

namespace Beethoven.Lib.WriteBuffer

open Function

variable {α : Type*} [DecidableEq α]

/-- A write or a read is accepted, where the read finds its place in the buffer or not, the memory
is read at a place, or a buffered write is stored in it. -/
inductive Event (α : Type*) where
  | write (a : α)
  | read (a : α) (hit : Bool)
  | fetch (a : α)
  | store (a : α)
  deriving DecidableEq

/-- The places with a buffered write, and those with reads that wait. -/
structure State (α : Type*) where
  buffered : α → Bool
  waiting : α → Bool

/-- One step of the machine. -/
def step (s : State α) : Event α → Option (State α)
  | .write a => some { s with buffered := update s.buffered a true }
  | .read a hit =>
    if hit = s.buffered a then
      some (if hit then s else { s with waiting := update s.waiting a true })
    else none
  | .fetch a => some { s with waiting := update s.waiting a false }
  | .store a =>
    if s.waiting a then none
    else some { s with buffered := update s.buffered a false }

/-- The machine with its log. -/
def system (α : Type*) [DecidableEq α] : System (State α × List (Event α)) (Event α) :=
  System.logged ⟨⟨fun _ => false, fun _ => false⟩, step⟩ fun _ e => [e]

/-- The number of the newest write of a place, and of the write that is stored there. -/
structure Contents where
  newest : ℕ
  stored : ℕ

def Contents.step (a : α) (x : Contents) : Event α → Contents
  | .write b => if b = a then ⟨x.newest + 1, x.stored⟩ else x
  | .store b => if b = a then ⟨x.newest, x.newest⟩ else x
  | .read .. | .fetch _ => x

/-- The contents of a place after a log. -/
def contents (a : α) (l : List (Event α)) : Contents := l.foldl (Contents.step a) ⟨0, 0⟩

variable {s t : State α} {l : List (Event α)} {a b : α} {e : Event α}

theorem contents_append (a : α) (l : List (Event α)) (e : Event α) :
    contents a (l ++ [e]) = (contents a l).step a e := by
  rw [contents, List.foldl_append]
  rfl

/-- What a log and the state after it say about each other. -/
structure Coherent (s : State α) (l : List (Event α)) : Prop where
  stored_le : ∀ a, (contents a l).stored ≤ (contents a l).newest
  buffered : ∀ a, s.buffered a = true ↔ (contents a l).stored < (contents a l).newest
  waiting : ∀ a pre mid, l = pre ++ .read a false :: mid → .fetch a ∉ mid →
    s.waiting a = true ∧ (contents a l).stored = (contents a pre).newest
  /-- What is read from the memory is the newest write before the read. -/
  fetched : ∀ a pre mid post, l = pre ++ .read a false :: mid ++ .fetch a :: post →
    .fetch a ∉ mid → (contents a (pre ++ .read a false :: mid)).stored = (contents a pre).newest
  /-- A read is answered from the buffer only if the newest write before it is there. -/
  forwarded : ∀ a pre post, l = pre ++ .read a true :: post →
    (contents a pre).stored < (contents a pre).newest

theorem coherent_nil : Coherent (α := α) ⟨fun _ => false, fun _ => false⟩ [] where
  stored_le _ := Nat.le_refl 0
  buffered _ := by simp [contents]
  waiting _ _ _ h := by simp at h
  fetched _ _ _ _ h := by simp at h
  forwarded _ _ _ h := by simp at h

/-- A read that waits goes on waiting, and the memory keeps what it is to read. -/
theorem keeps_waiting (hstep : step s e = some t)
    (hwaiting : s.waiting a = true) (hfetch : e ≠ .fetch a) :
    t.waiting a = true ∧ (contents a (l ++ [e])).stored = (contents a l).stored := by
  rw [contents_append]
  cases e with
  | write b =>
    cases hstep
    refine ⟨hwaiting, ?_⟩
    rw [Contents.step]
    split_ifs <;> rfl
  | read b hit =>
    rw [step] at hstep
    split_ifs at hstep with hguard hhit
    · cases hstep
      exact ⟨hwaiting, rfl⟩
    · cases hstep
      refine ⟨?_, rfl⟩
      by_cases hb : a = b
      · subst hb
        exact update_self ..
      · exact (update_of_ne hb ..).trans hwaiting
  | fetch b =>
    cases hstep
    have hb : a ≠ b := fun hb => hfetch (by rw [hb])
    exact ⟨(update_of_ne hb ..).trans hwaiting, rfl⟩
  | store b =>
    rw [step] at hstep
    split_ifs at hstep with hguard
    cases hstep
    -- a store at the place would have to wait
    have hb : b ≠ a := fun hb => hguard (hb ▸ hwaiting)
    exact ⟨hwaiting, by rw [Contents.step, if_neg hb]⟩

theorem Coherent.buffered_step (h : Coherent s l) (hstep : step s e = some t) (a : α) :
    (contents a (l ++ [e])).stored ≤ (contents a (l ++ [e])).newest ∧
      (t.buffered a = true ↔
        (contents a (l ++ [e])).stored < (contents a (l ++ [e])).newest) := by
  have hle := h.stored_le a
  have hbuffered := h.buffered a
  rw [contents_append]
  cases e with
  | write b =>
    cases hstep
    by_cases hb : b = a
    · subst hb
      rw [Contents.step, if_pos rfl]
      simp only [update_self, true_iff]
      omega
    · rw [Contents.step, if_neg hb]
      simp only [update_of_ne (Ne.symm hb)]
      exact ⟨hle, hbuffered⟩
  | read b hit =>
    rw [step] at hstep
    split_ifs at hstep <;> cases hstep <;> exact ⟨hle, hbuffered⟩
  | fetch b =>
    cases hstep
    exact ⟨hle, hbuffered⟩
  | store b =>
    rw [step] at hstep
    split_ifs at hstep
    cases hstep
    by_cases hb : b = a
    · subst hb
      rw [Contents.step, if_pos rfl]
      simp
    · rw [Contents.step, if_neg hb]
      simp only [update_of_ne (Ne.symm hb)]
      exact ⟨hle, hbuffered⟩

/-- **One step of the machine.** -/
theorem Coherent.step (h : Coherent s l) (hstep : step s e = some t) : Coherent t (l ++ [e]) where
  stored_le a := (h.buffered_step hstep a).1
  buffered a := (h.buffered_step hstep a).2
  waiting a pre mid hl hfetch := by
    rcases append_singleton_eq hl with ⟨rfl, rfl, rfl⟩ | ⟨mid, rfl, hbefore⟩
    · -- the read has just been accepted, and its place is not in the buffer
      rw [WriteBuffer.step] at hstep
      split_ifs at hstep with hguard hfalse
      · cases hfalse
      · cases hstep
        have hbuffered := h.buffered a
        rw [← hguard] at hbuffered
        have hle := h.stored_le a
        refine ⟨update_self .., ?_⟩
        rw [contents_append]
        change (contents a l).stored = (contents a l).newest
        simp only [Bool.false_eq_true, false_iff] at hbuffered
        omega
    · have hmid : .fetch a ∉ mid := fun hmem => hfetch (List.mem_append_left _ hmem)
      have he : e ≠ .fetch a := fun he => hfetch (by simp [he])
      obtain ⟨hwaiting, hstored⟩ := h.waiting a pre mid hbefore hmid
      obtain ⟨hwaiting', hkept⟩ := keeps_waiting hstep hwaiting he
      exact ⟨hwaiting', hkept.trans hstored⟩
  fetched a pre mid post hl hfetch := by
    rcases append_singleton_eq hl with ⟨-, hnow, -⟩ | ⟨post, -, hbefore⟩
    · rw [← hnow]
      exact (h.waiting a pre mid hnow hfetch).2
    · exact h.fetched a pre mid post hbefore hfetch
  forwarded a pre post hl := by
    rcases append_singleton_eq hl with ⟨-, rfl, rfl⟩ | ⟨post, -, hbefore⟩
    · rw [WriteBuffer.step] at hstep
      split_ifs at hstep with hguard hfalse
      · exact (h.buffered a).mp hguard.symm
      · exact absurd rfl hfalse
    · exact h.forwarded a pre post hbefore

/-- **Every read is answered with the newest write of its place before it.** -/
theorem coherent (h : (system α).Reaches System.anyStep (s, l)) : Coherent s l := by
  refine h.invariant (I := fun x => Coherent x.1 x.2) coherent_nil ?_
  intro x e y hx _ hstep
  obtain ⟨hstep, hlog⟩ := System.logged_step hstep
  rw [hlog]
  exact hx.step hstep

theorem Reaches.step (h : (system α).Reaches System.anyStep (s, l)) (hstep : step s e = some t) :
    (system α).Reaches System.anyStep (t, l ++ [e]) :=
  System.Reaches.step h trivial (System.step_logged hstep l)

end Beethoven.Lib.WriteBuffer
