import Beethoven.Daemon.SingletonLock

/-!
# One daemon for a project

The exclusive lock keeps a second daemon out as long as both have opened the same file. A command
that removes the lockfile checked for a daemon before, not when it removes the file: a daemon that
has opened the file in the meantime keeps its lock on a file that no path leads to, and the next
daemon creates and locks another one. When the lockfile is removed only while no daemon has it open,
at most one daemon holds the lock.

The shared lock of a probe and the exclusive lock of a daemon exclude each other, so that a probe
can make a daemon give up that is alone. When no probe holds its lock at that moment, a daemon gives
up only because of another one.
-/

namespace Beethoven.Daemon

open Lib

variable {s t : State} {p q i j : ℕ} {e : Event}

/-! ### At most one daemon -/

/-- The command is about to remove the lockfile. -/
def Proc.isRemoving : Proc → Bool
  | .cli _ .removing => true
  | _ => false

/-- If the step removes the lockfile, no daemon has it open. -/
def Event.KeepsLockfile (s : State) : Event → Prop
  | .cli p => s.procs[p]?.any Proc.isRemoving →
      ∀ x ∈ s.procs, ∀ i ∈ x.daemonInode, s.file ≠ some i
  | _ => True

instance (s : State) : (e : Event) → Decidable (e.KeepsLockfile s)
  | .cli _ => inferInstanceAs (Decidable (_ → ∀ x ∈ _, ∀ i ∈ Proc.daemonInode x, _))
  | .startDaemon | .startCli _ | .daemon _ _ | .cliError _ | .timeout _ | .exit _ =>
    inferInstanceAs (Decidable True)

/-- The locks do not conflict, and the daemons have the file open that the path leads to. -/
structure OnPath (s : State) : Prop where
  noConflict : NoConflict Proc.handle s.procs
  file : ∀ x ∈ s.procs, ∀ i, x.daemonInode = some i → s.file = some i

private theorem OnPath.file_set {procs : List Proc} {f : Option ℕ} {y : Proc}
    (h : ∀ x ∈ procs, ∀ i, x.daemonInode = some i → f = some i)
    (hy : ∀ i, y.daemonInode = some i → f = some i) :
    ∀ x ∈ procs.set p y, ∀ i, x.daemonInode = some i → f = some i := by
  intro x hx
  obtain hx | rfl := List.mem_or_eq_of_mem_set hx
  · exact h x hx
  · exact hy

theorem OnPath.step (h : OnPath s) (hkeeps : e.KeepsLockfile s) (hstep : step s e = some t) :
    OnPath t := by
  cases step_change hstep with
  | start _ x hhandle hdaemon =>
    refine ⟨h.noConflict.append (not_holds_of_handle_eq_none hhandle), fun y hy i hi => ?_⟩
    obtain hy | hy := List.mem_append.mp hy
    · exact h.file y hy i hi
    · obtain rfl := List.mem_singleton.mp hy
      exact absurd (hdaemon.symm.trans hi) (by simp)
  | move _ p x y contents hmoves =>
    have hx := List.mem_of_getElem? hmoves.at_p
    refine ⟨?_, OnPath.file_set h.file fun i hi => h.file x hx i (hmoves.daemonInode i hi)⟩
    obtain hkept | ⟨i, m, hholds, hgrant⟩ := hmoves.lock
    · exact h.noConflict.set_of_imp hmoves.at_p hkept
    · exact h.noConflict.set_of_granted hmoves.at_p hgrant hholds
  | openFile _ p i created hp hfile =>
    refine ⟨h.noConflict.set_of_unlocked hp fun j m hholds => ?_, OnPath.file_set ?_ ?_⟩
    · exact absurd (congrArg Handle.lock (Option.some.inj hholds)) (by simp)
    · -- the other daemons have the file open that was there
      intro x hx j hj
      have hj' := h.file x hx j hj
      obtain hfile | hfile := hfile
      · rwa [hfile] at hj'
      · rw [hfile] at hj'
        exact absurd hj' (by simp)
    · exact fun j hj => hj
  | remove p c hp =>
    have hnone : ∀ x ∈ s.procs, ∀ i, x.daemonInode ≠ some i := fun x hx i hi =>
      hkeeps (by rw [hp]; rfl) x hx i hi (h.file x hx i hi)
    refine ⟨h.noConflict.set_of_unlocked hp (not_holds_of_handle_eq_none rfl),
      OnPath.file_set (fun x hx i hi => absurd hi (hnone x hx i)) fun i hi => ?_⟩
    exact absurd hi (by simp [Proc.daemonInode])
  | kill _ p pid x z hpid hp =>
    have hgone := h.noConflict.set_of_unlocked hpid (y := .gone) (not_holds_of_handle_eq_none rfl)
    obtain ⟨x', hp'⟩ : ∃ x', (s.procs.set pid .gone)[p]? = some x' := by
      have hlt := (List.getElem?_eq_some_iff.mp hp).1
      exact ⟨_, List.getElem?_eq_getElem (by simpa using hlt)⟩
    refine ⟨hgone.set_of_unlocked hp' (not_holds_of_handle_eq_none rfl),
      OnPath.file_set (OnPath.file_set h.file ?_) ?_⟩
    · exact fun i hi => absurd hi (by simp [Proc.daemonInode])
    · exact fun i hi => absurd hi (by simp [Proc.daemonInode])

theorem onPath_of_reaches (hs : processes.Reaches (fun s e => e.KeepsLockfile s) s) :
    OnPath s := by
  refine hs.invariant ⟨?_, by simp [processes]⟩ fun s e t h hkeeps hstep => h.step hkeeps hstep
  intro p q x y i m m' _ hx
  simp [processes] at hx

/-- **One daemon.** In every run that removes the lockfile only while no daemon has it open, at most
one daemon holds the lock of the project. -/
theorem one_daemon (hs : processes.Reaches (fun s e => e.KeepsLockfile s) s) {stage stage' : Stage}
    (hp : s.procs[p]? = some (.daemon (.holding i stage)))
    (hq : s.procs[q]? = some (.daemon (.holding j stage'))) : p = q := by
  have h := onPath_of_reaches hs
  have hi := h.file _ (List.mem_of_getElem? hp) i rfl
  have hj := h.file _ (List.mem_of_getElem? hq) j rfl
  obtain rfl := Option.some.inj (hi.symm.trans hj)
  exact h.noConflict.eq_of_exclusive hp hq rfl rfl

/-- Two daemons start, one gives up, the other one runs; the lockfile is removed after its exit and
the next daemon runs. -/
theorem one_daemon_restart :
    ∃ s, processes.Reaches (fun s e => e.KeepsLockfile s) s ∧
      s.procs[3]? = some (.daemon (.holding 1 .running)) ∧
      ∀ q j stage, s.procs[q]? = some (.daemon (.holding j stage)) → 3 = q := by
  obtain ⟨s, hs, h3⟩ := processes.exists_reaches (fun s e => e.KeepsLockfile s)
    (fun s => s.procs[3]? = some (.daemon (.holding 1 .running)))
    [.startDaemon, .startDaemon, .daemon 0 true, .daemon 1 true, .daemon 1 true, .daemon 0 true,
      .daemon 1 true, .daemon 1 true, .exit 1, .startCli .clean, .cli 2, .cli 2, .cli 2, .cli 2,
      .cli 2, .cli 2, .startDaemon, .daemon 3 true, .daemon 3 true, .daemon 3 true, .daemon 3 true]
    (by decide +kernel)
  exact ⟨s, hs, h3, fun q j stage hq => one_daemon hs h3 hq⟩

/-- A command probes before a daemon has started and removes the lockfile while the daemon runs; a
second daemon then runs as well. -/
theorem not_one_daemon :
    ∃ s, processes.Reaches System.anyStep s ∧
      s.procs[1]? = some (.daemon (.holding 0 .running)) ∧
      s.procs[2]? = some (.daemon (.holding 1 .running)) :=
  processes.exists_reaches System.anyStep
    (fun s => s.procs[1]? = some (.daemon (.holding 0 .running)) ∧
      s.procs[2]? = some (.daemon (.holding 1 .running)))
    [.startCli .clean, .cli 0, .cli 0, .startDaemon, .daemon 1 true, .daemon 1 true, .daemon 1 true,
      .daemon 1 true, .cli 0, .cli 0, .startDaemon, .daemon 2 true, .daemon 2 true, .daemon 2 true,
      .daemon 2 true]
    (by decide +kernel)

/-! ### Refusals -/

/-- If a daemon is about to lock the lockfile, no probe holds a lock on the file. -/
def Event.Undisturbed (s : State) : Event → Prop
  | .daemon p _ => ∀ y ∈ s.procs[p]?, ∀ i ∈ y.daemonInode,
      ∀ x ∈ s.procs, ¬ Holds Proc.handle x i .shared
  | _ => True

/-- The processes with an exclusive lock are the daemons that hold the lock. -/
theorem holds_exclusive_iff {x : Proc} :
    Holds Proc.handle x i .exclusive ↔ ∃ stage, x = .daemon (.holding i stage) := by
  constructor
  · intro h
    rw [Holds] at h
    unfold Proc.handle at h
    split at h <;> simp_all
  · rintro ⟨stage, rfl⟩
    rfl

theorem refused_cases {written : Bool} (hstep : step s (.daemon p written) = some t)
    (hrefused : t.procs[p]? = some (.daemon .refused)) :
    ∃ i, s.procs[p]? = some (.daemon (.opened i)) ∧
      ¬ Grants Proc.handle s.procs p i .exclusive := by
  simp only [step] at hstep
  split at hstep
  · next d hp =>
    have hset : ∀ {x : Proc}, (s.procs.set p x)[p]? = some x :=
      List.getElem?_set_self (List.getElem?_eq_some_iff.mp hp).1
    cases d with
    | starting =>
      cases hfile : s.file <;> simp only [State.daemonStep, hfile, Option.some.injEq] at hstep
      all_goals
        subst hstep
        exact absurd (hset.symm.trans hrefused) (by simp)
    | opened i =>
      refine ⟨i, hp, fun hgrant => ?_⟩
      rw [State.daemonStep, if_pos hgrant, Option.some.injEq] at hstep
      subst hstep
      exact absurd (hset.symm.trans hrefused) (by simp)
    | holding i stage =>
      have hwrite : ∀ stage' pid,
          ((s.setProc p (.daemon (.holding i stage'))).write written i pid).procs[p]? ≠
            some (.daemon .refused) := by
        intro stage' pid heq
        rw [State.write_procs] at heq
        exact absurd (hset.symm.trans heq) (by simp)
      cases stage with
      | locked | truncated => exact absurd (Option.some.inj hstep ▸ hrefused) (hwrite _ _)
      | running => exact absurd hstep (by simp [State.daemonStep])
    | refused => exact absurd hstep (by simp [State.daemonStep])
  · exact absurd hstep (by simp)

/-- **Refusals.** In every state, a daemon that no probe disturbs gives up with the message that
another instance is running only if another daemon holds the exclusive lock. -/
theorem refused_only_if_held {written : Bool}
    (hundisturbed : (Event.daemon p written).Undisturbed s)
    (hstep : step s (.daemon p written) = some t)
    (hrefused : t.procs[p]? = some (.daemon .refused)) :
    ∃ q i stage, q ≠ p ∧ s.procs[p]? = some (.daemon (.opened i)) ∧
      s.procs[q]? = some (.daemon (.holding i stage)) := by
  obtain ⟨i, hp, hgrant⟩ := refused_cases hstep hrefused
  simp only [Grants, not_forall] at hgrant
  obtain ⟨q, -, hq, x, hx, m, -, hholds, -⟩ := hgrant
  cases m with
  | shared =>
    exact absurd hholds (hundisturbed _ hp i rfl x (List.mem_of_getElem? hx))
  | exclusive =>
    obtain ⟨stage, rfl⟩ := holds_exclusive_iff.mp hholds
    exact ⟨q, i, stage, hq, hp, hx⟩

/-- A second daemon gives up while the first one holds the lock. -/
theorem refused_only_if_held_second :
    ∃ s t, processes.Reaches System.anyStep s ∧ step s (.daemon 1 true) = some t ∧
      t.procs[1]? = some (.daemon .refused) ∧
      ∃ q i stage, q ≠ 1 ∧ s.procs[1]? = some (.daemon (.opened i)) ∧
        s.procs[q]? = some (.daemon (.holding i stage)) := by
  obtain ⟨s, hs, hprocs⟩ := processes.exists_reaches System.anyStep
    (fun s => s.procs = [.daemon (.holding 0 .locked), .daemon (.opened 0)])
    [.startDaemon, .startDaemon, .daemon 0 true, .daemon 1 true, .daemon 0 true]
    (by decide +kernel)
  have hstep : step s (.daemon 1 true) = some (s.setProc 1 (.daemon .refused)) := by
    simp only [step, hprocs, List.getElem?_cons_succ, List.getElem?_cons_zero, State.daemonStep]
    rw [if_neg (by decide)]
  have hrefused : (s.setProc 1 (.daemon .refused)).procs[1]? = some (.daemon .refused) := by
    rw [State.setProc, hprocs]
    rfl
  refine ⟨s, _, hs, hstep, hrefused, refused_only_if_held ?_ hstep hrefused⟩
  rw [Event.Undisturbed, hprocs]
  decide

/-- A probe holds its lock at the moment when the only daemon tries to take its own. -/
theorem not_refused_only_if_held :
    ∃ s, processes.Reaches System.anyStep s ∧
      (∃ t ∈ step s (.daemon 0 true), t.procs[0]? = some (.daemon .refused)) ∧
      ∀ x ∈ s.procs, ∀ h ∈ x.handle, h.lock ≠ some .exclusive :=
  processes.exists_reaches System.anyStep
    (fun s => (∃ t ∈ step s (.daemon 0 true), t.procs[0]? = some (.daemon .refused)) ∧
      ∀ x ∈ s.procs, ∀ h ∈ x.handle, h.lock ≠ some .exclusive)
    [.startDaemon, .daemon 0 true, .startCli .probe, .cli 1, .cli 1]
    (by decide +kernel)

end Beethoven.Daemon
