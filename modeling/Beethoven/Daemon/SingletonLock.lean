import Beethoven.Lib.FileLock
import Beethoven.Lib.TransitionSystem

/-!
# The lock of a project

At most one daemon should serve a project. A daemon opens the lockfile of the project, creating it
if it is not there, and takes an exclusive lock on it, which it holds until it exits
(`runtime/src/core/singleton_lock.cc`). A command of the command line finds out whether a daemon is
there by taking a shared lock for a moment (`cli/src/runtime/probe.rs`). The commands
`runtime clean` and `runtime kill` remove the lockfile some time after their probe
(`cli/src/commands/runtime_cmd.rs`), the second after it has killed the daemon whose number it read
in the file.

The processes of one user for one project take their steps in any order. A step is one operation
on the file system or one signal. Any process may end at any time.
-/

namespace Beethoven.Daemon

open Lib

/-! ### Processes -/

/-- How far a daemon that holds the lock has come in `runtime_acquire_singleton_lock`: the lock is
taken, the file is truncated, the function has returned. -/
inductive Stage
  | locked
  | truncated
  | running
  deriving DecidableEq, Repr

/-- A daemon: before it opens the lockfile, between `open` and `flock`, with the lock, and with the
message that another instance is running. -/
inductive DaemonPhase
  | starting
  | opened (inode : ℕ)
  | holding (inode : ℕ) (stage : Stage)
  | refused
  deriving DecidableEq, Repr

/-- A call of `probe_path`: before it opens the lockfile, before `flock`, with the shared lock, and
after `flock` has failed with `EWOULDBLOCK`. -/
inductive Probing
  | start
  | opened (inode : ℕ)
  | shared (inode : ℕ)
  | blocked (inode : ℕ)
  deriving DecidableEq, Repr

/-- `ProbeResult`. -/
inductive ProbeResult
  | down
  | up (pid : Option ℕ)
  | error
  deriving DecidableEq, Repr

/-- A command: one that only probes, as `runtime run`, `sim` and `run` do, or one that removes the
lockfile. -/
inductive Command
  | probe
  | clean
  | kill
  deriving DecidableEq, Repr

/-- A command is in a probe (`again` for those of `wait_lockfile_released`), has its result, waits
for the lock to be released, or is in `wipe_runtime_state`, before or after it has found the
lockfile. -/
inductive CliPhase
  | probing (again : Bool) (probing : Probing)
  | result (again : Bool) (r : ProbeResult)
  | waiting
  | wiping
  | removing
  deriving DecidableEq, Repr

/-- A process of the project. -/
inductive Proc
  | daemon (d : DaemonPhase)
  | cli (c : Command) (k : CliPhase)
  | gone
  deriving DecidableEq, Repr

/-- The lockfile that a process has open, with its lock. -/
def Proc.handle : Proc → Option Handle
  | .daemon (.opened i) => some ⟨i, none⟩
  | .daemon (.holding i _) => some ⟨i, some .exclusive⟩
  | .cli _ (.probing _ (.opened i)) => some ⟨i, none⟩
  | .cli _ (.probing _ (.shared i)) => some ⟨i, some .shared⟩
  | .cli _ (.probing _ (.blocked i)) => some ⟨i, none⟩
  | _ => none

/-- The lockfile that a daemon has open. -/
def Proc.daemonInode : Proc → Option ℕ
  | .daemon (.opened i) => some i
  | .daemon (.holding i _) => some i
  | _ => none

/-! ### Steps -/

/-- The processes, the file at the path of the lockfile, the number of files created so far, and the
numbers of processes that the files hold. -/
structure State where
  procs : List Proc := []
  file : Option ℕ := none
  created : ℕ := 0
  contents : ℕ → Option ℕ := fun _ => none

/-- What happens next. -/
inductive Event
  | startDaemon
  | startCli (c : Command)
  /-- The next operation of a daemon; the writes to the file may fail. -/
  | daemon (p : ℕ) (written : Bool)
  /-- The next operation of a command. -/
  | cli (p : ℕ)
  /-- The probe of a command meets an error of the file system. -/
  | cliError (p : ℕ)
  /-- The time for `wait_lockfile_released` is over. -/
  | timeout (p : ℕ)
  /-- A process ends. -/
  | exit (p : ℕ)
  deriving DecidableEq, Repr

namespace State

variable (s : State)

/-- Process `p` becomes `x`. -/
def setProc (p : ℕ) (x : Proc) : State := { s with procs := s.procs.set p x }

/-- The file `i` holds the number `pid`, if the write succeeds. -/
def write (written : Bool) (i : ℕ) (pid : Option ℕ) : State :=
  if written then { s with contents := Function.update s.contents i pid } else s

@[simp]
theorem write_procs (written : Bool) (i : ℕ) (pid : Option ℕ) :
    (s.write written i pid).procs = s.procs := by
  cases written <;> rfl

/-- The next operation of `runtime_acquire_singleton_lock`. -/
def daemonStep (p : ℕ) (written : Bool) : DaemonPhase → Option State
  | .starting =>
    match s.file with
    | some i => some (s.setProc p (.daemon (.opened i)))
    | none => some { s.setProc p (.daemon (.opened s.created)) with
        file := some s.created, created := s.created + 1 }
  | .opened i =>
    if Grants Proc.handle s.procs p i .exclusive then
      some (s.setProc p (.daemon (.holding i .locked)))
    else some (s.setProc p (.daemon .refused))
  | .holding i .locked =>
    some ((s.setProc p (.daemon (.holding i .truncated))).write written i none)
  | .holding i .truncated =>
    some ((s.setProc p (.daemon (.holding i .running))).write written i (some p))
  | .holding _ .running => none
  | .refused => none

/-- The next operation of `probe_path`. -/
def probeStep (p : ℕ) (c : Command) (again : Bool) : Probing → State
  | .start =>
    match s.file with
    | some i => s.setProc p (.cli c (.probing again (.opened i)))
    | none => s.setProc p (.cli c (.result again .down))
  | .opened i =>
    if Grants Proc.handle s.procs p i .shared then s.setProc p (.cli c (.probing again (.shared i)))
    else s.setProc p (.cli c (.probing again (.blocked i)))
  | .shared _ => s.setProc p (.cli c (.result again .down))
  | .blocked i => s.setProc p (.cli c (.result again (.up (s.contents i))))

/-- `kill_external_daemon`: the signal ends the process, if it is there. -/
def signal (p pid : ℕ) : State :=
  match s.procs[pid]? with
  | none | some .gone => s.setProc p (.cli .kill .wiping)
  | some _ => (s.setProc pid .gone).setProc p (.cli .kill .waiting)

/-- What a command does with the result of its first probe. -/
def decide (p : ℕ) : Command → ProbeResult → State
  | .probe, _ => s.setProc p .gone
  | .clean, .up _ => s.setProc p .gone
  | .clean, _ => s.setProc p (.cli .clean .wiping)
  | .kill, .down => s.setProc p (.cli .kill .wiping)
  | .kill, .up (some pid) => s.signal p pid
  | .kill, _ => s.setProc p .gone

/-- The next operation of a command. -/
def cliStep (p : ℕ) (c : Command) : CliPhase → State
  | .probing again probing => s.probeStep p c again probing
  | .result false r => s.decide p c r
  | .result true .down => s.setProc p (.cli c .wiping)
  | .result true _ => s.setProc p (.cli c .waiting)
  | .waiting => s.setProc p (.cli c (.probing true .start))
  | .wiping =>
    match s.file with
    | some _ => s.setProc p (.cli c .removing)
    | none => s.setProc p .gone
  | .removing => { s.setProc p .gone with file := none }

end State

/-- One event. -/
def step (s : State) : Event → Option State
  | .startDaemon => some { s with procs := s.procs ++ [.daemon .starting] }
  | .startCli c => some { s with procs := s.procs ++ [.cli c (.probing false .start)] }
  | .daemon p written =>
    match s.procs[p]? with
    | some (.daemon d) => s.daemonStep p written d
    | _ => none
  | .cli p =>
    match s.procs[p]? with
    | some (.cli c k) => some (s.cliStep p c k)
    | _ => none
  | .cliError p =>
    match s.procs[p]? with
    | some (.cli c (.probing again _)) => some (s.setProc p (.cli c (.result again .error)))
    | _ => none
  | .timeout p =>
    match s.procs[p]? with
    | some (.cli c .waiting) => some (s.setProc p (.cli c .wiping))
    | _ => none
  | .exit p =>
    match s.procs[p]? with
    | some _ => some (s.setProc p .gone)
    | none => none

/-- The processes of one user for one project. -/
def processes : System State Event := ⟨{}, step⟩

/-! ### What a step changes -/

/-- Process `p` goes from `x` to `y`, opens no file as a daemon, and holds no lock that it did not
hold or that is not granted. -/
structure Moves (s : State) (p : ℕ) (x y : Proc) : Prop where
  at_p : s.procs[p]? = some x
  daemonInode : ∀ i, y.daemonInode = some i → x.daemonInode = some i
  lock : (∀ i m, Holds Proc.handle y i m → Holds Proc.handle x i m) ∨
    ∃ i m, Holds Proc.handle y i m ∧ Grants Proc.handle s.procs p i m

/-- A process that neither has a file open as a daemon nor holds a lock afterwards. -/
theorem Moves.of_unlocked {s : State} {p : ℕ} {x y : Proc} (hp : s.procs[p]? = some x)
    (hdaemon : y.daemonInode = none) (hlock : ∀ i m, ¬ Holds Proc.handle y i m) : Moves s p x y :=
  ⟨hp, fun i hi => absurd (hdaemon.symm.trans hi) (by simp),
    .inl fun i m hholds => absurd hholds (hlock i m)⟩

theorem not_holds_of_handle_eq_none {x : Proc} (h : x.handle = none) (i : ℕ) (m : LockMode) :
    ¬ Holds Proc.handle x i m := by
  rw [Holds, h]
  simp

/-- What a step changes: a process starts, a process moves, a daemon opens the lockfile, a command
removes it, or a command ends another process. -/
inductive Change (s : State) : Event → State → Prop
  | start (e : Event) (x : Proc) (hhandle : x.handle = none) (hdaemon : x.daemonInode = none) :
      Change s e { s with procs := s.procs ++ [x] }
  | move (e : Event) (p : ℕ) (x y : Proc) (contents : ℕ → Option ℕ) (h : Moves s p x y) :
      Change s e { s.setProc p y with contents := contents }
  | openFile (e : Event) (p i created : ℕ) (hp : s.procs[p]? = some (.daemon .starting))
      (hfile : s.file = some i ∨ s.file = none) :
      Change s e { s.setProc p (.daemon (.opened i)) with file := some i, created := created }
  | remove (p : ℕ) (c : Command) (hp : s.procs[p]? = some (.cli c .removing)) :
      Change s (.cli p) { s.setProc p .gone with file := none }
  | kill (e : Event) (p pid : ℕ) (x z : Proc) (hpid : s.procs[pid]? = some z)
      (hp : s.procs[p]? = some x) :
      Change s e ((s.setProc pid .gone).setProc p (.cli .kill .waiting))

variable {s t : State} {p : ℕ} {c : Command} {e : Event}

private theorem daemonStep_change {written : Bool} {d : DaemonPhase}
    (hp : s.procs[p]? = some (.daemon d)) (h : s.daemonStep p written d = some t) :
    Change s e t := by
  cases d with
  | starting =>
    cases hfile : s.file with
    | none =>
      simp only [State.daemonStep, hfile, Option.some.injEq] at h
      exact h ▸ .openFile e p s.created (s.created + 1) hp (.inr hfile)
    | some i =>
      simp only [State.daemonStep, hfile, Option.some.injEq] at h
      have hchange := Change.openFile e p i s.created hp (.inl hfile)
      rw [← hfile] at hchange
      exact h ▸ hchange
  | opened i =>
    rw [State.daemonStep] at h
    split_ifs at h with hgrant
    · rw [← Option.some.inj h]
      refine .move e p _ _ s.contents ⟨hp, fun j hj => hj, .inr ⟨i, .exclusive, rfl, hgrant⟩⟩
    · rw [← Option.some.inj h]
      exact .move e p _ _ s.contents (.of_unlocked hp rfl (not_holds_of_handle_eq_none rfl))
  | holding i stage =>
    -- the lock is kept, and the file is written if the write succeeds
    have hmove : ∀ stage' pid, Change s e
        ((s.setProc p (.daemon (.holding i stage'))).write written i pid) := by
      intro stage' pid
      have hkeep : Moves s p (.daemon (.holding i stage)) (.daemon (.holding i stage')) :=
        ⟨hp, fun j hj => hj, .inl fun j m hholds => hholds⟩
      cases written with
      | false => exact .move e p _ _ s.contents hkeep
      | true => exact .move e p _ _ _ hkeep
    cases stage with
    | locked | truncated => exact Option.some.inj h ▸ hmove _ _
    | running => exact absurd h (by simp [State.daemonStep])
  | refused => exact absurd h (by simp [State.daemonStep])

private theorem Change.close {x : Proc} (hp : s.procs[p]? = some x) {y : Proc}
    (hdaemon : y.daemonInode = none) (hhandle : y.handle = none) : Change s e (s.setProc p y) :=
  .move e p x y s.contents (.of_unlocked hp hdaemon (not_holds_of_handle_eq_none hhandle))

private theorem probeStep_change {again : Bool} {probing : Probing}
    (hp : s.procs[p]? = some (.cli c (.probing again probing))) :
    Change s e (s.probeStep p c again probing) := by
  -- a command with the file open and no lock on it
  have hopen : ∀ {k : CliPhase} {i : ℕ}, (Proc.cli c k).handle = some ⟨i, none⟩ →
      Change s e (s.setProc p (.cli c k)) := fun {k i} hk =>
    .move e p _ _ s.contents (.of_unlocked hp rfl fun j m hholds => by
      have heq := Option.some.inj (hk.symm.trans hholds)
      exact absurd (congrArg Handle.lock heq) (by simp))
  cases probing with
  | start =>
    simp only [State.probeStep]
    cases s.file with
    | none => exact .close hp rfl rfl
    | some i => exact hopen rfl
  | opened i =>
    simp only [State.probeStep]
    split_ifs with hgrant
    · exact .move e p _ _ s.contents
        ⟨hp, fun j hj => absurd hj (by simp [Proc.daemonInode]), .inr ⟨i, .shared, rfl, hgrant⟩⟩
    · exact hopen rfl
  | shared i => exact .close hp rfl rfl
  | blocked i => exact .close hp rfl rfl

private theorem decide_change {r : ProbeResult}
    (hp : s.procs[p]? = some (.cli c (.result false r))) : Change s e (s.decide p c r) := by
  cases c with
  | probe => exact .close hp rfl rfl
  | clean =>
    cases r with
    | down => exact .close hp rfl rfl
    | up pid => exact .close hp rfl rfl
    | error => exact .close hp rfl rfl
  | kill =>
    cases r with
    | down => exact .close hp rfl rfl
    | error => exact .close hp rfl rfl
    | up pid =>
      cases pid with
      | none => exact .close hp rfl rfl
      | some pid =>
        simp only [State.decide, State.signal]
        split
        · exact .close hp rfl rfl
        · exact .close hp rfl rfl
        · next z hz => exact .kill e p pid _ _ hz hp

private theorem cliStep_change {k : CliPhase} (hp : s.procs[p]? = some (.cli c k)) :
    Change s (.cli p) (s.cliStep p c k) := by
  cases k with
  | probing again probing => exact probeStep_change hp
  | result again r =>
    cases again with
    | false => exact decide_change hp
    | true =>
      cases r with
      | down => exact .close hp rfl rfl
      | up pid => exact .close hp rfl rfl
      | error => exact .close hp rfl rfl
  | waiting => exact .close hp rfl rfl
  | wiping =>
    simp only [State.cliStep]
    cases s.file with
    | none => exact .close hp rfl rfl
    | some i => exact .close hp rfl rfl
  | removing => exact .remove p c hp

/-- **What a step changes.** -/
theorem step_change (h : step s e = some t) : Change s e t := by
  cases e with
  | startDaemon | startCli c => exact Option.some.inj h ▸ .start _ _ rfl rfl
  | daemon p written =>
    simp only [step] at h
    split at h
    · next d hp => exact daemonStep_change hp h
    · exact absurd h (by simp)
  | cli p =>
    simp only [step] at h
    split at h
    · next c k hp => exact Option.some.inj h ▸ cliStep_change hp
    · exact absurd h (by simp)
  | cliError p =>
    simp only [step] at h
    split at h
    · next c again probing hp => exact Option.some.inj h ▸ .close hp rfl rfl
    · exact absurd h (by simp)
  | timeout p =>
    simp only [step] at h
    split at h
    · next c hp => exact Option.some.inj h ▸ .close hp rfl rfl
    · exact absurd h (by simp)
  | exit p =>
    simp only [step] at h
    split at h
    · next x hp => exact Option.some.inj h ▸ .close hp rfl rfl
    · exact absurd h (by simp)

end Beethoven.Daemon
