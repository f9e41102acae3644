import Beethoven.Lib.TransitionSystem
import Mathlib.Logic.Function.Basic

/-!
# The commands that run a testbench

The commands `sim` and `run` probe for a daemon of the project, build what is missing, launch a
daemon if none was found, wait until the lock is held, run the testbench and stop the daemon that
they launched (`cli/src/commands/pipeline.rs`). The command `runtime run` launches a daemon and
`runtime kill` ends the one that is there and removes what was built
(`cli/src/commands/runtime_cmd.rs`). The build picks the simulator from the option `--simulator` or
the manifest (`cli/src/commands/build.rs`), the launch from the manifest alone
(`cli/src/runtime/lifecycle.rs`).

The commands given for one project and the daemons they launch take their steps in any order. The
lock of the project has at most one holder.
-/

namespace Beethoven.Cli

open Lib

/-! ### Builds and launches -/

/-- The build mode of a daemon. -/
inductive Mode
  | simulation
  | synthesis
  deriving DecidableEq, Repr

/-- The name of a simulator, in the manifest or after `--simulator`. -/
inductive Simulator
  | verilator
  | icarus
  | vcs
  | other (name : String)
  deriving DecidableEq, Repr

/-- The target of a platform. -/
inductive Target
  | default
  | baremetal
  | other (name : String)
  deriving DecidableEq, Repr

/-- The manifest of a project: `[platform].target` and `[platform].simulator`. -/
structure Project where
  target : Option Target
  platformSimulator : Option Simulator
  deriving DecidableEq, Repr

/-- `Project::simulator`. -/
def Project.simulator (project : Project) : Simulator := project.platformSimulator.getD .icarus

/-- The files of a build: `BeethovenRuntime`, `beethoven.vvp`, `sim_BeethovenRuntime.vpi` and
`BeethovenTop`. -/
inductive Artifact
  | runtime
  | vvp
  | vpi
  | top
  deriving DecidableEq, Repr

/-- What a launch command starts: `BeethovenRuntime`, `vvp` with the plugin, or `BeethovenTop`, each
from `target/<mode>/runtime`. -/
inductive Program
  | runtime
  | vvp
  | top
  deriving DecidableEq, Repr

/-- The files that `build_launch_command` looks for. -/
def Program.artifacts : Program → List Artifact
  | .runtime => [.runtime]
  | .vvp => [.vvp, .vpi]
  | .top => [.top]

/-- The program for a simulator in a mode. -/
def program : Mode → Simulator → Option Program
  | .synthesis, _ => some .runtime
  | .simulation, .verilator => some .runtime
  | .simulation, .icarus => some .vvp
  | .simulation, .vcs => some .top
  | .simulation, .other _ => none

/-- `build_launch_command`, with the files in `target/<mode>/runtime`. -/
def buildLaunchCommand (files : List Artifact) (project : Project) (mode : Mode) : Option Program :=
  (program mode project.simulator).filter fun prog => prog.artifacts ⊆ files

/-- The files that `cmake` writes for the runtime, if it knows the simulator. -/
def cmakeOutputs : Mode → Simulator → Option (List Artifact)
  | .simulation, .verilator => some [.runtime]
  | .simulation, .icarus => some [.vpi, .vvp]
  | .simulation, .vcs => some [.top]
  | .synthesis, _ => some [.runtime]
  | .simulation, .other _ => none

/-! ### Commands and daemons -/

/-- A call of `pipeline::execute`. -/
structure Call where
  project : Project
  mode : Mode
  simulatorOverride : Option Simulator
  noBuild : Bool
  noLaunch : Bool
  deriving DecidableEq, Repr

/-- The simulator with which `build_runtime` configures the runtime. -/
def Call.simulator (call : Call) : Simulator :=
  call.simulatorOverride.getD call.project.simulator

/-- How far a call of `pipeline::execute` has come. `up` is `daemon_was_up`; the two halves of a
round of `wait_for_ready` are `waiting` and `checking`. -/
inductive Phase
  | probing
  | buildHw
  | buildRuntime
  | buildSw (up : Bool)
  | launching (up : Bool)
  | waiting (child : ℕ)
  | checking (child : ℕ)
  | testbench (launched : Option ℕ)
  deriving DecidableEq, Repr

/-- How far `runtime kill` has come. -/
inductive KillPhase
  | probing
  | killing (daemon : ℕ)
  | wiping
  deriving DecidableEq, Repr

/-- A command that was given. `configured` is the simulator with which `build_runtime` has
configured the runtime in this call. -/
inductive Proc
  | execute (call : Call) (configured : Option Simulator) (phase : Phase)
  | runtimeRun (project : Project) (mode : Mode) (probed : Bool)
  | runtimeKill (phase : KillPhase)
  | ended
  deriving DecidableEq, Repr

/-- A daemon: the mode and the program of its launch command, and the number of the command that
launched it. -/
structure Daemon where
  mode : Mode
  program : Program
  launcher : ℕ
  deriving DecidableEq, Repr

/-- A command line. -/
inductive Command
  | sim (project : Project) (noBuild noLaunch : Bool) (simulator : Option Simulator)
  | run (project : Project) (noBuild noLaunch : Bool)
  | runtimeRun (project : Project) (release : Bool)
  | runtimeKill
  deriving DecidableEq, Repr

/-- The mode that a command line asks for. -/
def Command.mode : Command → Option Mode
  | .sim _ _ _ _ => some .simulation
  | .run _ _ _ => some .synthesis
  | .runtimeRun _ release => some (if release then .synthesis else .simulation)
  | .runtimeKill => none

/-- The command starts. The targets are checked first. -/
def Command.proc : Command → Proc
  | .sim project noBuild noLaunch simulator =>
    match project.target with
    | some .baremetal | none => .ended
    | some _ => .execute ⟨project, .simulation, simulator, noBuild, noLaunch⟩ none .probing
  | .run project noBuild noLaunch =>
    match project.target with
    | some .default | some .baremetal | none => .ended
    | some _ => .execute ⟨project, .synthesis, none, noBuild, noLaunch⟩ none .probing
  | .runtimeRun project release =>
    .runtimeRun project (if release then .synthesis else .simulation) false
  | .runtimeKill => .runtimeKill .probing

/-- The command lines given so far with how far each has come, the daemons, the daemons that have
ended, the daemon that holds the lock, and the files that were built in each mode. -/
structure State where
  given : List Command
  procs : List Proc
  daemons : List Daemon
  stopped : List ℕ
  lock : Option ℕ
  files : Mode → List Artifact

/-- What happens next. -/
inductive Event
  | start (c : Command)
  /-- The next operation of a command. `ok` tells whether the probe, the tool or the start of a
  process that it uses succeeds; in `wait_for_ready`, whether there is time left. -/
  | cli (p : ℕ) (ok : Bool)
  /-- A command is interrupted. -/
  | interrupt (p : ℕ)
  /-- A daemon tries to take the lock. -/
  | acquire (d : ℕ)
  /-- A daemon ends. -/
  | exit (d : ℕ)
  deriving DecidableEq, Repr

namespace State

variable (s : State)

/-- The daemon that holds the lock. -/
def holder : Option Daemon := s.lock.bind fun d => s.daemons[d]?

/-- The mode that command line `p` asked for. -/
def asked (p : ℕ) : Option Mode := s.given[p]?.bind Command.mode

/-- Command `p` becomes `x`. -/
def setProc (p : ℕ) (x : Proc) : State := { s with procs := s.procs.set p x }

/-- Daemon `d` ends. Its lock is released. -/
def stop (d : ℕ) : State :=
  { s with stopped := d :: s.stopped, lock := if s.lock = some d then none else s.lock }

/-- Command `p` launches a daemon and becomes `x`. -/
def launch (p : ℕ) (mode : Mode) (prog : Program) (x : Proc) : State :=
  { s.setProc p x with daemons := s.daemons ++ [⟨mode, prog, p⟩] }

/-- The next operation of `pipeline::execute`. -/
def executeStep (p : ℕ) (ok : Bool) (call : Call) (configured : Option Simulator) : Phase → State
  | .probing =>
    let up := ok && s.lock.isSome
    if call.noBuild then s.setProc p (.execute call configured (.launching up))
    else if up then s.setProc p (.execute call configured (.buildSw true))
    else s.setProc p (.execute call configured .buildHw)
  | .buildHw => s.setProc p (if ok then .execute call configured .buildRuntime else .ended)
  | .buildRuntime =>
    match cmakeOutputs call.mode call.simulator with
    | some outputs =>
      if ok then
        { s.setProc p (.execute call (some call.simulator) (.buildSw false)) with
          files := Function.update s.files call.mode (outputs ++ s.files call.mode) }
      else s.setProc p .ended
    | none => s.setProc p .ended
  | .buildSw up => s.setProc p (if ok then .execute call configured (.launching up) else .ended)
  | .launching true => s.setProc p (.execute call configured (.testbench none))
  | .launching false =>
    if call.noLaunch then s.setProc p .ended
    else match buildLaunchCommand (s.files call.mode) call.project call.mode with
      | some prog =>
        if ok then s.launch p call.mode prog (.execute call configured (.waiting s.daemons.length))
        else s.setProc p .ended
      | none => s.setProc p .ended
  | .waiting child =>
    s.setProc p (if child ∈ s.stopped then .ended else .execute call configured (.checking child))
  | .checking child =>
    if ok then
      if s.lock.isSome then s.setProc p (.execute call configured (.testbench (some child)))
      else s.setProc p (.execute call configured (.waiting child))
    else (s.stop child).setProc p .ended
  | .testbench launched =>
    match launched with
    | some child => (s.stop child).setProc p .ended
    | none => s.setProc p .ended

/-- The next operation of `run_daemon`. The command then waits for its daemon. -/
def runtimeRunStep (p : ℕ) (ok : Bool) (project : Project) (mode : Mode) : Bool → State
  | false =>
    if ok && s.lock.isSome then s.setProc p .ended
    else s.setProc p (.runtimeRun project mode true)
  | true =>
    match buildLaunchCommand (s.files mode) project mode with
    | some prog => if ok then s.launch p mode prog .ended else s.setProc p .ended
    | none => s.setProc p .ended

/-- The next operation of `kill_daemon`. -/
def runtimeKillStep (p : ℕ) (ok : Bool) : KillPhase → State
  | .probing =>
    if ok then
      match s.lock with
      | some d => s.setProc p (.runtimeKill (.killing d))
      | none => s.setProc p (.runtimeKill .wiping)
    else s.setProc p .ended
  | .killing d => (s.stop d).setProc p (.runtimeKill .wiping)
  | .wiping => { s.setProc p .ended with files := fun _ => [] }

/-- The next operation of a command. -/
def cliStep (p : ℕ) (ok : Bool) : Proc → Option State
  | .execute call configured phase => some (s.executeStep p ok call configured phase)
  | .runtimeRun project mode probed => some (s.runtimeRunStep p ok project mode probed)
  | .runtimeKill phase => some (s.runtimeKillStep p ok phase)
  | .ended => none

end State

/-- One event. -/
def step (s : State) : Event → Option State
  | .start c => some { s with given := s.given ++ [c], procs := s.procs ++ [c.proc] }
  | .cli p ok => s.procs[p]?.bind (s.cliStep p ok)
  | .interrupt p => s.procs[p]?.map fun _ => s.setProc p .ended
  | .acquire d =>
    if d < s.daemons.length ∧ d ∉ s.stopped ∧ s.lock ≠ some d then
      if s.lock = none then some { s with lock := some d } else some (s.stop d)
    else none
  | .exit d => if d < s.daemons.length ∧ d ∉ s.stopped then some (s.stop d) else none

/-- The commands given for a project in which `files` were built before. -/
def commands (files : Mode → List Artifact) : System State Event :=
  ⟨⟨[], [], [], [], none, files⟩, step⟩

/-! ### What a step changes -/

/-- The mode in which a command launches a daemon. -/
def Proc.mode : Proc → Option Mode
  | .execute call _ _ => some call.mode
  | .runtimeRun _ mode _ => some mode
  | _ => none

/-- The mode of a call that has found a daemon and goes on to run its testbench. -/
def Proc.relies : Proc → Option Mode
  | .execute call _ (.buildSw true) => some call.mode
  | .execute call _ (.launching true) => some call.mode
  | .execute call _ (.testbench _) => some call.mode
  | _ => none

/-- The mode of a call that is about to probe. -/
def Proc.probes : Proc → Option Mode
  | .execute call _ .probing => some call.mode
  | .execute call _ (.checking _) => some call.mode
  | _ => none

/-- The daemon may have been launched by the command: the command is past its launch, and the
program is the one for the simulator with which the runtime was configured. -/
def Proc.Launched (d : Daemon) : Proc → Prop
  | .execute call configured (.waiting _) => ∀ x ∈ configured, program call.mode x = some d.program
  | .execute call configured (.checking _) => ∀ x ∈ configured, program call.mode x = some d.program
  | .execute call configured (.testbench _) =>
    ∀ x ∈ configured, program call.mode x = some d.program
  | .execute _ _ _ => False
  | _ => True

/-- The runtime was configured with the simulator of the call. -/
def Proc.Configured : Proc → Prop
  | .execute call configured _ => ∀ x ∈ configured, x = call.simulator
  | _ => True

/-- Command `p` goes from `x` to `y` and launches nothing. -/
structure Moves (s : State) (e : Event) (p : ℕ) (x y : Proc) : Prop where
  at_p : s.procs[p]? = some x
  mode : ∀ m ∈ y.mode, m ∈ x.mode
  relies : ∀ m ∈ y.relies, m ∈ x.relies ∨ e = .cli p true ∧ m ∈ x.probes
  launched : ∀ d, x.Launched d → y.Launched d
  configured : x.Configured → y.Configured

/-- What a step changes: a command starts, a command moves and may stop a daemon, a command launches
a daemon, or a daemon takes the lock or stops. -/
inductive Change (s : State) : Event → State → Prop
  | start (e : Event) (c : Command) :
      Change s e { s with given := s.given ++ [c], procs := s.procs ++ [c.proc] }
  | move (e : Event) (p : ℕ) (x y : Proc) (stopped : List ℕ) (lock : Option ℕ)
      (files : Mode → List Artifact) (h : Moves s e p x y) (hlock : lock = s.lock ∨ lock = none) :
      Change s e ⟨s.given, s.procs.set p y, s.daemons, stopped, lock, files⟩
  | launchExecute (p child : ℕ) (ok : Bool) (call : Call) (configured : Option Simulator)
      (prog : Program) (hp : s.procs[p]? = some (.execute call configured (.launching false)))
      (hlaunch : call.noLaunch = false)
      (hprog : buildLaunchCommand (s.files call.mode) call.project call.mode = some prog) :
      Change s (.cli p ok) (s.launch p call.mode prog (.execute call configured (.waiting child)))
  | launchRuntimeRun (e : Event) (p : ℕ) (x : Proc) (mode : Mode) (prog : Program)
      (hp : s.procs[p]? = some x) (hmode : x.mode = some mode) :
      Change s e (s.launch p mode prog .ended)
  | acquire (d : ℕ) (hd : d < s.daemons.length) : Change s (.acquire d) { s with lock := some d }
  | stop (e : Event) (d : ℕ) : Change s e (s.stop d)

variable {s t : State} {e : Event} {p : ℕ} {ok : Bool}

theorem State.stop_lock (s : State) (d : ℕ) :
    (s.stop d).lock = s.lock ∨ (s.stop d).lock = none := by
  by_cases h : s.lock = some d
  · exact .inr (if_pos h)
  · exact .inl (if_neg h)

private theorem Change.set {x y : Proc} (h : Moves s e p x y) : Change s e (s.setProc p y) :=
  .move e p x y s.stopped s.lock s.files h (.inl rfl)

private theorem Change.stopSet {x y : Proc} (d : ℕ) (h : Moves s e p x y) :
    Change s e ((s.stop d).setProc p y) :=
  .move e p x y (d :: s.stopped) _ s.files h (s.stop_lock d)

/-- The command becomes one that is not a call of `pipeline::execute`. -/
private theorem Moves.other {x y : Proc} (hp : s.procs[p]? = some x)
    (hy : ∀ call configured phase, y ≠ .execute call configured phase)
    (hmode : ∀ m ∈ y.mode, m ∈ x.mode) : Moves s e p x y := by
  cases y with
  | execute call configured phase => exact absurd rfl (hy call configured phase)
  | runtimeRun project mode probed | runtimeKill phase | ended =>
    exact ⟨hp, hmode, (fun m hm => nomatch hm), fun _ _ => trivial, fun _ => trivial⟩

private theorem Moves.ended {x : Proc} (hp : s.procs[p]? = some x) : Moves s e p x .ended :=
  .other hp (fun _ _ _ h => nomatch h) fun _ hm => nomatch hm

section Execute

variable {call : Call} {configured : Option Simulator} {phase phase' : Phase}

private theorem Moves.quiet (hp : s.procs[p]? = some (.execute call configured phase))
    (hrelies : (Proc.execute call configured phase').relies = none)
    (hlaunched : ∀ d, (Proc.execute call configured phase).Launched d →
      (Proc.execute call configured phase').Launched d) :
    Moves s e p (.execute call configured phase) (.execute call configured phase') := by
  refine ⟨hp, fun _ hm => hm, fun m hm => ?_, hlaunched, fun h => h⟩
  rw [hrelies] at hm
  exact nomatch hm

private theorem Moves.found (hp : s.procs[p]? = some (.execute call configured phase))
    (hprobes : (Proc.execute call configured phase).probes = some call.mode)
    (hrelies : (Proc.execute call configured phase').relies = some call.mode)
    (hlaunched : ∀ d, (Proc.execute call configured phase).Launched d →
      (Proc.execute call configured phase').Launched d) :
    Moves s (.cli p true) p (.execute call configured phase) (.execute call configured phase') := by
  refine ⟨hp, fun _ hm => hm, fun m hm => .inr ⟨rfl, ?_⟩, hlaunched, fun h => h⟩
  rw [hprobes]
  exact hrelies ▸ hm

private theorem executeStep_change
    (hp : s.procs[p]? = some (.execute call configured phase)) :
    Change s (.cli p ok) (s.executeStep p ok call configured phase) := by
  cases phase with
  | probing =>
    simp only [State.executeStep]
    cases hup : ok && s.lock.isSome with
    | true =>
      obtain rfl := (Bool.and_eq_true_iff.mp hup).1
      cases call.noBuild with
      | true | false => exact .set (.found hp rfl rfl fun d hd => hd.elim)
    | false =>
      cases call.noBuild with
      | true | false => exact .set (.quiet hp rfl fun d hd => hd.elim)
  | buildHw =>
    cases ok with
    | true => exact .set (.quiet hp rfl fun d hd => hd.elim)
    | false => exact .set (.ended hp)
  | buildRuntime =>
    simp only [State.executeStep]
    cases cmakeOutputs call.mode call.simulator with
    | none => exact .set (.ended hp)
    | some outputs =>
      cases ok with
      | true =>
        have hmove : Moves s (.cli p true) p (.execute call configured .buildRuntime)
            (.execute call (some call.simulator) (.buildSw false)) :=
          ⟨hp, fun _ hm => hm, (fun m hm => nomatch hm), fun d hd => hd.elim,
            fun _ x hx => (Option.some.inj hx).symm⟩
        exact .move _ p _ _ s.stopped s.lock _ hmove (.inl rfl)
      | false => exact .set (.ended hp)
  | buildSw up =>
    cases ok with
    | true =>
      cases up with
      | true =>
        exact .set ⟨hp, fun _ hm => hm, fun m hm => .inl hm, fun d hd => hd.elim, fun h => h⟩
      | false => exact .set (.quiet hp rfl fun d hd => hd.elim)
    | false => exact .set (.ended hp)
  | launching up =>
    cases up with
    | true => exact .set ⟨hp, fun _ hm => hm, fun m hm => .inl hm, fun d hd => hd.elim, fun h => h⟩
    | false =>
      simp only [State.executeStep]
      by_cases hlaunch : call.noLaunch
      · rw [if_pos hlaunch]
        exact .set (.ended hp)
      · rw [if_neg hlaunch]
        cases hprog : buildLaunchCommand (s.files call.mode) call.project call.mode with
        | none => exact .set (.ended hp)
        | some prog =>
          cases ok with
          | true =>
            exact .launchExecute p _ true call configured prog hp (by simpa using hlaunch) hprog
          | false => exact .set (.ended hp)
  | waiting child =>
    simp only [State.executeStep]
    split_ifs
    · exact .set (.ended hp)
    · exact .set (.quiet hp rfl fun d hd => hd)
  | checking child =>
    cases ok with
    | true =>
      simp only [State.executeStep, if_true]
      split_ifs
      · exact .set (.found hp rfl rfl fun d hd => hd)
      · exact .set (.quiet hp rfl fun d hd => hd)
    | false => exact .stopSet child (.ended hp)
  | testbench launched =>
    cases launched with
    | none => exact .set (.ended hp)
    | some child => exact .stopSet child (.ended hp)

end Execute

private theorem runtimeRunStep_change {project : Project} {mode : Mode} {probed : Bool}
    (hp : s.procs[p]? = some (.runtimeRun project mode probed)) :
    Change s e (s.runtimeRunStep p ok project mode probed) := by
  cases probed with
  | false =>
    simp only [State.runtimeRunStep]
    split_ifs
    · exact .set (.ended hp)
    · exact .set (.other hp (fun _ _ _ h => nomatch h) fun _ hm => hm)
  | true =>
    simp only [State.runtimeRunStep]
    cases buildLaunchCommand (s.files mode) project mode with
    | none => exact .set (.ended hp)
    | some prog =>
      cases ok with
      | true => exact .launchRuntimeRun e p _ mode prog hp rfl
      | false => exact .set (.ended hp)

private theorem runtimeKillStep_change {phase : KillPhase}
    (hp : s.procs[p]? = some (.runtimeKill phase)) : Change s e (s.runtimeKillStep p ok phase) := by
  cases phase with
  | probing =>
    cases ok with
    | true =>
      simp only [State.runtimeKillStep, if_true]
      cases s.lock with
      | none | some d => exact .set (.other hp (fun _ _ _ h => nomatch h) fun _ hm => nomatch hm)
    | false => exact .set (.ended hp)
  | killing d => exact .stopSet d (.other hp (fun _ _ _ h => nomatch h) fun _ hm => nomatch hm)
  | wiping => exact .move e p _ _ s.stopped s.lock _ (.ended hp) (.inl rfl)

/-- **What a step changes.** -/
theorem step_change (h : step s e = some t) : Change s e t := by
  cases e with
  | start c => exact Option.some.inj h ▸ .start _ c
  | cli p ok =>
    obtain ⟨x, hp, hx⟩ := Option.bind_eq_some_iff.mp h
    cases x with
    | execute call configured phase => exact Option.some.inj hx ▸ executeStep_change hp
    | runtimeRun project mode probed => exact Option.some.inj hx ▸ runtimeRunStep_change hp
    | runtimeKill phase => exact Option.some.inj hx ▸ runtimeKillStep_change hp
    | ended => exact nomatch hx
  | interrupt p =>
    obtain ⟨x, hp, rfl⟩ := Option.map_eq_some_iff.mp h
    exact .set (.ended hp)
  | acquire d =>
    simp only [step] at h
    split_ifs at h with hd hlock
    · exact Option.some.inj h ▸ .acquire d hd.1
    · exact Option.some.inj h ▸ .stop _ d
  | exit d =>
    simp only [step] at h
    split_ifs at h
    exact Option.some.inj h ▸ .stop _ d

end Beethoven.Cli
