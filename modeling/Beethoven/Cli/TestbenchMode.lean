import Beethoven.Cli.Pipeline

/-!
# The daemon that a testbench meets

A call of `pipeline::execute` runs its testbench against whatever daemon holds the lock. The lock
says nothing about the mode of the daemon, and the simulator of a launch is the one of the manifest,
also when `--simulator` had another one built. A command launches its daemon in the mode that it was
asked for. So when the daemons of other commands that a call finds, or that take the lock before its
testbench has ended, were launched by commands asked for the same mode, the testbench meets a daemon
of its mode. When the option agrees with the manifest, the daemon that the call launched is the one
for the simulator with which the runtime was configured.
-/

namespace Beethoven.Cli

open Lib

variable {s t : State} {e : Event} {p : ℕ}

/-- The call, if the command is about to launch a daemon after it has built the runtime. -/
def State.launches (s : State) : Proc → Option Call
  | .execute call (some _) (.launching false) =>
    if call.noLaunch = false ∧
        (buildLaunchCommand (s.files call.mode) call.project call.mode).isSome then
      some call
    else none
  | _ => none

/-- Daemon `d` was launched by command `p` itself, or by one that was asked for mode `m`. -/
def State.Suits (s : State) (p : ℕ) (m : Mode) (d : Daemon) : Prop :=
  d.launcher ≠ p → s.asked d.launcher = some m

instance (s : State) (p : ℕ) (m : Mode) (d : Daemon) : Decidable (s.Suits p m d) :=
  inferInstanceAs (Decidable (_ → _))

/-- A daemon of another command that a probe of a call finds was launched by a command for the same
mode, and so was one that takes the lock after a call has found a daemon; and a call that launches
what it has built was given no simulator but the one of the manifest. -/
def Event.ModesAgree (s : State) : Event → Prop
  | .cli p ok => ∀ x ∈ s.procs[p]?,
      (ok = true → ∀ m ∈ x.probes, ∀ d ∈ s.holder, s.Suits p m d) ∧
        ∀ call ∈ s.launches x, ∀ o ∈ call.simulatorOverride, o = call.project.simulator
  | .acquire d => ∀ daemon ∈ s.daemons[d]?, ∀ p < s.procs.length, ∀ x ∈ s.procs[p]?,
      ∀ m ∈ x.relies, s.Suits p m daemon
  | _ => True

instance (s : State) : (e : Event) → Decidable (e.ModesAgree s)
  | .cli p ok => inferInstanceAs (Decidable (∀ x ∈ s.procs[p]?, (ok = true → ∀ m ∈ Proc.probes x,
      ∀ d ∈ s.holder, s.Suits p m d) ∧ ∀ call ∈ s.launches x, ∀ o ∈ call.simulatorOverride, _ = _))
  | .acquire d => inferInstanceAs (Decidable (∀ daemon ∈ s.daemons[d]?, ∀ p < s.procs.length,
      ∀ x ∈ s.procs[p]?, ∀ m ∈ Proc.relies x, s.Suits p m daemon))
  | .start _ | .interrupt _ | .exit _ => inferInstanceAs (Decidable True)

/-- Commands launch their daemons in the mode that they were asked for. -/
structure Asked (s : State) : Prop where
  length : s.given.length = s.procs.length
  mode : ∀ (p : ℕ) x, s.procs[p]? = some x → ∀ m ∈ x.mode, s.asked p = some m
  daemon : ∀ d ∈ s.daemons, s.asked d.launcher = some d.mode

/-- The calls that rely on the daemon that holds the lock have its mode, and the daemons that a call
has launched run the program for the simulator of its build. -/
structure Meets (s : State) : Prop where
  relies : ∀ x ∈ s.procs, ∀ m ∈ x.relies, ∀ d ∈ s.holder, d.mode = m
  launched : ∀ (p : ℕ) x, s.procs[p]? = some x → ∀ d ∈ s.daemons, d.launcher = p → x.Launched d
  launcher : ∀ d ∈ s.daemons, d.launcher < s.procs.length
  configured : ∀ x ∈ s.procs, x.Configured
  lock : ∀ d ∈ s.lock, d < s.daemons.length

theorem Command.mode_proc (c : Command) : ∀ m ∈ c.proc.mode, c.mode = some m := by
  cases c with
  | sim project noBuild noLaunch simulator | run project noBuild noLaunch =>
    simp only [Command.proc]
    split <;> simp [Proc.mode, Command.mode]
  | runtimeRun project release => exact fun m hm => hm
  | runtimeKill => exact fun m hm => hm

theorem Proc.mode_of_probes {x : Proc} {m : Mode} (h : m ∈ x.probes) : m ∈ x.mode := by
  cases x with
  | execute call configured phase => cases phase <;> first | exact h | exact nomatch h
  | runtimeRun project mode probed | runtimeKill phase | ended => exact nomatch h

theorem Proc.mode_of_relies {x : Proc} {m : Mode} (h : m ∈ x.relies) : m ∈ x.mode := by
  cases x with
  | execute call configured phase =>
    cases phase with
    | buildSw up | launching up => cases up <;> first | exact h | exact nomatch h
    | testbench launched => exact h
    | probing | buildHw | buildRuntime | waiting child | checking child => exact nomatch h
  | runtimeRun project mode probed | runtimeKill phase | ended => exact nomatch h

namespace Asked

private theorem mode_set (h : Asked s) {x y : Proc} (hp : s.procs[p]? = some x)
    (hy : ∀ m ∈ y.mode, m ∈ x.mode) (q : ℕ) (z : Proc) (hz : (s.procs.set p y)[q]? = some z) :
    ∀ m ∈ z.mode, s.asked q = some m := by
  intro m hm
  by_cases hq : p = q
  · subst hq
    have hlt : p < s.procs.length := (List.getElem?_eq_some_iff.mp hp).1
    rw [List.getElem?_set_self hlt, Option.some.injEq] at hz
    exact h.mode p x hp m (hy m (hz ▸ hm))
  · rw [List.getElem?_set_ne hq] at hz
    exact h.mode q z hz m hm

private theorem launch (h : Asked s) {x y : Proc} {mode : Mode} (prog : Program)
    (hp : s.procs[p]? = some x) (hmode : x.mode = some mode) (hy : ∀ m ∈ y.mode, m ∈ x.mode) :
    Asked (s.launch p mode prog y) := by
  refine ⟨h.length.trans List.length_set.symm, h.mode_set hp hy, fun d hd => ?_⟩
  obtain hd | hd := List.mem_append.mp hd
  · exact h.daemon d hd
  · rw [List.mem_singleton.mp hd]
    exact h.mode p x hp mode hmode

theorem step (h : Asked s) (hstep : step s e = some t) : Asked t := by
  cases step_change hstep with
  | start _ c =>
    have hold {q : ℕ} {m : Mode} (hq : s.asked q = some m) :
        (s.given ++ [c])[q]?.bind Command.mode = some m := by
      obtain ⟨c', hc', hm⟩ := Option.bind_eq_some_iff.mp hq
      rw [List.getElem?_append_left (List.getElem?_eq_some_iff.mp hc').1]
      exact hq
    refine ⟨by simp [h.length], fun q x hx m hm => ?_, fun d hd => hold (h.daemon d hd)⟩
    rcases Nat.lt_trichotomy q s.procs.length with hlt | rfl | hgt
    · rw [List.getElem?_append_left hlt] at hx
      exact hold (h.mode q x hx m hm)
    · rw [List.getElem?_concat_length, Option.some.injEq] at hx
      rw [State.asked, ← h.length, List.getElem?_concat_length]
      exact c.mode_proc m (hx ▸ hm)
    · rw [List.getElem?_eq_none (by simp; omega)] at hx
      cases hx
  | move _ p x y stopped lock files hmoves hlock =>
    exact ⟨h.length.trans List.length_set.symm, h.mode_set hmoves.at_p hmoves.mode, h.daemon⟩
  | launchExecute p child ok call configured prog hp hlaunch hprog =>
    exact h.launch prog hp rfl fun _ hm => hm
  | launchRuntimeRun _ p x mode prog hp hmode =>
    exact h.launch prog hp hmode fun m hm => absurd hm (Option.not_mem_none m)
  | acquire d hd => exact ⟨h.length, h.mode, h.daemon⟩
  | stop _ d => exact ⟨h.length, h.mode, h.daemon⟩

theorem mode_eq (h : Asked s) {x : Proc} {m : Mode} {d : Daemon} (hp : s.procs[p]? = some x)
    (hm : m ∈ x.mode) (hd : d ∈ s.daemons) (hsuits : s.Suits p m d) : d.mode = m := by
  have hasked : s.asked d.launcher = some m := by
    by_cases hlauncher : d.launcher = p
    · rw [hlauncher]
      exact h.mode p x hp m hm
    · exact hsuits hlauncher
  exact Option.some.inj ((h.daemon d hd).symm.trans hasked)

end Asked

theorem State.mem_daemons_of_holder {d : Daemon} (h : d ∈ s.holder) : d ∈ s.daemons := by
  obtain ⟨i, -, hi⟩ := Option.bind_eq_some_iff.mp h
  exact List.mem_of_getElem? hi

theorem Command.relies_proc (c : Command) : c.proc.relies = none := by
  cases c with
  | sim project noBuild noLaunch simulator | run project noBuild noLaunch =>
    simp only [Command.proc]
    split <;> rfl
  | runtimeRun project release => rfl
  | runtimeKill => rfl

theorem Command.configured_proc (c : Command) : c.proc.Configured := by
  cases c with
  | sim project noBuild noLaunch simulator | run project noBuild noLaunch =>
    simp only [Command.proc]
    split <;> simp [Proc.Configured]
  | runtimeRun project release => trivial
  | runtimeKill => trivial

private theorem holder_of_lock {lock : Option ℕ} (h : lock = s.lock ∨ lock = none) {d : Daemon}
    (hd : d ∈ lock.bind fun d => s.daemons[d]?) : d ∈ s.holder := by
  obtain rfl | rfl := h
  · exact hd
  · exact nomatch hd

private theorem holder_append (hlock : ∀ d ∈ s.lock, d < s.daemons.length) (d : Daemon) :
    (s.lock.bind fun i => (s.daemons ++ [d])[i]?) = s.holder := by
  rw [State.holder]
  cases h : s.lock with
  | none => rfl
  | some i => exact List.getElem?_append_left (hlock i h)

namespace Meets

private theorem launched_set (h : Meets s) {y : Proc}
    (hy : ∀ d ∈ s.daemons, d.launcher = p → y.Launched d) (q : ℕ) (x : Proc)
    (hx : (s.procs.set p y)[q]? = some x) : ∀ d ∈ s.daemons, d.launcher = q → x.Launched d := by
  intro d hd hlauncher
  by_cases hq : p = q
  · subst hq
    have hlt : p < s.procs.length := by simpa using (List.getElem?_eq_some_iff.mp hx).1
    rw [List.getElem?_set_self hlt, Option.some.injEq] at hx
    exact hx ▸ hy d hd hlauncher
  · rw [List.getElem?_set_ne hq] at hx
    exact h.launched q x hx d hd hlauncher

theorem start (h : Meets s) (c : Command) :
    Meets { s with given := s.given ++ [c], procs := s.procs ++ [c.proc] } := by
  refine ⟨fun x hx => ?_, fun q x hx d hd hlauncher => ?_, fun d hd => ?_, fun x hx => ?_, h.lock⟩
  · obtain hx | hx := List.mem_append.mp hx
    · exact h.relies x hx
    · rw [List.mem_singleton.mp hx, c.relies_proc]
      exact fun m hm => nomatch hm
  · -- the daemons were launched by commands that were given before
    have hlt := h.launcher d hd
    rw [hlauncher] at hlt
    rw [List.getElem?_append_left hlt] at hx
    exact h.launched q x hx d hd hlauncher
  · have hlt := h.launcher d hd
    rw [List.length_append]
    omega
  · obtain hx | hx := List.mem_append.mp hx
    · exact h.configured x hx
    · exact List.mem_singleton.mp hx ▸ c.configured_proc

theorem move (h : Meets s) (hasked : Asked s) (hagree : e.ModesAgree s) {x y : Proc}
    {stopped : List ℕ} {lock : Option ℕ} {files : Mode → List Artifact} (hmoves : Moves s e p x y)
    (hlock : lock = s.lock ∨ lock = none) :
    Meets ⟨s.given, s.procs.set p y, s.daemons, stopped, lock, files⟩ := by
  have hx := List.mem_of_getElem? hmoves.at_p
  refine ⟨fun z hz m hm d hd => ?_, h.launched_set fun d hd hlauncher => ?_, fun d hd => ?_,
    fun z hz => ?_, fun d hd => ?_⟩
  · have hd' := holder_of_lock hlock hd
    obtain hz | rfl := List.mem_or_eq_of_mem_set hz
    · exact h.relies z hz m hm d hd'
    · obtain hm | ⟨rfl, hprobes⟩ := hmoves.relies m hm
      · exact h.relies x hx m hm d hd'
      · exact hasked.mode_eq hmoves.at_p (Proc.mode_of_probes hprobes)
          (State.mem_daemons_of_holder hd') ((hagree x hmoves.at_p).1 rfl m hprobes d hd')
  · exact hmoves.launched d (h.launched p x hmoves.at_p d hd hlauncher)
  · rw [List.length_set]
    exact h.launcher d hd
  · obtain hz | rfl := List.mem_or_eq_of_mem_set hz
    · exact h.configured z hz
    · exact hmoves.configured (h.configured x hx)
  · obtain rfl | rfl := hlock
    · exact h.lock d hd
    · exact nomatch hd

private theorem launch (h : Meets s) {x y : Proc} {mode : Mode} {prog : Program}
    (hp : s.procs[p]? = some x) (hrelies : y.relies = none) (hconfigured : y.Configured)
    (hold : ∀ d ∈ s.daemons, d.launcher = p → y.Launched d) (hnew : y.Launched ⟨mode, prog, p⟩) :
    Meets (s.launch p mode prog y) := by
  have hlt : p < s.procs.length := (List.getElem?_eq_some_iff.mp hp).1
  refine ⟨fun z hz m hm d hd => ?_, fun q z hz d hd hlauncher => ?_, fun d hd => ?_, fun z hz => ?_,
    fun d hd => ?_⟩
  · obtain hz | rfl := List.mem_or_eq_of_mem_set hz
    · exact h.relies z hz m hm d (holder_append h.lock _ ▸ hd)
    · rw [hrelies] at hm
      exact nomatch hm
  · obtain hd | hd := List.mem_append.mp hd
    · exact h.launched_set hold q z hz d hd hlauncher
    · obtain rfl := List.mem_singleton.mp hd
      obtain rfl : p = q := hlauncher
      rw [State.launch, State.setProc, List.getElem?_set_self hlt, Option.some.injEq] at hz
      exact hz ▸ hnew
  · rw [State.launch, State.setProc, List.length_set]
    obtain hd | hd := List.mem_append.mp hd
    · exact h.launcher d hd
    · rwa [List.mem_singleton.mp hd]
  · obtain hz | rfl := List.mem_or_eq_of_mem_set hz
    · exact h.configured z hz
    · exact hconfigured
  · have hd' := h.lock d hd
    rw [State.launch, List.length_append]
    omega

theorem launchExecute (h : Meets s) {ok : Bool} (hagree : (Event.cli p ok).ModesAgree s)
    {call : Call} {configured : Option Simulator} {prog : Program} {child : ℕ}
    (hp : s.procs[p]? = some (.execute call configured (.launching false)))
    (hlaunch : call.noLaunch = false)
    (hprog : buildLaunchCommand (s.files call.mode) call.project call.mode = some prog) :
    Meets (s.launch p call.mode prog (.execute call configured (.waiting child))) := by
  have hconfigured := h.configured _ (List.mem_of_getElem? hp)
  refine h.launch hp rfl hconfigured (fun d hd hlauncher => ?_) fun x hx => ?_
  · exact (h.launched p _ hp d hd hlauncher).elim
  · -- the simulator of the build is the one of the manifest
    obtain rfl := hx
    have hlaunches : s.launches (.execute call (some x) (.launching false)) = some call :=
      if_pos ⟨hlaunch, by rw [hprog]; rfl⟩
    have hoverride := (hagree _ hp).2 call hlaunches
    have hx : x = call.project.simulator := by
      rw [hconfigured x rfl, Call.simulator]
      cases ho : call.simulatorOverride with
      | none => rfl
      | some o => exact hoverride o ho
    rw [hx]
    exact (Option.filter_eq_some_iff.mp hprog).1

theorem step (h : Meets s) (hasked : Asked s) (hagree : e.ModesAgree s)
    (hstep : step s e = some t) : Meets t := by
  cases step_change hstep with
  | start _ c => exact h.start c
  | move _ p x y stopped lock files hmoves hlock => exact h.move hasked hagree hmoves hlock
  | launchExecute p child ok call configured prog hp hlaunch hprog =>
    exact h.launchExecute hagree hp hlaunch hprog
  | launchRuntimeRun _ p x mode prog hp _ =>
    exact h.launch hp rfl trivial (fun _ _ _ => trivial) trivial
  | acquire d hd =>
    refine ⟨fun x hx m hm daemon hdaemon => ?_, h.launched, h.launcher, h.configured, ?_⟩
    · obtain ⟨q, hq, rfl⟩ := List.mem_iff_getElem.mp hx
      have hp := List.getElem?_eq_getElem hq
      exact hasked.mode_eq hp (Proc.mode_of_relies hm) (List.mem_of_getElem? hdaemon)
        (hagree daemon hdaemon q hq _ hp m hm)
    · intro i hi
      obtain rfl := Option.some.inj hi
      exact hd
  | stop _ d =>
    refine ⟨fun x hx m hm daemon hdaemon => ?_, h.launched, h.launcher, h.configured, ?_⟩
    · exact h.relies x hx m hm daemon (holder_of_lock (s.stop_lock d) hdaemon)
    · intro i hi
      obtain hlock | hlock := s.stop_lock d
      · exact h.lock i (hlock ▸ hi)
      · rw [hlock] at hi
        exact nomatch hi

end Meets

theorem meets_of_reaches {files : Mode → List Artifact}
    (hs : (commands files).Reaches (fun s e => e.ModesAgree s) s) : Meets s := by
  refine (hs.invariant (I := fun s => Asked s ∧ Meets s) ⟨⟨?_, ?_, ?_⟩, ⟨?_, ?_, ?_, ?_, ?_⟩⟩ ?_).2
  rotate_right
  · exact fun s e t h hagree hstep => ⟨h.1.step hstep, h.2.step h.1 hagree hstep⟩
  all_goals simp [commands]

/-- **The testbench meets the requested daemon.** In every run whose steps all meet the condition,
while a call of `pipeline::execute` runs its testbench, the daemon that holds the lock was launched
in the mode of the call, and if the call launched it, its program is the one for the simulator with
which `build_runtime` has configured the runtime in this call. -/
theorem testbench_meets_daemon {files : Mode → List Artifact}
    (hs : (commands files).Reaches (fun s e => e.ModesAgree s) s) {call : Call}
    {configured : Option Simulator} {launched : Option ℕ} {d : Daemon}
    (hp : s.procs[p]? = some (.execute call configured (.testbench launched)))
    (hd : s.holder = some d) :
    d.mode = call.mode ∧
      (d.launcher = p → ∀ x ∈ configured, program call.mode x = some d.program) := by
  have h := meets_of_reaches hs
  refine ⟨h.relies _ (List.mem_of_getElem? hp) _ rfl d hd, fun hlauncher => ?_⟩
  exact h.launched p _ hp d (State.mem_daemons_of_holder hd) hlauncher

/-- A project for real hardware that names no simulator. -/
def Project.plain : Project := ⟨some (.other "aws-f2"), none⟩

/-- After `run` has ended, `sim` builds for Icarus, launches its daemon and runs its testbench. -/
theorem testbench_meets_daemon_after_run :
    ∃ s d, (commands fun _ => []).Reaches (fun s e => e.ModesAgree s) s ∧ s.holder = some d ∧
      d.launcher = 1 ∧ d.mode = .simulation ∧ program .simulation .icarus = some d.program := by
  obtain ⟨s, hs, hp, hd⟩ := (commands fun _ => []).exists_reaches (fun s e => e.ModesAgree s)
    (fun s => s.procs[1]? = some (.execute ⟨.plain, .simulation, none, false, false⟩ (some .icarus)
        (.testbench (some 1))) ∧ s.holder = some ⟨.simulation, .vvp, 1⟩)
    [.start (.run .plain false false), .cli 0 true, .cli 0 true, .cli 0 true, .cli 0 true,
      .cli 0 true, .acquire 0, .cli 0 true, .cli 0 true, .cli 0 true,
      .start (.sim .plain false false none), .cli 1 true, .cli 1 true, .cli 1 true, .cli 1 true,
      .cli 1 true, .acquire 1, .cli 1 true, .cli 1 true]
    (by decide +kernel)
  obtain ⟨hmode, hprogram⟩ := testbench_meets_daemon hs hp hd
  exact ⟨s, _, hs, hd, rfl, hmode, hprogram rfl .icarus rfl⟩

/-- `sim` runs its testbench against the daemon of `runtime run --release`; and
`sim --simulator verilator` launches what an earlier call built for Icarus. -/
theorem not_testbench_meets_daemon :
    (∃ s, (commands fun _ => [.runtime]).Reaches System.anyStep s ∧
      s.procs[1]? = some (.execute ⟨.plain, .simulation, none, false, false⟩ none
        (.testbench none)) ∧
      s.holder = some ⟨.synthesis, .runtime, 0⟩) ∧
    ∃ s, (commands fun _ => [.vvp, .vpi]).Reaches System.anyStep s ∧
      s.procs[0]? = some (.execute ⟨.plain, .simulation, some .verilator, false, false⟩
        (some .verilator) (.testbench (some 0))) ∧
      s.holder = some ⟨.simulation, .vvp, 0⟩ := by
  constructor
  · exact (commands fun _ => [.runtime]).exists_reaches System.anyStep
      (fun s => s.procs[1]? = some (.execute ⟨.plain, .simulation, none, false, false⟩ none
        (.testbench none)) ∧ s.holder = some ⟨.synthesis, .runtime, 0⟩)
      [.start (.runtimeRun .plain true), .cli 0 true, .cli 0 true, .acquire 0,
        .start (.sim .plain false false none), .cli 1 true, .cli 1 true, .cli 1 true]
      (by decide +kernel)
  · exact (commands fun _ => [.vvp, .vpi]).exists_reaches System.anyStep
      (fun s => s.procs[0]? = some (.execute ⟨.plain, .simulation, some .verilator, false, false⟩
        (some .verilator) (.testbench (some 0))) ∧ s.holder = some ⟨.simulation, .vvp, 0⟩)
      [.start (.sim .plain false false (some .verilator)), .cli 0 true, .cli 0 true, .cli 0 true,
        .cli 0 true, .cli 0 true, .acquire 0, .cli 0 true, .cli 0 true]
      (by decide +kernel)

end Beethoven.Cli
