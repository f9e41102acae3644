import Beethoven.Control.AXIControl

/-!
# Exclusive use of the control bus

At most one of the three machines of `AXIControlIntf` is active, and at most one of them drives the
bus in a tick. The flag `bus_occupied` alone does not say so: `UPDATE_CMD_WAIT` clears it while its
read is pending. What keeps the machines apart is that the command machine also looks at the state
of the update machine before it starts, and that the response machine is started by the update
machine only (`Exclusive`).
-/

namespace Beethoven.Control

open Command Lib

/-! ### The machines at rest -/

section Rest

variable {i : In} {s : AXIControlIntf} {cmds : List RoccCmd}

theorem Out.merge_empty (o : Out) : o.merge {} = o := by
  simp [Out.merge]

theorem Out.empty_merge (o : Out) : Out.merge {} o = o := by
  simp [Out.merge]

theorem updateRespState_of_inactive (h : s.rsp.state = .inactive) :
    s.updateRespState i = (s, {}, none) := by
  simp [AXIControlIntf.updateRespState, ResponseTransaction.step, h]

/-- A tick of the update machine at rest leaves the other machines as they are; it may start a poll
if the bus is free. -/
structure AXIControlIntf.Waits (s t : AXIControlIntf) : Prop where
  cmd : t.cmd = s.cmd
  rsp : t.rsp = s.rsp
  poll : t.update.Idle ∧ t.busOccupied = s.busOccupied ∨
    s.busOccupied = false ∧ t.busOccupied = true ∧ (t.update = .cmdAddr ∨ t.update = .respAddr)

theorem waits_pollOrWait {next : UpdateState} (h : s.update.Idle)
    (hnext : next = .cmdAddr ∨ next = .respAddr) : s.Waits (s.pollOrWait next) := by
  rw [AXIControlIntf.pollOrWait]
  split_ifs with hstart
  · rw [Bool.and_eq_true, Bool.not_eq_true'] at hstart
    exact ⟨rfl, rfl, .inr ⟨hstart.1, rfl, hnext⟩⟩
  · exact ⟨rfl, rfl, .inl ⟨h, rfl⟩⟩

theorem updateUpdateState_of_idle (h : s.update.Idle) :
    ∃ t, s.updateUpdateState i = (t, {}) ∧ s.Waits t := by
  rcases h with hu | hu
  · exact ⟨s.pollOrWait .cmdAddr, by simp [AXIControlIntf.updateUpdateState, hu],
      waits_pollOrWait (.inl hu) (.inl rfl)⟩
  · exact ⟨s.pollOrWait .respAddr, by simp [AXIControlIntf.updateUpdateState, hu],
      waits_pollOrWait (.inr hu) (.inr rfl)⟩

end Rest

/-! ### The invariant -/

/-- A machine that is active is alone, and the bus is occupied, except while the update machine
waits for `CMD_READY`. -/
structure Exclusive (s : AXIControlIntf) : Prop where
  cmd : s.cmd.state ≠ .inactive →
    s.rsp.state = .inactive ∧ s.update.Idle ∧ s.busOccupied = true
  rsp : s.rsp.state ≠ .inactive →
    s.cmd.state = .inactive ∧ s.update.Idle ∧ s.busOccupied = true
  update : ¬ s.update.Idle →
    s.cmd.state = .inactive ∧ s.rsp.state = .inactive ∧
      (s.busOccupied = true ∨ s.update = .cmdWait)

def AXIControlIntf.AtRest (s : AXIControlIntf) : Prop :=
  s.cmd.state = .inactive ∧ s.rsp.state = .inactive ∧ s.update.Idle

/-- The update machine has no read open. -/
def AXIControlIntf.NoPoll (s : AXIControlIntf) : Prop := s.update ≠ .cmdWait ∧ s.update ≠ .respWait

/-- What the bus monitor sees of a tick in which `register_reponse` is called with the buffers
`called`. -/
structure Observed (s : State) (i : In) (called : List (List ℕ)) (t : State) : Prop where
  bus : t.bus = s.bus.observe t.drives.wires i
  trace : t.trace = s.trace ++ (s.bus.written t.drives.wires i ++ s.bus.readOut t.drives.wires i ++
    called.map Event.registerReponse)

/-- What a tick does, by the machine that is active at its start. -/
inductive TickCase (s : State) (i : In) (t : State) : Prop
  | command (hactive : s.ctl.cmd.state ≠ .inactive) (hcmd : t.ctl.cmd = (s.ctl.cmd.step i).1)
      (hrsp : t.ctl.rsp = s.ctl.rsp) (hpoll : t.ctl.NoPoll) (hcmds : t.cmds = s.cmds)
      (hpopped : t.popped = s.popped) (hdrives : t.drives = { cmd := (s.ctl.cmd.step i).2 })
      (hseen : Observed s i [] t)
  | response (hactive : s.ctl.rsp.state ≠ .inactive) (hcmd : t.ctl.cmd = s.ctl.cmd)
      (hrsp : t.ctl.rsp = (s.ctl.rsp.step i).1) (hpoll : t.ctl.NoPoll) (hcmds : t.cmds = s.cmds)
      (hpopped : t.popped = s.popped) (hdrives : t.drives = { rsp := (s.ctl.rsp.step i).2.1 })
      (hseen : Observed s i (s.ctl.rsp.step i).2.2.toList t)
  | poll (hactive : ¬ s.ctl.update.Idle) (hctl : t.ctl = (s.ctl.updateUpdateState i).1)
      (hcmds : t.cmds = s.cmds) (hpopped : t.popped = s.popped)
      (hdrives : t.drives = { update := (s.ctl.updateUpdateState i).2 }) (hseen : Observed s i [] t)
  | start {cmd : RoccCmd} {words : List ℕ} (hatRest : s.ctl.AtRest)
      (hready : s.ctl.cmd.readyForCommand = true) (hpack : cmd.pack 255 = some words)
      (hcmds : s.cmds = cmd :: t.cmds) (hpopped : t.popped = s.popped ++ [cmd])
      (hcmd : t.ctl.cmd =
        { s.ctl.cmd with state := .bitsWriteAddr, cmdbuf := words, progress := 0 })
      (hrsp : t.ctl.rsp = s.ctl.rsp) (hpoll : t.ctl.NoPoll) (hdrives : t.drives = {})
      (hseen : Observed s i [] t)
  | rest (hatRest : s.ctl.AtRest) (hcmd : t.ctl.cmd = s.ctl.cmd) (hrsp : t.ctl.rsp = s.ctl.rsp)
      (hpoll : t.ctl.NoPoll) (hcmds : t.cmds = s.cmds) (hpopped : t.popped = s.popped)
      (hdrives : t.drives = {}) (hseen : Observed s i [] t)

section Tick

variable {i : In} {s t : State}

theorem AXIControlIntf.Waits.noPoll {c c' : AXIControlIntf} (h : c.Waits c') : c'.NoPoll := by
  rcases h.poll with ⟨h | h, -⟩ | ⟨-, -, h | h⟩ <;> simp [AXIControlIntf.NoPoll, h]

theorem AXIControlIntf.Waits.exclusive {c c' : AXIControlIntf} (h : c.Waits c')
    (hbusy : c.cmd.state ≠ .inactive ∨ c.rsp.state ≠ .inactive → c.busOccupied = true)
    (halone : c.cmd.state = .inactive ∨ c.rsp.state = .inactive) : Exclusive c' := by
  obtain ⟨hcmd, hrsp, ⟨hidle, hbus⟩ | ⟨hfree, hbus, hupdate⟩⟩ := h
  · refine ⟨fun hne => ?_, fun hne => ?_, fun hne => absurd hidle hne⟩
    · rw [hcmd] at hne
      exact ⟨hrsp ▸ halone.resolve_left hne, hidle, hbus.trans (hbusy (.inl hne))⟩
    · rw [hrsp] at hne
      exact ⟨hcmd ▸ halone.resolve_right hne, hidle, hbus.trans (hbusy (.inr hne))⟩
  · have hboth : c.cmd.state = .inactive ∧ c.rsp.state = .inactive := by
      constructor
      · by_contra hne
        simp [hbusy (.inl hne)] at hfree
      · by_contra hne
        simp [hbusy (.inr hne)] at hfree
    refine ⟨fun hne => ?_, fun hne => ?_, fun _ => ⟨hcmd ▸ hboth.1, hrsp ▸ hboth.2, .inl hbus⟩⟩
    · exact absurd (hcmd ▸ hboth.1) hne
    · exact absurd (hrsp ▸ hboth.2) hne

/-- The response machine comes to rest exactly when it registers a response. -/
theorem ResponseTransaction.isSome_step {c : ResponseTransaction} (h : c.state ≠ .inactive) :
    (c.step i).2.2.isSome = true ↔ (c.step i).1.state = .inactive := by
  have hfinish : ∀ c : ResponseTransaction, c.state ≠ .inactive →
      ((c.finishWrite i).2.isSome = true ↔ (c.finishWrite i).1.state = .inactive) := by
    intro c hc
    rw [ResponseTransaction.finishWrite]
    split_ifs <;> simp [hc]
  cases hstate : c.state with
  | inactive => exact absurd hstate h
  | readyWrite =>
    simp only [ResponseTransaction.step, hstate]
    exact hfinish _ (by dsimp only; split_ifs <;> simp)
  | readyWriteB =>
    simp only [ResponseTransaction.step, hstate]
    exact hfinish c h
  | bitsRead | recheckValidRead =>
    simp only [ResponseTransaction.step, hstate]
    split_ifs <;> simp [hstate]
  | _ =>
    simp only [ResponseTransaction.step, hstate]
    split_ifs <;> simp

/-- With the bus occupied, or with the update machine active, no command is started. -/
theorem updateCommandState_of_inactive {c : AXIControlIntf} {cmds : List RoccCmd}
    (h : c.cmd.state = .inactive) (hbusy : c.busOccupied = true ∨ ¬ c.update.Idle) :
    c.updateCommandState i cmds = some (c, {}, none) := by
  simp only [AXIControlIntf.updateCommandState]
  rw [if_pos h, if_neg]
  rw [Bool.and_eq_true, Bool.and_eq_true, decide_eq_true_eq]
  rintro ⟨⟨-, hfree⟩, hidle⟩
  rcases hbusy with hbusy | hbusy
  · simp [hbusy] at hfree
  · exact hbusy hidle

/-- With all machines at rest a command is started, or nothing happens. -/
theorem updateCommandState_of_rest {c : AXIControlIntf} {cmds : List RoccCmd}
    {r : AXIControlIntf × Out × Option RoccCmd} (h : c.cmd.state = .inactive)
    (hr : c.updateCommandState i cmds = some r) :
    r = (c, {}, none) ∨ ∃ cmd rest words s, cmds = cmd :: rest ∧ cmd.pack 255 = some words ∧
      c.cmd.readyForCommand = true ∧ c.update.Idle ∧ r = (s, {}, some cmd) ∧
      s.busOccupied = true ∧ s.rsp = c.rsp ∧ s.update = c.update ∧
      s.cmd = { c.cmd with state := .bitsWriteAddr, cmdbuf := words, progress := 0 } := by
  simp only [AXIControlIntf.updateCommandState, if_pos h] at hr
  split_ifs at hr with hstart
  · rw [Bool.and_eq_true, Bool.and_eq_true, decide_eq_true_eq] at hstart
    cases cmds with
    | nil => exact .inl (Option.some.inj hr).symm
    | cons cmd rest =>
      obtain ⟨s, hs, rfl⟩ := Option.map_eq_some_iff.mp hr
      obtain ⟨words, hpack, rfl⟩ := Option.map_eq_some_iff.mp hs
      exact .inr ⟨cmd, rest, words, _, rfl, hpack, hstart.1.1, hstart.2, rfl, rfl, rfl, rfl, rfl⟩
  · exact .inl (Option.some.inj hr).symm

private theorem exclusive_updateUpdateState {c : AXIControlIntf} (h : Exclusive c)
    (hactive : ¬ c.update.Idle) : Exclusive (c.updateUpdateState i).1 := by
  obtain ⟨hcmd, hrsp, hbus⟩ := h.update hactive
  cases hu : c.update with
  | idleResp => exact absurd (.inr hu) hactive
  | idleCmd => exact absurd (.inl hu) hactive
  | respAddr | cmdAddr =>
    have hbus : c.busOccupied = true := by simpa [hu] using hbus
    constructor <;> simp [AXIControlIntf.updateUpdateState, hu, hcmd, hrsp, hbus]
  | respWait =>
    have hbus : c.busOccupied = true := by simpa [hu] using hbus
    by_cases hvalid : i.rValid = true
    · constructor <;>
        simp [AXIControlIntf.updateUpdateState, hu, hvalid, hcmd, hrsp, hbus, UpdateState.Idle]
    · simpa [AXIControlIntf.updateUpdateState, hu, hvalid] using h
  | cmdWait =>
    by_cases hvalid : i.rValid = true
    · constructor <;>
        simp [AXIControlIntf.updateUpdateState, hu, hvalid, hcmd, hrsp, UpdateState.Idle]
    · constructor <;> simp [AXIControlIntf.updateUpdateState, hu, hvalid, hcmd, hrsp]

/-- A tick with all machines at rest starts a command, or at most a poll. -/
private theorem tick_of_atRest (hrest : s.ctl.AtRest) (ht : s.tick i = some t) :
    Exclusive t.ctl ∧ TickCase s i t := by
  obtain ⟨hcmd, hrsp, hupdate⟩ := hrest
  obtain ⟨c, hc, rfl⟩ := Option.map_eq_some_iff.mp ht
  rcases updateCommandState_of_rest hcmd hc with
    rfl | ⟨cmd, rest, words, c, hcmds, hpack, hready, -, rfl, hbus, hrsp', hu, hcmd'⟩
  · -- no command is taken: the update machine may start a poll
    obtain ⟨c', hc', hwaits⟩ := updateUpdateState_of_idle (i := i) hupdate
    simp only [updateRespState_of_inactive hrsp, hc']
    exact ⟨hwaits.exclusive (by simp [hcmd, hrsp]) (.inl hcmd),
      .rest ⟨hcmd, hrsp, hupdate⟩ hwaits.cmd hwaits.rsp hwaits.noPoll rfl (by simp) rfl
        ⟨rfl, by simp⟩⟩
  · -- a command is started
    obtain ⟨c', hc', hwaits⟩ :=
      updateUpdateState_of_idle (i := i) (hu ▸ hupdate : c.update.Idle)
    have hinactive : c.rsp.state = .inactive := hrsp' ▸ hrsp
    simp only [updateRespState_of_inactive hinactive, hc']
    exact ⟨hwaits.exclusive (fun _ => hbus) (.inr hinactive),
      .start ⟨hcmd, hrsp, hupdate⟩ hready hpack (by simp [hcmds]) rfl (hwaits.cmd.trans hcmd')
        (hwaits.rsp.trans hrsp') hwaits.noPoll rfl ⟨rfl, by simp⟩⟩

/-- A tick of the response machine: the bus is released when the response is registered. -/
private theorem tick_of_response (h : Exclusive s.ctl) (hrsp : s.ctl.rsp.state ≠ .inactive)
    (ht : s.tick i = some t) : Exclusive t.ctl ∧ TickCase s i t := by
  obtain ⟨hcmd, hupdate, hbus⟩ := h.rsp hrsp
  obtain ⟨c, hc, rfl⟩ := Option.map_eq_some_iff.mp ht
  rw [updateCommandState_of_inactive hcmd (.inl hbus)] at hc
  obtain rfl := Option.some.inj hc
  obtain ⟨c', hc', hwaits⟩ :=
    updateUpdateState_of_idle (i := i) (s := (s.ctl.updateRespState i).1) hupdate
  have hbusy : (s.ctl.updateRespState i).1.cmd.state ≠ .inactive ∨
      (s.ctl.updateRespState i).1.rsp.state ≠ .inactive →
      (s.ctl.updateRespState i).1.busOccupied = true := by
    intro hne
    have hcalled := mt (ResponseTransaction.isSome_step hrsp).mp
      (hne.resolve_left (not_not_intro hcmd))
    simp only [AXIControlIntf.updateRespState]
    rw [if_neg hcalled, hbus]
  simp only [hc']
  refine ⟨hwaits.exclusive hbusy (.inl hcmd),
    .response hrsp hwaits.cmd hwaits.rsp hwaits.noPoll rfl (by simp) rfl ⟨rfl, ?_⟩⟩
  cases hcalled : (s.ctl.rsp.step i).2.2 <;> simp [AXIControlIntf.updateRespState, hcalled]

private theorem tick_of_update (h : Exclusive s.ctl) (hupdate : ¬ s.ctl.update.Idle)
    (ht : s.tick i = some t) : Exclusive t.ctl ∧ TickCase s i t := by
  obtain ⟨hcmd, hrsp, -⟩ := h.update hupdate
  obtain ⟨c, hc, rfl⟩ := Option.map_eq_some_iff.mp ht
  rw [updateCommandState_of_inactive hcmd (.inr hupdate)] at hc
  obtain rfl := Option.some.inj hc
  simp only [updateRespState_of_inactive hrsp]
  exact ⟨exclusive_updateUpdateState h hupdate,
    .poll hupdate rfl rfl (by simp) rfl ⟨rfl, by simp⟩⟩

/-- A tick of the command machine: the bus is released when the machine comes to rest. -/
private theorem tick_of_command (h : Exclusive s.ctl) (hcmd : s.ctl.cmd.state ≠ .inactive)
    (ht : s.tick i = some t) : Exclusive t.ctl ∧ TickCase s i t := by
  obtain ⟨hrsp, hupdate, hbus⟩ := h.cmd hcmd
  obtain ⟨c, hc, rfl⟩ := Option.map_eq_some_iff.mp ht
  simp only [AXIControlIntf.updateCommandState, if_neg hcmd] at hc
  obtain ⟨ctl, hctl⟩ : ∃ ctl : AXIControlIntf, ctl =
    { s.ctl with
      cmd := (s.ctl.cmd.step i).1
      busOccupied := if (s.ctl.cmd.step i).1.state = .inactive then false
        else s.ctl.busOccupied } := ⟨_, rfl⟩
  rw [← hctl] at hc
  obtain rfl := Option.some.inj hc
  have hrsp' : ctl.rsp = s.ctl.rsp := by rw [hctl]
  have hinactive : ctl.rsp.state = .inactive := by rw [hrsp', hrsp]
  have hcmd' : ctl.cmd = (s.ctl.cmd.step i).1 := by rw [hctl]
  have hbusy : ctl.cmd.state ≠ .inactive → ctl.busOccupied = true := by
    intro hne
    rw [hcmd'] at hne
    rw [hctl, ← hbus]
    exact if_neg hne
  obtain ⟨c', hc', hwaits⟩ := updateUpdateState_of_idle (i := i) (s := ctl) (by rwa [hctl])
  simp only [updateRespState_of_inactive hinactive, hc']
  exact ⟨hwaits.exclusive (fun hne => hbusy (hne.resolve_right (not_not_intro hinactive)))
    (.inr hinactive), .command hcmd (hwaits.cmd.trans hcmd') (hwaits.rsp.trans hrsp')
    hwaits.noPoll rfl (by simp) rfl ⟨rfl, by simp⟩⟩

/-- **A tick keeps the machines apart**, and is a tick of the one that is active. -/
theorem Exclusive.tick (h : Exclusive s.ctl) (ht : s.tick i = some t) :
    Exclusive t.ctl ∧ TickCase s i t := by
  by_cases hcmd : s.ctl.cmd.state = .inactive
  · by_cases hrsp : s.ctl.rsp.state = .inactive
    · by_cases hupdate : s.ctl.update.Idle
      · exact tick_of_atRest ⟨hcmd, hrsp, hupdate⟩ ht
      · exact tick_of_update h hupdate ht
    · exact tick_of_response h hrsp ht
  · exact tick_of_command h hcmd ht

end Tick

/-! ### Exclusive use -/

def AtMostOne (p q r : Prop) : Prop := ¬ (p ∧ q) ∧ ¬ (p ∧ r) ∧ ¬ (q ∧ r)

/-- `awvalid`, `wvalid`, `arvalid`, `bready` or `rready` is driven high. -/
def Out.Active (o : Out) : Prop :=
  o.aw.isSome = true ∨ o.w.isSome = true ∨ o.ar.isSome = true ∨ o.bReady = true ∨ o.rReady = true

/-- At most one of the three machines is active, and at most one drove the bus in the last tick. -/
structure BusExclusive (s : State) : Prop where
  active : AtMostOne (s.ctl.cmd.state ≠ .inactive) (s.ctl.rsp.state ≠ .inactive)
    (¬ s.ctl.update.Idle)
  drives : AtMostOne s.drives.cmd.Active s.drives.rsp.Active s.drives.update.Active

theorem Exclusive.active {s : AXIControlIntf} (h : Exclusive s) :
    AtMostOne (s.cmd.state ≠ .inactive) (s.rsp.state ≠ .inactive) (¬ s.update.Idle) := by
  refine ⟨?_, ?_, ?_⟩
  · rintro ⟨hcmd, hrsp⟩
    exact hrsp (h.cmd hcmd).1
  · rintro ⟨hcmd, hupdate⟩
    exact hupdate (h.cmd hcmd).2.1
  · rintro ⟨hrsp, hupdate⟩
    exact hupdate (h.rsp hrsp).2.1

theorem TickCase.drives {i : In} {s t : State} (h : TickCase s i t) :
    AtMostOne t.drives.cmd.Active t.drives.rsp.Active t.drives.update.Active := by
  have hempty : ¬ ({} : Out).Active := by simp [Out.Active]
  cases h with
  | command _ _ _ _ _ _ hdrives | response _ _ _ _ _ _ hdrives | poll _ _ _ _ hdrives
  | start _ _ _ _ _ _ _ _ hdrives | rest _ _ _ _ _ _ hdrives => simp [AtMostOne, hdrives, hempty]

theorem Exclusive.of_reaches {s : State} (h : control.Reaches System.anyStep s) :
    Exclusive s.ctl := by
  refine h.invariant (I := fun s => Exclusive s.ctl) ?_ ?_
  · constructor <;> simp [control, UpdateState.Idle]
  · intro s a t hs _ ht
    cases a with
    | tick i => exact (hs.tick ht).1
    | push cmd =>
      obtain rfl := Option.some.inj ht
      exact hs

/-- **Exclusive use of the control bus.** In every state that ticks reach, with any inputs of the
device and commands pushed at any time, at most one machine is active, and in every tick at most one
drives the bus. -/
theorem busExclusive_of_reaches {s : State} (h : control.Reaches System.anyStep s) :
    BusExclusive s := by
  refine h.invariant_of (I := BusExclusive) (fun _ => Exclusive.of_reaches) ?_ ?_
  · exact ⟨by simp [AtMostOne, control, UpdateState.Idle],
      by simp [AtMostOne, control, Out.Active]⟩
  · intro s a t hs hex _ ht
    cases a with
    | tick i =>
      obtain ⟨ht', hcase⟩ := hs.tick ht
      exact ⟨ht'.active, hcase.drives⟩
    | push cmd =>
      obtain rfl := Option.some.inj ht
      exact ⟨hex.active, hex.drives⟩

/-- A device that answers every handshake in the same tick, and reads as ready and valid. -/
def In.responsive : In := ⟨true, true, true, true, true, 1⟩

/-- A command is sent and its response is collected. -/
theorem busExclusive_one_command : ∃ s, control.Reaches System.anyStep s ∧
    s.popped = [{ xd := 1 }] ∧ s.ctl.rsp.state = .bitsRead ∧ BusExclusive s := by
  obtain ⟨s, hreach, hpopped, hstate⟩ := System.exists_reaches control System.anyStep
    (fun s => s.popped = [{ xd := 1 }] ∧ s.ctl.rsp.state = .bitsRead)
    (.push { xd := 1 } :: List.replicate 163 (.tick .responsive)) (by decide +kernel)
  exact ⟨s, hreach, hpopped, hstate, busExclusive_of_reaches hreach⟩

end Beethoven.Control
