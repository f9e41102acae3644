import Beethoven.Command.Routing
import Beethoven.Control.CommandStream
import Beethoven.Control.ResponseStream
import Beethoven.Lib.Coupling

/-!
# Commands and responses of a simulation

In simulation the thread that ticks the design runs `AXIControlIntf::tick`, and the command server
and its clients run beside it. They meet in the queue `cmds`, to which the command server pushes and
from which a tick pops, both under `cmdserverlock`, and in `register_reponse`, which the tick calls
with the words of a response.

The command system of `Beethoven.Command` leaves the bus open: commands are delivered and responses
emitted at any time. The control bus of `Beethoven.Control` leaves the command server open: commands
are pushed at any time. Here they are coupled. A tick that pops a command delivers it, and a tick
that calls `register_reponse` emits a response; the thread then runs that call to its end before the
next tick. Which delivered command the device answers is part of the label, as nothing on the bus
tells.

From there the words of the commands can be followed from `send` to the wires, and a response from
the wires to the client that collects it.
-/

namespace Beethoven.Control

open Command Lib

variable {ι : Type} [DecidableEq ι]

/-! ### What a tick does to the command server -/

namespace State

variable (s : State) (i : In)

/-- The command machine looks at the queue, under `cmdserverlock`. -/
def locks : Bool :=
  s.ctl.cmd.state == .inactive && s.ctl.cmd.readyForCommand && !s.ctl.busOccupied &&
    decide s.ctl.update.Idle

/-- The tick pops a command. -/
def pops : Bool := ((s.ctl.updateCommandState i s.cmds).map fun c => c.2.2.isSome).getD false

/-- The words with which the tick calls `register_reponse`. -/
def registers : Option (List ℕ) :=
  (s.ctl.updateCommandState i s.cmds).bind fun c => (c.1.updateRespState i).2.2

end State

/-- The buffer of three words of 32 bits. -/
def bufferOf (words : List ℕ) : ResponseBuffer :=
  ⟨.ofNat (words.getD 0 0), .ofNat (words.getD 1 0), .ofNat (words.getD 2 0)⟩

/-- The steps of the threads. A tick comes with the delivered command that the device answers with
the response of this tick, if there is one and it answers one. -/
inductive SimAction (ι : Type) where
  | call (i : ι) (call : Call)
  | client (i : ι)
  | server (stray : ℕ)
  | poller (stray : ℕ)
  | tick (i : In) (answers : Option ℕ)

/-- The response of a tick, as the command system sees it. -/
def emission (answers : Option ℕ) (words : List ℕ) : Command.Action ι :=
  match answers with
  | some j => .respond j (bufferOf words)
  | none => .unsolicited (bufferOf words)

/-- How the command system and the control bus step together. -/
def coupling (ι : Type) :
    System.Coupling (Command.State ι) (Command.Action ι) State Action (SimAction ι) where
  left x
    | .call i call => [.call i call]
    | .client i => [.client i]
    | .server stray => [.server stray]
    | .poller stray => [.poller stray]
    | .tick i answers => (if x.2.pops i then [.deliver] else []) ++
        (x.2.registers i).toList.map (emission answers)
  right x
    | .server _ => if x.1.server = .push then [.push x.1.cmd.cmd] else []
    | .tick i _ => [.tick i]
    | _ => []
  enabled x
    -- the thread is in `register_reponse`, or it waits for `cmdserverlock`
    | .tick _ _ => x.1.poller == .idle && x.1.chan.isEmpty && !(x.2.locks && x.1.cmdserverlock)
    | _ => true

/-- The command server, its clients and the control bus of a simulation. -/
def simulation (ι : Type) [DecidableEq ι] (info : PackInfo) :
    System (Command.State ι × State) (SimAction ι) :=
  (commandSystem ι info).couple control (coupling ι)

/-! ### The queue and the responses -/

section Tick

variable {s t : State} {i : In}

theorem State.exists_of_pops (h : s.pops i = true) : ∃ cmd cmds, s.cmds = cmd :: cmds := by
  cases hcmds : s.cmds with
  | nil =>
    rw [State.pops, hcmds, AXIControlIntf.updateCommandState] at h
    split_ifs at h <;> exact absurd h Bool.false_ne_true
  | cons cmd cmds => exact ⟨cmd, cmds, rfl⟩

private theorem framesOf_accesses (b : Bus) (o : Out) :
    framesOf called (b.written o i ++ b.readOut o i) = [] := by
  have hwritten : framesOf called (b.written o i) = [] := by
    rw [Bus.written]
    split <;> rfl
  have hread : framesOf called (b.readOut o i) = [] := by
    rw [Bus.readOut]
    split <;> rfl
  rw [framesOf_append, hwritten, hread, List.append_nil]

/-- **What a tick does** to the queue and to the responses. -/
theorem State.tick_eq_some (h : s.tick i = some t) :
    t.cmds = (if s.pops i then s.cmds.tail else s.cmds) ∧ t.arrived = s.arrived ∧
      framesOf called t.trace = framesOf called s.trace ++ (s.registers i).toList := by
  obtain ⟨c, hc, rfl⟩ := Option.map_eq_some_iff.mp h
  have hpops : s.pops i = c.2.2.isSome := by simp [State.pops, hc]
  have hregisters : s.registers i = (c.1.updateRespState i).2.2 := by simp [State.registers, hc]
  refine ⟨by rw [hpops], rfl, ?_⟩
  dsimp only
  rw [framesOf_append, framesOf_append, framesOf_accesses, hregisters, List.nil_append]
  cases (c.1.updateRespState i).2.2 <;> rfl

end Tick

/-- Neither the queue nor the responses change. -/
structure SameQueues (s t : Command.State ι) : Prop where
  cmds : t.cmds = s.cmds
  pushed : t.pushed = s.pushed
  emitted : t.emitted = s.emitted

section Queues

variable {s t : Command.State ι} {info : PackInfo} {stray : ℕ} {i : ι}

theorem sameQueues_call {c : Call} (h : callStep s i c = some t) : SameQueues s t := by
  cases callStep_cases h <;> exact ⟨rfl, rfl, rfl⟩

theorem sameQueues_client (h : clientStep s i = some t) : SameQueues s t := by
  cases clientStep_cases h <;> exact ⟨rfl, rfl, rfl⟩

omit [DecidableEq ι] in
theorem sameQueues_poller (h : pollerStep info stray s = some t) : SameQueues s t := by
  cases pollerStep_cases h <;> exact ⟨rfl, rfl, rfl⟩

omit [DecidableEq ι] in
theorem queues_server (h : serverStep stray s = some t) :
    t.emitted = s.emitted ∧ if s.server = .push then
      t.cmds = s.cmds ++ [s.cmd] ∧ t.pushed = s.pushed ++ [s.cmd]
    else t.cmds = s.cmds ∧ t.pushed = s.pushed := by
  cases serverStep_cases h with
  | push hpc => exact ⟨rfl, by simp [hpc]⟩
  | _ hpc => exact ⟨rfl, by simp [hpc]⟩

end Queues

/-! ### The two sides of a run -/

/-- The queue of the bus is that of the command server, and the responses emitted are those for
which `register_reponse` is called. -/
structure Linked (x : Command.State ι × State) : Prop where
  queue : x.2.cmds = x.1.cmds.map Issued.cmd
  arrived : x.2.arrived = x.1.pushed.map Issued.cmd
  emitted : x.1.emitted.map Prod.snd = (framesOf called x.2.trace).map bufferOf

namespace Linked

variable {x y : Command.State ι × State} {info : PackInfo}

omit [DecidableEq ι] in
theorem same (h : Linked x) (hqueues : SameQueues x.1 y.1) (hbus : y.2 = x.2) : Linked y := by
  refine ⟨?_, ?_, ?_⟩
  · rw [hbus, hqueues.cmds, h.queue]
  · rw [hbus, hqueues.pushed, h.arrived]
  · rw [hbus, hqueues.emitted, h.emitted]

omit [DecidableEq ι] in
theorem server {stray : ℕ} (h : Linked x) (hstep : serverStep stray x.1 = some y.1)
    (hbus : control.Run System.anyStep x.2
      (if x.1.server = .push then [.push x.1.cmd.cmd] else []) y.2) : Linked y := by
  obtain ⟨hemitted, hqueues⟩ := queues_server hstep
  by_cases hpush : x.1.server = .push
  · rw [if_pos hpush] at hqueues hbus
    obtain ⟨hcmds, hpushed⟩ := hqueues
    have hy : y.2 = x.2.push x.1.cmd.cmd := (Option.some.inj hbus.step_of_singleton).symm
    refine ⟨?_, ?_, ?_⟩
    · rw [hy, hcmds, List.map_append, ← h.queue]
      rfl
    · rw [hy, hpushed, List.map_append, ← h.arrived]
      rfl
    · rw [hy, hemitted, h.emitted]
      rfl
  · rw [if_neg hpush] at hqueues hbus
    exact h.same ⟨hqueues.1, hqueues.2, hemitted⟩ hbus.eq_of_nil

theorem deliver {s t : Command.State ι} {cmds : List RoccCmd} {i : In} {bus : State}
    (hqueue : bus.cmds = s.cmds.map Issued.cmd)
    (hcmds : cmds = if bus.pops i then bus.cmds.tail else bus.cmds)
    (hrun : (commandSystem ι info).Run System.anyStep s
      (if bus.pops i then [.deliver] else []) t) :
    cmds = t.cmds.map Issued.cmd ∧ t.pushed = s.pushed ∧ t.emitted = s.emitted := by
  cases hpops : bus.pops i with
  | false =>
    rw [hpops] at hrun hcmds
    obtain rfl := hrun.eq_of_nil
    exact ⟨hcmds.trans hqueue, rfl, rfl⟩
  | true =>
    rw [hpops] at hrun hcmds
    have hstep : Command.step info s .deliver = some t := hrun.step_of_singleton
    cases step_cases hstep with
    | hardware h =>
      cases h with
      | deliver hx =>
        refine ⟨?_, rfl, rfl⟩
        rw [hcmds, if_pos rfl, hqueue, hx]
        rfl

theorem emission {s t : Command.State ι} {words : Option (List ℕ)} {answers : Option ℕ}
    (hrun : (commandSystem ι info).Run System.anyStep s
      (words.toList.map (emission answers)) t) :
    t.cmds = s.cmds ∧ t.pushed = s.pushed ∧
      t.emitted.map Prod.snd = s.emitted.map Prod.snd ++ words.toList.map bufferOf := by
  cases words with
  | none =>
    obtain rfl := hrun.eq_of_nil
    exact ⟨rfl, rfl, (List.append_nil _).symm⟩
  | some words =>
    have hstep : Command.step info s (Control.emission answers words) = some t :=
      hrun.step_of_singleton
    cases answers with
    | none | some j =>
      cases step_cases hstep with
      | hardware h =>
        cases h
        exact ⟨rfl, rfl, List.map_append⟩

theorem tick {i : In} {answers : Option ℕ} (h : Linked x)
    (hrun : (commandSystem ι info).Run System.anyStep x.1
      ((coupling ι).left x (.tick i answers)) y.1) (htick : x.2.tick i = some y.2) : Linked y := by
  obtain ⟨hcmds, harrived, hframes⟩ := State.tick_eq_some htick
  obtain ⟨s, hdeliver, hemit⟩ := System.Run.of_append hrun
  obtain ⟨hqueue, hpushed, hemitted⟩ := deliver h.queue hcmds hdeliver
  obtain ⟨hqueue', hpushed', hemitted'⟩ := emission hemit
  refine ⟨?_, ?_, ?_⟩
  · rw [hqueue, hqueue']
  · rw [harrived, h.arrived, hpushed', hpushed]
  · rw [hemitted', hemitted, h.emitted, hframes, List.map_append]

theorem exists_deliver {i : In} (h : Linked x) :
    ∃ s, (commandSystem ι info).Run System.anyStep x.1
      (if x.2.pops i then [.deliver] else []) s := by
  cases hpops : x.2.pops i with
  | false => exact ⟨x.1, .nil x.1⟩
  | true =>
    obtain ⟨cmd, cmds, hcmds⟩ := State.exists_of_pops hpops
    rw [h.queue] at hcmds
    obtain ⟨issued, rest, hqueue, -⟩ := List.map_eq_cons_iff.mp hcmds
    refine ⟨{ x.1 with cmds := rest, hw := x.1.hw ++ [issued] }, .cons trivial ?_ (.nil _)⟩
    simp [commandSystem, Command.step, hqueue]

/-- The command server does not hold up a tick that is enabled and calls no `register_reponse`. -/
theorem exists_tick {i : In} {bus : State} (h : Linked x)
    (henabled : (coupling ι).enabled x (.tick i none) = true) (hnone : x.2.registers i = none)
    (htick : x.2.tick i = some bus) :
    ∃ y, (simulation ι info).step x (.tick i none) = some y := by
  obtain ⟨s, hs⟩ : ∃ s, (commandSystem ι info).Run System.anyStep x.1
    (if x.2.pops i then [.deliver] else []) s := h.exists_deliver
  refine ⟨(s, bus), System.step_couple henabled ?_ (.cons trivial htick (.nil bus))⟩
  simpa [coupling, hnone] using hs

theorem of_reaches {ok : Command.State ι × State → SimAction ι → Prop}
    (h : (simulation ι info).Reaches ok x) : Linked x := by
  refine h.invariant ⟨rfl, rfl, rfl⟩ fun x a y hx _ hstep => ?_
  obtain ⟨-, hleft, hright⟩ := System.couple_step hstep
  cases a with
  | call i c => exact hx.same (sameQueues_call hleft.step_of_singleton) hright.eq_of_nil
  | client i => exact hx.same (sameQueues_client hleft.step_of_singleton) hright.eq_of_nil
  | server stray => exact hx.server hleft.step_of_singleton hright
  | poller stray => exact hx.same (sameQueues_poller hleft.step_of_singleton) hright.eq_of_nil
  | tick i answers => exact hx.tick hleft hright.step_of_singleton

end Linked

/-! ### The runs considered -/

/-- The clients and the device keep to the rules under which responses are routed, and the device
answers a write only after its data. -/
def SimOk (info : PackInfo) (x : Command.State ι × State) (a : SimAction ι) : Prop :=
  (commandSystem ι info).Allowed (Routable info) x.1 ((coupling ι).left x a) ∧
    control.Allowed AxiSlave x.2 ((coupling ι).right x a)

instance [Fintype ι] (info : PackInfo) (x : Command.State ι × State) (a : SimAction ι) :
    Decidable (SimOk info x a) :=
  inferInstanceAs (Decidable (_ ∧ _))

section Simulation

variable {info : PackInfo} {x : Command.State ι × State}

theorem routingInv_of_reaches (h : (simulation ι info).Reaches (SimOk info) x) :
    RoutingInv info x.1 := by
  have hleft : (commandSystem ι info).Reaches (Routable info) x.1 := h.left fun _ _ hok => hok.1
  exact hleft.invariant (routingInv_init info) fun _ _ _ hs ha hstep => hs.step ha hstep

theorem control_of_reaches (h : (simulation ι info).Reaches (SimOk info) x) :
    control.Reaches AxiSlave x.2 :=
  h.right fun _ _ hok => hok.2

omit [DecidableEq ι] in
/-- The commands pushed are those of the `send`s that acquired `cmd_send_lock`, in that order; the
last one may be missing. -/
theorem acquired_of_routingInv {s : Command.State ι} (h : RoutingInv info s) :
    ∃ last, s.acquired.map Prod.snd = s.pushed.map Issued.cmd ++ last ∧ last.length ≤ 1 := by
  obtain ⟨rest, htagged, hlength⟩ := h.slots.orderly.inv.pushed_append
  refine ⟨rest.map Prod.snd, ?_, by rwa [List.length_map]⟩
  have hmap := congrArg (List.map Prod.snd) htagged
  rw [Rendezvous.map_snd_tagged, List.map_append] at hmap
  refine hmap.trans (congrArg (· ++ _) ?_)
  exact List.map_map ..

/-- The commands between `send` and the wires. Those that the bus has popped, those in the queue and
at most one that is not yet pushed are all, in the order in which their clients acquired
`cmd_send_lock`; the words of the popped ones are on the bus, up to the command being sent. A tick
finds in the queue what it pops. -/
structure CommandsOnBus (info : PackInfo) (x : Command.State ι × State) : Prop where
  order : ∃ last, x.1.acquired.map Prod.snd = x.2.popped ++ x.1.cmds.map Issued.cmd ++ last ∧
    last.length ≤ 1
  words : dataOf cmdKind x.2.trace <+: x.2.popped.flatMap packed
  length : ∀ cmd ∈ x.2.popped, (packed cmd).length = cmdPayloadLength
  sent : x.2.ctl.cmd.state = .inactive → dataOf cmdKind x.2.trace = x.2.popped.flatMap packed
  ticks : ∀ i, (coupling ι).enabled x (.tick i none) = true → x.2.registers i = none →
    (x.2.tick i).isSome = true → ((simulation ι info).step x (.tick i none)).isSome = true

/-- **From `send` to the wires.** In every run of a simulation no command is lost, duplicated or
overtaken on its way to the bus. -/
theorem commands_on_bus (h : (simulation ι info).Reaches (SimOk info) x) :
    CommandsOnBus info x := by
  have hlinked := Linked.of_reaches h
  have hbus := CommandsSent.of_reaches ((control_of_reaches h).mono fun _ _ _ => trivial)
  obtain ⟨last, hacquired, hlength⟩ := acquired_of_routingInv (routingInv_of_reaches h)
  refine ⟨⟨last, ?_, hlength⟩, hbus.sends.words, hbus.packs, hbus.sent, ?_⟩
  · rw [hacquired, ← hlinked.arrived, hbus.queue, hlinked.queue]
  · intro i henabled hnone htick
    obtain ⟨bus, htick⟩ := Option.isSome_iff_exists.mp htick
    exact Option.isSome_iff_exists.mpr (hlinked.exists_tick henabled hnone htick)

/-! A client sends a command and collects its response, from a device that answers each write in the
tick after its data. -/

private def quiet : SimAction (Fin 1) := .tick { In.responsive with bValid := false } none

private def acknowledged (answers : Option ℕ) : List (SimAction (Fin 1)) :=
  List.replicate 6 quiet ++ [.tick .responsive answers]

private def writtenWord : List (SimAction (Fin 1)) :=
  List.replicate 4 quiet ++ [.tick .responsive none, quiet, quiet, .tick .responsive none]

private def roundTrip : List (SimAction (Fin 1)) :=
  List.flatten [[.call 0 (.send { xd := 1 }), .client 0, .client 0, .client 0],
    List.replicate 12 (.server 0), List.replicate 4 (.client 0), List.replicate 53 quiet,
    writtenWord, writtenWord, writtenWord, writtenWord, writtenWord, List.replicate 67 quiet,
    acknowledged none, acknowledged none, acknowledged (some 0), List.replicate 7 (.poller 0),
    .call 0 (.get 0) :: List.replicate 5 (.client 0)]

theorem commands_on_bus_one : ∃ x, (simulation (Fin 1) ⟨4, 8⟩).Reaches (SimOk ⟨4, 8⟩) x ∧
    dataOf cmdKind x.2.trace = [16384, 0, 0, 0, 0] ∧ CommandsOnBus ⟨4, 8⟩ x := by
  obtain ⟨x, hx, hwords⟩ := System.exists_reaches (simulation (Fin 1) ⟨4, 8⟩) (SimOk ⟨4, 8⟩)
    (fun x => dataOf cmdKind x.2.trace = [16384, 0, 0, 0, 0]) roundTrip (by decide +kernel)
  exact ⟨x, hx, hwords, commands_on_bus hx⟩

/-- A response between the wires and `get`. The response that a client collects for its command is
made of the words of one frame on the bus, and of no other response. -/
structure ResponsesOffBus (info : PackInfo) (x : Command.State ι × State) : Prop where
  response : ∀ n r, (n, r) ∈ x.1.collected → ∃ k,
    let words := ((dataOf respKind x.2.trace).drop (respPayloadLength * k)).take respPayloadLength
    words.length = respPayloadLength ∧ x.1.emitted[k]? = some (some n, bufferOf words) ∧
      r = .ofBuffer info (bufferOf words)
  once : (x.1.emitted.map Prod.fst).Nodup
  command : ∀ n r, (n, r) ∈ x.1.collected → n < x.1.acquired.length

/-- **From the wires to `get`.** In every run of a simulation a client collects the words that the
bus has read for its own command. -/
theorem responses_off_bus (h : (simulation ι info).Reaches (SimOk info) x) :
    ResponsesOffBus info x := by
  have hinv := routingInv_of_reaches h
  have hemitted := (Linked.of_reaches h).emitted
  have hframing := (Receiving.of_reaches (control_of_reaches h)).collecting.framing
  have hanswer : ∀ n r, (n, r) ∈ x.1.collected →
      ∃ buffer, (some n, buffer) ∈ x.1.emitted ∧ r = .ofBuffer info buffer := by
    intro n r hr
    have hreturned := hinv.boxes.returned (some n, r) (List.mem_map.mpr ⟨(n, r), hr, rfl⟩)
    obtain ⟨⟨u, buffer⟩, hmem, heq⟩ := List.mem_map.mp hreturned
    obtain ⟨rfl, hresponse⟩ := Prod.mk.inj heq
    exact ⟨buffer, hmem, hresponse.symm⟩
  refine ⟨fun n r hr => ?_, (List.nodup_append.mp hinv.transit.nodup).1, fun n r hr => ?_⟩
  · obtain ⟨buffer, hmem, rfl⟩ := hanswer n r hr
    obtain ⟨k, hk⟩ := List.mem_iff_getElem?.mp hmem
    have hbuffer : ((framesOf called x.2.trace).map bufferOf)[k]? = some buffer := by
      rw [← hemitted, List.getElem?_map, hk]
      rfl
    rw [List.getElem?_map] at hbuffer
    obtain ⟨words, hwords, rfl⟩ := Option.map_eq_some_iff.mp hbuffer
    refine ⟨k, ?_⟩
    rw [hframing.take_drop_dataOf hwords]
    exact ⟨hframing.length_of_mem (List.mem_of_getElem? hwords), hk, rfl⟩
  · obtain ⟨buffer, hmem, -⟩ := hanswer n r hr
    obtain ⟨m, hm, hn⟩ := hinv.transit.emitted _ hmem
    obtain rfl : n = m := Option.some.inj hn
    obtain ⟨last, hacquired, -⟩ := acquired_of_routingInv hinv
    have hlength := congrArg List.length hacquired
    simp only [List.length_map, List.length_append] at hlength
    omega

theorem responses_off_bus_one : ∃ x, (simulation (Fin 1) ⟨4, 8⟩).Reaches (SimOk ⟨4, 8⟩) x ∧
    x.1.collected.map Prod.fst = [0] ∧ ResponsesOffBus ⟨4, 8⟩ x := by
  obtain ⟨x, hx, hcollected⟩ := System.exists_reaches (simulation (Fin 1) ⟨4, 8⟩) (SimOk ⟨4, 8⟩)
    (fun x => x.1.collected.map Prod.fst = [0]) roundTrip (by decide +kernel)
  exact ⟨x, hx, hcollected, responses_off_bus hx⟩

end Simulation

end Beethoven.Control
