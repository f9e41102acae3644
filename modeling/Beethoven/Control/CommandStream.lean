import Beethoven.Control.Accesses
import Beethoven.Lib.PolledStream
import Mathlib.Data.List.GetD

/-!
# The command stream

The words of the commands reach the device through `CMD_READY`, `CMD_BITS` and `CMD_VALID`. In
simulation they are sent by the command machine of `AXIControlIntf`, with the update machine polling
`CMD_READY` for the first word of a command; on an FPGA they are sent by the loop at the end of
`cmd_server_f`. Both keep to the discipline of a polled stream.
-/

namespace Beethoven.Control

open Command Lib

/-- The accesses of the command stream: a read of `CMD_READY` polls, a write to `CMD_BITS` transfers
a word, a write of 1 to `CMD_VALID` strobes. It makes no other access to the three registers. -/
def cmdKind : Event → StreamEvent ℕ
  | .read .cmdReady v => .poll (v != 0)
  | .write .cmdBits w => .data w
  | .write .cmdValid v => if v = 1 then .strobe else .stray
  | .read .cmdBits _ | .read .cmdValid _ | .write .cmdReady _ => .stray
  | _ => .other

/-- The words that `pack` produces for a command. -/
def packed (cmd : RoccCmd) : List ℕ := (cmd.pack 255).getD []

theorem packed_of_pack {cmd : RoccCmd} {words : List ℕ} (h : cmd.pack 255 = some words) :
    packed cmd = words := by
  rw [packed, h, Option.getD_some]

/-! ### The command machine -/

namespace CommandTransaction

variable (c : CommandTransaction)

def phase : StreamPhase :=
  match c.state with
  | .inactive => .idle c.readyForCommand
  | .bitsWriteAddr | .bitsWriteDat | .bitsWriteB => .idle true
  | .validAddr | .validDat | .validWriteB => .loaded
  | .recheckReadyAddr | .recheckReadyDat => .idle false

/-- The words of the command that have not been written. -/
def left : List ℕ :=
  match c.state with
  | .inactive => []
  | .validAddr | .validDat | .validWriteB => c.cmdbuf.drop (c.progress + 1)
  | _ => c.cmdbuf.drop c.progress

theorem left_of_inactive {c : CommandTransaction} (h : c.state = .inactive) : c.left = [] := by
  simp [left, h]

/-- The members of the command machine: it is within the command, and what the update machine has
read is forgotten once the first word is on its way. -/
structure Sound : Prop where
  length : c.cmdbuf.length = cmdPayloadLength
  progress : c.state ≠ .inactive → c.progress < cmdPayloadLength
  forgotten : c.state ≠ .inactive → c.state ≠ .bitsWriteAddr → c.readyForCommand = false

variable {c} {i : In}

theorem Sound.step (h : c.Sound) : (c.step i).1.Sound := by
  cases hstate : c.state with
  | inactive => simpa [CommandTransaction.step, hstate] using h
  | bitsWriteAddr =>
    have hlt := h.progress (by simp [hstate])
    constructor <;> simp [CommandTransaction.step, hstate, h.length, hlt]
  | validWriteB =>
    have hlt := h.progress (by simp [hstate])
    have hforgotten := h.forgotten (by simp [hstate]) (by simp [hstate])
    cases hvalid : i.bValid
    · simpa [CommandTransaction.step, hstate, hvalid] using h
    · refine ⟨?_, ?_, ?_⟩
      · simp [CommandTransaction.step, hstate, hvalid, h.length]
      · simp only [CommandTransaction.step, hstate, hvalid, if_true]
        intro hactive
        have hne : c.progress + 1 ≠ cmdPayloadLength := fun heq => by simp [heq] at hactive
        omega
      · simp [CommandTransaction.step, hstate, hvalid, hforgotten]
  | recheckReadyDat =>
    have hlt := h.progress (by simp [hstate])
    have hforgotten := h.forgotten (by simp [hstate]) (by simp [hstate])
    cases hvalid : i.rValid
    · simpa [CommandTransaction.step, hstate, hvalid] using h
    · constructor <;> simp [CommandTransaction.step, hstate, hvalid, h.length, hlt, hforgotten]
  | _ =>
    have hlt := h.progress (by simp [hstate])
    have hforgotten := h.forgotten (by simp [hstate]) (by simp [hstate])
    constructor <;> simp [CommandTransaction.step, hstate, h.length, hlt, hforgotten]

theorem Sound.drop_progress (h : c.Sound) (hactive : c.state ≠ .inactive) :
    c.cmdbuf.drop c.progress = c.cmdbuf.getD c.progress 0 :: c.cmdbuf.drop (c.progress + 1) := by
  have hlt : c.progress < c.cmdbuf.length := h.length ▸ h.progress hactive
  rw [List.drop_eq_getElem_cons hlt, List.getD_eq_getElem _ _ hlt]

theorem Sound.stream_step (h : c.Sound) {ws : List ℕ} {l : List Event}
    (hs : PolledStream cmdKind c.phase ws l) :
    ∃ ws', PolledStream cmdKind (c.step i).1.phase ws' (l ++ c.accesses i) ∧
      ws' ++ (c.step i).1.left = ws ++ c.left := by
  cases hstate : c.state with
  | inactive => exact ⟨ws, by simpa [CommandTransaction.step, accesses, hstate] using hs,
      by simp [CommandTransaction.step, hstate]⟩
  | bitsWriteB =>
    cases hvalid : i.bValid
    · exact ⟨ws, by simpa [CommandTransaction.step, accesses, phase, hstate, hvalid] using hs,
        by simp [CommandTransaction.step, left, hstate, hvalid]⟩
    · refine ⟨ws ++ [c.cmdbuf.getD c.progress 0], ?_, ?_⟩
      · rw [phase, hstate] at hs
        have hs' := hs.data (e := .write .cmdBits (c.cmdbuf.getD c.progress 0)) rfl
        simpa [CommandTransaction.step, accesses, phase, hstate, hvalid] using hs'
      · have hdrop := h.drop_progress (by simp [hstate])
        simp only [CommandTransaction.step, left, hstate, hvalid, if_true, hdrop]
        simp
  | validWriteB =>
    cases hvalid : i.bValid
    · exact ⟨ws, by simpa [CommandTransaction.step, accesses, phase, hstate, hvalid] using hs,
        by simp [CommandTransaction.step, left, hstate, hvalid]⟩
    · have hforgotten := h.forgotten (by simp [hstate]) (by simp [hstate])
      refine ⟨ws, ?_, ?_⟩
      · rw [phase, hstate] at hs
        have hs' := hs.strobe (e := .write .cmdValid 1) rfl
        by_cases hlast : c.progress + 1 = cmdPayloadLength <;>
          simpa [CommandTransaction.step, accesses, phase, hstate, hvalid, hlast, hforgotten] using
            hs'
      · by_cases hlast : c.progress + 1 = cmdPayloadLength
        · simp [CommandTransaction.step, left, hstate, hvalid, hlast, ← h.length]
        · simp [CommandTransaction.step, left, hstate, hvalid, hlast]
  | recheckReadyDat =>
    cases hvalid : i.rValid
    · exact ⟨ws, by simpa [CommandTransaction.step, accesses, phase, hstate, hvalid] using hs,
        by simp [CommandTransaction.step, left, hstate, hvalid]⟩
    · rw [phase, hstate] at hs
      have hs' := hs.poll (e := .read .cmdReady i.rData) rfl
      by_cases hdata : i.rData = 0
      · exact ⟨ws, by simpa [CommandTransaction.step, accesses, phase, hstate, hvalid, hdata] using
          hs', by simp [CommandTransaction.step, left, hstate, hvalid, hdata]⟩
      · have hready : (i.rData != 0) = true := by simpa using hdata
        rw [hready] at hs'
        exact ⟨ws, by simpa [CommandTransaction.step, accesses, phase, hstate, hvalid, hdata] using
          hs', by simp [CommandTransaction.step, left, hstate, hvalid, hdata]⟩
  | _ =>
    refine ⟨ws, ?_, ?_⟩
    · rw [phase, hstate] at hs
      simp only [CommandTransaction.step, accesses, phase, hstate, List.append_nil]
      split_ifs <;> exact hs
    · simp only [CommandTransaction.step, left, hstate]
      split_ifs <;> rfl

end CommandTransaction

/-! ### The runs of the bus -/

theorem cmdKind_response (i : In) (c : ResponseTransaction) :
    ∀ e ∈ c.accesses i ++ (c.step i).2.2.toList.map Event.registerReponse, cmdKind e = .other := by
  intro e he
  rcases List.mem_append.mp he with he | he
  · cases hstate : c.state with
    | bitsRead | readyWrite | readyWriteB | recheckValidRead =>
      simp only [ResponseTransaction.accesses, hstate] at he
      split_ifs at he
      · rw [List.mem_singleton.mp he]
        rfl
      · simp at he
    | _ => simp [ResponseTransaction.accesses, hstate] at he
  · obtain ⟨b, -, rfl⟩ := List.mem_map.mp he
    rfl

/-- The update machine changes nothing of the command machine but the flag that it polls for. -/
theorem cmd_updateUpdateState (i : In) (c : AXIControlIntf) :
    (c.updateUpdateState i).1.cmd = if c.update = .cmdWait ∧ i.rValid = true then
      { c.cmd with readyForCommand := i.rData != 0 } else c.cmd := by
  cases hu : c.update with
  | idleCmd | idleResp | cmdAddr | respAddr => simp [AXIControlIntf.updateUpdateState, hu]
  | respWait => cases hvalid : i.rValid <;> simp [AXIControlIntf.updateUpdateState, hu, hvalid]
  | cmdWait =>
    cases hvalid : i.rValid <;>
      simp [AXIControlIntf.updateUpdateState, hu, hvalid, bne, beq_eq_decide]

/-- The update machine polls for the command machine while that is at rest. -/
theorem stream_update {c : AXIControlIntf} {i : In} {ws : List ℕ} {l : List Event}
    (hcmd : c.cmd.state = .inactive) (hs : PolledStream cmdKind c.cmd.phase ws l) :
    PolledStream cmdKind (c.updateUpdateState i).1.cmd.phase ws (l ++ c.update.accesses i) := by
  rw [cmd_updateUpdateState]
  split_ifs with hpoll
  · rw [CommandTransaction.phase, hcmd] at hs
    have hs' := hs.poll (e := .read .cmdReady i.rData) rfl
    simpa [UpdateState.accesses, CommandTransaction.phase, hpoll, hcmd] using hs'
  · refine hs.append_other fun e he => ?_
    cases hu : c.update with
    | cmdWait =>
      have hinvalid : ¬ i.rValid = true := fun hvalid => hpoll ⟨hu, hvalid⟩
      simp [UpdateState.accesses, hu, hinvalid] at he
    | respWait =>
      simp only [UpdateState.accesses, hu] at he
      split_ifs at he
      · rw [List.mem_singleton.mp he]
        rfl
      · simp at he
    | _ => simp [UpdateState.accesses, hu] at he

/-- The invariant of the command stream. -/
structure Sending (s : State) : Prop where
  sound : s.ctl.cmd.Sound
  stream : ∃ ws, PolledStream cmdKind s.ctl.cmd.phase ws s.trace ∧
    ws ++ s.ctl.cmd.left = s.popped.flatMap packed
  queue : s.arrived = s.popped ++ s.cmds
  packs : ∀ cmd ∈ s.popped, ∃ words, cmd.pack 255 = some words ∧ words.length = cmdPayloadLength

theorem State.arrived_tick {i : In} {s t : State} (h : s.tick i = some t) :
    t.arrived = s.arrived := by
  obtain ⟨c, -, rfl⟩ := Option.map_eq_some_iff.mp h
  rfl

namespace Sending

variable {i : In} {s t : State}

theorem of_queue (h : Sending s) {ws : List ℕ} (harrived : t.arrived = s.arrived)
    (hcmds : t.cmds = s.cmds) (hpopped : t.popped = s.popped) (hsound : t.ctl.cmd.Sound)
    (hstream : PolledStream cmdKind t.ctl.cmd.phase ws t.trace)
    (hwords : ws ++ t.ctl.cmd.left = s.popped.flatMap packed) : Sending t where
  sound := hsound
  stream := ⟨ws, hstream, hpopped ▸ hwords⟩
  queue := by rw [harrived, hpopped, hcmds, h.queue]
  packs := hpopped ▸ h.packs

theorem tick (h : Sending s) (hex : Exclusive s.ctl) (hbus : Latched s) (ht : s.tick i = some t) :
    Sending t := by
  have hcase := (hex.tick ht).2
  have htrace := (hcase.observed hex hbus).2
  have harrived := State.arrived_tick ht
  obtain ⟨ws, hstream, hwords⟩ := h.stream
  cases hcase with
  | command hactive hcmd _ _ hcmds hpopped _ _ =>
    obtain ⟨ws', hstream', hwords'⟩ := h.sound.stream_step (i := i) hstream
    rw [AXIControlIntf.accesses, if_pos hactive] at htrace
    rw [← hcmd, ← htrace] at hstream'
    refine h.of_queue harrived hcmds hpopped (hcmd ▸ h.sound.step) hstream' ?_
    rw [hcmd, hwords', hwords]
  | response hactive hcmd _ _ hcmds hpopped _ _ =>
    rw [AXIControlIntf.accesses, if_neg (not_not_intro (hex.rsp hactive).1), if_pos hactive]
      at htrace
    have hstream' := hstream.append_other (cmdKind_response i s.ctl.rsp)
    rw [← hcmd, ← htrace] at hstream'
    exact h.of_queue harrived hcmds hpopped (hcmd ▸ h.sound) hstream' (hcmd ▸ hwords)
  | poll hactive hctl hcmds hpopped _ _ =>
    obtain ⟨hcmd, hrsp, -⟩ := hex.update hactive
    rw [AXIControlIntf.accesses, if_neg (not_not_intro hcmd), if_neg (not_not_intro hrsp)] at htrace
    have hstream' := stream_update (i := i) hcmd hstream
    rw [← hctl, ← htrace] at hstream'
    have hcmd' := cmd_updateUpdateState i s.ctl
    rw [← hctl] at hcmd'
    have hinactive : t.ctl.cmd.state = .inactive := by
      rw [hcmd']
      split_ifs <;> exact hcmd
    refine h.of_queue harrived hcmds hpopped ⟨?_, ?_, ?_⟩ hstream' ?_
    · rw [hcmd']
      split_ifs <;> exact h.sound.length
    · exact fun hne => absurd hinactive hne
    · exact fun hne => absurd hinactive hne
    · rw [← hwords, CommandTransaction.left_of_inactive hinactive,
        CommandTransaction.left_of_inactive hcmd]
  | @start cmd words hatRest hready hpack hcmds hpopped hcmd hrsp _ _ _ =>
    rw [hatRest.accesses, List.append_nil] at htrace
    rw [CommandTransaction.phase, hatRest.1] at hstream
    have hlength := RoccCmd.length_pack hpack
    refine ⟨?_, ⟨ws, ?_, ?_⟩, ?_, ?_⟩
    · rw [hcmd]
      exact ⟨hlength, fun _ => (by decide : 0 < cmdPayloadLength), fun _ hne => absurd rfl hne⟩
    · rw [hcmd, htrace]
      simpa [CommandTransaction.phase, hready] using hstream
    · rw [hpopped, hcmd, List.flatMap_append, ← hwords]
      simp [CommandTransaction.left, hatRest.1, packed_of_pack hpack]
    · rw [harrived, h.queue, hpopped, hcmds, List.append_assoc, List.singleton_append]
    · rw [hpopped]
      intro cmd' hmem
      rcases List.mem_append.mp hmem with hmem | hmem
      · exact h.packs cmd' hmem
      · rw [List.mem_singleton.mp hmem]
        exact ⟨words, hpack, hlength⟩
  | rest hatRest hcmd _ _ hcmds hpopped _ _ =>
    rw [hatRest.accesses, List.append_nil] at htrace
    rw [← hcmd, ← htrace] at hstream
    exact h.of_queue harrived hcmds hpopped (hcmd ▸ h.sound) hstream (hcmd ▸ hwords)

theorem of_reaches (h : control.Reaches System.anyStep s) : Sending s := by
  refine h.invariant_of (I := Sending) (J := fun s => Exclusive s.ctl ∧ Latched s)
    (fun _ hs => ⟨.of_reaches hs, .of_reaches hs⟩) ?_ ?_
  · exact ⟨⟨rfl, fun hne => absurd rfl hne, fun hne => absurd rfl hne⟩, ⟨[], .nil, rfl⟩, rfl,
      by simp [control]⟩
  · rintro s a t ⟨hex, hbus⟩ hs _ ht
    cases a with
    | tick i => exact hs.tick hex hbus ht
    | push cmd =>
      obtain rfl := Option.some.inj ht
      refine ⟨hs.sound, hs.stream, ?_, hs.packs⟩
      simp [State.push, hs.queue]

end Sending

/-! ### A device that answers -/

/-- The ticks that a device that answers takes for the rest of the command. -/
def CommandTransaction.remaining (c : CommandTransaction) : ℕ :=
  match c.state with
  | .inactive => 0
  | .recheckReadyAddr => 8 * (cmdPayloadLength - c.progress)
  | .recheckReadyDat => 8 * (cmdPayloadLength - c.progress) - 1
  | .bitsWriteAddr => 8 * (cmdPayloadLength - c.progress) - 2
  | .bitsWriteDat => 8 * (cmdPayloadLength - c.progress) - 3
  | .bitsWriteB => 8 * (cmdPayloadLength - c.progress) - 4
  | .validAddr => 8 * (cmdPayloadLength - c.progress) - 5
  | .validDat => 8 * (cmdPayloadLength - c.progress) - 6
  | .validWriteB => 8 * (cmdPayloadLength - c.progress) - 7

theorem CommandTransaction.Sound.remaining_step {c : CommandTransaction} (h : c.Sound)
    (hactive : c.state ≠ .inactive) :
    (c.step .responsive).1.remaining + 1 = c.remaining := by
  have hlt := h.progress hactive
  cases hstate : c.state with
  | inactive => exact absurd hstate hactive
  | validWriteB =>
    by_cases hlast : c.progress + 1 = cmdPayloadLength
    · simp [CommandTransaction.step, remaining, hstate, In.responsive, hlast]
      omega
    · simp [CommandTransaction.step, remaining, hstate, In.responsive, hlast]
      omega
  | _ =>
    simp only [CommandTransaction.step, remaining, hstate, In.responsive]
    simp
    omega

theorem State.exists_tick {s : State} (i : In) (hactive : s.ctl.cmd.state ≠ .inactive) :
    ∃ t, s.tick i = some t := by
  simp only [State.tick, AXIControlIntf.updateCommandState, if_neg hactive, Option.map_some]
  exact ⟨_, rfl⟩

namespace Sending

variable {s : State}

/-- A device that answers gets all words of the command that is being sent. -/
theorem exists_sent (h : Sending s) (hex : Exclusive s.ctl) (hbus : Latched s) :
    ∃ n t, control.Run System.anyStep s (List.replicate n (.tick .responsive)) t ∧
      t.popped = s.popped ∧ t.ctl.cmd.state = .inactive := by
  induction hn : s.ctl.cmd.remaining generalizing s with
  | zero =>
    refine ⟨0, s, .nil s, rfl, ?_⟩
    by_contra hactive
    have hstep := h.sound.remaining_step hactive
    omega
  | succ n ih =>
    have hactive : s.ctl.cmd.state ≠ .inactive := by
      intro hinactive
      simp [CommandTransaction.remaining, hinactive] at hn
    obtain ⟨t, ht⟩ := State.exists_tick .responsive hactive
    obtain ⟨hex', hcase⟩ := hex.tick ht
    have hbus' := (hcase.observed hex hbus).1
    have hsending := h.tick hex hbus ht
    have hstep := h.sound.remaining_step hactive
    obtain ⟨hcmd, hpopped⟩ : t.ctl.cmd = (s.ctl.cmd.step .responsive).1 ∧ t.popped = s.popped := by
      cases hcase with
      | command _ hcmd _ _ _ hpopped => exact ⟨hcmd, hpopped⟩
      | response hrsp => exact absurd (hex.cmd hactive).1 hrsp
      | poll hupdate => exact absurd (hex.cmd hactive).2.1 hupdate
      | start hatRest | rest hatRest => exact absurd hatRest.1 hactive
    obtain ⟨m, u, hrun, hpopped', hdone⟩ := ih hsending hex' hbus' (by rw [hcmd]; omega)
    exact ⟨m + 1, u, .cons trivial ht hrun, hpopped'.trans hpopped, hdone⟩

end Sending

/-! ### The loop of the command server -/

/-- The loop over the words of a command. -/
def pokeWords : List ℕ → Mmio Unit
  | [] => pure ()
  | w :: words => do
    let _ ← peekUntil .cmdReady
    pokeMmio .cmdBits w
    pokeMmio .cmdValid 1
    pokeWords words

/-- The commands that `cmd_server_f` receives, one after the other; the process exits at a command
that `pack` refuses. -/
def deliver : List RoccCmd → Mmio Unit
  | [] => pure ()
  | cmd :: cmds =>
    match cmd.pack 255 with
    | none => .stop
    | some words => do
      pokeWords words
      deliver cmds

section Loop

open AccessProgram

variable {words ws : List ℕ}

/-- While the words `words` are sent after `ws`, an initial segment of them has been sent. -/
private def Partly (ws words : List ℕ) (l : List Event) : Prop :=
  ∃ sent, sent <+: words ∧ PolledStream cmdKind (.idle false) (ws ++ sent) l

private theorem partly_of_stream {l : List Event}
    (h : PolledStream cmdKind (.idle false) ws l) : Partly ws words l :=
  ⟨[], List.nil_prefix, by rwa [List.append_nil]⟩

private theorem Partly.append {words' : List ℕ} {l : List Event}
    (h : Partly (ws ++ words) words' l) : Partly ws (words ++ words') l := by
  obtain ⟨sent, hsent, hstream⟩ := h
  exact ⟨words ++ sent, (List.prefix_append_right_inj words).mpr hsent, by
    rwa [← List.append_assoc]⟩

theorem triple_pokeWords (ws words : List ℕ) :
    Triple (PolledStream cmdKind (.idle false) ws) (pokeWords words)
      (fun _ => PolledStream cmdKind (.idle false) (ws ++ words)) (Partly ws words) := by
  induction words generalizing ws with
  | nil => exact .ret fun l h => by rwa [List.append_nil]
  | cons w words ih =>
    have hpeek : Triple (PolledStream cmdKind (.idle false) ws) (peekUntil .cmdReady)
        (fun _ => PolledStream cmdKind (.idle true) ws)
        (PolledStream cmdKind (.idle false) ws) := by
      refine .readUntil (fun l v hv h => ?_) fun l v hv h => ?_
      · exact h.poll (congrArg StreamEvent.poll hv)
      · exact h.poll (congrArg StreamEvent.poll hv)
    rw [pokeWords]
    refine (hpeek.weaken (fun _ _ h => h) fun _ => partly_of_stream).bind fun _ => ?_
    refine (Triple.access (Q := fun _ => PolledStream cmdKind .loaded (ws ++ [w]))
      fun l h => h.data rfl).bind fun _ => ?_
    refine (Triple.access (Q := fun _ => PolledStream cmdKind (.idle false) (ws ++ [w]))
      fun l h => h.strobe rfl).bind fun _ => ?_
    have hrest := ih (ws ++ [w])
    rw [List.append_assoc] at hrest
    exact hrest.weaken (fun _ _ h => h) fun _ h => h.append

theorem triple_deliver (ws : List ℕ) (cmds : List RoccCmd) :
    Triple (PolledStream cmdKind (.idle false) ws) (deliver cmds)
      (fun _ => PolledStream cmdKind (.idle false) (ws ++ cmds.flatMap packed))
      (Partly ws (cmds.flatMap packed)) := by
  induction cmds generalizing ws with
  | nil => exact .ret fun l h => by rwa [List.flatMap_nil, List.append_nil]
  | cons cmd cmds ih =>
    rw [deliver, List.flatMap_cons]
    cases hpack : cmd.pack 255 with
    | none => exact .stop fun _ => partly_of_stream
    | some words =>
      rw [packed_of_pack hpack]
      refine ((triple_pokeWords ws words).weaken (fun _ _ h => h) fun l h => ?_).bind fun _ => ?_
      · obtain ⟨sent, hsent, hstream⟩ := h
        exact ⟨sent, hsent.trans (List.prefix_append _ _), hstream⟩
      · have hrest := ih (ws ++ words)
        rw [List.append_assoc] at hrest
        exact hrest.weaken (fun _ _ h => h) fun _ h => h.append

theorem consumes_pokeWords (words : List ℕ) : Consumes (· != 0) words.length (pokeWords words) := by
  induction words with
  | nil => exact .ret
  | cons w words ih =>
    have h := (Consumes.readUntil (f := Event.read .cmdReady) (p := (· != 0))).bind fun _ =>
      (Consumes.access (e := Event.write .cmdBits w)).bind fun _ =>
        (Consumes.access (e := Event.write .cmdValid 1)).bind fun _ => ih
    rwa [Nat.zero_add, Nat.zero_add, Nat.add_comm] at h

theorem consumes_deliver {cmds : List RoccCmd} (h : ∀ cmd ∈ cmds, (cmd.pack 255).isSome) :
    Consumes (· != 0) (cmdPayloadLength * cmds.length) (deliver cmds) := by
  induction cmds with
  | nil => exact .ret
  | cons cmd cmds ih =>
    obtain ⟨words, hpack⟩ := Option.isSome_iff_exists.mp (h cmd List.mem_cons_self)
    have hpoke := consumes_pokeWords words
    rw [RoccCmd.length_pack hpack] at hpoke
    have hall := hpoke.bind fun _ => ih fun cmd' hmem => h cmd' (List.mem_cons_of_mem cmd hmem)
    rw [deliver, hpack, List.length_cons, Nat.mul_succ, Nat.add_comm]
    exact hall

end Loop

/-! ### The two paths -/

/-- The accesses `l` send the words of the commands `cmds`, in order and under the discipline. -/
structure SendsCommands (cmds : List RoccCmd) (l : List Event) : Prop where
  disciplined : Disciplined cmdKind l
  words : dataOf cmdKind l <+: cmds.flatMap packed

theorem SendsCommands.of_stream {cmds : List RoccCmd} {q : StreamPhase} {ws : List ℕ}
    {l : List Event} (h : PolledStream cmdKind q ws l) (hws : ws <+: cmds.flatMap packed) :
    SendsCommands cmds l :=
  ⟨h.disciplined, h.dataOf_eq ▸ hws⟩

/-- What the simulated bus has sent: the commands popped are the first ones pushed, each of five
words; an initial segment of their words has been sent, and all of them if the command machine is at
rest, to which a device that answers brings it. -/
structure CommandsSent (s : State) : Prop where
  queue : s.arrived = s.popped ++ s.cmds
  packs : ∀ cmd ∈ s.popped, (packed cmd).length = cmdPayloadLength
  sends : SendsCommands s.popped s.trace
  sent : s.ctl.cmd.state = .inactive → dataOf cmdKind s.trace = s.popped.flatMap packed
  finishes : ∃ n t, control.Run System.anyStep s (List.replicate n (.tick .responsive)) t ∧
    t.popped = s.popped ∧ dataOf cmdKind t.trace = s.popped.flatMap packed

theorem Sending.sent {s : State} (h : Sending s) (hinactive : s.ctl.cmd.state = .inactive) :
    dataOf cmdKind s.trace = s.popped.flatMap packed := by
  obtain ⟨ws, hstream, hwords⟩ := h.stream
  rw [hstream.dataOf_eq, ← hwords, CommandTransaction.left_of_inactive hinactive, List.append_nil]

theorem CommandsSent.of_reaches {s : State} (h : control.Reaches System.anyStep s) :
    CommandsSent s := by
  have hsending := Sending.of_reaches h
  obtain ⟨ws, hstream, hwords⟩ := hsending.stream
  obtain ⟨n, t, hrun, hpopped, hdone⟩ := hsending.exists_sent (.of_reaches h) (.of_reaches h)
  refine ⟨hsending.queue, ?_, .of_stream hstream ⟨_, hwords⟩, hsending.sent, n, t, hrun, hpopped,
    ?_⟩
  · intro cmd hmem
    obtain ⟨words, hpack, hlength⟩ := hsending.packs cmd hmem
    rw [packed_of_pack hpack, hlength]
  · rw [(Sending.of_reaches (h.trans_run hrun)).sent hdone, hpopped]

/-- What the loop of the command server has sent against the values `vs`: all words if it returns,
and it returns if `CMD_READY` reads nonzero often enough. -/
structure CommandsDelivered (cmds : List RoccCmd) (vs : List ℕ) : Prop where
  sends : SendsCommands cmds (deliver cmds vs).1
  sent : (deliver cmds vs).2.isSome → dataOf cmdKind (deliver cmds vs).1 = cmds.flatMap packed
  finishes : (∀ cmd ∈ cmds, (cmd.pack 255).isSome) →
    cmdPayloadLength * cmds.length ≤ vs.countP (· != 0) → (deliver cmds vs).2.isSome

theorem CommandsDelivered.of_deliver (cmds : List RoccCmd) (vs : List ℕ) :
    CommandsDelivered cmds vs := by
  have hfinishes : (∀ cmd ∈ cmds, (cmd.pack 255).isSome) →
      cmdPayloadLength * cmds.length ≤ vs.countP (· != 0) → (deliver cmds vs).2.isSome := by
    intro hpack hvs
    obtain ⟨l, a, vs', hrun, -⟩ := consumes_deliver hpack vs hvs
    rw [hrun, Option.isSome_some]
  rcases (triple_deliver [] cmds).result .nil vs with
    ⟨a, vs', -, hstream⟩ | ⟨hnone, sent, hsent, hstream⟩
  · rw [List.nil_append, List.nil_append] at hstream
    exact ⟨.of_stream hstream List.prefix_rfl, fun _ => hstream.dataOf_eq, hfinishes⟩
  · rw [List.nil_append, List.nil_append] at hstream
    exact ⟨.of_stream hstream hsent, by simp [hnone], hfinishes⟩

/-- **The command stream.** In every run of the simulated bus the words of the popped commands are
written to `CMD_BITS` in order, each followed by one write of 1 to `CMD_VALID` and each after a read
of `CMD_READY` that returned nonzero since then. The loop of the command server keeps to the same
discipline, whatever it reads from `CMD_READY`. -/
theorem commandStream_of_reaches :
    (∀ s, control.Reaches System.anyStep s → CommandsSent s) ∧
      ∀ cmds vs, CommandsDelivered cmds vs :=
  ⟨fun _ => CommandsSent.of_reaches, CommandsDelivered.of_deliver⟩

/-- A command is sent to a device that answers at once, and to one that is not ready at first. -/
theorem commandStream_one_command : (∃ s, control.Reaches System.anyStep s ∧
    s.popped = [{ rs1 := 7 }] ∧ (dataOf cmdKind s.trace).length = 5 ∧ CommandsSent s) ∧
      CommandsDelivered [{ rs1 := 7 }] [0, 1, 1, 0, 1, 1, 1] := by
  obtain ⟨s, hreach, hpopped, hlength⟩ := System.exists_reaches control System.anyStep
    (fun s => s.popped = [{ rs1 := 7 }] ∧ (dataOf cmdKind s.trace).length = 5)
    (.push { rs1 := 7 } :: List.replicate 95 (.tick .responsive)) (by decide +kernel)
  exact ⟨⟨s, hreach, hpopped, hlength, commandStream_of_reaches.1 s hreach⟩,
    commandStream_of_reaches.2 _ _⟩

end Beethoven.Control
