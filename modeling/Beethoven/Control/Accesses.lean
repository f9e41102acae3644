import Beethoven.Control.Exclusion
import Beethoven.Lib.AccessProgram

/-!
# The accesses on the control bus

What the bus monitor sees of the three machines. The handshakes that are open at the end of a tick
are determined by the state of the machine that is active (`AXIControlIntf.latched`), and so are the
accesses that the next tick completes (`AXIControlIntf.accesses`).

On an FPGA the same registers are accessed by programs, through `peek_mmio` and `poke_mmio`.
-/

namespace Beethoven.Control

open Command Lib

/-! ### The machines -/

/-- The open handshakes of the command machine. -/
def CommandTransaction.latched (c : CommandTransaction) : Bus :=
  match c.state with
  | .bitsWriteDat => { aw := some .cmdBits }
  | .bitsWriteB => { aw := some .cmdBits, w := some (c.cmdbuf.getD c.progress 0) }
  | .validDat => { aw := some .cmdValid }
  | .validWriteB => { aw := some .cmdValid, w := some 1 }
  | .recheckReadyDat => { ar := some .cmdReady }
  | _ => {}

/-- The access that the command machine completes in a tick. -/
def CommandTransaction.accesses (i : In) (c : CommandTransaction) : List Event :=
  match c.state with
  | .bitsWriteB => if i.bValid then [.write .cmdBits (c.cmdbuf.getD c.progress 0)] else []
  | .validWriteB => if i.bValid then [.write .cmdValid 1] else []
  | .recheckReadyDat => if i.rValid then [.read .cmdReady i.rData] else []
  | _ => []

/-- The open handshakes of the response machine. -/
def ResponseTransaction.latched (c : ResponseTransaction) : Bus :=
  match c.state with
  | .bitsRead => { ar := some .respBits }
  | .readyWrite => { aw := some .respReady }
  | .readyWriteB => { aw := some .respReady, w := some 1 }
  | .recheckValidRead => { ar := some .respValid }
  | _ => {}

/-- The access that the response machine completes in a tick. In `RESPT_READY_WRITE` the write is
complete only if the data is accepted in the same tick as the response. -/
def ResponseTransaction.accesses (i : In) (c : ResponseTransaction) : List Event :=
  match c.state with
  | .bitsRead => if i.rValid then [.read .respBits i.rData] else []
  | .readyWrite => if i.bValid && i.wReady then [.write .respReady 1] else []
  | .readyWriteB => if i.bValid then [.write .respReady 1] else []
  | .recheckValidRead => if i.rValid then [.read .respValid i.rData] else []
  | _ => []

/-- The open handshakes of the update machine. -/
def UpdateState.latched : UpdateState → Bus
  | .cmdWait => { ar := some .cmdReady }
  | .respWait => { ar := some .respValid }
  | _ => {}

/-- The access that the update machine completes in a tick. -/
def UpdateState.accesses (i : In) : UpdateState → List Event
  | .cmdWait => if i.rValid then [.read .cmdReady i.rData] else []
  | .respWait => if i.rValid then [.read .respValid i.rData] else []
  | _ => []

/-- The open handshakes of the machine that is active. -/
def AXIControlIntf.latched (c : AXIControlIntf) : Bus :=
  if c.cmd.state ≠ .inactive then c.cmd.latched
  else if c.rsp.state ≠ .inactive then c.rsp.latched
  else c.update.latched

/-- What the monitor records of a tick of the machine that is active. -/
def AXIControlIntf.accesses (i : In) (c : AXIControlIntf) : List Event :=
  if c.cmd.state ≠ .inactive then c.cmd.accesses i
  else if c.rsp.state ≠ .inactive then
    c.rsp.accesses i ++ (c.rsp.step i).2.2.toList.map Event.registerReponse
  else c.update.accesses i

/-! ### What the monitor sees -/

/-- The monitor with `b` open sees the accesses `l` of a machine that drives `o`, and has `b'` open
afterwards. -/
structure Bus.Sees (b : Bus) (o : Out) (i : In) (l : List Event) (b' : Bus) : Prop where
  bus : b.observe o i = b'
  events : b.written o i ++ b.readOut o i = l

namespace Bus

variable {i : In} {b : Bus} {r : Reg} {v : ℕ}

theorem sees_nothing : b.Sees {} i [] b := by
  constructor <;> simp [observe, latch, written, readOut]

theorem sees_aw :
    b.Sees { aw := some r } i [] (if i.awReady then { b with aw := some r } else b) := by
  constructor
  · cases hready : i.awReady <;> simp [observe, latch, hready]
  · simp [written, readOut]

theorem sees_w : b.Sees { w := some v } i [] (if i.wReady then { b with w := some v } else b) := by
  constructor
  · cases hready : i.wReady <;> simp [observe, latch, hready]
  · simp [written, readOut]

theorem sees_ar :
    b.Sees { ar := some r } i [] (if i.arReady then { b with ar := some r } else b) := by
  constructor
  · cases hready : i.arReady <;> simp [observe, latch, hready]
  · simp [written, readOut]

theorem sees_bReady : Sees ⟨some r, some v, none⟩ { bReady := true } i
    (if i.bValid then [.write r v] else []) (if i.bValid then {} else ⟨some r, some v, none⟩) := by
  cases hvalid : i.bValid <;> constructor <;> simp [observe, latch, written, readOut, hvalid]

theorem sees_rReady : Sees ⟨none, none, some r⟩ { rReady := true } i
    (if i.rValid then [.read r i.rData] else [])
    (if i.rValid then {} else ⟨none, none, some r⟩) := by
  cases hvalid : i.rValid <;> constructor <;> simp [observe, latch, written, readOut, hvalid]

theorem sees_w_bReady : Sees ⟨some r, none, none⟩ { w := some v, bReady := true } i
    (if i.bValid && i.wReady then [.write r v] else [])
    (if i.bValid then {} else if i.wReady then ⟨some r, some v, none⟩
      else ⟨some r, none, none⟩) := by
  cases hvalid : i.bValid <;> cases hready : i.wReady <;> constructor <;>
    simp [observe, latch, written, readOut, hvalid, hready]

end Bus

variable {i : In} {s t : State}

theorem CommandTransaction.sees_step (i : In) (c : CommandTransaction) :
    c.latched.Sees (c.step i).2 i (c.accesses i) (c.step i).1.latched := by
  cases hstate : c.state with
  | inactive =>
    simpa [latched, step, accesses, hstate] using Bus.sees_nothing
  | bitsWriteAddr =>
    have h := Bus.sees_aw (i := i) (b := {}) (r := .cmdBits)
    cases hready : i.awReady <;> simpa [latched, step, accesses, hstate, hready] using h
  | bitsWriteDat =>
    have h := Bus.sees_w (i := i) (b := { aw := some .cmdBits }) (v := c.cmdbuf.getD c.progress 0)
    cases hready : i.wReady <;> simpa [latched, step, accesses, hstate, hready] using h
  | bitsWriteB =>
    have h := Bus.sees_bReady (i := i) (r := .cmdBits) (v := c.cmdbuf.getD c.progress 0)
    cases hvalid : i.bValid <;> simpa [latched, step, accesses, hstate, hvalid] using h
  | validAddr =>
    have h := Bus.sees_aw (i := i) (b := {}) (r := .cmdValid)
    cases hready : i.awReady <;> simpa [latched, step, accesses, hstate, hready] using h
  | validDat =>
    have h := Bus.sees_w (i := i) (b := { aw := some .cmdValid }) (v := 1)
    cases hready : i.wReady <;> simpa [latched, step, accesses, hstate, hready] using h
  | validWriteB =>
    have h := Bus.sees_bReady (i := i) (r := .cmdValid) (v := 1)
    cases hvalid : i.bValid
    · simpa [latched, step, accesses, hstate, hvalid] using h
    · by_cases hlast : c.progress + 1 = cmdPayloadLength <;>
        simpa [latched, step, accesses, hstate, hvalid, hlast] using h
  | recheckReadyAddr =>
    have h := Bus.sees_ar (i := i) (b := {}) (r := .cmdReady)
    cases hready : i.arReady <;> simpa [latched, step, accesses, hstate, hready] using h
  | recheckReadyDat =>
    have h := Bus.sees_rReady (i := i) (r := .cmdReady)
    cases hvalid : i.rValid
    · simpa [latched, step, accesses, hstate, hvalid] using h
    · by_cases hdata : i.rData = 0 <;>
        simpa [latched, step, accesses, hstate, hvalid, hdata] using h

theorem ResponseTransaction.latched_finishWrite (c : ResponseTransaction) :
    (c.finishWrite i).1.latched = if i.bValid then {} else c.latched := by
  rw [finishWrite]
  split_ifs <;> rfl

theorem ResponseTransaction.sees_step (i : In) (c : ResponseTransaction) :
    c.latched.Sees (c.step i).2.1 i (c.accesses i) (c.step i).1.latched := by
  cases hstate : c.state with
  | inactive =>
    simpa [latched, step, accesses, hstate] using Bus.sees_nothing
  | bitsAddr =>
    have h := Bus.sees_ar (i := i) (b := {}) (r := .respBits)
    cases hready : i.arReady <;> simpa [latched, step, accesses, hstate, hready] using h
  | bitsRead =>
    have h := Bus.sees_rReady (i := i) (r := .respBits)
    cases hvalid : i.rValid <;> simpa [latched, step, accesses, hstate, hvalid] using h
  | readyAddr =>
    have h := Bus.sees_aw (i := i) (b := {}) (r := .respReady)
    cases hready : i.awReady <;> simpa [latched, step, accesses, hstate, hready] using h
  | readyWrite =>
    have h := Bus.sees_w_bReady (i := i) (r := .respReady) (v := 1)
    simp only [step, accesses, hstate, latched_finishWrite]
    cases hready : i.wReady <;> simpa [latched, hstate, hready] using h
  | readyWriteB =>
    have h := Bus.sees_bReady (i := i) (r := .respReady) (v := 1)
    simp only [step, accesses, hstate, latched_finishWrite]
    simpa [latched, hstate] using h
  | recheckValidAddr =>
    have h := Bus.sees_ar (i := i) (b := {}) (r := .respValid)
    cases hready : i.arReady <;> simpa [latched, step, accesses, hstate, hready] using h
  | recheckValidRead =>
    have h := Bus.sees_rReady (i := i) (r := .respValid)
    cases hvalid : i.rValid
    · simpa [latched, step, accesses, hstate, hvalid] using h
    · by_cases hdata : i.rData = 0 <;>
        simpa [latched, step, accesses, hstate, hvalid, hdata] using h

/-- The update machine: its poll of `RESP_VALID` may start the response machine, which has no
handshake open then. -/
theorem AXIControlIntf.sees_updateUpdateState {c : AXIControlIntf}
    (hcmd : c.cmd.state = .inactive) (hrsp : c.rsp.state = .inactive) (hactive : ¬ c.update.Idle) :
    c.update.latched.Sees (c.updateUpdateState i).2 i (c.update.accesses i)
      (c.updateUpdateState i).1.latched := by
  cases hu : c.update with
  | idleCmd => exact absurd (.inl hu) hactive
  | idleResp => exact absurd (.inr hu) hactive
  | cmdAddr =>
    have h := Bus.sees_ar (i := i) (b := {}) (r := .cmdReady)
    cases hready : i.arReady <;>
      simpa [latched, updateUpdateState, UpdateState.latched, UpdateState.accesses, hu, hcmd, hrsp,
        hready] using h
  | respAddr =>
    have h := Bus.sees_ar (i := i) (b := {}) (r := .respValid)
    cases hready : i.arReady <;>
      simpa [latched, updateUpdateState, UpdateState.latched, UpdateState.accesses, hu, hcmd, hrsp,
        hready] using h
  | cmdWait =>
    have h := Bus.sees_rReady (i := i) (r := .cmdReady)
    cases hvalid : i.rValid
    · simpa [latched, updateUpdateState, UpdateState.latched, UpdateState.accesses, hu, hcmd, hrsp,
        hvalid] using h
    · by_cases hwaiting : 0 < c.cmdsInflight <;>
        simpa [latched, updateUpdateState, UpdateState.latched, UpdateState.accesses, hu, hcmd,
          hrsp, hvalid, hwaiting] using h
  | respWait =>
    have h := Bus.sees_rReady (i := i) (r := .respValid)
    cases hvalid : i.rValid
    · simpa [latched, updateUpdateState, UpdateState.latched, UpdateState.accesses, hu, hcmd, hrsp,
        hvalid] using h
    · by_cases hdata : i.rData = 0 <;>
        simpa [latched, updateUpdateState, UpdateState.latched, UpdateState.accesses,
          ResponseTransaction.latched, hu, hcmd, hrsp, hvalid, hdata] using h

/-! ### Every tick -/

theorem UpdateState.latched_of_noPoll {c : AXIControlIntf} (h : c.NoPoll) :
    c.update.latched = {} := by
  cases hu : c.update with
  | cmdWait => exact absurd hu h.1
  | respWait => exact absurd hu h.2
  | _ => rfl

theorem AXIControlIntf.latched_of_cmd {c : AXIControlIntf} (hrsp : c.rsp.state = .inactive)
    (h : c.NoPoll) : c.latched = c.cmd.latched := by
  by_cases hcmd : c.cmd.state = .inactive
  · simp [latched, CommandTransaction.latched, hcmd, hrsp, UpdateState.latched_of_noPoll h]
  · simp [latched, hcmd]

theorem AXIControlIntf.latched_of_rsp {c : AXIControlIntf} (hcmd : c.cmd.state = .inactive)
    (h : c.NoPoll) : c.latched = c.rsp.latched := by
  by_cases hrsp : c.rsp.state = .inactive
  · simp [latched, ResponseTransaction.latched, hcmd, hrsp, UpdateState.latched_of_noPoll h]
  · simp [latched, hcmd, hrsp]

/-- The machine that is active determines the open handshakes. -/
def Latched (s : State) : Prop := s.bus = s.ctl.latched

theorem Observed.of_sees {o : Out} {l : List Event} {called : List (List ℕ)} {b : Bus}
    (h : Observed s i called t) (hbus : Latched s) (hwires : t.drives.wires = o)
    (hsees : s.ctl.latched.Sees o i l b) (hlatched : t.ctl.latched = b) :
    Latched t ∧ t.trace = s.trace ++ (l ++ called.map Event.registerReponse) := by
  refine ⟨?_, ?_⟩
  · rw [Latched, h.bus, hwires, hbus, hsees.bus, hlatched]
  · rw [h.trace, hwires, hbus, hsees.events]

theorem AXIControlIntf.AtRest.latched {c : AXIControlIntf} (h : c.AtRest) : c.latched = {} := by
  obtain ⟨hcmd, hrsp, hu | hu⟩ := h <;>
    simp [AXIControlIntf.latched, UpdateState.latched, hcmd, hrsp, hu]

theorem AXIControlIntf.AtRest.accesses {c : AXIControlIntf} (h : c.AtRest) :
    c.accesses i = [] := by
  obtain ⟨hcmd, hrsp, hu | hu⟩ := h <;>
    simp [AXIControlIntf.accesses, UpdateState.accesses, hcmd, hrsp, hu]

/-- **What the monitor records in a tick.** -/
theorem TickCase.observed (h : TickCase s i t) (hex : Exclusive s.ctl) (hbus : Latched s) :
    Latched t ∧ t.trace = s.trace ++ s.ctl.accesses i := by
  cases h with
  | command hactive hcmd hrsp hpoll _ _ hdrives hseen =>
    have hbefore : s.ctl.latched = s.ctl.cmd.latched := if_pos hactive
    have hafter : t.ctl.latched = t.ctl.cmd.latched :=
      AXIControlIntf.latched_of_cmd (hrsp ▸ (hex.cmd hactive).1) hpoll
    have hwires : t.drives.wires = (s.ctl.cmd.step i).2 := by
      simp only [hdrives, Drives.wires, Out.merge_empty]
    have hsees := CommandTransaction.sees_step i s.ctl.cmd
    rw [← hbefore, ← hcmd, ← hafter] at hsees
    have hrun := hseen.of_sees hbus hwires hsees rfl
    rwa [List.map_nil, List.append_nil, ← (if_pos hactive : s.ctl.accesses i = _)] at hrun
  | response hactive hcmd hrsp hpoll _ _ hdrives hseen =>
    have hinactive := (hex.rsp hactive).1
    have hbefore : s.ctl.latched = s.ctl.rsp.latched := by
      rw [AXIControlIntf.latched, if_neg (not_not_intro hinactive), if_pos hactive]
    have hafter : t.ctl.latched = t.ctl.rsp.latched :=
      AXIControlIntf.latched_of_rsp (hcmd ▸ hinactive) hpoll
    have hwires : t.drives.wires = (s.ctl.rsp.step i).2.1 := by
      simp only [hdrives, Drives.wires, Out.merge_empty, Out.empty_merge]
    have hsees := ResponseTransaction.sees_step i s.ctl.rsp
    rw [← hbefore, ← hrsp, ← hafter] at hsees
    have hrun := hseen.of_sees hbus hwires hsees rfl
    rwa [AXIControlIntf.accesses, if_neg (not_not_intro hinactive), if_pos hactive]
  | poll hactive hctl _ _ hdrives hseen =>
    obtain ⟨hcmd, hrsp, -⟩ := hex.update hactive
    have hbefore : s.ctl.latched = s.ctl.update.latched := by
      rw [AXIControlIntf.latched, if_neg (not_not_intro hcmd), if_neg (not_not_intro hrsp)]
    have hwires : t.drives.wires = (s.ctl.updateUpdateState i).2 := by
      simp only [hdrives, Drives.wires, Out.empty_merge]
    have hsees := AXIControlIntf.sees_updateUpdateState (i := i) hcmd hrsp hactive
    rw [← hbefore, ← hctl] at hsees
    have hrun := hseen.of_sees hbus hwires hsees rfl
    rw [List.map_nil, List.append_nil] at hrun
    rwa [AXIControlIntf.accesses, if_neg (not_not_intro hcmd), if_neg (not_not_intro hrsp)]
  | start hatRest _ _ _ _ hcmd hrsp hpoll hdrives hseen =>
    have hafter : t.ctl.latched = {} := by
      rw [AXIControlIntf.latched_of_cmd (hrsp ▸ hatRest.2.1) hpoll, hcmd]
      rfl
    have hwires : t.drives.wires = {} := by simp only [hdrives, Drives.wires, Out.merge_empty]
    have hrun := hseen.of_sees hbus hwires Bus.sees_nothing (hafter.trans hatRest.latched.symm)
    rwa [hatRest.accesses]
  | rest hatRest hcmd hrsp hpoll _ _ hdrives hseen =>
    have hafter : t.ctl.latched = {} := by
      rw [AXIControlIntf.latched_of_cmd (hrsp ▸ hatRest.2.1) hpoll, hcmd]
      simp [CommandTransaction.latched, hatRest.1]
    have hwires : t.drives.wires = {} := by simp only [hdrives, Drives.wires, Out.merge_empty]
    have hrun := hseen.of_sees hbus hwires Bus.sees_nothing (hafter.trans hatRest.latched.symm)
    rwa [hatRest.accesses]

theorem Latched.of_reaches (h : control.Reaches System.anyStep s) : Latched s := by
  refine h.invariant_of (I := Latched) (fun _ => Exclusive.of_reaches) ?_ ?_
  · rfl
  · intro s a t hex hbus _ ht
    cases a with
    | tick i => exact ((hex.tick ht).2.observed hex hbus).1
    | push cmd =>
      obtain rfl := Option.some.inj ht
      exact hbus

/-! ### Accesses by a program -/

/-- The programs of the FPGA path. -/
abbrev Mmio := AccessProgram Event ℕ

/-- `peek_mmio`. -/
def peekMmio (r : Reg) : Mmio ℕ := .read (.read r)

/-- `poke_mmio`. -/
def pokeMmio (r : Reg) (v : ℕ) : Mmio Unit := .access (.write r v)

/-- `while (!peek_mmio(r)) {}`, and the value read last. -/
def peekUntil (r : Reg) : Mmio ℕ := .readUntil (.read r) (· != 0)

end Beethoven.Control
