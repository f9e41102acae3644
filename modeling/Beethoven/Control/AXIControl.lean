import Beethoven.Command.Rocc
import Beethoven.Lib.TransitionSystem

/-!
# The simulated control bus

A model of `AXIControlIntf` in `state_machine.h`, which plays the host side of the control bus in
simulation: three state machines, run one after the other in every tick, that send the commands of
the queue `cmds` (`update_command_state`), collect responses (`update_resp_state`), and poll the
device for readiness and for responses (`update_update_state`). They share the bus through the flag
`bus_occupied`.

A tick reads the inputs that the device drives (`In`) and drives the bus (`Out`); what each machine
drives is kept apart in `Drives`. The fields under *History* are not part of the program. The bus
monitor (`Bus`) sees the wires only: it records the addresses and the data of the handshakes, and
the accesses that are complete. A read is complete at its R handshake, a write at its B handshake if
its AW and W handshakes came before.

The command server may push commands between any two ticks. A tick is undefined where the program
exits: when `pack` refuses the command that it pops.
-/

namespace Beethoven.Control

open Command

/-! ### The bus -/

/-- The registers of the device. -/
inductive Reg where
  | cmdBits | cmdValid | cmdReady | respBits | respValid | respReady
  deriving DecidableEq, Repr

/-- What the device drives in a tick. -/
structure In where
  awReady : Bool
  wReady : Bool
  bValid : Bool
  arReady : Bool
  rValid : Bool
  rData : ℕ

/-- What is driven in a tick: an address or data if the valid signal is high, and the ready
signals. -/
structure Out where
  aw : Option Reg := none
  w : Option ℕ := none
  ar : Option Reg := none
  bReady : Bool := false
  rReady : Bool := false
  deriving DecidableEq, Repr

/-- A later machine of the tick overrides what an earlier one drives. -/
def Out.merge (first second : Out) : Out where
  aw := second.aw.or first.aw
  w := second.w.or first.w
  ar := second.ar.or first.ar
  bReady := first.bReady || second.bReady
  rReady := first.rReady || second.rReady

/-- The completed accesses, and the calls of `register_reponse`. -/
inductive Event where
  | read (r : Reg) (v : ℕ)
  | write (r : Reg) (v : ℕ)
  | registerReponse (buffer : List ℕ)
  deriving DecidableEq, Repr

/-- The handshakes of accesses that are not complete. -/
structure Bus where
  aw : Option Reg := none
  w : Option ℕ := none
  ar : Option Reg := none
  deriving DecidableEq, Repr

namespace Bus

variable (b : Bus) (o : Out) (i : In)

/-- The handshakes on the address channels and on the W channel. -/
def latch : Bus where
  aw := if i.awReady then o.aw.or b.aw else b.aw
  w := if i.wReady then o.w.or b.w else b.w
  ar := if i.arReady then o.ar.or b.ar else b.ar

/-- The write that a B handshake completes. -/
def written : List Event :=
  match o.bReady && i.bValid, (b.latch o i).aw, (b.latch o i).w with
  | true, some r, some v => [.write r v]
  | _, _, _ => []

/-- The read that an R handshake completes. -/
def readOut : List Event :=
  match o.rReady && i.rValid, (b.latch o i).ar with
  | true, some r => [.read r i.rData]
  | _, _ => []

/-- The handshakes that are still open after the tick. -/
def observe : Bus where
  aw := if o.bReady && i.bValid then none else (b.latch o i).aw
  w := if o.bReady && i.bValid then none else (b.latch o i).w
  ar := if o.rReady && i.rValid then none else (b.latch o i).ar

end Bus

/-! ### The machines -/

/-- `cmd_transfer_state`. -/
inductive CmdTransferState where
  | inactive | bitsWriteAddr | bitsWriteDat | bitsWriteB | validAddr | validDat | validWriteB
  | recheckReadyAddr | recheckReadyDat
  deriving DecidableEq, Repr

/-- `resp_transfer_state`. -/
inductive RespTransferState where
  | inactive | bitsAddr | bitsRead | readyAddr | readyWrite | readyWriteB | recheckValidAddr
  | recheckValidRead
  deriving DecidableEq, Repr

/-- `update_state`. -/
inductive UpdateState where
  | idleResp | idleCmd | cmdAddr | cmdWait | respAddr | respWait
  deriving DecidableEq, Repr

def UpdateState.Idle (u : UpdateState) : Prop := u = .idleCmd ∨ u = .idleResp

instance (u : UpdateState) : Decidable u.Idle := inferInstanceAs (Decidable (_ ∨ _))

/-- `command_transaction`. -/
structure CommandTransaction where
  cmdbuf : List ℕ := [0, 0, 0, 0, 0]
  progress : ℕ := 0
  state : CmdTransferState := .inactive
  readyForCommand : Bool := false
  deriving DecidableEq, Repr

/-- `payload_length` of a command. -/
def cmdPayloadLength : ℕ := 5

/-- `response_transaction`. -/
structure ResponseTransaction where
  resbuf : List ℕ := [0, 0, 0]
  progress : ℕ := 0
  state : RespTransferState := .inactive
  deriving DecidableEq, Repr

/-- `payload_length` of a response. -/
def respPayloadLength : ℕ := 3

/-- The command machine outside of `CMD_INACTIVE`. -/
def CommandTransaction.step (i : In) (c : CommandTransaction) : CommandTransaction × Out :=
  match c.state with
  | .inactive => (c, {})
  | .bitsWriteAddr =>
    ({ c with
        readyForCommand := false
        state := if i.awReady then .bitsWriteDat else .bitsWriteAddr },
      { aw := some .cmdBits })
  | .bitsWriteDat =>
    ({ c with state := if i.wReady then .bitsWriteB else .bitsWriteDat },
      { w := some (c.cmdbuf.getD c.progress 0) })
  | .bitsWriteB =>
    ({ c with state := if i.bValid then .validAddr else .bitsWriteB }, { bReady := true })
  | .validAddr =>
    ({ c with state := if i.awReady then .validDat else .validAddr }, { aw := some .cmdValid })
  | .validDat => ({ c with state := if i.wReady then .validWriteB else .validDat }, { w := some 1 })
  | .validWriteB =>
    (if i.bValid then
        { c with
          progress := c.progress + 1
          state := if c.progress + 1 = cmdPayloadLength then .inactive else .recheckReadyAddr }
      else c,
      { bReady := true })
  | .recheckReadyAddr =>
    ({ c with state := if i.arReady then .recheckReadyDat else .recheckReadyAddr },
      { ar := some .cmdReady })
  | .recheckReadyDat =>
    (if i.rValid then
        { c with state := if i.rData ≠ 0 then .bitsWriteAddr else .recheckReadyAddr }
      else c,
      { rReady := true })

/-- The end of a write to `RESP_READY`, at which the last of the three words registers the response:
the transaction afterwards and the buffer registered. -/
def ResponseTransaction.finishWrite (i : In) (c : ResponseTransaction) :
    ResponseTransaction × Option (List ℕ) :=
  if i.bValid then
    if c.progress = respPayloadLength then ({ c with state := .inactive }, some c.resbuf)
    else ({ c with state := .recheckValidAddr }, none)
  else (c, none)

/-- The response machine: the transaction afterwards, what it drives and the buffer with which it
calls `register_reponse`. The case of `RESPT_READY_WRITE` falls through into the next one. -/
def ResponseTransaction.step (i : In) (c : ResponseTransaction) :
    ResponseTransaction × Out × Option (List ℕ) :=
  match c.state with
  | .inactive => (c, {}, none)
  | .bitsAddr =>
    ({ c with state := if i.arReady then .bitsRead else .bitsAddr }, { ar := some .respBits }, none)
  | .bitsRead =>
    (if i.rValid then
        { resbuf := c.resbuf.set c.progress i.rData
          progress := c.progress + 1
          state := .readyAddr }
      else c,
      { rReady := true }, none)
  | .readyAddr =>
    ({ c with state := if i.awReady then .readyWrite else .readyAddr }, { aw := some .respReady },
      none)
  | .readyWrite =>
    let r := ResponseTransaction.finishWrite i
      { c with state := if i.wReady then .readyWriteB else .readyWrite }
    (r.1, { w := some 1, bReady := true }, r.2)
  | .readyWriteB =>
    let r := c.finishWrite i
    (r.1, { bReady := true }, r.2)
  | .recheckValidAddr =>
    ({ c with state := if i.arReady then .recheckValidRead else .recheckValidAddr },
      { ar := some .respValid }, none)
  | .recheckValidRead =>
    (if i.rValid then
        { c with state := if i.rData ≠ 0 then .bitsAddr else .recheckValidAddr }
      else c,
      { rReady := true }, none)

/-- The members of `AXIControlIntf`, with the globals `cmds_inflight` and `kill_sig`. -/
structure AXIControlIntf where
  cmd : CommandTransaction := {}
  rsp : ResponseTransaction := {}
  update : UpdateState := .idleCmd
  checkFreqCtr : ℕ := 0
  busOccupied : Bool := false
  cmdsInflight : ℤ := 0
  killSig : Bool := false
  deriving DecidableEq, Repr

def checkFreq : ℕ := 50

/-- `ROCC_OP_FLUSH`. -/
def roccOpFlush : UInt8 := 0xb

namespace AXIControlIntf

variable (i : In) (s : AXIControlIntf)

/-- The packed words of a command, if `pack` accepts it. -/
def startCommand (cmd : RoccCmd) : Option AXIControlIntf :=
  (cmd.pack 255).map fun words => { s with
    busOccupied := true
    cmd := { s.cmd with state := .bitsWriteAddr, cmdbuf := words, progress := 0 }
    killSig := cmd.opcode == roccOpFlush
    cmdsInflight := if cmd.xd = 1 then s.cmdsInflight + 1 else s.cmdsInflight }

/-- `update_command_state`: the members afterwards, what the machine drives and the command that it
pops off the queue. -/
def updateCommandState (cmds : List RoccCmd) : Option (AXIControlIntf × Out × Option RoccCmd) :=
  if s.cmd.state = .inactive then
    if s.cmd.readyForCommand && !s.busOccupied && decide s.update.Idle then
      match cmds with
      | [] => some (s, {}, none)
      | cmd :: _ => (s.startCommand cmd).map fun s => (s, {}, some cmd)
    else some (s, {}, none)
  else
    let r := s.cmd.step i
    some ({ s with
        cmd := r.1
        busOccupied := if r.1.state = .inactive then false else s.busOccupied },
      r.2, none)

/-- `update_resp_state`. -/
def updateRespState : AXIControlIntf × Out × Option (List ℕ) :=
  let r := s.rsp.step i
  ({ s with
      rsp := r.1
      busOccupied := if r.2.2.isSome then false else s.busOccupied
      cmdsInflight := if r.2.2.isSome then s.cmdsInflight - 1 else s.cmdsInflight },
    r.2.1, r.2.2)

/-- The two idle states of the update machine start a poll of the device from time to time. -/
def pollOrWait (next : UpdateState) : AXIControlIntf :=
  if !s.busOccupied && decide (checkFreq < s.checkFreqCtr) then
    { s with checkFreqCtr := 0, busOccupied := true, update := next }
  else { s with checkFreqCtr := s.checkFreqCtr + 1 }

@[simp]
theorem cmd_pollOrWait (next : UpdateState) : (s.pollOrWait next).cmd = s.cmd := by
  rw [pollOrWait]
  split_ifs <;> rfl

@[simp]
theorem rsp_pollOrWait (next : UpdateState) : (s.pollOrWait next).rsp = s.rsp := by
  rw [pollOrWait]
  split_ifs <;> rfl

/-- `update_update_state`. -/
def updateUpdateState : AXIControlIntf × Out :=
  match s.update with
  | .idleResp => (s.pollOrWait .respAddr, {})
  | .idleCmd => (s.pollOrWait .cmdAddr, {})
  | .respAddr =>
    ({ s with update := if i.arReady then .respWait else .respAddr }, { ar := some .respValid })
  | .respWait =>
    (if i.rValid then
        { s with
          rsp := { s.rsp with
            progress := 0
            state := if i.rData ≠ 0 then .bitsAddr else s.rsp.state }
          busOccupied := if i.rData ≠ 0 then s.busOccupied else false
          update := .idleCmd }
      else s,
      { rReady := true })
  | .cmdAddr =>
    ({ s with update := if i.arReady then .cmdWait else .cmdAddr }, { ar := some .cmdReady })
  | .cmdWait =>
    -- the flag is cleared whether or not the read has completed
    (if i.rValid then
        { s with
          cmd := { s.cmd with readyForCommand := i.rData ≠ 0 }
          update := if 0 < s.cmdsInflight then .idleResp else .idleCmd
          busOccupied := false }
      else { s with busOccupied := false },
      { rReady := true })

end AXIControlIntf

/-- What each machine drives in a tick. -/
structure Drives where
  cmd : Out := {}
  rsp : Out := {}
  update : Out := {}
  deriving DecidableEq, Repr

/-- The wires of the bus. -/
def Drives.wires (d : Drives) : Out := (d.cmd.merge d.rsp).merge d.update

structure State where
  ctl : AXIControlIntf := {}
  /-- The queue `cmds`. -/
  cmds : List RoccCmd := []
  /-- History: the commands pushed and those popped. -/
  arrived : List RoccCmd := []
  popped : List RoccCmd := []
  /-- History: what was driven in the last tick. -/
  drives : Drives := {}
  /-- History: the bus monitor and what it has seen. -/
  bus : Bus := {}
  trace : List Event := []

namespace State

variable (s : State)

/-- `tick`. -/
def tick (i : In) : Option State :=
  (s.ctl.updateCommandState i s.cmds).map fun c =>
    let r := c.1.updateRespState i
    let u := r.1.updateUpdateState i
    let drives : Drives := ⟨c.2.1, r.2.1, u.2⟩
    { s with
      ctl := u.1
      cmds := if c.2.2.isSome then s.cmds.tail else s.cmds
      popped := s.popped ++ c.2.2.toList
      drives
      bus := s.bus.observe drives.wires i
      trace := s.trace ++ (s.bus.written drives.wires i ++ s.bus.readOut drives.wires i ++
        (r.2.2.map Event.registerReponse).toList) }

/-- The command server pushes a command. -/
def push (cmd : RoccCmd) : State :=
  { s with cmds := s.cmds ++ [cmd], arrived := s.arrived ++ [cmd] }

end State

inductive Action where
  | tick (i : In)
  | push (cmd : RoccCmd)

def step (s : State) : Action → Option State
  | .tick i => s.tick i
  | .push cmd => some (s.push cmd)

/-- The control bus and the command server. -/
def control : Lib.System State Action := ⟨{}, step⟩

end Beethoven.Control
