import Mathlib.Data.List.Basic
import Mathlib.Logic.Function.Basic
import Beethoven.Lib.TransitionSystem
import Beethoven.Command.Rocc

/-!
# The command server and its clients

The shared file `cmd_server_file`, the thread `cmd_server_f`, the function `register_reponse` and
the client calls `send`, `shutdown`, `get` and `try_get`
(`runtime/src/core/cmd_server.cc`, `libbeethoven/src/runtime_ipc.cc`,
`libbeethoven/src/fpga_handle_impl/fpga_handle_discrete.cc`, `libbeethoven/src/response_handle.cc`)
as one transition system. A step is one access to shared memory or one operation on a mutex; what
the source does between two accesses inside a critical section of `free_list_lock` is one step. A
mutex is a binary semaphore: `true` means locked, locking waits for `false`, unlocking sets `false`.

On a simulated platform the server pushes a command to the queue `cmds`, from which the control bus
delivers it; on an FPGA it delivers the command itself, which is the push followed at once by the
delivery. The hardware answers delivered commands in any order and may send responses of its own.

Beside the state of the program a state carries the history of the run: the tickets that number the
`send` calls in the order in which they acquired `cmd_send_lock`, and logs of what happened. No step
depends on the history.
-/

namespace Beethoven.Command

open Lib Function

/-! ### State -/

/-- A command in shared memory or in a queue, with the ticket of the `send` call that wrote it. -/
structure Issued where
  ticket : Option ℕ := none
  cmd : RoccCmd := {}
  deriving DecidableEq, Repr

/-- `cmd_server_file` as `init` leaves it and with `server_mut` locked by the server. -/
structure CmdServerFile where
  serverMut : Bool := true
  cmdSendLock : Bool := false
  cmdRecieveServerRespLock : Bool := true
  waitForResponse : ℕ → Bool := fun _ => true
  responses : ℕ → RoccResponse := fun _ => {}
  freeListLock : Bool := false
  freeList : ℕ → ℕ := fun i => i
  freeListIdx : ℕ := 255
  pthreadWaitId : ℕ := 0
  quit : Bool := false
  cmd : Issued := {}

/-- Where `cmd_server_f` is. -/
inductive ServerPc where
  | lockServerMut
  | readXd
  | lockFreeList
  | popSlot
  | unlockFreeList
  | storeWaitId
  | lockCmdserver
  | testQuit
  | push
  | fileInFlight
  | unlockResp
  | unlockCmdserver
  | stopped
  deriving DecidableEq, Repr

/-- Where `register_reponse` is, with the response it registers and the ticket that the response
answers, if it answers one. -/
inductive PollerPc where
  | idle
  | lock (t : Option ℕ) (r : RoccResponse)
  | find (t : Option ℕ) (r : RoccResponse)
  | write (t : Option ℕ) (r : RoccResponse) (id : ℕ)
  | signal (t : Option ℕ) (r : RoccResponse) (id : ℕ)
  | pop (t : Option ℕ) (r : RoccResponse)
  | unlock
  | reject
  deriving DecidableEq, Repr

/-- The variables of the runtime, the local `id` of `cmd_server_f` among them. A key without a queue
in `in_flight` maps to `none`. -/
structure Runtime where
  cmdserverlock : Bool := false
  mainLock : Bool := true
  inFlight : SystemCorePair → Option (List ℕ) := fun _ => none
  cmds : List Issued := []
  server : ServerPc := .lockServerMut
  serverId : ℕ := 0
  poller : PollerPc := .idle

/-- A `get` or `try_get` in progress: the object it was called on, the ticket and the slot. -/
structure Collection where
  getter : ℕ
  ticket : ℕ
  id : ℕ
  deriving DecidableEq, Repr

/-- Where a client thread is: in `send`, in `shutdown`, or in `get` or `try_get`. -/
inductive ClientPc where
  | idle
  | exited
  | sendLock (c : RoccCmd)
  | sendWrite (t : ℕ) (c : RoccCmd)
  | sendPost (t : ℕ) (c : RoccCmd)
  | sendAwait (t : ℕ) (c : RoccCmd)
  | sendRead (t : ℕ) (c : RoccCmd)
  | sendUnlock (t : ℕ) (c : RoccCmd) (handle : ℕ)
  | sendQuit (t : ℕ) (c : RoccCmd) (handle : ℕ)
  | shutdownLock
  | shutdownPost
  | shutdownQuit
  | shutdownUnlock
  | getWait (k : Collection)
  | getTry (k : Collection)
  | getRead (k : Collection)
  | getLock (k : Collection) (r : RoccResponse)
  | getPush (k : Collection) (r : RoccResponse)
  | getUnlock (k : Collection) (r : RoccResponse)
  deriving DecidableEq, Repr

/-- `response_getter`, with the ticket it stands for, whether a call on it is in progress and
whether it was the source of a copy. -/
structure Getter where
  canWait : Bool
  hasRecieved : Bool := false
  id : ℕ
  ticket : ℕ
  inUse : Bool := false
  isSource : Bool := false
  deriving DecidableEq, Repr

/-- What happened so far. -/
structure History (ι : Type) where
  /-- The `send` calls in the order in which they acquired `cmd_send_lock`. -/
  acquired : List (ι × RoccCmd) := []
  /-- The ids stored in `pthread_wait_id`, with the ticket of the command in shared memory. -/
  served : List (Option ℕ × ℕ) := []
  /-- What the server pushed to the command queue. -/
  pushed : List Issued := []
  /-- The `send` calls that returned: client, ticket and handle. -/
  returned : List (ι × ℕ × ℕ) := []
  /-- The slots that the server popped and no client pushed back, with their tickets. -/
  held : List (Option ℕ × ℕ) := []
  /-- The slot popped for a ticket. -/
  slotOf : Option ℕ → ℕ := fun _ => 0
  /-- The responses that the hardware emitted. -/
  emitted : List (Option ℕ × ResponseBuffer) := []
  /-- The responses that `get` and `try_get` returned. -/
  collected : List (ℕ × RoccResponse) := []
  /-- The tickets whose slot was pushed back on the free list. -/
  pushedBack : List ℕ := []
  /-- The number of `shutdown` calls that returned. -/
  shutdowns : ℕ := 0

/-- The state of the program, of the hardware and of the run. The hardware holds the commands
delivered and not answered (`hw`) and the responses not yet read by the runtime (`chan`). -/
structure State (ι : Type) extends CmdServerFile, Runtime, History ι where
  client : ι → ClientPc := fun _ => .idle
  getters : List Getter := []
  hw : List Issued := []
  chan : List (Option ℕ × ResponseBuffer) := []

/-- The state in which the server waits for its first command. -/
def State.init (ι : Type) : State ι := {}

/-- Locking waits until the mutex is unlocked. -/
def lockThen {α : Type} (locked : Bool) (t : α) : Option α := if locked then none else some t

@[simp]
theorem lockThen_eq_some {α : Type} {locked : Bool} {t u : α} :
    lockThen locked t = some u ↔ locked = false ∧ t = u := by
  cases locked <;> simp [lockThen]

/-- `--` on a `uint16_t`. -/
def decU16 (n : ℕ) : ℕ := if n = 0 then 65535 else n - 1

/-- `++` on a `uint16_t`. -/
def incU16 (n : ℕ) : ℕ := if n = 65535 then 0 else n + 1

variable {ι : Type} [DecidableEq ι]

/-! ### The command server -/

/-- The entry of `free_list` that a pop reads. An index outside the array reads some other 16-bit
value of memory, `stray`. -/
def State.slotAt (s : State ι) (stray : ℕ) : ℕ :=
  if s.freeListIdx < 256 then s.freeList s.freeListIdx else stray % 2 ^ 16

/-- The next step of `cmd_server_f`. -/
def serverStep (stray : ℕ) (s : State ι) : Option (State ι) :=
  match s.server with
  | .lockServerMut => lockThen s.serverMut { s with serverMut := true, server := .readXd }
  | .readXd =>
    if s.cmd.cmd.getXd then some { s with server := .lockFreeList }
    else some { s with serverId := 0xffff, server := .storeWaitId }
  | .lockFreeList => lockThen s.freeListLock { s with freeListLock := true, server := .popSlot }
  | .popSlot =>
    let id := s.slotAt stray
    some { s with
      serverId := id
      freeListIdx := decU16 s.freeListIdx
      held := s.held ++ [(s.cmd.ticket, id)]
      slotOf := update s.slotOf s.cmd.ticket id
      server := .unlockFreeList }
  | .unlockFreeList => some { s with freeListLock := false, server := .storeWaitId }
  | .storeWaitId =>
    some { s with
      pthreadWaitId := s.serverId
      served := s.served ++ [(s.cmd.ticket, s.serverId)]
      server := .lockCmdserver }
  | .lockCmdserver => lockThen s.cmdserverlock { s with cmdserverlock := true, server := .testQuit }
  | .testQuit =>
    -- the server returns with `cmdserverlock` locked
    if s.quit then some { s with mainLock := false, server := .stopped }
    else some { s with server := .push }
  | .push =>
    some { s with
      cmds := s.cmds ++ [s.cmd]
      pushed := s.pushed ++ [s.cmd]
      server := .fileInFlight }
  | .fileInFlight =>
    if s.cmd.cmd.getXd then
      let key := s.cmd.cmd.key
      some { s with
        inFlight := update s.inFlight key
          (some ((s.inFlight key).getD [] ++ [s.serverId]))
        server := .unlockResp }
    else some { s with server := .unlockResp }
  | .unlockResp => some { s with cmdRecieveServerRespLock := false, server := .unlockCmdserver }
  | .unlockCmdserver => some { s with cmdserverlock := false, server := .lockServerMut }
  | .stopped => none

/-! ### Registering responses -/

/-- The next step of the thread that reads responses and calls `register_reponse`. The front of an
empty queue is some other value of memory, `stray`. -/
def pollerStep (info : PackInfo) (stray : ℕ) (s : State ι) : Option (State ι) :=
  match s.poller with
  | .idle =>
    match s.chan with
    | [] => none
    | (t, buffer) :: chan =>
      some { s with chan := chan, poller := .lock t (.ofBuffer info buffer) }
  | .lock t r => lockThen s.cmdserverlock { s with cmdserverlock := true, poller := .find t r }
  | .find t r =>
    match s.inFlight r.key with
    | none => some { s with poller := .reject }
    | some q => some { s with poller := .write t r (q.headD stray) }
  | .write t r id =>
    some { s with responses := update s.responses id r, poller := .signal t r id }
  | .signal t r id =>
    some { s with
      waitForResponse := update s.waitForResponse id false
      poller := .pop t r }
  | .pop _ r =>
    some { s with
      inFlight := update s.inFlight r.key ((s.inFlight r.key).map List.tail)
      poller := .unlock }
  | .unlock => some { s with cmdserverlock := false, poller := .idle }
  | .reject => some { s with cmdserverlock := false, mainLock := false, poller := .idle }

/-! ### Clients -/

/-- The calls of a client. -/
inductive Call where
  | send (c : RoccCmd)
  | shutdown
  | get (o : ℕ)
  | tryGet (o : ℕ)
  | copy (o : ℕ)
  deriving DecidableEq, Repr

/-- An idle client makes a call. The calls on a getter object need that no other call on it is in
progress. `get` throws and `try_get` exits when there is nothing to wait for. -/
def callStep (s : State ι) (i : ι) (call : Call) : Option (State ι) :=
  match s.client i, call with
  | .idle, .send c => some { s with client := update s.client i (.sendLock c) }
  | .idle, .shutdown => some { s with client := update s.client i .shutdownLock }
  | .idle, .get o =>
    (s.getters[o]?).bind fun g =>
      if g.inUse then none
      else if g.canWait && !g.hasRecieved then
        some { s with
          client := update s.client i (.getWait ⟨o, g.ticket, g.id⟩)
          getters := s.getters.set o { g with hasRecieved := true, inUse := true } }
      else some s
  | .idle, .tryGet o =>
    (s.getters[o]?).bind fun g =>
      if g.inUse then none
      else if g.canWait && !g.hasRecieved then
        some { s with
          client := update s.client i (.getTry ⟨o, g.ticket, g.id⟩)
          getters := s.getters.set o { g with inUse := true } }
      else some { s with client := update s.client i .exited }
  | .idle, .copy o =>
    (s.getters[o]?).bind fun g =>
      if g.inUse then none
      else some { s with
        getters := s.getters.set o { g with isSource := true } ++ [{ g with isSource := false }] }
  | _, _ => none

/-- The next step of client `i` inside a call. -/
def clientStep (s : State ι) (i : ι) : Option (State ι) :=
  match s.client i with
  | .idle | .exited => none
  | .sendLock c =>
    lockThen s.cmdSendLock { s with
      client := update s.client i (.sendWrite s.acquired.length c)
      cmdSendLock := true, acquired := s.acquired ++ [(i, c)] }
  | .sendWrite t c => some { s with
      client := update s.client i (.sendPost t c)
      cmd := ⟨some t, c⟩ }
  | .sendPost t c => some { s with
      client := update s.client i (.sendAwait t c)
      serverMut := false }
  | .sendAwait t c =>
    lockThen s.cmdRecieveServerRespLock
      { s with
        client := update s.client i (.sendRead t c)
        cmdRecieveServerRespLock := true }
  | .sendRead t c => some { s with
      client := update s.client i (.sendUnlock t c s.pthreadWaitId) }
  | .sendUnlock t c handle =>
    some { s with
      client := update s.client i (.sendQuit t c handle)
      cmdSendLock := false }
  | .sendQuit t c handle =>
    some { s with
      client := update s.client i .idle
      quit := false
      getters := s.getters ++ [⟨c.getXd, false, handle, t, false, false⟩]
      returned := s.returned ++ [(i, t, handle)] }
  | .shutdownLock =>
    lockThen s.cmdSendLock { s with
      client := update s.client i .shutdownPost
      cmdSendLock := true }
  | .shutdownPost => some { s with
      client := update s.client i .shutdownQuit
      serverMut := false }
  | .shutdownQuit => some { s with
      client := update s.client i .shutdownUnlock
      quit := true }
  | .shutdownUnlock =>
    some { s with
      client := update s.client i .idle
      cmdSendLock := false
      shutdowns := s.shutdowns + 1 }
  | .getWait k =>
    lockThen (s.waitForResponse k.id) { s with
      client := update s.client i (.getRead k)
      waitForResponse := update s.waitForResponse k.id true }
  | .getTry k =>
    if s.waitForResponse k.id then
      some { s with
        client := update s.client i .idle
        getters := s.getters.modify k.getter fun g => { g with inUse := false } }
    else some { s with
      client := update s.client i (.getRead k)
      waitForResponse := update s.waitForResponse k.id true }
  | .getRead k => some { s with
      client := update s.client i (.getLock k (s.responses k.id)) }
  | .getLock k r =>
    lockThen s.freeListLock { s with
      client := update s.client i (.getPush k r)
      freeListLock := true }
  | .getPush k r =>
    -- a write outside the array is not followed further
    let idx := incU16 s.freeListIdx
    some { s with
      client := update s.client i (.getUnlock k r)
      freeListIdx := idx
      freeList := if idx < 256 then update s.freeList idx (k.id % 2 ^ 16) else s.freeList
      held := s.held.erase (some k.ticket, k.id)
      pushedBack := s.pushedBack ++ [k.ticket] }
  | .getUnlock k r =>
    some { s with
      client := update s.client i .idle
      freeListLock := false
      getters := s.getters.modify k.getter fun g => { g with hasRecieved := true, inUse := false }
      collected := s.collected ++ [(k.ticket, r)] }

/-! ### The system -/

/-- The steps of a run, with the choices of the environment. -/
inductive Action (ι : Type) where
  | call (i : ι) (call : Call)
  | client (i : ι)
  | server (stray : ℕ)
  | poller (stray : ℕ)
  | deliver
  | respond (j : ℕ) (buffer : ResponseBuffer)
  | unsolicited (buffer : ResponseBuffer)
  deriving DecidableEq, Repr

/-- One step. The bus delivers the oldest queued command; the hardware answers a delivered command
that expects a response, or sends a response that answers none. -/
def step (info : PackInfo) (s : State ι) : Action ι → Option (State ι)
  | .call i call => callStep s i call
  | .client i => clientStep s i
  | .server stray => serverStep stray s
  | .poller stray => pollerStep info stray s
  | .deliver =>
    match s.cmds with
    | [] => none
    | x :: cmds => some { s with cmds := cmds, hw := s.hw ++ [x] }
  | .respond j buffer =>
    (s.hw[j]?).bind fun x =>
      if x.cmd.getXd then
        some { s with
          hw := s.hw.eraseIdx j
          chan := s.chan ++ [(x.ticket, buffer)]
          emitted := s.emitted ++ [(x.ticket, buffer)] }
      else none
  | .unsolicited buffer =>
    some { s with
      chan := s.chan ++ [(none, buffer)]
      emitted := s.emitted ++ [(none, buffer)] }

/-- The command server with its clients and the hardware. -/
def commandSystem (ι : Type) [DecidableEq ι] (info : PackInfo) : System (State ι) (Action ι) :=
  ⟨State.init ι, step info⟩

end Beethoven.Command
