import Beethoven.Dram.ChannelState

/-!
# The command queues

`CommandQueue` of `command_queue.cc`: the reads and writes that wait in one queue per bank or per
rank. The queues take turns, and in a queue the first command for which something can be done is
served: a row is closed only when no command before it needs the bank and no hit on the open row
waits (or there were enough of them), and a write waits for the reads of its place before it. While
a refresh waits, the queues that it concerns are skipped.

The statistics are left out. The index of a queue is an integer, as the source computes it; an index
past the last queue ends the simulation.
-/

namespace Beethoven.Dram

open Lib (Ensures Returns)

/-- `CommandQueue`: the queues, the ranks for which nothing was added yet, the queues that wait for
the refresh at hand, and the queue whose turn it was last. -/
structure CommandQueue where
  queues : ℤ → List Command
  rankQEmpty : ℤ → Bool
  refQIndices : List ℤ
  isInRef : Bool
  queueIdx : ℕ
  clk : ℕ

namespace Config

variable (c : Config)

/-- `num_queues_`. -/
def numQueues : ℕ :=
  match c.queueStructure with
  | .perBank => c.banks * c.ranks
  | .perRank => c.ranks

/-- `GetQueueIndex`. -/
def getQueueIndex (rank bankgroup bank : ℤ) : ℤ :=
  match c.queueStructure with
  | .perRank => rank
  | .perBank => rank * c.banks + bankgroup * c.banksPerGroup + bank

/-- The index of the queue of a command. -/
def queueOf (addr : Address) : ℤ := c.getQueueIndex addr.rank addr.bankgroup addr.bank

/-- The index is that of a queue. -/
def HasQueue (i : ℤ) : Prop := 0 ≤ i ∧ i < c.numQueues

instance (i : ℤ) : Decidable (c.HasQueue i) := inferInstanceAs (Decidable (_ ∧ _))

end Config

namespace CommandQueue

/-- The empty queues. -/
def init : CommandQueue := ⟨fun _ => [], fun _ => true, [], false, 0, 0⟩

variable (c : Config) (ch : ChannelState) (q : CommandQueue)

/-- `GetQueue`. -/
def getQueue (i : ℤ) : Result (List Command) :=
  if c.HasQueue i then .ok (q.queues i) else .error .outOfRange

/-- `WillAcceptCommand`. -/
def willAcceptCommand (rank bankgroup bank : ℤ) : Result Bool := do
  let queue ← q.getQueue c (c.getQueueIndex rank bankgroup bank)
  return queue.length < c.cmdQueueSize

/-- `QueueEmpty`: all queues are empty. -/
def queueEmpty : Bool := (List.range c.numQueues).all fun i : ℕ => (q.queues i).isEmpty

/-- The result of `AddCommand` is not used. -/
def addCommand (cmd : Command) : Result CommandQueue := do
  let queue ← q.getQueue c (c.queueOf cmd.addr)
  if queue.length < c.cmdQueueSize then
    return { q with
      queues := Function.update q.queues (c.queueOf cmd.addr) (queue ++ [cmd])
      rankQEmpty := Function.update q.rankQEmpty cmd.addr.rank false }
  else return q

/-- Whether two addresses are in the same bank. -/
def sameBank (a b : Address) : Bool :=
  a.rank = b.rank && a.bankgroup = b.bankgroup && a.bank = b.bank

/-- The command `cmd` stands in its queue after `before` and before `after`. -/
def arbitratePrecharge (before : List Command) (cmd : Command) (after : List Command) : Bool :=
  let bank := ch.bankStates cmd.addr.toBank
  let pendingRowHitsExist := (cmd :: after).any fun pending =>
    pending.addr.row = bank.openRow && sameBank pending.addr cmd.addr
  let rowhitLimitReached := decide (4 ≤ bank.rowHitCount)
  if before.any fun prev => sameBank prev.addr cmd.addr then false
  else !pendingRowHitsExist || rowhitLimitReached

/-- A read of the same place stands before the command; the ranks are not compared. -/
def hasRWDependency (before : List Command) (cmd : Command) : Bool :=
  before.any fun prev => prev.cmdType.isRead && prev.addr.row = cmd.addr.row &&
    prev.addr.column = cmd.addr.column && prev.addr.bank = cmd.addr.bank &&
    prev.addr.bankgroup = cmd.addr.bankgroup

/-- The rest of `GetFirstReadyInQueue` after the commands `before`. -/
def getFirstReadyInQueue (clk : ℕ) (before : List Command) :
    List Command → Result (Option Command)
  | [] => .ok none
  | cmd :: after => do
    match ← ch.getReadyCommand c cmd clk with
    | none => getFirstReadyInQueue clk (before ++ [cmd]) after
    | some ready =>
      if ready.cmdType = .precharge then
        if arbitratePrecharge ch before cmd after then return some ready
        else getFirstReadyInQueue clk (before ++ [cmd]) after
      else if ready.cmdType.isWrite then
        if hasRWDependency before cmd then getFirstReadyInQueue clk (before ++ [cmd]) after
        else return some ready
      else return some ready

/-- The entry is of the address and the type of the command. -/
def isSame (cmd entry : Command) : Bool :=
  cmd.hexAddr = entry.hexAddr && cmd.cmdType = entry.cmdType

/-- `EraseRWCommand`: a column command that is issued leaves its queue, where it must be found. -/
def eraseRWCommand (cmd : Command) : Result CommandQueue := do
  let queue ← q.getQueue c (c.queueOf cmd.addr)
  if queue.any (isSame cmd) then
    return { q with
      queues := Function.update q.queues (c.queueOf cmd.addr) (queue.eraseP (isSame cmd)) }
  else .error .cannotFindCmd

/-- `GetNextQueue`. -/
def getNextQueue : CommandQueue :=
  { q with queueIdx := if q.queueIdx + 1 = c.numQueues then 0 else q.queueIdx + 1 }

/-- The loop of `GetCommandToIssue`, with the number of queues that are left. -/
def getCommandLoop : ℕ → CommandQueue → Result (Option Command × CommandQueue)
  | 0, q => .ok (none, q)
  | n + 1, q => do
    let q := q.getNextQueue c
    if q.isInRef && q.refQIndices.contains q.queueIdx then getCommandLoop n q
    else
      match ← getFirstReadyInQueue c ch q.clk [] (q.queues q.queueIdx) with
      | none => getCommandLoop n q
      | some cmd =>
        if cmd.cmdType.isReadWrite then
          let q ← q.eraseRWCommand c cmd
          return (some cmd, q)
        else return (some cmd, q)

/-- `GetCommandToIssue`: the first command for which something can be done, in the order of
turns. -/
def getCommandToIssue : Result (Option Command × CommandQueue) :=
  getCommandLoop c ch c.numQueues q

/-- `GetRefQIndices`. -/
def getRefQIndices (ref : Command) : List ℤ :=
  if ref.cmdType = .refresh then
    match c.queueStructure with
    | .perBank =>
      ((List.range c.numQueues).filter fun i : ℕ => ((i / c.banks : ℕ) : ℤ) = ref.addr.rank).map (↑)
    | .perRank => [ref.addr.rank]
  else [c.queueOf ref.addr]

/-- `FinishRefresh`, for the refresh that waits longest. -/
def finishRefresh (ref : Command) : Result (Option Command × CommandQueue) := do
  let q := if q.isInRef then q
    else { q with refQIndices := q.refQIndices ++ getRefQIndices c ref, isInRef := true }
  let cmd ← ch.getReadyCommand c ref q.clk
  if cmd.any fun cmd => cmd.cmdType.isRefresh then
    return (cmd, { q with refQIndices := [], isInRef := false })
  else return (cmd, q)

end CommandQueue

end Beethoven.Dram
