import Beethoven.Dram.CommandQueue

/-!
# The controller of a channel

`Controller` of `controller.cc`, with `Refresh` of `refresh.cc`. A write is answered at once and
buffered, and a later write to the same address is merged with it; a read is answered from the
write buffer if it can be, and otherwise waits, together with all reads of its address, for one
column read. Transactions move from the transaction queues to the command queues, one in a cycle,
and commands from the command queues to the banks.

The two multimaps of pending transactions are lists in the order of insertion: their keys are the
addresses of the transactions. `capacity()` of a transaction queue is the size that was reserved for
it, since a transaction is added only where `WillAcceptTransaction` allows it. The statistics are
left out. The field under *History* is not part of the program: it records the transactions that
were accepted and the commands that were issued.
-/

namespace Beethoven.Dram

/-! ### Refresh -/

/-- `Refresh`: the counter of cycles, and the rank and bank whose turn is next. -/
structure Refresh where
  clk : ℕ
  nextRank : ℕ
  nextBg : ℕ
  nextBank : ℕ

namespace Refresh

/-- The counters at the start. -/
def init : Refresh := ⟨0, 0, 0, 0⟩

variable (c : Config) (r : Refresh)

/-- `IterateNext`, for the policies that call it. -/
def iterateNext : Refresh :=
  match c.refreshPolicy with
  | .rankLevelSimultaneous => r
  | .rankLevelStaggered => { r with nextRank := (r.nextRank + 1) % c.ranks }
  | .bankLevelStaggered =>
    let nextBg := (r.nextBg + 1) % c.bankgroups
    if nextBg = 0 then
      let nextBank := (r.nextBank + 1) % c.banksPerGroup
      if nextBank = 0 then
        { r with nextBg, nextBank, nextRank := (r.nextRank + 1) % c.ranks }
      else { r with nextBg, nextBank }
    else { r with nextBg }

/-- `InsertRefresh`. With simultaneous refreshes the loop over the ranks ends after the first rank
that is not in self-refresh. -/
def insertRefresh (ch : ChannelState) : ChannelState × Refresh :=
  match c.refreshPolicy with
  | .rankLevelSimultaneous =>
    match (List.range c.ranks).find? fun i : ℕ => !ch.rankIsSref i with
    | none => (ch, r)
    | some i => (ch.rankNeedRefresh i true, r)
  | .rankLevelStaggered =>
    (if ch.rankIsSref r.nextRank then ch else ch.rankNeedRefresh r.nextRank true, r.iterateNext c)
  | .bankLevelStaggered =>
    (if ch.rankIsSref r.nextRank then ch
      else ch.bankNeedRefresh r.nextRank r.nextBg r.nextBank true, r.iterateNext c)

/-- `ClockTick`: a refresh is asked for once in every interval. -/
def clockTick (ch : ChannelState) : Result (ChannelState × Refresh) := do
  if c.refreshInterval = 0 then .error .divisionByZero
  else
    let (ch, r) :=
      if r.clk % c.refreshInterval = 0 ∧ 0 < r.clk then r.insertRefresh c ch else (ch, r)
    return (ch, { r with clk := r.clk + 1 })

end Refresh

/-! ### The controller -/

/-- What happens at a controller: a transaction is accepted, which finds a pending write of its
address or not, or a command is issued in a cycle. -/
inductive Event where
  | accept (addr : ℕ) (isWrite hit : Bool)
  | issue (clk : ℕ) (cmd : Command)

/-- The command that was issued, with its cycle. -/
def Event.command : Event → Option (ℕ × Command)
  | .accept .. => none
  | .issue clk cmd => some (clk, cmd)

/-- `Controller`: its channel, command queues and refresh counters, the transactions that wait to be
scheduled, those that wait for their command and those that are returned later, and how many writes
are still to be drained. -/
structure Controller where
  clk : ℕ
  channelState : ChannelState
  cmdQueue : CommandQueue
  refresh : Refresh
  unifiedQueue : List Transaction
  readQueue : List Transaction
  writeBuffer : List Transaction
  pendingRdQ : List Transaction
  pendingWrQ : List Transaction
  returnQueue : List Transaction
  writeDraining : ℤ
  /-- History: the transactions that were accepted and the commands that were issued. -/
  history : List Event

namespace Controller

/-- The controller at the start. -/
def init : Controller :=
  ⟨0, .init, .init, .init, [], [], [], [], [], [], 0, []⟩

variable (c : Config) (k : Controller)

/-- One more event in the history. -/
def record (e : Event) : Controller := { k with history := k.history ++ [e] }

/-- The commands that were issued, each with its cycle. -/
def issued : List (ℕ × Command) := k.history.filterMap Event.command

@[simp] theorem issued_init : init.issued = [] := rfl

theorem issued_record_accept (addr : ℕ) (isWrite hit : Bool) :
    (k.record (.accept addr isWrite hit)).issued = k.issued := by
  simp [issued, record, Event.command]

theorem issued_record_issue (clk : ℕ) (cmd : Command) :
    (k.record (.issue clk cmd)).issued = k.issued ++ [(clk, cmd)] := by
  simp [issued, record, Event.command]

/-! ### Transactions -/

/-- `WillAcceptTransaction`: there is room in the transaction queue. -/
def willAcceptTransaction (isWrite : Bool) : Bool :=
  if c.unifiedQueue then k.unifiedQueue.length < c.transQueueSize
  else if !isWrite then k.readQueue.length < c.transQueueSize
  else k.writeBuffer.length < c.transQueueSize

/-- The transaction at the end of its transaction queue. -/
def enqueue (trans : Transaction) : Controller :=
  if c.unifiedQueue then { k with unifiedQueue := k.unifiedQueue ++ [trans] }
  else if trans.isWrite then { k with writeBuffer := k.writeBuffer ++ [trans] }
  else { k with readQueue := k.readQueue ++ [trans] }

/-- `AddTransaction`. -/
def addTransaction (addr : ℕ) (isWrite : Bool) : Controller :=
  let trans : Transaction := ⟨addr, k.clk, 0, isWrite⟩
  let done := { trans with completeCycle := k.clk + 1 }
  let hit := decide (0 < k.pendingWrQ.countP (·.addr = addr))
  let taken :=
    if isWrite then
      let k := if k.pendingWrQ.countP (·.addr = addr) = 0 then
          { k with pendingWrQ := k.pendingWrQ ++ [trans] }.enqueue c trans
        else k
      { k with returnQueue := k.returnQueue ++ [done] }
    else if 0 < k.pendingWrQ.countP (·.addr = addr) then
      { k with returnQueue := k.returnQueue ++ [done] }
    else
      let k := { k with pendingRdQ := k.pendingRdQ ++ [trans] }
      if k.pendingRdQ.countP (·.addr = addr) = 1 then k.enqueue c trans else k
  taken.record (.accept addr isWrite hit)

/-- `ReturnDoneTrans`: the first transaction whose cycle has come. -/
def returnDoneTrans (clk : ℕ) : Option Transaction × Controller :=
  match k.returnQueue.find? fun t => decide (t.completeCycle ≤ clk) with
  | none => (none, k)
  | some t =>
    (some t, { k with returnQueue := k.returnQueue.eraseP fun t => decide (t.completeCycle ≤ clk) })

/-- The loop over `ReturnDoneTrans`, at most `fuel` times. -/
def returnLoop (clk : ℕ) : ℕ → Controller → List Transaction × Controller
  | 0, k => ([], k)
  | fuel + 1, k =>
    match k.returnDoneTrans clk with
    | (none, k) => ([], k)
    | (some t, k) =>
      let (done, k) := returnLoop clk fuel k
      (t :: done, k)

/-- All transactions whose cycle has come, which are at most those in the queue. -/
def returnAll (clk : ℕ) : List Transaction × Controller :=
  returnLoop clk (k.returnQueue.length + 1) k

/-! ### Commands -/

/-- `TransToCommand`. -/
def transToCommand (trans : Transaction) : Command :=
  let cmdType : CommandType :=
    match c.rowBufPolicy with
    | .openPage => if trans.isWrite then .write else .read
    | .closePage => if trans.isWrite then .writePrecharge else .readPrecharge
  ⟨cmdType, c.addressMapping trans.addr, trans.addr⟩

/-- The pending transactions after a command. -/
def serve (cmd : Command) : Result Controller :=
  if cmd.cmdType.isRead then
    let (now, later) := k.pendingRdQ.partition (·.addr = cmd.hexAddr)
    if now = [] then .error (.notInReadQueue cmd.hexAddr)
    else
      .ok { k with
        pendingRdQ := later
        returnQueue := k.returnQueue ++
          now.map fun t => { t with completeCycle := k.clk + c.readDelay } }
  else if cmd.cmdType.isWrite then
    if k.pendingWrQ.any (·.addr = cmd.hexAddr) then
      .ok { k with pendingWrQ := k.pendingWrQ.eraseP (·.addr = cmd.hexAddr) }
    else .error (.notInWriteQueue cmd.hexAddr)
  else .ok k

/-- `IssueCommand`. -/
def issueCommand (cmd : Command) : Result Controller := do
  let k ← k.serve c cmd
  let channelState ← k.channelState.updateTimingAndStates c cmd k.clk
  return record { k with channelState } (.issue k.clk cmd)

/-- The transaction queue from which the next transaction is scheduled. -/
def scheduled : List Transaction :=
  if c.unifiedQueue then k.unifiedQueue
  else if 0 < k.writeDraining then k.writeBuffer
  else k.readQueue

/-- The transaction queue from which the next transaction is scheduled, after a change to it. -/
def setScheduled (queue : List Transaction) : Controller :=
  if c.unifiedQueue then { k with unifiedQueue := queue }
  else if 0 < k.writeDraining then { k with writeBuffer := queue }
  else { k with readQueue := queue }

/-- The loop of `ScheduleTransaction` over the rest of the queue after `before`. -/
def scheduleLoop (before : List Transaction) : List Transaction → Result Controller
  | [] => .ok k
  | t :: after => do
    let cmd := transToCommand c t
    if ← k.cmdQueue.willAcceptCommand c cmd.addr.rank cmd.addr.bankgroup cmd.addr.bank then
      if !c.unifiedQueue && cmd.cmdType.isWrite then
        -- a write waits for the reads of its address
        if 0 < k.pendingRdQ.countP (·.addr = t.addr) then
          return { k with writeDraining := 0 }
        else
          let cmdQueue ← k.cmdQueue.addCommand c cmd
          let k := k.setScheduled c (before ++ after)
          return { k with cmdQueue, writeDraining := k.writeDraining - 1 }
      else
        let cmdQueue ← k.cmdQueue.addCommand c cmd
        return { k.setScheduled c (before ++ after) with cmdQueue }
    else scheduleLoop (before ++ [t]) after

/-- The buffered writes are drained when their queue is full, or when more than eight wait and the
command queues are empty. -/
def startDraining : Controller :=
  if k.writeDraining = 0 ∧ c.unifiedQueue = false ∧
      (c.transQueueSize ≤ k.writeBuffer.length ∨
        8 < k.writeBuffer.length ∧ k.cmdQueue.queueEmpty c) then
    { k with writeDraining := k.writeBuffer.length }
  else k

/-- `ScheduleTransaction`. -/
def scheduleTransaction : Result Controller :=
  let k := k.startDraining c
  k.scheduleLoop c [] (k.scheduled c)

/-! ### A cycle -/

/-- `refresh_.ClockTick`. -/
def tickRefresh : Result Controller := do
  let (channelState, refresh) ← k.refresh.clockTick c k.channelState
  return { k with channelState, refresh }

/-- `cmd_queue_.GetCommandToIssue`. -/
def getCommandToIssue : Result (Option Command × Controller) := do
  let (cmd, cmdQueue) ← k.cmdQueue.getCommandToIssue c k.channelState
  return (cmd, { k with cmdQueue })

/-- The command of a cycle: what a waiting refresh needs, or else a command from the queues. -/
def nextCommand : Result (Option Command × Controller) :=
  match k.channelState.refreshQ with
  | [] => k.getCommandToIssue c
  | ref :: _ => do
    let (cmd, cmdQueue) ← k.cmdQueue.finishRefresh c k.channelState ref
    match cmd with
    | some cmd => return (some cmd, { k with cmdQueue })
    | none => getCommandToIssue c { k with cmdQueue }

/-- A second command in the same cycle, for HBM: it is issued if it and the first are not both
column commands and not both other commands. -/
def secondCommand (cmd : Command) : Result Controller := do
  let (second, k) ← k.getCommandToIssue c
  match second with
  | none => return k
  | some second =>
    if second.cmdType.isReadWrite ≠ cmd.cmdType.isReadWrite then k.issueCommand c second
    else return k

/-- The first part of the power updates, for one rank. -/
def countIdle (k : Controller) (i : ℕ) : Controller :=
  let ch := k.channelState
  if ch.rankIsSref i then k
  else
    let idle := if ch.isAllBankIdleInRank c i then ch.rankIdleCycles i + 1 else 0
    { k with channelState :=
        { ch with rankIdleCycles := Function.update ch.rankIdleCycles i idle } }

/-- The second part of the power updates: the loop over the ranks ends at the first command. -/
def selfRefresh (k : Controller) : List ℕ → Result Controller
  | [] => .ok k
  | i :: rest => do
    let addr : Address := ⟨-1, i, -1, -1, -1, -1⟩
    if k.channelState.rankIsSref i then
      if !k.cmdQueue.rankQEmpty i then
        match ← k.channelState.getReadyCommand c ⟨.srefExit, addr, noHexAddr⟩ k.clk with
        | some cmd => k.issueCommand c cmd
        | none => selfRefresh k rest
      else selfRefresh k rest
    else if k.cmdQueue.rankQEmpty i && c.srefThreshold ≤ k.channelState.rankIdleCycles i then
      match ← k.channelState.getReadyCommand c ⟨.srefEnter, addr, noHexAddr⟩ k.clk with
      | some cmd => k.issueCommand c cmd
      | none => selfRefresh k rest
    else selfRefresh k rest

/-- The commands of a cycle. -/
def issueCommands : Result Controller := do
  let (cmd, k) ← k.nextCommand c
  match cmd with
  | some cmd =>
    let k ← k.issueCommand c cmd
    let k ← if c.enableHbmDualCmd then k.secondCommand c cmd else pure k
    return (List.range c.ranks).foldl (countIdle c) k
  | none =>
    let k := (List.range c.ranks).foldl (countIdle c) k
    if c.enableSelfRefresh then k.selfRefresh c (List.range c.ranks) else return k

/-- `ClockTick`. -/
def clockTick : Result Controller := do
  let k ← k.tickRefresh c
  let k ← k.issueCommands c
  let k ← k.scheduleTransaction c
  return { k with
    clk := k.clk + 1
    cmdQueue := { k.cmdQueue with clk := k.cmdQueue.clk + 1 } }

end Controller

end Beethoven.Dram
