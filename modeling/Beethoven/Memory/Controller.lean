import Mathlib.Data.UInt
import Mathlib.Logic.Function.Basic
import Beethoven.Lib.InFlight
import Beethoven.Lib.TransitionSystem
import Beethoven.Memory.Transaction

/-!
# The simulated memory controller

A model of one AXI memory port of the simulator: `try_to_enqueue_ddr` and the DRAM callbacks of
`mem_ctrl.cc`, and the AXI channels of `tick_signals` in `tick.cc`. The ports of a simulation share
nothing of this state.

A transaction is referred to by its number, in the order in which the bursts of its direction were
accepted; the source holds shared pointers. The fields under *History* are not part of the program:
they record what was accepted, issued to the DRAM, completed by it and queued for the accelerator,
and which DRAM transactions the DRAM has accepted and not completed.

One call of `tick_signals` is, for every tick of the DRAM clock, the callbacks of `ClockTick`
followed by `try_to_enqueue_ddr`, and then the AXI channels (`tick`). The steps below may come in
any order. The DRAM decides which transactions it accepts and when it completes them; it completes
every transaction that it has accepted at most once. A step is undefined where the simulation ends:
at an accepted address that does not translate.
-/

namespace Beethoven.Memory

open Function

/-! ### The ports -/

/-- What the accelerator drives on an address channel. -/
structure AddressIn where
  valid : Bool
  id : ℕ
  size : Fin 8
  burst : ℕ
  addr : ℕ
  len : Fin 256

/-- `getAddr` reads the first 32 bits of the port. -/
def AddressIn.getAddr (a : AddressIn) : ℕ := a.addr % 2 ^ 32

/-- The request of an incrementing burst. -/
def AddressIn.incr (id size addr len : ℕ) : AddressIn :=
  ⟨true, id, .ofNat 8 size, 1, addr, .ofNat 256 len⟩

/-- What the accelerator drives on the W channel. -/
structure WriteDataIn where
  valid : Bool
  data : ℕ → UInt8
  strb : ℕ
  last : Bool

/-- `getStrb` picks a 32-bit chunk of the strobes and a bit of it. -/
def WriteDataIn.getStrb (w : WriteDataIn) (i : ℕ) : Bool :=
  let payload := w.strb / 2 ^ (32 * (i / 32)) % 2 ^ 32
  payload.testBit (i % 32)

/-- What the accelerator drives in one tick. -/
structure Inputs where
  ar : AddressIn
  aw : AddressIn
  w : WriteDataIn
  rReady : Bool
  bReady : Bool

/-- The accelerator drives no channel. -/
def Inputs.idle : Inputs :=
  let none : AddressIn := ⟨false, 0, 0, 0, 0, 0⟩
  ⟨none, none, ⟨false, fun _ => 0, 0, false⟩, false, false⟩

/-- The bytes of the host's memory. -/
abbrev Host := ℕ → UInt8

def maxQLength : ℕ := 40

def maxInFlightWrites : ℤ := 32

/-! ### Reads -/

/-- The read half of `with_dramsim3_support`. -/
structure DramReads where
  tx : ℕ → MemoryTransaction
  ddrReadQ : List ℕ
  inFlightReads : ℕ → List ℕ
  /-- History: the bursts as they were accepted. -/
  accepted : List MemoryTransaction
  /-- History: the DRAM reads, each with its burst and its address. -/
  issued : List (ℕ × ℕ)
  completed : List (ℕ × ℕ)
  /-- History: the addresses of the DRAM reads that the DRAM has not completed. -/
  outstanding : List ℕ
  /-- History: the single-beat transactions queued for the R channel, each with its burst. -/
  queued : List (ℕ × MemoryTransaction)

namespace DramReads

variable (c : Config) (s : DramReads)

def push (tx : MemoryTransaction) : DramReads :=
  { s with
    tx := update s.tx s.accepted.length tx
    ddrReadQ := s.ddrReadQ ++ [s.accepted.length]
    accepted := s.accepted ++ [tx] }

/-- The burst of which the next DRAM read is issued: the first one in the queue that the DRAM
accepts at its first and at its next address and that has no burst of its ID before it in the
queue. -/
def nextRead (willAcceptTransaction : ℕ → Bool) : (before q : List ℕ) → Option ℕ
  | _, [] => none
  | before, i :: q =>
    if willAcceptTransaction (s.tx i).fpgaAddr then
      if before.any fun j => (s.tx i).id == (s.tx j).id then
        nextRead willAcceptTransaction (before ++ [i]) q
      else if willAcceptTransaction ((s.tx i).dimmAddr c) then some i
      else nextRead willAcceptTransaction (before ++ [i]) q
    else nextRead willAcceptTransaction (before ++ [i]) q

/-- Issue the next DRAM read of burst `i`. -/
def issue (i : ℕ) : DramReads :=
  let dimmAddr := (s.tx i).dimmAddr c
  let tx := { s.tx i with dramTxAxiEnqueueProgress := (s.tx i).dramTxAxiEnqueueProgress + 1 }
  { s with
    tx := update s.tx i tx
    inFlightReads := update s.inFlightReads dimmAddr (s.inFlightReads dimmAddr ++ [i])
    ddrReadQ := if tx.dramsimTxFinished then s.ddrReadQ.erase i else s.ddrReadQ
    issued := s.issued ++ [(i, dimmAddr)]
    outstanding := s.outstanding ++ [dimmAddr] }

/-- The first half of `try_to_enqueue_ddr`. -/
def tryToEnqueue (willAcceptTransaction : ℕ → Bool) : DramReads :=
  match s.nextRead c willAcceptTransaction [] s.ddrReadQ with
  | none => s
  | some i => s.issue c i

/-- The completion of the DRAM read at `addr` for burst `i`, before `rest` in the queue of
`addr`. -/
def complete (outside : ℕ → Bool) (addr i : ℕ) (rest : List ℕ) : DramReads :=
  let loaded := (s.tx i).load c outside addr
  { s with
    tx := update s.tx i loaded.1
    inFlightReads := update s.inFlightReads addr rest
    completed := s.completed ++ [(i, addr)]
    outstanding := s.outstanding.erase addr
    queued := s.queued ++ loaded.2.map (i, ·) }

end DramReads

/-- The R and AR channels and the queue of beats that wait for the R channel. -/
structure ReadChannel where
  readTransactions : List MemoryTransaction
  arReady : Bool
  rValid : Bool
  rLast : Bool
  rId : ℕ
  rData : ℕ → UInt8

namespace ReadChannel

variable (c : Config) (r : ReadChannel)

/-- An R handshake. -/
def finishBeat (rReady : Bool) : ReadChannel :=
  if r.rValid && rReady then
    match r.readTransactions with
    | [] => r
    | tx :: rest =>
      if r.rLast || !tx.canBeLast then { r with readTransactions := rest }
      else
        let addr := if tx.fixed then tx.addr else tx.addr + tx.size
        { r with
          readTransactions :=
            { tx with axiBusBeatsProgress := tx.axiBusBeatsProgress + 1, addr } :: rest }
  else r

/-- Drive the R channel with the oldest beat. -/
def driveR (host : Host) : ReadChannel :=
  match r.readTransactions with
  | [] => { r with rValid := false, rLast := false }
  | tx :: _ =>
    let start := (tx.axiBusBeatsProgress * tx.size % c.dataBusBytes / 4).toNat
    let setData (data : ℕ → UInt8) (i : ℕ) : ℕ → UInt8 := fun lane =>
      if lane / 4 = i + start then host (tx.addr + 4 * i + lane % 4) else data lane
    { r with
      rValid := true
      rLast := ((tx.len : ℤ) = tx.axiBusBeatsProgress + 1) && tx.canBeLast
      rId := tx.id
      rData := (List.range (tx.size / 4)).foldl setData r.rData }

end ReadChannel

/-! ### Writes -/

/-- The write half of `with_dramsim3_support`, with the queue of the bursts that await data. -/
structure DramWrites where
  tx : ℕ → MemoryTransaction
  writeTransactions : List ℕ
  ddrWriteQ : List ℕ
  inFlightWrites : ℕ → List ℕ
  /-- History: the bursts as they were accepted. -/
  accepted : List MemoryTransaction
  /-- History: the DRAM writes, each with its burst and its address. -/
  issued : List (ℕ × ℕ)
  completed : List (ℕ × ℕ)
  /-- History: the addresses of the DRAM writes that the DRAM has not completed. -/
  outstanding : List ℕ
  /-- History: the responses queued for the B channel, each with its burst and its ID. -/
  responses : List (ℕ × ℕ)

namespace DramWrites

variable (c : Config) (s : DramWrites)

def push (tx : MemoryTransaction) : DramWrites :=
  { s with
    tx := update s.tx s.accepted.length tx
    writeTransactions := s.writeTransactions ++ [s.accepted.length]
    accepted := s.accepted ++ [tx] }

/-- A beat of data for burst `i`, the oldest that awaits data, before `rest`. -/
def writeBeat (last : Bool) (i : ℕ) (rest : List ℕ) : DramWrites :=
  let addr := if (s.tx i).fixed then (s.tx i).addr else (s.tx i).addr + (s.tx i).size
  if last then
    { s with
      tx := update s.tx i
        { s.tx i with addr, axiBusBeatsProgress := 1, dramTxAxiEnqueueProgress := 0 }
      writeTransactions := rest
      ddrWriteQ := s.ddrWriteQ ++ [i] }
  else
    { s with
      tx := update s.tx i
        { s.tx i with addr, axiBusBeatsProgress := (s.tx i).axiBusBeatsProgress + 1 } }

/-- Issue the next DRAM write of burst `i`. -/
def issue (i : ℕ) : DramWrites :=
  let dimmAddr := (s.tx i).dimmAddr c
  let tx := { s.tx i with dramTxAxiEnqueueProgress := (s.tx i).dramTxAxiEnqueueProgress + 1 }
  { s with
    tx := update s.tx i tx
    inFlightWrites := update s.inFlightWrites dimmAddr (s.inFlightWrites dimmAddr ++ [i])
    ddrWriteQ := if tx.dramsimTxFinished then s.ddrWriteQ.erase i else s.ddrWriteQ
    issued := s.issued ++ [(i, dimmAddr)]
    outstanding := s.outstanding ++ [dimmAddr] }

/-- The second half of `try_to_enqueue_ddr`. -/
def tryToEnqueue (willAcceptTransaction : ℕ → Bool) : DramWrites :=
  match s.ddrWriteQ.find? fun i => willAcceptTransaction ((s.tx i).dimmAddr c) with
  | none => s
  | some i => s.issue c i

/-- The completion of a DRAM write of burst `i` responds when the counter reaches zero. -/
def responds (i : ℕ) : Bool := (s.tx i).axiBusBeatsProgress - 1 = 0

/-- The completion of the DRAM write at `addr` for burst `i`, before `rest` in the queue of
`addr`. -/
def complete (addr i : ℕ) (rest : List ℕ) : DramWrites :=
  { s with
    tx := update s.tx i
      { s.tx i with axiBusBeatsProgress := (s.tx i).axiBusBeatsProgress - 1 }
    inFlightWrites := update s.inFlightWrites addr rest
    completed := s.completed ++ [(i, addr)]
    outstanding := s.outstanding.erase addr
    responses := if s.responds i then s.responses ++ [(i, (s.tx i).id)] else s.responses }

end DramWrites

/-- The AW, W and B channels. -/
structure WriteChannel where
  numInFlightWrites : ℤ
  sendIds : List ℕ
  toEnqueue : List ℕ
  awReady : Bool
  wReady : Bool
  bValid : Bool
  bId : ℕ

namespace WriteChannel

variable (w : WriteChannel)

/-- A B handshake. -/
def finishResponse (bReady : Bool) : WriteChannel :=
  if bReady && w.bValid then
    { w with sendIds := w.sendIds.tail, numInFlightWrites := w.numInFlightWrites - 1 }
  else w

/-- Drive the B channel with the oldest response, then let one more response in. -/
def driveB : WriteChannel :=
  let w' := match w.sendIds with
    | [] => { w with bValid := false }
    | id :: _ => { w with bValid := true, bId := id }
  match w.toEnqueue with
  | [] => w'
  | id :: rest => { w' with sendIds := w.sendIds ++ [id], toEnqueue := rest }

end WriteChannel

/-! ### The port -/

/-- The state of a memory port. -/
structure State where
  rd : DramReads
  wr : DramWrites
  r : ReadChannel
  w : WriteChannel
  host : Host

namespace State

variable (c : Config) (s : State)

/-- The state after the reset of the simulation, in which only `awready` is driven high. -/
def init : State where
  rd := ⟨fun _ => default, [], fun _ => [], [], [], [], [], []⟩
  wr := ⟨fun _ => default, [], [], fun _ => [], [], [], [], [], []⟩
  r := ⟨[], false, false, false, 0, fun _ => 0⟩
  w := ⟨0, [], [], true, false, false, 0⟩
  host := fun _ => 0

def tryToEnqueueDdr (willAcceptTransaction : ℕ → Bool → Bool) : State :=
  { s with
    rd := s.rd.tryToEnqueue c fun addr => willAcceptTransaction addr false
    wr := s.wr.tryToEnqueue c fun addr => willAcceptTransaction addr true }

/-- The read callback of the DRAM. -/
def readCallback (outside : ℕ → Bool) (addr : ℕ) : Option State :=
  match s.rd.inFlightReads addr with
  | [] => none
  | i :: rest => some { s with
      rd := s.rd.complete c outside addr i rest
      r := { s.r with
        readTransactions := s.r.readTransactions ++ ((s.rd.tx i).load c outside addr).2 } }

/-- The write callback of the DRAM. -/
def writeCallback (addr : ℕ) : Option State :=
  match s.wr.inFlightWrites addr with
  | [] => none
  | i :: rest => some { s with
      wr := s.wr.complete addr i rest
      w := { s.w with
        toEnqueue :=
          if s.wr.responds i then s.w.toEnqueue ++ [(s.wr.tx i).id] else s.w.toEnqueue } }

/-- An AR handshake. -/
def acceptAR (translate : ℕ → Option ℕ) (ar : AddressIn) : Option DramReads :=
  if s.r.arReady && ar.valid then
    (translate ar.getAddr).map fun ad =>
      s.rd.push (.new c ad (2 ^ (ar.size : ℕ)) (ar.len + 1) 0 false ar.id ar.getAddr false)
  else some s.rd

/-- An AW handshake. -/
def acceptAW (translate : ℕ → Option ℕ) (aw : AddressIn) : Option DramWrites :=
  if aw.valid && s.w.awReady then
    (translate aw.getAddr).map fun addr =>
      s.wr.push
        (.new c addr (2 ^ (aw.size : ℕ)) (1 + aw.len) 0 (aw.burst = 0) aw.id aw.getAddr false)
  else some s.wr

/-- The bytes of a W beat go to the host's memory at the address of the burst. -/
def storeBeat (w : WriteDataIn) (addr : ℕ) (host : Host) : Host :=
  (List.range c.dataBusBytes).foldl
    (fun host off => if w.getStrb off then update host (addr + off) (w.data off) else host)
    host

/-- The W channel, after the AW channel has left the transactions `wr` and the counter `num`. -/
def acceptW (w : WriteDataIn) (wr : DramWrites) (num : ℤ) : DramWrites × Bool × Host :=
  match wr.writeTransactions with
  | [] => (wr, num < maxInFlightWrites, s.host)
  | i :: rest =>
    if w.valid && s.w.wReady then
      (wr.writeBeat w.last i rest,
        if w.last then !rest.isEmpty || num < maxInFlightWrites else true,
        storeBeat c w (wr.tx i).addr s.host)
    else (wr, s.w.wReady, s.host)

/-- The AXI channels in `tick_signals`. -/
def tickSignals (translate : ℕ → Option ℕ) (i : Inputs) : Option State := do
  let rd ← s.acceptAR c translate i.ar
  let r := (s.r.finishBeat i.rReady).driveR c s.host
  let w := (s.w.finishResponse i.bReady).driveB
  let wr ← s.acceptAW c translate i.aw
  let num := if i.aw.valid && s.w.awReady then w.numInFlightWrites + 1 else w.numInFlightWrites
  let (wr, wReady, host) := s.acceptW c i.w wr num
  return {
    rd, wr, host
    r := { r with arReady := rd.ddrReadQ.length < maxQLength }
    w := { w with numInFlightWrites := num, wReady, awReady := num < maxInFlightWrites } }

end State

/-- The steps of a port, each with what the accelerator, the DRAM and the address translator decide:
`outside` are the bits past the end of `ddr_bus_beats_retrieved`. -/
inductive Action where
  | readCallback (addr : ℕ) (outside : ℕ → Bool)
  | writeCallback (addr : ℕ)
  | tryToEnqueueDdr (willAcceptTransaction : ℕ → Bool → Bool)
  | tickSignals (translate : ℕ → Option ℕ) (i : Inputs)

/-- The DRAM calls back for what it has accepted and not completed. -/
def step (c : Config) (s : State) : Action → Option State
  | .readCallback addr outside =>
    if addr ∈ s.rd.outstanding then s.readCallback c outside addr else none
  | .writeCallback addr => if addr ∈ s.wr.outstanding then s.writeCallback addr else none
  | .tryToEnqueueDdr willAcceptTransaction => some (s.tryToEnqueueDdr c willAcceptTransaction)
  | .tickSignals translate i => s.tickSignals c translate i

/-- The memory port. -/
def memory (c : Config) : Lib.System State Action := ⟨State.init, step c⟩

/-- The actions of one call of `tick_signals`: for every DRAM clock tick the callbacks that it makes
and what it accepts, then the AXI channels. -/
def tick (ddrTicks : List (List Action × (ℕ → Bool → Bool))) (translate : ℕ → Option ℕ)
    (i : Inputs) : List Action :=
  (ddrTicks.flatMap fun d => d.1 ++ [.tryToEnqueueDdr d.2]) ++ [.tickSignals translate i]

/-! ### What a step does to the transactions -/

/-- The changes to the read transactions that are not completions. -/
inductive ReadStep (c : Config) (s : DramReads) : DramReads → Prop
  | stay : ReadStep c s s
  | push (addr size len id fpgaAddr : ℕ) :
      ReadStep c s (s.push (.new c addr size len 0 false id fpgaAddr false))
  | issue {i : ℕ} (hi : i ∈ s.ddrReadQ) : ReadStep c s (s.issue c i)

/-- The changes to the write transactions that are not completions. -/
inductive WriteStep (c : Config) (s : DramWrites) : DramWrites → Prop
  | stay : WriteStep c s s
  | push (addr size len id fpgaAddr : ℕ) (fixed : Bool) :
      WriteStep c s (s.push (.new c addr size len 0 fixed id fpgaAddr false))
  | writeBeat (last : Bool) {i : ℕ} {rest : List ℕ} (hq : s.writeTransactions = i :: rest) :
      WriteStep c s (s.writeBeat last i rest)
  | issue {i : ℕ} (hi : i ∈ s.ddrWriteQ) : WriteStep c s (s.issue c i)

variable {c : Config} {s t : State} {a : Action}

theorem DramReads.mem_of_nextRead {s : DramReads} {accepts : ℕ → Bool} {before q : List ℕ} {i : ℕ}
    (h : s.nextRead c accepts before q = some i) : i ∈ q := by
  induction q generalizing before with
  | nil => cases h
  | cons j q ih =>
    rw [nextRead] at h
    split_ifs at h with hfirst hsame hnext
    · exact List.mem_cons_of_mem j (ih h)
    · cases h
      exact List.mem_cons_self
    · exact List.mem_cons_of_mem j (ih h)
    · exact List.mem_cons_of_mem j (ih h)

private theorem readStep_tryToEnqueue (s : DramReads) (accepts : ℕ → Bool) :
    ReadStep c s (s.tryToEnqueue c accepts) := by
  rw [DramReads.tryToEnqueue]
  split
  · exact .stay
  · next i hi => exact .issue (DramReads.mem_of_nextRead hi)

private theorem writeStep_tryToEnqueue (s : DramWrites) (accepts : ℕ → Bool) :
    WriteStep c s (s.tryToEnqueue c accepts) := by
  rw [DramWrites.tryToEnqueue]
  split
  · exact .stay
  · next i hi => exact .issue (List.mem_of_find?_eq_some hi)

private theorem readStep_acceptAR {translate : ℕ → Option ℕ} {ar : AddressIn} {rd : DramReads}
    (h : s.acceptAR c translate ar = some rd) : ReadStep c s.rd rd := by
  rw [State.acceptAR] at h
  split_ifs at h with hfire
  · obtain ⟨ad, -, rfl⟩ := Option.map_eq_some_iff.mp h
    exact .push ..
  · cases h
    exact .stay

theorem writeStep_acceptAW {translate : ℕ → Option ℕ} {aw : AddressIn} {wr : DramWrites}
    (h : s.acceptAW c translate aw = some wr) : WriteStep c s.wr wr := by
  rw [State.acceptAW] at h
  split_ifs at h with hfire
  · obtain ⟨addr, -, rfl⟩ := Option.map_eq_some_iff.mp h
    exact .push ..
  · cases h
    exact .stay

private theorem writeStep_acceptW (w : WriteDataIn) (wr : DramWrites) (num : ℤ) :
    WriteStep c wr (s.acceptW c w wr num).1 := by
  rw [State.acceptW]
  split
  · exact .stay
  · next i rest hq =>
    by_cases hfire : (w.valid && s.w.wReady) = true
    · rw [if_pos hfire]
      exact .writeBeat w.last hq
    · rw [if_neg hfire]
      exact .stay

theorem tickSignals_cases {translate : ℕ → Option ℕ} {i : Inputs}
    (h : s.tickSignals c translate i = some t) :
    ReadStep c s.rd t.rd ∧ ∃ wr, WriteStep c s.wr wr ∧ WriteStep c wr t.wr := by
  obtain ⟨rd, hrd, h⟩ := Option.bind_eq_some_iff.mp h
  obtain ⟨wr, hwr, h⟩ := Option.bind_eq_some_iff.mp h
  cases h
  exact ⟨readStep_acceptAR hrd, wr, writeStep_acceptAW hwr, writeStep_acceptW ..⟩

theorem readCallback_cases {addr : ℕ} {outside : ℕ → Bool}
    (h : step c s (.readCallback addr outside) = some t) :
    addr ∈ s.rd.outstanding ∧ ∃ i rest, s.rd.inFlightReads addr = i :: rest ∧ t = { s with
      rd := s.rd.complete c outside addr i rest
      r := { s.r with
        readTransactions := s.r.readTransactions ++ ((s.rd.tx i).load c outside addr).2 } } := by
  rw [step] at h
  split_ifs at h with haddr
  rw [State.readCallback] at h
  split at h
  · cases h
  · next i rest hq => exact ⟨haddr, i, rest, hq, (Option.some.inj h).symm⟩

theorem writeCallback_cases {addr : ℕ} (h : step c s (.writeCallback addr) = some t) :
    addr ∈ s.wr.outstanding ∧ ∃ i rest, s.wr.inFlightWrites addr = i :: rest ∧ t = { s with
      wr := s.wr.complete addr i rest
      w := { s.w with
        toEnqueue :=
          if s.wr.responds i then s.w.toEnqueue ++ [(s.wr.tx i).id] else s.w.toEnqueue } } := by
  rw [step] at h
  split_ifs at h with haddr
  rw [State.writeCallback] at h
  split at h
  · cases h
  · next i rest hq => exact ⟨haddr, i, rest, hq, (Option.some.inj h).symm⟩

/-- **The changes that a step makes to the read transactions.** -/
theorem read_cases (h : step c s a = some t) :
    ReadStep c s.rd t.rd ∨ ∃ addr outside i rest, a = .readCallback addr outside ∧
      addr ∈ s.rd.outstanding ∧ s.rd.inFlightReads addr = i :: rest ∧
      t.rd = s.rd.complete c outside addr i rest := by
  cases a with
  | readCallback addr outside =>
    obtain ⟨haddr, i, rest, hq, rfl⟩ := readCallback_cases h
    exact .inr ⟨addr, outside, i, rest, rfl, haddr, hq, rfl⟩
  | writeCallback addr =>
    obtain ⟨-, i, rest, -, rfl⟩ := writeCallback_cases h
    exact .inl .stay
  | tryToEnqueueDdr accepts =>
    cases h
    exact .inl (readStep_tryToEnqueue ..)
  | tickSignals translate i => exact .inl (tickSignals_cases h).1

/-- **The changes that a step makes to the write transactions**: a tick may accept a burst and then
a beat. -/
theorem write_cases (h : step c s a = some t) :
    (∃ wr, WriteStep c s.wr wr ∧ WriteStep c wr t.wr) ∨ ∃ addr i rest, a = .writeCallback addr ∧
      addr ∈ s.wr.outstanding ∧ s.wr.inFlightWrites addr = i :: rest ∧
      t.wr = s.wr.complete addr i rest := by
  cases a with
  | readCallback addr outside =>
    obtain ⟨-, i, rest, -, rfl⟩ := readCallback_cases h
    exact .inl ⟨s.wr, .stay, .stay⟩
  | writeCallback addr =>
    obtain ⟨haddr, i, rest, hq, rfl⟩ := writeCallback_cases h
    exact .inr ⟨addr, i, rest, rfl, haddr, hq, rfl⟩
  | tryToEnqueueDdr accepts =>
    cases h
    exact .inl ⟨s.wr, .stay, writeStep_tryToEnqueue s.wr fun addr => accepts addr true⟩
  | tickSignals translate i => exact .inl (tickSignals_cases h).2

end Beethoven.Memory
