import Beethoven.Dram.DramSystem
import Beethoven.Memory.Delivery
import Beethoven.Memory.Writes

/-!
# A memory port with its DRAM

`mem_intf_t` holds the DRAM system that serves the port. A tick of the DRAM clock in `tick_signals`
is a `ClockTick`, which calls back for the transactions whose cycle has come, followed by
`try_to_enqueue_ddr`, which asks the DRAM system what it accepts and hands it at most one read and
one write.

The port of `Memory.Controller` leaves the DRAM open: it may call back for any transaction that it
has accepted and not completed, and accept what it likes. Here the port is run with the DRAM system
of `Dram.DramSystem`. Every run of the two together is a run of the port and a run of the DRAM
system: what the port has in flight is at all times what the DRAM system owes a callback for, so
that a callback never finds an empty queue, and nothing is added that was not accepted.
-/

namespace Beethoven.Memory

open Dram (JedecDRAMSystem)
open Lib (System)

/-- A memory port and the DRAM system that serves it. -/
structure Port where
  port : State
  memSys : JedecDRAMSystem

namespace Port

variable (c : Config) (d : Dram.Config) (x : Port)

def init : Port := ⟨.init, .init⟩

/-- The callback for a transaction that is done. -/
def callback (outside : ℕ → Bool) (s : State) (t : ℕ × Bool) : Option State :=
  if t.2 then s.writeCallback t.1 else s.readCallback c outside t.1

/-- The callbacks of a tick, one after the other; `outside` has, for each of them, the bits past the
end of `ddr_bus_beats_retrieved`. -/
def callbacks (outside : ℕ → ℕ → Bool) (n : ℕ) : List (ℕ × Bool) → State → Option State
  | [], s => some s
  | t :: rest, s => do
    let s ← callback c (outside n) s t
    callbacks outside (n + 1) rest s

/-- `mem_sys->ClockTick()`. -/
def clockTick (outside : ℕ → ℕ → Bool) : Option Port := do
  let port ← callbacks c outside 0 (x.memSys.callbacks d) x.port
  let memSys ← (x.memSys.clockTick d).toOption
  return ⟨port, memSys⟩

/-- The first half of `try_to_enqueue_ddr`. -/
def tryToEnqueueRead : Port :=
  let accepts := fun addr => x.memSys.willAcceptTransaction d addr false
  match x.port.rd.nextRead c accepts [] x.port.rd.ddrReadQ with
  | none => x
  | some i =>
    ⟨{ x.port with rd := x.port.rd.issue c i },
      x.memSys.addTransaction d ((x.port.rd.tx i).dimmAddr c) false⟩

/-- The second half of `try_to_enqueue_ddr`. -/
def tryToEnqueueWrite : Port :=
  let accepts := fun addr => x.memSys.willAcceptTransaction d addr true
  match x.port.wr.ddrWriteQ.find? fun i => accepts ((x.port.wr.tx i).dimmAddr c) with
  | none => x
  | some i =>
    ⟨{ x.port with wr := x.port.wr.issue c i },
      x.memSys.addTransaction d ((x.port.wr.tx i).dimmAddr c) true⟩

/-- `try_to_enqueue_ddr`. -/
def tryToEnqueueDdr : Port := (x.tryToEnqueueRead c d).tryToEnqueueWrite c d

/-- The addresses of a kind for which the DRAM system owes a callback. -/
def owed (l : List (ℕ × Bool)) (w : Bool) : List ℕ :=
  l.filterMap fun t => if t.2 = w then some t.1 else none

/-- The addresses of a kind that the port has in flight. -/
def outstanding (s : State) (w : Bool) : List ℕ :=
  if w then s.wr.outstanding else s.rd.outstanding

end Port

/-- A tick of the DRAM clock, or the AXI channels of a tick of the accelerator. -/
inductive PortAction where
  | dramTick (outside : ℕ → ℕ → Bool)
  | tickSignals (translate : ℕ → Option ℕ) (i : Inputs)

def portStep (c : Config) (d : Dram.Config) (x : Port) : PortAction → Option Port
  | .dramTick outside => (x.clockTick c d outside).map fun x => x.tryToEnqueueDdr c d
  | .tickSignals translate i =>
    (x.port.tickSignals c translate i).map fun port => { x with port }

/-- A memory port with its DRAM system. -/
def withDram (c : Config) (d : Dram.Config) : System Port PortAction := ⟨.init, portStep c d⟩

/-! ### What the port has in flight -/

namespace Port

variable {c : Config} {d : Dram.Config} {x y : Port} {s t : State} {w : Bool}
  {l : List (ℕ × Bool)}

@[simp] theorem owed_cons (a : ℕ) (w w' : Bool) (l : List (ℕ × Bool)) :
    owed ((a, w) :: l) w' = if w = w' then a :: owed l w' else owed l w' := by
  by_cases h : w = w'
  · simp [owed, h]
  · simp [owed, h]

/-- The port has in flight what the DRAM system owes. -/
def InFlightOwed (s : State) (l : List (ℕ × Bool)) : Prop :=
  ∀ w, (outstanding s w).Perm (owed l w)

theorem InFlightOwed.perm {l' : List (ℕ × Bool)} (h : InFlightOwed s l) (hl : l.Perm l') :
    InFlightOwed s l' :=
  fun w => (h w).trans (hl.filterMap _)

/-- **A callback that is owed finds its transaction.** -/
theorem exists_callback (hs : (memory c).Reaches System.anyStep s) {a : ℕ}
    (h : InFlightOwed s ((a, w) :: l)) (outside : ℕ → Bool) :
    ∃ t, callback c outside s (a, w) = some t ∧ (memory c).Reaches System.anyStep t ∧
      InFlightOwed t l := by
  have hmem : a ∈ outstanding s w := (h w).mem_iff.mpr (by simp)
  have hsame : ((outstanding s w).erase a).Perm (owed l w) := by
    simpa using (h w).erase a
  have hother : (outstanding s (!w)).Perm (owed l (!w)) := by simpa using h (!w)
  cases w with
  | true =>
    obtain ⟨i, rest, hq⟩ :=
      List.exists_cons_of_ne_nil ((WritesOk.of_reaches hs).flight.waiting_ne_nil hmem)
    have hdefined : ∃ t, s.writeCallback a = some t := by
      rw [State.writeCallback, show s.wr.inFlightWrites a = i :: rest from hq]
      exact ⟨_, rfl⟩
    obtain ⟨t, ht⟩ := hdefined
    have hstep : step c s (.writeCallback a) = some t := (if_pos hmem).trans ht
    refine ⟨t, ht, hs.step (a := .writeCallback a) trivial hstep, ?_⟩
    obtain ⟨-, j, rest, -, rfl⟩ := writeCallback_cases hstep
    exact Bool.rec hother hsame
  | false =>
    obtain ⟨i, rest, hq⟩ :=
      List.exists_cons_of_ne_nil ((ReadsOk.of_reaches hs).flight.waiting_ne_nil hmem)
    have hdefined : ∃ t, s.readCallback c outside a = some t := by
      rw [State.readCallback, show s.rd.inFlightReads a = i :: rest from hq]
      exact ⟨_, rfl⟩
    obtain ⟨t, ht⟩ := hdefined
    have hstep : step c s (.readCallback a outside) = some t := (if_pos hmem).trans ht
    refine ⟨t, ht, hs.step (a := .readCallback a outside) trivial hstep, ?_⟩
    obtain ⟨-, j, rest, -, rfl⟩ := readCallback_cases hstep
    exact Bool.rec hsame hother

/-- The callbacks of a tick, which leave in flight what the DRAM system still owes. -/
theorem exists_callbacks {done rest : List (ℕ × Bool)} (hs : (memory c).Reaches System.anyStep s)
    (h : InFlightOwed s (done ++ rest)) (outside : ℕ → ℕ → Bool) (n : ℕ) :
    ∃ t, callbacks c outside n done s = some t ∧ (memory c).Reaches System.anyStep t ∧
      InFlightOwed t rest := by
  induction done generalizing s n with
  | nil => exact ⟨s, rfl, hs, h⟩
  | cons x done ih =>
    obtain ⟨a, w⟩ := x
    obtain ⟨t, ht, hreaches, howed⟩ := exists_callback hs h (outside n)
    obtain ⟨u, hu, hrest⟩ := ih hreaches howed (n + 1)
    refine ⟨u, ?_, hrest⟩
    rw [callbacks, ht]
    exact hu

/-! ### Runs of the two together -/

/-- The port and the DRAM system have each run on its own, and the port has in flight what the DRAM
system owes. -/
structure Sound (c : Config) (d : Dram.Config) (x : Port) : Prop where
  port : (memory c).Reaches System.anyStep x.port
  memSys : (Dram.dram d).Reaches System.anyStep x.memSys
  owed : InFlightOwed x.port (x.memSys.outstanding d)

theorem sound_init : Sound c d .init :=
  ⟨.init _ _, .init _ _, fun w => by
    cases w <;> simp [outstanding, owed, init, State.init, JedecDRAMSystem.outstanding,
      JedecDRAMSystem.init, Dram.Controller.outstanding, Dram.Controller.init]⟩

/-- **A tick of the DRAM system** is defined, and every callback it makes is one the port waits
for. -/
theorem Sound.exists_clockTick (hx : Sound c d x) (hd : d.Plain) (outside : ℕ → ℕ → Bool) :
    ∃ y, x.clockTick c d outside = some y ∧ Sound c d y := by
  have hsound := JedecDRAMSystem.sound_true hd hx.memSys
  obtain ⟨memSys, htick, hsound'⟩ :=
    hsound.returns_clockTick hd fun _ => Dram.Controller.invariant_true
  have hreaches : (Dram.dram d).Reaches System.anyStep memSys :=
    hx.memSys.step (a := .clockTick) trivial (by
      change (x.memSys.clockTick d).toOption = some memSys
      rw [htick]
      rfl)
  have howed := JedecDRAMSystem.outstanding_clockTick hsound hsound' htick
  obtain ⟨port, hport, hrun, hflight⟩ := exists_callbacks hx.port (hx.owed.perm howed) outside 0
  refine ⟨⟨port, memSys⟩, ?_, hrun, hreaches, hflight⟩
  rw [clockTick, hport, htick]
  rfl

/-- **A transaction that is handed over** is in flight on both sides. -/
theorem Sound.add (hx : Sound c d x) {a : ℕ} (haccept : x.memSys.willAcceptTransaction d a w)
    {port : State} (hport : (memory c).Reaches System.anyStep port)
    (hsame : outstanding port w = outstanding x.port w ++ [a])
    (hother : outstanding port (!w) = outstanding x.port (!w)) :
    Sound c d ⟨port, x.memSys.addTransaction d a w⟩ := by
  have hadd : (Dram.dram d).step x.memSys (.addTransaction a w) =
      some (x.memSys.addTransaction d a w) := if_pos haccept
  refine ⟨hport, hx.memSys.step trivial hadd, InFlightOwed.perm (l := (a, w) :: _) ?_
    (JedecDRAMSystem.outstanding_addTransaction x.memSys a w).symm⟩
  have hthis : (outstanding port w).Perm (Port.owed ((a, w) :: x.memSys.outstanding d) w) := by
    rw [hsame, owed_cons, if_pos rfl]
    exact (List.perm_append_singleton _ _).trans ((hx.owed w).cons _)
  have hthat : (outstanding port (!w)).Perm
      (Port.owed ((a, w) :: x.memSys.outstanding d) (!w)) := by
    rw [hother, owed_cons, if_neg (by simp)]
    exact hx.owed (!w)
  cases w with
  | true => exact Bool.rec hthat hthis
  | false => exact Bool.rec hthis hthat

theorem accepts_of_nextRead {s : DramReads} {accepts : ℕ → Bool} {before q : List ℕ} {i : ℕ}
    (h : s.nextRead c accepts before q = some i) : accepts ((s.tx i).dimmAddr c) := by
  induction q generalizing before with
  | nil => cases h
  | cons j q ih =>
    rw [DramReads.nextRead] at h
    split_ifs at h with hfirst hsame hnext
    · exact ih h
    · cases h
      exact hnext
    · exact ih h
    · exact ih h

theorem nextRead_of_forall_not {s : DramReads} (before q : List ℕ) :
    s.nextRead c (fun _ => false) before q = none := by
  induction q generalizing before with
  | nil => rfl
  | cons j q ih =>
    rw [DramReads.nextRead, if_neg (by simp)]
    exact ih _

theorem Sound.tryToEnqueueRead (hx : Sound c d x) : Sound c d (x.tryToEnqueueRead c d) := by
  rw [Port.tryToEnqueueRead]
  dsimp only
  cases hnext : x.port.rd.nextRead c (fun a => x.memSys.willAcceptTransaction d a false) []
      x.port.rd.ddrReadQ with
  | none => exact hx
  | some i =>
    -- the first half of `try_to_enqueue_ddr` where the DRAM accepts no write
    have hstep : (memory c).step x.port (.tryToEnqueueDdr fun a w =>
        !w && x.memSys.willAcceptTransaction d a false) =
          some { x.port with rd := x.port.rd.issue c i } := by
      have hnone : x.port.wr.ddrWriteQ.find? (fun _ => false) = none := by simp
      change some (State.tryToEnqueueDdr c _ _) = _
      rw [State.tryToEnqueueDdr, DramReads.tryToEnqueue, DramWrites.tryToEnqueue]
      simp only [Bool.not_false, Bool.true_and, Bool.not_true, Bool.false_and, hnext, hnone]
    exact hx.add (accepts_of_nextRead hnext) (hx.port.step trivial hstep) rfl rfl

theorem Sound.tryToEnqueueWrite (hx : Sound c d x) : Sound c d (x.tryToEnqueueWrite c d) := by
  rw [Port.tryToEnqueueWrite]
  dsimp only
  cases hnext : x.port.wr.ddrWriteQ.find? fun i =>
      x.memSys.willAcceptTransaction d ((x.port.wr.tx i).dimmAddr c) true with
  | none => exact hx
  | some i =>
    -- the second half of `try_to_enqueue_ddr` where the DRAM accepts no read
    have hstep : (memory c).step x.port (.tryToEnqueueDdr fun a w =>
        w && x.memSys.willAcceptTransaction d a true) =
          some { x.port with wr := x.port.wr.issue c i } := by
      change some (State.tryToEnqueueDdr c _ _) = _
      rw [State.tryToEnqueueDdr, DramReads.tryToEnqueue, DramWrites.tryToEnqueue]
      simp only [Bool.false_and, Bool.true_and, hnext, nextRead_of_forall_not]
    have haccept : x.memSys.willAcceptTransaction d ((x.port.wr.tx i).dimmAddr c) true := by
      simpa using List.find?_some hnext
    exact hx.add haccept (hx.port.step trivial hstep) rfl rfl

theorem outstanding_tickSignals {translate : ℕ → Option ℕ} {i : Inputs}
    (h : s.tickSignals c translate i = some t) (w : Bool) : outstanding t w = outstanding s w := by
  obtain ⟨rd, hrd, h⟩ := Option.bind_eq_some_iff.mp h
  obtain ⟨wr, hwr, h⟩ := Option.bind_eq_some_iff.mp h
  cases h
  cases w with
  | true =>
    have haw : wr.outstanding = s.wr.outstanding := by
      rw [State.acceptAW] at hwr
      split_ifs at hwr
      · obtain ⟨addr, -, rfl⟩ := Option.map_eq_some_iff.mp hwr
        rfl
      · cases hwr
        rfl
    change (State.acceptW ..).1.outstanding = s.wr.outstanding
    rw [← haw, State.acceptW]
    split
    · rfl
    · next j rest hq =>
      by_cases hfire : (i.w.valid && s.w.wReady) = true
      · rw [if_pos hfire]
        cases hlast : i.w.last <;> rfl
      · rw [if_neg hfire]
  | false =>
    change rd.outstanding = s.rd.outstanding
    rw [State.acceptAR] at hrd
    split_ifs at hrd
    · obtain ⟨ad, -, rfl⟩ := Option.map_eq_some_iff.mp hrd
      rfl
    · cases hrd
      rfl

theorem Sound.exists_dramTick (hx : Sound c d x) (hd : d.Plain) (outside : ℕ → ℕ → Bool) :
    ∃ y, (withDram c d).step x (.dramTick outside) = some y ∧ Sound c d y := by
  obtain ⟨y, hy, hsound⟩ := hx.exists_clockTick hd outside
  refine ⟨y.tryToEnqueueDdr c d, ?_, hsound.tryToEnqueueRead.tryToEnqueueWrite⟩
  exact congrArg (Option.map _) hy

theorem Sound.of_reaches (hd : d.Plain) (h : (withDram c d).Reaches System.anyStep x) :
    Sound c d x := by
  refine h.invariant sound_init fun x a y hx _ hstep => ?_
  cases a with
  | dramTick outside =>
    obtain ⟨y', hy', hsound⟩ := hx.exists_dramTick hd outside
    exact Option.some.inj (hy'.symm.trans hstep) ▸ hsound
  | tickSignals translate i =>
    obtain ⟨port, hport, rfl⟩ := Option.map_eq_some_iff.mp hstep
    refine ⟨hx.port.step (a := .tickSignals translate i) trivial hport, hx.memSys, fun w => ?_⟩
    rw [outstanding_tickSignals hport]
    exact hx.owed w

end Port

/-- **A port with its DRAM runs as a port, and its DRAM as a DRAM system.** However the ticks of the
DRAM clock and the AXI channels interleave, the port is in a state that a run of the port reaches,
the DRAM system in one that a run of it reaches, and the DRAM reads and writes that the port has in
flight are those for which the DRAM system owes a callback. -/
theorem withDram_refines {c : Config} {d : Dram.Config} (hd : d.Plain) {x : Port}
    (h : (withDram c d).Reaches System.anyStep x) :
    (memory c).Reaches System.anyStep x.port ∧
      (Dram.dram d).Reaches System.anyStep x.memSys ∧
      x.port.rd.outstanding.Perm (Port.owed (x.memSys.outstanding d) false) ∧
      x.port.wr.outstanding.Perm (Port.owed (x.memSys.outstanding d) true) := by
  have hx := Port.Sound.of_reaches hd h
  exact ⟨hx.port, hx.memSys, hx.owed false, hx.owed true⟩

/-- A burst is read and another written, and the DRAM clock ticks until the first callback. -/
def readAndWrite : List PortAction :=
  let tick (i : Inputs) : PortAction := .tickSignals (fun addr => some (addr + 4096)) i
  let dramTick : PortAction := .dramTick fun _ _ => false
  [tick .idle, tick { Inputs.idle with ar := .incr 7 3 64 3, aw := .incr 3 3 128 0 },
    tick { Inputs.idle with w := ⟨true, fun _ => 5, 1, true⟩ }, dramTick, dramTick, dramTick]

theorem withDram_refines_ddr4 :
    ∃ x, (withDram smallConfig Dram.ddr4).Reaches System.anyStep x ∧
      x.port.rd.outstanding ≠ [] ∧ x.port.wr.responses = [(0, 3)] ∧
      (memory smallConfig).Reaches System.anyStep x.port ∧
      (Dram.dram Dram.ddr4).Reaches System.anyStep x.memSys ∧
      x.port.rd.outstanding.Perm (Port.owed (x.memSys.outstanding Dram.ddr4) false) ∧
      x.port.wr.outstanding.Perm (Port.owed (x.memSys.outstanding Dram.ddr4) true) := by
  obtain ⟨x, hreach, hreads, hwrites⟩ := System.exists_reaches (withDram smallConfig Dram.ddr4)
    System.anyStep (fun x => x.port.rd.outstanding ≠ [] ∧ x.port.wr.responses = [(0, 3)])
    readAndWrite (by decide +kernel)
  exact ⟨x, hreach, hreads, hwrites, withDram_refines Dram.plain_ddr4 hreach⟩

/-- **A tick of the DRAM clock is always defined**: no callback finds an empty queue of its address,
and the DRAM system does not end the simulation. -/
theorem dramTick_defined {c : Config} {d : Dram.Config} (hd : d.Plain) {x : Port}
    (h : (withDram c d).Reaches System.anyStep x) (outside : ℕ → ℕ → Bool) :
    ∃ y, (withDram c d).step x (.dramTick outside) = some y := by
  obtain ⟨y, hy, -⟩ := (Port.Sound.of_reaches hd h).exists_dramTick hd outside
  exact ⟨y, hy⟩

theorem dramTick_defined_ddr4 :
    ∃ x, (withDram smallConfig Dram.ddr4).Reaches System.anyStep x ∧
      x.memSys.callbacks Dram.ddr4 = [(128, true)] ∧
      ∃ y, (withDram smallConfig Dram.ddr4).step x (.dramTick fun _ _ => false) = some y := by
  obtain ⟨x, hreach, hcallbacks⟩ := System.exists_reaches (withDram smallConfig Dram.ddr4)
    System.anyStep (fun x => x.memSys.callbacks Dram.ddr4 = [(128, true)])
    (readAndWrite.take 5) (by decide +kernel)
  exact ⟨x, hreach, hcallbacks, dramTick_defined Dram.plain_ddr4 hreach _⟩

end Beethoven.Memory
