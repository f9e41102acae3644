import Mathlib.Data.List.Perm.Basic
import Beethoven.Dram.Bookkeeping
import Beethoven.Lib.TransitionSystem

/-!
# The DRAM system

`JedecDRAMSystem` of `dram_system.cc`, with which every memory port of the simulator is served: the
controllers of its channels, to which transactions go by their address. A tick of the DRAM clock
first calls back for the transactions whose cycle has come and then runs a cycle of every
controller.

`AddTransaction` asserts that the controller accepts the transaction. The fields under *History* are
not part of the program: they record the transactions that were accepted and the callbacks.
-/

namespace Beethoven.Dram

open Lib (Returns)
open Function

/-- `JedecDRAMSystem`: the controllers of the channels and the clock. -/
structure JedecDRAMSystem where
  ctrls : ℕ → Controller
  clk : ℕ
  /-- History: the transactions that were accepted, each with its address and its kind. -/
  accepted : List (ℕ × Bool)
  /-- History: the callbacks. -/
  returned : List (ℕ × Bool)

namespace JedecDRAMSystem

/-- The system at the start. -/
def init : JedecDRAMSystem := ⟨fun _ => .init, 0, [], []⟩

variable (c : Config) (s : JedecDRAMSystem)

/-- `WillAcceptTransaction`: the controller of the channel decides. -/
def willAcceptTransaction (hexAddr : ℕ) (isWrite : Bool) : Bool :=
  (s.ctrls (c.getChannel hexAddr)).willAcceptTransaction c isWrite

/-- `AddTransaction`. -/
def addTransaction (hexAddr : ℕ) (isWrite : Bool) : JedecDRAMSystem :=
  { s with
    ctrls := update s.ctrls (c.getChannel hexAddr)
      ((s.ctrls (c.getChannel hexAddr)).addTransaction c hexAddr isWrite)
    accepted := s.accepted ++ [(hexAddr, isWrite)] }

/-- The callbacks of a tick. -/
def callbacks : List (ℕ × Bool) :=
  (List.range c.channels).flatMap fun i =>
    ((s.ctrls i).returnAll s.clk).1.map fun t => (t.addr, t.isWrite)

/-- The controllers after the callbacks of a tick. -/
def returnDone : ℕ → Controller := fun i =>
  if i < c.channels then ((s.ctrls i).returnAll s.clk).2 else s.ctrls i

/-- A cycle of every controller. -/
def tickControllers (ctrls : ℕ → Controller) : Result (ℕ → Controller) :=
  (List.range c.channels).foldlM
    (fun ctrls i => do
      let k ← (ctrls i).clockTick c
      return update ctrls i k)
    ctrls

/-- Whether the statistics of an epoch are printed, which are left out, is a remainder by
`epoch_period`. The clock is a `uint64_t`, so that a negative period is a large one. -/
def epochEnd : Result Unit := if c.epochPeriod = 0 then .error .divisionByZero else .ok ()

/-- `ClockTick`. -/
def clockTick : Result JedecDRAMSystem := do
  let ctrls ← tickControllers c (s.returnDone c)
  epochEnd c
  return { s with ctrls, clk := s.clk + 1, returned := s.returned ++ s.callbacks c }

/-- The callbacks that are owed. -/
def outstanding : List (ℕ × Bool) :=
  (List.range c.channels).flatMap fun i => (s.ctrls i).outstanding

end JedecDRAMSystem

/-- What the simulator does with its DRAM system. -/
inductive Action where
  | addTransaction (hexAddr : ℕ) (isWrite : Bool)
  | clockTick

/-- A transaction is added where it is accepted, and a tick is undefined where it ends the
simulation. -/
def step (c : Config) (s : JedecDRAMSystem) : Action → Option JedecDRAMSystem
  | .addTransaction hexAddr isWrite =>
    if s.willAcceptTransaction c hexAddr isWrite then some (s.addTransaction c hexAddr isWrite)
    else none
  | .clockTick => (s.clockTick c).toOption

/-- The DRAM system. -/
def dram (c : Config) : Lib.System JedecDRAMSystem Action := ⟨.init, step c⟩

/-! ### Returned transactions -/

namespace Controller

variable {c : Config} {k : Controller} {clk : ℕ}

/-- The loop returns the transactions whose cycle has come, in the order of the queue. -/
theorem returnLoop_eq {fuel : ℕ} (hfuel : k.returnQueue.length < fuel) :
    returnLoop clk fuel k = (k.returnQueue.filter fun t => decide (t.completeCycle ≤ clk),
      { k with returnQueue := k.returnQueue.filter fun t => !decide (t.completeCycle ≤ clk) }) := by
  induction fuel generalizing k with
  | zero => exact absurd hfuel (Nat.not_lt_zero _)
  | succ fuel ih =>
    rw [returnLoop, returnDoneTrans]
    cases hfind : k.returnQueue.find? fun t => decide (t.completeCycle ≤ clk) with
    | none =>
      have hnone := List.find?_eq_none.mp hfind
      have hall : k.returnQueue.filter (fun t => !decide (t.completeCycle ≤ clk)) =
          k.returnQueue := List.filter_eq_self.mpr fun t ht => by simpa using hnone t ht
      rw [List.filter_eq_nil_iff.mpr hnone, hall]
    | some t =>
      obtain ⟨hdone, pre, post, hq, hpre⟩ := List.find?_eq_some_iff_append.mp hfind
      have hpre' : ∀ x ∈ pre, ¬ decide (x.completeCycle ≤ clk) = true := fun x hx => by
        simpa using hpre x hx
      have herase : k.returnQueue.eraseP (fun t => decide (t.completeCycle ≤ clk)) =
          pre ++ post := by
        rw [hq, List.eraseP_append_right _ hpre', List.eraseP_cons_of_pos
          (p := fun x : Transaction => decide (x.completeCycle ≤ clk)) hdone]
      have hlen : (pre ++ post).length < fuel := by
        rw [hq] at hfuel
        simp only [List.length_append, List.length_cons] at hfuel ⊢
        omega
      dsimp only
      rw [herase, ih (k := { k with returnQueue := pre ++ post }) hlen]
      simp only [hq, List.filter_append, List.filter_cons, hdone, if_true, Bool.not_true,
        Bool.false_eq_true, if_false, List.filter_eq_nil_iff.mpr hpre', List.nil_append]

theorem returnAll_eq (k : Controller) (clk : ℕ) :
    k.returnAll clk = (k.returnQueue.filter fun t => decide (t.completeCycle ≤ clk),
      { k with returnQueue := k.returnQueue.filter fun t => !decide (t.completeCycle ≤ clk) }) :=
  returnLoop_eq (Nat.lt_succ_self _)

theorem outstanding_returnAll (k : Controller) (clk : ℕ) :
    k.outstanding.Perm (((k.returnAll clk).1.map fun t => (t.addr, t.isWrite)) ++
      (k.returnAll clk).2.outstanding) := by
  rw [returnAll_eq, outstanding, outstanding, ← List.map_append, ← List.append_assoc]
  exact ((List.filter_append_perm _ k.returnQueue).symm.append_right _).map _

theorem sameDuties_returnAll (k : Controller) (clk : ℕ) : SameDuties k (k.returnAll clk).2 := by
  rw [returnAll_eq]
  exact ⟨⟨rfl, rfl, rfl, rfl, rfl, rfl, rfl, rfl⟩, rfl, rfl⟩

theorem Good.returnAll (hk : Good c k) (clk : ℕ) : Good c (k.returnAll clk).2 := by
  rw [returnAll_eq]
  exact hk.of_eq rfl rfl rfl rfl rfl rfl

end Controller

/-! ### Runs -/

namespace JedecDRAMSystem

variable {c : Config} {s s' : JedecDRAMSystem} {J : ℕ → Controller → Prop}

/-- The books of all controllers are kept, with an invariant, and every accepted transaction is
called back or owed its callback. -/
structure Sound (c : Config) (J : ℕ → Controller → Prop) (s : JedecDRAMSystem) : Prop where
  good : ∀ i, (s.ctrls i).Good c ∧ J i (s.ctrls i)
  accepted : s.accepted.Perm (s.returned ++ s.outstanding c)

theorem sound_init (hinit : ∀ i, J i .init) : Sound c J .init :=
  ⟨fun i => ⟨Controller.good_init, hinit i⟩, by simp [init, outstanding, Controller.init,
    Controller.outstanding]⟩

theorem exists_range_split {i n : ℕ} (h : i < n) :
    ∃ l₁ l₂, List.range n = l₁ ++ i :: l₂ ∧ i ∉ l₁ ∧ i ∉ l₂ := by
  obtain ⟨l₁, l₂, hl⟩ := List.append_of_mem (List.mem_range.mpr h)
  have hnodup : (l₁ ++ i :: l₂).Nodup := hl ▸ List.nodup_range
  refine ⟨l₁, l₂, hl, fun hi => ?_, ?_⟩
  · exact (List.nodup_append.mp hnodup).2.2 i hi i List.mem_cons_self rfl
  · exact (List.nodup_cons.mp (List.nodup_append.mp hnodup).2.1).1

theorem addTransaction_ctrls_self (hexAddr : ℕ) (isWrite : Bool) :
    (s.addTransaction c hexAddr isWrite).ctrls (c.getChannel hexAddr) =
      (s.ctrls (c.getChannel hexAddr)).addTransaction c hexAddr isWrite :=
  update_self ..

theorem addTransaction_ctrls_of_ne {i hexAddr : ℕ} (isWrite : Bool) (h : i ≠ c.getChannel hexAddr) :
    (s.addTransaction c hexAddr isWrite).ctrls i = s.ctrls i :=
  update_of_ne h ..

theorem outstanding_addTransaction (s : JedecDRAMSystem) (hexAddr : ℕ) (isWrite : Bool) :
    ((s.addTransaction c hexAddr isWrite).outstanding c).Perm
      ((hexAddr, isWrite) :: s.outstanding c) := by
  obtain ⟨l₁, l₂, hl, h₁, h₂⟩ := exists_range_split (c.getChannel_lt hexAddr)
  have hother (l : List ℕ) (hnot : c.getChannel hexAddr ∉ l) :
      (l.flatMap fun i => ((s.addTransaction c hexAddr isWrite).ctrls i).outstanding) =
        l.flatMap fun i => (s.ctrls i).outstanding := by
    refine List.flatMap_congr fun i hi => ?_
    rw [addTransaction_ctrls_of_ne isWrite fun h => hnot (h ▸ hi)]
  have hchannel : ((s.addTransaction c hexAddr isWrite).ctrls
      (c.getChannel hexAddr)).outstanding.Perm
        ((hexAddr, isWrite) :: (s.ctrls (c.getChannel hexAddr)).outstanding) := by
    rw [addTransaction_ctrls_self]
    exact Controller.outstanding_addTransaction _ _ _
  rw [outstanding, outstanding, hl, List.flatMap_append, List.flatMap_cons, hother l₁ h₁,
    hother l₂ h₂, List.flatMap_append, List.flatMap_cons]
  exact ((hchannel.append_right _).append_left _).trans List.perm_middle

theorem Sound.addTransaction (hs : Sound c J s) (hJ : ∀ i, Controller.Invariant c (J i))
    {hexAddr : ℕ} {isWrite : Bool} (haccept : s.willAcceptTransaction c hexAddr isWrite) :
    Sound c J (s.addTransaction c hexAddr isWrite) := by
  constructor
  · intro i
    by_cases hi : i = c.getChannel hexAddr
    · subst hi
      obtain ⟨hgood, hJi⟩ := hs.good (c.getChannel hexAddr)
      rw [addTransaction_ctrls_self]
      exact ⟨hgood.addTransaction hexAddr isWrite, (hJ _).accept hexAddr isWrite hgood hJi haccept⟩
    · rw [addTransaction_ctrls_of_ne isWrite hi]
      exact hs.good i
  · refine (List.perm_append_singleton _ _).trans ?_
    refine (hs.accepted.cons _).trans ?_
    exact List.perm_middle.symm.trans
      ((outstanding_addTransaction s hexAddr isWrite).symm.append_left _)

theorem returns_tickControllers (hc : c.Plain) (hJ : ∀ i, Controller.Invariant c (J i))
    {ctrls : ℕ → Controller} (h : ∀ i, (ctrls i).Good c ∧ J i (ctrls i)) :
    Returns (tickControllers c ctrls) fun ctrls' => ∀ i, ((ctrls' i).Good c ∧ J i (ctrls' i)) ∧
      (ctrls' i).outstanding.Perm (ctrls i).outstanding := by
  refine .foldlM (fun i => ⟨h i, .refl _⟩) fun ctrls' i _ hctrls' => ?_
  obtain ⟨hgood, hJi⟩ := (hctrls' i).1
  refine (hgood.returns_clockTick hc (hJ i) hJi).bind fun k hk => .ok fun j => ?_
  by_cases hj : j = i
  · subst hj
    rw [update_self]
    exact ⟨⟨hk.1, hk.2.1⟩, hk.2.2.trans (hctrls' j).2⟩
  · rw [update_of_ne hj]
    exact hctrls' j

theorem returns_epochEnd (hc : c.Plain) : Returns (epochEnd c) fun _ => True :=
  ⟨(), if_neg hc.epoch_ne, trivial⟩

theorem Sound.returns_clockTick (hs : Sound c J s) (hc : c.Plain)
    (hJ : ∀ i, Controller.Invariant c (J i)) :
    Returns (s.clockTick c) (Sound c J) := by
  have hdone : ∀ i, (s.returnDone c i).Good c ∧ J i (s.returnDone c i) := fun i => by
    obtain ⟨hgood, hJi⟩ := hs.good i
    rw [returnDone]
    split_ifs
    · exact ⟨hgood.returnAll s.clk, (hJ i).same (Controller.sameDuties_returnAll _ _) hJi⟩
    · exact ⟨hgood, hJi⟩
  refine (returns_tickControllers hc hJ hdone).bind fun ctrls hctrls =>
    (returns_epochEnd hc).bind fun _ _ => .ok ⟨fun i => (hctrls i).1, ?_⟩
  have hchannels : ((List.range c.channels).flatMap fun i => (ctrls i).outstanding).Perm
      ((List.range c.channels).flatMap fun i => ((s.ctrls i).returnAll s.clk).2.outstanding) := by
    refine List.Perm.flatMap_left _ fun i hi => ?_
    have howed := (hctrls i).2
    rwa [returnDone, if_pos (List.mem_range.mp hi)] at howed
  have hreturned : (s.outstanding c).Perm (s.callbacks c ++
      (List.range c.channels).flatMap fun i => ((s.ctrls i).returnAll s.clk).2.outstanding) := by
    refine (List.Perm.flatMap_left _ fun i _ =>
      Controller.outstanding_returnAll (s.ctrls i) s.clk).trans ?_
    exact (List.flatMap_append_perm _ _ _).symm
  refine hs.accepted.trans ?_
  rw [List.append_assoc]
  exact (hreturned.trans (hchannels.symm.append_left _)).append_left _

theorem outstanding_clockTick (hs : Sound c J s) (hs' : Sound c J s')
    (h : s.clockTick c = .ok s') :
    (s.outstanding c).Perm (s.callbacks c ++ s'.outstanding c) := by
  obtain ⟨ctrls, -, h⟩ := Lib.bind_eq_ok.mp h
  obtain ⟨_, -, h⟩ := Lib.bind_eq_ok.mp h
  cases h
  have hrest := hs.accepted.symm.trans hs'.accepted
  rw [List.append_assoc] at hrest
  exact (List.perm_append_left_iff _).mp hrest

theorem Sound.step (hs : Sound c J s) (hc : c.Plain) (hJ : ∀ i, Controller.Invariant c (J i))
    {a : Action} (hstep : (dram c).step s a = some s') : Sound c J s' := by
  cases a with
  | addTransaction hexAddr isWrite =>
    change (if _ then some _ else none) = some s' at hstep
    split_ifs at hstep with haccept
    cases hstep
    exact hs.addTransaction hJ haccept
  | clockTick =>
    obtain ⟨t, ht, hsound⟩ := hs.returns_clockTick hc hJ
    change (s.clockTick c).toOption = some s' at hstep
    rw [ht] at hstep
    cases hstep
    exact hsound

/-- **The books are kept in every run**, with every invariant of the controllers that holds at its
start. -/
theorem Sound.run (hs : Sound c J s) (hc : c.Plain) (hJ : ∀ i, Controller.Invariant c (J i))
    {l : List Action} (h : (dram c).Run Lib.System.anyStep s l s') : Sound c J s' :=
  h.invariant (fun _ _ _ hs _ hstep => hs.step hc hJ hstep) hs

theorem sound_of_reaches (hc : c.Plain) (hJ : ∀ i, Controller.Invariant c (J i))
    (hinit : ∀ i, J i .init) (h : (dram c).Reaches Lib.System.anyStep s) : Sound c J s :=
  h.invariant (sound_init hinit) fun _ _ _ hs _ hstep => hs.step hc hJ hstep

theorem sound_true (hc : c.Plain) (h : (dram c).Reaches Lib.System.anyStep s) :
    Sound c (fun _ _ => True) s :=
  sound_of_reaches hc (fun _ => Controller.invariant_true) (fun _ => trivial) h

end JedecDRAMSystem

/-- **No tick ends the simulation.** Whatever transactions were accepted and however the ticks came
between them, the next tick of the DRAM clock neither aborts, nor reads past a vector, nor divides
by zero. -/
theorem clockTick_never_exits {c : Config} (hc : c.Plain) {s : JedecDRAMSystem}
    (h : (dram c).Reaches Lib.System.anyStep s) : ∃ s', s.clockTick c = .ok s' := by
  obtain ⟨s', hs', -⟩ := (JedecDRAMSystem.sound_true hc h).returns_clockTick hc
    fun _ => Controller.invariant_true
  exact ⟨s', hs'⟩

theorem plain_ddr4 : ddr4.Plain := ⟨rfl, rfl, by decide +kernel, by decide⟩

/-- Five reads of different banks of a rank, and sixty ticks. -/
def fiveReads : List Action :=
  ((List.range 5).map fun i => .addTransaction (8192 * i) false) ++ List.replicate 60 .clockTick

theorem clockTick_never_exits_ddr4 :
    ∃ s, (dram ddr4).Reaches Lib.System.anyStep s ∧ s.returned = [(0, false), (8192, false)] ∧
      ∃ s', s.clockTick ddr4 = .ok s' := by
  obtain ⟨s, hs, hreturned⟩ := Lib.System.exists_reaches (dram ddr4) Lib.System.anyStep
    (fun s => s.returned = [(0, false), (8192, false)]) fiveReads (by decide +kernel)
  exact ⟨s, hs, hreturned, clockTick_never_exits plain_ddr4 hs⟩

/-- **Every accepted transaction is called back at most once and never forgotten**: the callbacks so
far, together with those that the controllers still owe, are the accepted transactions. -/
theorem accepted_perm {c : Config} (hc : c.Plain) {s : JedecDRAMSystem}
    (h : (dram c).Reaches Lib.System.anyStep s) :
    s.accepted.Perm (s.returned ++ s.outstanding c) :=
  (JedecDRAMSystem.sound_true hc h).accepted

theorem accepted_perm_fiveReads :
    ∃ s, (dram ddr4).Reaches Lib.System.anyStep s ∧ s.returned = [(0, false), (8192, false)] ∧
      s.accepted.Perm (s.returned ++ s.outstanding ddr4) := by
  obtain ⟨s, hs, hreturned⟩ := Lib.System.exists_reaches (dram ddr4) Lib.System.anyStep
    (fun s => s.returned = [(0, false), (8192, false)]) fiveReads (by decide +kernel)
  exact ⟨s, hs, hreturned, accepted_perm plain_ddr4 hs⟩

end Beethoven.Dram
