import Mathlib.Data.List.Nodup
import Beethoven.Dram.Selection

/-!
# The books of a controller

The invariant of a controller that never uses self-refresh and issues one command in a cycle: the
banks are awake, the refreshes that wait are of banks and ranks of the memory, the command queues
hold column commands in their places, and every address with pending transactions of a kind has
exactly one transaction or command of that kind on its way to the banks. While it holds, no
operation ends the simulation: a command that is issued finds its transactions, and a command that
is erased is found.

The transactions that a controller owes an answer are those that it returns later and the reads that
wait for a column read. No cycle loses one or makes one up.
-/

namespace Beethoven.Dram

open Lib (Ensures Returns)
open Function

/-- No self-refresh, one command in a cycle, and nothing to divide by is zero. -/
structure Config.Plain (c : Config) : Prop where
  noSelfRefresh : c.enableSelfRefresh = false
  noDualCmd : c.enableHbmDualCmd = false
  interval_pos : 0 < c.refreshInterval
  epoch_ne : c.epochPeriod ≠ 0

namespace Controller

variable {c : Config} {k k' : Controller} {a : ℕ} {w : Bool} {t : Transaction}

/-! ### Transactions on their way -/

/-- The transactions in the transaction queues. -/
def waiting (k : Controller) : List Transaction := k.unifiedQueue ++ k.readQueue ++ k.writeBuffer

/-- The transactions and commands of an address and a kind on their way to the banks. -/
def queued (c : Config) (k : Controller) (w : Bool) (a : ℕ) : ℕ :=
  k.waiting.countP (fun t => t.addr = a && t.isWrite = w) +
    (k.cmdQueue.queues (c.queueOf (c.addressMapping a))).count (c.column a w)

/-- The pending transactions of a kind. -/
def pending (k : Controller) (w : Bool) : List Transaction :=
  if w then k.pendingWrQ else k.pendingRdQ

/-- The addresses of the pending transactions of a kind. -/
def pendingAddrs (k : Controller) (w : Bool) : List ℕ := (k.pending w).map (·.addr)

theorem pendingAddrs_true : k.pendingAddrs true = k.pendingWrQ.map (·.addr) := rfl

theorem pendingAddrs_false : k.pendingAddrs false = k.pendingRdQ.map (·.addr) := rfl

theorem pendingAddrs_congr (hrd : k'.pendingRdQ = k.pendingRdQ) (hwr : k'.pendingWrQ = k.pendingWrQ)
    (w : Bool) : k'.pendingAddrs w = k.pendingAddrs w := by
  cases w
  · rw [pendingAddrs_false, hrd, pendingAddrs_false]
  · rw [pendingAddrs_true, hwr, pendingAddrs_true]

/-- The books of a controller. -/
structure Good (c : Config) (k : Controller) : Prop where
  awake : k.channelState.Awake c
  refreshes : ∀ r ∈ k.channelState.refreshQ, c.Requests r ∧ r.cmdType.isRefresh
  noSref : k.channelState.rankIsSref = fun _ => false
  next : k.refresh.nextRank < c.ranks ∧ k.refresh.nextBg < c.bankgroups ∧
    k.refresh.nextBank < c.banksPerGroup
  placed : k.cmdQueue.Placed c
  queued : ∀ w a, k.queued c w a = if a ∈ k.pendingAddrs w then 1 else 0
  merged : (k.pendingAddrs true).Nodup
  reads : ∀ t ∈ k.pendingRdQ, t.isWrite = false

/-- The answers that the controller owes, each with its address and its kind. -/
def outstanding (k : Controller) : List (ℕ × Bool) :=
  (k.returnQueue ++ k.pendingRdQ).map fun t => (t.addr, t.isWrite)

theorem good_init : Good c .init := by
  refine ⟨fun b _ => .inr rfl, by simp [init, ChannelState.init], rfl,
    ⟨c.ranks_pos, c.bankgroups_pos, c.banksPerGroup_pos⟩, ⟨?_, ?_, ?_⟩, ?_, ?_, ?_⟩
  · simp [init, CommandQueue.init]
  · simp [init, CommandQueue.init]
  · simp [init, CommandQueue.init]
  · intro w a
    cases w <;> simp [Controller.queued, waiting, init, CommandQueue.init, pendingAddrs, pending]
  · simp [pendingAddrs, pending, init]
  · simp [init]

theorem Good.of_eq (hk : Good c k) (hch : k'.channelState = k.channelState)
    (hr : k'.refresh = k.refresh) (hq : k'.cmdQueue.queues = k.cmdQueue.queues)
    (hwaiting : k'.waiting = k.waiting) (hrd : k'.pendingRdQ = k.pendingRdQ)
    (hwr : k'.pendingWrQ = k.pendingWrQ) : Good c k' := by
  have hpending := pendingAddrs_congr hrd hwr
  refine ⟨hch ▸ hk.awake, hch ▸ hk.refreshes, hch ▸ hk.noSref, hr ▸ hk.next,
    hk.placed.of_queues hq, fun w a => ?_, hpending true ▸ hk.merged, hrd ▸ hk.reads⟩
  rw [Controller.queued, hwaiting, hq, hpending]
  exact hk.queued w a

theorem Good.record (hk : Good c k) (e : Event) : Good c (k.record e) :=
  hk.of_eq rfl rfl rfl rfl rfl rfl

theorem outstanding_record (k : Controller) (e : Event) :
    (k.record e).outstanding = k.outstanding := rfl

theorem countP_addr_eq_zero {l : List Transaction} :
    l.countP (·.addr = a) = 0 ↔ a ∉ l.map (·.addr) := by
  rw [List.countP_eq_zero, List.mem_map]
  simp only [decide_eq_true_eq, not_exists, not_and]

theorem waiting_enqueue (k : Controller) (t : Transaction) :
    (k.enqueue c t).waiting.Perm (t :: k.waiting) := by
  rw [enqueue]
  split_ifs
  · simp only [waiting, List.append_assoc, List.singleton_append]
    exact List.perm_middle
  · simp only [waiting, ← List.append_assoc]
    exact List.perm_append_singleton t _
  · simp only [waiting, List.append_assoc, List.singleton_append]
    rw [← List.append_assoc]
    refine List.perm_middle.trans ?_
    rw [List.append_assoc]

theorem queued_enqueue (k : Controller) (t : Transaction) (w : Bool) (a : ℕ) :
    (k.enqueue c t).queued c w a =
      k.queued c w a + if t.addr = a ∧ t.isWrite = w then 1 else 0 := by
  have hq : (k.enqueue c t).cmdQueue = k.cmdQueue := by
    rw [enqueue]
    split_ifs <;> rfl
  rw [Controller.queued, Controller.queued, hq, (waiting_enqueue k t).countP_eq, List.countP_cons]
  simp only [Bool.and_eq_true, decide_eq_true_eq]
  omega

theorem enqueue_frame (k : Controller) (t : Transaction) :
    (k.enqueue c t).channelState = k.channelState ∧ (k.enqueue c t).cmdQueue = k.cmdQueue ∧
      (k.enqueue c t).refresh = k.refresh ∧ (k.enqueue c t).pendingRdQ = k.pendingRdQ ∧
      (k.enqueue c t).pendingWrQ = k.pendingWrQ ∧
      (k.enqueue c t).returnQueue = k.returnQueue ∧ (k.enqueue c t).clk = k.clk ∧
      (k.enqueue c t).history = k.history := by
  rw [enqueue]
  split_ifs <;> exact ⟨rfl, rfl, rfl, rfl, rfl, rfl, rfl, rfl⟩

/-! ### New transactions -/

/-- A transaction that becomes pending. -/
def addPending (k : Controller) (t : Transaction) : Controller :=
  if t.isWrite then { k with pendingWrQ := k.pendingWrQ ++ [t] }
  else { k with pendingRdQ := k.pendingRdQ ++ [t] }

theorem pendingAddrs_addPending (k : Controller) (t : Transaction) (w : Bool) :
    (k.addPending t).pendingAddrs w =
      if w = t.isWrite then k.pendingAddrs w ++ [t.addr] else k.pendingAddrs w := by
  rw [addPending]
  cases hw : t.isWrite <;> cases w <;> simp [pendingAddrs, pending]

/-- The three ways in which a transaction is taken: it is answered at once because a write of its
address is pending, it is a write that is buffered and answered at once, or it is a read that
waits. -/
theorem addTransaction_of_mem (h : a ∈ k.pendingAddrs true) : k.addTransaction c a w =
    record { k with returnQueue := k.returnQueue ++ [⟨a, k.clk, k.clk + 1, w⟩] }
      (.accept a w true) := by
  have hcount : k.pendingWrQ.countP (·.addr = a) ≠ 0 := mt countP_addr_eq_zero.mp (not_not.mpr h)
  rw [addTransaction]
  cases w with
  | true => simp [hcount, Nat.pos_of_ne_zero hcount]
  | false => simp [Nat.pos_of_ne_zero hcount]

theorem addTransaction_write (h : a ∉ k.pendingAddrs true) : k.addTransaction c a true =
    let t : Transaction := ⟨a, k.clk, 0, true⟩
    record { (k.addPending t).enqueue c t with
      returnQueue := k.returnQueue ++ [{ t with completeCycle := k.clk + 1 }] }
      (.accept a true false) := by
  have hcount : k.pendingWrQ.countP (·.addr = a) = 0 := countP_addr_eq_zero.mpr h
  have hframe := (enqueue_frame (c := c) (k.addPending ⟨a, k.clk, 0, true⟩) ⟨a, k.clk, 0, true⟩)
  rw [addTransaction, if_pos rfl, if_pos hcount]
  simp only [addPending, if_true, hcount, lt_irrefl, decide_false] at hframe ⊢
  rw [hframe.2.2.2.2.2.1]

theorem addTransaction_read (h : a ∉ k.pendingAddrs true) : k.addTransaction c a false =
    let t : Transaction := ⟨a, k.clk, 0, false⟩
    record (if a ∈ k.pendingAddrs false then k.addPending t else (k.addPending t).enqueue c t)
      (.accept a false false) := by
  have hzero : k.pendingWrQ.countP (·.addr = a) = 0 := countP_addr_eq_zero.mpr h
  have hcount : ¬ 0 < k.pendingWrQ.countP (·.addr = a) := by omega
  rw [addTransaction, if_neg Bool.false_ne_true, if_neg hcount, decide_eq_false hcount]
  simp only [addPending, Bool.false_eq_true, if_false, List.countP_append, List.countP_singleton,
    decide_true, if_true, pendingAddrs_false]
  by_cases hmem : a ∈ k.pendingRdQ.map (·.addr)
  · have hpos : k.pendingRdQ.countP (·.addr = a) ≠ 0 :=
      mt countP_addr_eq_zero.mp (not_not.mpr hmem)
    rw [if_pos hmem, if_neg (by omega)]
  · rw [if_neg hmem, if_pos (by rw [countP_addr_eq_zero.mpr hmem])]

/-- A first transaction of an address and a kind is pending and on its way. -/
theorem Good.enqueue (hk : Good c k) (ht : t.addr ∉ k.pendingAddrs t.isWrite) :
    Good c ((k.addPending t).enqueue c t) := by
  obtain ⟨hch, hq, hr, hrd, hwr, -⟩ := enqueue_frame (c := c) (k.addPending t) t
  have hframe : (k.addPending t).channelState = k.channelState ∧
      (k.addPending t).cmdQueue = k.cmdQueue ∧ (k.addPending t).refresh = k.refresh := by
    rw [addPending]
    split_ifs <;> exact ⟨rfl, rfl, rfl⟩
  have hpending (w : Bool) : ((k.addPending t).enqueue c t).pendingAddrs w =
      (k.addPending t).pendingAddrs w := by
    cases w
    · rw [pendingAddrs_false, hrd, pendingAddrs_false]
    · rw [pendingAddrs_true, hwr, pendingAddrs_true]
  constructor
  · rw [hch, hframe.1]
    exact hk.awake
  · rw [hch, hframe.1]
    exact hk.refreshes
  · rw [hch, hframe.1]
    exact hk.noSref
  · rw [hr, hframe.2.2]
    exact hk.next
  · rw [hq, hframe.2.1]
    exact hk.placed
  · intro w a
    have hqueued : (k.addPending t).queued c w a = k.queued c w a := by
      rw [addPending]
      split_ifs <;> rfl
    rw [queued_enqueue, hqueued, hk.queued, hpending, pendingAddrs_addPending]
    by_cases hw : w = t.isWrite
    · subst hw
      by_cases ha : a = t.addr
      · subst ha
        simp [ht]
      · simp [ha, Ne.symm ha]
    · simp [hw, Ne.symm hw]
  · rw [hpending, pendingAddrs_addPending]
    split_ifs with hw
    · rw [← hw] at ht
      exact List.nodup_append.mpr ⟨hk.merged, by simp, fun x hx y hy hxy => by
        rw [List.mem_singleton.mp hy] at hxy
        exact ht (hxy ▸ hx)⟩
    · exact hk.merged
  · rw [hrd, addPending]
    split_ifs with hw
    · exact hk.reads
    · intro t' ht'
      rcases List.mem_append.mp ht' with ht' | ht'
      · exact hk.reads t' ht'
      · rw [List.mem_singleton.mp ht']
        simpa using hw

theorem Good.addPending_read (hk : Good c k) (hread : t.isWrite = false)
    (ht : t.addr ∈ k.pendingAddrs false) : Good c (k.addPending t) := by
  have hpend : k.addPending t = { k with pendingRdQ := k.pendingRdQ ++ [t] } := by
    rw [addPending, hread]
    rfl
  rw [hpend]
  refine ⟨hk.awake, hk.refreshes, hk.noSref, hk.next, hk.placed, fun w a => ?_, hk.merged,
    fun t' ht' => ?_⟩
  · refine (hk.queued w a).trans ?_
    cases w
    · rw [pendingAddrs_false, pendingAddrs_false, List.map_append, List.map_singleton]
      by_cases ha : a = t.addr
      · rw [pendingAddrs_false] at ht
        rw [ha, if_pos ht, if_pos (List.mem_append_left _ ht)]
      · simp [ha]
    · rfl
  · rcases List.mem_append.mp ht' with ht' | ht'
    · exact hk.reads t' ht'
    · rw [List.mem_singleton.mp ht', hread]

/-- **A new transaction keeps the books.** -/
theorem Good.addTransaction (hk : Good c k) (a : ℕ) (w : Bool) :
    Good c (k.addTransaction c a w) := by
  by_cases h : a ∈ k.pendingAddrs true
  · rw [addTransaction_of_mem h]
    exact hk.of_eq rfl rfl rfl rfl rfl rfl
  · cases w with
    | true =>
      rw [addTransaction_write h]
      have hnew := hk.enqueue (t := ⟨a, k.clk, 0, true⟩) h
      exact hnew.of_eq rfl rfl rfl rfl rfl rfl
    | false =>
      rw [addTransaction_read h]
      refine Good.record ?_ _
      split_ifs with hmem
      · exact hk.addPending_read rfl hmem
      · exact hk.enqueue hmem

theorem outstanding_addTransaction (k : Controller) (a : ℕ) (w : Bool) :
    (k.addTransaction c a w).outstanding.Perm ((a, w) :: k.outstanding) := by
  by_cases h : a ∈ k.pendingAddrs true
  · rw [addTransaction_of_mem h, outstanding_record]
    simp [outstanding]
  · cases w with
    | true =>
      rw [addTransaction_write h, outstanding_record]
      have hrd := (enqueue_frame (c := c) (k.addPending ⟨a, k.clk, 0, true⟩)
        ⟨a, k.clk, 0, true⟩).2.2.2.1
      simp only [outstanding, hrd]
      simp [addPending]
    | false =>
      have hpend : (k.addPending ⟨a, k.clk, 0, false⟩).outstanding.Perm
          ((a, false) :: k.outstanding) := by
        simp only [addPending, outstanding, Bool.false_eq_true, if_false, List.map_append,
          ← List.append_assoc, List.map_singleton]
        exact List.perm_append_singleton _ _
      rw [addTransaction_read h, outstanding_record]
      split_ifs
      · exact hpend
      · obtain ⟨-, -, -, hrd, -, hret, -⟩ := enqueue_frame (c := c)
          (k.addPending ⟨a, k.clk, 0, false⟩) ⟨a, k.clk, 0, false⟩
        rw [outstanding, hrd, hret]
        exact hpend

end Controller

/-! ### Refreshes -/

namespace Refresh

variable {c : Config} {ch : ChannelState} {r : Refresh}

/-- The next bank to refresh is in the memory. -/
def InMemory (c : Config) (r : Refresh) : Prop :=
  r.nextRank < c.ranks ∧ r.nextBg < c.bankgroups ∧ r.nextBank < c.banksPerGroup

theorem InMemory.iterateNext (h : r.InMemory c) : (r.iterateNext c).InMemory c := by
  obtain ⟨hr, hg, hb⟩ := h
  have hr' := Nat.mod_lt (r.nextRank + 1) c.ranks_pos
  have hg' := Nat.mod_lt (r.nextBg + 1) c.bankgroups_pos
  have hb' := Nat.mod_lt (r.nextBank + 1) c.banksPerGroup_pos
  rw [Refresh.iterateNext]
  split
  · exact ⟨hr, hg, hb⟩
  · exact ⟨hr', hg, hb⟩
  · dsimp only
    split_ifs
    · exact ⟨hr', hg', hb'⟩
    · exact ⟨hr, hg', hb'⟩
    · exact ⟨hr, hg', hb⟩

/-- A refresh counter asks for refreshes of ranks and banks of the memory, and changes nothing
else. -/
theorem insertRefresh_spec (h : r.InMemory c) : (r.insertRefresh c ch).2.InMemory c ∧
    ∃ new, (r.insertRefresh c ch).1 = { ch with refreshQ := ch.refreshQ ++ new } ∧
      ∀ x ∈ new, c.Requests x ∧ x.cmdType.isRefresh := by
  have hrank (i : ℕ) (hi : i < c.ranks) :
      ∃ new, ch.rankNeedRefresh i true = { ch with refreshQ := ch.refreshQ ++ new } ∧
        ∀ x ∈ new, c.Requests x ∧ x.cmdType.isRefresh := by
    refine ⟨_, rfl, fun x hx => ?_⟩
    obtain rfl := List.mem_singleton.mp hx
    exact ⟨.inr ⟨rfl, Int.natCast_nonneg i, Int.ofNat_lt.mpr hi⟩, rfl⟩
  have hnone : ∃ new, ch = { ch with refreshQ := ch.refreshQ ++ new } ∧
      ∀ x ∈ new, c.Requests x ∧ x.cmdType.isRefresh := ⟨[], by simp, by simp⟩
  rw [insertRefresh]
  split
  · split
    · exact ⟨h, hnone⟩
    · next i hi =>
      exact ⟨h, hrank i (List.mem_range.mp (List.mem_of_find?_eq_some hi))⟩
  · refine ⟨h.iterateNext, ?_⟩
    dsimp only
    split_ifs
    · exact hnone
    · exact hrank _ h.1
  · refine ⟨h.iterateNext, ?_⟩
    dsimp only
    split_ifs
    · exact hnone
    · refine ⟨_, rfl, fun x hx => ?_⟩
      obtain rfl := List.mem_singleton.mp hx
      exact ⟨.inl ⟨.inr rfl, ⟨Int.natCast_nonneg _, Int.ofNat_lt.mpr h.1⟩,
        ⟨Int.natCast_nonneg _, Int.ofNat_lt.mpr h.2.1⟩, Int.natCast_nonneg _,
        Int.ofNat_lt.mpr h.2.2⟩, rfl⟩

end Refresh

namespace Controller

variable {c : Config} {k k' : Controller} {a : ℕ} {w : Bool}

/-- **The refresh counter keeps the books.** -/
theorem Good.returns_tickRefresh (hk : Good c k) (hc : c.Plain) :
    Returns (k.tickRefresh c) fun k' => Good c k' ∧
      ∃ ch r, k' = { k with channelState := ch, refresh := r } := by
  have hcounter : Returns (k.refresh.clockTick c k.channelState) fun x => x.2.InMemory c ∧
      ∃ new, x.1 = { k.channelState with refreshQ := k.channelState.refreshQ ++ new } ∧
        ∀ r ∈ new, c.Requests r ∧ r.cmdType.isRefresh := by
    rw [Refresh.clockTick, if_neg hc.interval_pos.ne']
    split_ifs
    · exact .ok (Refresh.insertRefresh_spec hk.next)
    · exact .ok ⟨hk.next, [], by simp, by simp⟩
  refine hcounter.bind ?_
  rintro ⟨ch, r⟩ ⟨hnext, new, rfl, hnew⟩
  refine .ok ⟨⟨hk.awake, fun x hx => ?_, hk.noSref, hnext, hk.placed, hk.queued, hk.merged,
    hk.reads⟩, _, _, rfl⟩
  rcases List.mem_append.mp hx with hx | hx
  · exact hk.refreshes x hx
  · exact hnew x hx

/-! ### Commands -/

theorem column_injective {a' : ℕ} {w' : Bool} (h : c.column a w = c.column a' w') :
    a = a' ∧ w = w' := by
  refine ⟨congrArg Command.hexAddr h, ?_⟩
  rw [← c.isWrite_column a w, ← c.isWrite_column a' w', h]

theorem sublist_served (cmd : Command) (q : List Command) :
    (ChannelState.served cmd q).Sublist q := by
  rw [ChannelState.served]
  split
  · exact List.eraseP_sublist
  · exact List.eraseP_sublist
  · exact List.Sublist.refl q

theorem Good.returns_updateTimingAndStates (hk : Good c k) {cmd : Command}
    (hexec : k.channelState.Executable c cmd) :
    Returns (k.channelState.updateTimingAndStates c cmd k.clk) fun ch =>
      ch.Awake c ∧ (∀ r ∈ ch.refreshQ, c.Requests r ∧ r.cmdType.isRefresh) ∧
        ch.rankIsSref = k.channelState.rankIsSref ∧
        ch.refreshQ = ChannelState.served cmd k.channelState.refreshQ := by
  refine (ChannelState.returns_updateTimingAndStates hexec hk.awake).mono fun ch hch => ?_
  refine ⟨hch.1, fun r hr => ?_, hch.2⟩
  rw [hch.2.2] at hr
  exact hk.refreshes r ((sublist_served cmd _).subset hr)

/-- The two controllers differ in nothing but their clocks, their channels, their refresh counters
and what they return later. -/
structure SameBooks (k k' : Controller) : Prop where
  queues : k'.cmdQueue.queues = k.cmdQueue.queues
  unifiedQueue : k'.unifiedQueue = k.unifiedQueue
  readQueue : k'.readQueue = k.readQueue
  writeBuffer : k'.writeBuffer = k.writeBuffer
  pendingRdQ : k'.pendingRdQ = k.pendingRdQ
  pendingWrQ : k'.pendingWrQ = k.pendingWrQ
  writeDraining : k'.writeDraining = k.writeDraining
  history : k'.history = k.history

theorem SameBooks.refl (k : Controller) : SameBooks k k := ⟨rfl, rfl, rfl, rfl, rfl, rfl, rfl, rfl⟩

theorem SameBooks.trans {k'' : Controller} (h : SameBooks k k') (h' : SameBooks k' k'') :
    SameBooks k k'' :=
  ⟨h'.queues.trans h.queues, h'.unifiedQueue.trans h.unifiedQueue, h'.readQueue.trans h.readQueue,
    h'.writeBuffer.trans h.writeBuffer, h'.pendingRdQ.trans h.pendingRdQ,
    h'.pendingWrQ.trans h.pendingWrQ, h'.writeDraining.trans h.writeDraining,
    h'.history.trans h.history⟩

/-- The two controllers agree on the refreshes, too. -/
structure SameDuties (k k' : Controller) : Prop extends SameBooks k k' where
  refreshQ : k'.channelState.refreshQ = k.channelState.refreshQ
  refresh : k'.refresh = k.refresh

theorem SameDuties.refl (k : Controller) : SameDuties k k := ⟨.refl k, rfl, rfl⟩

theorem SameDuties.trans {k'' : Controller} (h : SameDuties k k') (h' : SameDuties k' k'') :
    SameDuties k k'' :=
  ⟨h.toSameBooks.trans h'.toSameBooks, h'.refreshQ.trans h.refreshQ, h'.refresh.trans h.refresh⟩

/-- What a command changes at its controller, apart from the banks: the pending transactions of its
address and kind are served, and a refresh no longer waits. -/
structure Served (c : Config) (k k' : Controller) (cmd : Command) : Prop where
  queues : k'.cmdQueue.queues = k.cmdQueue.queues
  unifiedQueue : k'.unifiedQueue = k.unifiedQueue
  readQueue : k'.readQueue = k.readQueue
  writeBuffer : k'.writeBuffer = k.writeBuffer
  writeDraining : k'.writeDraining = k.writeDraining
  history : k'.history = k.history ++ [.issue k.clk cmd]
  refreshQ : k'.channelState.refreshQ = ChannelState.served cmd k.channelState.refreshQ
  refresh : k'.refresh = k.refresh
  pendingAddrs : ∀ w a, a ∈ k'.pendingAddrs w ↔ a ∈ k.pendingAddrs w ∧ cmd ≠ c.column a w
  outstanding : k'.outstanding.Perm k.outstanding

/-- A command that opens or closes a row, or a refresh, is issued. -/
theorem Good.returns_issueRow (hk : Good c k) {cmd : Command} {q : CommandQueue}
    (hq : q.queues = k.cmdQueue.queues) (hcmd : ¬ cmd.cmdType.isReadWrite)
    (hexec : k.channelState.Executable c cmd) :
    Returns (issueCommand c { k with cmdQueue := q } cmd) fun k' => Good c k' ∧
      Served c { k with cmdQueue := q } k' cmd := by
  have hread : ¬ cmd.cmdType.isRead := fun h => hcmd (by rw [CommandType.isReadWrite, h]; rfl)
  have hwrite : ¬ cmd.cmdType.isWrite := fun h => hcmd (by simp [CommandType.isReadWrite, h])
  refine Returns.bind (P := (· = { k with cmdQueue := q })) ?_ ?_
  · rw [serve, if_neg hread, if_neg hwrite]
    exact .ok rfl
  · rintro _ rfl
    have hcolumn (w : Bool) (a : ℕ) : cmd ≠ c.column a w := by
      rintro rfl
      exact hcmd (c.isReadWrite_column a w)
    refine (hk.returns_updateTimingAndStates hexec).bind fun ch hch => .ok ⟨?_, rfl, rfl, rfl, rfl,
      rfl, rfl, hch.2.2.2, rfl, fun w a => (and_iff_left (hcolumn w a)).symm, .refl _⟩
    refine Good.record ?_ _
    refine ⟨hch.1, hch.2.1, ?_, hk.next, hk.placed.of_queues hq, fun w a => ?_, hk.merged, hk.reads⟩
    · rw [hch.2.2.1]
      exact hk.noSref
    · refine Eq.trans ?_ (hk.queued w a)
      simp only [Controller.queued, waiting, hq]

/-- The pending transactions after a column command: none of its address and kind. -/
theorem Good.returns_serve (hk : Good c k) (hmem : a ∈ k.pendingAddrs w) (q : CommandQueue) :
    Returns (serve c { k with cmdQueue := q } (c.column a w)) fun k' =>
      k'.outstanding.Perm k.outstanding ∧ (∀ w' a', a' ∈ k'.pendingAddrs w' ↔
        a' ∈ k.pendingAddrs w' ∧ ¬ (w' = w ∧ a' = a)) ∧ (k'.pendingAddrs true).Nodup ∧
      (∀ t ∈ k'.pendingRdQ, t.isWrite = false) ∧
      ∃ rd wr ret, k' = { k with
        cmdQueue := q, pendingRdQ := rd, pendingWrQ := wr, returnQueue := ret } := by
  rw [serve, c.isRead_column, c.isWrite_column, c.column_hexAddr]
  cases w with
  | false =>
    simp only [Bool.not_false, if_true, List.partition_eq_filter_filter]
    have hne : k.pendingRdQ.filter (·.addr = a) ≠ [] := by
      obtain ⟨t, ht, rfl⟩ := List.mem_map.mp hmem
      exact List.ne_nil_of_mem (List.mem_filter.mpr ⟨ht, by simp⟩)
    rw [if_neg hne]
    refine .ok ⟨?_, ?_, hk.merged, fun t ht => hk.reads t (List.mem_filter.mp ht).1, _, _, _, rfl⟩
    · simp only [outstanding, List.map_append, List.map_map, List.append_assoc]
      refine List.Perm.append_left _ ?_
      have hperm := (List.filter_append_perm (fun t : Transaction => decide (t.addr = a))
        k.pendingRdQ).map fun t => (t.addr, t.isWrite)
      rw [List.map_append] at hperm
      exact hperm
    · intro w' a'
      cases w' with
      | true => simp [pendingAddrs, pending]
      | false =>
        simp only [pendingAddrs_false, List.mem_map, List.mem_filter]
        constructor
        · rintro ⟨t, ⟨ht, hne⟩, rfl⟩
          exact ⟨⟨t, ht, rfl⟩, by simpa using hne⟩
        · rintro ⟨⟨t, ht, rfl⟩, hne⟩
          exact ⟨t, ⟨ht, by simpa using hne⟩, rfl⟩
  | true =>
    have hany : k.pendingWrQ.any (·.addr = a) := by
      obtain ⟨t, ht, rfl⟩ := List.mem_map.mp hmem
      exact List.any_eq_true.mpr ⟨t, ht, by simp⟩
    simp only [Bool.not_true, Bool.false_eq_true, if_false, if_true, hany]
    -- the addresses of the pending writes are different, so that erasing one erases its address
    have hmap : (k.pendingWrQ.eraseP (·.addr = a)).map (·.addr) =
        (k.pendingWrQ.map (·.addr)).erase a := by
      rw [List.erase_eq_eraseP, List.eraseP_map]
      congr 2
      funext t
      exact decide_eq_decide.mpr eq_comm
    have hnodup : (k.pendingWrQ.map (·.addr)).Nodup := hk.merged
    refine .ok ⟨List.Perm.refl _, ?_, ?_, hk.reads, _, _, _, rfl⟩
    · intro w' a'
      cases w' with
      | false => simp [pendingAddrs, pending]
      | true =>
        rw [pendingAddrs_true, pendingAddrs_true, hmap, hnodup.mem_erase_iff]
        simp [and_comm]
    · rw [pendingAddrs_true, hmap]
      exact hnodup.erase a

theorem sublist_taken {pre post : List Command} {q : CommandQueue}
    (hqueue : k.cmdQueue.queues (c.queueOf (c.addressMapping a)) = pre ++ c.column a w :: post)
    (hq : q.queues = update k.cmdQueue.queues (c.queueOf (c.addressMapping a))
      (pre ++ post)) (i : ℤ) : (q.queues i).Sublist (k.cmdQueue.queues i) := by
  rw [hq]
  by_cases hi : i = c.queueOf (c.addressMapping a)
  · rw [hi, update_self, hqueue]
    exact List.Sublist.append_left (List.sublist_cons_self _ _) pre
  · rw [update_of_ne hi]

/-- The commands on their way after a column command was taken out of its queue. -/
theorem queued_taken {pre post : List Command} {q : CommandQueue}
    (hqueue : k.cmdQueue.queues (c.queueOf (c.addressMapping a)) = pre ++ c.column a w :: post)
    (hq : q.queues = update k.cmdQueue.queues (c.queueOf (c.addressMapping a))
      (pre ++ post)) (w' : Bool) (a' : ℕ) :
    Controller.queued c { k with cmdQueue := q } w' a' + (if w' = w ∧ a' = a then 1 else 0) =
      k.queued c w' a' := by
  simp only [Controller.queued, waiting, hq]
  by_cases hidx : c.queueOf (c.addressMapping a') = c.queueOf (c.addressMapping a)
  · rw [hidx, update_self, hqueue, List.count_append, List.count_append, List.count_cons]
    by_cases hsame : w' = w ∧ a' = a
    · obtain ⟨rfl, rfl⟩ := hsame
      simp
      omega
    · have hne : c.column a w ≠ c.column a' w' := fun h => by
        obtain ⟨rfl, rfl⟩ := column_injective h
        exact hsame ⟨rfl, rfl⟩
      simp [hsame, hne]
  · rw [update_of_ne hidx, if_neg fun h => hidx (by rw [h.2])]
    omega

theorem Good.mem_pendingAddrs (hk : Good c k) {pre post : List Command}
    (hqueue : k.cmdQueue.queues (c.queueOf (c.addressMapping a)) = pre ++ c.column a w :: post) :
    a ∈ k.pendingAddrs w := by
  have hcount := hk.queued w a
  by_contra hnot
  rw [if_neg hnot, Controller.queued, hqueue, List.count_append, List.count_cons_self] at hcount
  omega

theorem Good.returns_issueColumn (hk : Good c k) {q : CommandQueue} {pre post : List Command}
    (hqueue : k.cmdQueue.queues (c.queueOf (c.addressMapping a)) = pre ++ c.column a w :: post)
    (hq : q.queues = update k.cmdQueue.queues (c.queueOf (c.addressMapping a))
      (pre ++ post)) (hexec : k.channelState.Executable c (c.column a w)) :
    Returns (issueCommand c { k with cmdQueue := q } (c.column a w)) fun k' => Good c k' ∧
      Served c { k with cmdQueue := q } k' (c.column a w) := by
  have hmem := hk.mem_pendingAddrs hqueue
  refine (hk.returns_serve hmem q).bind ?_
  rintro _ ⟨hout, hpending, hmerged, hreads, rd, wr, ret, rfl⟩
  have hserved (w' : Bool) (a' : ℕ) : ¬ (w' = w ∧ a' = a) ↔ c.column a w ≠ c.column a' w' := by
    refine not_congr ⟨fun h => by rw [h.1, h.2], fun h => ?_⟩
    obtain ⟨rfl, rfl⟩ := column_injective h
    exact ⟨rfl, rfl⟩
  refine (hk.returns_updateTimingAndStates hexec).bind fun ch hch => .ok ⟨?_, rfl, rfl, rfl, rfl,
    rfl, rfl, hch.2.2.2, rfl,
    fun w' a' => (hpending w' a').trans (and_congr_right' (hserved w' a')), hout⟩
  refine Good.record ?_ _
  refine ⟨hch.1, hch.2.1, ?_, hk.next, hk.placed.of_sublist (sublist_taken hqueue hq),
    fun w' a' => ?_, hmerged, hreads⟩
  · rw [hch.2.2.1]
    exact hk.noSref
  · have htaken := queued_taken hqueue hq w' a'
    have hbefore := hk.queued w' a'
    change Controller.queued c { k with cmdQueue := q } w' a' =
      if a' ∈ pendingAddrs { k with
        cmdQueue := q, pendingRdQ := rd, pendingWrQ := wr, returnQueue := ret } w' then 1 else 0
    rw [if_congr (hpending w' a') rfl rfl]
    by_cases hsame : w' = w ∧ a' = a
    · have hone : k.queued c w' a' = 1 := by
        rw [hbefore, if_pos (by rw [hsame.1, hsame.2]; exact hmem)]
      rw [if_neg fun h => h.2 hsame]
      rw [if_pos hsame] at htaken
      omega
    · rw [if_neg hsame] at htaken
      rw [if_congr (and_iff_left hsame) rfl rfl, ← hbefore]
      omega

/-- **The command that was picked is issued**, and the books are kept. -/
theorem Good.returns_issueCommand (hk : Good c k) {cmd : Command}
    (hpicked : Picked c k (some cmd) k') : Returns (k'.issueCommand c cmd) fun k'' =>
      Good c k'' ∧ Served c k' k'' cmd := by
  cases hpicked with
  | row hq hclk hcmd hexec hrefresh => exact hk.returns_issueRow hq hcmd hexec
  | column hqueue hq hclk hexec hdep => exact hk.returns_issueColumn hqueue hq hexec

theorem outstanding_of_picked {cmd : Option Command} (hpicked : Picked c k cmd k') :
    k'.outstanding = k.outstanding := by
  cases hpicked <;> rfl

theorem Good.of_picked_none (hk : Good c k) (hpicked : Picked c k none k') :
    Good c k' ∧ SameDuties k k' := by
  cases hpicked with
  | none hq hclk =>
    exact ⟨hk.of_eq rfl rfl hq rfl rfl rfl, ⟨hq, rfl, rfl, rfl, rfl, rfl, rfl, rfl⟩, rfl, rfl⟩

theorem Good.countIdle (hk : Good c k) (i : ℕ) : Good c (countIdle c k i) := by
  rw [Controller.countIdle]
  split_ifs
  · exact hk
  · exact ⟨hk.awake, hk.refreshes, hk.noSref, hk.next, hk.placed, hk.queued, hk.merged, hk.reads⟩
  · exact ⟨hk.awake, hk.refreshes, hk.noSref, hk.next, hk.placed, hk.queued, hk.merged, hk.reads⟩

theorem countIdle_frame (i : ℕ) :
    SameDuties k (countIdle c k i) ∧ (countIdle c k i).outstanding = k.outstanding := by
  rw [countIdle]
  split_ifs <;> exact ⟨⟨⟨rfl, rfl, rfl, rfl, rfl, rfl, rfl, rfl⟩, rfl, rfl⟩, rfl⟩

theorem Good.countIdles (hk : Good c k) (l : List ℕ) :
    Good c (l.foldl (Controller.countIdle c) k) ∧
      SameDuties k (l.foldl (Controller.countIdle c) k) ∧
      (l.foldl (Controller.countIdle c) k).outstanding = k.outstanding := by
  induction l generalizing k with
  | nil => exact ⟨hk, .refl k, rfl⟩
  | cons i l ih =>
    obtain ⟨hgood, hsame, hout⟩ := ih (hk.countIdle i)
    obtain ⟨hsame', hout'⟩ := countIdle_frame (c := c) (k := k) i
    exact ⟨hgood, hsame'.trans hsame, hout.trans hout'⟩

/-! ### Scheduling -/

/-- The command queue of an address has room. -/
def HasRoom (c : Config) (k : Controller) (a : ℕ) : Prop :=
  (k.cmdQueue.queues (c.queueOf (c.addressMapping a))).length < c.cmdQueueSize

instance (c : Config) (k : Controller) (a : ℕ) : Decidable (k.HasRoom c a) :=
  inferInstanceAs (Decidable (_ < _))

/-- What `scheduleTransaction` does with the first transaction whose command queue has room: a write
that is not in a unified queue and has a pending read of its address ends the draining of writes,
and any other transaction moves to the end of its command queue. -/
inductive Scheduled (c : Config) (k : Controller) : Controller → Prop
  | full (hfull : ∀ t ∈ k.scheduled c, ¬ k.HasRoom c t.addr) : Scheduled c k k
  | blocked {before after : List Transaction} {t : Transaction}
      (hsched : k.scheduled c = before ++ t :: after)
      (hfull : ∀ t' ∈ before, ¬ k.HasRoom c t'.addr) (hroom : k.HasRoom c t.addr)
      (hc : c.unifiedQueue = false) (hwrite : t.isWrite = true)
      (hread : t.addr ∈ k.pendingAddrs false) : Scheduled c k { k with writeDraining := 0 }
  | move {before after : List Transaction} {t : Transaction} {q : CommandQueue} (d : ℤ)
      (hsched : k.scheduled c = before ++ t :: after)
      (hfull : ∀ t' ∈ before, ¬ k.HasRoom c t'.addr) (hroom : k.HasRoom c t.addr)
      (hq : q.queues = update k.cmdQueue.queues (c.queueOf (c.addressMapping t.addr))
        (k.cmdQueue.queues (c.queueOf (c.addressMapping t.addr)) ++ [c.column t.addr t.isWrite]))
      (hclk : q.clk = k.cmdQueue.clk)
      (hdep : c.unifiedQueue = false → t.isWrite = true → t.addr ∉ k.pendingAddrs false) :
      Scheduled c k { k.setScheduled c (before ++ after) with cmdQueue := q, writeDraining := d }

theorem HasRoom.queueOf_ne {a' : ℕ} (h : k.HasRoom c a) (h' : ¬ k.HasRoom c a') :
    c.queueOf (c.addressMapping a') ≠ c.queueOf (c.addressMapping a) := by
  intro heq
  rw [HasRoom, heq] at h'
  exact h' h

theorem getQueue_column (q : CommandQueue) (a : ℕ) :
    q.getQueue c (c.queueOf (c.addressMapping a)) =
      .ok (q.queues (c.queueOf (c.addressMapping a))) :=
  if_pos (Config.hasQueue_queueOf (c.hasBank_addressMapping a))

theorem willAcceptCommand_column (q : CommandQueue) (a : ℕ) :
    q.willAcceptCommand c (c.addressMapping a).rank (c.addressMapping a).bankgroup
      (c.addressMapping a).bank = .ok (decide ((q.queues (c.queueOf (c.addressMapping a))).length <
        c.cmdQueueSize)) :=
  Lib.bind_eq_ok.mpr ⟨_, getQueue_column q a, rfl⟩

theorem returns_addCommand (q : CommandQueue) (a : ℕ) (w : Bool)
    (hroom : (q.queues (c.queueOf (c.addressMapping a))).length < c.cmdQueueSize) :
    Returns (q.addCommand c (c.column a w)) fun q' => q'.queues =
      update q.queues (c.queueOf (c.addressMapping a))
        (q.queues (c.queueOf (c.addressMapping a)) ++ [c.column a w]) ∧ q'.clk = q.clk := by
  refine Returns.bind (P := (· = q.queues (c.queueOf (c.addressMapping a))))
    ⟨_, getQueue_column q a, rfl⟩ ?_
  rintro _ rfl
  rw [if_pos hroom]
  exact .ok ⟨rfl, rfl⟩

/-- **A transaction is scheduled**, or none. -/
theorem returns_scheduleLoop {before rest : List Transaction}
    (hsched : k.scheduled c = before ++ rest) (hfull : ∀ t' ∈ before, ¬ k.HasRoom c t'.addr) :
    Returns (k.scheduleLoop c before rest) (Scheduled c k) := by
  induction rest generalizing before with
  | nil =>
    rw [List.append_nil] at hsched
    exact .ok (.full (hsched ▸ hfull))
  | cons t after ih =>
    have hcmd : transToCommand c t = c.column t.addr t.isWrite := rfl
    simp only [scheduleLoop, hcmd, c.column_addr, willAcceptCommand_column]
    change Returns (if decide (k.HasRoom c t.addr) = true then _ else _) _
    by_cases hroom : k.HasRoom c t.addr
    · rw [if_pos (decide_eq_true hroom), c.isWrite_column]
      split_ifs with hwrite hread
      · simp only [Bool.and_eq_true, Bool.not_eq_true'] at hwrite
        refine .ok (.blocked hsched hfull hroom hwrite.1 hwrite.2 ?_)
        by_contra hmem
        exact hread.ne' (countP_addr_eq_zero.mpr hmem)
      · refine (returns_addCommand k.cmdQueue t.addr t.isWrite hroom).bind fun q hq => ?_
        refine .ok (.move _ hsched hfull hroom hq.1 hq.2 fun _ _ hmem => hread ?_)
        exact Nat.pos_of_ne_zero (mt countP_addr_eq_zero.mp (not_not.mpr hmem))
      · refine (returns_addCommand k.cmdQueue t.addr t.isWrite hroom).bind fun q hq => ?_
        refine .ok (.move _ hsched hfull hroom hq.1 hq.2 fun hunified hw => ?_)
        simp [hunified, hw] at hwrite
    · rw [if_neg (by simpa using hroom)]
      refine ih (by rw [hsched, List.append_assoc, List.singleton_append]) fun t' ht' => ?_
      rcases List.mem_append.mp ht' with ht' | ht'
      · exact hfull t' ht'
      · rw [List.mem_singleton.mp ht']
        exact hroom

theorem waiting_setScheduled {before after : List Transaction} {t : Transaction}
    (h : k.scheduled c = before ++ t :: after) :
    k.waiting.Perm (t :: (k.setScheduled c (before ++ after)).waiting) := by
  rw [scheduled] at h
  rw [setScheduled]
  split_ifs at h ⊢
  · simp only [waiting, h, List.append_assoc, List.cons_append]
    exact List.perm_middle
  · simp only [waiting, h, ← List.append_assoc]
    exact List.perm_middle
  · simp only [waiting, h, List.append_assoc, List.cons_append]
    rw [← List.append_assoc, ← List.append_assoc]
    exact List.perm_middle

theorem setScheduled_frame (k : Controller) (l : List Transaction) :
    (k.setScheduled c l).channelState = k.channelState ∧
      (k.setScheduled c l).cmdQueue = k.cmdQueue ∧ (k.setScheduled c l).refresh = k.refresh ∧
      (k.setScheduled c l).pendingRdQ = k.pendingRdQ ∧
      (k.setScheduled c l).pendingWrQ = k.pendingWrQ ∧
      (k.setScheduled c l).returnQueue = k.returnQueue ∧ (k.setScheduled c l).clk = k.clk ∧
      (k.setScheduled c l).history = k.history := by
  rw [setScheduled]
  split_ifs <;> exact ⟨rfl, rfl, rfl, rfl, rfl, rfl, rfl, rfl⟩

theorem perm_update_append (queues : ℤ → List Command) (cmd : Command) (i j : ℤ) :
    (update queues j (queues j ++ [cmd]) i).Perm
      (if i = j then cmd :: queues i else queues i) := by
  by_cases h : i = j
  · rw [h, update_self, if_pos rfl]
    exact List.perm_append_singleton cmd _
  · rw [update_of_ne h, if_neg h]

theorem placed_append {q q' : CommandQueue} {w : Bool} (h : q.Placed c)
    (hnot : c.column a w ∉ q.queues (c.queueOf (c.addressMapping a)))
    (hq : q'.queues = update q.queues (c.queueOf (c.addressMapping a))
      (q.queues (c.queueOf (c.addressMapping a)) ++ [c.column a w])) : q'.Placed c := by
  have hmem {i : ℤ} {cmd : Command} (hcmd : cmd ∈ q'.queues i) :
      cmd ∈ q.queues i ∨ i = c.queueOf (c.addressMapping a) ∧ cmd = c.column a w := by
    rw [hq, (perm_update_append ..).mem_iff] at hcmd
    split_ifs at hcmd with hi
    · exact (List.mem_cons.mp hcmd).symm.imp id fun h => ⟨hi, h⟩
    · exact .inl hcmd
  refine ⟨fun i cmd hcmd => ?_, fun i cmd hcmd => ?_, fun i => ?_⟩
  · rcases hmem hcmd with hcmd | ⟨-, rfl⟩
    · exact h.column i cmd hcmd
    · exact ⟨w, rfl⟩
  · rcases hmem hcmd with hcmd | ⟨rfl, rfl⟩
    · exact h.queueOf i cmd hcmd
    · rfl
  · rw [hq, (perm_update_append ..).nodup_iff]
    split_ifs with hi
    · exact List.nodup_cons.mpr ⟨hi ▸ hnot, h.nodup i⟩
    · exact h.nodup i

/-- A waiting transaction is the only one of its address and kind on its way. -/
theorem Good.notMem_of_scheduled (hk : Good c k) {before after : List Transaction} {t : Transaction}
    (h : k.scheduled c = before ++ t :: after) :
    c.column t.addr t.isWrite ∉ k.cmdQueue.queues (c.queueOf (c.addressMapping t.addr)) := by
  intro hmem
  have hone := hk.queued t.isWrite t.addr
  have hpos := List.count_pos_iff.mpr hmem
  rw [Controller.queued, (waiting_setScheduled h).countP_eq, List.countP_cons] at hone
  simp only [decide_true, Bool.and_self, if_true] at hone
  split_ifs at hone
  · omega
  · omega

/-- **Scheduling keeps the books.** -/
theorem Good.scheduled (hk : Good c k) (h : Scheduled c k k') :
    Good c k' ∧ k'.outstanding = k.outstanding := by
  cases h with
  | full hfull => exact ⟨hk, rfl⟩
  | blocked hsched hfull hroom hc hwrite hread =>
    exact ⟨hk.of_eq rfl rfl rfl rfl rfl rfl, rfl⟩
  | @move before after t q d hsched hfull hroom hq hclk hdep =>
    obtain ⟨hch, -, hr, hrd, hwr, hret, -⟩ := setScheduled_frame (c := c) k (before ++ after)
    have hpending (w : Bool) : pendingAddrs { k.setScheduled c (before ++ after) with
        cmdQueue := q, writeDraining := d } w = k.pendingAddrs w := pendingAddrs_congr hrd hwr w
    have hqueued (w : Bool) (a : ℕ) : Controller.queued c { k.setScheduled c (before ++ after) with
        cmdQueue := q, writeDraining := d } w a = k.queued c w a := by
      change (k.setScheduled c (before ++ after)).waiting.countP _ + List.count _ (q.queues _) =
        k.waiting.countP _ + _
      rw [(waiting_setScheduled hsched).countP_eq, List.countP_cons, hq,
        (perm_update_append ..).count_eq]
      by_cases hsame : t.addr = a ∧ t.isWrite = w
      · obtain ⟨rfl, rfl⟩ := hsame
        simp
        omega
      · have hne : c.column t.addr t.isWrite ≠ c.column a w := fun h => hsame (column_injective h)
        rw [if_neg (c := _ = true) (by simpa using hsame), Nat.add_zero]
        split_ifs
        · rw [List.count_cons_of_ne hne]
        · rfl
    refine ⟨⟨?_, ?_, ?_, ?_, placed_append hk.placed (hk.notMem_of_scheduled hsched) hq,
      fun w a => ?_, ?_, ?_⟩, ?_⟩
    · rw [hch]
      exact hk.awake
    · rw [hch]
      exact hk.refreshes
    · rw [hch]
      exact hk.noSref
    · rw [hr]
      exact hk.next
    · rw [hqueued, hpending]
      exact hk.queued w a
    · rw [hpending]
      exact hk.merged
    · rw [hrd]
      exact hk.reads
    · simp only [outstanding, hret, hrd]

theorem startDraining_eq (c : Config) (k : Controller) :
    ∃ d, k.startDraining c = { k with writeDraining := d } := by
  rw [startDraining]
  split_ifs
  · exact ⟨_, rfl⟩
  · exact ⟨k.writeDraining, rfl⟩

theorem returns_scheduleTransaction :
    Returns (k.scheduleTransaction c) (Scheduled c (k.startDraining c)) :=
  returns_scheduleLoop rfl (by simp)

theorem Good.returns_scheduleTransaction (hk : Good c k) :
    Returns (k.scheduleTransaction c) fun k' => Good c k' ∧ Scheduled c (k.startDraining c) k' ∧
      k'.outstanding = k.outstanding := by
  refine Controller.returns_scheduleTransaction.mono fun k' hk' => ?_
  obtain ⟨d, hd⟩ := startDraining_eq c k
  have hgood : Good c (k.startDraining c) := by
    rw [hd]
    exact hk.of_eq rfl rfl rfl rfl rfl rfl
  obtain ⟨hgood', hout⟩ := hgood.scheduled hk'
  refine ⟨hgood', hk', hout.trans ?_⟩
  rw [hd]
  rfl

/-! ### A cycle -/

theorem sameBooks_tickRefresh (h : k.tickRefresh c = .ok k') : SameBooks k k' := by
  obtain ⟨⟨ch, r⟩, -, h⟩ := Lib.bind_eq_ok.mp h
  cases h
  exact ⟨rfl, rfl, rfl, rfl, rfl, rfl, rfl, rfl⟩

/-- A property of a controller that none of its operations ends, and that is about the books and
the refreshes only. -/
structure Invariant (c : Config) (J : Controller → Prop) : Prop where
  same : ∀ {k k'}, SameDuties k k' → J k → J k'
  accept : ∀ {k} a w, Good c k → J k → k.willAcceptTransaction c w → J (k.addTransaction c a w)
  refresh : ∀ {k k'}, Good c k → J k → k.tickRefresh c = .ok k' → J k'
  issue : ∀ {k k' k'' cmd}, Good c k → J k → Picked c k (some cmd) k' → Served c k' k'' cmd → J k''
  schedule : ∀ {k k'}, Good c k → J k → Scheduled c (k.startDraining c) k' → J k'

theorem invariant_true : Invariant c fun _ => True :=
  ⟨fun _ _ => trivial, fun _ _ _ _ _ => trivial, fun _ _ _ => trivial, fun _ _ _ _ => trivial,
    fun _ _ _ => trivial⟩

variable {J : Controller → Prop}

theorem Good.returns_issueCommands (hk : Good c k) (hc : c.Plain) (hJ : Invariant c J)
    (h : J k) : Returns (k.issueCommands c) fun k' => Good c k' ∧ J k' ∧
      k'.outstanding.Perm k.outstanding := by
  refine (returns_nextCommand hk.placed hk.awake hk.refreshes).bind ?_
  rintro ⟨cmd, k₁⟩ hpicked
  have hout₁ : k₁.outstanding = k.outstanding := outstanding_of_picked hpicked
  cases cmd with
  | none =>
    obtain ⟨hgood, hsame⟩ := hk.of_picked_none hpicked
    obtain ⟨hgood', hsame', hout'⟩ := hgood.countIdles (List.range c.ranks)
    simp only [hc.noSelfRefresh, Bool.false_eq_true, if_false]
    exact .ok ⟨hgood', hJ.same (hsame.trans hsame') h, by rw [hout', hout₁]⟩
  | some cmd =>
    refine (hk.returns_issueCommand hpicked).bind fun k₂ hk₂ => ?_
    simp only [hc.noDualCmd, Bool.false_eq_true, if_false]
    obtain ⟨hgood, hsame, hout⟩ := hk₂.1.countIdles (List.range c.ranks)
    refine .ok ⟨hgood, hJ.same hsame (hJ.issue hk h hpicked hk₂.2), ?_⟩
    rw [hout, ← hout₁]
    exact hk₂.2.outstanding

/-- **A cycle keeps the books**: it does not end the simulation, no invariant is broken, and no
answer that is owed is lost or made up. -/
theorem Good.returns_clockTick (hk : Good c k) (hc : c.Plain) (hJ : Invariant c J) (h : J k) :
    Returns (k.clockTick c) fun k' => Good c k' ∧ J k' ∧ k'.outstanding.Perm k.outstanding := by
  obtain ⟨k₁, hrefresh, hk₁, ch, r, rfl⟩ := hk.returns_tickRefresh hc
  rw [clockTick, hrefresh]
  have h₁ := hJ.refresh hk h hrefresh
  refine (hk₁.returns_issueCommands hc hJ h₁).bind fun k₂ hk₂ => ?_
  obtain ⟨hgood₂, h₂, hout₂⟩ := hk₂
  refine hgood₂.returns_scheduleTransaction.bind fun k₃ hk₃ => ?_
  obtain ⟨hgood, hsched, hout⟩ := hk₃
  refine .ok ⟨hgood.of_eq rfl rfl rfl rfl rfl rfl, ?_, ?_⟩
  · refine hJ.same (k := k₃) ?_ (hJ.schedule hgood₂ h₂ hsched)
    exact ⟨⟨rfl, rfl, rfl, rfl, rfl, rfl, rfl, rfl⟩, rfl, rfl⟩
  · rw [← hout] at hout₂
    exact hout₂

end Controller

end Beethoven.Dram
