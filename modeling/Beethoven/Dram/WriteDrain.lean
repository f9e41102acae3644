import Beethoven.Dram.Coherence

/-!
# A read that never returns

With separate queues, a full write buffer is drained before any read is scheduled, and a write at
its front waits for the pending reads of its address. If such a read is still in the read queue,
each waits for the other: `ScheduleTransaction` starts to drain in every cycle, because the buffer
is full, finds the write blocked, and ends the cycle without having looked at the read queue.

No run leads out of such a state. The read stays pending for ever, no transaction is scheduled any
more, and no write is accepted.
-/

namespace Beethoven.Dram

namespace Controller

variable {c : Config} {k k' k'' : Controller} {a : ℕ} {cmd : Command}

/-- The write buffer is full, and the write at its front could be scheduled but for a read of its
address in the read queue. -/
structure Stuck (c : Config) (a : ℕ) (k : Controller) : Prop where
  idle : k.writeDraining = 0
  full : c.transQueueSize ≤ k.writeBuffer.length
  front : ∃ t rest, k.writeBuffer = t :: rest ∧ t.addr = a ∧ t.isWrite = true
  room : k.HasRoom c a
  read : ∃ t ∈ k.readQueue, t.addr = a ∧ t.isWrite = false

theorem Stuck.mem_pendingAddrs (h : Stuck c a k) (hk : Good c k) : a ∈ k.pendingAddrs false := by
  obtain ⟨t, ht, haddr, hread⟩ := h.read
  have hmem := hk.pending_of_mem_waiting (t := t) (by simp [waiting, ht])
  rwa [haddr, hread] at hmem

/-- The column read of a stuck read is in no command queue. -/
theorem Stuck.not_mem_queue (h : Stuck c a k) (hk : Good c k) :
    c.column a false ∉ k.cmdQueue.queues (c.queueOf (c.addressMapping a)) := by
  intro hmem
  obtain ⟨t, ht, haddr, hread⟩ := h.read
  have hcount := hk.queued false a
  have hpos := List.count_pos_iff.mpr hmem
  have hwaiting : 0 < k.waiting.countP fun t => t.addr = a && t.isWrite = false :=
    List.countP_pos_iff.mpr ⟨t, by simp [waiting, ht], by simp [haddr, hread]⟩
  rw [if_pos (h.mem_pendingAddrs hk), Controller.queued] at hcount
  omega

theorem Stuck.same (h : Stuck c a k) (hsame : SameBooks k k') : Stuck c a k' where
  idle := hsame.writeDraining.trans h.idle
  full := by
    rw [hsame.writeBuffer]
    exact h.full
  front := by
    rw [hsame.writeBuffer]
    exact h.front
  room := by
    rw [HasRoom, hsame.queues]
    exact h.room
  read := by
    rw [hsame.readQueue]
    exact h.read

theorem addTransaction_read_frame (hc : c.unifiedQueue = false) (a : ℕ) :
    (k.addTransaction c a false).writeBuffer = k.writeBuffer ∧
      (k.addTransaction c a false).writeDraining = k.writeDraining ∧
      k.readQueue ⊆ (k.addTransaction c a false).readQueue := by
  by_cases h : a ∈ k.pendingAddrs true
  · rw [addTransaction_of_mem h]
    exact ⟨rfl, rfl, List.Subset.refl _⟩
  · rw [addTransaction_read h]
    split_ifs
    · exact ⟨rfl, rfl, List.Subset.refl _⟩
    · simp only [record, enqueue, addPending, hc, Bool.false_eq_true, if_false]
      exact ⟨trivial, trivial, List.subset_append_left _ _⟩

theorem Stuck.accept (h : Stuck c a k) (hc : c.unifiedQueue = false) {a' : ℕ} {w : Bool}
    (haccept : k.willAcceptTransaction c w) : w = false ∧ Stuck c a (k.addTransaction c a' w) := by
  cases w with
  | true =>
    have hfull := h.full
    simp only [willAcceptTransaction, hc, Bool.false_eq_true, if_false, Bool.not_true,
      decide_eq_true_eq] at haccept
    omega
  | false =>
    obtain ⟨hbuffer, hdraining, hread⟩ := addTransaction_read_frame (k := k) hc a'
    refine ⟨rfl, hdraining.trans h.idle, ?_, ?_, ?_, ?_⟩
    · rw [hbuffer]
      exact h.full
    · rw [hbuffer]
      exact h.front
    · rw [HasRoom, (accepted_addTransaction (c := c) (k := k) a' false).cmdQueue]
      exact h.room
    · obtain ⟨t, ht, hof⟩ := h.read
      exact ⟨t, hread ht, hof⟩

/-- A command leaves the write at the front where it is, and is not the column read that it waits
for. -/
theorem Stuck.issue (h : Stuck c a k) (hk : Good c k) (hpicked : Picked c k (some cmd) k')
    (hserved : Served c k' k'' cmd) : cmd ≠ c.column a false ∧ Stuck c a k'' := by
  have hlength : (k'.cmdQueue.queues (c.queueOf (c.addressMapping a))).length ≤
      (k.cmdQueue.queues (c.queueOf (c.addressMapping a))).length := by
    cases hpicked with
    | row hq hclk hcmd hexec hrefresh => rw [hq]
    | column hqueue hq hclk hexec hdep => exact (sublist_taken hqueue hq _).length_le
  have hframe : k'.writeBuffer = k.writeBuffer ∧ k'.readQueue = k.readQueue ∧
      k'.writeDraining = k.writeDraining := by
    cases hpicked <;> exact ⟨rfl, rfl, rfl⟩
  refine ⟨?_, ?_, ?_, ?_, ?_, ?_⟩
  · rintro rfl
    generalize hx : c.column a false = x at hpicked
    cases hpicked with
    | row hq hclk hcmd hexec hrefresh =>
      rw [← hx] at hcmd
      exact hcmd (c.isReadWrite_column a false)
    | column hqueue hq hclk hexec hdep =>
      obtain ⟨rfl, rfl⟩ := column_injective hx
      exact h.not_mem_queue hk (by simp [hqueue])
  · exact hserved.writeDraining.trans (hframe.2.2.trans h.idle)
  · rw [hserved.writeBuffer, hframe.1]
    exact h.full
  · rw [hserved.writeBuffer, hframe.1]
    exact h.front
  · rw [HasRoom, hserved.queues]
    exact lt_of_le_of_lt hlength h.room
  · rw [hserved.readQueue, hframe.2.1]
    exact h.read

/-- **Nothing is scheduled**: the draining of the writes starts and ends in the same cycle. -/
theorem Stuck.schedule (h : Stuck c a k) (hk : Good c k) (hc : c.unifiedQueue = false)
    (hsched : Scheduled c (k.startDraining c) k') : k' = k := by
  obtain ⟨t, rest, hbuffer, haddr, hwrite⟩ := h.front
  have hstart : k.startDraining c = { k with writeDraining := k.writeBuffer.length } := by
    rw [startDraining, if_pos ⟨h.idle, hc, .inl h.full⟩]
  have hpos : (0 : ℤ) < k.writeBuffer.length := by
    rw [hbuffer]
    simp
  have hqueue : scheduled c { k with writeDraining := k.writeBuffer.length } = t :: rest := by
    rw [scheduled, hc, if_neg Bool.false_ne_true, if_pos hpos, hbuffer]
  have hroom : HasRoom c { k with writeDraining := k.writeBuffer.length } t.addr := by
    rw [haddr]
    exact h.room
  have hread : t.addr ∈ k.pendingAddrs false := by
    rw [haddr]
    exact h.mem_pendingAddrs hk
  -- the transaction that is looked at first is the write at the front
  have hnone {before after : List Transaction} {t' : Transaction}
      (heq : t :: rest = before ++ t' :: after)
      (hfull : ∀ x ∈ before,
        ¬ HasRoom c { k with writeDraining := k.writeBuffer.length } x.addr) : t' = t := by
    cases before with
    | nil => exact (List.cons.inj heq).1.symm
    | cons x before =>
      obtain rfl : t = x := (List.cons.inj heq).1
      exact absurd hroom (hfull t List.mem_cons_self)
  rw [hstart] at hsched
  cases hsched with
  | full hfull =>
    rw [hqueue] at hfull
    exact absurd hroom (hfull t List.mem_cons_self)
  | blocked hsched hfull hroom' hc' hwrite' hread' =>
    rw [← h.idle]
  | @move before after t' q d hsched hfull hroom' hq hclk hdep =>
    rw [hqueue] at hsched
    obtain rfl := hnone hsched hfull
    exact absurd hread (hdep hc hwrite)

/-- What a stuck controller has done since a history. -/
def StuckSince (c : Config) (a : ℕ) (history : List Event) (k : Controller) : Prop :=
  Stuck c a k ∧ ∃ since, k.history = history ++ since ∧
    ∀ e ∈ since, (∀ a' hit, e ≠ .accept a' true hit) ∧ ∀ clk, e ≠ .issue clk (c.column a false)

theorem StuckSince.append {history : List Event} {e : Event} (h : StuckSince c a history k)
    (hstuck : Stuck c a k') (hhistory : k'.history = k.history ++ [e])
    (he : (∀ a' hit, e ≠ .accept a' true hit) ∧ ∀ clk, e ≠ .issue clk (c.column a false)) :
    StuckSince c a history k' := by
  obtain ⟨-, since, hsince, hall⟩ := h
  refine ⟨hstuck, since ++ [e], by rw [hhistory, hsince, List.append_assoc], ?_⟩
  rw [List.forall_mem_append]
  exact ⟨hall, by simpa using he⟩

/-- **No operation ends the wait.** -/
theorem stuckSince_invariant (hc : c.unifiedQueue = false) (history : List Event) :
    Invariant c (StuckSince c a history) where
  same {k k'} hsame h := by
    obtain ⟨hstuck, hsince⟩ := h
    exact ⟨hstuck.same hsame.toSameBooks, by rwa [hsame.history]⟩
  accept {k} a' w hk h haccept := by
    obtain ⟨rfl, hstuck⟩ : w = false ∧ Stuck c a (k.addTransaction c a' w) :=
      h.1.accept hc haccept
    exact h.append hstuck (accepted_addTransaction a' false).history ⟨by simp, by simp⟩
  refresh {k k'} _ h hrefresh := by
    obtain ⟨hstuck, hsince⟩ := h
    have hsame := sameBooks_tickRefresh hrefresh
    exact ⟨hstuck.same hsame, by rwa [hsame.history]⟩
  issue {k k' k'' cmd} hk h hpicked hserved := by
    obtain ⟨hcmd, hstuck⟩ := h.1.issue hk hpicked hserved
    have hhistory : k'.history = k.history := by
      cases hpicked <;> rfl
    refine h.append hstuck (hserved.history.trans (by rw [hhistory])) ⟨by simp, fun clk heq => ?_⟩
    exact hcmd (Event.issue.inj heq).2
  schedule {k k'} hk h hsched := by
    rw [h.1.schedule hk hc hsched]
    exact h

end Controller

/-- **A stuck read never returns.** In every run from a reachable state in which a channel is stuck
at an address, the channel stays stuck: the reads of the address stay pending, no column read of the
address is issued, and no write is accepted. -/
theorem stuck_forever {c : Config} (hc : c.Plain) (hsplit : c.unifiedQueue = false)
    {s t : JedecDRAMSystem} (h : (dram c).Reaches Lib.System.anyStep s) {i a : ℕ}
    (hstuck : (s.ctrls i).Stuck c a) {l : List Action}
    (hrun : (dram c).Run Lib.System.anyStep s l t) :
    a ∈ (t.ctrls i).pendingAddrs false ∧ (t.ctrls i).willAcceptTransaction c true = false ∧
      ∃ since, (t.ctrls i).history = (s.ctrls i).history ++ since ∧
        ∀ e ∈ since, (∀ a' hit, e ≠ .accept a' true hit) ∧
          ∀ clk, e ≠ .issue clk (c.column a false) := by
  have hsound := JedecDRAMSystem.sound_true hc h
  have hJ (j : ℕ) : Controller.Invariant c fun k =>
      j = i → Controller.StuckSince c a (s.ctrls i).history k := by
    by_cases hj : j = i
    · simp only [hj, forall_const]
      exact Controller.stuckSince_invariant hsplit _
    · simp only [hj, false_implies]
      exact Controller.invariant_true
  have hstart : JedecDRAMSystem.Sound c (fun j k =>
      j = i → Controller.StuckSince c a (s.ctrls i).history k) s :=
    ⟨fun j => ⟨(hsound.good j).1, by rintro rfl; exact ⟨hstuck, [], by simp, by simp⟩⟩,
      hsound.accepted⟩
  obtain ⟨hgood, hlast⟩ := (hstart.run hc hJ hrun).good i
  obtain ⟨hstuck', hsince⟩ := hlast rfl
  refine ⟨hstuck'.mem_pendingAddrs hgood, ?_, hsince⟩
  have hfull := hstuck'.full
  simp only [Controller.willAcceptTransaction, hsplit, Bool.false_eq_true, if_false, Bool.not_true,
    decide_eq_false_iff_not]
  omega

/-- A read and a write of the first address, and writes of 31 other addresses. -/
def fullBuffer : List Action :=
  .addTransaction 0 false :: (List.range 32).map fun i => .addTransaction (8192 * i) true

theorem stuck_forever_ddr4 : ∃ s, (dram ddr4).Reaches Lib.System.anyStep s ∧
    (s.ctrls 0).Stuck ddr4 0 ∧ ∀ l t, (dram ddr4).Run Lib.System.anyStep s l t →
      0 ∈ (t.ctrls 0).pendingAddrs false := by
  obtain ⟨s, hs, hidle, hfull, hfront, hroom, hread⟩ := Lib.System.exists_reaches (dram ddr4)
    Lib.System.anyStep
    (fun s => (s.ctrls 0).writeDraining = 0 ∧ ddr4.transQueueSize ≤ (s.ctrls 0).writeBuffer.length ∧
      (s.ctrls 0).writeBuffer.head? = some ⟨0, 0, 0, true⟩ ∧ (s.ctrls 0).HasRoom ddr4 0 ∧
      ⟨0, 0, 0, false⟩ ∈ (s.ctrls 0).readQueue) fullBuffer (by decide +kernel)
  obtain ⟨rest, hrest⟩ := List.head?_eq_some_iff.mp hfront
  have hstuck : (s.ctrls 0).Stuck ddr4 0 :=
    ⟨hidle, hfull, ⟨_, rest, hrest, rfl, rfl⟩, hroom, ⟨_, hread, rfl, rfl⟩⟩
  exact ⟨s, hs, hstuck, fun l t hrun => (stuck_forever plain_ddr4 rfl hs hstuck hrun).1⟩

end Beethoven.Dram
