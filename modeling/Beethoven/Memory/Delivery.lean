import Beethoven.Memory.Reads

/-!
# Delivery of read bursts

A read burst whose beats fill the AXI data bus and whose bytes make up whole DRAM transactions
(`MemoryTransaction.Whole`) is delivered completely and in order, whatever the DRAM accepts and in
whatever order it completes: its DRAM reads are issued at consecutive addresses, as many as its
length asks for, and when they are completed exactly its beats have been queued, at increasing
addresses, with only the last one marked as such.

The controller makes progress: as long as the DRAM accepts, every call of `try_to_enqueue_ddr`
issues a DRAM read, until none is left to issue.
-/

namespace Beethoven.Memory

open Lib Function

/-- The beats of the burst fill the bus, whose width is a multiple of the width of the DDR bus, and
its bytes are a positive number of DRAM transactions. -/
structure MemoryTransaction.Whole (c : Config) (b : MemoryTransaction) : Prop where
  size_eq : b.size = c.dataBusBytes
  bus_dvd : c.ddrBusWidthBytes ∣ c.dataBusBytes
  enqueue_dvd : c.ddrEnqueueSizeBytes ∣ b.len * b.size
  pos : 0 < b.len * b.size

variable {c : Config} {s : DramReads} {i : ℕ} {b : MemoryTransaction}

namespace MemoryTransaction.Whole

theorem axiBusBeatsLength_eq (h : b.Whole c) : b.axiBusBeatsLength c = b.len :=
  axiBusBeatsLength_of_full h.size_eq

theorem enqueues_pos (h : b.Whole c) : 0 < b.len * b.size / c.ddrEnqueueSizeBytes :=
  Nat.div_pos (Nat.le_of_dvd h.pos h.enqueue_dvd) c.ddrEnqueueSizeBytes_pos

/-- The beats and the DRAM transactions of a whole burst have the same words. -/
theorem words_eq (h : b.Whole c) :
    b.len * c.axiDdrBusMultiplicity = b.len * b.size / c.ddrEnqueueSizeBytes * c.totalBurst := by
  refine Nat.eq_of_mul_eq_mul_right c.ddrBusWidthBytes_pos ?_
  calc b.len * c.axiDdrBusMultiplicity * c.ddrBusWidthBytes
      = b.len * b.size := by
        rw [Nat.mul_assoc, Config.axiDdrBusMultiplicity, Nat.div_mul_cancel h.bus_dvd, h.size_eq]
    _ = b.len * b.size / c.ddrEnqueueSizeBytes * c.ddrEnqueueSizeBytes :=
        (Nat.div_mul_cancel h.enqueue_dvd).symm
    _ = b.len * b.size / c.ddrEnqueueSizeBytes * c.totalBurst * c.ddrBusWidthBytes := by
        rw [Nat.mul_assoc, Nat.mul_comm c.totalBurst]
        rfl

end MemoryTransaction.Whole

/-! ### Progress -/

/-- The DRAM transactions that the bursts of a queue have still to issue. -/
def enqueuesLeft (tx : ℕ → MemoryTransaction) (q : List ℕ) : ℕ :=
  (q.map fun i => (tx i).dramTxNEnqueues - (tx i).dramTxAxiEnqueueProgress).sum

/-- Issuing a DRAM transaction of the first burst in the queue leaves one less. -/
theorem enqueuesLeft_issue {tx : ℕ → MemoryTransaction} {q : List ℕ} (hnodup : (i :: q).Nodup)
    (hlt : (tx i).dramTxAxiEnqueueProgress < (tx i).dramTxNEnqueues) {x : MemoryTransaction}
    (hx : x = { tx i with dramTxAxiEnqueueProgress := (tx i).dramTxAxiEnqueueProgress + 1 }) :
    enqueuesLeft (update tx i x)
      (if x.dramsimTxFinished then (i :: q).erase i else i :: q) + 1 =
      enqueuesLeft tx (i :: q) := by
  have hi := (List.nodup_cons.mp hnodup).1
  -- the other bursts of the queue are as before
  have hrest : (q.map fun j => (update tx i x j).dramTxNEnqueues -
      (update tx i x j).dramTxAxiEnqueueProgress) =
      q.map fun j => (tx j).dramTxNEnqueues - (tx j).dramTxAxiEnqueueProgress := by
    refine List.map_congr_left fun j hj => ?_
    have hji : j ≠ i := fun hji => hi (hji ▸ hj)
    rw [update_of_ne hji]
  rw [enqueuesLeft, enqueuesLeft, List.map_cons, List.sum_cons, List.erase_cons_head]
  by_cases hfin : x.dramsimTxFinished = true
  · rw [if_pos hfin, hrest]
    rw [hx, MemoryTransaction.dramsimTxFinished, decide_eq_true_eq] at hfin
    dsimp only at hfin
    omega
  · rw [if_neg hfin, List.map_cons, List.sum_cons, hrest, update_self]
    rw [hx, MemoryTransaction.dramsimTxFinished, decide_eq_true_eq] at hfin
    rw [hx]
    dsimp only at hfin ⊢
    omega

/-- The DRAM reads that are still to be issued. -/
def DramReads.remaining (s : DramReads) : ℕ := enqueuesLeft s.tx s.ddrReadQ

/-- Every burst in the queue has a DRAM read left to issue. -/
theorem ReadsOk.enqueueProgress_lt (h : ReadsOk c s) (hi : i ∈ s.ddrReadQ) :
    (s.tx i).dramTxAxiEnqueueProgress < (s.tx i).dramTxNEnqueues := by
  have hb := List.getElem?_eq_getElem (h.queue_lt i hi)
  have hburst := h.burst i _ hb
  rw [hburst.tx_eq]
  exact hburst.mem_queue.mp hi

theorem ReadsOk.remaining_issue (h : ReadsOk c s) {q : List ℕ} (hq : s.ddrReadQ = i :: q) :
    (s.issue c i).remaining + 1 = s.remaining := by
  have hnodup := h.nodup_queue
  have hlt := h.enqueueProgress_lt (i := i) (by simp [hq])
  rw [hq] at hnodup
  have hleft := enqueuesLeft_issue hnodup hlt rfl
  rw [← hq] at hleft
  exact hleft

/-- **Progress.** An accepting DRAM is given all reads. -/
theorem ReadsOk.ddrReadQ_iterate (h : ReadsOk c s) :
    ((fun s => s.tryToEnqueue c fun _ => true)^[s.remaining] s).ddrReadQ = [] := by
  induction hn : s.remaining generalizing s with
  | zero =>
    by_contra hne
    obtain ⟨i, q, hq⟩ := List.exists_cons_of_ne_nil hne
    rw [iterate_zero_apply] at hq
    have := h.remaining_issue hq
    omega
  | succ n ih =>
    obtain ⟨i, q, hq⟩ : ∃ i q, s.ddrReadQ = i :: q := by
      refine List.exists_cons_of_ne_nil fun hnil => ?_
      simp [DramReads.remaining, enqueuesLeft, hnil] at hn
    have hissue : s.tryToEnqueue c (fun _ => true) = s.issue c i := by
      simp [DramReads.tryToEnqueue, DramReads.nextRead, hq]
    rw [iterate_succ_apply, hissue]
    refine ih (h.issue (by simp [hq])) ?_
    have := h.remaining_issue hq
    omega

/-! ### Delivery -/

/-- The delivery of burst `i`, accepted as `b`. -/
structure Delivered (c : Config) (s : DramReads) (i : ℕ) (b : MemoryTransaction) : Prop where
  /-- The DRAM reads are at consecutive addresses. -/
  issued_eq : keysOf s.issued i = (List.range (keysOf s.issued i).length).map
    fun k => b.fpgaAddr + c.ddrEnqueueSizeBytes * k
  issued_le : (keysOf s.issued i).length ≤ b.len * b.size / c.ddrEnqueueSizeBytes
  /-- A burst that has left the queue has issued all its DRAM reads. -/
  issued_all : i ∉ s.ddrReadQ →
    (keysOf s.issued i).length = b.len * b.size / c.ddrEnqueueSizeBytes
  /-- An accepting DRAM is given all reads. -/
  issues : ((fun s => s.tryToEnqueue c fun _ => true)^[s.remaining] s).ddrReadQ = []
  /-- A DRAM that has called back for all it has accepted has completed the burst. -/
  completes : i ∉ s.ddrReadQ → s.outstanding = [] →
    (keysOf s.completed i).length = b.len * b.size / c.ddrEnqueueSizeBytes
  /-- Once all DRAM reads are completed, the beats have been queued. -/
  queued_eq : (keysOf s.completed i).length = b.len * b.size / c.ddrEnqueueSizeBytes →
    keysOf s.queued i = (List.range b.len).map fun k => b.beat c k (k + 1 = b.len)

theorem BurstOk.arrived (hburst : BurstOk c s i b) (hflight : s.flight.Balanced)
    (hlen : (keysOf s.completed i).length = b.dramTxNEnqueues) {w : ℕ}
    (hw : w < b.dramTxNEnqueues * c.totalBurst) : b.Arrived c (keysOf s.completed i) w := by
  have hle : (keysOf s.completed i).length ≤ (keysOf s.issued i).length :=
    (hflight.completed_subperm i).length_le
  have hissued := hburst.issued_le
  have hperm := hflight.completed_perm (r := i) (by
    change (keysOf s.completed i).length = (keysOf s.issued i).length
    omega)
  refine hperm.mem_iff.mpr ?_
  change _ ∈ keysOf s.issued i
  rw [hburst.issued_eq]
  refine List.mem_map_of_mem (List.mem_range.mpr ?_)
  have hdiv := (Nat.div_lt_iff_lt_mul c.burst_pos).mpr hw
  omega

/-- **Whole bursts are delivered** in every run. -/
theorem delivered_of_reaches (c : Config) {s : State} (h : (memory c).Reaches System.anyStep s)
    {i : ℕ} {b : MemoryTransaction} (hb : s.rd.accepted[i]? = some b) (hwhole : b.Whole c) :
    Delivered c s.rd i b := by
  have hok := ReadsOk.of_reaches h
  have hburst := hok.burst i b hb
  have hn : b.dramTxNEnqueues = b.len * b.size / c.ddrEnqueueSizeBytes := by
    rw [hburst.nEnqueues_eq, if_neg hwhole.enqueues_pos.ne']
  have hall : i ∉ s.rd.ddrReadQ →
      (keysOf s.rd.issued i).length = b.len * b.size / c.ddrEnqueueSizeBytes := by
    intro hi
    have hle := hburst.issued_le
    have hge := mt hburst.mem_queue.mpr hi
    omega
  refine ⟨hburst.issued_eq, hn ▸ hburst.issued_le, hall, hok.ddrReadQ_iterate, ?_, ?_⟩
  · intro hi hnil
    rw [← hall hi]
    exact hok.flight.completed_length_eq hnil i
  · intro hlen
    have hcov : b.Covered c := by
      rw [MemoryTransaction.Covered, hwhole.axiBusBeatsLength_eq, hn, hwhole.words_eq]
    have hbeats : (keysOf s.rd.queued i).length = b.axiBusBeatsLength c := by
      rw [hburst.beats_deliverable hcov]
      refine deliverable_of_all fun w hw => hburst.arrived hok.flight (hlen.trans hn.symm) ?_
      exact lt_of_lt_of_le hw hcov
    rw [hburst.beats_eq, hbeats, hwhole.axiBusBeatsLength_eq]

/-- A bus of 8 bytes over a DDR bus of 4 bytes with bursts of 4 words. -/
def smallConfig : Config := ⟨64, 32, 4, by decide, by decide, by decide⟩

/-- Two bursts for the same bytes are read; the DRAM accepts their four reads and completes the
second halves first. -/
theorem delivered_two_bursts : ∃ s b, (memory smallConfig).Reaches System.anyStep s ∧
    s.rd.accepted[1]? = some b ∧ b.Whole smallConfig ∧ (keysOf s.rd.completed 1).length = 2 ∧
    Delivered smallConfig s.rd 1 b := by
  let request : Inputs := { Inputs.idle with ar := .incr 7 3 64 3 }
  let b : MemoryTransaction := .new smallConfig 4096 8 4 0 false 7 64 false
  let callback (addr : ℕ) : Action := .readCallback addr fun _ => false
  obtain ⟨s, hreach, haccepted, hcompleted⟩ := System.exists_reaches (memory smallConfig)
    System.anyStep (fun s => s.rd.accepted[1]? = some b ∧ (keysOf s.rd.completed 1).length = 2)
    (List.flatten [tick [] (fun _ => some 4096) .idle, tick [] (fun _ => some 4096) request,
      tick [] (fun _ => some 4096) request,
      tick [([], fun _ _ => true), ([], fun _ _ => true), ([], fun _ _ => true),
        ([], fun _ _ => true)] (fun _ => none) .idle,
      tick [([callback 80, callback 80], fun _ _ => false),
        ([callback 64, callback 64], fun _ _ => false)] (fun _ => none) .idle])
    (by decide +kernel)
  have hwhole : b.Whole smallConfig :=
    ⟨by decide, by decide, by decide, by decide⟩
  exact ⟨s, b, hreach, haccepted, hwhole, hcompleted,
    delivered_of_reaches smallConfig hreach haccepted hwhole⟩

end Beethoven.Memory
