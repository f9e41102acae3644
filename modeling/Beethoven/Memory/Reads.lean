import Beethoven.Memory.Controller

/-!
# Read bursts

The mutable fields of a read burst are a function of what has happened to it: of the number of its
beats queued, of the number of its DRAM reads issued, and of the addresses that the DRAM has
completed for it (`MemoryTransaction.after`). The DRAM reads of a burst are issued at consecutive
addresses, and its queued beats are always the leading beats all of whose DDR words have come
(`BurstOk`).
-/

namespace Beethoven.Memory

open Lib Function

namespace MemoryTransaction

variable {c : Config} {b : MemoryTransaction} {p e k w : ℕ} {loaded : List ℕ}
  {outside : ℕ → Bool}

/-- The address of the `k`-th DRAM transaction of a burst. -/
def chunkAddr (c : Config) (b : MemoryTransaction) (k : ℕ) : ℕ :=
  b.fpgaAddr + c.ddrEnqueueSizeBytes * k

/-- The DDR word `w` of a burst has come with the DRAM reads at `loaded`. -/
def Arrived (c : Config) (b : MemoryTransaction) (loaded : List ℕ) (w : ℕ) : Prop :=
  b.chunkAddr c (w / c.totalBurst) ∈ loaded

instance : DecidablePred (b.Arrived c loaded) := fun _ => List.instDecidableMemOfLawfulBEq _ _

/-- The burst `b` after its first beats were queued, its first DRAM reads were issued and those at
`loaded` were completed. -/
def after (c : Config) (b : MemoryTransaction) (beats issued : ℕ) (loaded : List ℕ) :
    MemoryTransaction :=
  { b with
    addr := b.addr + beats * b.size
    axiBusBeatsProgress := beats
    dramTxAxiEnqueueProgress := issued
    dramTxLoadProgress := loaded.length
    ddrBusBeatsRetrieved :=
      (List.range (b.dramTxNEnqueues * c.totalBurst)).map fun w => decide (b.Arrived c loaded w) }

/-- The transaction of the `k`-th beat of a burst. -/
def beat (c : Config) (b : MemoryTransaction) (k : ℕ) (last : Bool) : MemoryTransaction :=
  { new c (b.addr + k * b.size) b.size 1 0 false b.id 0 true with
    fpgaAddr := b.fpgaAddr
    canBeLast := last }

theorem chunkAddr_inj {j : ℕ} : b.chunkAddr c j = b.chunkAddr c k ↔ j = k := by
  rw [chunkAddr, chunkAddr, Nat.add_left_cancel_iff,
    Nat.mul_right_inj c.ddrEnqueueSizeBytes_pos.ne']

theorem after_new (addr size len id fpgaAddr : ℕ) (fixed isIntermediate : Bool) :
    (new c addr size len 0 fixed id fpgaAddr isIntermediate).after c 0 0 [] =
      new c addr size len 0 fixed id fpgaAddr isIntermediate := by
  simp [new, after, Arrived]

theorem iterate_advance_after (j : ℕ) :
    advance^[j] (b.after c p e loaded) = b.after c (p + j) e loaded := by
  induction j with
  | zero => rfl
  | succ j ih =>
    rw [iterate_succ_apply', ih]
    simp only [after, advance, mk.injEq, true_and, and_true, ← Nat.add_assoc]
    refine ⟨?_, by omega⟩
    rw [Nat.add_mul (p + j), Nat.one_mul, Nat.add_assoc]

theorem intermediate_after :
    (b.after c p e loaded).intermediate c = b.beat c p (p + 1 = b.axiBusBeatsLength c) := by
  have hlast : decide ((b.after c p e loaded).axiBusBeatsProgress =
      ((b.after c p e loaded).axiBusBeatsLength c : ℤ) - 1) =
      decide (p + 1 = b.axiBusBeatsLength c) := by
    refine decide_eq_decide.mpr ?_
    change (p : ℤ) = (b.axiBusBeatsLength c : ℤ) - 1 ↔ _
    omega
  rw [intermediate, hlast]
  rfl

theorem retrieved_after (hw : w < b.dramTxNEnqueues * c.totalBurst) :
    (b.after c p e loaded).retrieved outside w = decide (b.Arrived c loaded w) := by
  simp [retrieved, after, hw]

/-! ### The read callback -/

private theorem getElem?_foldl_set {α : Type*} (l : List α) (x : α) (first m w : ℕ) :
    ((List.range m).foldl (fun l i => l.set (first + i) x) l)[w]? =
      if first ≤ w ∧ w < first + m then l[w]?.map fun _ => x else l[w]? := by
  induction m with
  | zero => simp
  | succ m ih =>
    rw [List.range_succ, List.foldl_append, List.foldl_cons, List.foldl_nil, List.getElem?_set', ih]
    by_cases hw : first + m = w
    · subst hw
      simp
      rfl
    · rw [if_neg hw]
      refine if_congr ?_ rfl rfl
      omega

/-- The words of the `k`-th DRAM transaction. -/
private theorem div_totalBurst_eq_iff :
    w / c.totalBurst = k ↔ k * c.totalBurst ≤ w ∧ w < k * c.totalBurst + c.totalBurst := by
  rw [Nat.div_eq_iff c.burst_pos]
  have hpos := c.burst_pos
  omega

private theorem chunkAddr_sub_div :
    (b.chunkAddr c k - (b.after c p e loaded).fpgaAddr) / c.ddrBusWidthBytes =
      k * c.totalBurst := by
  change (b.chunkAddr c k - b.fpgaAddr) / c.ddrBusWidthBytes = _
  rw [chunkAddr, Nat.add_sub_cancel_left, Config.ddrEnqueueSizeBytes, Nat.mul_assoc,
    Nat.mul_div_cancel_left _ c.ddrBusWidthBytes_pos, Nat.mul_comm]

theorem retrieve_after : (b.after c p e loaded).retrieve c (b.chunkAddr c k) =
    b.after c p e (loaded ++ [b.chunkAddr c k]) := by
  have hbits : (List.range c.totalBurst).foldl
      (fun bits i => bits.set
        ((b.chunkAddr c k - (b.after c p e loaded).fpgaAddr) / c.ddrBusWidthBytes + i) true)
      (b.after c p e loaded).ddrBusBeatsRetrieved =
      (b.after c p e (loaded ++ [b.chunkAddr c k])).ddrBusBeatsRetrieved := by
    refine List.ext_getElem? fun w => ?_
    rw [chunkAddr_sub_div, getElem?_foldl_set]
    simp only [← div_totalBurst_eq_iff, after, List.getElem?_map, Arrived, List.mem_append,
      List.mem_singleton, chunkAddr_inj]
    rcases lt_or_ge w (b.dramTxNEnqueues * c.totalBurst) with hw | hw
    · rw [List.getElem?_range hw]
      split_ifs with hk
      · simp [hk]
      · simp [hk]
    · rw [List.getElem?_eq_none (by simpa using hw)]
      simp
  rw [retrieve, hbits]
  simp [after]

theorem dramsimHasBeatReady_after :
    (b.after c p e loaded).dramsimHasBeatReady c outside = true ↔
      p ≠ b.axiBusBeatsLength c ∧ ∀ i < c.axiDdrBusMultiplicity,
        (b.after c p e loaded).retrieved outside (p * c.axiDdrBusMultiplicity + i) = true := by
  have hfirst : ((b.after c p e loaded).axiBusBeatsProgress * c.axiDdrBusMultiplicity).toNat =
      p * c.axiDdrBusMultiplicity := Int.toNat_natCast (p * c.axiDdrBusMultiplicity)
  have hlast : (b.after c p e loaded).axiBusBeatsProgress =
      ((b.after c p e loaded).axiBusBeatsLength c : ℤ) ↔ p = b.axiBusBeatsLength c :=
    Int.natCast_inj
  rw [dramsimHasBeatReady]
  simp only [hfirst, hlast]
  split_ifs with hp
  · simp [hp]
  · simp only [Bool.and_eq_true, List.all_eq_true, List.mem_range, ne_eq, hp, not_false_eq_true,
      true_and, and_iff_left_iff_imp]
    exact fun hall => hall 0 c.axiDdrBusMultiplicity_pos

/-- The bitmap has an entry for every word of every beat. -/
def Covered (c : Config) (b : MemoryTransaction) : Prop :=
  b.axiBusBeatsLength c * c.axiDdrBusMultiplicity ≤ b.dramTxNEnqueues * c.totalBurst

theorem dramsimHasBeatReady_after_of_covered (hcov : b.Covered c) (hp : p ≤ b.axiBusBeatsLength c) :
    (b.after c p e loaded).dramsimHasBeatReady c outside = true ↔
      p ≠ b.axiBusBeatsLength c ∧ ∀ i < c.axiDdrBusMultiplicity,
        b.Arrived c loaded (p * c.axiDdrBusMultiplicity + i) := by
  rw [dramsimHasBeatReady_after]
  refine and_congr_right fun hne => forall₂_congr fun i hi => ?_
  have hle : (p + 1) * c.axiDdrBusMultiplicity ≤
      b.axiBusBeatsLength c * c.axiDdrBusMultiplicity :=
    Nat.mul_le_mul_right _ (by omega)
  rw [Nat.add_mul, Nat.one_mul] at hle
  have hin : p * c.axiDdrBusMultiplicity + i < b.dramTxNEnqueues * c.totalBurst := by
    have := hcov
    rw [Covered] at this
    omega
  rw [retrieved_after hin, decide_eq_true_eq]

/-- **The read callback on one burst.** The completion of the `k`-th DRAM read hands out the next
beats in order; if the bitmap covers the burst, it hands out all beats that can be delivered. -/
theorem load_after (outside : ℕ → Bool) (loaded : List ℕ) (e k : ℕ)
    (hp : p ≤ b.axiBusBeatsLength c) :
    ∃ j, p + j ≤ b.axiBusBeatsLength c ∧
      (b.after c p e loaded).load c outside (b.chunkAddr c k) =
        (b.after c (p + j) e (loaded ++ [b.chunkAddr c k]),
          (List.range j).map fun i => b.beat c (p + i) (p + i + 1 = b.axiBusBeatsLength c)) ∧
      (b.Covered c → (∀ w < p * c.axiDdrBusMultiplicity, b.Arrived c loaded w) →
        p + j = deliverable c.axiDdrBusMultiplicity (b.axiBusBeatsLength c)
          (b.Arrived c (loaded ++ [b.chunkAddr c k]))) := by
  rw [load, retrieve_after]
  obtain ⟨j, hj, heq, hrounds, hstop⟩ := drain_spec
    (fun tx : MemoryTransaction => tx.dramsimHasBeatReady c outside) advance (intermediate c)
    ((b.after c p e loaded).axiBusBeatsLength c + 1)
    (b.after c p e (loaded ++ [b.chunkAddr c k]))
  simp only [iterate_advance_after, intermediate_after] at heq hrounds hstop
  -- a round is made only below the last beat
  have hround : ∀ i < j, p + i ≠ b.axiBusBeatsLength c := fun i hi =>
    (dramsimHasBeatReady_after.mp (hrounds i hi)).1
  have hle : p + j ≤ b.axiBusBeatsLength c := by
    by_contra hlt
    exact hround (b.axiBusBeatsLength c - p) (by omega) (by omega)
  refine ⟨j, hle, heq, fun hcov harrived => (deliverable_eq hle ?_ fun hlt => ?_).symm⟩
  · intro w hw
    by_cases hwp : w < p * c.axiDdrBusMultiplicity
    · exact List.mem_append_left _ (harrived w hwp)
    · -- the word belongs to a beat of one of the rounds
      have hpos := c.axiDdrBusMultiplicity_pos
      have hlo : p ≤ w / c.axiDdrBusMultiplicity :=
        (Nat.le_div_iff_mul_le hpos).mpr (by omega)
      have hhi : w / c.axiDdrBusMultiplicity < p + j := (Nat.div_lt_iff_lt_mul hpos).mpr hw
      obtain ⟨i, hi⟩ := Nat.exists_eq_add_of_le hlo
      have hready := ((dramsimHasBeatReady_after_of_covered hcov (by omega)).mp
        (hrounds i (by omega))).2 (w % c.axiDdrBusMultiplicity) (Nat.mod_lt w hpos)
      rwa [← hi, Nat.div_add_mod'] at hready
  · have hnot := hstop (by
      change j < b.axiBusBeatsLength c + 1
      omega)
    rw [Bool.eq_false_iff, ne_eq, dramsimHasBeatReady_after_of_covered hcov hle] at hnot
    push Not at hnot
    exact hnot (by omega)

end MemoryTransaction

/-! ### The invariant of the read transactions -/

/-- The requests in flight of the reads. -/
def DramReads.flight (s : DramReads) : InFlight ℕ ℕ :=
  ⟨s.issued, s.inFlightReads, s.completed, s.outstanding⟩

/-- The burst `i`, accepted as `b`: its fields, its DRAM reads and its beats. -/
structure BurstOk (c : Config) (s : DramReads) (i : ℕ) (b : MemoryTransaction) : Prop where
  nEnqueues_eq : b.dramTxNEnqueues =
    if b.len * b.size / c.ddrEnqueueSizeBytes = 0 then 1
    else b.len * b.size / c.ddrEnqueueSizeBytes
  tx_eq : s.tx i = b.after c (keysOf s.queued i).length (keysOf s.issued i).length
    (keysOf s.completed i)
  issued_eq : keysOf s.issued i = (List.range (keysOf s.issued i).length).map (b.chunkAddr c)
  issued_le : (keysOf s.issued i).length ≤ b.dramTxNEnqueues
  mem_queue : i ∈ s.ddrReadQ ↔ (keysOf s.issued i).length < b.dramTxNEnqueues
  beats_eq : keysOf s.queued i = (List.range (keysOf s.queued i).length).map
    fun k => b.beat c k (k + 1 = b.axiBusBeatsLength c)
  beats_le : (keysOf s.queued i).length ≤ b.axiBusBeatsLength c
  beats_deliverable : b.Covered c → (keysOf s.queued i).length =
    deliverable c.axiDdrBusMultiplicity (b.axiBusBeatsLength c) (b.Arrived c (keysOf s.completed i))

/-- The invariant of the read transactions. -/
structure ReadsOk (c : Config) (s : DramReads) : Prop where
  flight : s.flight.Balanced
  nodup_queue : s.ddrReadQ.Nodup
  queue_lt : ∀ i ∈ s.ddrReadQ, i < s.accepted.length
  issued_lt : ∀ x ∈ s.issued, x.1 < s.accepted.length
  queued_lt : ∀ x ∈ s.queued, x.1 < s.accepted.length
  burst : ∀ i b, s.accepted[i]? = some b → BurstOk c s i b

section Invariant

variable {c : Config} {s t : DramReads} {i j : ℕ} {b : MemoryTransaction}

theorem BurstOk.congr (h : BurstOk c s i b) (htx : t.tx i = s.tx i)
    (hissued : keysOf t.issued i = keysOf s.issued i)
    (hcompleted : keysOf t.completed i = keysOf s.completed i)
    (hqueued : keysOf t.queued i = keysOf s.queued i)
    (hqueue : i ∈ t.ddrReadQ ↔ i ∈ s.ddrReadQ) : BurstOk c t i b := by
  obtain ⟨h₁, h₂, h₃, h₄, h₅, h₆, h₇, h₈⟩ := h
  constructor
  · exact h₁
  · rw [htx, hissued, hcompleted, hqueued, h₂]
  · rw [hissued, ← h₃]
  · rwa [hissued]
  · rw [hqueue, hissued, h₅]
  · rw [hqueued, ← h₆]
  · rwa [hqueued]
  · rw [hqueued, hcompleted]
    exact h₈

namespace ReadsOk

theorem completed_lt (h : ReadsOk c s) : ∀ x ∈ s.completed, x.1 < s.accepted.length :=
  fun _ hx => h.issued_lt _ (h.flight.mem_issued_of_completed hx)

theorem init (c : Config) : ReadsOk c State.init.rd := by
  constructor <;> simp [State.init, DramReads.flight]
  exact ⟨by simp, by simp⟩

theorem burst_push (h : ReadsOk c s) (addr size len id fpgaAddr : ℕ) :
    BurstOk c (s.push (.new c addr size len 0 false id fpgaAddr false)) s.accepted.length
      (.new c addr size len 0 false id fpgaAddr false) := by
  have hissued : keysOf s.issued s.accepted.length = [] :=
    keysOf_eq_nil fun x hx => (h.issued_lt x hx).ne
  have hcompleted : keysOf s.completed s.accepted.length = [] :=
    keysOf_eq_nil fun x hx => (h.completed_lt x hx).ne
  have hqueued : keysOf s.queued s.accepted.length = [] :=
    keysOf_eq_nil fun x hx => (h.queued_lt x hx).ne
  have hpos :
      0 < (MemoryTransaction.new c addr size len 0 false id fpgaAddr false).dramTxNEnqueues := by
    simp only [MemoryTransaction.new]
    split_ifs with h₀
    · exact Nat.one_pos
    · exact Nat.pos_of_ne_zero h₀
  constructor
  · rfl
  all_goals simp only [DramReads.push, hissued, hcompleted, hqueued]
  · rw [update_self]
    exact (MemoryTransaction.after_new ..).symm
  · rfl
  · exact Nat.zero_le _
  · simpa using hpos
  · rfl
  · exact Nat.zero_le _
  · intro _
    refine (deliverable_eq (Nat.zero_le _) (by simp) fun _ => ?_).symm
    exact ⟨0, c.axiDdrBusMultiplicity_pos, by simp [MemoryTransaction.Arrived]⟩

theorem push (h : ReadsOk c s) (addr size len id fpgaAddr : ℕ) :
    ReadsOk c (s.push (.new c addr size len 0 false id fpgaAddr false)) := by
  have hlen : ∀ {n}, n < s.accepted.length →
      n < (s.accepted ++
        [MemoryTransaction.new c addr size len 0 false id fpgaAddr false]).length := by
    intro n hn
    rw [List.length_append]
    omega
  constructor
  · exact h.flight
  · refine List.nodup_append.mpr ⟨h.nodup_queue, List.nodup_singleton _, ?_⟩
    rintro i hi _ hj rfl
    exact (h.queue_lt i hi).ne (List.mem_singleton.mp hj)
  · intro i hi
    rcases List.mem_append.mp hi with hi | hi
    · exact hlen (h.queue_lt i hi)
    · simp [DramReads.push, List.mem_singleton.mp hi]
  · exact fun x hx => hlen (h.issued_lt x hx)
  · exact fun x hx => hlen (h.queued_lt x hx)
  · intro i b hb
    rcases lt_trichotomy i s.accepted.length with hi | rfl | hi
    · have hold : s.accepted[i]? = some b := by
        rwa [DramReads.push, List.getElem?_append_left hi] at hb
      refine (h.burst i b hold).congr (update_of_ne hi.ne _ _) rfl rfl rfl ?_
      simp [DramReads.push, hi.ne]
    · obtain rfl : MemoryTransaction.new c addr size len 0 false id fpgaAddr false = b := by
        simpa [DramReads.push] using hb
      exact h.burst_push addr size len id fpgaAddr
    · rw [List.getElem?_eq_none (by simpa [DramReads.push] using Nat.succ_le_of_lt hi)] at hb
      cases hb

private theorem mem_ddrReadQ_issue (h : ReadsOk c s) (hi : i ∈ s.ddrReadQ)
    (hb : s.accepted[i]? = some b) (j : ℕ) : j ∈ (s.issue c i).ddrReadQ ↔
      j ∈ s.ddrReadQ ∧ (j = i → (keysOf s.issued i).length + 1 < b.dramTxNEnqueues) := by
  have hburst := h.burst i b hb
  have hlt := hburst.mem_queue.mp hi
  have hfinished : MemoryTransaction.dramsimTxFinished
      { s.tx i with dramTxAxiEnqueueProgress := (s.tx i).dramTxAxiEnqueueProgress + 1 } = true ↔
      b.dramTxNEnqueues = (keysOf s.issued i).length + 1 := by
    rw [hburst.tx_eq]
    refine decide_eq_true_iff.trans ?_
    change b.dramTxNEnqueues ≤ (keysOf s.issued i).length + 1 ↔ _
    omega
  simp only [DramReads.issue]
  split_ifs with hfin
  · have hn := hfinished.mp hfin
    rw [h.nodup_queue.mem_erase_iff]
    constructor
    · exact fun hj => ⟨hj.2, fun hji => absurd hji hj.1⟩
    · refine fun hj => ⟨?_, hj.1⟩
      rintro rfl
      exact absurd (hj.2 rfl) (by omega)
  · have hn := mt hfinished.mpr hfin
    exact (and_iff_left fun _ => by omega).symm

private theorem burst_issue (h : ReadsOk c s) (hi : i ∈ s.ddrReadQ) (hb : s.accepted[i]? = some b) :
    BurstOk c (s.issue c i) i b := by
  have hqueue := h.mem_ddrReadQ_issue hi hb
  obtain ⟨h₁, h₂, h₃, h₄, h₅, h₆, h₇, h₈⟩ := h.burst i b hb
  have haddr : (s.tx i).dimmAddr c = b.chunkAddr c (keysOf s.issued i).length := by
    rw [h₂]
    rfl
  have hkeys : keysOf (s.issue c i).issued i =
      keysOf s.issued i ++ [b.chunkAddr c (keysOf s.issued i).length] := by
    simp only [DramReads.issue, keysOf_append, keysOf_singleton_self, haddr]
  constructor
  · exact h₁
  · rw [hkeys, List.length_append]
    simp only [DramReads.issue, update_self, h₂]
    rfl
  · rw [hkeys, List.length_append, List.length_singleton, List.range_succ, List.map_append, ← h₃]
    rfl
  · rw [hkeys, List.length_append, List.length_singleton]
    exact h₅.mp hi
  · rw [hqueue, hkeys, List.length_append, List.length_singleton]
    exact ⟨fun hj => hj.2 rfl, fun hn => ⟨hi, fun _ => hn⟩⟩
  · exact h₆
  · exact h₇
  · exact h₈

theorem issue (h : ReadsOk c s) (hi : i ∈ s.ddrReadQ) : ReadsOk c (s.issue c i) := by
  obtain ⟨b, hb⟩ : ∃ b, s.accepted[i]? = some b :=
    ⟨_, List.getElem?_eq_getElem (h.queue_lt i hi)⟩
  have hqueue := h.mem_ddrReadQ_issue hi hb
  constructor
  · exact h.flight.step (.issue i ((s.tx i).dimmAddr c))
  · simp only [DramReads.issue]
    split_ifs
    · exact h.nodup_queue.erase i
    · exact h.nodup_queue
  · exact fun j hj => h.queue_lt j ((hqueue j).mp hj).1
  · intro x hx
    rcases List.mem_append.mp hx with hx | hx
    · exact h.issued_lt x hx
    · rw [List.mem_singleton.mp hx]
      exact h.queue_lt i hi
  · exact h.queued_lt
  · intro j b' hb'
    by_cases hji : j = i
    · subst hji
      exact h.burst_issue hi hb'
    · refine (h.burst j b' hb').congr (update_of_ne hji _ _) ?_ rfl rfl ?_
      · simp [DramReads.issue, keysOf_singleton_of_ne (Ne.symm hji)]
      · rw [hqueue]
        exact and_iff_left fun hj => absurd hj hji

private theorem burst_complete (h : ReadsOk c s) {outside : ℕ → Bool} {addr : ℕ} {rest : List ℕ}
    (hmem : (i, addr) ∈ s.issued) (hb : s.accepted[i]? = some b) :
    BurstOk c (s.complete c outside addr i rest) i b := by
  have hburst := h.burst i b hb
  obtain ⟨k, hk⟩ : ∃ k, addr = b.chunkAddr c k := by
    have hkeys := mem_keysOf.mpr hmem
    rw [hburst.issued_eq] at hkeys
    obtain ⟨k, -, hk⟩ := List.mem_map.mp hkeys
    exact ⟨k, hk.symm⟩
  obtain ⟨n, hn, hload, hdeliver⟩ := MemoryTransaction.load_after outside (keysOf s.completed i)
    (keysOf s.issued i).length k hburst.beats_le
  rw [← hburst.tx_eq, ← hk] at hload
  rw [← hk] at hdeliver
  obtain ⟨h₁, -, h₃, h₄, h₅, h₆, h₇, h₈⟩ := hburst
  have hcompleted : keysOf (s.complete c outside addr i rest).completed i =
      keysOf s.completed i ++ [addr] := by
    simp [DramReads.complete]
  have hqueued : keysOf (s.complete c outside addr i rest).queued i =
      (List.range ((keysOf s.queued i).length + n)).map
        fun k => b.beat c k (k + 1 = b.axiBusBeatsLength c) := by
    simp only [DramReads.complete, keysOf_append, keysOf_map_self, hload]
    rw [List.range_add, List.map_append, ← h₆, List.map_map]
    rfl
  have hlen : (keysOf (s.complete c outside addr i rest).queued i).length =
      (keysOf s.queued i).length + n := by
    rw [hqueued, List.length_map, List.length_range]
  constructor
  · exact h₁
  · rw [hlen, hcompleted]
    simp only [DramReads.complete, update_self, hload]
  · exact h₃
  · exact h₄
  · exact h₅
  · rw [hlen, hqueued]
  · rw [hlen]
    exact hn
  · intro hcov
    rw [hlen, hcompleted]
    refine hdeliver hcov fun w hw => ?_
    rw [h₈ hcov] at hw
    exact arrived_of_lt_deliverable hw

theorem complete (h : ReadsOk c s) {outside : ℕ → Bool} {addr : ℕ} {rest : List ℕ}
    (haddr : addr ∈ s.outstanding) (hq : s.inFlightReads addr = i :: rest) :
    ReadsOk c (s.complete c outside addr i rest) := by
  have hmem : (i, addr) ∈ s.issued :=
    h.flight.mem_issued (r := i) (k := addr) (by
      change i ∈ s.inFlightReads addr
      simp [hq])
  constructor
  · exact h.flight.step (.complete haddr hq)
  · exact h.nodup_queue
  · exact h.queue_lt
  · exact h.issued_lt
  · intro x hx
    rcases List.mem_append.mp hx with hx | hx
    · exact h.queued_lt x hx
    · obtain ⟨beat, -, rfl⟩ := List.mem_map.mp hx
      exact h.issued_lt _ hmem
  · intro j b' hb'
    by_cases hji : j = i
    · subst hji
      exact h.burst_complete hmem hb'
    · refine (h.burst j b' hb').congr (update_of_ne hji _ _) rfl ?_ ?_ Iff.rfl
      · simp [DramReads.complete, keysOf_singleton_of_ne (Ne.symm hji)]
      · simp [DramReads.complete, keysOf_map_of_ne (Ne.symm hji)]

theorem readStep (h : ReadsOk c s) (hstep : ReadStep c s t) : ReadsOk c t := by
  cases hstep with
  | stay => exact h
  | push addr size len id fpgaAddr => exact h.push addr size len id fpgaAddr
  | issue hi => exact h.issue hi

theorem of_reaches {ok : State → Action → Prop} {s : State} (h : (memory c).Reaches ok s) :
    ReadsOk c s.rd := by
  refine System.Reaches.invariant (I := fun s => ReadsOk c s.rd) (init c) ?_ h
  intro s a t hs _ hstep
  rcases read_cases hstep with hread | ⟨addr, outside, i, rest, -, haddr, hq, ht⟩
  · exact hs.readStep hread
  · rw [ht]
    exact hs.complete haddr hq

end ReadsOk

end Invariant

end Beethoven.Memory
