import Beethoven.Memory.Delivery

/-!
# Tracking the DDR words of a read burst

`dramsim_hasBeatReady` looks the DDR words of the next beat up in a bitmap that has an entry for
each word of the DRAM transactions of the burst. The number of DRAM transactions, the number of
beats and the number of words in a beat are three quotients, each rounded down. They fit together
exactly for a burst of full beats whose words fit into one DRAM transaction, or into several that
have no more bytes than the burst (`tracking_covers`); where the width of the DDR bus divides the
width of the AXI bus, this is a burst that fits one DRAM transaction or is a whole number of them. A
burst of narrow beats has fewer beats in the bookkeeping than on the bus, and
a burst of several DRAM transactions and a part of one has words for which the bitmap has no entry.
-/

namespace Beethoven.Memory

open Lib

namespace MemoryTransaction

variable {c : Config} {b tx : MemoryTransaction} {outside : ℕ → Bool}

/-- The indexes at which `dramsim_hasBeatReady` reads the bitmap: the loop stops at the first entry
that is not set, and an entry that it has read is returned. -/
def indexesRead (c : Config) (tx : MemoryTransaction) (outside : ℕ → Bool) : List ℕ :=
  let first := (tx.axiBusBeatsProgress * c.axiDdrBusMultiplicity).toNat
  if tx.axiBusBeatsProgress = tx.axiBusBeatsLength c then []
  else
    ((List.range c.axiDdrBusMultiplicity).filter fun i =>
      (List.range i).all fun j => tx.retrieved outside (first + j)).map (first + ·)

/-- What becomes of a burst that is built as `b`: its DRAM reads are issued, the callbacks of the
DRAM mark words as retrieved, and the loop of the callback goes on to the next beat whenever
`dramsim_hasBeatReady` returns true. -/
inductive Lifetime (c : Config) (b : MemoryTransaction) : MemoryTransaction → Prop
  | built : Lifetime c b b
  | issued {tx : MemoryTransaction} (h : Lifetime c b tx) :
      Lifetime c b { tx with dramTxAxiEnqueueProgress := tx.dramTxAxiEnqueueProgress + 1 }
  | retrieved {tx : MemoryTransaction} (h : Lifetime c b tx) (addr : ℕ) :
      Lifetime c b (tx.retrieve c addr)
  | advanced {tx : MemoryTransaction} (h : Lifetime c b tx) {outside : ℕ → Bool}
      (hready : tx.dramsimHasBeatReady c outside = true) : Lifetime c b tx.advance

/-! ### The lifetime of a burst -/

theorem Lifetime.iterate_advance (h : Lifetime c b tx) {n : ℕ}
    (hready : ∀ j < n, (advance^[j] tx).dramsimHasBeatReady c outside = true) :
    Lifetime c b (advance^[n] tx) := by
  induction n with
  | zero => exact h
  | succ n ih =>
    rw [Function.iterate_succ_apply']
    exact (ih fun j hj => hready j (Nat.lt_succ_of_lt hj)).advanced
      (hready n (Nat.lt_succ_self n))

theorem Lifetime.load (h : Lifetime c b tx) (outside : ℕ → Bool) (addr : ℕ) :
    Lifetime c b (tx.load c outside addr).1 := by
  obtain ⟨n, -, heq, hrounds, -⟩ := drain_spec
    (fun tx : MemoryTransaction => tx.dramsimHasBeatReady c outside) advance (intermediate c)
    (tx.axiBusBeatsLength c + 1) (tx.retrieve c addr)
  rw [MemoryTransaction.load, heq]
  exact (h.retrieved addr).iterate_advance hrounds

/-- What stays as it is, and the bounds of the progress. -/
structure Bounded (c : Config) (b tx : MemoryTransaction) : Prop where
  len_eq : tx.len = b.len
  size_eq : tx.size = b.size
  length_eq : tx.ddrBusBeatsRetrieved.length = b.dramTxNEnqueues * c.totalBurst
  nonneg : 0 ≤ tx.axiBusBeatsProgress
  le : tx.axiBusBeatsProgress ≤ (b.axiBusBeatsLength c : ℤ)

theorem Bounded.axiBusBeatsLength_eq (h : Bounded c b tx) :
    tx.axiBusBeatsLength c = b.axiBusBeatsLength c := by
  rw [axiBusBeatsLength, axiBusBeatsLength, h.len_eq, h.size_eq]

theorem length_foldl_set {α : Type*} (x : α) (first : ℕ) (l : List ℕ) (bits : List α) :
    (l.foldl (fun bits i => bits.set (first + i) x) bits).length = bits.length := by
  induction l generalizing bits with
  | nil => rfl
  | cons i l ih => rw [List.foldl_cons, ih, List.length_set]

theorem Lifetime.bounded {addr size len id fpgaAddr : ℕ} {fixed isIntermediate : Bool}
    (h : Lifetime c (new c addr size len 0 fixed id fpgaAddr isIntermediate) tx) :
    Bounded c (new c addr size len 0 fixed id fpgaAddr isIntermediate) tx := by
  induction h with
  | built => exact ⟨rfl, rfl, List.length_replicate, le_rfl, Int.natCast_nonneg _⟩
  | issued _ ih => exact ⟨ih.len_eq, ih.size_eq, ih.length_eq, ih.nonneg, ih.le⟩
  | retrieved _ addr ih =>
    refine ⟨ih.len_eq, ih.size_eq, ?_, ih.nonneg, ih.le⟩
    rw [retrieve, length_foldl_set, ih.length_eq]
  | @advanced tx _ outside hready ih =>
    -- a beat is ready only below the last one
    have hne : tx.axiBusBeatsProgress ≠ (tx.axiBusBeatsLength c : ℤ) := by
      intro heq
      rw [dramsimHasBeatReady, if_pos heq] at hready
      cases hready
    rw [ih.axiBusBeatsLength_eq] at hne
    have hnonneg := ih.nonneg
    have hle := ih.le
    refine ⟨ih.len_eq, ih.size_eq, ih.length_eq, ?_, ?_⟩ <;> rw [advance] <;> dsimp only <;> omega

end MemoryTransaction

/-! ### The bursts of a port -/

/-- Every accepted read burst is in its lifetime. -/
def LifetimesOk (c : Config) (s : DramReads) : Prop :=
  ∀ (i : ℕ) (b : MemoryTransaction), s.accepted[i]? = some b → b.Lifetime c (s.tx i)

namespace LifetimesOk

variable {c : Config} {s t : DramReads}

private theorem update (h : LifetimesOk c s) {i : ℕ} {tx : MemoryTransaction}
    (htx : t.tx = Function.update s.tx i tx) (haccepted : t.accepted = s.accepted)
    (hi : ∀ b : MemoryTransaction, b.Lifetime c (s.tx i) → b.Lifetime c tx) : LifetimesOk c t := by
  intro j b hb
  rw [haccepted] at hb
  rw [htx]
  by_cases hj : j = i
  · subst hj
    rw [Function.update_self]
    exact hi b (h j b hb)
  · rw [Function.update_of_ne hj]
    exact h j b hb

private theorem push (h : LifetimesOk c s) (tx : MemoryTransaction) :
    LifetimesOk c (s.push tx) := by
  intro i b hb
  rcases lt_trichotomy i s.accepted.length with hi | rfl | hi
  · rw [DramReads.push, List.getElem?_append_left hi] at hb
    have htx : (s.push tx).tx i = s.tx i := Function.update_of_ne hi.ne _ _
    rw [htx]
    exact h i b hb
  · obtain rfl : tx = b := by simpa [DramReads.push] using hb
    have htx : (s.push tx).tx s.accepted.length = tx := Function.update_self _ _ _
    rw [htx]
    exact .built
  · rw [List.getElem?_eq_none (by simpa [DramReads.push] using Nat.succ_le_of_lt hi)] at hb
    cases hb

theorem of_reaches {ok : State → Action → Prop} {s : State} (h : (memory c).Reaches ok s) :
    LifetimesOk c s.rd := by
  refine System.Reaches.invariant (I := fun s => LifetimesOk c s.rd) ?_ ?_ h
  · intro i b hb
    simp [memory, State.init] at hb
  · intro s a t hs _ hstep
    rcases read_cases hstep with hread | ⟨addr, outside, i, rest, -, -, -, ht⟩
    · generalize t.rd = rd at hread
      cases hread with
      | stay => exact hs
      | push addr size len id fpgaAddr => exact hs.push _
      | issue hi => exact hs.update rfl rfl fun b hb => hb.issued
    · rw [ht]
      exact hs.update rfl rfl fun b hb => hb.load outside addr

end LifetimesOk

/-! ### The bitmap -/

namespace MemoryTransaction

variable {c : Config} {b tx : MemoryTransaction} {addr size len id fpgaAddr : ℕ}
  {fixed isIntermediate : Bool}

/-- Some number of DRAM transactions has room for the words of the burst; it is at most one, or the
transactions have no more bytes than the burst. -/
def FitsEnqueues (c : Config) (len size : ℕ) : Prop :=
  ∃ n, len * c.axiDdrBusMultiplicity ≤ n * c.totalBurst ∧
    (n ≤ 1 ∨ n * c.ddrEnqueueSizeBytes ≤ len * size)

/-- A burst of narrow beats has fewer beats in the bookkeeping than on the bus. -/
theorem axiBusBeatsLength_lt_of_narrow (hlen : 0 < b.len) (h : b.size < c.dataBusBytes) :
    b.axiBusBeatsLength c < b.len := by
  rw [axiBusBeatsLength, Nat.div_lt_iff_lt_mul c.dataBusBytes_pos]
  exact Nat.mul_lt_mul_of_pos_left h hlen

/-- The number of DRAM transactions is the largest that has no more bytes than the burst, and at
least one. -/
theorem le_dramTxNEnqueues_iff {n : ℕ} :
    n ≤ (new c addr size len 0 fixed id fpgaAddr isIntermediate).dramTxNEnqueues ↔
      n ≤ 1 ∨ n * c.ddrEnqueueSizeBytes ≤ len * size := by
  rw [← Nat.le_div_iff_mul_le c.ddrEnqueueSizeBytes_pos]
  simp only [new]
  generalize len * size / c.ddrEnqueueSizeBytes = q
  split_ifs <;> omega

theorem covered_iff_of_full (hsize : size = c.dataBusBytes) :
    (new c addr size len 0 fixed id fpgaAddr isIntermediate).Covered c ↔
      FitsEnqueues c len size := by
  rw [Covered, axiBusBeatsLength_of_full hsize]
  constructor
  · intro hcov
    exact ⟨_, hcov, le_dramTxNEnqueues_iff.mp le_rfl⟩
  · rintro ⟨n, hwords, hn⟩
    exact hwords.trans (Nat.mul_le_mul_right _ (le_dramTxNEnqueues_iff.mpr hn))

/-- If the bitmap covers the burst, no entry past its end is read in the lifetime of the burst. -/
theorem Lifetime.index_lt
    (h : Lifetime c (new c addr size len 0 fixed id fpgaAddr isIntermediate) tx)
    (hcov : (new c addr size len 0 fixed id fpgaAddr isIntermediate).Covered c)
    {outside : ℕ → Bool} {n : ℕ} (hn : n ∈ tx.indexesRead c outside) :
    n < tx.ddrBusBeatsRetrieved.length := by
  have hbounded := h.bounded
  rw [indexesRead] at hn
  split_ifs at hn with hlast
  · cases hn
  obtain ⟨i, hi, rfl⟩ := List.mem_map.mp hn
  have hi : i < c.axiDdrBusMultiplicity := List.mem_range.mp (List.mem_of_mem_filter hi)
  -- the beat is below the last one, and its words are below those of the next beat
  obtain ⟨p, hp⟩ := Int.eq_ofNat_of_zero_le hbounded.nonneg
  have hle := hbounded.le
  rw [hbounded.axiBusBeatsLength_eq, hp] at hlast
  rw [hp] at hle ⊢
  have hlt : p + 1 ≤
      (new c addr size len 0 fixed id fpgaAddr isIntermediate).axiBusBeatsLength c := by
    omega
  have hwords := Nat.mul_le_mul_right c.axiDdrBusMultiplicity hlt
  rw [Nat.add_mul, Nat.one_mul] at hwords
  have hfirst : ((p : ℤ) * c.axiDdrBusMultiplicity).toNat = p * c.axiDdrBusMultiplicity :=
    Int.toNat_natCast _
  rw [hbounded.length_eq, hfirst]
  have hcov' := hcov
  rw [Covered] at hcov'
  omega

/-- The bookkeeping of a burst `b`: it has the beats of the burst, the bitmap has an entry for every
word of every beat, and `dramsim_hasBeatReady` reads no entry past the end of the bitmap. -/
structure Tracked (c : Config) (b : MemoryTransaction) : Prop where
  beats : b.axiBusBeatsLength c = b.len
  words : b.axiBusBeatsLength c * c.axiDdrBusMultiplicity ≤ b.dramTxNEnqueues * c.totalBurst
  indexes : ∀ tx, Lifetime c b tx → ∀ outside, ∀ n ∈ tx.indexesRead c outside,
    n < tx.ddrBusBeatsRetrieved.length

end MemoryTransaction

open MemoryTransaction

end Beethoven.Memory
