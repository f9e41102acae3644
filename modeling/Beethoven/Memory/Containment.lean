import Beethoven.DataServer.Translator
import Beethoven.Memory.WriteData

/-!
# Bursts and the mappings of the address translator

The port translates the start address of a burst and nothing else: the beats of the burst follow at
host addresses that are counted on from there. A burst that starts in a mapping and runs over its
end reads and writes host memory outside of the mapping (`not_contained`). The bursts whose
accelerator addresses all lie in the mapping of their start address (`BurstsFit`) stay in its host
region.
-/

namespace Beethoven.Memory

open Lib DataServer

/-! ### The port under a translator -/

/-- The step in which `tick_signals` uses the given translator. -/
def Action.under (tr : AddressTranslator) : Action → Action
  | .tickSignals _ i => .tickSignals (fun a => tr.translate (.ofNat a)) i
  | a => a

/-- The mapping in which an accepted read burst starts. -/
def State.mappingAR (s : State) (tr : AddressTranslator) (ar : AddressIn) : Option AddrPair :=
  if s.r.arReady && ar.valid then tr.find (.ofNat ar.getAddr) else none

/-- The mapping in which an accepted write burst starts. -/
def State.mappingAW (s : State) (tr : AddressTranslator) (aw : AddressIn) : Option AddrPair :=
  if aw.valid && s.w.awReady then tr.find (.ofNat aw.getAddr) else none

/-- An accepted burst, with the mapping in which it starts, or an access to the host's memory: the
beat whose bytes the R channel loads, or the beat of data that the W channel stores for a burst. -/
inductive Transfer where
  | ar (m : AddrPair)
  | load (tx : MemoryTransaction)
  | aw (m : AddrPair)
  | store (burst addr : ℕ) (w : WriteDataIn)

namespace Transfer

/-- The mappings of the read bursts in the order of their acceptance. -/
def regionsAR (l : List Transfer) : List AddrPair :=
  l.filterMap fun
    | ar m => some m
    | _ => none

def loads (l : List Transfer) : List MemoryTransaction :=
  l.filterMap fun
    | load tx => some tx
    | _ => none

/-- The mappings of the write bursts in the order of their acceptance. -/
def regionsAW (l : List Transfer) : List AddrPair :=
  l.filterMap fun
    | aw m => some m
    | _ => none

def stores (l : List Transfer) : List (ℕ × ℕ × WriteDataIn) :=
  l.filterMap fun
    | store burst addr w => some (burst, addr, w)
    | _ => none

end Transfer

/-- What a step accepts and accesses. -/
def transfers (c : Config) (s : State) (x : AddressTranslator × Action) : List Transfer :=
  match x.2 with
  | .tickSignals _ i =>
    (s.mappingAR x.1 i.ar).toList.map .ar ++
      (s.r.finishBeat i.rReady).readTransactions.head?.toList.map .load ++
      (s.mappingAW x.1 i.aw).toList.map .aw ++
      (storesOf (writeEvents c s (x.2.under x.1))).map fun y => .store y.1 y.2.1 y.2.2
  | _ => []

/-- The port with a log of its transfers, under a translator that may change from step to step. -/
def transferPort (c : Config) : System (State × List Transfer) (AddressTranslator × Action) :=
  ((memory c).relabel fun x => x.2.under x.1).logged (transfers c)

/-- The bytes that the R channel loads for a beat: `tx->size / 4` words. -/
def MemoryTransaction.loadBytes (tx : MemoryTransaction) : ℕ := 4 * (tx.size / 4)

/-- Every host byte that the beats of a burst read or write lies in the host region of the mapping
in which the burst starts: the bytes of the beats that are queued for the R channel, which loads no
others, and the bytes that the W channel stores. -/
structure Contained (c : Config) (x : State × List Transfer) : Prop where
  beat : ∀ i tx, (i, tx) ∈ x.1.rd.queued → ∃ m, (Transfer.regionsAR x.2)[i]? = some m ∧
    ∀ off < tx.loadBytes, m.InRegion (tx.addr + off)
  load : ∀ tx ∈ Transfer.loads x.2, ∃ i, (i, tx) ∈ x.1.rd.queued
  store : ∀ j addr w, (j, addr, w) ∈ Transfer.stores x.2 →
    ∃ m, (Transfer.regionsAW x.2)[j]? = some m ∧
      ∀ off < c.dataBusBytes, w.getStrb off = true → m.InRegion (addr + off)

/-- How far the beat `n` of a transaction is from its start. -/
def MemoryTransaction.beatOffset (tx : MemoryTransaction) (n : ℕ) : ℕ :=
  if tx.fixed then 0 else n * tx.size

/-- The beats of a read burst that starts in `m` end there. -/
def ReadFits (c : Config) (ar : AddressIn) (m : AddrPair) : Prop :=
  ∀ k < (ar.len + 1) * 2 ^ (ar.size : ℕ) / c.dataBusBytes, ∀ off < 4 * (2 ^ (ar.size : ℕ) / 4),
    ar.getAddr + k * 2 ^ (ar.size : ℕ) + off < m.fpgaEnd

/-- The strobed bytes of a beat of data, the one with number `n` of the burst `tx` that starts in
`m`, lie in the mapping. -/
def BeatFits (c : Config) (w : WriteDataIn) (tx : MemoryTransaction) (n : ℕ) (m : AddrPair) :
    Prop :=
  ∀ off < c.dataBusBytes, w.getStrb off = true → tx.fpgaAddr + tx.beatOffset n + off < m.fpgaEnd

/-- The accelerator addresses of the bytes of the bursts lie in the mappings in which the bursts
start. -/
def BurstsFit (c : Config) (x : State × List Transfer) : AddressTranslator × Action → Prop
  | (tr, .tickSignals _ i) =>
    (∀ m ∈ x.1.mappingAR tr i.ar, ReadFits c i.ar m) ∧
    ((i.w.valid && x.1.w.wReady) = true →
      ∀ wr ∈ x.1.acceptAW c (fun a => tr.translate (.ofNat a)) i.aw,
      ∀ j ∈ wr.writeTransactions.head?,
      ∀ m ∈ (Transfer.regionsAW x.2 ++ (x.1.mappingAW tr i.aw).toList)[j]?,
        BeatFits c i.w (wr.tx j) (keysOf (Transfer.stores x.2) j).length m)
  | _ => True

instance (c : Config) (ar : AddressIn) : DecidablePred (ReadFits c ar) := fun m =>
  inferInstanceAs (Decidable (∀ k < (ar.len + 1) * 2 ^ (ar.size : ℕ) / c.dataBusBytes,
    ∀ off < 4 * (2 ^ (ar.size : ℕ) / 4), ar.getAddr + k * 2 ^ (ar.size : ℕ) + off < m.fpgaEnd))

instance (c : Config) (w : WriteDataIn) (tx : MemoryTransaction) (n : ℕ) (m : AddrPair) :
    Decidable (BeatFits c w tx n m) :=
  inferInstanceAs (Decidable (∀ off < c.dataBusBytes, w.getStrb off = true →
    tx.fpgaAddr + tx.beatOffset n + off < m.fpgaEnd))

instance (c : Config) (x : State × List Transfer) :
    (a : AddressTranslator × Action) → Decidable (BurstsFit c x a)
  | (tr, .tickSignals _ i) => inferInstanceAs (Decidable (
      (∀ m ∈ x.1.mappingAR tr i.ar, ReadFits c i.ar m) ∧
      ((i.w.valid && x.1.w.wReady) = true →
        ∀ wr ∈ x.1.acceptAW c (fun a => tr.translate (.ofNat a)) i.aw,
        ∀ j ∈ wr.writeTransactions.head?,
        ∀ m ∈ (Transfer.regionsAW x.2 ++ (x.1.mappingAW tr i.aw).toList)[j]?,
          BeatFits c i.w (wr.tx j) (keysOf (Transfer.stores x.2) j).length m)))
  | (_, .readCallback _ _) => isTrue trivial
  | (_, .writeCallback _) => isTrue trivial
  | (_, .tryToEnqueueDdr _) => isTrue trivial

/-! ### The beats of the R channel -/

theorem ReadsOk.exists_beat {c : Config} {s : DramReads} (h : ReadsOk c s) {i : ℕ}
    {tx : MemoryTransaction} (hq : (i, tx) ∈ s.queued) :
    ∃ b k last, s.accepted[i]? = some b ∧ k < b.axiBusBeatsLength c ∧ tx = b.beat c k last := by
  obtain ⟨b, hb⟩ : ∃ b, s.accepted[i]? = some b :=
    ⟨_, List.getElem?_eq_getElem (h.queued_lt _ hq)⟩
  have hburst := h.burst i b hb
  have hmem : tx ∈ keysOf s.queued i := mem_keysOf.mpr hq
  rw [hburst.beats_eq] at hmem
  obtain ⟨k, hk, rfl⟩ := List.mem_map.mp hmem
  exact ⟨b, k, _, hb, lt_of_lt_of_le (List.mem_range.mp hk) hburst.beats_le, rfl⟩

theorem ReadChannel.readTransactions_driveR (c : Config) (r : ReadChannel) (host : Host) :
    (r.driveR c host).readTransactions = r.readTransactions := by
  rw [driveR]
  split <;> rfl

theorem State.tickSignals_read {c : Config} {s t : State} {translate : ℕ → Option ℕ} {i : Inputs}
    (h : s.tickSignals c translate i = some t) :
    s.acceptAR c translate i.ar = some t.rd ∧
      t.r = { (s.r.finishBeat i.rReady).driveR c s.host with
        arReady := t.rd.ddrReadQ.length < maxQLength } := by
  obtain ⟨rd, hrd, h⟩ := Option.bind_eq_some_iff.mp h
  obtain ⟨wr, -, h⟩ := Option.bind_eq_some_iff.mp h
  cases h
  exact ⟨hrd, rfl⟩

theorem State.queued_acceptAR {c : Config} {s : State} {translate : ℕ → Option ℕ} {ar : AddressIn}
    {rd : DramReads} (h : s.acceptAR c translate ar = some rd) : rd.queued = s.rd.queued := by
  rw [acceptAR] at h
  split_ifs at h
  · obtain ⟨ad, -, rfl⟩ := Option.map_eq_some_iff.mp h
    rfl
  · cases h
    rfl

/-- The invariant of the R channel: it presents the beats that were queued. -/
structure BeatsOk (s : State) : Prop where
  mem : ∀ tx ∈ s.r.readTransactions, ∃ i, (i, tx) ∈ s.rd.queued
  last : s.r.rValid = true →
    ∃ tx rest, s.r.readTransactions = tx :: rest ∧ s.r.rLast = tx.canBeLast

namespace BeatsOk

variable {c : Config} {s t : State} {translate : ℕ → Option ℕ} {i : Inputs}

theorem finishBeat_subset (h : BeatsOk s) (rReady : Bool) :
    (s.r.finishBeat rReady).readTransactions ⊆ s.r.readTransactions := by
  rw [ReadChannel.finishBeat]
  split_ifs with hfire
  · obtain ⟨tx, rest, hq, hlast⟩ := h.last (Bool.and_eq_true_iff.mp hfire).1
    have hpop : (s.r.rLast || !tx.canBeLast) = true := by simp [hlast]
    simp only [hq, hpop, if_true]
    exact List.subset_cons_self tx rest
  · exact List.Subset.refl _

theorem tick (h : BeatsOk s) (hreads : ReadsOk c s.rd)
    (ht : s.tickSignals c translate i = some t) : BeatsOk t := by
  obtain ⟨hrd, hr⟩ := State.tickSignals_read ht
  have hsubset := h.finishBeat_subset i.rReady
  have hmem : ∀ tx ∈ (s.r.finishBeat i.rReady).readTransactions, ∃ j, (j, tx) ∈ s.rd.queued :=
    fun tx htx => h.mem tx (hsubset htx)
  constructor
  · intro tx htx
    rw [hr, ReadChannel.readTransactions_driveR] at htx
    rw [State.queued_acceptAR hrd]
    exact hmem tx htx
  · intro hvalid
    simp only [hr, ReadChannel.driveR] at hvalid ⊢
    cases hq : (s.r.finishBeat i.rReady).readTransactions with
    | nil => simp [hq] at hvalid
    | cons tx rest =>
      obtain ⟨j, hj⟩ := hmem tx (by simp [hq])
      obtain ⟨b, k, last, -, -, rfl⟩ := hreads.exists_beat hj
      exact ⟨_, rest, rfl, by simp [MemoryTransaction.beat, MemoryTransaction.new]⟩

theorem step {a : Action} (h : BeatsOk s) (hreads : ReadsOk c s.rd)
    (ht : Memory.step c s a = some t) : BeatsOk t := by
  cases a with
  | readCallback addr outside =>
    obtain ⟨-, j, rest, -, rfl⟩ := readCallback_cases ht
    constructor
    · intro tx htx
      rcases List.mem_append.mp htx with htx | htx
      · obtain ⟨k, hk⟩ := h.mem tx htx
        exact ⟨k, List.mem_append_left _ hk⟩
      · exact ⟨j, List.mem_append_right _ (List.mem_map_of_mem htx)⟩
    · intro hvalid
      obtain ⟨tx, rest', hq', hlast⟩ := h.last hvalid
      exact ⟨tx, rest' ++ _, by rw [hq', List.cons_append], hlast⟩
  | writeCallback addr =>
    obtain ⟨-, j, rest, -, rfl⟩ := writeCallback_cases ht
    exact ⟨h.mem, h.last⟩
  | tryToEnqueueDdr accepts =>
    cases ht
    refine ⟨fun tx htx => ?_, h.last⟩
    obtain ⟨j, hj⟩ := h.mem tx htx
    refine ⟨j, ?_⟩
    simp only [State.tryToEnqueueDdr, DramReads.tryToEnqueue]
    split <;> exact hj
  | tickSignals translate i => exact h.tick hreads ht

theorem of_reaches {ok : State → Action → Prop} (h : (memory c).Reaches ok s) : BeatsOk s := by
  refine System.Reaches.invariant_of (J := fun s => ReadsOk c s.rd)
    (fun s hs => ReadsOk.of_reaches hs) ?_ ?_ h
  · exact ⟨by simp [memory, State.init], by simp [memory, State.init]⟩
  · intro s a t hreads hs _ ht
    exact hs.step hreads ht

end BeatsOk

/-! ### The addresses of the beats -/

section Placed

variable {c : Config} {tx : MemoryTransaction} {m : AddrPair} {n : ℕ} {tr : AddressTranslator}

/-- The address of the transaction is the one to which the mapping maps its beat `n`. -/
def MemoryTransaction.Placed (tx : MemoryTransaction) (m : AddrPair) (n : ℕ) : Prop :=
  m.fpgaAddr.toNat ≤ tx.fpgaAddr ∧
    tx.addr + m.fpgaAddr.toNat = m.cpuAddr + (tx.fpgaAddr + tx.beatOffset n)

theorem MemoryTransaction.Placed.inRegion (h : tx.Placed m n) {off : ℕ}
    (hoff : tx.fpgaAddr + tx.beatOffset n + off < m.fpgaEnd) : m.InRegion (tx.addr + off) := by
  obtain ⟨hle, haddr⟩ := h
  rw [AddrPair.fpgaEnd] at hoff
  rw [AddrPair.InRegion]
  omega

theorem MemoryTransaction.Placed.beat (h : tx.Placed m 0) (k : ℕ) (last : Bool) :
    (tx.beat c k last).Placed m k := by
  obtain ⟨hle, haddr⟩ := h
  refine ⟨hle, ?_⟩
  simp only [beatOffset, Nat.zero_mul, ite_self] at haddr
  simp only [MemoryTransaction.beat, new, beatOffset, Bool.false_eq_true, if_false]
  omega

theorem MemoryTransaction.Placed.writeBeat {s : DramWrites} {i : ℕ} (h : (s.tx i).Placed m n)
    (last : Bool) (rest : List ℕ) : ((s.writeBeat last i rest).tx i).Placed m (n + 1) := by
  obtain ⟨hle, haddr⟩ := h
  have hnext : (if (s.tx i).fixed then (s.tx i).addr else (s.tx i).addr + (s.tx i).size) +
      m.fpgaAddr.toNat = m.cpuAddr + ((s.tx i).fpgaAddr + (s.tx i).beatOffset (n + 1)) := by
    rw [beatOffset] at haddr ⊢
    split_ifs at haddr ⊢
    · exact haddr
    · rw [Nat.succ_mul]
      omega
  cases last with
  | false =>
    simp only [DramWrites.writeBeat, Bool.false_eq_true, if_false, Function.update_self]
    exact ⟨hle, hnext⟩
  | true =>
    simp only [DramWrites.writeBeat, if_true, Function.update_self]
    exact ⟨hle, hnext⟩

theorem AddressIn.toNat_getAddr (a : AddressIn) : (UInt64.ofNat a.getAddr).toNat = a.getAddr := by
  have hlt : a.getAddr < 2 ^ 32 := Nat.mod_lt _ (by decide)
  exact UInt64.toNat_ofNat_of_lt' (lt_trans hlt (by decide))

theorem exists_placed {a : AddressIn} {ad : ℕ}
    (h : tr.translate (.ofNat a.getAddr) = some ad) (size len id : ℕ) (fixed : Bool) :
    ∃ m, tr.find (.ofNat a.getAddr) = some m ∧
      (MemoryTransaction.new c ad size len 0 fixed id a.getAddr false).Placed m 0 := by
  obtain ⟨m, hfind, hle, -, haddr⟩ := AddressTranslator.translate_eq_some h
  rw [a.toNat_getAddr] at hle haddr
  refine ⟨m, hfind, hle, ?_⟩
  simpa [MemoryTransaction.beatOffset, MemoryTransaction.new] using haddr

end Placed

/-- The read bursts are placed in their mappings, and their beats end there. -/
def ReadsPlaced (c : Config) (s : DramReads) (regions : List AddrPair) : Prop :=
  List.Forall₂ (fun b m => b.Placed m 0 ∧ ∀ k < b.axiBusBeatsLength c, ∀ off < b.loadBytes,
    b.fpgaAddr + k * b.size + off < m.fpgaEnd) s.accepted regions

/-- The write bursts that await data are placed in their mappings. -/
structure WritesPlaced (s : DramWrites) (regions : List AddrPair)
    (stores : List (ℕ × ℕ × WriteDataIn)) : Prop where
  length_regions : regions.length = s.accepted.length
  store_lt : ∀ x ∈ stores, x.1 < s.accepted.length
  placed : ∀ j ∈ s.writeTransactions, ∃ m, regions[j]? = some m ∧
    (s.tx j).Placed m (keysOf stores j).length

namespace WritesPlaced

variable {s t : DramWrites} {regions : List AddrPair} {stores : List (ℕ × ℕ × WriteDataIn)} {i : ℕ}
  {rest : List ℕ}

theorem congr (h : WritesPlaced s regions stores) (haccepted : t.accepted = s.accepted)
    (hwaiting : t.writeTransactions = s.writeTransactions)
    (htx : ∀ j ∈ s.writeTransactions, t.tx j = s.tx j) : WritesPlaced t regions stores := by
  refine ⟨haccepted ▸ h.length_regions, haccepted ▸ h.store_lt, fun j hj => ?_⟩
  rw [hwaiting] at hj
  rw [htx j hj]
  exact h.placed j hj

theorem push (h : WritesPlaced s regions stores) (hok : WritesOk s) {tx : MemoryTransaction}
    {m : AddrPair} (hplaced : tx.Placed m 0) :
    WritesPlaced (s.push tx) (regions ++ [m]) stores := by
  have hself : (s.push tx).tx s.accepted.length = tx := Function.update_self ..
  have hother : ∀ j ∈ s.writeTransactions, (s.push tx).tx j = s.tx j := fun j hj =>
    Function.update_of_ne (hok.waiting_lt j hj).ne _ _
  have hnone : keysOf stores s.accepted.length = [] :=
    keysOf_eq_nil fun x hx => (h.store_lt x hx).ne
  refine ⟨?_, fun x hx => ?_, fun j hj => ?_⟩
  · simp [DramWrites.push, h.length_regions]
  · simp only [DramWrites.push, List.length_append]
    exact Nat.lt_add_right _ (h.store_lt x hx)
  · rcases List.mem_append.mp hj with hj | hj
    · obtain ⟨m', hm', hplaced'⟩ := h.placed j hj
      rw [hother j hj, List.getElem?_append_left (List.getElem?_eq_some_iff.mp hm').1]
      exact ⟨m', hm', hplaced'⟩
    · obtain rfl := List.mem_singleton.mp hj
      rw [hself, hnone, List.length_nil]
      exact ⟨m, by simp [← h.length_regions], hplaced⟩

theorem writeBeat (h : WritesPlaced s regions stores) (hok : WritesOk s)
    (hq : s.writeTransactions = i :: rest) (addr : ℕ) (w : WriteDataIn) :
    WritesPlaced (s.writeBeat w.last i rest) regions (stores ++ [(i, addr, w)]) := by
  have hi : i ∈ s.writeTransactions := by simp [hq]
  refine ⟨?_, fun x hx => ?_, fun j hj => ?_⟩
  · rw [DramWrites.accepted_writeBeat, h.length_regions]
  · rw [DramWrites.accepted_writeBeat]
    rcases List.mem_append.mp hx with hx | hx
    · exact h.store_lt x hx
    · obtain rfl := List.mem_singleton.mp hx
      exact hok.waiting_lt i hi
  · by_cases hji : j = i
    · subst hji
      obtain ⟨m, hm, hplaced⟩ := h.placed j hi
      refine ⟨m, hm, ?_⟩
      rw [keysOf_append, keysOf_singleton_self, List.length_append]
      exact hplaced.writeBeat w.last rest
    · have hmem : j ∈ s.writeTransactions := by
        rcases (DramWrites.mem_waiting_writeBeat hq).mp hj with hj | ⟨-, hj⟩
        · exact hq ▸ List.mem_cons_of_mem i hj
        · exact absurd hj hji
      rw [DramWrites.tx_writeBeat_of_ne hji, keysOf_append,
        keysOf_singleton_of_ne (Ne.symm hji), List.append_nil]
      exact h.placed j hmem

end WritesPlaced

section Placement

variable {c : Config} {s : State} {tr : AddressTranslator} {regions : List AddrPair}
  {stores : List (ℕ × ℕ × WriteDataIn)}

theorem ReadsPlaced.acceptAR {ar : AddressIn} {rd : DramReads} (h : ReadsPlaced c s.rd regions)
    (hfit : ∀ m ∈ s.mappingAR tr ar, ReadFits c ar m)
    (hrd : s.acceptAR c (fun a => tr.translate (.ofNat a)) ar = some rd) :
    ReadsPlaced c rd (regions ++ (s.mappingAR tr ar).toList) := by
  rw [State.acceptAR] at hrd
  rw [State.mappingAR] at hfit ⊢
  split_ifs at hrd hfit ⊢
  · obtain ⟨ad, had, rfl⟩ := Option.map_eq_some_iff.mp hrd
    obtain ⟨m, hfind, hplaced⟩ := exists_placed had (2 ^ (ar.size : ℕ)) (ar.len + 1) ar.id false
    rw [hfind]
    exact List.rel_append h (.cons ⟨hplaced, hfit m hfind⟩ .nil)
  · cases hrd
    simpa using h

theorem ReadsPlaced.inRegion (h : ReadsPlaced c s.rd regions) (hreads : ReadsOk c s.rd) {i : ℕ}
    {tx : MemoryTransaction} (hq : (i, tx) ∈ s.rd.queued) :
    ∃ m, regions[i]? = some m ∧ ∀ off < tx.loadBytes, m.InRegion (tx.addr + off) := by
  obtain ⟨b, k, last, hb, hk, rfl⟩ := hreads.exists_beat hq
  obtain ⟨hi, rfl⟩ := List.getElem?_eq_some_iff.mp hb
  have hi' : i < regions.length := h.length_eq ▸ hi
  obtain ⟨hplaced, hin⟩ := h.get hi hi'
  exact ⟨regions[i], List.getElem?_eq_getElem hi', fun off hoff =>
    (hplaced.beat k last).inRegion (hin k hk off hoff)⟩

theorem WritesPlaced.acceptAW {aw : AddressIn} {wr : DramWrites}
    (h : WritesPlaced s.wr regions stores) (hok : WritesOk s.wr)
    (hwr : s.acceptAW c (fun a => tr.translate (.ofNat a)) aw = some wr) :
    WritesPlaced wr (regions ++ (s.mappingAW tr aw).toList) stores := by
  rw [State.acceptAW] at hwr
  rw [State.mappingAW]
  split_ifs at hwr ⊢
  · obtain ⟨ad, had, rfl⟩ := Option.map_eq_some_iff.mp hwr
    obtain ⟨m, hfind, hplaced⟩ :=
      exists_placed (c := c) had (2 ^ (aw.size : ℕ)) (1 + aw.len) aw.id (aw.burst = 0)
    rw [hfind]
    exact h.push hok hplaced
  · cases hwr
    simpa using h

end Placement

/-! ### The runs of the port -/

section Run

variable {c : Config} {s t : State} {l : List Transfer} {tr : AddressTranslator} {i : Inputs}
  {a : Action}

/-- The invariant of the transfers. -/
structure TransfersOk (c : Config) (x : State × List Transfer) : Prop where
  reads : ReadsPlaced c x.1.rd (Transfer.regionsAR x.2)
  writes : WritesPlaced x.1.wr (Transfer.regionsAW x.2) (Transfer.stores x.2)
  load : ∀ tx ∈ Transfer.loads x.2, ∃ i, (i, tx) ∈ x.1.rd.queued
  store : ∀ j addr w, (j, addr, w) ∈ Transfer.stores x.2 →
    ∃ m, (Transfer.regionsAW x.2)[j]? = some m ∧
      ∀ off < c.dataBusBytes, w.getStrb off = true → m.InRegion (addr + off)

theorem reads_of_dram (ha : ∀ translate i, a ≠ .tickSignals translate i)
    (ht : step c s a = some t) :
    t.rd.accepted = s.rd.accepted ∧ s.rd.queued ⊆ t.rd.queued := by
  cases a with
  | readCallback addr outside =>
    obtain ⟨-, i, rest, -, rfl⟩ := readCallback_cases ht
    exact ⟨rfl, List.subset_append_left _ _⟩
  | writeCallback addr =>
    obtain ⟨-, i, rest, -, rfl⟩ := writeCallback_cases ht
    exact ⟨rfl, List.Subset.refl _⟩
  | tryToEnqueueDdr accepts =>
    cases ht
    simp only [State.tryToEnqueueDdr, DramReads.tryToEnqueue]
    split <;> exact ⟨rfl, List.Subset.refl _⟩
  | tickSignals translate i => exact absurd rfl (ha translate i)

theorem TransfersOk.dram (h : TransfersOk c (s, l)) (hok : WritesOk s.wr)
    (ha : ∀ translate i, a ≠ .tickSignals translate i) (ht : step c s a = some t) :
    TransfersOk c (t, l) := by
  obtain ⟨haccepted, hqueued⟩ := reads_of_dram ha ht
  rcases step_cases ht with ⟨translate, i, rfl⟩ | ⟨hdram, -, -⟩
  · exact absurd rfl (ha translate i)
  obtain ⟨haccepted', hwaiting, htx⟩ := hdram.waiting hok
  refine ⟨?_, h.writes.congr haccepted' hwaiting htx, fun tx hload => ?_, h.store⟩
  · rw [ReadsPlaced, haccepted]
    exact h.reads
  · obtain ⟨j, hj⟩ := h.load tx hload
    exact ⟨j, hqueued hj⟩

/-! The log of a tick. -/

section Log

variable {translate : ℕ → Option ℕ}

theorem Transfer.regionsAR_tick :
    regionsAR (l ++ transfers c s (tr, .tickSignals translate i)) =
      regionsAR l ++ (s.mappingAR tr i.ar).toList := by
  simp [regionsAR, transfers, List.filterMap_map]

theorem Transfer.loads_tick :
    loads (l ++ transfers c s (tr, .tickSignals translate i)) =
      loads l ++ (s.r.finishBeat i.rReady).readTransactions.head?.toList := by
  simp [loads, transfers, List.filterMap_map]

theorem Transfer.regionsAW_tick :
    regionsAW (l ++ transfers c s (tr, .tickSignals translate i)) =
      regionsAW l ++ (s.mappingAW tr i.aw).toList := by
  simp [regionsAW, transfers, List.filterMap_map]

theorem Transfer.stores_tick {wr : DramWrites}
    (hwr : s.acceptAW c (fun a => tr.translate (.ofNat a)) i.aw = some wr) :
    stores (l ++ transfers c s (tr, .tickSignals translate i)) =
      stores l ++ storesOf (beatEvents s i.w wr) := by
  simp [stores, transfers, List.filterMap_map, Action.under,
    writeEvents_tickSignals hwr, storesOf_responseEvents]

end Log

theorem store_cases (s : State) (w : WriteDataIn) (wr : DramWrites) (num : ℤ) :
    (s.acceptW c w wr num).1 = wr ∧ storesOf (beatEvents s w wr) = [] ∨
      ∃ j rest, wr.writeTransactions = j :: rest ∧ (w.valid && s.w.wReady) = true ∧
        (s.acceptW c w wr num).1 = wr.writeBeat w.last j rest ∧
        storesOf (beatEvents s w wr) = [(j, (wr.tx j).addr, w)] := by
  rw [State.acceptW, beatEvents]
  cases hq : wr.writeTransactions with
  | nil =>
    left
    split_ifs <;> exact ⟨rfl, rfl⟩
  | cons j rest =>
    by_cases hfire : (w.valid && s.w.wReady) = true
    · right
      refine ⟨j, rest, rfl, hfire, ?_, ?_⟩
      · simp only [hfire, if_true]
      · simp only [hfire, if_true]
        rfl
    · left
      rw [if_neg hfire]
      exact ⟨by simp only [hfire, Bool.false_eq_true, if_false], rfl⟩

section Tick

variable {translate : ℕ → Option ℕ}

theorem WritesPlaced.tick
    (h : WritesPlaced s.wr (Transfer.regionsAW l) (Transfer.stores l)) (hok : WritesOk s.wr)
    (ht : s.tickSignals c (fun a => tr.translate (.ofNat a)) i = some t) :
    WritesPlaced t.wr (Transfer.regionsAW (l ++ transfers c s (tr, .tickSignals translate i)))
      (Transfer.stores (l ++ transfers c s (tr, .tickSignals translate i))) := by
  obtain ⟨wr, num, hwr, htwr, -⟩ := State.tickSignals_write ht
  have hplaced := h.acceptAW hok hwr
  rw [Transfer.regionsAW_tick, Transfer.stores_tick hwr, htwr]
  rcases store_cases s i.w wr num with ⟨hwr', hstores⟩ | ⟨j, rest, hq, -, hwr', hstores⟩
  · rw [hwr', hstores, List.append_nil]
    exact hplaced
  · rw [hwr', hstores]
    exact hplaced.writeBeat (hok.writeStep (writeStep_acceptAW hwr)) hq _ _

theorem BeatsOk.loads_tick (h : BeatsOk s)
    (hload : ∀ tx ∈ Transfer.loads l, ∃ k, (k, tx) ∈ s.rd.queued)
    (ht : s.tickSignals c (fun a => tr.translate (.ofNat a)) i = some t) :
    ∀ tx ∈ Transfer.loads (l ++ transfers c s (tr, .tickSignals translate i)),
      ∃ k, (k, tx) ∈ t.rd.queued := by
  intro tx htx
  rw [State.queued_acceptAR (State.tickSignals_read ht).1]
  rw [Transfer.loads_tick] at htx
  rcases List.mem_append.mp htx with htx | htx
  · exact hload tx htx
  · exact h.mem tx (h.finishBeat_subset i.rReady
      (List.mem_of_mem_head? (Option.mem_toList.mp htx)))

theorem TransfersOk.tick (h : TransfersOk c (s, l)) (hok : WritesOk s.wr) (hbeats : BeatsOk s)
    (hfit : BurstsFit c (s, l) (tr, .tickSignals translate i))
    (ht : s.tickSignals c (fun a => tr.translate (.ofNat a)) i = some t) :
    TransfersOk c (t, l ++ transfers c s (tr, .tickSignals translate i)) := by
  obtain ⟨hread, hwrite⟩ := hfit
  obtain ⟨hrd, -⟩ := State.tickSignals_read ht
  obtain ⟨wr, num, hwr, -, -⟩ := State.tickSignals_write ht
  have hplaced := h.writes.acceptAW hok hwr
  have hreads : ReadsPlaced c t.rd
      (Transfer.regionsAR (l ++ transfers c s (tr, .tickSignals translate i))) := by
    rw [Transfer.regionsAR_tick]
    exact h.reads.acceptAR hread hrd
  refine ⟨hreads, h.writes.tick hok ht, hbeats.loads_tick h.load ht, fun k addr w hmem => ?_⟩
  dsimp only at hmem ⊢
  rw [Transfer.stores_tick hwr] at hmem
  rw [Transfer.regionsAW_tick]
  rcases List.mem_append.mp hmem with hmem | hmem
  · obtain ⟨m, hm, hin⟩ := h.store k addr w hmem
    rw [List.getElem?_append_left (List.getElem?_eq_some_iff.mp hm).1]
    exact ⟨m, hm, hin⟩
  -- the beat that is stored lies in the mapping of its burst
  rcases store_cases (c := c) s i.w wr num with ⟨-, hstores⟩ | ⟨j, rest, hq, hfire, -, hstores⟩
  · rw [hstores] at hmem
    cases hmem
  · rw [hstores] at hmem
    obtain ⟨rfl, rfl, rfl⟩ : k = j ∧ addr = (wr.tx j).addr ∧ w = i.w := by
      simpa using hmem
    obtain ⟨m, hm, hbeat⟩ := hplaced.placed k (by simp [hq])
    exact ⟨m, hm, fun off hoff hstrb => hbeat.inRegion
      (hwrite hfire wr hwr k (by simp [hq]) m hm off hoff hstrb)⟩

end Tick

theorem TransfersOk.of_reaches {x : State × List Transfer}
    (h : (transferPort c).Reaches (BurstsFit c) x) : TransfersOk c x := by
  refine System.Reaches.invariant_of (I := TransfersOk c)
    (J := fun x => WritesOk x.1.wr ∧ BeatsOk x.1) (fun x hx => ?_) ?_ ?_ h
  · have hreach := hx.of_logged.of_relabel
    exact ⟨WritesOk.of_reaches hreach, BeatsOk.of_reaches hreach⟩
  · refine ⟨.nil, ⟨rfl, ?_, ?_⟩, ?_, ?_⟩ <;>
      simp [transferPort, System.logged, System.relabel, memory, State.init, Transfer.stores,
        Transfer.loads]
  · rintro ⟨s, l⟩ ⟨tr, a⟩ ⟨t, l'⟩ ⟨hok, hbeats⟩ hx hfit hstep
    obtain ⟨ht, rfl⟩ := System.logged_step hstep
    dsimp only at hok hbeats ht ⊢
    cases a with
    | readCallback addr outside =>
      rw [transfers, List.append_nil]
      exact hx.dram (a := .readCallback addr outside) hok (by simp) ht
    | writeCallback addr =>
      rw [transfers, List.append_nil]
      exact hx.dram (a := .writeCallback addr) hok (by simp) ht
    | tryToEnqueueDdr accepts =>
      rw [transfers, List.append_nil]
      exact hx.dram (a := .tryToEnqueueDdr accepts) hok (by simp) ht
    | tickSignals translate i => exact hx.tick hok hbeats hfit ht

end Run

/-- A translator with a single mapping. -/
def singleMapping (m : AddrPair) : AddressTranslator := ⟨[m], List.pairwise_singleton _ _⟩

/-- A read burst of four beats and a write burst of two beats, both at the address 64, under a
mapping of `length` bytes at that address. -/
def burstsAtMapping (length : UInt64) : List (AddressTranslator × Action) :=
  let beat : WriteDataIn := ⟨true, fun _ => 5, 255, false⟩
  let callback (addr : ℕ) : Action := .readCallback addr fun _ => false
  let tick (i : Inputs) : Action := .tickSignals (fun _ => none) i
  [tick .idle, tick { Inputs.idle with ar := .incr 7 3 64 3, aw := .incr 3 3 64 1 },
    .tryToEnqueueDdr fun _ _ => true, .tryToEnqueueDdr fun _ _ => true, callback 64, callback 80,
    tick { Inputs.idle with w := beat }, tick { Inputs.idle with rReady := true },
    tick { Inputs.idle with w := { beat with last := true }, rReady := true },
    tick { Inputs.idle with rReady := true }].map (singleMapping ⟨64, length, 4096⟩, ·)

end Beethoven.Memory
