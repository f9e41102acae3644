import Beethoven.Memory.Delivery
import Beethoven.Memory.Writes

/-!
# The data of write bursts

AXI lets a master present the data of a write burst before, with or after its address. The port
takes a beat of data whenever `wready` is high, and drives `wready` from the number of writes in
flight; but a beat that comes while no burst awaits data is not stored (`not_noWriteLost`). The data
of all bursts is stored, beat by beat, in the runs in which every beat finds a burst that awaits it
(`BeatsFollow`).

What happens on the write channels is recorded in a log. The beats of all accepted bursts, in the
order in which AXI asks for their data, are the slots of the bursts; the beats of data are meant for
the slots in order.
-/

namespace Beethoven.Memory

open Lib

/-! ### The log -/

/-- What happens on the write channels: a W handshake, the store of a beat for a burst at an address
of the host, a B handshake. -/
inductive WriteEvent where
  | beat (w : WriteDataIn)
  | store (burst addr : ℕ) (w : WriteDataIn)
  | response (id : ℕ)

/-- The B channel in a tick. -/
def responseEvents (s : State) (i : Inputs) : List WriteEvent :=
  if i.bReady && s.w.bValid then [.response s.w.bId] else []

/-- The W channel in a tick, after the AW channel has left the transactions `wr`: a beat of data is
stored for the oldest burst that awaits data. -/
def beatEvents (s : State) (w : WriteDataIn) (wr : DramWrites) : List WriteEvent :=
  if w.valid && s.w.wReady then
    .beat w :: match wr.writeTransactions with
      | [] => []
      | i :: _ => [.store i (wr.tx i).addr w]
  else []

def writeEvents (c : Config) (s : State) : Action → List WriteEvent
  | .tickSignals translate i =>
    responseEvents s i ++ (s.acceptAW c translate i.aw).toList.flatMap (beatEvents s i.w)
  | _ => []

/-- The port with a log of its write channels. -/
def writePort (c : Config) : System (State × List WriteEvent) Action :=
  (memory c).logged (writeEvents c)

def beatsOf (l : List WriteEvent) : List WriteDataIn :=
  l.filterMap fun
    | .beat w => some w
    | _ => none

/-- The stores of a log, each with its burst and its address. -/
def storesOf (l : List WriteEvent) : List (ℕ × ℕ × WriteDataIn) :=
  l.filterMap fun
    | .store burst addr w => some (burst, addr, w)
    | _ => none

@[simp] theorem beatsOf_append (l l' : List WriteEvent) :
    beatsOf (l ++ l') = beatsOf l ++ beatsOf l' :=
  List.filterMap_append

@[simp] theorem storesOf_append (l l' : List WriteEvent) :
    storesOf (l ++ l') = storesOf l ++ storesOf l' :=
  List.filterMap_append

theorem beatsOf_responseEvents (s : State) (i : Inputs) : beatsOf (responseEvents s i) = [] := by
  rw [responseEvents]
  split_ifs <;> rfl

theorem storesOf_responseEvents (s : State) (i : Inputs) :
    storesOf (responseEvents s i) = [] := by
  rw [responseEvents]
  split_ifs <;> rfl

theorem writeEvents_tickSignals {c : Config} {s : State} {translate : ℕ → Option ℕ} {i : Inputs}
    {wr : DramWrites} (h : s.acceptAW c translate i.aw = some wr) :
    writeEvents c s (.tickSignals translate i) = responseEvents s i ++ beatEvents s i.w wr := by
  simp [writeEvents, h]

/-! ### The beats that bursts ask for -/

/-- A beat of a burst: the number of the burst, the address of the beat and whether it is the last
one. -/
structure BeatSlot where
  burst : ℕ
  addr : ℕ
  last : Bool
  deriving DecidableEq, Repr

/-- The beats that the transaction with number `i` still lacks. -/
def MemoryTransaction.lacking (i : ℕ) (tx : MemoryTransaction) : List BeatSlot :=
  let left := tx.len - tx.axiBusBeatsProgress.toNat
  (List.range left).map fun k =>
    ⟨i, if tx.fixed then tx.addr else tx.addr + k * tx.size, k + 1 = left⟩

/-- The beats of bursts in the order of their acceptance. -/
def slots (accepted : List MemoryTransaction) : List BeatSlot :=
  accepted.zipIdx.flatMap fun x => x.1.lacking x.2

theorem slots_append (accepted : List MemoryTransaction) (tx : MemoryTransaction) :
    slots (accepted ++ [tx]) = slots accepted ++ tx.lacking accepted.length := by
  simp [slots, List.zipIdx_append]

/-- The data of the beats `beats` goes to the slots `l` in order. -/
def storesTo (l : List BeatSlot) (beats : List WriteDataIn) : List (ℕ × ℕ × WriteDataIn) :=
  List.zipWith (fun slot w => (slot.burst, slot.addr, w)) l beats

theorem storesTo_append_left {l : List BeatSlot} {beats : List WriteDataIn}
    (h : l.length = beats.length) (l' : List BeatSlot) :
    storesTo (l ++ l') beats = storesTo l beats := by
  have hsplit : storesTo (l ++ l') (beats ++ []) = storesTo l beats ++ storesTo l' [] :=
    List.zipWith_append h
  simpa [storesTo] using hsplit

/-- Every beat is stored once, for the oldest burst that lacks beats and at the address of its next
beat, and nothing else is stored. -/
structure NoWriteLost (c : Config) (s : State × List WriteEvent) : Prop where
  stores : storesOf s.2 = storesTo (slots s.1.wr.accepted) (beatsOf s.2)
  host : s.1.host =
    (storesOf s.2).foldl (fun host x => State.storeBeat c x.2.2 x.2.1 host) State.init.host

/-- The beats that are the last ones of their bursts are marked so, and no others. -/
def LastMarked (x : State × List WriteEvent) : Prop :=
  ∀ y ∈ (slots x.1.wr.accepted).zip (beatsOf x.2), y.2.last = y.1.last

/-- A beat of data comes only for a burst that has been accepted, at the latest in the same tick,
and is marked as the last one exactly if it is. -/
def BeatsFollow (c : Config) (s : State × List WriteEvent) : Action → Prop
  | .tickSignals translate i => (i.w.valid && s.1.w.wReady) = true →
      ∀ wr ∈ s.1.acceptAW c translate i.aw,
        ∃ slot ∈ (slots wr.accepted)[(beatsOf s.2).length]?, i.w.last = slot.last
  | _ => True

instance (c : Config) (s : State × List WriteEvent) : (a : Action) → Decidable (BeatsFollow c s a)
  | .tickSignals translate i => inferInstanceAs (Decidable ((i.w.valid && s.1.w.wReady) = true →
      ∀ wr ∈ s.1.acceptAW c translate i.aw,
        ∃ slot ∈ (slots wr.accepted)[(beatsOf s.2).length]?, i.w.last = slot.last))
  | .readCallback _ _ => isTrue trivial
  | .writeCallback _ => isTrue trivial
  | .tryToEnqueueDdr _ => isTrue trivial

/-! ### The bursts that await data -/

namespace MemoryTransaction

variable {tx : MemoryTransaction} {i : ℕ}

/-- The transaction has not got all its beats. -/
def Awaiting (tx : MemoryTransaction) : Prop :=
  0 ≤ tx.axiBusBeatsProgress ∧ tx.axiBusBeatsProgress < tx.len

/-- The transaction after a beat that is not the last one. -/
def nextBeat (tx : MemoryTransaction) : MemoryTransaction :=
  { tx with
    addr := if tx.fixed then tx.addr else tx.addr + tx.size
    axiBusBeatsProgress := tx.axiBusBeatsProgress + 1 }

theorem lacking_eq_cons (h : tx.Awaiting) :
    tx.lacking i = ⟨i, tx.addr, tx.axiBusBeatsProgress + 1 = tx.len⟩ :: tx.nextBeat.lacking i := by
  obtain ⟨hnonneg, hlt⟩ := h
  obtain ⟨left, hleft⟩ : ∃ left, tx.len - tx.axiBusBeatsProgress.toNat = left + 1 :=
    ⟨tx.len - tx.axiBusBeatsProgress.toNat - 1, by omega⟩
  have hnext : tx.len - (tx.axiBusBeatsProgress + 1).toNat = left := by omega
  simp only [lacking, nextBeat, hleft, hnext, List.range_succ_eq_map, List.map_cons, List.map_map,
    List.cons.injEq, BeatSlot.mk.injEq, true_and]
  refine ⟨⟨?_, ?_⟩, ?_⟩
  · split_ifs <;> omega
  · rw [decide_eq_decide]
    omega
  · refine List.map_congr_left fun k _ => ?_
    simp only [Function.comp, BeatSlot.mk.injEq, true_and]
    refine ⟨?_, ?_⟩
    · split_ifs
      · rfl
      · rw [Nat.succ_mul]
        omega
    · rw [decide_eq_decide]
      omega

theorem lacking_nextBeat (h : tx.axiBusBeatsProgress + 1 = tx.len) :
    tx.nextBeat.lacking i = [] := by
  have hleft : tx.len - (tx.axiBusBeatsProgress + 1).toNat = 0 := by omega
  simp [lacking, nextBeat, hleft]

theorem awaiting_new (c : Config) (addr size id fpgaAddr : ℕ) {len : ℕ} (fixed : Bool)
    (hlen : 0 < len) : (new c addr size len 0 fixed id fpgaAddr false).Awaiting := by
  simp only [Awaiting, new]
  omega

end MemoryTransaction

/-- The invariant of the bursts that await data: the slots that have not got their data are those
that these bursts lack. -/
structure DataOk (s : DramWrites) (l : List WriteEvent) : Prop where
  awaiting : ∀ i ∈ s.writeTransactions, (s.tx i).Awaiting
  slots : ∃ used, slots s.accepted = used ++ s.writeTransactions.flatMap
      (fun i => (s.tx i).lacking i) ∧
    used.length = (beatsOf l).length ∧ storesOf l = storesTo used (beatsOf l)

namespace DataOk

variable {c : Config} {s t : DramWrites} {l : List WriteEvent} {i : ℕ} {rest : List ℕ}

theorem congr (h : DataOk s l) (haccepted : t.accepted = s.accepted)
    (hwaiting : t.writeTransactions = s.writeTransactions)
    (htx : ∀ j ∈ s.writeTransactions, t.tx j = s.tx j) : DataOk t l := by
  obtain ⟨used, hslots, hused⟩ := h.slots
  refine ⟨fun j hj => ?_, used, ?_, hused⟩
  · rw [hwaiting] at hj
    rw [htx j hj]
    exact h.awaiting j hj
  · rw [haccepted, hwaiting, hslots]
    congr 1
    exact List.flatMap_congr fun j hj => by rw [htx j hj]

theorem push (h : DataOk s l) (hok : WritesOk s) {tx : MemoryTransaction} (htx : tx.Awaiting) :
    DataOk (s.push tx) l := by
  obtain ⟨used, hslots, hused⟩ := h.slots
  have hother : ∀ j ∈ s.writeTransactions, (s.push tx).tx j = s.tx j := fun j hj =>
    Function.update_of_ne (hok.waiting_lt j hj).ne _ _
  have hself : (s.push tx).tx s.accepted.length = tx := Function.update_self ..
  refine ⟨fun j hj => ?_, used, ?_, hused⟩
  · rcases List.mem_append.mp hj with hj | hj
    · rw [hother j hj]
      exact h.awaiting j hj
    · rw [List.mem_singleton.mp hj, hself]
      exact htx
  · have hold : s.writeTransactions.flatMap (fun j => ((s.push tx).tx j).lacking j) =
        s.writeTransactions.flatMap fun j => (s.tx j).lacking j :=
      List.flatMap_congr fun j hj => by rw [hother j hj]
    simp only [DramWrites.push] at hold hself ⊢
    rw [slots_append, hslots, List.flatMap_append, hold, List.flatMap_singleton, hself,
      List.append_assoc]

theorem writeBeat (h : DataOk s l) (hok : WritesOk s) (hq : s.writeTransactions = i :: rest)
    {w : WriteDataIn} (hlast : w.last = decide ((s.tx i).axiBusBeatsProgress + 1 = (s.tx i).len)) :
    DataOk (s.writeBeat w.last i rest) (l ++ [.beat w, .store i (s.tx i).addr w]) := by
  obtain ⟨used, hslots, hlength, hstores⟩ := h.slots
  have hawaiting := h.awaiting i (by simp [hq])
  have hnodup := hok.nodup_waiting
  rw [hq, List.nodup_cons] at hnodup
  have hne : ∀ j ∈ rest, j ≠ i := fun j hj hji => hnodup.1 (hji ▸ hj)
  have hrest : ∀ j ∈ rest, (s.writeBeat w.last i rest).tx j = s.tx j := fun j hj =>
    DramWrites.tx_writeBeat_of_ne (hne j hj)
  have hold : rest.flatMap (fun j => ((s.writeBeat w.last i rest).tx j).lacking j) =
      rest.flatMap fun j => (s.tx j).lacking j :=
    List.flatMap_congr fun j hj => by rw [hrest j hj]
  -- the burst that gets the beat leaves the queue if the beat is the last one
  obtain ⟨hleft, hawaits⟩ :
      (s.tx i).nextBeat.lacking i ++ rest.flatMap (fun j => (s.tx j).lacking j) =
      (s.writeBeat w.last i rest).writeTransactions.flatMap
        (fun j => ((s.writeBeat w.last i rest).tx j).lacking j) ∧
      ∀ j ∈ (s.writeBeat w.last i rest).writeTransactions, j ∉ rest →
        ((s.writeBeat w.last i rest).tx j).Awaiting := by
    by_cases hend : (s.tx i).axiBusBeatsProgress + 1 = (s.tx i).len
    · have hwaiting : (s.writeBeat w.last i rest).writeTransactions = rest := by
        simp [DramWrites.writeBeat, hlast, hend]
      rw [hwaiting, hold, MemoryTransaction.lacking_nextBeat hend]
      exact ⟨rfl, fun j hj hj' => absurd hj hj'⟩
    · have hwaiting : (s.writeBeat w.last i rest).writeTransactions = i :: rest := by
        simp [DramWrites.writeBeat, hlast, hend, hq]
      have hself : (s.writeBeat w.last i rest).tx i = (s.tx i).nextBeat := by
        simp [DramWrites.writeBeat, hlast, hend, MemoryTransaction.nextBeat]
      rw [hwaiting, List.flatMap_cons, hold, hself]
      refine ⟨rfl, fun j hj hj' => ?_⟩
      obtain rfl := (List.mem_cons.mp hj).resolve_right hj'
      rw [hself]
      obtain ⟨hnonneg, hlt⟩ := hawaiting
      simp only [MemoryTransaction.Awaiting, MemoryTransaction.nextBeat]
      omega
  refine ⟨fun j hj => ?_,
    used ++ [⟨i, (s.tx i).addr, (s.tx i).axiBusBeatsProgress + 1 = (s.tx i).len⟩], ?_, ?_, ?_⟩
  · by_cases hj' : j ∈ rest
    · rw [hrest j hj']
      exact h.awaiting j (hq ▸ List.mem_cons_of_mem i hj')
    · exact hawaits j hj hj'
  · rw [DramWrites.accepted_writeBeat, hslots, ← hleft, hq, List.flatMap_cons,
      MemoryTransaction.lacking_eq_cons hawaiting]
    simp
  · simp [beatsOf, hlength]
  · have hbeats : beatsOf (l ++ [.beat w, .store i (s.tx i).addr w]) = beatsOf l ++ [w] := by
      simp [beatsOf]
    rw [hbeats, storesTo, List.zipWith_append hlength, storesOf_append, hstores]
    rfl

theorem getElem?_slots (h : DataOk s l) (hq : s.writeTransactions = i :: rest) :
    (Memory.slots s.accepted)[(beatsOf l).length]? =
      some ⟨i, (s.tx i).addr, (s.tx i).axiBusBeatsProgress + 1 = (s.tx i).len⟩ := by
  obtain ⟨used, hslots, hlength, -⟩ := h.slots
  have hawaiting := h.awaiting i (by simp [hq])
  rw [hslots, ← hlength, List.getElem?_append_right le_rfl, Nat.sub_self, hq, List.flatMap_cons,
    MemoryTransaction.lacking_eq_cons hawaiting]
  rfl

theorem next_slot (h : DataOk s l) {slot : BeatSlot}
    (hslot : slot ∈ (Memory.slots s.accepted)[(beatsOf l).length]?) :
    ∃ i rest, s.writeTransactions = i :: rest ∧
      slot.last = decide ((s.tx i).axiBusBeatsProgress + 1 = (s.tx i).len) := by
  cases hq : s.writeTransactions with
  | nil =>
    obtain ⟨used, hslots, hlength, -⟩ := h.slots
    simp [hslots, hq, hlength] at hslot
  | cons i rest =>
    rw [h.getElem?_slots hq] at hslot
    obtain rfl : _ = slot := Option.some.inj hslot
    exact ⟨i, rest, rfl, rfl⟩

end DataOk

/-! ### The runs of the port -/

section Run

variable {c : Config} {s t : State} {translate : ℕ → Option ℕ} {i : Inputs}

theorem State.tickSignals_write (h : s.tickSignals c translate i = some t) :
    ∃ wr num, s.acceptAW c translate i.aw = some wr ∧ t.wr = (s.acceptW c i.w wr num).1 ∧
      t.host = (s.acceptW c i.w wr num).2.2 ∧ t.w.wReady = (s.acceptW c i.w wr num).2.1 := by
  obtain ⟨rd, -, h⟩ := Option.bind_eq_some_iff.mp h
  obtain ⟨wr, hwr, h⟩ := Option.bind_eq_some_iff.mp h
  cases h
  exact ⟨wr, _, hwr, rfl, rfl, rfl⟩

theorem State.acceptW_frame (w : WriteDataIn) (wr : DramWrites) (num : ℤ) :
    (s.acceptW c w wr num).1.responses = wr.responses ∧
      (s.acceptW c w wr num).1.accepted = wr.accepted := by
  rw [State.acceptW]
  split
  · exact ⟨rfl, rfl⟩
  · by_cases hfire : (w.valid && s.w.wReady) = true
    · rw [if_pos hfire]
      exact ⟨by cases w.last <;> rfl, DramWrites.accepted_writeBeat⟩
    · rw [if_neg hfire]
      exact ⟨rfl, rfl⟩

theorem DataOk.acceptAW {l : List WriteEvent} {wr : DramWrites} {aw : AddressIn}
    (h : DataOk s.wr l) (hok : WritesOk s.wr) (hwr : s.acceptAW c translate aw = some wr) :
    DataOk wr l ∧ WritesOk wr := by
  rw [State.acceptAW] at hwr
  split_ifs at hwr
  · obtain ⟨addr, -, rfl⟩ := Option.map_eq_some_iff.mp hwr
    exact ⟨h.push hok (MemoryTransaction.awaiting_new _ _ _ _ _ _ (by omega)), hok.push _⟩
  · cases hwr
    exact ⟨h, hok⟩

/-- The W channel in a tick in which a beat of data comes only for a burst that awaits it, after the
AW channel has left the transactions `wr`. -/
inductive BeatCase (s : State) (w : WriteDataIn) (wr : DramWrites) (t : State) : Prop
  | none (hwr : t.wr = wr) (hevents : beatEvents s w wr = [])
  | beat {j : ℕ} {rest : List ℕ} (hq : wr.writeTransactions = j :: rest)
      (hlast : w.last = decide ((wr.tx j).axiBusBeatsProgress + 1 = (wr.tx j).len))
      (hwr : t.wr = wr.writeBeat w.last j rest)
      (hevents : beatEvents s w wr = [.beat w, .store j (wr.tx j).addr w])

theorem DataOk.beat_cases {l : List WriteEvent} {wr : DramWrites} {num : ℤ} (h : DataOk wr l)
    (hwr : s.acceptAW c translate i.aw = some wr)
    (hfollow : BeatsFollow c (s, l) (.tickSignals translate i))
    (htwr : t.wr = (s.acceptW c i.w wr num).1) : BeatCase s i.w wr t := by
  by_cases hfire : (i.w.valid && s.w.wReady) = true
  · obtain ⟨slot, hslot, hlast⟩ := hfollow hfire wr hwr
    obtain ⟨j, rest, hq, hend⟩ := h.next_slot hslot
    refine .beat hq (hlast.trans hend) ?_ ?_
    · simp only [htwr, State.acceptW, hq, if_pos hfire]
    · simp only [beatEvents, hq, if_pos hfire]
  · refine .none ?_ (if_neg hfire)
    rw [htwr, State.acceptW]
    split
    · rfl
    · rw [if_neg hfire]

theorem DataOk.tick {l : List WriteEvent} (h : DataOk s.wr l) (hok : WritesOk s.wr)
    (hfollow : BeatsFollow c (s, l) (.tickSignals translate i))
    (ht : s.tickSignals c translate i = some t) :
    DataOk t.wr (l ++ writeEvents c s (.tickSignals translate i)) := by
  obtain ⟨wr, num, hwr, htwr, -⟩ := State.tickSignals_write ht
  obtain ⟨hdata, hok'⟩ := h.acceptAW hok hwr
  have hdata' : DataOk wr (l ++ responseEvents s i) := by
    obtain ⟨used, hused⟩ := hdata.slots
    refine ⟨hdata.awaiting, used, ?_⟩
    rwa [beatsOf_append, storesOf_append, beatsOf_responseEvents, storesOf_responseEvents,
      List.append_nil, List.append_nil]
  rw [writeEvents_tickSignals hwr, ← List.append_assoc]
  cases hdata.beat_cases hwr hfollow htwr with
  | none hwr' hevents =>
    rw [hwr', hevents, List.append_nil]
    exact hdata'
  | beat hq hlast hwr' hevents =>
    rw [hwr', hevents]
    exact hdata'.writeBeat hok' hq hlast

/-- The host's memory has what the log says was stored. -/
def HostOk (c : Config) (x : State × List WriteEvent) : Prop :=
  x.1.host = (storesOf x.2).foldl (fun host x => State.storeBeat c x.2.2 x.2.1 host) State.init.host

theorem HostOk.tick {l : List WriteEvent} (h : HostOk c (s, l))
    (ht : s.tickSignals c translate i = some t) :
    HostOk c (t, l ++ writeEvents c s (.tickSignals translate i)) := by
  obtain ⟨wr, num, hwr, -, hhost, -⟩ := State.tickSignals_write ht
  rw [HostOk, writeEvents_tickSignals hwr, storesOf_append, storesOf_append,
    storesOf_responseEvents, List.nil_append, List.foldl_append, hhost, State.acceptW, beatEvents]
  have hbefore : s.host = _ := h
  by_cases hfire : (i.w.valid && s.w.wReady) = true
  · cases hq : wr.writeTransactions with
    | nil => simpa [hfire, storesOf] using hbefore
    | cons j rest =>
      simp only [hfire, if_true]
      rw [hbefore]
      rfl
  · cases hq : wr.writeTransactions <;> simpa [hfire, storesOf] using hbefore

/-- What the DRAM does to the write transactions and the B channel. -/
inductive DramStep (c : Config) (s t : State) : Prop
  | stay (hwr : t.wr = s.wr) (hw : t.w = s.w)
  | issue {i : ℕ} (hi : i ∈ s.wr.ddrWriteQ) (hwr : t.wr = s.wr.issue c i) (hw : t.w = s.w)
  | complete {addr i : ℕ} {rest : List ℕ} (haddr : addr ∈ s.wr.outstanding)
      (hq : s.wr.inFlightWrites addr = i :: rest) (hwr : t.wr = s.wr.complete addr i rest)
      (hw : t.w = { s.w with
        toEnqueue := if s.wr.responds i then s.w.toEnqueue ++ [(s.wr.tx i).id]
          else s.w.toEnqueue })

theorem DramStep.waiting (h : DramStep c s t) (hok : WritesOk s.wr) :
    t.wr.accepted = s.wr.accepted ∧ t.wr.writeTransactions = s.wr.writeTransactions ∧
      ∀ j ∈ s.wr.writeTransactions, t.wr.tx j = s.wr.tx j := by
  cases h with
  | stay hwr hw => exact ⟨by rw [hwr], by rw [hwr], fun j _ => by rw [hwr]⟩
  | @issue i hi hwr hw =>
    rw [hwr]
    refine ⟨rfl, rfl, fun j hj => ?_⟩
    have hji : j ≠ i := by
      rintro rfl
      exact hok.not_launched j hj (.inl hi)
    exact Function.update_of_ne hji _ _
  | @complete addr i rest haddr hq hwr hw =>
    rw [hwr]
    refine ⟨rfl, rfl, fun j hj => ?_⟩
    have hji : j ≠ i := by
      rintro rfl
      exact hok.not_launched j hj (hok.launched_of_inFlight hq)
    exact Function.update_of_ne hji _ _

/-- **The steps of the port**: a tick of the AXI channels, or a step of the DRAM, which leaves the
host's memory and the channels alone. -/
theorem step_cases {a : Action} (h : step c s a = some t) :
    (∃ translate i, a = .tickSignals translate i) ∨
      DramStep c s t ∧ t.host = s.host ∧ writeEvents c s a = [] := by
  cases a with
  | readCallback addr outside =>
    obtain ⟨-, i, rest, -, rfl⟩ := readCallback_cases h
    exact .inr ⟨.stay rfl rfl, rfl, rfl⟩
  | writeCallback addr =>
    obtain ⟨haddr, i, rest, hq, rfl⟩ := writeCallback_cases h
    exact .inr ⟨.complete haddr hq rfl rfl, rfl, rfl⟩
  | tryToEnqueueDdr accepts =>
    cases h
    refine .inr ⟨?_, rfl, rfl⟩
    simp only [State.tryToEnqueueDdr, DramWrites.tryToEnqueue]
    split
    · exact .stay rfl rfl
    · next i hi => exact .issue (List.mem_of_find?_eq_some hi) rfl rfl
  | tickSignals translate i => exact .inl ⟨translate, i, rfl⟩

theorem HostOk.of_reaches {ok : State × List WriteEvent → Action → Prop}
    {x : State × List WriteEvent} (h : (writePort c).Reaches ok x) : HostOk c x := by
  refine System.Reaches.invariant (I := HostOk c) ?_ ?_ h
  · rfl
  rintro ⟨s, l⟩ a ⟨t, l'⟩ hx _ hstep
  obtain ⟨ht, rfl⟩ := System.logged_step hstep
  rcases step_cases ht with ⟨translate, i, rfl⟩ | ⟨-, hhost, hevents⟩
  · exact hx.tick ht
  · dsimp only at ht hhost hevents ⊢
    rw [hevents, List.append_nil, HostOk, hhost]
    exact hx

theorem DataOk.of_reaches {x : State × List WriteEvent}
    (h : (writePort c).Reaches (BeatsFollow c) x) : DataOk x.1.wr x.2 := by
  refine System.Reaches.invariant_of (I := fun x => DataOk x.1.wr x.2)
    (J := fun x => WritesOk x.1.wr) (fun x hx => WritesOk.of_reaches hx.of_logged) ?_ ?_ h
  · exact ⟨by simp [System.logged, memory, State.init], [], rfl, rfl, rfl⟩
  · rintro ⟨s, l⟩ a ⟨t, l'⟩ hok hx hfollow hstep
    obtain ⟨ht, rfl⟩ := System.logged_step hstep
    rcases step_cases ht with ⟨translate, i, rfl⟩ | ⟨hdram, -, hevents⟩
    · exact hx.tick hok hfollow ht
    · dsimp only at hdram hevents hx hok ⊢
      obtain ⟨haccepted, hwaiting, htx⟩ := hdram.waiting hok
      rw [hevents, List.append_nil]
      exact hx.congr haccepted hwaiting htx

end Run

/-- **No write data is lost**, in the runs in which every beat of data finds a burst that awaits it:
every beat is stored at once and once, as the next beat of the oldest burst that lacks beats. -/
theorem noWriteLost_of_reaches {c : Config} {x : State × List WriteEvent}
    (h : (writePort c).Reaches (BeatsFollow c) x) :
    NoWriteLost c x ∧ (storesOf x.2).length = (beatsOf x.2).length := by
  obtain ⟨used, hslots, hlength, hstores⟩ := (DataOk.of_reaches h).slots
  refine ⟨⟨?_, HostOk.of_reaches h⟩, ?_⟩
  · rw [hstores, hslots, storesTo_append_left hlength]
  · rw [hstores, storesTo, List.length_zipWith, hlength, Nat.min_self]

/-- A burst of two beats is written. -/
theorem noWriteLost_two_beats : ∃ x, (writePort smallConfig).Reaches (BeatsFollow smallConfig) x ∧
    (storesOf x.2).length = 2 ∧ NoWriteLost smallConfig x := by
  let beat : WriteDataIn := ⟨true, fun _ => 5, 1, false⟩
  let address : AddressIn := .incr 3 3 64 1
  let translate : ℕ → Option ℕ := fun addr => some (addr + 4096)
  obtain ⟨x, hreach, hstores⟩ := System.exists_reaches (writePort smallConfig)
    (BeatsFollow smallConfig) (fun x => (storesOf x.2).length = 2)
    [.tickSignals translate Inputs.idle, .tickSignals translate { Inputs.idle with aw := address },
      .tickSignals translate { Inputs.idle with w := beat },
      .tickSignals translate { Inputs.idle with w := { beat with last := true } }]
    (by decide +kernel)
  exact ⟨x, hreach, hstores, (noWriteLost_of_reaches hreach).1⟩

/-- A beat of data comes in the tick before the address of its burst. The port has driven `wready`
high and takes it, but does not store it. -/
theorem not_noWriteLost : ∃ x, (writePort smallConfig).Reaches System.anyStep x ∧ LastMarked x ∧
    (beatsOf x.2).length = 1 ∧ ¬ NoWriteLost smallConfig x := by
  let beat : WriteDataIn := ⟨true, fun _ => 5, 1, true⟩
  let address : AddressIn := .incr 3 3 64 0
  let translate : ℕ → Option ℕ := fun addr => some (addr + 4096)
  obtain ⟨x, hreach, hstores, hbeats, hslots, hlast⟩ := System.exists_reaches
    (writePort smallConfig) System.anyStep
    (fun x => (storesOf x.2).length = 0 ∧ (beatsOf x.2).length = 1 ∧
      slots x.1.wr.accepted = [⟨0, 4160, true⟩] ∧ ∀ w ∈ beatsOf x.2, w.last = true)
    [.tickSignals translate Inputs.idle, .tickSignals translate { Inputs.idle with w := beat },
      .tickSignals translate { Inputs.idle with aw := address }] (by decide +kernel)
  refine ⟨x, hreach, ?_, hbeats, fun h => ?_⟩
  · rintro ⟨slot, w⟩ hmem
    rw [hslots] at hmem
    have hslot := List.mem_singleton.mp (List.of_mem_zip hmem).1
    rw [hlast w (List.of_mem_zip hmem).2, hslot]
  · have hlength := congrArg List.length h.stores
    rw [hstores, storesTo, List.length_zipWith, hslots, hbeats] at hlength
    simp at hlength

end Beethoven.Memory
