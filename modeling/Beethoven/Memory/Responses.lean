import Beethoven.Memory.WriteData

/-!
# Write responses

A write burst is accepted on AW, gets its data on W, is written to the DRAM in several DRAM writes,
and is answered on B. The responses wait in two queues, `to_enqueue` and `send_ids`, before they are
handed over. `num_in_flight_writes` counts the bursts from the first to the last of these events.
-/

namespace Beethoven.Memory

open Lib

/-- The IDs of the responses handed over. -/
def responsesOf (l : List WriteEvent) : List ℕ :=
  l.filterMap fun
    | .response id => some id
    | _ => none

@[simp] theorem responsesOf_append (l l' : List WriteEvent) :
    responsesOf (l ++ l') = responsesOf l ++ responsesOf l' :=
  List.filterMap_append

variable {c : Config} {l : List WriteEvent}

/-! ### The bursts and their data -/

/-- The invariant of the bursts: a burst awaits data or has got it, as many beats as it has, with
the last one marked. -/
structure StoredOk (s : DramWrites) (l : List WriteEvent) : Prop where
  same : ∀ j b, s.accepted[j]? = some b → (s.tx j).id = b.id ∧ (s.tx j).len = b.len
  cover : ∀ j < s.accepted.length, j ∈ s.writeTransactions ∨ s.Launched j
  fresh : ∀ j, s.accepted.length ≤ j → keysOf (storesOf l) j = []
  waiting : ∀ j ∈ s.writeTransactions,
    ((keysOf (storesOf l) j).length : ℤ) = (s.tx j).axiBusBeatsProgress
  written : ∀ j, s.Launched j → (keysOf (storesOf l) j).length = (s.tx j).len ∧
    ∃ x ∈ keysOf (storesOf l) j, x.2.last = true

namespace StoredOk

variable {s : DramWrites} {i : ℕ} {rest : List ℕ}

theorem congr (h : StoredOk s l) {l' : List WriteEvent} (hl' : storesOf l' = storesOf l) :
    StoredOk s l' := by
  refine ⟨h.same, h.cover, ?_, ?_, ?_⟩ <;> rw [hl']
  · exact h.fresh
  · exact h.waiting
  · exact h.written

theorem push (h : StoredOk s l) (hok : WritesOk s) {tx : MemoryTransaction}
    (htx : tx.axiBusBeatsProgress = 0) : StoredOk (s.push tx) l := by
  have hother : ∀ j < s.accepted.length, (s.push tx).tx j = s.tx j := fun j hj =>
    Function.update_of_ne hj.ne _ _
  have hself : (s.push tx).tx s.accepted.length = tx := Function.update_self ..
  have haccepted : (s.push tx).accepted = s.accepted ++ [tx] := rfl
  have hwaiting : (s.push tx).writeTransactions = s.writeTransactions ++ [s.accepted.length] := rfl
  refine ⟨fun j b hb => ?_, fun j hj => ?_, fun j hj => ?_, fun j hj => ?_, fun j hj => ?_⟩
  · rw [haccepted] at hb
    rcases Nat.lt_trichotomy j s.accepted.length with hlt | rfl | hgt
    · rw [List.getElem?_append_left hlt] at hb
      rw [hother j hlt]
      exact h.same j b hb
    · rw [List.getElem?_concat_length] at hb
      obtain rfl := Option.some.inj hb
      rw [hself]
      exact ⟨rfl, rfl⟩
    · rw [List.getElem?_eq_none (by simp; omega)] at hb
      cases hb
  · rw [haccepted, List.length_append, List.length_singleton] at hj
    rw [hwaiting]
    rcases Nat.lt_succ_iff_lt_or_eq.mp hj with hj | rfl
    · exact (h.cover j hj).imp (List.mem_append_left _) id
    · exact .inl (by simp)
  · rw [haccepted, List.length_append, List.length_singleton] at hj
    exact h.fresh j (by omega)
  · rw [hwaiting] at hj
    rcases List.mem_append.mp hj with hj | hj
    · rw [hother j (hok.waiting_lt j hj)]
      exact h.waiting j hj
    · rw [List.mem_singleton.mp hj, hself, h.fresh _ le_rfl, htx]
      rfl
  · rw [hother j (hok.launched_lt j hj)]
    exact h.written j hj

theorem writeBeat (h : StoredOk s l) (hok : WritesOk s) (hq : s.writeTransactions = i :: rest)
    {w : WriteDataIn} (hlast : w.last = decide ((s.tx i).axiBusBeatsProgress + 1 = (s.tx i).len))
    {l' : List WriteEvent} (hl' : storesOf l' = storesOf l ++ [(i, (s.tx i).addr, w)]) :
    StoredOk (s.writeBeat w.last i rest) l' := by
  have hnodup := hok.nodup_waiting
  rw [hq, List.nodup_cons] at hnodup
  have hi : i ∈ s.writeTransactions := by simp [hq]
  have hlt := hok.waiting_lt i hi
  have hkeys : ∀ j, j ≠ i → keysOf (storesOf l') j = keysOf (storesOf l) j := by
    intro j hji
    rw [hl', keysOf_append, keysOf_singleton_of_ne (Ne.symm hji), List.append_nil]
  have hkeysi : keysOf (storesOf l') i = keysOf (storesOf l) i ++ [((s.tx i).addr, w)] := by
    rw [hl', keysOf_append, keysOf_singleton_self]
  refine ⟨fun j b hb => ?_, fun j hj => ?_, fun j hj => ?_, fun j hj => ?_, fun j hj => ?_⟩
  · rw [DramWrites.id_writeBeat, DramWrites.len_writeBeat]
    exact h.same j b (DramWrites.accepted_writeBeat ▸ hb)
  · rw [DramWrites.accepted_writeBeat] at hj
    rw [DramWrites.launched_writeBeat, DramWrites.mem_waiting_writeBeat hq]
    rcases h.cover j hj with hj | hj
    · rcases List.mem_cons.mp (hq ▸ hj) with rfl | hj
      · cases w.last <;> simp
      · exact .inl (.inl hj)
    · exact .inr (.inl hj)
  · rw [DramWrites.accepted_writeBeat] at hj
    rw [hkeys j (by omega)]
    exact h.fresh j hj
  · rcases (DramWrites.mem_waiting_writeBeat hq).mp hj with hj | ⟨hend, rfl⟩
    · have hji : j ≠ i := fun hji => hnodup.1 (hji ▸ hj)
      rw [hkeys j hji, DramWrites.tx_writeBeat_of_ne hji]
      exact h.waiting j (hq ▸ List.mem_cons_of_mem i hj)
    · have hcount := h.waiting j hi
      rw [hkeysi, List.length_append, List.length_singleton, hend]
      simp only [DramWrites.writeBeat, Bool.false_eq_true, if_false, Function.update_self]
      omega
  · rw [DramWrites.len_writeBeat]
    rcases DramWrites.launched_writeBeat.mp hj with hj' | ⟨hend, rfl⟩
    · have hji : j ≠ i := fun hji => hok.not_launched j (hji ▸ hi) hj'
      rw [hkeys j hji]
      exact h.written j hj'
    · have hcount := h.waiting j hi
      have hall := of_decide_eq_true (hlast.symm.trans hend)
      rw [hkeysi, List.length_append, List.length_singleton]
      exact ⟨by omega, ((s.tx j).addr, w), by simp, hend⟩

theorem issue (h : StoredOk s l) (hi : i ∈ s.ddrWriteQ) :
    StoredOk (s.issue c i) l := by
  have hid : ∀ j, ((s.issue c i).tx j).id = (s.tx j).id :=
    field_update MemoryTransaction.id s.tx rfl
  have hlen : ∀ j, ((s.issue c i).tx j).len = (s.tx j).len :=
    field_update MemoryTransaction.len s.tx rfl
  have hprogress : ∀ j,
      ((s.issue c i).tx j).axiBusBeatsProgress = (s.tx j).axiBusBeatsProgress :=
    field_update MemoryTransaction.axiBusBeatsProgress s.tx rfl
  have hlaunched := DramWrites.launched_issue c hi
  refine ⟨fun j b hb => ?_, fun j hj => ?_, h.fresh, fun j hj => ?_, fun j hj => ?_⟩
  · rw [hid, hlen]
    exact h.same j b hb
  · exact (h.cover j hj).imp id (hlaunched j).mpr
  · rw [hprogress]
    exact h.waiting j hj
  · rw [hlen]
    exact h.written j ((hlaunched j).mp hj)

theorem complete (h : StoredOk s l) (hok : WritesOk s) {addr : ℕ}
    (hq : s.inFlightWrites addr = i :: rest) : StoredOk (s.complete addr i rest) l := by
  have hid : ∀ j, ((s.complete addr i rest).tx j).id = (s.tx j).id :=
    field_update MemoryTransaction.id s.tx rfl
  have hlen : ∀ j, ((s.complete addr i rest).tx j).len = (s.tx j).len :=
    field_update MemoryTransaction.len s.tx rfl
  refine ⟨fun j b hb => ?_, h.cover, h.fresh, fun j hj => ?_, fun j hj => ?_⟩
  · rw [hid, hlen]
    exact h.same j b hb
  · have hji : j ≠ i := by
      rintro rfl
      exact hok.not_launched j hj (hok.launched_of_inFlight hq)
    have hother : (s.complete addr i rest).tx j = s.tx j := Function.update_of_ne hji _ _
    rw [hother]
    exact h.waiting j hj
  · rw [hlen]
    exact h.written j hj

theorem tick {s t : State} {translate : ℕ → Option ℕ} {i : Inputs} (h : StoredOk s.wr l)
    (hok : WritesOk s.wr) (hdata : DataOk s.wr l)
    (hfollow : BeatsFollow c (s, l) (.tickSignals translate i))
    (ht : s.tickSignals c translate i = some t) :
    StoredOk t.wr (l ++ writeEvents c s (.tickSignals translate i)) := by
  obtain ⟨wr, num, hwr, htwr, -⟩ := State.tickSignals_write ht
  obtain ⟨hdata', hok'⟩ := hdata.acceptAW hok hwr
  have h' : StoredOk wr l := by
    rw [State.acceptAW] at hwr
    split_ifs at hwr
    · obtain ⟨addr, -, rfl⟩ := Option.map_eq_some_iff.mp hwr
      exact h.push hok rfl
    · cases hwr
      exact h
  have hstores : storesOf (l ++ writeEvents c s (.tickSignals translate i)) =
      storesOf l ++ storesOf (beatEvents s i.w wr) := by
    rw [writeEvents_tickSignals hwr, storesOf_append, storesOf_append, storesOf_responseEvents,
      List.nil_append]
  cases hdata'.beat_cases hwr hfollow htwr with
  | none hwr' hevents =>
    rw [hevents] at hstores
    rw [hwr']
    exact h'.congr (hstores.trans (List.append_nil _))
  | beat hq hlast hwr' hevents =>
    rw [hevents] at hstores
    rw [hwr']
    exact h'.writeBeat hok' hq hlast hstores

theorem of_reaches {x : State × List WriteEvent}
    (h : (writePort c).Reaches (BeatsFollow c) x) : StoredOk x.1.wr x.2 := by
  refine System.Reaches.invariant_of (I := fun x => StoredOk x.1.wr x.2)
    (J := fun x => WritesOk x.1.wr ∧ DataOk x.1.wr x.2)
    (fun x hx => ⟨WritesOk.of_reaches hx.of_logged, DataOk.of_reaches hx⟩) ?_ ?_ h
  · constructor <;> simp [System.logged, memory, State.init, DramWrites.Launched, storesOf]
  · rintro ⟨s, l⟩ a ⟨t, l'⟩ ⟨hok, hdata⟩ hx hfollow hstep
    obtain ⟨ht, rfl⟩ := System.logged_step hstep
    rcases step_cases ht with ⟨translate, i, rfl⟩ | ⟨hdram, -, hevents⟩
    · exact hx.tick hok hdata hfollow ht
    · dsimp only at hdram hevents hx hok ⊢
      rw [hevents, List.append_nil]
      cases hdram with
      | stay hwr hw => rwa [hwr]
      | issue hi hwr hw =>
        rw [hwr]
        exact hx.issue hi
      | complete haddr hq hwr hw =>
        rw [hwr]
        exact hx.complete hok hq

end StoredOk

/-! ### The B channel -/

namespace WriteChannel

variable {w : WriteChannel}

/-- The B channel presents the oldest response that it has. -/
def Presents (w : WriteChannel) : Prop := w.bValid = true → w.sendIds.head? = some w.bId

theorem presents_driveB : w.driveB.Presents := by
  intro hvalid
  cases hids : w.sendIds with
  | nil => cases hq : w.toEnqueue <;> simp [driveB, hids, hq] at hvalid
  | cons id rest => cases hq : w.toEnqueue <;> simp [driveB, hids, hq]

theorem queue_driveB : w.driveB.sendIds ++ w.driveB.toEnqueue = w.sendIds ++ w.toEnqueue := by
  cases hids : w.sendIds <;> cases hq : w.toEnqueue <;> simp [driveB, hids, hq]

theorem numInFlightWrites_driveB : w.driveB.numInFlightWrites = w.numInFlightWrites := by
  cases hids : w.sendIds <;> cases hq : w.toEnqueue <;> simp [driveB, hids, hq]

end WriteChannel

/-- The invariant of the write channels: the responses wait in two queues, and the writes in flight
are counted from AW to B. -/
structure ChannelOk (s : State) (l : List WriteEvent) : Prop where
  queue : s.wr.responses.map Prod.snd = responsesOf l ++ (s.w.sendIds ++ s.w.toEnqueue)
  presents : s.w.Presents
  in_flight : s.w.numInFlightWrites = s.wr.accepted.length - ((responsesOf l).length : ℤ)
  bound : s.w.numInFlightWrites ≤ maxInFlightWrites
  ready : s.w.awReady = true → s.w.numInFlightWrites < maxInFlightWrites

namespace ChannelOk

variable {s t : State} {translate : ℕ → Option ℕ} {i : Inputs}

theorem responsesOf_tick {wr : DramWrites} (h : s.acceptAW c translate i.aw = some wr) :
    responsesOf (writeEvents c s (.tickSignals translate i)) =
      if i.bReady && s.w.bValid then [s.w.bId] else [] := by
  have hbeat : responsesOf (beatEvents s i.w wr) = [] := by
    rw [beatEvents]
    split_ifs
    · split <;> rfl
    · rfl
  rw [writeEvents_tickSignals h, responsesOf_append, hbeat, List.append_nil, responseEvents]
  split_ifs <;> rfl

theorem wr_tick (ht : s.tickSignals c translate i = some t) :
    t.wr.responses = s.wr.responses ∧
      t.wr.accepted.length = s.wr.accepted.length + if i.aw.valid && s.w.awReady then 1 else 0 := by
  obtain ⟨wr, num, hwr, htwr, -⟩ := State.tickSignals_write ht
  have hbeat := State.acceptW_frame (c := c) (s := s) i.w wr num
  rw [htwr, hbeat.1, hbeat.2]
  rw [State.acceptAW] at hwr
  split_ifs at hwr with hfire
  · obtain ⟨addr, -, rfl⟩ := Option.map_eq_some_iff.mp hwr
    rw [if_pos hfire]
    exact ⟨rfl, by simp [DramWrites.push]⟩
  · cases hwr
    rw [if_neg hfire]
    exact ⟨rfl, rfl⟩

theorem w_tick (ht : s.tickSignals c translate i = some t) :
    ∃ w, w = (s.w.finishResponse i.bReady).driveB ∧ t.w.sendIds = w.sendIds ∧
      t.w.toEnqueue = w.toEnqueue ∧ t.w.bValid = w.bValid ∧ t.w.bId = w.bId ∧
      t.w.numInFlightWrites = w.numInFlightWrites + (if i.aw.valid && s.w.awReady then 1 else 0) ∧
      t.w.awReady = decide (t.w.numInFlightWrites < maxInFlightWrites) := by
  obtain ⟨rd, -, h⟩ := Option.bind_eq_some_iff.mp ht
  obtain ⟨wr, hwr, h⟩ := Option.bind_eq_some_iff.mp h
  cases h
  refine ⟨_, rfl, rfl, rfl, rfl, rfl, ?_, rfl⟩
  dsimp only
  split_ifs <;> simp

theorem finishResponse (h : ChannelOk s l) (bReady : Bool) :
    ∃ handed, handed = (if bReady && s.w.bValid then [s.w.bId] else []) ∧
      s.w.sendIds = handed ++ (s.w.finishResponse bReady).sendIds ∧
      (s.w.finishResponse bReady).toEnqueue = s.w.toEnqueue ∧
      (s.w.finishResponse bReady).numInFlightWrites = s.w.numInFlightWrites - handed.length := by
  refine ⟨_, rfl, ?_⟩
  by_cases hfire : (bReady && s.w.bValid) = true
  · obtain ⟨-, hvalid⟩ := Bool.and_eq_true_iff.mp hfire
    obtain ⟨rest, hids⟩ := List.head?_eq_some_iff.mp (h.presents hvalid)
    simp [WriteChannel.finishResponse, hfire, hids]
  · simp [WriteChannel.finishResponse, hfire]

theorem tick (h : ChannelOk s l) (ht : s.tickSignals c translate i = some t) :
    ChannelOk t (l ++ writeEvents c s (.tickSignals translate i)) := by
  obtain ⟨wr, num, hwr, -, -⟩ := State.tickSignals_write ht
  obtain ⟨hresponses, haccepted⟩ := wr_tick ht
  obtain ⟨w, rfl, hsend, henqueue, hvalid, hid, hnum, hready⟩ := w_tick ht
  obtain ⟨handed, hhanded, hids, hwaiting, hcount⟩ := h.finishResponse i.bReady
  have hqueue := WriteChannel.queue_driveB (w := s.w.finishResponse i.bReady)
  have hin := h.in_flight
  have hbound := h.bound
  have hlog : responsesOf (l ++ writeEvents c s (.tickSignals translate i)) =
      responsesOf l ++ handed := by
    rw [responsesOf_append, responsesOf_tick hwr, hhanded]
  rw [WriteChannel.numInFlightWrites_driveB, hcount] at hnum
  refine ⟨?_, ?_, ?_, ?_, ?_⟩
  · rw [hlog, hresponses, hsend, henqueue, hqueue, hwaiting, h.queue, hids, List.append_assoc,
      List.append_assoc]
  · rw [WriteChannel.Presents, hsend, hvalid, hid]
    exact WriteChannel.presents_driveB
  · rw [hlog, hnum, haccepted, List.length_append, hin]
    split_ifs <;> push_cast <;> omega
  · rw [hnum]
    split_ifs with hfire
    · have hlt := h.ready (Bool.and_eq_true_iff.mp hfire).2
      omega
    · omega
  · rw [hready, decide_eq_true_eq]
    exact id

theorem of_reaches {ok : State × List WriteEvent → Action → Prop} {x : State × List WriteEvent}
    (h : (writePort c).Reaches ok x) : ChannelOk x.1 x.2 := by
  refine System.Reaches.invariant (I := fun x => ChannelOk x.1 x.2) ?_ ?_ h
  · refine ⟨rfl, ?_, rfl, ?_, ?_⟩
    · simp [WriteChannel.Presents, writePort, System.logged, memory, State.init]
    · exact (by decide : (0 : ℤ) ≤ maxInFlightWrites)
    · exact fun _ => (by decide : (0 : ℤ) < maxInFlightWrites)
  · rintro ⟨s, l⟩ a ⟨t, l'⟩ hx _ hstep
    obtain ⟨ht, rfl⟩ := System.logged_step hstep
    rcases step_cases ht with ⟨translate, i, rfl⟩ | ⟨hdram, -, hevents⟩
    · exact hx.tick ht
    · dsimp only at hdram hevents hx ⊢
      rw [hevents, List.append_nil]
      cases hdram with
      | stay hwr hw => exact ⟨by rw [hwr, hw, hx.queue], hw ▸ hx.presents,
          by rw [hwr, hw, hx.in_flight], hw ▸ hx.bound, hw ▸ hx.ready⟩
      | issue hi hwr hw => exact ⟨by rw [hwr, hw]; exact hx.queue, hw ▸ hx.presents,
          by rw [hwr, hw]; exact hx.in_flight, hw ▸ hx.bound, hw ▸ hx.ready⟩
      | @complete addr i rest haddr hq hwr hw =>
        refine ⟨?_, by rw [hw]; exact hx.presents, by rw [hwr, hw]; exact hx.in_flight,
          by rw [hw]; exact hx.bound, by rw [hw]; exact hx.ready⟩
        rw [hwr, hw]
        simp only [DramWrites.complete]
        split_ifs
        · simp [hx.queue]
        · exact hx.queue

end ChannelOk

/-! ### The responses of every run -/

/-- The responses so far: no burst has two, and those that there are have the ID of their burst and
were queued when all its beats had been stored, the last one marked as such. They are handed over in
the order in which they were queued, and the writes in flight are those that are accepted and not
answered. -/
structure WriteResponses (x : State × List WriteEvent) : Prop where
  once : (x.1.wr.responses.map Prod.fst).Nodup
  burst : ∀ y ∈ x.1.wr.responses, ∃ b, x.1.wr.accepted[y.1]? = some b ∧ y.2 = b.id ∧
    (keysOf (storesOf x.2) y.1).length = b.len ∧
    ∃ z ∈ keysOf (storesOf x.2) y.1, z.2.last = true
  handed : x.1.wr.responses.map Prod.snd = responsesOf x.2 ++ (x.1.w.sendIds ++ x.1.w.toEnqueue)
  in_flight : x.1.w.numInFlightWrites =
    x.1.wr.accepted.length - ((responsesOf x.2).length : ℤ)
  bound : x.1.w.numInFlightWrites ≤ maxInFlightWrites

theorem WriteResponses.of_reaches {x : State × List WriteEvent}
    (h : (writePort c).Reaches (BeatsFollow c) x) : WriteResponses x := by
  have hok : WritesOk x.1.wr := .of_reaches h.of_logged
  have hstored := StoredOk.of_reaches h
  have hchannel := ChannelOk.of_reaches h
  refine ⟨hok.nodup_responses, fun y hy => ?_, hchannel.queue, hchannel.in_flight, hchannel.bound⟩
  have hlaunched := hok.launched_of_response hy
  have hb := List.getElem?_eq_getElem (hok.launched_lt y.1 hlaunched)
  obtain ⟨hid, hlen⟩ := hstored.same y.1 _ hb
  obtain ⟨hcount, hlast⟩ := hstored.written y.1 hlaunched
  exact ⟨_, hb, (hok.response_id y hy).trans hid, hcount.trans hlen, hlast⟩

/-! ### The ready signal of the W channel -/

/-- The master of the port: beats of data come for bursts that have been accepted, and `awvalid` is
low in the tick after the reset, in which `wready` has not been driven. -/
def WriteMaster (c : Config) (x : State × List WriteEvent) (a : Action) : Prop :=
  BeatsFollow c x a ∧
    match a with
    | .tickSignals _ i =>
      x.1.wr.accepted = [] → x.1.w.wReady = false → i.aw.valid = false
    | _ => True

instance (c : Config) (x : State × List WriteEvent) : (a : Action) → Decidable (WriteMaster c x a)
  | .tickSignals translate i =>
    inferInstanceAs (Decidable (BeatsFollow c x (.tickSignals translate i) ∧
      (x.1.wr.accepted = [] → x.1.w.wReady = false → i.aw.valid = false)))
  | .readCallback _ _ => isTrue ⟨trivial, trivial⟩
  | .writeCallback _ => isTrue ⟨trivial, trivial⟩
  | .tryToEnqueueDdr _ => isTrue ⟨trivial, trivial⟩

/-- The port takes data while a burst awaits it, and bursts only when it takes data. -/
structure ReadyOk (s : State) : Prop where
  data : s.wr.writeTransactions ≠ [] → s.w.wReady = true
  address : s.w.awReady = true → s.w.wReady = true ∨ s.wr.accepted = []

theorem ready_acceptW {s : State} {w : WriteDataIn} {wr : DramWrites} (num : ℤ)
    (h : wr.writeTransactions ≠ [] → s.w.wReady = true) :
    ((s.acceptW c w wr num).1.writeTransactions ≠ [] → (s.acceptW c w wr num).2.1 = true) ∧
      (num < maxInFlightWrites → (s.acceptW c w wr num).2.1 = true) := by
  rw [State.acceptW]
  cases hq : wr.writeTransactions with
  | nil => exact ⟨fun hne => absurd hq hne, fun hnum => decide_eq_true hnum⟩
  | cons j rest =>
    have hready := h (by simp [hq])
    by_cases hfire : (w.valid && s.w.wReady) = true
    · simp only [if_pos hfire]
      cases w.last with
      | false => simp
      | true =>
        refine ⟨fun hne => ?_, fun hnum => by simp [hnum]⟩
        have hrest : rest ≠ [] := hne
        simp [hrest]
    · simp only [if_neg hfire]
      exact ⟨fun _ => hready, fun _ => hready⟩

theorem ReadyOk.tick {s t : State} {translate : ℕ → Option ℕ} {i : Inputs} (h : ReadyOk s)
    (hreset : s.wr.accepted = [] → s.w.wReady = false → i.aw.valid = false)
    (ht : s.tickSignals c translate i = some t) : ReadyOk t := by
  obtain ⟨rd, -, ht⟩ := Option.bind_eq_some_iff.mp ht
  obtain ⟨wr, hwr, ht⟩ := Option.bind_eq_some_iff.mp ht
  cases ht
  have hready : wr.writeTransactions ≠ [] → s.w.wReady = true := by
    rw [State.acceptAW] at hwr
    split_ifs at hwr with hfire
    · intro _
      obtain ⟨hvalid, hawReady⟩ := Bool.and_eq_true_iff.mp hfire
      rcases h.address hawReady with hready | hnone
      · exact hready
      · by_contra hlow
        simp [hreset hnone (by simpa using hlow)] at hvalid
    · cases hwr
      exact h.data
  exact ⟨(ready_acceptW _ hready).1,
    fun hawReady => .inl ((ready_acceptW _ hready).2 (of_decide_eq_true hawReady))⟩

theorem ReadyOk.of_reaches {x : State × List WriteEvent}
    (h : (writePort c).Reaches (WriteMaster c) x) : ReadyOk x.1 := by
  refine System.Reaches.invariant (I := fun x => ReadyOk x.1) ?_ ?_ h
  · exact ⟨fun hne => absurd rfl hne, fun _ => .inr rfl⟩
  · rintro ⟨s, l⟩ a ⟨t, l'⟩ hx hmaster hstep
    obtain ⟨ht, rfl⟩ := System.logged_step hstep
    rcases step_cases ht with ⟨translate, i, rfl⟩ | ⟨hdram, -, -⟩
    · exact hx.tick hmaster.2 ht
    · dsimp only at hdram hx ⊢
      cases hdram with
      | stay hwr hw | issue hi hwr hw | complete haddr hq hwr hw =>
        exact ⟨by rw [hwr, hw]; exact hx.data, by rw [hwr, hw]; exact hx.address⟩

end Beethoven.Memory
