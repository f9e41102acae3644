import Beethoven.Memory.Controller

/-!
# Write bursts

A write burst awaits its data, is queued for the DRAM when its last beat has come, and is then
issued to the DRAM in DRAM transactions. While it awaits data, `axi_bus_beats_progress` counts its
beats; after that it is one less the number of its DRAM writes that are completed. The response of
the burst is queued when the counter reaches zero, so it comes with the first completed DRAM write,
and once.
-/

namespace Beethoven.Memory

open Lib Function

/-- A change that keeps a field of one transaction keeps the field of every transaction. -/
theorem field_update {β : Type*} (field : MemoryTransaction → β) (tx : ℕ → MemoryTransaction)
    {i : ℕ} {x : MemoryTransaction} (hx : field x = field (tx i)) (j : ℕ) :
    field (update tx i x j) = field (tx j) := by
  by_cases hji : j = i
  · subst hji
    rw [update_self, hx]
  · rw [update_of_ne hji]

/-- A change that keeps the ID of one transaction keeps the ID of every transaction. -/
theorem id_update (tx : ℕ → MemoryTransaction) {i : ℕ} {x : MemoryTransaction}
    (hx : x.id = (tx i).id) (j : ℕ) : (update tx i x j).id = (tx j).id :=
  field_update MemoryTransaction.id tx hx j

/-- The requests in flight of the writes. -/
def DramWrites.flight (s : DramWrites) : InFlight ℕ ℕ :=
  ⟨s.issued, s.inFlightWrites, s.completed, s.outstanding⟩

/-- The data of burst `i` is complete. -/
def DramWrites.Launched (s : DramWrites) (i : ℕ) : Prop :=
  i ∈ s.ddrWriteQ ∨ keysOf s.issued i ≠ []

theorem DramWrites.launched_issue {s : DramWrites} (c : Config) {i : ℕ} (hi : i ∈ s.ddrWriteQ)
    (j : ℕ) : (s.issue c i).Launched j ↔ s.Launched j := by
  by_cases hji : j = i
  · subst hji
    exact iff_of_true (.inr (by simp [issue])) (.inl hi)
  · have hissued : keysOf (s.issue c i).issued j = keysOf s.issued j := by
      simp [issue, keysOf_singleton_of_ne (Ne.symm hji)]
    have hqueue : j ∈ (s.issue c i).ddrWriteQ ↔ j ∈ s.ddrWriteQ := by
      simp only [issue]
      split_ifs
      · exact List.mem_erase_of_ne hji
      · rfl
    rw [Launched, Launched, hissued, hqueue]

section WriteBeat

variable {s : DramWrites} {last : Bool} {i j : ℕ} {rest : List ℕ}

/-! A beat of data changes the burst that gets it, and nothing else but the queues. -/

theorem DramWrites.accepted_writeBeat : (s.writeBeat last i rest).accepted = s.accepted := by
  cases last <;> rfl

theorem DramWrites.tx_writeBeat_of_ne (hji : j ≠ i) :
    (s.writeBeat last i rest).tx j = s.tx j := by
  cases last <;> exact update_of_ne hji _ _

theorem DramWrites.id_writeBeat : ((s.writeBeat last i rest).tx j).id = (s.tx j).id := by
  cases last <;> exact field_update MemoryTransaction.id s.tx (by rfl) j

theorem DramWrites.len_writeBeat : ((s.writeBeat last i rest).tx j).len = (s.tx j).len := by
  cases last <;> exact field_update MemoryTransaction.len s.tx (by rfl) j

theorem DramWrites.mem_waiting_writeBeat (hq : s.writeTransactions = i :: rest) :
    j ∈ (s.writeBeat last i rest).writeTransactions ↔ j ∈ rest ∨ last = false ∧ j = i := by
  cases last with
  | false => simp [writeBeat, hq, or_comm]
  | true => simp [writeBeat]

theorem DramWrites.launched_writeBeat :
    (s.writeBeat last i rest).Launched j ↔ s.Launched j ∨ last = true ∧ j = i := by
  cases last with
  | false => simp [writeBeat, Launched]
  | true =>
    simp only [writeBeat, Launched, if_true, List.mem_append, List.mem_singleton, true_and]
    tauto

end WriteBeat

/-- The invariant of the write transactions. -/
structure WritesOk (s : DramWrites) : Prop where
  flight : s.flight.Balanced
  nodup_waiting : s.writeTransactions.Nodup
  waiting_lt : ∀ i ∈ s.writeTransactions, i < s.accepted.length
  launched_lt : ∀ i, s.Launched i → i < s.accepted.length
  not_launched : ∀ i ∈ s.writeTransactions, ¬ s.Launched i
  progress : ∀ i, s.Launched i →
    (s.tx i).axiBusBeatsProgress = 1 - ((keysOf s.completed i).length : ℤ)
  mem_responses : ∀ i, i ∈ s.responses.map Prod.fst ↔ keysOf s.completed i ≠ []
  nodup_responses : (s.responses.map Prod.fst).Nodup
  response_id : ∀ x ∈ s.responses, x.2 = (s.tx x.1).id

namespace WritesOk

variable {c : Config} {s t : DramWrites} {i : ℕ} {rest : List ℕ}

theorem init : WritesOk State.init.wr := by
  constructor <;> simp [State.init, DramWrites.flight, DramWrites.Launched]
  exact ⟨by simp, by simp⟩

theorem launched_of_completed (h : WritesOk s) (hi : keysOf s.completed i ≠ []) :
    s.Launched i := by
  right
  obtain ⟨k, hk⟩ := List.exists_mem_of_ne_nil _ hi
  exact List.ne_nil_of_mem ((h.flight.completed_subperm i).subset hk)

theorem launched_of_response (h : WritesOk s) {x : ℕ × ℕ} (hx : x ∈ s.responses) :
    s.Launched x.1 :=
  h.launched_of_completed ((h.mem_responses x.1).mp (List.mem_map_of_mem hx))

theorem push (h : WritesOk s) (tx : MemoryTransaction) : WritesOk (s.push tx) := by
  have hother : ∀ j, s.Launched j → (s.push tx).tx j = s.tx j := fun j hj =>
    update_of_ne (h.launched_lt j hj).ne _ _
  have hlen : ∀ {n}, n < s.accepted.length → n < (s.push tx).accepted.length := by
    intro n hn
    rw [DramWrites.push, List.length_append]
    omega
  constructor
  · exact h.flight
  · refine List.nodup_append.mpr ⟨h.nodup_waiting, List.nodup_singleton _, ?_⟩
    rintro j hj _ hk rfl
    exact (h.waiting_lt j hj).ne (List.mem_singleton.mp hk)
  · intro j hj
    rcases List.mem_append.mp hj with hj | hj
    · exact hlen (h.waiting_lt j hj)
    · simp [DramWrites.push, List.mem_singleton.mp hj]
  · exact fun j hj => hlen (h.launched_lt j hj)
  · intro j hj
    rcases List.mem_append.mp hj with hj | hj
    · exact h.not_launched j hj
    · exact fun hlaunched => (h.launched_lt j hlaunched).ne (List.mem_singleton.mp hj)
  · intro j hj
    rw [hother j hj]
    exact h.progress j hj
  · exact h.mem_responses
  · exact h.nodup_responses
  · intro x hx
    rw [hother x.1 (h.launched_of_response hx)]
    exact h.response_id x hx

theorem writeBeat (h : WritesOk s) (hq : s.writeTransactions = i :: rest) (last : Bool) :
    WritesOk (s.writeBeat last i rest) := by
  have hi : i ∈ s.writeTransactions := by simp [hq]
  have hne : ∀ j, s.Launched j → j ≠ i := by
    rintro j hj rfl
    exact h.not_launched j hi hj
  have hresponse : ∀ x ∈ s.responses, x.2 = ((s.writeBeat last i rest).tx x.1).id := by
    intro x hx
    rw [DramWrites.id_writeBeat]
    exact h.response_id x hx
  cases last with
  | false =>
    refine ⟨h.flight, h.nodup_waiting, h.waiting_lt, h.launched_lt, h.not_launched, ?_,
      h.mem_responses, h.nodup_responses, hresponse⟩
    intro j hj
    rw [DramWrites.tx_writeBeat_of_ne (hne j hj)]
    exact h.progress j hj
  | true =>
    have hnodup := h.nodup_waiting
    rw [hq, List.nodup_cons] at hnodup
    have hlaunched : ∀ j, (s.writeBeat true i rest).Launched j → s.Launched j ∨ j = i := by
      intro j hj
      simpa using DramWrites.launched_writeBeat.mp hj
    refine ⟨h.flight, hnodup.2, fun j hj => ?_, fun j hj => ?_, fun j hj hj' => ?_, fun j hj => ?_,
      h.mem_responses, h.nodup_responses, hresponse⟩
    · exact h.waiting_lt j (hq ▸ List.mem_cons_of_mem i hj)
    · rcases hlaunched j hj with hj | rfl
      · exact h.launched_lt j hj
      · exact h.waiting_lt j hi
    · rcases hlaunched j hj' with hj' | rfl
      · exact h.not_launched j (hq ▸ List.mem_cons_of_mem i hj) hj'
      · exact hnodup.1 hj
    · rcases hlaunched j hj with hj | rfl
      · rw [DramWrites.tx_writeBeat_of_ne (hne j hj)]
        exact h.progress j hj
      · have hnil : keysOf s.completed j = [] := by
          by_contra hcompleted
          exact h.not_launched j hi (h.launched_of_completed hcompleted)
        change (update s.tx j _ j).axiBusBeatsProgress =
          1 - ((keysOf s.completed j).length : ℤ)
        rw [update_self, hnil]
        rfl

theorem issue (h : WritesOk s) (hi : i ∈ s.ddrWriteQ) : WritesOk (s.issue c i) := by
  have hlaunched : ∀ j, (s.issue c i).Launched j → s.Launched j := fun j =>
    (DramWrites.launched_issue c hi j).mp
  have hid : ∀ j, ((s.issue c i).tx j).id = (s.tx j).id := id_update s.tx rfl
  have hprogress : ∀ j,
      ((s.issue c i).tx j).axiBusBeatsProgress = (s.tx j).axiBusBeatsProgress := by
    intro j
    by_cases hji : j = i
    · subst hji
      simp [DramWrites.issue]
    · simp [DramWrites.issue, update_of_ne hji]
  refine ⟨h.flight.step (.issue i ((s.tx i).dimmAddr c)), h.nodup_waiting, h.waiting_lt,
    fun j hj => h.launched_lt j (hlaunched j hj),
    fun j hj hj' => h.not_launched j hj (hlaunched j hj'), fun j hj => ?_, h.mem_responses,
    h.nodup_responses, fun x hx => ?_⟩
  · rw [hprogress j]
    exact h.progress j (hlaunched j hj)
  · rw [hid]
    exact h.response_id x hx

theorem writeStep (h : WritesOk s) (hstep : WriteStep c s t) : WritesOk t := by
  cases hstep with
  | stay => exact h
  | push addr size len id fpgaAddr fixed => exact h.push _
  | writeBeat last hq => exact h.writeBeat hq last
  | issue hi => exact h.issue hi

theorem launched_of_inFlight (h : WritesOk s) {addr : ℕ} (hq : s.inFlightWrites addr = i :: rest) :
    s.Launched i := by
  have hmem : (i, addr) ∈ s.issued := h.flight.mem_issued (r := i) (k := addr) (by
    change i ∈ s.inFlightWrites addr
    simp [hq])
  exact .inr (List.ne_nil_of_mem (mem_keysOf.mpr hmem))

theorem responds_iff (h : WritesOk s) {addr : ℕ} (hq : s.inFlightWrites addr = i :: rest) :
    s.responds i = true ↔ keysOf s.completed i = [] := by
  rw [DramWrites.responds, decide_eq_true_eq, h.progress i (h.launched_of_inFlight hq),
    ← List.length_eq_zero_iff]
  omega

theorem complete (h : WritesOk s) {addr : ℕ} (haddr : addr ∈ s.outstanding)
    (hq : s.inFlightWrites addr = i :: rest) : WritesOk (s.complete addr i rest) := by
  have hresponds := h.responds_iff hq
  have hself : keysOf (s.complete addr i rest).completed i = keysOf s.completed i ++ [addr] := by
    simp [DramWrites.complete]
  have hother : ∀ j, j ≠ i →
      keysOf (s.complete addr i rest).completed j = keysOf s.completed j := by
    intro j hji
    simp [DramWrites.complete, keysOf_singleton_of_ne (Ne.symm hji)]
  have hid : ∀ j, ((s.complete addr i rest).tx j).id = (s.tx j).id := id_update s.tx rfl
  have hresponses : (s.complete addr i rest).responses.map Prod.fst =
      s.responses.map Prod.fst ++ if s.responds i then [i] else [] := by
    simp only [DramWrites.complete]
    split_ifs <;> simp
  refine ⟨h.flight.step (.complete haddr hq), h.nodup_waiting, h.waiting_lt, h.launched_lt,
    h.not_launched, fun j hj => ?_, fun j => ?_, ?_, fun x hx => ?_⟩
  · by_cases hji : j = i
    · subst hji
      have hprogress := h.progress j hj
      rw [hself, List.length_append, List.length_singleton]
      simp only [DramWrites.complete, update_self]
      omega
    · rw [hother j hji]
      simp only [DramWrites.complete, update_of_ne hji]
      exact h.progress j hj
  · rw [hresponses, List.mem_append, h.mem_responses]
    by_cases hji : j = i
    · subst hji
      rw [hself]
      split_ifs with hr
      · simp
      · simpa using mt hresponds.mpr hr
    · rw [hother j hji]
      split_ifs <;> simp [hji]
  · rw [hresponses]
    split_ifs with hr
    · refine List.nodup_append.mpr ⟨h.nodup_responses, List.nodup_singleton _, ?_⟩
      rintro j hj _ hk rfl
      rw [List.mem_singleton.mp hk, h.mem_responses] at hj
      exact hj (hresponds.mp hr)
    · simpa using h.nodup_responses
  · rw [hid]
    simp only [DramWrites.complete] at hx
    split_ifs at hx
    · rcases List.mem_append.mp hx with hx | hx
      · exact h.response_id x hx
      · rw [List.mem_singleton.mp hx]
    · exact h.response_id x hx

theorem of_reaches {ok : State → Action → Prop} {s : State} (h : (memory c).Reaches ok s) :
    WritesOk s.wr := by
  refine System.Reaches.invariant (I := fun s => WritesOk s.wr) init ?_ h
  intro s a t hs _ hstep
  rcases write_cases hstep with ⟨wr, hfirst, hsecond⟩ | ⟨addr, i, rest, -, haddr, hq, ht⟩
  · exact (hs.writeStep hfirst).writeStep hsecond
  · rw [ht]
    exact hs.complete haddr hq

end WritesOk

end Beethoven.Memory
