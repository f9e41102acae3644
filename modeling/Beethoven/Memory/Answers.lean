import Beethoven.Memory.Responses

/-!
# Every write burst is answered

Whatever the DRAM accepts and in whatever order it calls back, a burst that has been accepted has
its one response unless something is missing that is not the port's to give: a beat of data, for
which `wready` is high, the acceptance of a DRAM write or its callback (`Awaits`). What is missing
can always be supplied: the master supplies the beats (`exists_data`), the DRAM accepts all DRAM
writes (`exists_issued`) and completes them (`exists_completed`), and the master takes the responses
(`exists_handed`).

The first tick is an exception. `aw.setReady(1)` precedes it and `wready` is driven in it, but only
if no burst awaits data; a burst that is accepted in that tick never gets a beat
(`firstTick_unanswered`). AXI keeps `awvalid` low until the reset has ended, which rules that out.
-/

namespace Beethoven.Memory

open Lib

variable {c : Config} {s t : State} {l : List WriteEvent} {x : State × List WriteEvent}

/-! ### The queue of the DRAM writes -/

/-- The invariant of `ddr_write_q`. -/
structure QueueOk (s : DramWrites) : Prop where
  nodup : s.ddrWriteQ.Nodup
  progress_lt : ∀ i ∈ s.ddrWriteQ, (s.tx i).dramTxAxiEnqueueProgress < (s.tx i).dramTxNEnqueues
  enqueues_pos : ∀ i < s.accepted.length, 0 < (s.tx i).dramTxNEnqueues

namespace QueueOk

variable {s t : DramWrites} {i : ℕ} {rest : List ℕ}

theorem push (h : QueueOk s) (hok : WritesOk s) {tx : MemoryTransaction}
    (htx : 0 < tx.dramTxNEnqueues) : QueueOk (s.push tx) := by
  have hother : ∀ j < s.accepted.length, (s.push tx).tx j = s.tx j := fun j hj =>
    Function.update_of_ne hj.ne _ _
  have hself : (s.push tx).tx s.accepted.length = tx := Function.update_self ..
  refine ⟨h.nodup, fun j hj => ?_, fun j hj => ?_⟩
  · rw [hother j (hok.launched_lt j (.inl hj))]
    exact h.progress_lt j hj
  · simp only [DramWrites.push, List.length_append, List.length_singleton] at hj
    rcases Nat.lt_succ_iff_lt_or_eq.mp hj with hj | rfl
    · rw [hother j hj]
      exact h.enqueues_pos j hj
    · rw [hself]
      exact htx

theorem writeBeat (h : QueueOk s) (hok : WritesOk s) (hq : s.writeTransactions = i :: rest)
    (last : Bool) : QueueOk (s.writeBeat last i rest) := by
  have hi : i ∈ s.writeTransactions := by simp [hq]
  have hnotMem : i ∉ s.ddrWriteQ := fun hmem => hok.not_launched i hi (.inl hmem)
  have hne : ∀ j ∈ s.ddrWriteQ, j ≠ i := fun j hj hji => hnotMem (hji ▸ hj)
  have henqueues : ∀ j,
      ((s.writeBeat last i rest).tx j).dramTxNEnqueues = (s.tx j).dramTxNEnqueues := by
    intro j
    cases last <;> exact field_update MemoryTransaction.dramTxNEnqueues s.tx (by rfl) j
  have hpos : ∀ j < (s.writeBeat last i rest).accepted.length,
      0 < ((s.writeBeat last i rest).tx j).dramTxNEnqueues := by
    intro j hj
    rw [DramWrites.accepted_writeBeat] at hj
    rw [henqueues]
    exact h.enqueues_pos j hj
  cases last with
  | false =>
    refine ⟨h.nodup, fun j hj => ?_, hpos⟩
    rw [DramWrites.tx_writeBeat_of_ne (hne j hj)]
    exact h.progress_lt j hj
  | true =>
    refine ⟨?_, fun j hj => ?_, hpos⟩
    · refine List.nodup_append.mpr ⟨h.nodup, List.nodup_singleton _, ?_⟩
      rintro j hj _ hk rfl
      exact hne j hj (List.mem_singleton.mp hk)
    · rcases List.mem_append.mp hj with hj | hj
      · rw [DramWrites.tx_writeBeat_of_ne (hne j hj)]
        exact h.progress_lt j hj
      · obtain rfl := List.mem_singleton.mp hj
        have hself : ((s.writeBeat true j rest).tx j).dramTxAxiEnqueueProgress = 0 := by
          simp [DramWrites.writeBeat]
        rw [hself, henqueues]
        exact h.enqueues_pos j (hok.waiting_lt j hi)

theorem issue (h : QueueOk s) : QueueOk (s.issue c i) := by
  have henqueues : ∀ j, ((s.issue c i).tx j).dramTxNEnqueues = (s.tx j).dramTxNEnqueues :=
    field_update MemoryTransaction.dramTxNEnqueues s.tx rfl
  have hother : ∀ j, j ≠ i → (s.issue c i).tx j = s.tx j := fun j hji =>
    Function.update_of_ne hji _ _
  have hself : (s.issue c i).tx i = { s.tx i with
      dramTxAxiEnqueueProgress := (s.tx i).dramTxAxiEnqueueProgress + 1 } :=
    Function.update_self ..
  refine ⟨?_, fun j hj => ?_, fun j hj => ?_⟩
  · simp only [DramWrites.issue]
    split_ifs
    · exact h.nodup.erase i
    · exact h.nodup
  · by_cases hji : j = i
    · subst hji
      rw [hself]
      simp only [DramWrites.issue] at hj
      split_ifs at hj with hfin
      · exact absurd hj h.nodup.not_mem_erase
      · simpa [MemoryTransaction.dramsimTxFinished] using hfin
    · have hmem : j ∈ s.ddrWriteQ := by
        simp only [DramWrites.issue] at hj
        split_ifs at hj
        · exact List.mem_of_mem_erase hj
        · exact hj
      rw [hother j hji]
      exact h.progress_lt j hmem
  · rw [henqueues]
    exact h.enqueues_pos j hj

theorem complete (h : QueueOk s) (addr : ℕ) : QueueOk (s.complete addr i rest) := by
  have henqueues : ∀ j,
      ((s.complete addr i rest).tx j).dramTxNEnqueues = (s.tx j).dramTxNEnqueues :=
    field_update MemoryTransaction.dramTxNEnqueues s.tx rfl
  have hprogress : ∀ j, ((s.complete addr i rest).tx j).dramTxAxiEnqueueProgress =
      (s.tx j).dramTxAxiEnqueueProgress :=
    field_update MemoryTransaction.dramTxAxiEnqueueProgress s.tx rfl
  refine ⟨h.nodup, fun j hj => ?_, fun j hj => ?_⟩
  · rw [hprogress, henqueues]
    exact h.progress_lt j hj
  · rw [henqueues]
    exact h.enqueues_pos j hj

theorem writeStep (h : QueueOk s) (hok : WritesOk s) (hstep : WriteStep c s t) : QueueOk t := by
  cases hstep with
  | stay => exact h
  | push addr size len id fpgaAddr fixed =>
    refine h.push hok ?_
    simp only [MemoryTransaction.new]
    split_ifs with hzero
    · exact Nat.one_pos
    · exact Nat.pos_of_ne_zero hzero
  | writeBeat last hq => exact h.writeBeat hok hq last
  | issue hi => exact h.issue

theorem of_reaches {ok : State → Action → Prop} {s : State} (h : (memory c).Reaches ok s) :
    QueueOk s.wr := by
  refine System.Reaches.invariant_of (I := fun s => QueueOk s.wr) (J := fun s => WritesOk s.wr)
    (fun _ => WritesOk.of_reaches) ?_ ?_ h
  · constructor <;> simp [memory, State.init]
  · intro s a t hok hs _ hstep
    rcases write_cases hstep with ⟨wr, hfirst, hsecond⟩ | ⟨addr, i, rest, -, -, -, ht⟩
    · exact (hs.writeStep hok hfirst).writeStep (hok.writeStep hfirst) hsecond
    · rw [ht]
      exact hs.complete addr

end QueueOk

/-! ### Going on -/

/-- The runs of a master that keeps the rules, from a state that such a run reaches. -/
theorem beatsFollow_of_writeMaster (h : (writePort c).Reaches (WriteMaster c) x) :
    (writePort c).Reaches (BeatsFollow c) x :=
  h.mono fun _ _ => And.left

theorem exists_tick {i : Inputs} (har : i.ar.valid = false) (haw : i.aw.valid = false) :
    ∃ t, s.tickSignals c (fun _ => none) i = some t ∧ t.wr.accepted = s.wr.accepted ∧
      s.acceptAW c (fun _ => none) i.aw = some s.wr := by
  have hwr : s.acceptAW c (fun _ => none) i.aw = some s.wr := by simp [State.acceptAW, haw]
  have hrd : s.acceptAR c (fun _ => none) i.ar = some s.rd := by simp [State.acceptAR, har]
  obtain ⟨t, ht⟩ : ∃ t, s.tickSignals c (fun _ => none) i = some t := by
    simp only [State.tickSignals, hwr, hrd]
    exact ⟨_, rfl⟩
  obtain ⟨wr, num, hwr', htwr, -⟩ := State.tickSignals_write ht
  obtain rfl := Option.some.inj (hwr.symm.trans hwr')
  exact ⟨t, ht, by rw [htwr, (State.acceptW_frame i.w s.wr num).2], hwr⟩

theorem exists_data (h : (writePort c).Reaches (WriteMaster c) x) :
    ∃ l y, (writePort c).Run (WriteMaster c) x l y ∧
      y.1.wr.accepted = x.1.wr.accepted ∧ y.1.wr.writeTransactions = [] := by
  refine h.exists_run (P := fun y => y.1.wr.accepted = x.1.wr.accepted)
    (fun y => (slots y.1.wr.accepted).length - (beatsOf y.2).length) ?_ rfl
  rintro ⟨s, l⟩ hs haccepted hwaiting
  dsimp only at haccepted hwaiting ⊢
  have hdata : DataOk s.wr l := .of_reaches (beatsFollow_of_writeMaster hs)
  have hready : s.w.wReady = true := (ReadyOk.of_reaches hs).data hwaiting
  obtain ⟨j, rest, hq⟩ := List.exists_cons_of_ne_nil hwaiting
  have hslot := hdata.getElem?_slots hq
  let w : WriteDataIn :=
    ⟨true, fun _ => 0, 0, (s.wr.tx j).axiBusBeatsProgress + 1 = (s.wr.tx j).len⟩
  let i : Inputs := { Inputs.idle with w }
  obtain ⟨t, ht, hsame, hwr⟩ := exists_tick (c := c) (s := s) (i := i) rfl rfl
  have hfollow : BeatsFollow c (s, l) (.tickSignals (fun _ => none) i) := by
    intro _ wr hwr'
    obtain rfl := Option.some.inj (hwr.symm.trans hwr')
    exact ⟨_, hslot, rfl⟩
  refine ⟨.tickSignals (fun _ => none) i, _, ⟨hfollow, fun _ _ => rfl⟩,
    System.step_logged ht l, hsame.trans haccepted, ?_⟩
  have hbeats : beatsOf (writeEvents c s (.tickSignals (fun _ => none) i)) = [w] := by
    rw [writeEvents_tickSignals hwr, beatsOf_append, beatsOf_responseEvents, beatEvents, hq]
    simp [i, w, hready, beatsOf]
  have hlt := (List.getElem?_eq_some_iff.mp hslot).1
  rw [hsame, beatsOf_append, hbeats, List.length_append, List.length_singleton]
  omega

theorem exists_issued (h : (writePort c).Reaches (WriteMaster c) x)
    (hdata : x.1.wr.writeTransactions = []) :
    ∃ l y, (writePort c).Run (WriteMaster c) x l y ∧
      (y.1.wr.accepted = x.1.wr.accepted ∧ y.1.wr.writeTransactions = []) ∧
      y.1.wr.ddrWriteQ = [] := by
  refine h.exists_run (P := fun y => y.1.wr.accepted = x.1.wr.accepted ∧
    y.1.wr.writeTransactions = []) (fun y => enqueuesLeft y.1.wr.tx y.1.wr.ddrWriteQ) ?_
    ⟨rfl, hdata⟩
  rintro ⟨s, l⟩ hs hP hqueue
  dsimp only at hP hqueue ⊢
  obtain ⟨j, q, hq⟩ := List.exists_cons_of_ne_nil hqueue
  have hok : QueueOk s.wr := .of_reaches hs.of_logged
  have hissue : (s.tryToEnqueueDdr c fun _ _ => true).wr = s.wr.issue c j := by
    simp [State.tryToEnqueueDdr, DramWrites.tryToEnqueue, hq]
  refine ⟨.tryToEnqueueDdr fun _ _ => true, _, ⟨trivial, trivial⟩,
    System.step_logged (S := memory c) rfl l, ?_, ?_⟩
  · rw [hissue]
    exact hP
  · have hnodup := hok.nodup
    rw [hq] at hnodup
    have hleft := enqueuesLeft_issue hnodup (hok.progress_lt j (by simp [hq])) rfl
    rw [← hq] at hleft
    rw [hissue]
    exact Nat.lt_of_succ_le hleft.le

theorem exists_completed (h : (writePort c).Reaches (WriteMaster c) x)
    (hdata : x.1.wr.writeTransactions = []) (hqueue : x.1.wr.ddrWriteQ = []) :
    ∃ l y, (writePort c).Run (WriteMaster c) x l y ∧
      (y.1.wr.accepted = x.1.wr.accepted ∧ y.1.wr.writeTransactions = [] ∧
        y.1.wr.ddrWriteQ = []) ∧ y.1.wr.outstanding = [] := by
  refine h.exists_run (P := fun y => y.1.wr.accepted = x.1.wr.accepted ∧
    y.1.wr.writeTransactions = [] ∧ y.1.wr.ddrWriteQ = [])
    (fun y => y.1.wr.outstanding.length) ?_ ⟨rfl, hdata, hqueue⟩
  rintro ⟨s, l⟩ hs hP houtstanding
  dsimp only at hP houtstanding ⊢
  have hok : WritesOk s.wr := .of_reaches hs.of_logged
  obtain ⟨addr, haddr⟩ := List.exists_mem_of_ne_nil _ houtstanding
  obtain ⟨j, rest, hq⟩ := List.exists_cons_of_ne_nil (hok.flight.waiting_ne_nil haddr)
  have hq' : s.wr.inFlightWrites addr = j :: rest := hq
  obtain ⟨t, ht, hwr⟩ : ∃ t, step c s (.writeCallback addr) = some t ∧
      t.wr = s.wr.complete addr j rest := by
    simp only [step, if_pos haddr, State.writeCallback, hq']
    exact ⟨_, rfl, rfl⟩
  refine ⟨.writeCallback addr, _, ⟨trivial, trivial⟩, System.step_logged ht l, ?_, ?_⟩
  · rw [hwr]
    exact hP
  · rw [hwr]
    have hpos := List.length_pos_of_mem haddr
    simp only [DramWrites.complete, List.length_erase_of_mem haddr]
    omega

/-- A bound on the ticks in which the responses that wait are handed over. -/
def WriteChannel.pending (w : WriteChannel) : ℕ :=
  3 * w.toEnqueue.length + 2 * w.sendIds.length + if w.bValid then 0 else 1

/-- A tick in which the master takes responses comes closer to the end. -/
theorem WriteChannel.pending_lt {w : WriteChannel} (hpresents : w.Presents)
    (hwaiting : ¬ (w.sendIds = [] ∧ w.toEnqueue = [])) :
    (w.finishResponse true).driveB.pending < w.pending := by
  cases hvalid : w.bValid with
  | true =>
    -- a response is handed over
    obtain ⟨rest, hids⟩ := List.head?_eq_some_iff.mp (hpresents hvalid)
    cases rest with
    | nil =>
      cases hq : w.toEnqueue with
      | nil => simp [pending, finishResponse, driveB, hvalid, hids, hq]
      | cons id queue =>
        simp [pending, finishResponse, driveB, hvalid, hids, hq]
        omega
    | cons next rest =>
      cases hq : w.toEnqueue <;> simp [pending, finishResponse, driveB, hvalid, hids, hq]
  | false =>
    -- the oldest response is presented, or the next one comes in
    cases hids : w.sendIds with
    | nil =>
      cases hq : w.toEnqueue with
      | nil => exact absurd ⟨hids, hq⟩ hwaiting
      | cons id rest =>
        simp [pending, finishResponse, driveB, hvalid, hids, hq]
        omega
    | cons id ids =>
      cases hq : w.toEnqueue with
      | nil => simp [pending, finishResponse, driveB, hvalid, hids, hq]
      | cons id' queue =>
        simp [pending, finishResponse, driveB, hvalid, hids, hq]
        omega

theorem exists_handed (h : (writePort c).Reaches (WriteMaster c) x)
    (hdata : x.1.wr.writeTransactions = []) :
    ∃ l y, (writePort c).Run (WriteMaster c) x l y ∧ y.1.wr = x.1.wr ∧
      y.1.w.sendIds = [] ∧ y.1.w.toEnqueue = [] := by
  refine h.exists_run (P := fun y => y.1.wr = x.1.wr) (fun y => y.1.w.pending) ?_ rfl
  rintro ⟨s, l⟩ hs hsame hwaiting
  dsimp only at hsame hwaiting ⊢
  have hpresents : s.w.Presents := (ChannelOk.of_reaches hs).presents
  let i : Inputs := { Inputs.idle with bReady := true }
  obtain ⟨t, ht, -, hwr⟩ := exists_tick (c := c) (s := s) (i := i) rfl rfl
  refine ⟨.tickSignals (fun _ => none) i, _, ⟨fun hfire => ?_, fun _ _ => rfl⟩,
    System.step_logged ht l, ?_, ?_⟩
  · simp [i, Inputs.idle] at hfire
  · obtain ⟨wr, num, hwr', htwr, -⟩ := State.tickSignals_write ht
    obtain rfl := Option.some.inj (hwr.symm.trans hwr')
    rw [htwr, State.acceptW, hsame, hdata]
  · obtain ⟨w, rfl, hsend, henqueue, hvalid, -, -, -⟩ := ChannelOk.w_tick ht
    have hlt := WriteChannel.pending_lt hpresents hwaiting
    rw [WriteChannel.pending, hsend, henqueue, hvalid]
    exact hlt

/-! ### Every burst is answered -/

/-- What burst `j` lacks is not the port's to give: a beat of data, which the port is ready to take,
the acceptance of a DRAM write, or the callback of one. -/
def Awaits (s : State) (j : ℕ) : Prop :=
  (j ∈ s.wr.writeTransactions ∧ s.w.wReady = true) ∨ j ∈ s.wr.ddrWriteQ ∨
    (keysOf s.wr.completed j).length < (keysOf s.wr.issued j).length

/-- Every burst has one response, and the responses have been handed over. -/
structure Answered (x : State × List WriteEvent) : Prop where
  all : (x.1.wr.responses.map Prod.fst).Perm (List.range x.1.wr.accepted.length)
  handed : responsesOf x.2 = x.1.wr.responses.map Prod.snd

theorem mem_responses_of_not_awaits (h : (writePort c).Reaches (WriteMaster c) x) {j : ℕ}
    (hj : j < x.1.wr.accepted.length) (hawaits : ¬ Awaits x.1 j) :
    j ∈ x.1.wr.responses.map Prod.fst := by
  have hok : WritesOk x.1.wr := .of_reaches h.of_logged
  obtain ⟨hdata, hqueue, hflight⟩ := by simpa only [Awaits, not_or] using hawaits
  rw [hok.mem_responses]
  intro hnil
  rcases (StoredOk.of_reaches (beatsFollow_of_writeMaster h)).cover j hj with hmem | hmem | hissued
  · exact hdata ⟨hmem, (ReadyOk.of_reaches h).data (List.ne_nil_of_mem hmem)⟩
  · exact hqueue hmem
  · -- its DRAM writes are issued and none is completed
    refine hflight ?_
    rw [hnil]
    exact List.length_pos_iff.mpr hissued

/-- When no burst awaits anything and no response waits, every burst is answered. -/
theorem answered_of_not_awaits (h : (writePort c).Reaches (WriteMaster c) x)
    (hawaits : ∀ j < x.1.wr.accepted.length, ¬ Awaits x.1 j) (hsend : x.1.w.sendIds = [])
    (henqueue : x.1.w.toEnqueue = []) : Answered x := by
  have hok : WritesOk x.1.wr := .of_reaches h.of_logged
  constructor
  · refine (List.perm_ext_iff_of_nodup hok.nodup_responses List.nodup_range).mpr fun j => ?_
    rw [List.mem_range]
    constructor
    · intro hj
      exact hok.launched_lt j (hok.launched_of_completed ((hok.mem_responses j).mp hj))
    · exact fun hj => mem_responses_of_not_awaits h hj (hawaits j hj)
  · rw [(ChannelOk.of_reaches h).queue, hsend, henqueue, List.append_nil, List.append_nil]

theorem exists_answered (h : (writePort c).Reaches (WriteMaster c) x) :
    ∃ l y, (writePort c).Run (WriteMaster c) x l y ∧
      y.1.wr.accepted = x.1.wr.accepted ∧ Answered y := by
  obtain ⟨l₁, x₁, hrun₁, haccepted₁, hdata₁⟩ := exists_data h
  have h₁ := h.trans_run hrun₁
  obtain ⟨l₂, x₂, hrun₂, ⟨haccepted₂, hdata₂⟩, hqueue₂⟩ := exists_issued h₁ hdata₁
  have h₂ := h₁.trans_run hrun₂
  obtain ⟨l₃, x₃, hrun₃, ⟨haccepted₃, hdata₃, hqueue₃⟩, hdone₃⟩ :=
    exists_completed h₂ hdata₂ hqueue₂
  have h₃ := h₂.trans_run hrun₃
  obtain ⟨l₄, x₄, hrun₄, hwr₄, hsend, henqueue⟩ := exists_handed h₃ hdata₃
  refine ⟨l₁ ++ (l₂ ++ (l₃ ++ l₄)), x₄, hrun₁.append (hrun₂.append (hrun₃.append hrun₄)), ?_, ?_⟩
  · rw [hwr₄, haccepted₃, haccepted₂, haccepted₁]
  · have hok : WritesOk x₃.1.wr := .of_reaches h₃.of_logged
    refine answered_of_not_awaits (h₃.trans_run hrun₄) (fun j _ => ?_) hsend henqueue
    have hlength : (keysOf x₃.1.wr.completed j).length = (keysOf x₃.1.wr.issued j).length :=
      hok.flight.completed_length_eq hdone₃ j
    rw [Awaits, hwr₄, hdata₃, hqueue₃, hlength]
    simp

/-- **Write responses.** In every run in which the beats of data come for accepted bursts and are
marked correctly, no burst has two responses, a response has the ID of its burst and comes after the
burst's last beat, and the writes in flight are counted and bounded. If moreover `awvalid` is low in
the tick after the reset, then whatever the DRAM does a burst has exactly one response as soon as
nothing is missing that the master or the DRAM owe; they can always supply it, and when they have
and the responses are taken, every burst is answered. -/
theorem writeResponses_of_reaches (c : Config) :
    (∀ x, (writePort c).Reaches (BeatsFollow c) x → WriteResponses x) ∧
    ∀ x, (writePort c).Reaches (WriteMaster c) x →
      (∀ j < x.1.wr.accepted.length,
        Awaits x.1 j ∨ (x.1.wr.responses.map Prod.fst).count j = 1) ∧
      ((∀ j < x.1.wr.accepted.length, ¬ Awaits x.1 j) → x.1.w.sendIds = [] →
        x.1.w.toEnqueue = [] → Answered x) ∧
      ∃ l y, (writePort c).Run (WriteMaster c) x l y ∧
        y.1.wr.accepted = x.1.wr.accepted ∧ WriteResponses y ∧ Answered y := by
  refine ⟨fun x => WriteResponses.of_reaches, fun x h => ⟨fun j hj => ?_, ?_, ?_⟩⟩
  · have hok : WritesOk x.1.wr := .of_reaches h.of_logged
    refine or_iff_not_imp_left.mpr fun hawaits => ?_
    exact List.count_eq_one_of_mem hok.nodup_responses (mem_responses_of_not_awaits h hj hawaits)
  · exact answered_of_not_awaits h
  · obtain ⟨l, y, hrun, haccepted, hanswered⟩ := exists_answered h
    exact ⟨l, y, hrun, haccepted,
      .of_reaches (beatsFollow_of_writeMaster (h.trans_run hrun)), hanswered⟩

/-- A burst of one beat is written and answered. -/
theorem writeResponses_one_burst :
    ∃ x, (writePort smallConfig).Reaches (WriteMaster smallConfig) x ∧
    responsesOf x.2 = [3] ∧ WriteResponses x ∧ (x.1.wr.responses.map Prod.fst).count 0 = 1 ∧
    ∃ l y, (writePort smallConfig).Run (WriteMaster smallConfig) x l y ∧
      y.1.wr.accepted = x.1.wr.accepted ∧ WriteResponses y ∧ Answered y := by
  let translate : ℕ → Option ℕ := fun addr => some (addr + 4096)
  let tick (i : Inputs) : Action := .tickSignals translate i
  let take : Action := tick { Inputs.idle with bReady := true }
  obtain ⟨x, hreach, hanswered, hlength, hwaiting, hqueue, hflight⟩ :=
    System.exists_reaches (writePort smallConfig) (WriteMaster smallConfig)
    (fun x => responsesOf x.2 = [3] ∧ x.1.wr.accepted.length = 1 ∧
      x.1.wr.writeTransactions = [] ∧ x.1.wr.ddrWriteQ = [] ∧
      (keysOf x.1.wr.completed 0).length = (keysOf x.1.wr.issued 0).length)
    [tick Inputs.idle, tick { Inputs.idle with aw := .incr 3 3 64 0 },
      tick { Inputs.idle with w := ⟨true, fun _ => 5, 1, true⟩ }, .tryToEnqueueDdr fun _ _ => true,
      .writeCallback 64, take, take, take] (by decide +kernel)
  have hfollow := beatsFollow_of_writeMaster hreach
  obtain ⟨honce, -, hcontinue⟩ := (writeResponses_of_reaches smallConfig).2 x hreach
  refine ⟨x, hreach, hanswered, (writeResponses_of_reaches smallConfig).1 x hfollow,
    (honce 0 (by omega)).resolve_left ?_, hcontinue⟩
  rw [Awaits, hwaiting, hqueue, hflight]
  simp

/-! ### The first tick -/

/-- A burst awaits data for which `wready` is never driven, and nothing has reached the DRAM. -/
structure Stalled (s : State) : Prop where
  ready : s.w.wReady = false
  waiting : s.wr.writeTransactions ≠ []
  queue : s.wr.ddrWriteQ = []
  outstanding : s.wr.outstanding = []
  responses : s.wr.responses = []

theorem Stalled.tick {translate : ℕ → Option ℕ} {i : Inputs} (h : Stalled s)
    (ht : s.tickSignals c translate i = some t) : Stalled t := by
  obtain ⟨wr, num, hwr, htwr, -, hready⟩ := State.tickSignals_write ht
  have hpush : wr.writeTransactions ≠ [] ∧ wr.ddrWriteQ = [] ∧ wr.outstanding = [] ∧
      wr.responses = [] := by
    rw [State.acceptAW] at hwr
    split_ifs at hwr
    · obtain ⟨addr, -, rfl⟩ := Option.map_eq_some_iff.mp hwr
      exact ⟨by simp [DramWrites.push], h.queue, h.outstanding, h.responses⟩
    · cases hwr
      exact ⟨h.waiting, h.queue, h.outstanding, h.responses⟩
  obtain ⟨hwaiting, hqueue, houtstanding, hresponses⟩ := hpush
  -- a burst awaits data and `wready` is low, so the W channel does nothing
  obtain ⟨j, rest, hq⟩ := List.exists_cons_of_ne_nil hwaiting
  simp only [State.acceptW, hq, h.ready, Bool.and_false, Bool.false_eq_true, if_false]
    at htwr hready
  exact ⟨hready, htwr ▸ hwaiting, htwr ▸ hqueue, htwr ▸ houtstanding, htwr ▸ hresponses⟩

theorem Stalled.step {a : Action} (h : Stalled s) (ht : step c s a = some t) : Stalled t := by
  rcases step_cases ht with ⟨translate, i, rfl⟩ | ⟨hdram, -, -⟩
  · exact h.tick ht
  · cases hdram with
    | stay hwr hw => exact ⟨hw ▸ h.ready, hwr ▸ h.waiting, hwr ▸ h.queue, hwr ▸ h.outstanding,
        hwr ▸ h.responses⟩
    | issue hi _ _ => simp [h.queue] at hi
    | complete haddr _ _ _ => simp [h.outstanding] at haddr

/-- A burst that is accepted in the first tick is not answered, whatever the master and the DRAM do
after it: `wready` stays low. -/
theorem firstTick_unanswered :
    ∃ x, (writePort smallConfig).Reaches (BeatsFollow smallConfig) x ∧
      x.1.wr.accepted.length = 1 ∧
      ∀ l y, (writePort smallConfig).Run (BeatsFollow smallConfig) x l y →
        y.1.wr.responses = [] := by
  obtain ⟨x, hreach, hlength, hready, hwaiting, hqueue, houtstanding, hresponses⟩ :=
    System.exists_reaches (writePort smallConfig) (BeatsFollow smallConfig)
    (fun x => x.1.wr.accepted.length = 1 ∧ x.1.w.wReady = false ∧ x.1.wr.writeTransactions ≠ [] ∧
      x.1.wr.ddrWriteQ = [] ∧ x.1.wr.outstanding = [] ∧ x.1.wr.responses = [])
    [.tickSignals some { Inputs.idle with aw := .incr 3 3 64 0 }] (by decide +kernel)
  refine ⟨x, hreach, hlength, fun l y hrun => ?_⟩
  have hstalled : Stalled y.1 := by
    refine hrun.invariant (I := fun x => Stalled x.1) ?_
      ⟨hready, hwaiting, hqueue, houtstanding, hresponses⟩
    exact fun s a t hs _ hstep => hs.step (System.logged_step hstep).1
  exact hstalled.responses

end Beethoven.Memory
