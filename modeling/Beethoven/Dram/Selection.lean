import Beethoven.Dram.Controller

/-!
# The command that is selected

What the loops over the command queues select. The first part holds of every configuration: a
selected command is ready for a command of one of the queues, or for the refresh that waits. The
second part is about queues that hold commands of transactions only, each in its place: no loop ends
the simulation, a selected column command stands in its own queue and is taken out of it, and every
selected command can be executed.
-/

namespace Beethoven.Dram

open Lib (Ensures Returns)

variable {c : Config} {ch : ChannelState} {q q' : CommandQueue} {cmd : Command} {clk : ℕ}

namespace CommandQueue

/-! ### Every configuration -/

/-- A command chosen from a queue is ready for a command of the queue, and a write has no read of
its place before it. -/
theorem getFirstReadyInQueue_cases {before l : List Command} {ready : Command}
    (h : getFirstReadyInQueue c ch clk before l = .ok (some ready)) :
    ∃ pre entry post, l = pre ++ entry :: post ∧
      ch.getReadyCommand c entry clk = .ok (some ready) ∧
      (ready.cmdType.isWrite → hasRWDependency (before ++ pre) entry = false) := by
  induction l generalizing before with
  | nil => cases h
  | cons entry l ih =>
    rw [getFirstReadyInQueue] at h
    obtain ⟨answer, hanswer, h⟩ := Lib.bind_eq_ok.mp h
    -- the loop goes on
    have hnext (h : getFirstReadyInQueue c ch clk (before ++ [entry]) l = .ok (some ready)) :
        ∃ pre e post, entry :: l = pre ++ e :: post ∧
          ch.getReadyCommand c e clk = .ok (some ready) ∧
          (ready.cmdType.isWrite → hasRWDependency (before ++ pre) e = false) := by
      obtain ⟨pre, e, post, rfl, hready, hdep⟩ := ih h
      refine ⟨entry :: pre, e, post, rfl, hready, ?_⟩
      rwa [List.append_assoc, List.singleton_append] at hdep
    cases answer with
    | none => exact hnext h
    | some r =>
      dsimp only at h
      split_ifs at h with hpre harb hwrite hdep
      · cases h
        exact ⟨[], entry, l, rfl, hanswer, fun hw => by rw [hpre] at hw; cases hw⟩
      · exact hnext h
      · exact hnext h
      · cases h
        refine ⟨[], entry, l, rfl, hanswer, fun _ => ?_⟩
        rwa [List.append_nil, ← Bool.not_eq_true]
      · cases h
        exact ⟨[], entry, l, rfl, hanswer, fun hw => absurd hw hwrite⟩

/-- What the loop over the queues selects: nothing, a command that opens or closes a row, or a
column command, which is taken out of its queue. -/
inductive Selected (c : Config) (ch : ChannelState) (q : CommandQueue) :
    Option Command → CommandQueue → Prop
  | none (j : ℕ) : Selected c ch q none { q with queueIdx := j }
  | row (j : ℕ) {i : ℤ} {pre post : List Command} {entry cmd : Command}
      (hqueue : q.queues i = pre ++ entry :: post)
      (hready : ch.getReadyCommand c entry q.clk = .ok (some cmd))
      (hcmd : ¬ cmd.cmdType.isReadWrite) : Selected c ch q (some cmd) { q with queueIdx := j }
  | column (j : ℕ) {i : ℤ} {pre post : List Command} {entry cmd : Command} {q' : CommandQueue}
      (hqueue : q.queues i = pre ++ entry :: post)
      (hready : ch.getReadyCommand c entry q.clk = .ok (some cmd)) (hcmd : cmd.cmdType.isReadWrite)
      (hdep : cmd.cmdType.isWrite → hasRWDependency pre entry = false)
      (herase : eraseRWCommand c { q with queueIdx := j } cmd = .ok q') :
      Selected c ch q (some cmd) q'

theorem Selected.of_queueIdx {i : ℕ} {cmd : Option Command}
    (h : Selected c ch { q with queueIdx := i } cmd q') : Selected c ch q cmd q' := by
  cases h with
  | none j => exact .none j
  | row j hqueue hready hcmd => exact .row j hqueue hready hcmd
  | column j hqueue hready hcmd hdep herase => exact .column j hqueue hready hcmd hdep herase

theorem getCommandLoop_selected {n : ℕ} {cmd : Option Command}
    (h : getCommandLoop c ch n q = .ok (cmd, q')) : Selected c ch q cmd q' := by
  induction n generalizing q with
  | zero =>
    obtain ⟨rfl, rfl⟩ := Prod.mk.inj (Except.ok.inj h)
    exact .none _
  | succ n ih =>
    rw [getCommandLoop] at h
    split_ifs at h with href
    · exact (ih h).of_queueIdx
    · obtain ⟨answer, hanswer, h⟩ := Lib.bind_eq_ok.mp h
      cases answer with
      | none => exact (ih h).of_queueIdx
      | some r =>
        obtain ⟨pre, entry, post, hqueue, hready, hdep⟩ := getFirstReadyInQueue_cases hanswer
        dsimp only at h
        split_ifs at h with hrw
        · obtain ⟨q₁, herase, h⟩ := Lib.bind_eq_ok.mp h
          cases h
          exact .column _ hqueue hready hrw hdep herase
        · cases h
          exact .row _ hqueue hready hrw

theorem getCommandToIssue_selected {cmd : Option Command}
    (h : getCommandToIssue c ch q = .ok (cmd, q')) : Selected c ch q cmd q' :=
  getCommandLoop_selected h

theorem eraseRWCommand_cases (h : eraseRWCommand c q cmd = .ok q') :
    c.HasQueue (c.queueOf cmd.addr) ∧ q' = { q with
      queues := Function.update q.queues (c.queueOf cmd.addr)
        ((q.queues (c.queueOf cmd.addr)).eraseP (isSame cmd)) } := by
  obtain ⟨queue, hqueue, h⟩ := Lib.bind_eq_ok.mp h
  rw [getQueue] at hqueue
  split_ifs at hqueue with hq
  cases hqueue
  split_ifs at h with hany
  cases h
  exact ⟨hq, rfl⟩

theorem Selected.frame {cmd : Option Command} (h : Selected c ch q cmd q') :
    q'.clk = q.clk ∧ q'.isInRef = q.isInRef ∧ q'.refQIndices = q.refQIndices ∧
      q'.rankQEmpty = q.rankQEmpty := by
  cases h with
  | none j => exact ⟨rfl, rfl, rfl, rfl⟩
  | row j hqueue hready hcmd => exact ⟨rfl, rfl, rfl, rfl⟩
  | column j hqueue hready hcmd hdep herase =>
    obtain ⟨-, rfl⟩ := eraseRWCommand_cases herase
    exact ⟨rfl, rfl, rfl, rfl⟩

theorem Selected.ready {x : Command} (h : Selected c ch q (some x) q') :
    ∃ entry, ch.Ready c entry q.clk x := by
  cases h with
  | row j hqueue hready hcmd | column j hqueue hready hcmd hdep herase =>
    exact ⟨_, ChannelState.getReadyCommand_cases hready⟩

end CommandQueue

/-- A refresh that waits is asked for, and only what is known of it changes. -/
theorem CommandQueue.finishRefresh_cases {ref : Command} {cmd : Option Command}
    (h : finishRefresh c ch q ref = .ok (cmd, q')) :
    ch.getReadyCommand c ref q.clk = .ok cmd ∧
      ∃ indices isInRef, q' = { q with refQIndices := indices, isInRef } := by
  rw [finishRefresh] at h
  split_ifs at h with href
  · obtain ⟨answer, hanswer, h⟩ := Lib.bind_eq_ok.mp h
    split_ifs at h
    · cases h
      exact ⟨hanswer, _, _, rfl⟩
    · cases h
      exact ⟨hanswer, _, _, rfl⟩
  · obtain ⟨answer, hanswer, h⟩ := Lib.bind_eq_ok.mp h
    split_ifs at h
    · cases h
      exact ⟨hanswer, _, _, rfl⟩
    · cases h
      exact ⟨hanswer, _, _, rfl⟩

namespace Controller

variable {k k' : Controller}

theorem getCommandToIssue_cases {cmd : Option Command} (h : k.getCommandToIssue c = .ok (cmd, k')) :
    ∃ q', k.cmdQueue.Selected c k.channelState cmd q' ∧ k' = { k with cmdQueue := q' } := by
  obtain ⟨⟨cmd', q'⟩, hq, h⟩ := Lib.bind_eq_ok.mp h
  cases h
  exact ⟨q', CommandQueue.getCommandToIssue_selected hq, rfl⟩

/-- **The command of a cycle is ready**, in every configuration. -/
theorem nextCommand_ready {cmd : Option Command} (h : k.nextCommand c = .ok (cmd, k')) :
    (∃ q', q'.clk = k.cmdQueue.clk ∧ k' = { k with cmdQueue := q' }) ∧
      ∀ x ∈ cmd, ∃ request, k.channelState.Ready c request k.cmdQueue.clk x := by
  rw [nextCommand] at h
  split at h
  · obtain ⟨q', hq', rfl⟩ := getCommandToIssue_cases h
    refine ⟨⟨q', hq'.frame.1, rfl⟩, fun x hx => ?_⟩
    cases hx
    exact hq'.ready
  · next ref _ _ =>
    obtain ⟨⟨cmd', q'⟩, hq', h⟩ := Lib.bind_eq_ok.mp h
    obtain ⟨hready, indices, isInRef, rfl⟩ := CommandQueue.finishRefresh_cases hq'
    cases cmd' with
    | some x =>
      cases h
      refine ⟨⟨{ k.cmdQueue with refQIndices := indices, isInRef }, rfl, rfl⟩, fun y hy => ?_⟩
      cases hy
      exact ⟨ref, ChannelState.getReadyCommand_cases hready⟩
    | none =>
      obtain ⟨q', hq', rfl⟩ := getCommandToIssue_cases h
      refine ⟨⟨q', hq'.frame.1, rfl⟩, fun x hx => ?_⟩
      cases hx
      exact hq'.ready

end Controller

/-! ### Commands of transactions -/

/-- The column command of a transaction. -/
def Config.column (c : Config) (addr : ℕ) (isWrite : Bool) : Command :=
  Controller.transToCommand c ⟨addr, 0, 0, isWrite⟩

namespace Config

variable (c) (a : ℕ) (w : Bool)

@[simp] theorem column_hexAddr : (c.column a w).hexAddr = a := rfl

@[simp] theorem column_addr : (c.column a w).addr = c.addressMapping a := rfl

@[simp] theorem isWrite_column : (c.column a w).cmdType.isWrite = w := by
  rw [column, Controller.transToCommand]
  cases c.rowBufPolicy <;> cases w <;> rfl

@[simp] theorem isRead_column : (c.column a w).cmdType.isRead = !w := by
  rw [column, Controller.transToCommand]
  cases c.rowBufPolicy <;> cases w <;> rfl

@[simp] theorem isReadWrite_column : (c.column a w).cmdType.isReadWrite = true := by
  rw [CommandType.isReadWrite, isRead_column, isWrite_column]
  cases w <;> rfl

theorem requests_column : c.Requests (c.column a w) :=
  .inl ⟨.inl (c.isReadWrite_column a w), c.hasBank_addressMapping a⟩

variable {c}

theorem hasQueue_queueOf {addr : Address} (h : c.HasBank addr.toBank) :
    c.HasQueue (c.queueOf addr) := by
  obtain ⟨⟨hr, hr'⟩, ⟨hg, hg'⟩, hk, hk'⟩ := h
  change 0 ≤ addr.rank at hr
  change addr.rank < c.ranks at hr'
  change 0 ≤ addr.bankgroup at hg
  change addr.bankgroup < c.bankgroups at hg'
  change 0 ≤ addr.bank at hk
  change addr.bank < c.banksPerGroup at hk'
  rw [queueOf, getQueueIndex, HasQueue, numQueues]
  cases c.queueStructure with
  | perRank => exact ⟨hr, hr'⟩
  | perBank =>
    have hgroup : addr.bankgroup * c.banksPerGroup + addr.bank < (c.banks : ℤ) := by
      have hle : (addr.bankgroup + 1) * c.banksPerGroup ≤ (c.bankgroups : ℤ) * c.banksPerGroup :=
        Int.mul_le_mul_of_nonneg_right (by omega) (Int.natCast_nonneg _)
      rw [banks, Nat.cast_mul]
      rw [Int.add_mul, Int.one_mul] at hle
      omega
    have hrank : (addr.rank + 1) * c.banks ≤ (c.ranks : ℤ) * c.banks :=
      Int.mul_le_mul_of_nonneg_right (by omega) (Int.natCast_nonneg _)
    have hgroup₀ : 0 ≤ addr.bankgroup * (c.banksPerGroup : ℤ) :=
      Int.mul_nonneg hg (Int.natCast_nonneg _)
    have hrank₀ : 0 ≤ addr.rank * (c.banks : ℤ) := Int.mul_nonneg hr (Int.natCast_nonneg _)
    rw [Int.add_mul, Int.one_mul] at hrank
    dsimp only
    rw [Nat.cast_mul, Int.mul_comm (c.banks : ℤ)]
    omega

end Config

namespace CommandQueue

/-- The queues hold column commands of transactions, each once and in its own queue. -/
structure Placed (c : Config) (q : CommandQueue) : Prop where
  column : ∀ i, ∀ cmd ∈ q.queues i, ∃ w, cmd = c.column cmd.hexAddr w
  queueOf : ∀ i, ∀ cmd ∈ q.queues i, c.queueOf cmd.addr = i
  nodup : ∀ i, (q.queues i).Nodup

theorem Placed.of_sublist {q' : CommandQueue} (h : Placed c q)
    (hq : ∀ i, (q'.queues i).Sublist (q.queues i)) : Placed c q' :=
  ⟨fun i cmd hcmd => h.column i cmd ((hq i).subset hcmd),
    fun i cmd hcmd => h.queueOf i cmd ((hq i).subset hcmd), fun i => (h.nodup i).sublist (hq i)⟩

theorem Placed.of_queues {q' : CommandQueue} (h : Placed c q) (hq : q'.queues = q.queues) :
    Placed c q' :=
  h.of_sublist fun i => by rw [hq]

theorem Placed.requests (h : Placed c q) {i : ℤ} (hcmd : cmd ∈ q.queues i) : c.Requests cmd := by
  obtain ⟨w, hw⟩ := h.column i cmd hcmd
  rw [hw]
  exact c.requests_column _ w

/-- An entry of the type and the address of a column command is that command. -/
theorem Placed.isSame_iff (h : Placed c q) {i : ℤ} {entry : Command} (hcmd : cmd ∈ q.queues i)
    (hentry : entry ∈ q.queues i) : isSame cmd entry ↔ entry = cmd := by
  rw [isSame, Bool.and_eq_true, decide_eq_true_eq, decide_eq_true_eq]
  constructor
  · rintro ⟨haddr, htype⟩
    obtain ⟨w, hw⟩ := h.column i cmd hcmd
    obtain ⟨w', hw'⟩ := h.column i entry hentry
    have hwrite : w = w' := by
      rw [← c.isWrite_column cmd.hexAddr w, ← c.isWrite_column entry.hexAddr w', ← hw, ← hw', htype]
    rw [hw', hw, hwrite, haddr]
  · rintro rfl
    exact ⟨rfl, rfl⟩

theorem Placed.eraseP_isSame (h : Placed c q) {i : ℤ} {pre post : List Command}
    (hqueue : q.queues i = pre ++ cmd :: post) :
    (q.queues i).eraseP (isSame cmd) = pre ++ post := by
  have hmem : cmd ∈ q.queues i := by simp [hqueue]
  have hnot : ∀ entry ∈ pre, ¬ isSame cmd entry := by
    intro entry hentry hsame
    have hin : entry ∈ q.queues i := by simp [hqueue, hentry]
    have hnodup := h.nodup i
    rw [(h.isSame_iff hmem hin).mp hsame] at hentry
    rw [hqueue, List.nodup_append] at hnodup
    exact hnodup.2.2 cmd hentry cmd List.mem_cons_self rfl
  rw [hqueue, List.eraseP_append_right _ hnot,
    List.eraseP_cons_of_pos ((h.isSame_iff hmem hmem).mpr rfl)]

theorem returns_getFirstReadyInQueue {before l : List Command} (hl : ∀ cmd ∈ l, c.Requests cmd)
    (hawake : ch.Awake c) : Returns (getFirstReadyInQueue c ch clk before l) fun _ => True := by
  induction l generalizing before with
  | nil => exact .ok trivial
  | cons cmd l ih =>
    have hrest : Returns (getFirstReadyInQueue c ch clk (before ++ [cmd]) l) fun _ => True :=
      ih fun x hx => hl x (List.mem_cons_of_mem cmd hx)
    rw [getFirstReadyInQueue]
    refine (ChannelState.returns_getReadyCommand (hl cmd List.mem_cons_self) hawake).bind
      fun answer _ => ?_
    cases answer with
    | none => exact hrest
    | some ready =>
      dsimp only
      split_ifs
      · exact .ok trivial
      · exact hrest
      · exact hrest
      · exact .ok trivial
      · exact .ok trivial

/-- A column command that is ready for an entry is the entry. -/
theorem Placed.eq_of_ready (h : Placed c q) {i : ℤ} {entry : Command} (hentry : entry ∈ q.queues i)
    (hawake : ch.Awake c) (hready : ch.getReadyCommand c entry clk = .ok (some cmd))
    (hcmd : cmd.cmdType.isReadWrite) : cmd = entry := by
  have hwhat :=
    ((ChannelState.getReadyCommand_cases hready).executable (h.requests hentry) hawake).2
  rcases hwhat with heq | htype | htype
  · exact heq
  · rw [htype] at hcmd
    cases hcmd
  · rw [htype] at hcmd
    cases hcmd

theorem Placed.returns_eraseRWCommand (h : Placed c q) {i : ℤ} (hcmd : cmd ∈ q.queues i) :
    Returns (eraseRWCommand c q cmd) fun _ => True := by
  have hi := h.queueOf i cmd hcmd
  have hqueue : c.HasQueue i := by
    obtain ⟨w, hw⟩ := h.column i cmd hcmd
    rw [← hi, hw]
    exact Config.hasQueue_queueOf (c.hasBank_addressMapping _)
  have hany : (q.queues i).any (isSame cmd) :=
    List.any_eq_true.mpr ⟨cmd, hcmd, (h.isSame_iff hcmd hcmd).mpr rfl⟩
  refine Returns.bind (P := (· = q.queues i)) ⟨_, ?_, rfl⟩ ?_
  · rw [getQueue, hi, if_pos hqueue]
  · rintro queue rfl
    rw [if_pos hany]
    exact .ok trivial

/-- **The loop over placed queues selects a command.** -/
theorem Placed.returns_getCommandLoop (h : Placed c q) (hawake : ch.Awake c) {n : ℕ} :
    Returns (getCommandLoop c ch n q) fun _ => True := by
  induction n generalizing q with
  | zero => exact .ok trivial
  | succ n ih =>
    have hnext : Placed c (q.getNextQueue c) := h.of_queues rfl
    rw [getCommandLoop]
    split_ifs
    · exact ih hnext
    · have hfirst : Returns (getFirstReadyInQueue c ch (q.getNextQueue c).clk []
          ((q.getNextQueue c).queues (q.getNextQueue c).queueIdx)) fun _ => True :=
        returns_getFirstReadyInQueue (fun x hx => hnext.requests hx) hawake
      obtain ⟨answer, hanswer, -⟩ := hfirst
      rw [hanswer]
      cases answer with
      | none => exact ih hnext
      | some r =>
        change Returns (if r.cmdType.isReadWrite then _ else _) _
        split_ifs with hrw
        · obtain ⟨pre, entry, post, hqueue, hready, -⟩ := getFirstReadyInQueue_cases hanswer
          have hentry : entry ∈ (q.getNextQueue c).queues (q.getNextQueue c).queueIdx := by
            simp [hqueue]
          rw [← hnext.eq_of_ready hentry hawake hready hrw] at hentry
          exact (hnext.returns_eraseRWCommand hentry).bind fun _ _ => .ok trivial
        · exact .ok trivial

end CommandQueue

/-! ### The command of a cycle -/

namespace Controller

variable {k : Controller}

/-- What `nextCommand` picks, and what it changes: nothing, a command that opens or closes a row or
the refresh that waits longest, or a column command, which is taken out of its queue and which, if
it is a write, has no read of its place before it. -/
inductive Picked (c : Config) (k : Controller) : Option Command → Controller → Prop
  | none {q : CommandQueue} (hq : q.queues = k.cmdQueue.queues) (hclk : q.clk = k.cmdQueue.clk) :
      Picked c k none { k with cmdQueue := q }
  | row {q : CommandQueue} {cmd : Command} (hq : q.queues = k.cmdQueue.queues)
      (hclk : q.clk = k.cmdQueue.clk) (hcmd : ¬ cmd.cmdType.isReadWrite)
      (hexec : k.channelState.Executable c cmd)
      (hrefresh : cmd.cmdType.isRefresh → k.channelState.refreshQ.head? = some cmd) :
      Picked c k (some cmd) { k with cmdQueue := q }
  | column {q : CommandQueue} {a : ℕ} {w : Bool} {pre post : List Command}
      (hqueue : k.cmdQueue.queues (c.queueOf (c.addressMapping a)) = pre ++ c.column a w :: post)
      (hq : q.queues = Function.update k.cmdQueue.queues (c.queueOf (c.addressMapping a))
        (pre ++ post)) (hclk : q.clk = k.cmdQueue.clk)
      (hexec : k.channelState.Executable c (c.column a w))
      (hdep : w = true → CommandQueue.hasRWDependency pre (c.column a w) = false) :
      Picked c k (some (c.column a w)) { k with cmdQueue := q }

theorem picked_of_selected (hplaced : k.cmdQueue.Placed c) (hawake : k.channelState.Awake c)
    {cmd : Option Command} (h : k.cmdQueue.Selected c k.channelState cmd q) :
    Picked c k cmd { k with cmdQueue := q } := by
  cases h with
  | none j => exact .none rfl rfl
  | @row j i pre post entry cmd hqueue hready hcmd =>
    have hentry : entry ∈ k.cmdQueue.queues i := by simp [hqueue]
    obtain ⟨hexec, hwhat⟩ := (ChannelState.getReadyCommand_cases hready).executable
      (hplaced.requests hentry) hawake
    refine .row rfl rfl hcmd hexec fun hrefresh => ?_
    rcases hwhat with rfl | htype | htype
    · obtain ⟨w, hw⟩ := hplaced.column i _ hentry
      rw [hw, c.isReadWrite_column] at hcmd
      exact absurd rfl hcmd
    · rw [htype] at hrefresh
      cases hrefresh
    · rw [htype] at hrefresh
      cases hrefresh
  | @column j i pre post entry cmd q' hqueue hready hcmd hdep herase =>
    have hentry : entry ∈ k.cmdQueue.queues i := by simp [hqueue]
    have hexec := ((ChannelState.getReadyCommand_cases hready).executable
      (hplaced.requests hentry) hawake).1
    obtain rfl := hplaced.eq_of_ready hentry hawake hready hcmd
    obtain ⟨w, hw⟩ := hplaced.column i _ hentry
    have hi := hplaced.queueOf i _ hentry
    obtain ⟨-, rfl⟩ := CommandQueue.eraseRWCommand_cases herase
    generalize cmd.hexAddr = a at hw
    subst hw
    rw [c.column_addr] at hi
    subst hi
    refine .column hqueue ?_ rfl hexec fun hwrite => hdep (by rw [c.isWrite_column, hwrite])
    rw [← hplaced.eraseP_isSame hqueue]
    rfl

theorem returns_getCommandToIssue (hplaced : k.cmdQueue.Placed c)
    (hawake : k.channelState.Awake c) :
    Returns (k.getCommandToIssue c) fun x => Picked c k x.1 x.2 := by
  obtain ⟨⟨cmd, q⟩, hq, -⟩ := hplaced.returns_getCommandLoop hawake (n := c.numQueues)
  refine ⟨(cmd, { k with cmdQueue := q }), Lib.bind_eq_ok.mpr ⟨_, hq, rfl⟩, ?_⟩
  exact picked_of_selected hplaced hawake (CommandQueue.getCommandToIssue_selected hq)

/-- **Placed queues and awake banks have a next command**, which can be executed. -/
theorem returns_nextCommand (hplaced : k.cmdQueue.Placed c) (hawake : k.channelState.Awake c)
    (hrefresh : ∀ r ∈ k.channelState.refreshQ, c.Requests r ∧ r.cmdType.isRefresh) :
    Returns (k.nextCommand c) fun x => Picked c k x.1 x.2 := by
  rw [nextCommand]
  split
  · exact returns_getCommandToIssue hplaced hawake
  · next ref rest href =>
    obtain ⟨hreq, -⟩ := hrefresh ref (by simp [href])
    have hready : Returns (k.channelState.getReadyCommand c ref k.cmdQueue.clk) fun _ => True :=
      ChannelState.returns_getReadyCommand hreq hawake
    obtain ⟨answer, hanswer, -⟩ := hready
    have hfinish :
        Returns (k.cmdQueue.finishRefresh c k.channelState ref) fun x => x.1 = answer := by
      rw [CommandQueue.finishRefresh]
      split_ifs
      · refine Returns.bind (P := (· = answer)) ⟨_, hanswer, rfl⟩ ?_
        rintro _ rfl
        split_ifs <;> exact .ok rfl
      · refine Returns.bind (P := (· = answer)) ⟨_, hanswer, rfl⟩ ?_
        rintro _ rfl
        split_ifs <;> exact .ok rfl
    obtain ⟨⟨cmd, q⟩, hq, rfl⟩ := hfinish
    obtain ⟨-, indices, isInRef, rfl⟩ := CommandQueue.finishRefresh_cases hq
    rw [hq]
    cases cmd with
    | none =>
      have hplaced' : CommandQueue.Placed c
          { k.cmdQueue with refQIndices := indices, isInRef } := hplaced.of_queues rfl
      obtain ⟨⟨cmd, k'⟩, hk', hpicked⟩ := returns_getCommandToIssue
        (k := { k with cmdQueue := { k.cmdQueue with refQIndices := indices, isInRef } })
        hplaced' hawake
      refine ⟨(cmd, k'), hk', ?_⟩
      cases hpicked with
      | none hq hclk => exact .none hq hclk
      | row hq hclk hcmd hexec hrefresh => exact .row hq hclk hcmd hexec hrefresh
      | column hqueue hq hclk hexec hdep => exact .column hqueue hq hclk hexec hdep
    | some cmd =>
      obtain ⟨hexec, hwhat⟩ := (ChannelState.getReadyCommand_cases hanswer).executable hreq hawake
      have hnot : ¬ cmd.cmdType.isReadWrite := by
        rcases hwhat with rfl | htype | htype
        · exact CommandType.not_isReadWrite (hrefresh cmd (by simp [href])).2
        · rw [htype]
          decide
        · rw [htype]
          decide
      refine .ok (.row rfl rfl hnot hexec fun hisRefresh => ?_)
      rcases hwhat with rfl | htype | htype
      · rw [href]
        rfl
      · rw [htype] at hisRefresh
        cases hisRefresh
      · rw [htype] at hisRefresh
        cases hisRefresh

end Controller

end Beethoven.Dram
