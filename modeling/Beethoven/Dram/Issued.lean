import Beethoven.Dram.DramSystem
import Beethoven.Lib.Distances
import Beethoven.Lib.PolledStream

/-!
# The commands that are issued

The devices behind a controller see only the commands that it issues, each in its cycle. The log of
these commands keeps the rules of the devices, in every configuration, with self-refresh and with
two commands in a cycle:

* every two commands of a channel keep the distance that the tables of `Timing` demand between them,
  at every bank at which the later one happens;
* a fifth activation of a rank comes no sooner than `tFAW` cycles after the first, and with graphics
  memory a 33rd no sooner than `t32AW` cycles after the first;
* the commands of each bank follow its protocol: a column is read or written in the row that was
  activated last and has not been closed since, a row is activated, or the bank refreshed, only
  while no row is open, and only an open row is closed.

The tables of times, the windows and the rows in the state of a channel are compared with the log,
from which they are computed anew.
-/

namespace Beethoven.Dram

open Lib (Ensures)
open Function

/-! ### The rules of the devices -/

/-- The banks and the type of a command, and the times that it imposes on later ones. -/
def Config.rules (c : Config) : Lib.Rules Command Bank CommandType where
  places cmd b := b ∈ c.targets cmd
  kind cmd := cmd.cmdType
  imposes cmd clk b t time :=
    c.HasBank b ∧ ∃ d, (t, d) ∈ c.timing.after cmd b ∧ time = addCycles clk d

/-- The cycles in which a row of the rank was activated. -/
def activations (rank : ℤ) (log : List (ℕ × Command)) : List ℕ :=
  (log.filter fun x => x.2.cmdType = .activate && x.2.addr.rank = rank).map (·.1)

/-- The open row of a bank after a command to it. -/
def rowAfter (row : Option ℤ) (cmd : Command) : Option ℤ :=
  match cmd.cmdType with
  | .activate => some cmd.addr.row
  | .precharge | .readPrecharge | .writePrecharge => none
  | .read | .write | .refresh | .refreshBank | .srefEnter | .srefExit => row

/-- The open row of a bank after the commands of a log. -/
def openRow (b : Bank) (log : List (ℕ × Command)) : Option ℤ :=
  log.foldl (fun row x => if x.2.addr.toBank = b then rowAfter row x.2 else row) none

/-- The protocol of a bank with the given open row. -/
def Legal (row : Option ℤ) (cmd : Command) : Prop :=
  match cmd.cmdType with
  | .read | .write | .readPrecharge | .writePrecharge => row = some cmd.addr.row
  | .precharge => row ≠ none
  | .activate | .refresh | .refreshBank | .srefEnter | .srefExit => row = none

theorem activations_append (rank : ℤ) (log : List (ℕ × Command)) (x : ℕ × Command) :
    activations rank (log ++ [x]) = activations rank log ++
      if x.2.cmdType = .activate ∧ x.2.addr.rank = rank then [x.1] else [] := by
  rw [activations, List.filter_append, List.map_append, activations]
  congr 1
  by_cases h : x.2.cmdType = .activate ∧ x.2.addr.rank = rank
  · simp [h]
  · rw [if_neg h, List.filter_cons_of_neg (by simpa using h)]
    rfl

theorem openRow_append (b : Bank) (log : List (ℕ × Command)) (x : ℕ × Command) :
    openRow b (log ++ [x]) =
      if x.2.addr.toBank = b then rowAfter (openRow b log) x.2 else openRow b log := by
  rw [openRow, List.foldl_append]
  rfl

/-! ### The rows of the banks -/

variable {c : Config} {ch ch' : ChannelState} {k k' : Controller} {cmd ready : Command}

namespace BankState

variable {b b' : BankState}

/-- The open row of the bank. -/
def row (b : BankState) : Option ℤ := if b.state = .opened then some b.openRow else none

theorem row_updateState (h : b.updateState cmd = .ok b') : b'.row = rowAfter b.row cmd := by
  rw [updateState] at h
  rw [rowAfter]
  split at h
  · next hstate => split at h <;> cases h <;> simp_all [row]
  · next hstate => split at h <;> cases h <;> simp_all [row]
  · next hstate =>
    split at h
    · cases h
      simp_all [row]
    all_goals cases h
  · cases h

theorem legal_of_requiredType {t : CommandType} (h : b.requiredType cmd = .ok t) :
    Legal b.row { cmd with cmdType := t } := by
  rw [requiredType] at h
  split at h
  · next hstate =>
    split at h <;> cases h <;> simp_all [Legal, row]
  · next hstate =>
    split at h
    case h_5 | h_6 | h_7 =>
      cases h
      simp [Legal, row, hstate]
    case h_8 | h_9 | h_10 => cases h
    all_goals
      next htype =>
      split_ifs at h with hrow
      · cases h
        simp [Legal, row, hstate, htype, hrow]
      · cases h
        simp [Legal, row, hstate]
  · next hstate =>
    split at h <;> cases h <;> simp [Legal, row, hstate]
  · cases h

end BankState

namespace ChannelState

variable {clk : ℕ} {b : Bank}

theorem Ready.legal (h : Ready c ch cmd clk ready) (hb : b ∈ c.targets ready) :
    Legal (ch.bankStates b).row ready := by
  obtain ⟨-, -, request, hreq, hpre | heq⟩ := h.required hb
  · have hlegal := BankState.legal_of_requiredType hreq
    rw [hpre] at hlegal
    rw [Legal, hpre]
    exact hlegal
  · rw [heq]
    exact BankState.legal_of_requiredType hreq

theorem rowAfter_of_isRankCMD (hcmd : cmd.cmdType.isRankCMD) (row : Option ℤ) :
    rowAfter row cmd = row := by
  rw [rowAfter]
  cases htype : cmd.cmdType
  case activate | precharge | readPrecharge | writePrecharge =>
    rw [htype] at hcmd
    cases hcmd
  all_goals rfl

theorem row_updateBank (b' : Bank) : Ensures (updateBank c cmd ch b') fun ch' =>
    ∀ b, (ch'.bankStates b).row =
      if b' = b then rowAfter (ch.bankStates b).row cmd else (ch.bankStates b).row := by
  refine ensures_updateBank.mono ?_
  rintro _ ⟨bank, hbank, rfl⟩ b
  by_cases hb : b' = b
  · subst hb
    simp only [setBank, update_self, if_true]
    exact BankState.row_updateState hbank
  · simp only [setBank, update_of_ne (Ne.symm hb), if_neg hb]

theorem row_updateState : Ensures (ch.updateState c cmd) fun ch' => ∀ b, (ch'.bankStates b).row =
    if cmd.addr.toBank = b then rowAfter (ch.bankStates b).row cmd
    else (ch.bankStates b).row := by
  rw [updateState]
  split_ifs with hrank hrefresh
  · simp only [rowAfter_of_isRankCMD hrank, ite_self]
    refine Ensures.bind (P := fun ch' => ∀ b, (ch'.bankStates b).row = (ch.bankStates b).row) ?_ ?_
    · refine .foldlM (fun _ => rfl) fun ch' b' _ hch' => ?_
      refine (row_updateBank b').mono fun ch'' hch'' b => ?_
      rw [hch'' b, rowAfter_of_isRankCMD hrank, ite_self, hch' b]
    · intro ch' hch'
      split <;> exact .ok hch'
  · exact (row_updateBank _).bind fun ch' hch' => .ok hch'
  · exact (row_updateBank _).bind fun ch' hch' => .ok hch'

theorem row_updateTiming (b : Bank) :
    ((ch.updateTiming c cmd clk).bankStates b).row = (ch.bankStates b).row := by
  rw [updateTiming_bankStates]
  split_ifs
  · simp [BankState.row]
  · rfl

/-- A window of activations after a command. -/
def slid (w : ℕ) (cmd : Command) (clk : ℕ) (times : ℤ → List ℕ) : ℤ → List ℕ :=
  if cmd.cmdType = .activate then
    update times cmd.addr.rank (Lib.Window.slide w (times cmd.addr.rank) clk)
  else times

theorem updateTiming_fourAw :
    (ch.updateTiming c cmd clk).fourAw = slid c.tFAW cmd clk ch.fourAw := by
  rw [updateTiming, updateBankTimings_fourAw, slid]
  split_ifs <;> rfl

theorem updateTiming_thirtyTwoAw (hc : c.isGDDR) :
    (ch.updateTiming c cmd clk).thirtyTwoAw = slid c.t32AW cmd clk ch.thirtyTwoAw := by
  rw [updateTiming, updateBankTimings_thirtyTwoAw, slid]
  split_ifs
  · simp [updateActivationTimes, hc]
  · rfl

/-- **What a command changes in the times, the windows and the rows.** -/
theorem ensures_updateTimingAndStates :
    Ensures (ch.updateTimingAndStates c cmd clk) fun ch' =>
      (∀ b t, (ch.bankStates b).cmdTiming t ≤ (ch'.bankStates b).cmdTiming t) ∧
      (∀ b t time, c.rules.imposes cmd clk b t time → time ≤ (ch'.bankStates b).cmdTiming t) ∧
      ch'.fourAw = slid c.tFAW cmd clk ch.fourAw ∧
      (c.isGDDR → ch'.thirtyTwoAw = slid c.t32AW cmd clk ch.thirtyTwoAw) ∧
      ∀ b, (ch'.bankStates b).row =
        if cmd.addr.toBank = b then rowAfter (ch.bankStates b).row cmd
        else (ch.bankStates b).row := by
  intro ch' h
  obtain ⟨ch₁, hch₁, h⟩ := Lib.bind_eq_ok.mp h
  cases h
  have htimes := sameTimes_updateState ch₁ hch₁
  refine ⟨fun b t => ?_, ?_, ?_, fun hc => ?_, fun b => ?_⟩
  · rw [updateTiming_bankStates, ← htimes.cmdTiming b]
    split_ifs
    · exact BankState.le_updateTimings
    · exact le_rfl
  · rintro b t time ⟨hb, d, hd, rfl⟩
    rw [updateTiming_bankStates, if_pos hb]
    exact BankState.addCycles_le_updateTimings hd
  · rw [updateTiming_fourAw, htimes.fourAw]
  · rw [updateTiming_thirtyTwoAw hc, htimes.thirtyTwoAw]
  · rw [row_updateTiming, row_updateState ch₁ hch₁ b]

end ChannelState

/-! ### The log and the state of the channel -/

namespace Controller

/-- Whatever the log, and whatever is issued after it. -/
def EachLegal (c : Config) (log : List (ℕ × Command)) : Prop :=
  ∀ pre x post, log = pre ++ x :: post → ∀ b ∈ c.targets x.2, Legal (openRow b pre) x.2

/-- The log keeps the rules of the devices, and the times, the windows and the rows in the state of
the channel are those of the log. -/
structure Kept (c : Config) (k : Controller) : Prop where
  clock : k.cmdQueue.clk = k.clk
  past : ∀ x ∈ k.issued, x.1 ≤ k.clk
  inMemory : ∀ x ∈ k.issued, ∀ b ∈ c.targets x.2, c.HasBank b
  covers : c.rules.Covers (fun b t => (k.channelState.bankStates b).cmdTiming t) k.issued
  apart : k.issued.Pairwise c.rules.Apart
  fourAw : ∀ rank,
    Lib.Window.Tracks 4 c.tFAW (k.channelState.fourAw rank) (activations rank k.issued)
  thirtyTwoAw : c.isGDDR → ∀ rank,
    Lib.Window.Tracks 32 c.t32AW (k.channelState.thirtyTwoAw rank) (activations rank k.issued)
  rows : ∀ b, (k.channelState.bankStates b).row = openRow b k.issued
  legal : EachLegal c k.issued

theorem kept_init : Kept c .init where
  clock := rfl
  past := by simp
  inMemory := by simp
  covers := Lib.Rules.covers_nil
  apart := .nil
  fourAw _ := .nil
  thirtyTwoAw _ _ := .nil
  rows _ := rfl
  legal pre x post h := by
    have hlen := congrArg List.length h
    simp at hlen

/-- The two controllers have the same clocks, the same banks and windows, and the same log. -/
structure SameBanks (k k' : Controller) : Prop where
  clk : k'.clk = k.clk
  queueClk : k'.cmdQueue.clk = k.cmdQueue.clk
  bankStates : k'.channelState.bankStates = k.channelState.bankStates
  fourAw : k'.channelState.fourAw = k.channelState.fourAw
  thirtyTwoAw : k'.channelState.thirtyTwoAw = k.channelState.thirtyTwoAw
  issued : k'.issued = k.issued

theorem SameBanks.refl (k : Controller) : SameBanks k k := ⟨rfl, rfl, rfl, rfl, rfl, rfl⟩

theorem SameBanks.trans {k'' : Controller} (h : SameBanks k k') (h' : SameBanks k' k'') :
    SameBanks k k'' :=
  ⟨h'.clk.trans h.clk, h'.queueClk.trans h.queueClk, h'.bankStates.trans h.bankStates,
    h'.fourAw.trans h.fourAw, h'.thirtyTwoAw.trans h.thirtyTwoAw, h'.issued.trans h.issued⟩

theorem Kept.same (hk : Kept c k) (h : SameBanks k k') : Kept c k' where
  clock := by rw [h.queueClk, h.clk, hk.clock]
  past := by
    rw [h.issued, h.clk]
    exact hk.past
  inMemory := by
    rw [h.issued]
    exact hk.inMemory
  covers := by
    rw [h.issued, h.bankStates]
    exact hk.covers
  apart := by
    rw [h.issued]
    exact hk.apart
  fourAw := by
    rw [h.issued, h.fourAw]
    exact hk.fourAw
  thirtyTwoAw := by
    rw [h.issued, h.thirtyTwoAw]
    exact hk.thirtyTwoAw
  rows := by
    rw [h.issued, h.bankStates]
    exact hk.rows
  legal := by
    rw [h.issued]
    exact hk.legal

theorem EachLegal.append {log : List (ℕ × Command)} {x : ℕ × Command} (h : EachLegal c log)
    (hx : ∀ b ∈ c.targets x.2, Legal (openRow b log) x.2) : EachLegal c (log ++ [x]) := by
  intro pre y post hsplit
  rcases Lib.append_singleton_eq hsplit with ⟨-, rfl, rfl⟩ | ⟨post, -, hlog⟩
  · exact hx
  · exact h pre y post hlog

/-- A window after a command: only an activation of the rank matters to it. -/
theorem tracks_slid {n w clk : ℕ} {times : ℤ → List ℕ} {log : List (ℕ × Command)} (hn : 0 < n)
    (h : ∀ rank, Lib.Window.Tracks n w (times rank) (activations rank log))
    (hpast : ∀ x ∈ log, x.1 ≤ clk)
    (hpass : cmd.cmdType = .activate → Lib.Window.mayPass n (times cmd.addr.rank) clk) (rank : ℤ) :
    Lib.Window.Tracks n w (ChannelState.slid w cmd clk times rank)
      (activations rank (log ++ [(clk, cmd)])) := by
  rw [activations_append, ChannelState.slid]
  by_cases hact : cmd.cmdType = .activate
  · rw [if_pos hact]
    by_cases hrank : cmd.addr.rank = rank
    · subst hrank
      rw [update_self, if_pos ⟨hact, rfl⟩]
      refine (h _).slide hn (fun e he => ?_) (hpass hact)
      obtain ⟨x, hx, rfl⟩ := List.mem_map.mp he
      exact hpast x (List.mem_filter.mp hx).1
    · rw [update_of_ne (Ne.symm hrank), if_neg fun h => hrank h.2, List.append_nil]
      exact h rank
  · rw [if_neg hact, if_neg fun h => hact h.1, List.append_nil]
    exact h rank

/-- **A command that is issued when it is ready keeps the rules.** -/
theorem Kept.issue (hk : Kept c k) {request : Command}
    (hready : k.channelState.Ready c request k.clk cmd)
    (hupdate : k.channelState.updateTimingAndStates c cmd k.clk = .ok k'.channelState)
    (hclk : k'.clk = k.clk) (hqueue : k'.cmdQueue.clk = k.cmdQueue.clk)
    (hissued : k'.issued = k.issued ++ [(k.clk, cmd)]) : Kept c k' := by
  obtain ⟨hle, himposed, hfour, hthirty, hrows⟩ :=
    ChannelState.ensures_updateTimingAndStates _ hupdate
  have hwindow (hact : cmd.cmdType = .activate) := hready.window hact
  constructor
  · rw [hqueue, hclk, hk.clock]
  · rw [hissued, hclk, List.forall_mem_append]
    exact ⟨hk.past, by simp⟩
  · rw [hissued, List.forall_mem_append]
    refine ⟨hk.inMemory, ?_⟩
    simp only [List.mem_singleton, forall_eq]
    exact fun b hb => (hready.required hb).1
  · rw [hissued]
    exact hk.covers.append hle himposed
  · rw [hissued]
    exact Lib.Rules.pairwise_append hk.covers hk.apart fun b hb => (hready.required hb).2.1
  · rw [hissued, hfour]
    refine tracks_slid (by decide) hk.fourAw hk.past fun hact => ?_
    have hok := hwindow hact
    rw [ChannelState.activationWindowOk] at hok
    split_ifs at hok
    · exact (Bool.and_eq_true_iff.mp hok).1
    · exact hok
  · intro hc
    rw [hissued, hthirty hc]
    refine tracks_slid (by decide) (hk.thirtyTwoAw hc) hk.past fun hact => ?_
    have hok := hwindow hact
    rw [ChannelState.activationWindowOk, if_pos hc] at hok
    exact (Bool.and_eq_true_iff.mp hok).2
  · intro b
    rw [hissued, openRow_append, hrows b, hk.rows b]
  · rw [hissued]
    refine hk.legal.append fun b hb => ?_
    rw [← hk.rows b]
    exact hready.legal hb

/-! ### The parts of a cycle -/

theorem insertRefresh_banks (r : Refresh) (ch : ChannelState) :
    (r.insertRefresh c ch).1.bankStates = ch.bankStates ∧
      (r.insertRefresh c ch).1.fourAw = ch.fourAw ∧
      (r.insertRefresh c ch).1.thirtyTwoAw = ch.thirtyTwoAw := by
  rw [Refresh.insertRefresh]
  split
  · split <;> exact ⟨rfl, rfl, rfl⟩
  · dsimp only
    split_ifs <;> exact ⟨rfl, rfl, rfl⟩
  · dsimp only
    split_ifs <;> exact ⟨rfl, rfl, rfl⟩

theorem sameBanks_tickRefresh : Ensures (k.tickRefresh c) (SameBanks k) := by
  intro k' h
  obtain ⟨⟨ch, r⟩, hr, h⟩ := Lib.bind_eq_ok.mp h
  cases h
  rw [Refresh.clockTick] at hr
  split_ifs at hr
  · obtain ⟨rfl, -⟩ := Prod.mk.inj (Except.ok.inj hr)
    obtain ⟨hbanks, hfour, hthirty⟩ := insertRefresh_banks (c := c) k.refresh k.channelState
    exact ⟨rfl, rfl, hbanks, hfour, hthirty, rfl⟩
  · obtain ⟨rfl, -⟩ := Prod.mk.inj (Except.ok.inj hr)
    exact ⟨rfl, rfl, rfl, rfl, rfl, rfl⟩

theorem ensures_serve : Ensures (k.serve c cmd) fun k' =>
    SameBanks k k' ∧ k'.channelState = k.channelState := by
  rw [serve]
  split_ifs
  · rw [List.partition_eq_filter_filter]
    dsimp only
    split_ifs
    · exact .error _
    · exact .ok ⟨⟨rfl, rfl, rfl, rfl, rfl, rfl⟩, rfl⟩
  · exact .ok ⟨⟨rfl, rfl, rfl, rfl, rfl, rfl⟩, rfl⟩
  · exact .error _
  · exact .ok ⟨.refl k, rfl⟩

theorem Kept.ensures_issueCommand (hk : Kept c k) {request : Command}
    (hready : k.channelState.Ready c request k.clk cmd) :
    Ensures (k.issueCommand c cmd) (Kept c) := by
  refine ensures_serve.bind fun k₁ hk₁ k' h => ?_
  obtain ⟨hsame, hch⟩ := hk₁
  obtain ⟨ch, hupdate, h⟩ := Lib.bind_eq_ok.mp h
  cases h
  rw [hch, hsame.clk] at hupdate
  refine hk.issue hready hupdate hsame.clk hsame.queueClk ?_
  rw [issued_record_issue, hsame.clk]
  exact congrArg (· ++ _) hsame.issued

theorem Kept.nextCommand (hk : Kept c k) {cmd : Option Command}
    (h : k.nextCommand c = .ok (cmd, k')) :
    SameBanks k k' ∧ ∀ x ∈ cmd, ∃ request, k'.channelState.Ready c request k'.clk x := by
  obtain ⟨⟨q, hq, rfl⟩, hready⟩ := nextCommand_ready h
  rw [hk.clock] at hready
  exact ⟨⟨rfl, hq, rfl, rfl, rfl, rfl⟩, hready⟩

theorem Kept.ensures_secondCommand (hk : Kept c k) :
    Ensures (k.secondCommand c cmd) (Kept c) := by
  intro k' h
  obtain ⟨⟨second, k₁⟩, hsecond, h⟩ := Lib.bind_eq_ok.mp h
  obtain ⟨q, hq, rfl⟩ := getCommandToIssue_cases hsecond
  have hk₁ : Kept c { k with cmdQueue := q } :=
    hk.same ⟨rfl, hq.frame.1, rfl, rfl, rfl, rfl⟩
  cases second with
  | none =>
    cases h
    exact hk₁
  | some second =>
    dsimp only at h
    split_ifs at h
    · obtain ⟨request, hready⟩ := hq.ready
      rw [hk.clock] at hready
      exact hk₁.ensures_issueCommand hready k' h
    · cases h
      exact hk₁

theorem sameBanks_countIdle (l : List ℕ) : SameBanks k (l.foldl (countIdle c) k) := by
  induction l generalizing k with
  | nil => exact .refl k
  | cons i l ih =>
    refine SameBanks.trans ?_ (ih (k := countIdle c k i))
    rw [countIdle]
    split_ifs <;> exact ⟨rfl, rfl, rfl, rfl, rfl, rfl⟩

theorem Kept.ensures_selfRefresh (hk : Kept c k) (l : List ℕ) :
    Ensures (k.selfRefresh c l) (Kept c) := by
  induction l with
  | nil => exact .ok hk
  | cons i l ih =>
    -- a command that is ready is issued, and otherwise the loop goes on
    have hanswer (cmd : Command) {next : Option Command → Result Controller}
        (hsome : ∀ x, next (some x) = k.issueCommand c x) (hnone : next none = selfRefresh c k l) :
        Ensures (k.channelState.getReadyCommand c cmd k.clk >>= next) (Kept c) := by
      refine Ensures.bind (P := fun answer => ∀ x ∈ answer,
        k.channelState.Ready c cmd k.clk x) ?_ ?_
      · rintro answer hready x hx
        cases hx
        exact ChannelState.getReadyCommand_cases hready
      · intro answer hready
        cases answer with
        | none => exact hnone ▸ ih
        | some x => exact hsome x ▸ hk.ensures_issueCommand (hready x rfl)
    rw [selfRefresh]
    split_ifs
    · exact hanswer _ (fun _ => rfl) rfl
    · exact ih
    · exact hanswer _ (fun _ => rfl) rfl
    · exact ih

theorem Kept.ensures_issueCommands (hk : Kept c k) : Ensures (k.issueCommands c) (Kept c) := by
  intro k' h
  obtain ⟨⟨cmd, k₁⟩, hnext, h⟩ := Lib.bind_eq_ok.mp h
  obtain ⟨hsame, hready⟩ := hk.nextCommand hnext
  have hk₁ := hk.same hsame
  cases cmd with
  | none =>
    dsimp only at h
    have hidle := hk₁.same (sameBanks_countIdle (c := c) (List.range c.ranks))
    split_ifs at h
    · exact hidle.ensures_selfRefresh _ k' h
    · cases h
      exact hidle
  | some cmd =>
    obtain ⟨request, hready⟩ := hready cmd rfl
    obtain ⟨k₂, hk₂, h⟩ := Lib.bind_eq_ok.mp h
    have hissued := hk₁.ensures_issueCommand hready k₂ hk₂
    dsimp only at h
    split_ifs at h
    · obtain ⟨k₃, hk₃, h⟩ := Lib.bind_eq_ok.mp h
      cases h
      exact (hissued.ensures_secondCommand k₃ hk₃).same (sameBanks_countIdle _)
    · cases h
      exact hissued.same (sameBanks_countIdle _)

theorem sameBanks_setScheduled (queue : List Transaction) :
    SameBanks k (k.setScheduled c queue) := by
  rw [setScheduled]
  split_ifs <;> exact ⟨rfl, rfl, rfl, rfl, rfl, rfl⟩

theorem addCommand_clk {q q' : CommandQueue} (h : q.addCommand c cmd = .ok q') :
    q'.clk = q.clk := by
  obtain ⟨queue, -, h⟩ := Lib.bind_eq_ok.mp h
  split_ifs at h <;> cases h <;> rfl

theorem sameBanks_scheduleLoop {before l : List Transaction} :
    Ensures (k.scheduleLoop c before l) (SameBanks k) := by
  induction l generalizing before with
  | nil => exact .ok (.refl k)
  | cons t l ih =>
    intro k' h
    rw [scheduleLoop] at h
    obtain ⟨accepts, -, h⟩ := Lib.bind_eq_ok.mp h
    have hsame := sameBanks_setScheduled (c := c) (k := k) (before ++ l)
    split_ifs at h
    · cases h
      exact ⟨rfl, rfl, rfl, rfl, rfl, rfl⟩
    · obtain ⟨q, hq, h⟩ := Lib.bind_eq_ok.mp h
      cases h
      exact ⟨hsame.clk, addCommand_clk hq, hsame.bankStates, hsame.fourAw, hsame.thirtyTwoAw,
        hsame.issued⟩
    · obtain ⟨q, hq, h⟩ := Lib.bind_eq_ok.mp h
      cases h
      exact ⟨hsame.clk, addCommand_clk hq, hsame.bankStates, hsame.fourAw, hsame.thirtyTwoAw,
        hsame.issued⟩
    · exact ih k' h

theorem sameBanks_scheduleTransaction : Ensures (k.scheduleTransaction c) (SameBanks k) := by
  rw [scheduleTransaction]
  refine sameBanks_scheduleLoop.mono fun k' h => SameBanks.trans ?_ h
  obtain ⟨d, hd⟩ := startDraining_eq c k
  rw [hd]
  exact ⟨rfl, rfl, rfl, rfl, rfl, rfl⟩

/-- **A cycle keeps the rules.** -/
theorem Kept.ensures_clockTick (hk : Kept c k) : Ensures (k.clockTick c) (Kept c) := by
  refine sameBanks_tickRefresh.bind fun k₁ hk₁ => ?_
  refine (hk.same hk₁).ensures_issueCommands.bind fun k₂ hk₂ => ?_
  refine sameBanks_scheduleTransaction.bind fun k₃ hk₃ => .ok ?_
  obtain ⟨hclock, hpast, hmem, hcovers, hapart, hfour, hthirty, hrows, hlegal⟩ := hk₂.same hk₃
  refine ⟨?_, fun x hx => ?_, hmem, hcovers, hapart, hfour, hthirty, hrows, hlegal⟩
  · exact congrArg (· + 1) hclock
  · exact Nat.le_succ_of_le (hpast x hx)

theorem sameBanks_addTransaction (addr : ℕ) (isWrite : Bool) :
    SameBanks k (k.addTransaction c addr isWrite) := by
  have hrecord (k : Controller) (hit : Bool) : SameBanks k (k.record (.accept addr isWrite hit)) :=
    ⟨rfl, rfl, rfl, rfl, rfl, k.issued_record_accept addr isWrite hit⟩
  have hpending (t : Transaction) : SameBanks k (k.addPending t) := by
    rw [addPending]
    split_ifs <;> exact ⟨rfl, rfl, rfl, rfl, rfl, rfl⟩
  have henqueue (t : Transaction) : SameBanks k ((k.addPending t).enqueue c t) := by
    refine (hpending t).trans ?_
    rw [enqueue]
    split_ifs <;> exact ⟨rfl, rfl, rfl, rfl, rfl, rfl⟩
  by_cases h : addr ∈ k.pendingAddrs true
  · rw [addTransaction_of_mem h]
    refine SameBanks.trans ?_ (hrecord _ _)
    exact ⟨rfl, rfl, rfl, rfl, rfl, rfl⟩
  · cases isWrite with
    | true =>
      rw [addTransaction_write h]
      refine SameBanks.trans ((henqueue ⟨addr, k.clk, 0, true⟩).trans ?_) (hrecord _ _)
      exact ⟨rfl, rfl, rfl, rfl, rfl, rfl⟩
    | false =>
      rw [addTransaction_read h]
      refine SameBanks.trans ?_ (hrecord _ _)
      split_ifs
      · exact hpending _
      · exact henqueue _

theorem sameBanks_returnAll (k : Controller) (clk : ℕ) : SameBanks k (k.returnAll clk).2 := by
  rw [returnAll_eq]
  exact ⟨rfl, rfl, rfl, rfl, rfl, rfl⟩

end Controller

/-! ### Runs -/

namespace JedecDRAMSystem

variable {s : JedecDRAMSystem}

theorem kept_addTransaction (hs : ∀ i, (s.ctrls i).Kept c) (hexAddr : ℕ) (isWrite : Bool) (i : ℕ) :
    ((s.addTransaction c hexAddr isWrite).ctrls i).Kept c := by
  by_cases hi : i = c.getChannel hexAddr
  · subst hi
    rw [addTransaction_ctrls_self]
    exact (hs _).same (Controller.sameBanks_addTransaction hexAddr isWrite)
  · rw [addTransaction_ctrls_of_ne isWrite hi]
    exact hs i

theorem kept_clockTick (hs : ∀ i, (s.ctrls i).Kept c) :
    Ensures (s.clockTick c) fun s' => ∀ i, (s'.ctrls i).Kept c := by
  refine Ensures.bind (P := fun ctrls => ∀ i, (ctrls i).Kept c) ?_ fun ctrls hctrls =>
    Ensures.bind (P := fun _ => True) (fun _ _ => trivial) fun _ _ => .ok hctrls
  refine .foldlM (fun i => ?_) fun ctrls i _ hctrls => ?_
  · rw [returnDone]
    split_ifs
    · exact (hs i).same (Controller.sameBanks_returnAll _ _)
    · exact hs i
  · refine (hctrls i).ensures_clockTick.bind fun k hk => .ok fun j => ?_
    by_cases hj : j = i
    · subst hj
      rwa [update_self]
    · rw [update_of_ne hj]
      exact hctrls j

/-- **The rules of the devices are kept in every run**, in every configuration. -/
theorem kept_of_reaches (h : (dram c).Reaches Lib.System.anyStep s) (i : ℕ) :
    (s.ctrls i).Kept c := by
  refine h.invariant (I := fun s => ∀ i, (s.ctrls i).Kept c) (fun _ => Controller.kept_init) ?_ i
  intro s a t hs _ hstep
  cases a with
  | addTransaction hexAddr isWrite =>
    change (if _ then some _ else none) = some t at hstep
    split_ifs at hstep
    cases hstep
    exact kept_addTransaction hs hexAddr isWrite
  | clockTick =>
    change (s.clockTick c).toOption = some t at hstep
    cases hs' : s.clockTick c with
    | error e =>
      rw [hs'] at hstep
      cases hstep
    | ok s' =>
      rw [hs'] at hstep
      cases hstep
      exact kept_clockTick hs _ hs'

end JedecDRAMSystem

variable {s : JedecDRAMSystem}

/-- **Commands keep their distance.** If a command `x` was issued before a command `y` in the same
channel, and the tables demand `d` cycles from `x` to commands of the type of `y` at a bank at which
`y` happens, then `y` was issued `d` cycles after `x` or later, as long as the sum fits in 64
bits. -/
theorem issued_distances (h : (dram c).Reaches Lib.System.anyStep s) (i : ℕ) :
    (s.ctrls i).issued.Pairwise fun x y => ∀ b ∈ c.targets y.2, ∀ d,
      (y.2.cmdType, d) ∈ c.timing.after x.2 b → x.1 + d < 2 ^ 64 → x.1 + d ≤ y.1 := by
  have hk := JedecDRAMSystem.kept_of_reaches h i
  refine hk.apart.imp_of_mem fun {x y} _ hy hxy b hb d hd hfits => ?_
  have hle := hxy b (addCycles x.1 d) hb ⟨hk.inMemory y hy b hb, d, hd, rfl⟩
  by_cases h₀ : 0 ≤ x.1 + d
  · rw [← addCycles_eq h₀ hfits]
    exact_mod_cast hle
  · omega

theorem issued_distances_fiveReads : ∃ s, (dram ddr4).Reaches Lib.System.anyStep s ∧
    (s.ctrls 0).issued.map (·.1) = [1, 10, 19, 23, 28, 32, 41, 49, 50] ∧
    (s.ctrls 0).issued.Pairwise fun x y => ∀ b ∈ ddr4.targets y.2, ∀ d,
      (y.2.cmdType, d) ∈ ddr4.timing.after x.2 b → x.1 + d < 2 ^ 64 → x.1 + d ≤ y.1 := by
  obtain ⟨s, hs, hissued⟩ := Lib.System.exists_reaches (dram ddr4) Lib.System.anyStep
    (fun s => (s.ctrls 0).issued.map (·.1) = [1, 10, 19, 23, 28, 32, 41, 49, 50]) fiveReads
    (by decide +kernel)
  exact ⟨s, hs, hissued, issued_distances hs 0⟩

/-- **Activations keep to their windows.** In every rank, four activations after another one `tFAW`
cycles have passed, and with graphics memory `t32AW` cycles after 32. The end of a window is a sum
of natural numbers, as the `uint64_t` of the source is until the clock comes within a window of
`2 ^ 64`; unlike a distance it is never negative, and no bound is needed. -/
theorem issued_windows (h : (dram c).Reaches Lib.System.anyStep s) (i : ℕ) (rank : ℤ) :
    (∀ n (hn : n + 4 < (activations rank (s.ctrls i).issued).length),
      (activations rank (s.ctrls i).issued)[n] + c.tFAW ≤
        (activations rank (s.ctrls i).issued)[n + 4]) ∧
    (c.isGDDR → ∀ n (hn : n + 32 < (activations rank (s.ctrls i).issued).length),
      (activations rank (s.ctrls i).issued)[n] + c.t32AW ≤
        (activations rank (s.ctrls i).issued)[n + 32]) := by
  have hk := JedecDRAMSystem.kept_of_reaches h i
  exact ⟨(hk.fourAw rank).spaced, fun hc => (hk.thirtyTwoAw hc rank).spaced⟩

-- the fifth activation waits until the first has left the window
theorem issued_windows_fiveReads : ∃ s, (dram ddr4).Reaches Lib.System.anyStep s ∧
    activations 0 (s.ctrls 0).issued = [1, 10, 19, 28, 49] ∧
    ∀ n (hn : n + 4 < (activations 0 (s.ctrls 0).issued).length),
      (activations 0 (s.ctrls 0).issued)[n] + 48 ≤ (activations 0 (s.ctrls 0).issued)[n + 4] := by
  obtain ⟨s, hs, hact⟩ := Lib.System.exists_reaches (dram ddr4) Lib.System.anyStep
    (fun s => activations 0 (s.ctrls 0).issued = [1, 10, 19, 28, 49]) fiveReads (by decide +kernel)
  exact ⟨s, hs, hact, (issued_windows hs 0 0).1⟩

/-- **Every bank sees a legal sequence of commands**: whatever was issued before a command, the
command is legal for the row that is then open in each of its banks. -/
theorem issued_legal (h : (dram c).Reaches Lib.System.anyStep s) (i : ℕ)
    {pre post : List (ℕ × Command)} {clk : ℕ}
    (hsplit : (s.ctrls i).issued = pre ++ (clk, cmd) :: post) {b : Bank}
    (hb : b ∈ c.targets cmd) : Legal (openRow b pre) cmd :=
  (JedecDRAMSystem.kept_of_reaches h i).legal pre (clk, cmd) post hsplit b hb

theorem issued_legal_oneRead :
    Legal (openRow ⟨0, 0, 0⟩ [(1, ⟨.activate, ddr4.addressMapping 4096, 4096⟩)])
      (ddr4.column 4096 false) := by
  obtain ⟨s, hs, hissued⟩ := Lib.System.exists_reaches (dram ddr4) Lib.System.anyStep
    (fun s => (s.ctrls 0).issued =
      [(1, ⟨.activate, ddr4.addressMapping 4096, 4096⟩), (23, ddr4.column 4096 false)])
    (.addTransaction 4096 false :: List.replicate 24 .clockTick) (by decide +kernel)
  rw [← List.singleton_append] at hissued
  exact issued_legal hs 0 hissued (by decide +kernel)

end Beethoven.Dram
