import Beethoven.Dram.Issued

/-!
# The schedule of the refreshes

`Refresh` asks for refreshes at the end of every interval, and the refreshes that were asked for
wait in the channel until the banks are ready for them. Which refreshes are due is for the policy to
say: with `RANK_LEVEL_SIMULTANEOUS` one of every rank, with staggered refreshes one of the rank, or
of the bank, whose turn it is.

With staggered refreshes, those that a controller has issued, followed by those that wait, are
exactly those that were due up to now: each is issued once and in its turn, none is left out, and
none is issued that is not due. With `RANK_LEVEL_SIMULTANEOUS` the loop over the ranks ends at the
first one, so that rank 0 is refreshed in its turn and the other ranks are never refreshed.
-/

namespace Beethoven.Dram

/-- The command that refreshes a rank. -/
def refreshRank (rank : ℕ) : Command := ⟨.refresh, ⟨-1, rank, -1, -1, -1, -1⟩, noHexAddr⟩

/-- The command that refreshes a bank. -/
def refreshBank (rank bankgroup bank : ℕ) : Command :=
  ⟨.refreshBank, ⟨-1, rank, bankgroup, bank, -1, -1⟩, noHexAddr⟩

namespace Config

/-- The refreshes that the policy makes due at the end of the interval `n`, from 0 on. -/
def refreshesDue (c : Config) (n : ℕ) : List Command :=
  match c.refreshPolicy with
  | .rankLevelSimultaneous => (List.range c.ranks).map refreshRank
  | .rankLevelStaggered => [refreshRank (n % c.ranks)]
  | .bankLevelStaggered =>
    [refreshBank (n / c.bankgroups / c.banksPerGroup % c.ranks) (n % c.bankgroups)
      (n / c.bankgroups % c.banksPerGroup)]

/-- The refresh that is asked for at the end of the interval `n`: the loop over the ranks ends at
its first refresh. -/
def refreshAt (c : Config) (n : ℕ) : Command :=
  match c.refreshPolicy with
  | .rankLevelSimultaneous => refreshRank 0
  | .rankLevelStaggered => refreshRank (n % c.ranks)
  | .bankLevelStaggered =>
    refreshBank (n / c.bankgroups / c.banksPerGroup % c.ranks) (n % c.bankgroups)
      (n / c.bankgroups % c.banksPerGroup)

theorem refreshesDue_eq {c : Config} (hpolicy : c.refreshPolicy ≠ .rankLevelSimultaneous) (n : ℕ) :
    c.refreshesDue n = [c.refreshAt n] := by
  rw [refreshesDue, refreshAt]
  cases h : c.refreshPolicy with
  | rankLevelSimultaneous => exact absurd h hpolicy
  | rankLevelStaggered => rfl
  | bankLevelStaggered => rfl

theorem refreshAt_eq {c : Config} (hpolicy : c.refreshPolicy = .rankLevelSimultaneous) (n : ℕ) :
    c.refreshAt n = refreshRank 0 := by
  rw [refreshAt, hpolicy]

end Config

/-! ### The counters -/

namespace Refresh

variable {c : Config} {r : Refresh} {ch : ChannelState} {n : ℕ}

/-- The counters after `n` refreshes. -/
def CountsTo (c : Config) (r : Refresh) (n : ℕ) : Prop :=
  match c.refreshPolicy with
  | .rankLevelSimultaneous => True
  | .rankLevelStaggered => r.nextRank = n % c.ranks
  | .bankLevelStaggered => r.nextBg = n % c.bankgroups ∧
      r.nextBank = n / c.bankgroups % c.banksPerGroup ∧
      r.nextRank = n / c.bankgroups / c.banksPerGroup % c.ranks

theorem countsTo_init : init.CountsTo c 0 := by
  rw [CountsTo]
  split <;> simp [init]

/-- A digit that wraps around carries, and any other does not. -/
theorem succ_div_of_mod {m : ℕ} : (n + 1) / m = if (n + 1) % m = 0 then n / m + 1 else n / m := by
  rw [Nat.succ_div]
  by_cases h : m ∣ n + 1
  · rw [if_pos h, if_pos (Nat.dvd_iff_mod_eq_zero.mp h)]
  · rw [if_neg h, if_neg fun h' => h (Nat.dvd_iff_mod_eq_zero.mpr h'), Nat.add_zero]

theorem CountsTo.iterateNext (h : r.CountsTo c n) : (r.iterateNext c).CountsTo c (n + 1) := by
  rw [CountsTo] at h
  rw [CountsTo, Refresh.iterateNext]
  cases hpolicy : c.refreshPolicy with
  | rankLevelSimultaneous => trivial
  | rankLevelStaggered =>
    simp only [hpolicy] at h ⊢
    rw [h, Nat.mod_add_mod]
  | bankLevelStaggered =>
    simp only [hpolicy] at h ⊢
    obtain ⟨hbg, hbank, hrank⟩ := h
    have hbg' : (r.nextBg + 1) % c.bankgroups = (n + 1) % c.bankgroups := by
      rw [hbg, Nat.mod_add_mod]
    have hbank' : (r.nextBank + 1) % c.banksPerGroup =
        (n / c.bankgroups + 1) % c.banksPerGroup := by
      rw [hbank, Nat.mod_add_mod]
    rw [hbg', hbank', succ_div_of_mod (m := c.bankgroups)]
    split_ifs with hwrap hcarry
    · refine ⟨rfl, rfl, ?_⟩
      rw [succ_div_of_mod, if_pos hcarry, hrank, Nat.mod_add_mod]
    · refine ⟨rfl, rfl, ?_⟩
      rw [succ_div_of_mod, if_neg hcarry, hrank]
    · exact ⟨rfl, hbank, hrank⟩

theorem CountsTo.insertRefresh (h : r.CountsTo c n) (hsref : ch.rankIsSref = fun _ => false) :
    (r.insertRefresh c ch).1.refreshQ = ch.refreshQ ++ [c.refreshAt n] ∧
      (r.insertRefresh c ch).2.CountsTo c (n + 1) ∧ (r.insertRefresh c ch).2.clk = r.clk := by
  have hnext := h.iterateNext
  rw [CountsTo] at h
  rw [Refresh.insertRefresh, Config.refreshAt]
  cases hpolicy : c.refreshPolicy with
  | rankLevelSimultaneous =>
    -- the first rank is not in self-refresh, and the loop ends there
    have hfind : ((List.range c.ranks).find? fun i : ℕ => !ch.rankIsSref i) = some 0 := by
      obtain ⟨m, hm⟩ := Nat.exists_eq_succ_of_ne_zero c.ranks_pos.ne'
      rw [hm, List.range_succ_eq_map]
      simp [hsref]
    simp only [hfind, and_true]
    refine ⟨rfl, ?_⟩
    rw [CountsTo, hpolicy]
    trivial
  | rankLevelStaggered =>
    simp only [hpolicy, hsref, Bool.false_eq_true, if_false] at h ⊢
    refine ⟨?_, hnext, ?_⟩
    · rw [h]
      rfl
    · rw [Refresh.iterateNext, hpolicy]
  | bankLevelStaggered =>
    simp only [hpolicy, hsref, Bool.false_eq_true, if_false] at h ⊢
    obtain ⟨hbg, hbank, hrank⟩ := h
    refine ⟨?_, hnext, ?_⟩
    · rw [hbg, hbank, hrank]
      rfl
    · rw [Refresh.iterateNext, hpolicy]
      dsimp only
      split_ifs <;> rfl

theorem div_eq_of_pred {m : ℕ} :
    n / m = (n - 1) / m + if n % m = 0 ∧ 0 < n then 1 else 0 := by
  cases n with
  | zero => simp
  | succ n =>
    rw [succ_div_of_mod, Nat.add_sub_cancel]
    by_cases h : (n + 1) % m = 0
    · rw [if_pos h, if_pos ⟨h, Nat.succ_pos n⟩]
    · rw [if_neg h, if_neg fun h' => h h'.1, Nat.add_zero]

theorem CountsTo.clockTick {ch' : ChannelState} {r' : Refresh}
    (h : r.CountsTo c ((r.clk - 1) / c.refreshInterval)) (hsref : ch.rankIsSref = fun _ => false)
    (hr : r.clockTick c ch = .ok (ch', r')) :
    r'.CountsTo c (r.clk / c.refreshInterval) ∧ r'.clk = r.clk + 1 ∧
      ch'.refreshQ = ch.refreshQ ++ if r.clk % c.refreshInterval = 0 ∧ 0 < r.clk then
        [c.refreshAt ((r.clk - 1) / c.refreshInterval)] else [] := by
  obtain ⟨hqueue, hcounts, hclk⟩ := h.insertRefresh hsref
  rw [Refresh.clockTick] at hr
  generalize r.insertRefresh c ch = x at hqueue hcounts hclk hr
  obtain ⟨ch₁, r₁⟩ := x
  rw [div_eq_of_pred]
  split_ifs at hr ⊢ with hzero hend
  · cases hr
    exact ⟨hcounts, congrArg (· + 1) hclk, hqueue⟩
  · cases hr
    exact ⟨h, rfl, (List.append_nil _).symm⟩

end Refresh

/-! ### The refreshes of a controller -/

namespace Controller

variable {c : Config} {k k' k'' : Controller} {cmd : Command}

/-- The refreshes that were issued, in their order. -/
def refreshes (k : Controller) : List Command :=
  (k.issued.map (·.2)).filter (·.cmdType.isRefresh)

/-- The number of intervals that have ended. -/
def intervals (c : Config) (k : Controller) : ℕ := (k.refresh.clk - 1) / c.refreshInterval

/-- The refreshes are those that were asked for. -/
structure OnSchedule (c : Config) (k : Controller) : Prop where
  counts : k.refresh.CountsTo c (k.intervals c)
  refreshes : k.refreshes ++ k.channelState.refreshQ =
    (List.range (k.intervals c)).map c.refreshAt

theorem onSchedule_init : OnSchedule c .init := by
  have hzero : intervals c .init = 0 := Nat.zero_div _
  refine ⟨?_, ?_⟩
  · rw [hzero]
    exact Refresh.countsTo_init
  · rw [hzero]
    rfl

theorem refreshes_append (h : k'.history = k.history ++ [.issue k.clk cmd]) :
    k'.refreshes = k.refreshes ++ if cmd.cmdType.isRefresh then [cmd] else [] := by
  have hissued : k'.issued = k.issued ++ [(k.clk, cmd)] := by
    rw [issued, h, List.filterMap_append]
    rfl
  rw [Controller.refreshes, hissued, List.map_append, List.filter_append, Controller.refreshes]
  congr 1
  by_cases hcmd : cmd.cmdType.isRefresh
  · simp [hcmd]
  · simp [hcmd]

/-- A refresh that is issued is the one that waits longest, and no longer waits. -/
theorem served_of_head {q : List Command} (hcmd : cmd.cmdType.isRefresh)
    (hhead : q.head? = some cmd) : cmd :: ChannelState.served cmd q = q := by
  obtain ⟨rest, rfl⟩ := List.head?_eq_some_iff.mp hhead
  rw [ChannelState.served]
  split
  · rw [List.eraseP_cons_of_pos (by simp)]
  · rw [List.eraseP_cons_of_pos (by simp)]
  · next hne₁ hne₂ =>
    simp only [CommandType.isRefresh, Bool.or_eq_true, decide_eq_true_eq] at hcmd
    exact absurd hcmd (by tauto)

theorem served_of_not_isRefresh {q : List Command} (hcmd : ¬ cmd.cmdType.isRefresh) :
    ChannelState.served cmd q = q := by
  rw [ChannelState.served]
  split
  · next h => simp [CommandType.isRefresh, h] at hcmd
  · next h => simp [CommandType.isRefresh, h] at hcmd
  · rfl

theorem OnSchedule.issue (h : OnSchedule c k) (hpicked : Picked c k (some cmd) k')
    (hserved : Served c k' k'' cmd) : OnSchedule c k'' := by
  have hframe : k'.refresh = k.refresh ∧ k'.channelState = k.channelState ∧
      k'.history = k.history ∧ k'.clk = k.clk := by
    cases hpicked <;> exact ⟨rfl, rfl, rfl, rfl⟩
  obtain ⟨hrefresh, hchannel, hhistory, hclk⟩ := hframe
  have hintervals : k''.intervals c = k.intervals c := by
    rw [intervals, hserved.refresh, hrefresh, intervals]
  have hhead : cmd.cmdType.isRefresh → k.channelState.refreshQ.head? = some cmd := by
    cases hpicked with
    | row hq hclk hcmd hexec hwaits => exact hwaits
    | @column q a w pre post hqueue hq hclk hexec hdep =>
      intro hcmd
      exact absurd (c.isReadWrite_column a w) (CommandType.not_isReadWrite hcmd)
  have hissued : k''.refreshes = k.refreshes ++ if cmd.cmdType.isRefresh then [cmd] else [] := by
    refine refreshes_append ?_
    rw [hserved.history, hhistory, hclk]
  refine ⟨?_, ?_⟩
  · rw [hserved.refresh, hrefresh, hintervals]
    exact h.counts
  · rw [hintervals, ← h.refreshes, hissued, hserved.refreshQ, hchannel]
    by_cases hcmd : cmd.cmdType.isRefresh
    · rw [if_pos hcmd, List.append_assoc, List.singleton_append,
        served_of_head hcmd (hhead hcmd)]
    · rw [if_neg hcmd, List.append_nil, served_of_not_isRefresh hcmd]

theorem OnSchedule.tickRefresh (h : OnSchedule c k) (hk : Good c k)
    (hrefresh : k.tickRefresh c = .ok k') : OnSchedule c k' := by
  obtain ⟨⟨ch, r⟩, hr, hk'⟩ := Lib.bind_eq_ok.mp hrefresh
  cases hk'
  obtain ⟨hcounts, hclk, hqueue⟩ := h.counts.clockTick hk.noSref hr
  have hintervals : intervals c { k with channelState := ch, refresh := r } =
      k.refresh.clk / c.refreshInterval := by
    rw [intervals, hclk, Nat.add_sub_cancel]
  refine ⟨?_, ?_⟩
  · rw [hintervals]
    exact hcounts
  · have hrange : (List.range (k.refresh.clk / c.refreshInterval)).map c.refreshAt =
        k.refreshes ++ k.channelState.refreshQ ++
          if k.refresh.clk % c.refreshInterval = 0 ∧ 0 < k.refresh.clk then
            [c.refreshAt (k.intervals c)] else [] := by
      rw [Refresh.div_eq_of_pred, h.refreshes]
      split_ifs
      · rw [List.range_succ, List.map_append]
        rfl
      · rw [List.append_nil]
        rfl
    rw [hintervals, hrange, hqueue, List.append_assoc]
    rfl

theorem OnSchedule.of_eq (h : OnSchedule c k) (hrefresh : k'.refresh = k.refresh)
    (hqueue : k'.channelState.refreshQ = k.channelState.refreshQ)
    (hissued : k'.issued = k.issued) : OnSchedule c k' := by
  have hintervals : k'.intervals c = k.intervals c := by rw [intervals, hrefresh, intervals]
  refine ⟨?_, ?_⟩
  · rw [hrefresh, hintervals]
    exact h.counts
  · rw [hintervals, hqueue, Controller.refreshes, hissued]
    exact h.refreshes

theorem addTransaction_channelState (a : ℕ) (w : Bool) :
    (k.addTransaction c a w).channelState = k.channelState ∧
      (k.addTransaction c a w).refresh = k.refresh := by
  have henqueue (t : Transaction) : ((k.addPending t).enqueue c t).channelState = k.channelState ∧
      ((k.addPending t).enqueue c t).refresh = k.refresh := by
    obtain ⟨hchannel, -, hrefresh, -⟩ := enqueue_frame (c := c) (k.addPending t) t
    rw [hchannel, hrefresh, addPending]
    split_ifs <;> exact ⟨rfl, rfl⟩
  by_cases h : a ∈ k.pendingAddrs true
  · rw [addTransaction_of_mem h]
    exact ⟨rfl, rfl⟩
  · cases w with
    | true =>
      rw [addTransaction_write h]
      exact henqueue ⟨a, k.clk, 0, true⟩
    | false =>
      rw [addTransaction_read h]
      split_ifs
      · exact ⟨rfl, rfl⟩
      · exact henqueue ⟨a, k.clk, 0, false⟩

theorem scheduled_frame (h : Scheduled c k k') : k'.channelState = k.channelState ∧
    k'.refresh = k.refresh ∧ k'.history = k.history := by
  cases h with
  | full hfull => exact ⟨rfl, rfl, rfl⟩
  | blocked hsched hfull hroom hc hwrite hread => exact ⟨rfl, rfl, rfl⟩
  | @move before after t q d hsched hfull hroom hq hclk hdep =>
    obtain ⟨hchannel, -, hrefresh, -, -, -, -, hhistory⟩ :=
      setScheduled_frame (c := c) k (before ++ after)
    exact ⟨hchannel, hrefresh, hhistory⟩

/-- **All operations keep to the schedule.** -/
theorem onSchedule_invariant : Invariant c (OnSchedule c) where
  same hsame h := h.of_eq hsame.refresh hsame.refreshQ (by rw [issued, hsame.history, issued])
  accept {k} a w _ h _ := by
    obtain ⟨hchannel, hrefresh⟩ := addTransaction_channelState (c := c) (k := k) a w
    exact h.of_eq hrefresh (by rw [hchannel]) (sameBanks_addTransaction a w).issued
  refresh hk h hrefresh := h.tickRefresh hk hrefresh
  issue _ h hpicked hserved := h.issue hpicked hserved
  schedule {k k'} _ h hsched := by
    obtain ⟨d, hd⟩ := startDraining_eq c k
    rw [hd] at hsched
    obtain ⟨hchannel, hrefresh, hhistory⟩ := scheduled_frame hsched
    exact h.of_eq hrefresh (by rw [hchannel]) (by rw [issued, hhistory, issued])

end Controller

/-- **The refreshes are those of the schedule.** In every run with staggered refreshes, the
refreshes that a channel has issued, followed by those that wait, are those that were due in the
intervals that have ended, in their order. With simultaneous refreshes they are one of rank 0 for
each of these intervals, and no other rank is ever refreshed. -/
theorem refresh_schedule {c : Config} (hc : c.Plain) {s : JedecDRAMSystem}
    (h : (dram c).Reaches Lib.System.anyStep s) (i : ℕ) :
    (c.refreshPolicy ≠ .rankLevelSimultaneous →
      (s.ctrls i).refreshes ++ (s.ctrls i).channelState.refreshQ =
        (List.range ((s.ctrls i).intervals c)).flatMap c.refreshesDue) ∧
    (c.refreshPolicy = .rankLevelSimultaneous →
      (s.ctrls i).refreshes ++ (s.ctrls i).channelState.refreshQ =
        List.replicate ((s.ctrls i).intervals c) (refreshRank 0)) := by
  have hasked := ((JedecDRAMSystem.sound_of_reaches hc (fun _ => Controller.onSchedule_invariant)
    (fun _ => Controller.onSchedule_init) h).good i).2.refreshes
  refine ⟨fun hpolicy => ?_, fun hpolicy => ?_⟩
  · rw [hasked, funext (Config.refreshesDue_eq hpolicy), ← List.map_eq_flatMap]
  · rw [hasked, funext (Config.refreshAt_eq hpolicy), List.map_const', List.length_range]

/-- The configuration of `ddr4` with short intervals. -/
def ddr4Refreshed : Config := { ddr4 with tREFI := 20 }

theorem plain_ddr4Refreshed : ddr4Refreshed.Plain := ⟨rfl, rfl, by decide +kernel, by decide⟩

-- the second refresh of a rank waits for the first to end
theorem refresh_schedule_ddr4 : ∃ s, (dram ddr4Refreshed).Reaches Lib.System.anyStep s ∧
    (s.ctrls 0).refreshes = [refreshRank 0, refreshRank 1] ∧
    (s.ctrls 0).refreshes ++ (s.ctrls 0).channelState.refreshQ =
      (List.range ((s.ctrls 0).intervals ddr4Refreshed)).flatMap ddr4Refreshed.refreshesDue := by
  obtain ⟨s, hs, hissued⟩ := Lib.System.exists_reaches (dram ddr4Refreshed) Lib.System.anyStep
    (fun s => (s.ctrls 0).refreshes = [refreshRank 0, refreshRank 1])
    (List.replicate 45 .clockTick) (by decide +kernel)
  exact ⟨s, hs, hissued, (refresh_schedule plain_ddr4Refreshed hs 0).1 (by decide)⟩

end Beethoven.Dram
