import Beethoven.Dram.BankState
import Beethoven.Lib.SlidingWindow

/-!
# The state of a channel

`ChannelState` of `channel_state.cc`: the banks of all ranks, the refreshes that wait, and the
windows that limit the activations of a rank. A command to a whole rank (`REFRESH`, `SREF_ENTER`) is
ready when all its banks are ready for it; otherwise the first bank that needs another command
first, such as a precharge, is served.
-/

namespace Beethoven.Dram

open Lib (Ensures Returns)
open Function

/-- `ChannelState`: the banks of a channel, the refreshes that wait, and for every rank whether it
is in self-refresh, how long all its banks have been idle, and the ends of its activation
windows. -/
structure ChannelState where
  bankStates : Bank → BankState
  refreshQ : List Command
  rankIsSref : ℤ → Bool
  rankIdleCycles : ℤ → ℕ
  fourAw : ℤ → List ℕ
  thirtyTwoAw : ℤ → List ℕ

/-- The banks at which a command happens: all banks of the rank for a refresh of the rank and for
the entry to self-refresh, which wait for all of them. -/
def Config.targets (c : Config) (cmd : Command) : List Bank :=
  if cmd.cmdType = .refresh ∨ cmd.cmdType = .srefEnter then c.banksOfRank cmd.addr.rank
  else [cmd.addr.toBank]

/-- The commands that the queues ask for: reads, writes and refreshes of banks and ranks of the
memory. -/
def Config.Requests (c : Config) (cmd : Command) : Prop :=
  (cmd.cmdType.isReadWrite ∨ cmd.cmdType = .refreshBank) ∧ c.HasBank cmd.addr.toBank ∨
    cmd.cmdType = .refresh ∧ 0 ≤ cmd.addr.rank ∧ cmd.addr.rank < c.ranks

namespace ChannelState

/-- The state at the start. -/
def init : ChannelState :=
  ⟨fun _ => .init, [], fun _ => false, fun _ => 0, fun _ => [], fun _ => []⟩

variable (c : Config) (ch : ChannelState)

/-- `bank_states_[rank][bankgroup][bank]`. -/
def bankAt (b : Bank) : Result BankState :=
  if c.HasBank b then .ok (ch.bankStates b) else .error .outOfRange

/-- The channel with another state of one bank. -/
def setBank (b : Bank) (s : BankState) : ChannelState :=
  { ch with bankStates := update ch.bankStates b s }

/-- `IsAllBankIdleInRank`. -/
def isAllBankIdleInRank (rank : ℤ) : Bool :=
  (c.banksOfRank rank).all fun b => !(ch.bankStates b).isRowOpen

/-! ### Refreshes that wait -/

/-- `BankNeedRefresh`: a refresh of the bank waits, or is taken out. -/
def bankNeedRefresh (rank bankgroup bank : ℤ) (need : Bool) : ChannelState :=
  if need then
    { ch with
      refreshQ := ch.refreshQ ++ [⟨.refreshBank, ⟨-1, rank, bankgroup, bank, -1, -1⟩, noHexAddr⟩] }
  else
    { ch with
      refreshQ := ch.refreshQ.eraseP fun cmd =>
        cmd.addr.rank = rank && cmd.addr.bankgroup = bankgroup && cmd.addr.bank = bank }

/-- `RankNeedRefresh`, the same for a rank. -/
def rankNeedRefresh (rank : ℤ) (need : Bool) : ChannelState :=
  if need then
    { ch with refreshQ := ch.refreshQ ++ [⟨.refresh, ⟨-1, rank, -1, -1, -1, -1⟩, noHexAddr⟩] }
  else { ch with refreshQ := ch.refreshQ.eraseP fun cmd => cmd.addr.rank = rank }

/-! ### The activation windows -/

/-- `IsFAWReady`: fewer than four activations of the rank are in the window of `tFAW`. -/
def isFAWReady (rank : ℤ) (currTime : ℕ) : Bool := Lib.Window.mayPass 4 (ch.fourAw rank) currTime

/-- `Is32AWReady`, for the window of 32 activations that GDDR memories have. -/
def is32AWReady (rank : ℤ) (currTime : ℕ) : Bool :=
  Lib.Window.mayPass 32 (ch.thirtyTwoAw rank) currTime

/-- `ActivationWindowOk`. -/
def activationWindowOk (rank : ℤ) (currTime : ℕ) : Bool :=
  if c.isGDDR then ch.isFAWReady rank currTime && ch.is32AWReady rank currTime
  else ch.isFAWReady rank currTime

/-- `UpdateActivationTimes`: the windows of an activation begin, and those that are over are
forgotten. -/
def updateActivationTimes (rank : ℤ) (currTime : ℕ) : ChannelState :=
  { ch with
    fourAw := update ch.fourAw rank
      (Lib.Window.slide c.tFAW (ch.fourAw rank) currTime)
    thirtyTwoAw :=
      if c.isGDDR then
        update ch.thirtyTwoAw rank
          (Lib.Window.slide c.t32AW (ch.thirtyTwoAw rank) currTime)
      else ch.thirtyTwoAw }

/-! ### Ready commands -/

/-- The loop over the banks of a rank, with the number of banks that are ready for the command
itself and the last answer. -/
def readyInRank (cmd : Command) (clk : ℕ) :
    List Bank → (numReady : ℕ) → Option Command → Result (Option Command)
  | [], numReady, readyCmd => .ok (if numReady = c.banks then readyCmd else none)
  | b :: rest, numReady, _ => do
    let bank ← ch.bankAt c b
    match ← bank.getReadyCommand cmd clk with
    | none => readyInRank cmd clk rest numReady none
    | some ready =>
      if ready.cmdType ≠ cmd.cmdType then
        return some { ready with addr := ⟨-1, cmd.addr.rank, b.bankgroup, b.bank, -1, -1⟩ }
      else readyInRank cmd clk rest (numReady + 1) (some ready)

/-- `GetReadyCommand`: the command that has to come next for `cmd`, if its cycle has come and, for
an activation, the windows allow it. -/
def getReadyCommand (cmd : Command) (clk : ℕ) : Result (Option Command) :=
  if cmd.cmdType.isRankCMD then ch.readyInRank c cmd clk (c.banksOfRank cmd.addr.rank) 0 none
  else do
    let bank ← ch.bankAt c cmd.addr.toBank
    match ← bank.getReadyCommand cmd clk with
    | none => return none
    | some ready =>
      if ready.cmdType = .activate && !ch.activationWindowOk c ready.addr.rank clk then return none
      else return some ready

/-! ### Applying a command -/

/-- Apply a command to one bank. -/
def updateBank (cmd : Command) (ch : ChannelState) (b : Bank) : Result ChannelState := do
  let bank ← ch.bankAt c b
  let bank ← bank.updateState cmd
  return ch.setBank b bank

/-- `UpdateState`. -/
def updateState (cmd : Command) : Result ChannelState :=
  if cmd.cmdType.isRankCMD then do
    let ch ← (c.banksOfRank cmd.addr.rank).foldlM (updateBank c cmd) ch
    match cmd.cmdType with
    | .refresh => return ch.rankNeedRefresh cmd.addr.rank false
    | .srefEnter =>
      return { ch with rankIsSref := update ch.rankIsSref cmd.addr.rank true }
    | .srefExit =>
      return { ch with rankIsSref := update ch.rankIsSref cmd.addr.rank false }
    | _ => return ch
  else do
    let ch ← updateBank c cmd ch cmd.addr.toBank
    if cmd.cmdType.isRefresh then
      return ch.bankNeedRefresh cmd.addr.rank cmd.addr.bankgroup cmd.addr.bank false
    else return ch

/-- Let the distances of a list hold in the banks that satisfy `p`. -/
def raise (p : Bank → Bool) (distances : List (CommandType × ℤ)) (clk : ℕ) : ChannelState :=
  { ch with bankStates := fun b =>
      if c.HasBank b ∧ p b then (ch.bankStates b).updateTimings distances clk
      else ch.bankStates b }

/-- `UpdateSameBankTiming`. -/
def updateSameBankTiming (addr : Address) : List (CommandType × ℤ) → ℕ → ChannelState :=
  ch.raise c fun b => b.rank = addr.rank && b.bankgroup = addr.bankgroup && b.bank = addr.bank

/-- `UpdateOtherBanksSameBankgroupTiming`. -/
def updateOtherBanksSameBankgroupTiming (addr : Address) :
    List (CommandType × ℤ) → ℕ → ChannelState :=
  ch.raise c fun b => b.rank = addr.rank && b.bankgroup = addr.bankgroup && b.bank ≠ addr.bank

/-- `UpdateOtherBankgroupsSameRankTiming`. -/
def updateOtherBankgroupsSameRankTiming (addr : Address) :
    List (CommandType × ℤ) → ℕ → ChannelState :=
  ch.raise c fun b => b.rank = addr.rank && b.bankgroup ≠ addr.bankgroup

/-- `UpdateOtherRanksTiming`. -/
def updateOtherRanksTiming (addr : Address) : List (CommandType × ℤ) → ℕ → ChannelState :=
  ch.raise c fun b => b.rank ≠ addr.rank

/-- `UpdateSameRankTiming`. -/
def updateSameRankTiming (addr : Address) : List (CommandType × ℤ) → ℕ → ChannelState :=
  ch.raise c fun b => b.rank = addr.rank

/-- The times of the banks in `UpdateTiming`. -/
def updateBankTimings (cmd : Command) (clk : ℕ) : ChannelState :=
  if cmd.cmdType.isRankCMD then
    ch.updateSameRankTiming c cmd.addr (c.timing.sameRank cmd.cmdType) clk
  else
    let ch := ch.updateSameBankTiming c cmd.addr (c.timing.sameBank cmd.cmdType) clk
    let ch := ch.updateOtherBanksSameBankgroupTiming c cmd.addr
      (c.timing.otherBanksSameBankgroup cmd.cmdType) clk
    let ch := ch.updateOtherBankgroupsSameRankTiming c cmd.addr
      (c.timing.otherBankgroupsSameRank cmd.cmdType) clk
    ch.updateOtherRanksTiming c cmd.addr (c.timing.otherRanks cmd.cmdType) clk

/-- `UpdateTiming`. -/
def updateTiming (cmd : Command) (clk : ℕ) : ChannelState :=
  let ch := if cmd.cmdType = .activate then ch.updateActivationTimes c cmd.addr.rank clk else ch
  ch.updateBankTimings c cmd clk

/-- `UpdateTimingAndStates`: what a command does to the banks when it is issued. -/
def updateTimingAndStates (cmd : Command) (clk : ℕ) : Result ChannelState := do
  let ch ← ch.updateState c cmd
  return ch.updateTiming c cmd clk

/-! ### What is checked for a ready command -/

variable {c ch} {ch' : ChannelState} {cmd ready : Command} {clk : ℕ} {b : Bank}

theorem bankAt_eq_ok {bank : BankState} :
    ch.bankAt c b = .ok bank ↔ c.HasBank b ∧ ch.bankStates b = bank := by
  rw [bankAt]
  split_ifs with h
  · simp [h]
  · simp [h]

theorem bankAt_of_hasBank (h : c.HasBank b) : ch.bankAt c b = .ok (ch.bankStates b) := if_pos h

/-- The commands that are ready for a requested one: for a command to a rank, the command that one
of its banks needs first, or the command itself when all banks are ready for it; for a command to a
bank, the command that the bank needs, inside the activation windows. -/
inductive Ready (c : Config) (ch : ChannelState) (cmd : Command) (clk : ℕ) : Command → Prop
  | first {b : Bank} {r : Command} (hrank : cmd.cmdType.isRankCMD)
      (hmem : b ∈ c.banksOfRank cmd.addr.rank) (hb : c.HasBank b)
      (hr : (ch.bankStates b).getReadyCommand cmd clk = .ok (some r))
      (hne : r.cmdType ≠ cmd.cmdType) :
      Ready c ch cmd clk { r with addr := ⟨-1, cmd.addr.rank, b.bankgroup, b.bank, -1, -1⟩ }
  | all (hrank : cmd.cmdType.isRankCMD)
      (hr : ∀ b ∈ c.banksOfRank cmd.addr.rank,
        c.HasBank b ∧ (ch.bankStates b).getReadyCommand cmd clk = .ok (some cmd)) :
      Ready c ch cmd clk cmd
  | one {ready : Command} (hrank : ¬ cmd.cmdType.isRankCMD) (hb : c.HasBank cmd.addr.toBank)
      (hr : (ch.bankStates cmd.addr.toBank).getReadyCommand cmd clk = .ok (some ready))
      (hwindow : ready.cmdType = .activate → ch.activationWindowOk c ready.addr.rank clk) :
      Ready c ch cmd clk ready

/-- The loop ends at a bank that needs another command, or has found all banks ready. -/
theorem readyInRank_eq_some {l : List Bank} {n : ℕ} {last : Option Command}
    (h : ch.readyInRank c cmd clk l n last = .ok (some ready)) (hn : n + l.length ≤ c.banks) :
    (∃ b ∈ l, ∃ r, c.HasBank b ∧ (ch.bankStates b).getReadyCommand cmd clk = .ok (some r) ∧
      r.cmdType ≠ cmd.cmdType ∧
      ready = { r with addr := ⟨-1, cmd.addr.rank, b.bankgroup, b.bank, -1, -1⟩ }) ∨
    (n + l.length = c.banks ∧ (l = [] → last = some ready) ∧ (l ≠ [] → ready = cmd) ∧
      ∀ b ∈ l, c.HasBank b ∧ (ch.bankStates b).getReadyCommand cmd clk = .ok (some cmd)) := by
  induction l generalizing n last with
  | nil =>
    rw [readyInRank] at h
    split_ifs at h with hbanks
    · exact .inr ⟨by simpa using hbanks, fun _ => by simpa using h, by simp, by simp⟩
    · cases h
  | cons b l ih =>
    rw [List.length_cons] at hn
    rw [readyInRank] at h
    obtain ⟨bank, hbank, h⟩ := Lib.bind_eq_ok.mp h
    obtain ⟨hb, rfl⟩ := bankAt_eq_ok.mp hbank
    obtain ⟨answer, hanswer, h⟩ := Lib.bind_eq_ok.mp h
    cases answer with
    | none =>
      -- a bank that is not ready leaves the count below the number of banks
      rcases ih h (by omega) with ⟨b', hb', hrest⟩ | ⟨hlen, -⟩
      · exact .inl ⟨b', List.mem_cons_of_mem b hb', hrest⟩
      · omega
    | some r =>
      dsimp only at h
      split_ifs at h with hne
      · cases h
        exact .inl ⟨b, List.mem_cons_self, r, hb, hanswer, hne, rfl⟩
      · obtain rfl : r = cmd := by
          rw [(BankState.getReadyCommand_eq_some hanswer).2.1, not_not.mp hne]
        rcases ih h (by omega) with ⟨b', hb', hrest⟩ | ⟨hlen, hnil, hcons, hall⟩
        · exact .inl ⟨b', List.mem_cons_of_mem b hb', hrest⟩
        · refine .inr ⟨by rw [List.length_cons]; omega, by simp, fun _ => ?_, ?_⟩
          · by_cases hl : l = []
            · exact (Option.some.inj (hnil hl)).symm
            · exact hcons hl
          · intro b' hb'
            rcases List.mem_cons.mp hb' with rfl | hb'
            · exact ⟨hb, hanswer⟩
            · exact hall b' hb'

theorem banksOfRank_ne_nil (rank : ℤ) : c.banksOfRank rank ≠ [] := by
  rw [← List.length_pos_iff, c.length_banksOfRank]
  exact Nat.mul_pos c.bankgroups_pos c.banksPerGroup_pos

/-- **What was checked for a ready command.** -/
theorem getReadyCommand_cases (h : ch.getReadyCommand c cmd clk = .ok (some ready)) :
    Ready c ch cmd clk ready := by
  rw [getReadyCommand] at h
  split_ifs at h with hrank
  · have hlen : 0 + (c.banksOfRank cmd.addr.rank).length ≤ c.banks := by
      rw [Nat.zero_add, c.length_banksOfRank]
    rcases readyInRank_eq_some h hlen with ⟨b, hmem, r, hb, hr, hne, rfl⟩ | ⟨-, -, hcmd, hall⟩
    · exact .first hrank hmem hb hr hne
    · rw [hcmd (banksOfRank_ne_nil _)]
      exact .all hrank hall
  · obtain ⟨bank, hbank, h⟩ := Lib.bind_eq_ok.mp h
    obtain ⟨hb, rfl⟩ := bankAt_eq_ok.mp hbank
    obtain ⟨answer, hanswer, h⟩ := Lib.bind_eq_ok.mp h
    cases answer with
    | none => cases h
    | some r =>
      dsimp only at h
      split_ifs at h with hwindow
      · cases h
      · cases h
        refine .one hrank hb hanswer fun hact => ?_
        simpa [hact] using hwindow

/-- **What every bank of a ready command is like**: the command is the one that the bank needs for
some request, and its time has come. -/
theorem Ready.required (h : Ready c ch cmd clk ready) (hb : b ∈ c.targets ready) :
    c.HasBank b ∧ (ch.bankStates b).cmdTiming ready.cmdType ≤ clk ∧
      ∃ request, (ch.bankStates b).requiredType request = .ok ready.cmdType ∧
        (ready.cmdType = .precharge ∨ ready = { request with cmdType := ready.cmdType }) := by
  cases h with
  | @first b' r hrank hmem hb' hr hne =>
    obtain ⟨hreq, -, htime⟩ := BankState.getReadyCommand_eq_some hr
    have hpre : r.cmdType = .precharge :=
      (BankState.requiredType_of_isRankCMD hrank hreq).resolve_right fun h => hne h.1
    have htargets : c.targets
        { r with addr := ⟨-1, cmd.addr.rank, b'.bankgroup, b'.bank, -1, -1⟩ } = [b'] := by
      rw [Config.targets, if_neg (by simp [hpre])]
      simp only [Address.toBank, ← ((c.mem_banksOfRank).mp hmem).1]
    rw [htargets, List.mem_singleton] at hb
    subst hb
    exact ⟨hb', htime, cmd, hreq, .inl hpre⟩
  | all hrank hr =>
    rw [Config.targets] at hb
    split_ifs at hb with htype
    · obtain ⟨hbank, hready⟩ := hr b hb
      obtain ⟨hreq, heq, htime⟩ := BankState.getReadyCommand_eq_some hready
      exact ⟨hbank, htime, cmd, hreq, .inr heq⟩
    · -- no bank is ever ready for the exit from self-refresh itself
      obtain ⟨b', hb'⟩ := List.exists_mem_of_ne_nil _ (banksOfRank_ne_nil (c := c) cmd.addr.rank)
      have hreq := (BankState.getReadyCommand_eq_some (hr b' hb').2).1
      rw [not_or] at htype
      rcases BankState.requiredType_of_isRankCMD hrank hreq with hpre | ⟨-, hexit⟩
      · rw [hpre] at hrank
        exact absurd hrank (by decide)
      · exfalso
        simp only [CommandType.isRankCMD, Bool.or_eq_true, decide_eq_true_eq] at hrank
        tauto
  | one hrank hbank hr hwindow =>
    obtain ⟨hreq, heq, htime⟩ := BankState.getReadyCommand_eq_some hr
    have htype := BankState.requiredType_of_not_isRankCMD hrank hreq
    rw [Config.targets, if_neg (not_or.mpr htype), List.mem_singleton] at hb
    have haddr : ready.addr = cmd.addr := by rw [heq]
    rw [haddr] at hb
    subst hb
    exact ⟨hbank, htime, cmd, hreq, .inr heq⟩

theorem Ready.window (h : Ready c ch cmd clk ready) (hact : ready.cmdType = .activate) :
    ch.activationWindowOk c ready.addr.rank clk := by
  cases h with
  | @first b' r hrank hmem hb' hr hne =>
    have hreq := (BankState.getReadyCommand_eq_some hr).1
    have hpre : r.cmdType = .precharge :=
      (BankState.requiredType_of_isRankCMD hrank hreq).resolve_right fun h => hne h.1
    exact absurd (hact.symm.trans hpre) (by decide)
  | all hrank hr =>
    rw [hact] at hrank
    cases hrank
  | one hrank hbank hr hwindow => exact hwindow hact

/-! ### What a command changes -/

theorem updateBank_of_ok {bank : BankState} (hb : c.HasBank b)
    (h : (ch.bankStates b).updateState cmd = .ok bank) :
    updateBank c cmd ch b = .ok (ch.setBank b bank) :=
  Lib.bind_eq_ok.mpr ⟨_, bankAt_of_hasBank hb, Lib.bind_eq_ok.mpr ⟨bank, h, rfl⟩⟩

theorem ensures_updateBank : Ensures (updateBank c cmd ch b) fun ch' =>
    ∃ bank, (ch.bankStates b).updateState cmd = .ok bank ∧ ch' = ch.setBank b bank := by
  intro ch' h
  obtain ⟨bank, hbank, h⟩ := Lib.bind_eq_ok.mp h
  obtain ⟨-, rfl⟩ := bankAt_eq_ok.mp hbank
  obtain ⟨bank', hbank', h⟩ := Lib.bind_eq_ok.mp h
  cases h
  exact ⟨bank', hbank', rfl⟩

/-- The times of the banks and the windows are the same in the two states. -/
structure SameTimes (ch ch' : ChannelState) : Prop where
  cmdTiming : ∀ b, (ch'.bankStates b).cmdTiming = (ch.bankStates b).cmdTiming
  fourAw : ch'.fourAw = ch.fourAw
  thirtyTwoAw : ch'.thirtyTwoAw = ch.thirtyTwoAw

theorem SameTimes.refl (ch : ChannelState) : SameTimes ch ch := ⟨fun _ => rfl, rfl, rfl⟩

theorem SameTimes.trans {ch'' : ChannelState} (h : SameTimes ch ch') (h' : SameTimes ch' ch'') :
    SameTimes ch ch'' :=
  ⟨fun b => (h'.cmdTiming b).trans (h.cmdTiming b), h'.fourAw.trans h.fourAw,
    h'.thirtyTwoAw.trans h.thirtyTwoAw⟩

theorem sameTimes_bankNeedRefresh (rank bankgroup bank : ℤ) (need : Bool) :
    SameTimes ch (ch.bankNeedRefresh rank bankgroup bank need) := by
  cases need <;> exact ⟨fun _ => rfl, rfl, rfl⟩

theorem sameTimes_rankNeedRefresh (rank : ℤ) (need : Bool) :
    SameTimes ch (ch.rankNeedRefresh rank need) := by
  cases need <;> exact ⟨fun _ => rfl, rfl, rfl⟩

theorem sameTimes_updateBank : Ensures (updateBank c cmd ch b) (SameTimes ch) := by
  refine ensures_updateBank.mono ?_
  rintro _ ⟨bank, hbank, rfl⟩
  refine ⟨fun b' => ?_, rfl, rfl⟩
  by_cases hb' : b' = b
  · subst hb'
    simp only [setBank, update_self]
    exact BankState.updateState_cmdTiming hbank
  · simp only [setBank, update_of_ne hb']

theorem sameTimes_updateState : Ensures (ch.updateState c cmd) (SameTimes ch) := by
  rw [updateState]
  split_ifs with hrank hrefresh
  · refine Ensures.bind (P := SameTimes ch) ?_ fun ch' h => ?_
    · refine .foldlM (.refl ch) fun ch' b _ h => ?_
      exact sameTimes_updateBank.mono fun ch'' h' => h.trans h'
    · split
      · exact .ok (h.trans (sameTimes_rankNeedRefresh _ _))
      all_goals exact .ok ⟨h.cmdTiming, h.fourAw, h.thirtyTwoAw⟩
  · refine sameTimes_updateBank.bind fun ch' h => ?_
    exact .ok (h.trans (sameTimes_bankNeedRefresh ..))
  · exact sameTimes_updateBank.bind fun ch' h => .ok h

theorem updateBankTimings_bankStates : (ch.updateBankTimings c cmd clk).bankStates b =
    if c.HasBank b then (ch.bankStates b).updateTimings (c.timing.after cmd b) clk
    else ch.bankStates b := by
  rw [updateBankTimings, Timing.after]
  by_cases hb : c.HasBank b
  · by_cases hrank : cmd.cmdType.isRankCMD
    · simp only [hrank, if_true, updateSameRankTiming, raise, hb, true_and, decide_eq_true_eq]
      split_ifs
      · rfl
      · rfl
    · simp only [hrank, Bool.false_eq_true, if_false, updateSameBankTiming,
        updateOtherBanksSameBankgroupTiming, updateOtherBankgroupsSameRankTiming,
        updateOtherRanksTiming, raise, hb, true_and, if_true]
      by_cases hr : b.rank = cmd.addr.rank
      · by_cases hg : b.bankgroup = cmd.addr.bankgroup
        · by_cases hk : b.bank = cmd.addr.bank
          · simp [hr, hg, hk]
          · simp [hr, hg, hk]
        · simp [hr, hg]
      · simp [hr]
  · by_cases hrank : cmd.cmdType.isRankCMD
    · simp [hrank, updateSameRankTiming, raise, hb]
    · simp [hrank, updateSameBankTiming, updateOtherBanksSameBankgroupTiming,
        updateOtherBankgroupsSameRankTiming, updateOtherRanksTiming, raise, hb]

@[simp] theorem updateBankTimings_refreshQ :
    (ch.updateBankTimings c cmd clk).refreshQ = ch.refreshQ := by
  rw [updateBankTimings]
  split_ifs <;> rfl

@[simp] theorem updateBankTimings_rankIsSref :
    (ch.updateBankTimings c cmd clk).rankIsSref = ch.rankIsSref := by
  rw [updateBankTimings]
  split_ifs <;> rfl

@[simp] theorem updateBankTimings_fourAw :
    (ch.updateBankTimings c cmd clk).fourAw = ch.fourAw := by
  rw [updateBankTimings]
  split_ifs <;> rfl

@[simp] theorem updateBankTimings_thirtyTwoAw :
    (ch.updateBankTimings c cmd clk).thirtyTwoAw = ch.thirtyTwoAw := by
  rw [updateBankTimings]
  split_ifs <;> rfl

theorem updateTiming_bankStates : (ch.updateTiming c cmd clk).bankStates b =
    if c.HasBank b then (ch.bankStates b).updateTimings (c.timing.after cmd b) clk
    else ch.bankStates b := by
  rw [updateTiming, updateBankTimings_bankStates]
  split_ifs <;> rfl

@[simp] theorem updateTiming_state :
    ((ch.updateTiming c cmd clk).bankStates b).state = (ch.bankStates b).state := by
  rw [updateTiming_bankStates]
  split_ifs
  · exact BankState.updateTimings_state
  · rfl

@[simp] theorem updateTiming_refreshQ : (ch.updateTiming c cmd clk).refreshQ = ch.refreshQ := by
  rw [updateTiming, updateBankTimings_refreshQ]
  split_ifs <;> rfl

@[simp] theorem updateTiming_rankIsSref :
    (ch.updateTiming c cmd clk).rankIsSref = ch.rankIsSref := by
  rw [updateTiming, updateBankTimings_rankIsSref]
  split_ifs <;> rfl

/-! ### Channels in which no bank sleeps -/

/-- No bank is in a power-saving state. -/
def Awake (c : Config) (ch : ChannelState) : Prop :=
  ∀ b, c.HasBank b → (ch.bankStates b).IsAwake

/-- All banks of a command can take it. -/
def Executable (c : Config) (ch : ChannelState) (cmd : Command) : Prop :=
  ∀ b ∈ c.targets cmd, c.HasBank b ∧ (ch.bankStates b).Accepts cmd

/-- The refreshes that wait after a command. -/
def served (cmd : Command) (q : List Command) : List Command :=
  match cmd.cmdType with
  | .refresh => q.eraseP fun r => r.addr.rank = cmd.addr.rank
  | .refreshBank => q.eraseP fun r => r.addr.rank = cmd.addr.rank &&
      r.addr.bankgroup = cmd.addr.bankgroup && r.addr.bank = cmd.addr.bank
  | _ => q

theorem Executable.not_sref (h : Executable c ch cmd) :
    cmd.cmdType ≠ .srefEnter ∧ cmd.cmdType ≠ .srefExit := by
  constructor
  · intro htype
    obtain ⟨b, hb⟩ := List.exists_mem_of_ne_nil _ (banksOfRank_ne_nil (c := c) cmd.addr.rank)
    have hacc := (h b (by rw [Config.targets, if_pos (.inr htype)]; exact hb)).2
    rw [BankState.Accepts, htype] at hacc
    exact hacc
  · intro htype
    have hacc := (h cmd.addr.toBank (by simp [Config.targets, htype])).2
    rw [BankState.Accepts, htype] at hacc
    exact hacc

private theorem returns_refreshBanks (htype : cmd.cmdType = .refresh) (h : Executable c ch cmd) :
    Returns ((c.banksOfRank cmd.addr.rank).foldlM (updateBank c cmd) ch) (· = ch) := by
  refine .foldlM rfl fun ch' b hb hch' => ?_
  obtain ⟨hbank, hacc⟩ := h b (by rw [Config.targets, if_pos (.inl htype)]; exact hb)
  have hclosed : (ch.bankStates b).state = .closed := by
    rw [BankState.Accepts, htype] at hacc
    exact hacc
  have hstate : (ch.bankStates b).updateState cmd = .ok (ch.bankStates b) := by
    rw [BankState.updateState, hclosed, htype]
  refine ⟨ch.setBank b (ch.bankStates b), ?_, by rw [setBank, update_eq_self]⟩
  rw [hch', updateBank_of_ok hbank hstate]

/-- The banks of a command that can be executed take it, and no bank goes to sleep. -/
theorem returns_updateState (h : Executable c ch cmd) (hawake : Awake c ch) :
    Returns (ch.updateState c cmd) fun ch' => Awake c ch' ∧ ch'.rankIsSref = ch.rankIsSref ∧
      ch'.refreshQ = served cmd ch.refreshQ := by
  by_cases htype : cmd.cmdType = .refresh
  · rw [updateState, if_pos (by simp [CommandType.isRankCMD, htype])]
    refine (returns_refreshBanks htype h).bind ?_
    rintro _ rfl
    simp only [htype]
    exact .ok ⟨hawake, rfl, by rw [served, htype]; rfl⟩
  · obtain ⟨henter, hexit⟩ := h.not_sref
    have htargets : c.targets cmd = [cmd.addr.toBank] := by
      rw [Config.targets, if_neg (not_or.mpr ⟨htype, henter⟩)]
    obtain ⟨hbank, hacc⟩ := h cmd.addr.toBank (by simp [htargets])
    have hupdate : Returns (updateBank c cmd ch cmd.addr.toBank) fun ch' => Awake c ch' ∧
        ch'.rankIsSref = ch.rankIsSref ∧ ch'.refreshQ = ch.refreshQ := by
      rw [updateBank, bankAt_of_hasBank hbank]
      refine (BankState.returns_updateState hacc).bind fun bank hbankAwake => .ok ⟨?_, rfl, rfl⟩
      intro b hb
      by_cases hb' : b = cmd.addr.toBank
      · subst hb'
        simpa only [setBank, update_self] using hbankAwake
      · simpa only [setBank, update_of_ne hb'] using hawake b hb
    have hrank : ¬ cmd.cmdType.isRankCMD := by
      simp [CommandType.isRankCMD, htype, henter, hexit]
    rw [updateState, if_neg hrank]
    refine hupdate.bind fun ch' hch' => ?_
    obtain ⟨hawake', hsref, hq⟩ := hch'
    by_cases hrb : cmd.cmdType = .refreshBank
    · rw [if_pos (by simp [CommandType.isRefresh, hrb])]
      refine .ok ⟨hawake', hsref, ?_⟩
      rw [served, hrb, ← hq]
      rfl
    · rw [if_neg (by simp [CommandType.isRefresh, hrb, htype])]
      refine .ok ⟨hawake', hsref, ?_⟩
      rw [hq, served]
      cases hcase : cmd.cmdType <;> first | rfl | contradiction

/-- **A command that can be executed is applied.** -/
theorem returns_updateTimingAndStates (h : Executable c ch cmd) (hawake : Awake c ch) :
    Returns (ch.updateTimingAndStates c cmd clk) fun ch' => Awake c ch' ∧
      ch'.rankIsSref = ch.rankIsSref ∧ ch'.refreshQ = served cmd ch.refreshQ := by
  refine (returns_updateState h hawake).bind fun ch' hch' => .ok ⟨?_, ?_, ?_⟩
  · intro b hb
    have hb' := hch'.1 b hb
    rwa [BankState.IsAwake, updateTiming_state]
  · rw [updateTiming_rankIsSref]
    exact hch'.2.1
  · rw [updateTiming_refreshQ]
    exact hch'.2.2

/-! ### Requests -/

theorem hasBank_of_mem_banksOfRank {rank : ℤ} (h₀ : 0 ≤ rank) (h : rank < c.ranks)
    (hb : b ∈ c.banksOfRank rank) : c.HasBank b := by
  obtain ⟨rfl, hrest⟩ := c.mem_banksOfRank.mp hb
  exact ⟨⟨h₀, h⟩, hrest⟩

theorem returns_readyInRank (hcmd : cmd.cmdType.isRefresh) (hawake : Awake c ch) {l : List Bank}
    (hl : ∀ b ∈ l, c.HasBank b) {n : ℕ} {last : Option Command} :
    Returns (ch.readyInRank c cmd clk l n last) fun _ => True := by
  induction l generalizing n last with
  | nil => exact .ok trivial
  | cons b l ih =>
    have hb := hl b List.mem_cons_self
    have hrest : ∀ b' ∈ l, c.HasBank b' := fun b' hb' => hl b' (List.mem_cons_of_mem b hb')
    rw [readyInRank, bankAt_of_hasBank hb]
    refine (BankState.returns_getReadyCommand
      (BankState.returns_requiredType (hawake b hb) (.inr hcmd))).bind fun answer _ => ?_
    cases answer with
    | none => exact ih hrest
    | some ready =>
      dsimp only
      split_ifs
      · exact .ok trivial
      · exact ih hrest

theorem returns_getReadyCommand (hreq : c.Requests cmd) (hawake : Awake c ch) :
    Returns (ch.getReadyCommand c cmd clk) fun _ => True := by
  rw [getReadyCommand]
  rcases hreq with ⟨htype, hb⟩ | ⟨htype, h₀, hrank⟩
  · have hnot : ¬ cmd.cmdType.isRankCMD := by
      rcases htype with htype | htype
      · exact CommandType.not_isRankCMD htype
      · simp [CommandType.isRankCMD, htype]
    have htype' : cmd.cmdType.isReadWrite ∨ cmd.cmdType.isRefresh :=
      htype.imp_right fun h => by simp [CommandType.isRefresh, h]
    rw [if_neg hnot, bankAt_of_hasBank hb]
    refine (BankState.returns_getReadyCommand
      (BankState.returns_requiredType (hawake _ hb) htype')).bind fun answer _ => ?_
    cases answer with
    | none => exact .ok trivial
    | some ready =>
      dsimp only
      split_ifs <;> exact .ok trivial
  · rw [if_pos (by simp [CommandType.isRankCMD, htype])]
    refine returns_readyInRank (by simp [CommandType.isRefresh, htype]) hawake fun b hb => ?_
    exact hasBank_of_mem_banksOfRank h₀ hrank hb

private theorem accepts_of_getReadyCommand (hb : (ch.bankStates b).IsAwake)
    (hcmd : cmd.cmdType.isReadWrite ∨ cmd.cmdType.isRefresh)
    (h : (ch.bankStates b).getReadyCommand cmd clk = .ok (some ready)) :
    (ch.bankStates b).Accepts ready ∧
      (ready = cmd ∨ ready.cmdType = .activate ∨ ready.cmdType = .precharge) := by
  obtain ⟨hreq, heq, -⟩ := BankState.getReadyCommand_eq_some h
  obtain ⟨t, ht, hacc, htype⟩ := BankState.returns_requiredType hb hcmd
  rw [hreq] at ht
  cases ht
  rw [← heq] at hacc
  refine ⟨hacc, htype.imp_left fun hsame => ?_⟩
  rw [heq, hsame]

/-- **A ready command can be executed.** It is the request itself or opens or closes a row. -/
theorem Ready.executable (h : Ready c ch cmd clk ready) (hreq : c.Requests cmd)
    (hawake : Awake c ch) : Executable c ch ready ∧
      (ready = cmd ∨ ready.cmdType = .activate ∨ ready.cmdType = .precharge) := by
  have hcmd : cmd.cmdType.isReadWrite ∨ cmd.cmdType.isRefresh := by
    rcases hreq with ⟨htype | htype, -⟩ | ⟨htype, -⟩
    · exact .inl htype
    · exact .inr (by simp [CommandType.isRefresh, htype])
    · exact .inr (by simp [CommandType.isRefresh, htype])
  cases h with
  | @first b r hrank hmem hb hr hne =>
    obtain ⟨hreq', -, -⟩ := BankState.getReadyCommand_eq_some hr
    have hpre : r.cmdType = .precharge :=
      (BankState.requiredType_of_isRankCMD hrank hreq').resolve_right fun h => hne h.1
    have hacc := (accepts_of_getReadyCommand (hawake b hb) hcmd hr).1
    refine ⟨fun b' hb' => ?_, .inr (.inr hpre)⟩
    rw [Config.targets, if_neg (by simp [hpre]), List.mem_singleton] at hb'
    obtain rfl : b' = b := by
      rw [hb', Address.toBank, ← (c.mem_banksOfRank.mp hmem).1]
    refine ⟨hb, ?_⟩
    rw [BankState.Accepts, hpre] at hacc ⊢
    exact hacc
  | all hrank hr =>
    refine ⟨fun b hb => ?_, .inl rfl⟩
    have hrefresh : cmd.cmdType = .refresh := by
      rcases hreq with ⟨htype | htype, -⟩ | ⟨htype, -⟩
      · exact absurd hrank (CommandType.not_isRankCMD htype)
      · rw [htype] at hrank
        cases hrank
      · exact htype
    rw [Config.targets, if_pos (.inl hrefresh)] at hb
    obtain ⟨hbank, hready⟩ := hr b hb
    exact ⟨hbank, (accepts_of_getReadyCommand (hawake b hbank) hcmd hready).1⟩
  | one hrank hb hr hwindow =>
    obtain ⟨hacc, hwhat⟩ := accepts_of_getReadyCommand (hawake _ hb) hcmd hr
    obtain ⟨hreq', heq, -⟩ := BankState.getReadyCommand_eq_some hr
    have htype := BankState.requiredType_of_not_isRankCMD hrank hreq'
    refine ⟨fun b' hb' => ?_, hwhat⟩
    rw [Config.targets, if_neg (not_or.mpr htype), List.mem_singleton] at hb'
    have haddr : ready.addr = cmd.addr := by rw [heq]
    rw [hb', haddr]
    exact ⟨hb, hacc⟩

end ChannelState

end Beethoven.Dram
