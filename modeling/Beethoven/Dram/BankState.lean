import Beethoven.Dram.Timing

/-!
# The state of a bank

`BankState` of `bankstate.cc`: whether a row of the bank is open, and from which cycle on each type
of command may be given to it. `getReadyCommand` returns the command that is needed next for a
requested one, if its time has come, and `updateState` applies a command.
-/

namespace Beethoven.Dram

open Lib (Ensures Returns)
open Function

/-- The states of a bank: its row is open or closed, or it is in self-refresh or powered down, which
no command does. -/
inductive RowState where
  | opened | closed | sref | pd
  deriving DecidableEq

/-- `BankState`: the state of a bank, the cycle from which on it takes each type of command, the
open row (`-1` if there is none) and the column commands to it since it was opened. -/
structure BankState where
  state : RowState
  cmdTiming : CommandType → ℕ
  openRow : ℤ
  rowHitCount : ℕ

namespace BankState

/-- A bank with its row closed, which takes every command. -/
def init : BankState := ⟨.closed, fun _ => 0, -1, 0⟩

variable (b : BankState)

/-- `IsRowOpen`. -/
def isRowOpen : Bool := b.state = .opened

/-- The `required_type` of `GetReadyCommand`. -/
def requiredType (cmd : Command) : Result CommandType :=
  match b.state with
  | .closed =>
    match cmd.cmdType with
    | .read | .readPrecharge | .write | .writePrecharge => .ok .activate
    | .refresh | .refreshBank | .srefEnter => .ok cmd.cmdType
    | .activate | .precharge | .srefExit => .error .abruptExit
  | .opened =>
    match cmd.cmdType with
    | .read | .readPrecharge | .write | .writePrecharge =>
      .ok (if cmd.addr.row = b.openRow then cmd.cmdType else .precharge)
    | .refresh | .refreshBank | .srefEnter => .ok .precharge
    | .activate | .precharge | .srefExit => .error .abruptExit
  | .sref =>
    match cmd.cmdType with
    | .read | .readPrecharge | .write | .writePrecharge => .ok .srefExit
    | .activate | .precharge | .refreshBank | .refresh | .srefEnter | .srefExit =>
      .error .abruptExit
  | .pd => .error .abruptExit

/-- `GetReadyCommand`: the command that has to come next for `cmd`, if its cycle has come. -/
def getReadyCommand (cmd : Command) (clk : ℕ) : Result (Option Command) := do
  let requiredType ← b.requiredType cmd
  if b.cmdTiming requiredType ≤ clk then return some { cmd with cmdType := requiredType }
  else return none

/-- `UpdateState`: a command that does not fit the state ends the simulation. -/
def updateState (cmd : Command) : Result BankState :=
  match b.state with
  | .opened =>
    match cmd.cmdType with
    | .read | .write => .ok { b with rowHitCount := b.rowHitCount + 1 }
    | .readPrecharge | .writePrecharge | .precharge =>
      .ok { b with state := .closed, openRow := -1, rowHitCount := 0 }
    | .activate | .refresh | .refreshBank | .srefEnter | .srefExit => .error .abruptExit
  | .closed =>
    match cmd.cmdType with
    | .refresh | .refreshBank => .ok b
    | .activate => .ok { b with state := .opened, openRow := cmd.addr.row }
    | .srefEnter => .ok { b with state := .sref }
    | .read | .write | .readPrecharge | .writePrecharge | .precharge | .srefExit =>
      .error .abruptExit
  | .sref =>
    match cmd.cmdType with
    | .srefExit => .ok { b with state := .closed }
    | .read | .write | .readPrecharge | .writePrecharge | .activate | .precharge | .refresh
    | .refreshBank | .srefEnter => .error .abruptExit
  | .pd => .error .abruptExit

/-- `UpdateTiming`: commands of a type are not taken before `time`. -/
def updateTiming (cmdType : CommandType) (time : ℕ) : BankState :=
  { b with cmdTiming := update b.cmdTiming cmdType (max (b.cmdTiming cmdType) time) }

/-- The loop over a list of distances. -/
def updateTimings (distances : List (CommandType × ℤ)) (clk : ℕ) : BankState :=
  distances.foldl (fun b d => b.updateTiming d.1 (addCycles clk d.2)) b

/-! ### Times -/

variable {b} {distances : List (CommandType × ℤ)} {clk time : ℕ} {t t' : CommandType}

@[simp] theorem updateTiming_state : (b.updateTiming t time).state = b.state := rfl

@[simp] theorem updateTiming_openRow : (b.updateTiming t time).openRow = b.openRow := rfl

theorem updateTiming_cmdTiming : (b.updateTiming t time).cmdTiming =
    update b.cmdTiming t (max (b.cmdTiming t) time) := rfl

theorem le_updateTiming : b.cmdTiming t' ≤ (b.updateTiming t time).cmdTiming t' := by
  by_cases h : t' = t
  · subst h
    rw [updateTiming_cmdTiming, update_self]
    exact le_max_left _ _
  · rw [updateTiming_cmdTiming, update_of_ne h]

@[simp] theorem updateTimings_state : (b.updateTimings distances clk).state = b.state := by
  induction distances generalizing b with
  | nil => rfl
  | cons d l ih => exact ih

@[simp] theorem updateTimings_openRow : (b.updateTimings distances clk).openRow = b.openRow := by
  induction distances generalizing b with
  | nil => rfl
  | cons d l ih => exact ih

theorem le_updateTimings : b.cmdTiming t ≤ (b.updateTimings distances clk).cmdTiming t := by
  induction distances generalizing b with
  | nil => exact le_rfl
  | cons d l ih => exact le_updateTiming.trans ih

theorem addCycles_le_updateTimings {d : ℤ} (h : (t, d) ∈ distances) :
    addCycles clk d ≤ (b.updateTimings distances clk).cmdTiming t := by
  induction distances generalizing b with
  | nil => exact absurd h List.not_mem_nil
  | cons x l ih =>
    rcases List.mem_cons.mp h with rfl | h
    · refine le_trans ?_ (le_updateTimings (b := b.updateTiming t (addCycles clk d)))
      rw [updateTiming_cmdTiming, update_self]
      exact le_max_right _ _
    · exact ih h

theorem updateState_cmdTiming {cmd : Command} {b' : BankState} (h : b.updateState cmd = .ok b') :
    b'.cmdTiming = b.cmdTiming := by
  rw [updateState] at h
  split at h
  · split at h <;> cases h <;> rfl
  · split at h <;> cases h <;> rfl
  · split at h
    · cases h
      rfl
    all_goals cases h
  · cases h

/-! ### Commands that a bank can take -/

/-- The bank is not in a power-saving state. -/
def IsAwake (b : BankState) : Prop := b.state = .opened ∨ b.state = .closed

/-- The commands that a bank takes when it is not in a power-saving state: a column is accessed in
the open row, a row is closed when it is open, and activated or refreshed when none is open. -/
def Accepts (b : BankState) (cmd : Command) : Prop :=
  match cmd.cmdType with
  | .read | .write | .readPrecharge | .writePrecharge =>
    b.state = .opened ∧ b.openRow = cmd.addr.row
  | .precharge => b.state = .opened
  | .activate | .refresh | .refreshBank => b.state = .closed
  | .srefEnter | .srefExit => False

/-- **A bank takes the commands that it accepts**, and stays awake. -/
theorem returns_updateState {cmd : Command} (h : b.Accepts cmd) :
    Returns (b.updateState cmd) IsAwake := by
  obtain ⟨t, addr, hexAddr⟩ := cmd
  cases t
  case read | write =>
    rw [updateState, h.1]
    exact .ok (.inl rfl)
  case readPrecharge | writePrecharge =>
    rw [updateState, h.1]
    exact .ok (.inr rfl)
  case precharge =>
    rw [updateState, show b.state = .opened from h]
    exact .ok (.inr rfl)
  case activate =>
    rw [updateState, show b.state = .closed from h]
    exact .ok (.inl rfl)
  case refresh | refreshBank =>
    rw [updateState, show b.state = .closed from h]
    exact .ok (.inr h)
  case srefEnter | srefExit => exact absurd h id

/-- The command needed next for a read or a write is the request itself, to the open row, or one
that opens or closes a row. -/
theorem requiredType_rw {cmd : Command} (hb : b.IsAwake) (hcmd : cmd.cmdType.isReadWrite) :
    Returns (b.requiredType cmd) fun t => b.Accepts { cmd with cmdType := t } ∧
      (t = cmd.cmdType ∨ t = .activate ∨ t = .precharge) := by
  obtain ⟨t, addr, hexAddr⟩ := cmd
  rw [requiredType]
  rcases hb with hb | hb
  · rw [hb]
    by_cases hrow : addr.row = b.openRow
    · cases t
      case read | write | readPrecharge | writePrecharge =>
        simp only [hrow, if_true]
        exact .ok ⟨⟨hb, hrow.symm⟩, .inl rfl⟩
      all_goals exact Bool.noConfusion hcmd
    · cases t
      case read | write | readPrecharge | writePrecharge =>
        simp only [hrow, if_false]
        exact .ok ⟨hb, .inr (.inr rfl)⟩
      all_goals exact Bool.noConfusion hcmd
  · rw [hb]
    cases t
    case read | write | readPrecharge | writePrecharge => exact .ok ⟨hb, .inr (.inl rfl)⟩
    all_goals exact Bool.noConfusion hcmd

/-- The command needed next for a refresh is the refresh itself or a precharge. -/
theorem requiredType_refresh {cmd : Command} (hb : b.IsAwake) (hcmd : cmd.cmdType.isRefresh) :
    Returns (b.requiredType cmd) fun t => b.Accepts { cmd with cmdType := t } ∧
      (t = cmd.cmdType ∨ t = .precharge) := by
  obtain ⟨t, addr, hexAddr⟩ := cmd
  rw [requiredType]
  rcases hb with hb | hb
  · rw [hb]
    cases t
    case refresh | refreshBank => exact .ok ⟨hb, .inr rfl⟩
    all_goals exact Bool.noConfusion hcmd
  · rw [hb]
    cases t
    case refresh | refreshBank => exact .ok ⟨hb, .inl rfl⟩
    all_goals exact Bool.noConfusion hcmd

/-- The command needed next for a read, a write or a refresh is the request itself, or one that
opens or closes a row. -/
theorem returns_requiredType {cmd : Command} (hb : b.IsAwake)
    (hcmd : cmd.cmdType.isReadWrite ∨ cmd.cmdType.isRefresh) :
    Returns (b.requiredType cmd) fun t => b.Accepts { cmd with cmdType := t } ∧
      (t = cmd.cmdType ∨ t = .activate ∨ t = .precharge) := by
  rcases hcmd with hcmd | hcmd
  · exact requiredType_rw hb hcmd
  · exact (requiredType_refresh hb hcmd).mono fun t ht => ⟨ht.1, ht.2.imp_right .inr⟩

theorem requiredType_of_isRankCMD {cmd : Command} (hcmd : cmd.cmdType.isRankCMD)
    (h : b.requiredType cmd = .ok t) :
    t = .precharge ∨ t = cmd.cmdType ∧ cmd.cmdType ≠ .srefExit := by
  obtain ⟨type, addr, hexAddr⟩ := cmd
  rw [requiredType] at h
  cases type
  case refresh | srefEnter =>
    split at h
    · cases h
      exact .inr ⟨rfl, by simp⟩
    · cases h
      exact .inl rfl
    all_goals cases h
  case srefExit => split at h <;> cases h
  all_goals exact Bool.noConfusion hcmd

/-- A command to a bank never needs one that waits for all banks of the rank. -/
theorem requiredType_of_not_isRankCMD {cmd : Command} (hcmd : ¬ cmd.cmdType.isRankCMD)
    (h : b.requiredType cmd = .ok t) : t ≠ .refresh ∧ t ≠ .srefEnter := by
  obtain ⟨type, addr, hexAddr⟩ := cmd
  rw [requiredType] at h
  cases type
  case refresh | srefEnter | srefExit => exact absurd rfl hcmd
  case activate | precharge => split at h <;> cases h
  case refreshBank =>
    split at h
    · cases h
      simp
    · cases h
      simp
    all_goals cases h
  case read | readPrecharge | write | writePrecharge =>
    split at h
    · cases h
      decide
    · by_cases hrow : addr.row = b.openRow
      · simp only [hrow, if_true] at h
        cases h
        decide
      · simp only [hrow, if_false] at h
        cases h
        decide
    · cases h
      decide
    · cases h

theorem getReadyCommand_eq_some {cmd ready : Command}
    (h : b.getReadyCommand cmd clk = .ok (some ready)) :
    b.requiredType cmd = .ok ready.cmdType ∧ ready = { cmd with cmdType := ready.cmdType } ∧
      b.cmdTiming ready.cmdType ≤ clk := by
  obtain ⟨t, ht, h⟩ := Lib.bind_eq_ok.mp h
  split_ifs at h with htime
  · cases h
    exact ⟨ht, rfl, htime⟩
  · cases h

theorem returns_getReadyCommand {cmd : Command} {P : CommandType → Prop}
    (h : Returns (b.requiredType cmd) P) : Returns (b.getReadyCommand cmd clk) fun ready =>
      ∀ r ∈ ready, r = { cmd with cmdType := r.cmdType } ∧ P r.cmdType := by
  refine h.bind fun t ht => ?_
  split_ifs
  · refine .ok fun r hr => ?_
    cases hr
    exact ⟨rfl, ht⟩
  · exact .ok fun r hr => by cases hr

end BankState

end Beethoven.Dram
