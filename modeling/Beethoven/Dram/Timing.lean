import Beethoven.Dram.Configuration

/-!
# The distances between commands

`Timing` has, for every type of command, how many cycles after such a command the commands of
another type may follow: in the same bank, in the other banks of the bank group, in the other bank
groups of the rank, in the other ranks, and, for the commands to a whole rank, in that rank. The
distances are computed from the parameters of the configuration, and some of them are differences
that may be negative.
-/

namespace Beethoven.Dram

/-- For each type of command, the types that it delays and by how many cycles. -/
abbrev DistanceTable := CommandType → List (CommandType × ℤ)

/-- `Timing`: the distances to commands at the same bank, at the banks further and further away, and
from a command of a rank to those at its banks. -/
structure Timing where
  sameBank : DistanceTable
  otherBanksSameBankgroup : DistanceTable
  otherBankgroupsSameRank : DistanceTable
  otherRanks : DistanceTable
  sameRank : DistanceTable

/-- The sum of a `uint64_t` and an `int`. -/
def addCycles (clk : ℕ) (d : ℤ) : ℕ := ((clk + d) % 2 ^ 64).toNat

theorem addCycles_eq {clk : ℕ} {d : ℤ} (h₀ : 0 ≤ clk + d) (h : clk + d < 2 ^ 64) :
    (addCycles clk d : ℤ) = clk + d := by
  rw [addCycles, Int.emod_eq_of_lt h₀ h, Int.toNat_of_nonneg h₀]

namespace Config

variable (c : Config)

/-! ### The distances

The cycles from one command to another, at the same bank group (`L`), at another bank group of the
rank (`S`) and at another rank (`O`) where that makes a difference. -/

/-- `read_to_read_l`. -/
def readToReadL : ℤ := max c.burstCycle (if c.bankgroups = 1 then c.tCCDS else c.tCCDL)

/-- `read_to_read_s`. -/
def readToReadS : ℤ := max c.burstCycle c.tCCDS

/-- `read_to_read_o`. -/
def readToReadO : ℤ := c.burstCycle + c.tRTRS

/-- `read_to_write`. -/
def readToWrite : ℤ := c.rl + c.burstCycle - c.wl + c.tRTRS

/-- `read_to_write_o`. -/
def readToWriteO : ℤ := c.readDelay + c.burstCycle + c.tRTRS - c.writeDelay

/-- `read_to_precharge`. -/
def readToPrecharge : ℤ := c.al + c.tRTP

/-- `readp_to_act`. -/
def readpToAct : ℤ := c.al + c.burstCycle + c.tRTP + c.tRP

/-- `write_to_read_l`. -/
def writeToReadL : ℤ := c.writeDelay + (if c.bankgroups = 1 then c.tWTRS else c.tWTRL)

/-- `write_to_read_s`. -/
def writeToReadS : ℤ := c.writeDelay + c.tWTRS

/-- `write_to_read_o`. -/
def writeToReadO : ℤ := c.writeDelay + c.burstCycle + c.tRTRS - c.readDelay

/-- `write_to_write_l`. -/
def writeToWriteL : ℤ := max c.burstCycle (if c.bankgroups = 1 then c.tCCDS else c.tCCDL)

/-- `write_to_write_s`. -/
def writeToWriteS : ℤ := max c.burstCycle c.tCCDS

/-- `write_to_write_o`. -/
def writeToWriteO : ℤ := c.burstCycle

/-- `write_to_precharge`. -/
def writeToPrecharge : ℤ := c.wl + c.burstCycle + c.tWR

/-- `precharge_to_activate`. -/
def prechargeToActivate : ℤ := c.tRP

/-- `precharge_to_precharge`. -/
def prechargeToPrecharge : ℤ := c.tPPD

/-- `read_to_activate`. -/
def readToActivate : ℤ := c.readToPrecharge + c.prechargeToActivate

/-- `write_to_activate`. -/
def writeToActivate : ℤ := c.writeToPrecharge + c.prechargeToActivate

/-- `activate_to_activate`. -/
def activateToActivate : ℤ := c.tRC

/-- `activate_to_activate_l`. -/
def activateToActivateL : ℤ := if c.bankgroups = 1 then c.tRRDS else c.tRRDL

/-- `activate_to_activate_s`. -/
def activateToActivateS : ℤ := c.tRRDS

/-- `activate_to_precharge`. -/
def activateToPrecharge : ℤ := c.tRAS

/-- `activate_to_read`. -/
def activateToRead : ℤ := if c.isGDDR || c.isHBM then c.tRCDRD else c.tRCD - c.al

/-- `activate_to_write`. -/
def activateToWrite : ℤ := if c.isGDDR || c.isHBM then c.tRCDWR else c.tRCD - c.al

/-- `activate_to_refresh`. -/
def activateToRefresh : ℤ := c.tRC

/-- `refresh_to_refresh`. -/
def refreshToRefresh : ℤ := c.tREFI

/-- `refresh_to_activate`. -/
def refreshToActivate : ℤ := c.tRFC

/-- `refresh_to_activate_bank`. -/
def refreshToActivateBank : ℤ := c.tRFCb

/-- `self_refresh_entry_to_exit`. -/
def selfRefreshEntryToExit : ℤ := c.tCKESR

/-- `self_refresh_exit`. -/
def selfRefreshExit : ℤ := c.tXS

/-! ### The tables -/

/-- The distances to the commands that read or write a column. -/
def toColumn (toRead toWrite : ℤ) : List (CommandType × ℤ) :=
  [(.read, toRead), (.write, toWrite), (.readPrecharge, toRead), (.writePrecharge, toWrite)]

/-- The distances to the commands that find the bank closed. -/
def toClosed (toActivate toRefresh : ℤ) : List (CommandType × ℤ) :=
  [(.activate, toActivate), (.refresh, toRefresh), (.refreshBank, toRefresh),
    (.srefEnter, toRefresh)]

/-- `Timing::Timing`. The distances of `REFRESH_BANK` to its own bank stand in `same_rank`, which is
read for the commands to a whole rank only. -/
def timing : Timing where
  sameBank
    | .read => toColumn c.readToReadL c.readToWrite ++ [(.precharge, c.readToPrecharge)]
    | .write => toColumn c.writeToReadL c.writeToWriteL ++ [(.precharge, c.writeToPrecharge)]
    | .readPrecharge => toClosed c.readpToAct c.readToActivate
    | .writePrecharge => toClosed c.writeToActivate c.writeToActivate
    | .activate => (.activate, c.activateToActivate) ::
        (toColumn c.activateToRead c.activateToWrite ++ [(.precharge, c.activateToPrecharge)])
    | .precharge => toClosed c.prechargeToActivate c.prechargeToActivate
    | .refreshBank | .refresh | .srefEnter | .srefExit => []
  otherBanksSameBankgroup
    | .read | .readPrecharge => toColumn c.readToReadL c.readToWrite
    | .write | .writePrecharge => toColumn c.writeToReadL c.writeToWriteL
    | .activate => [(.activate, c.activateToActivateL), (.refreshBank, c.activateToRefresh)]
    | .precharge =>
      if c.isGDDR || c.protocol = .lpddr4 then [(.precharge, c.prechargeToPrecharge)] else []
    | .refreshBank => [(.activate, c.refreshToActivate), (.refreshBank, c.refreshToRefresh)]
    | .refresh | .srefEnter | .srefExit => []
  otherBankgroupsSameRank
    | .read | .readPrecharge => toColumn c.readToReadS c.readToWrite
    | .write | .writePrecharge => toColumn c.writeToReadS c.writeToWriteS
    | .activate => [(.activate, c.activateToActivateS), (.refreshBank, c.activateToRefresh)]
    | .precharge =>
      if c.isGDDR || c.protocol = .lpddr4 then [(.precharge, c.prechargeToPrecharge)] else []
    | .refreshBank => [(.activate, c.refreshToActivate), (.refreshBank, c.refreshToRefresh)]
    | .refresh | .srefEnter | .srefExit => []
  otherRanks
    | .read | .readPrecharge => toColumn c.readToReadO c.readToWriteO
    | .write | .writePrecharge => toColumn c.writeToReadO c.writeToWriteO
    | .activate | .precharge | .refreshBank | .refresh | .srefEnter | .srefExit => []
  sameRank
    | .refreshBank => toClosed c.refreshToActivateBank c.refreshToActivateBank
    | .refresh => [(.activate, c.refreshToActivate), (.refresh, c.refreshToActivate),
        (.srefEnter, c.refreshToActivate)]
    | .srefEnter => [(.srefExit, c.selfRefreshEntryToExit)]
    | .srefExit => toClosed c.selfRefreshExit c.selfRefreshExit
    | .read | .readPrecharge | .write | .writePrecharge | .activate | .precharge => []

end Config

/-- The distances that a command imposes on a bank. -/
def Timing.after (t : Timing) (cmd : Command) (b : Bank) : List (CommandType × ℤ) :=
  if cmd.cmdType.isRankCMD then
    if b.rank = cmd.addr.rank then t.sameRank cmd.cmdType else []
  else if b.rank ≠ cmd.addr.rank then t.otherRanks cmd.cmdType
  else if b.bankgroup ≠ cmd.addr.bankgroup then t.otherBankgroupsSameRank cmd.cmdType
  else if b.bank ≠ cmd.addr.bank then t.otherBanksSameBankgroup cmd.cmdType
  else t.sameBank cmd.cmdType

end Beethoven.Dram
