import Mathlib.Algebra.Order.Ring.Int
import Mathlib.Logic.Function.Basic
import Beethoven.Lib.BitField
import Beethoven.Lib.Outcome

/-!
# Commands and configuration of the DRAM

The simulator serves its memory ports from a model of a DRAM, `DRAMsim3`. This module has its
commands and transactions (`common.h`) and its configuration (`configuration.cc`): the organization
of the memory, the timing parameters and the policies, as `Config::Config` leaves them after it has
read the configuration file. A configuration carries what makes it usable: the address mapping that
`SetAddressMapping` computed, that no field of it has a negative width, and that there is a channel,
a rank, a bank group and a bank.

An `int` is an integer where the source uses negative values and a natural number otherwise. The
command of type `SIZE`, with which the source says that there is no command, is `none`.
-/

namespace Beethoven.Dram

/-- Where the simulation ends. -/
inductive Exit where
  /-- `AbruptExit`. -/
  | abruptExit
  /-- `exit(1)` after " not in read queue! ". -/
  | notInReadQueue (hexAddr : ℕ)
  /-- `exit(1)` after " not in write queue!". -/
  | notInWriteQueue (hexAddr : ℕ)
  /-- `exit(1)` after "cannot find cmd!". -/
  | cannotFindCmd
  /-- An exception of `at`, or an access past the end of a vector, which the source does not
  check. -/
  | outOfRange
  /-- A remainder by zero. -/
  | divisionByZero
  deriving DecidableEq

/-- What a function of the source returns, unless the simulation ends in it. -/
abbrev Result := Except Exit

/-! ### Commands and transactions -/

/-- A place in the memory, with `-1` where a command has no such coordinate. -/
structure Address where
  channel : ℤ
  rank : ℤ
  bankgroup : ℤ
  bank : ℤ
  row : ℤ
  column : ℤ
  deriving DecidableEq

/-- The coordinates of a bank in a channel. -/
structure Bank where
  rank : ℤ
  bankgroup : ℤ
  bank : ℤ
  deriving DecidableEq

/-- The bank of an address. -/
def Address.toBank (a : Address) : Bank := ⟨a.rank, a.bankgroup, a.bank⟩

/-- `CommandType`, without `SIZE`. -/
inductive CommandType where
  | read | readPrecharge | write | writePrecharge | activate | precharge
  | refreshBank | refresh | srefEnter | srefExit
  deriving DecidableEq

/-- `Command`: its type, its place and the address of its transaction. -/
structure Command where
  cmdType : CommandType
  addr : Address
  hexAddr : ℕ
  deriving DecidableEq

namespace CommandType

/-- `IsRefresh`. -/
def isRefresh (t : CommandType) : Bool := t = .refresh || t = .refreshBank

/-- `IsRead`. -/
def isRead (t : CommandType) : Bool := t = .read || t = .readPrecharge

/-- `IsWrite`. -/
def isWrite (t : CommandType) : Bool := t = .write || t = .writePrecharge

/-- `IsReadWrite`. -/
def isReadWrite (t : CommandType) : Bool := t.isRead || t.isWrite

/-- `IsRankCMD`: the command is one to all banks of its rank. -/
def isRankCMD (t : CommandType) : Bool := t = .refresh || t = .srefEnter || t = .srefExit

theorem not_isReadWrite {t : CommandType} : t.isRefresh → ¬ t.isReadWrite := by
  cases t <;> decide

theorem not_isRankCMD {t : CommandType} : t.isReadWrite → ¬ t.isRankCMD := by
  cases t <;> decide

end CommandType

/-- The address `-1` of the commands that no transaction asked for. -/
def noHexAddr : ℕ := 2 ^ 64 - 1

/-- `Transaction`: a read or a write of a burst, with the cycles in which it was added and is
returned. -/
structure Transaction where
  addr : ℕ
  addedCycle : ℕ
  completeCycle : ℕ
  isWrite : Bool
  deriving DecidableEq

/-! ### The organization of the memory -/

/-- The halvings of `n` until one is left, `fuel` of them at most. -/
def halvings : (fuel n : ℕ) → ℕ
  | 0, _ => 0
  | fuel + 1, n => if 1 < n then halvings fuel (n / 2) + 1 else 0

/-- `LogBase2`. -/
def logBase2 (n : ℕ) : ℕ := halvings n n

theorem two_pow_halvings_le {fuel n : ℕ} (hn : 0 < n) : 2 ^ halvings fuel n ≤ n := by
  induction fuel generalizing n with
  | zero => exact hn
  | succ fuel ih =>
    rw [halvings]
    split_ifs with h
    · have hhalf : 2 ^ halvings fuel (n / 2) ≤ n / 2 := ih (by omega)
      rw [pow_succ]
      omega
    · exact hn

theorem two_pow_logBase2_le {n : ℕ} (hn : 0 < n) : 2 ^ logBase2 n ≤ n := two_pow_halvings_le hn

/-- The fields of an address. -/
inductive Field where
  | ch | ra | bg | ba | ro | co
  deriving DecidableEq

namespace Field

/-- All fields. -/
def all : List Field := [.ch, .ra, .bg, .ba, .ro, .co]

theorem mem_all (f : Field) : f ∈ all := by cases f <;> decide

/-- The keys of `field_widths`. -/
def ofToken : List Char → Option Field
  | ['c', 'h'] => some .ch
  | ['r', 'a'] => some .ra
  | ['b', 'g'] => some .bg
  | ['b', 'a'] => some .ba
  | ['r', 'o'] => some .ro
  | ['c', 'o'] => some .co
  | _ => none

end Field

/-- The part of the configuration from which the address mapping is computed. -/
structure Organization where
  channels : ℕ
  ranks : ℕ
  bankgroups : ℕ
  banksPerGroup : ℕ
  rows : ℕ
  columns : ℕ
  busWidth : ℕ
  burstLength : ℕ
  /-- `address_mapping`. -/
  mappingText : List Char

/-- The numbers of the address mapping. -/
structure AddressMap where
  shiftBits : ℕ
  chPos : ℕ
  raPos : ℕ
  bgPos : ℕ
  baPos : ℕ
  roPos : ℕ
  coPos : ℕ
  chMask : ℕ
  raMask : ℕ
  bgMask : ℕ
  baMask : ℕ
  roMask : ℕ
  coMask : ℕ
  deriving DecidableEq

/-- The positions of the fields, by field. -/
def AddressMap.pos (m : AddressMap) : Field → ℕ
  | .ch => m.chPos
  | .ra => m.raPos
  | .bg => m.bgPos
  | .ba => m.baPos
  | .ro => m.roPos
  | .co => m.coPos

namespace Organization

variable (o : Organization)

/-- `request_size_bytes`. -/
def requestSizeBytes : ℕ := o.busWidth / 8 * o.burstLength

/-- `field_widths`. -/
def fieldWidth : Field → ℕ
  | .ch => logBase2 o.channels
  | .ra => logBase2 o.ranks
  | .bg => logBase2 o.bankgroups
  | .ba => logBase2 o.banksPerGroup
  | .ro => logBase2 o.rows
  | .co => logBase2 o.columns - logBase2 o.burstLength

/-- The tokens of two characters in `address_mapping`. -/
def tokens : List Char → List (List Char)
  | a :: b :: rest => [a, b] :: tokens rest
  | _ => []

/-- Place the fields of the tokens from bit `pos` on. -/
def placeFields : List (List Char) → (pos : ℕ) → (Field → Option ℕ) → Result (Field → Option ℕ)
  | [], _, fieldPos => .ok fieldPos
  | token :: rest, pos, fieldPos =>
    match Field.ofToken token with
    | none => .error .abruptExit
    | some f => placeFields rest (pos + o.fieldWidth f) (Function.update fieldPos f (some pos))

/-- `field_pos.at`. -/
def fieldAt (fieldPos : Field → Option ℕ) (f : Field) : Result ℕ :=
  match fieldPos f with
  | none => .error .outOfRange
  | some pos => .ok pos

/-- `ch_mask` to `co_mask`. -/
def mask (f : Field) : ℕ := 2 ^ o.fieldWidth f - 1

/-- `SetAddressMapping`: the last token is placed first. -/
def setAddressMapping : Result AddressMap := do
  if o.mappingText.length ≠ 12 then .error .abruptExit
  else
    let fieldPos ← o.placeFields (tokens o.mappingText).reverse 0 fun _ => none
    let chPos ← fieldAt fieldPos .ch
    let raPos ← fieldAt fieldPos .ra
    let bgPos ← fieldAt fieldPos .bg
    let baPos ← fieldAt fieldPos .ba
    let roPos ← fieldAt fieldPos .ro
    let coPos ← fieldAt fieldPos .co
    return {
      shiftBits := logBase2 o.requestSizeBytes
      chPos, raPos, bgPos, baPos, roPos, coPos
      chMask := o.mask .ch
      raMask := o.mask .ra
      bgMask := o.mask .bg
      baMask := o.mask .ba
      roMask := o.mask .ro
      coMask := o.mask .co }

/-- The bits of a field. -/
def bitField (m : AddressMap) (f : Field) : Lib.BitField := ⟨m.pos f, o.fieldWidth f⟩

end Organization

/-! ### The configuration -/

/-- `DRAMProtocol`. -/
inductive DRAMProtocol where
  | ddr3 | ddr4 | gddr5 | gddr5x | gddr6 | lpddr | lpddr3 | lpddr4 | hbm | hbm2 | hmc
  deriving DecidableEq

/-- `RefreshPolicy`: which ranks or banks are refreshed when an interval is over. -/
inductive RefreshPolicy where
  | rankLevelSimultaneous | rankLevelStaggered | bankLevelStaggered
  deriving DecidableEq

/-- `QueueStructure`: a command queue for each rank or each bank. -/
inductive QueueStructure where
  | perRank | perBank
  deriving DecidableEq

/-- `RowBufPolicy`: rows stay open, or every column command closes its row. -/
inductive RowBufPolicy where
  | openPage | closePage
  deriving DecidableEq

/-- The timing parameters, in cycles. -/
structure TimingParams where
  burstCycle : ℕ
  al : ℕ
  cl : ℕ
  cwl : ℕ
  tCCDL : ℕ
  tCCDS : ℕ
  tRTRS : ℕ
  tRTP : ℕ
  tWTRL : ℕ
  tWTRS : ℕ
  tWR : ℕ
  tRP : ℕ
  tRRDL : ℕ
  tRRDS : ℕ
  tRAS : ℕ
  tRCD : ℕ
  tRFC : ℕ
  tCKESR : ℕ
  tXS : ℕ
  tRFCb : ℕ
  tREFI : ℕ
  tREFIb : ℕ
  tFAW : ℕ
  tPPD : ℕ
  t32AW : ℕ
  tRCDRD : ℕ
  tRCDWR : ℕ

namespace TimingParams

variable (p : TimingParams)

/-- `tRC`. -/
def tRC : ℕ := p.tRAS + p.tRP

/-- `RL`, the read latency. -/
def rl : ℕ := p.al + p.cl

/-- `WL`, the write latency. -/
def wl : ℕ := p.al + p.cwl

/-- `read_delay`. -/
def readDelay : ℕ := p.rl + p.burstCycle

/-- `write_delay`. -/
def writeDelay : ℕ := p.wl + p.burstCycle

end TimingParams

/-- `Config`, with what makes it usable. -/
structure Config extends Organization, TimingParams where
  protocol : DRAMProtocol
  queueStructure : QueueStructure
  rowBufPolicy : RowBufPolicy
  refreshPolicy : RefreshPolicy
  cmdQueueSize : ℕ
  transQueueSize : ℕ
  unifiedQueue : Bool
  enableSelfRefresh : Bool
  srefThreshold : ℕ
  enableHbmDualCmd : Bool
  epochPeriod : ℤ
  map : AddressMap
  mapped : toOrganization.setAddressMapping = .ok map
  /-- `actual_col_bits` is not negative. -/
  columnBits : logBase2 burstLength ≤ logBase2 columns
  channels_pos : 0 < channels
  ranks_pos : 0 < ranks
  bankgroups_pos : 0 < bankgroups
  banksPerGroup_pos : 0 < banksPerGroup

namespace Config

variable (c : Config)

/-- The banks of a rank. -/
def banks : ℕ := c.bankgroups * c.banksPerGroup

/-- `IsGDDR`. -/
def isGDDR : Bool := c.protocol = .gddr5 || c.protocol = .gddr5x || c.protocol = .gddr6

/-- `IsHBM`. -/
def isHBM : Bool := c.protocol = .hbm || c.protocol = .hbm2

/-- The bank is in the memory. -/
def HasBank (b : Bank) : Prop :=
  (0 ≤ b.rank ∧ b.rank < c.ranks) ∧ (0 ≤ b.bankgroup ∧ b.bankgroup < c.bankgroups) ∧
    0 ≤ b.bank ∧ b.bank < c.banksPerGroup

instance (b : Bank) : Decidable (c.HasBank b) := inferInstanceAs (Decidable (_ ∧ _ ∧ _))

/-- The banks of a rank, in the order in which the loops visit them. -/
def banksOfRank (rank : ℤ) : List Bank :=
  (List.range c.bankgroups).flatMap fun j : ℕ =>
    (List.range c.banksPerGroup).map fun k : ℕ => ⟨rank, j, k⟩

/-- `AddressMapping`: the place of an address. -/
def addressMapping (hexAddr : ℕ) : Address :=
  let hexAddr := hexAddr >>> c.map.shiftBits
  { channel := ((hexAddr >>> c.map.chPos) &&& c.map.chMask : ℕ)
    rank := ((hexAddr >>> c.map.raPos) &&& c.map.raMask : ℕ)
    bankgroup := ((hexAddr >>> c.map.bgPos) &&& c.map.bgMask : ℕ)
    bank := ((hexAddr >>> c.map.baPos) &&& c.map.baMask : ℕ)
    row := ((hexAddr >>> c.map.roPos) &&& c.map.roMask : ℕ)
    column := ((hexAddr >>> c.map.coPos) &&& c.map.coMask : ℕ) }

/-- `GetChannel`. -/
def getChannel (hexAddr : ℕ) : ℕ := ((hexAddr >>> c.map.shiftBits) >>> c.map.chPos) &&& c.map.chMask

/-- The interval of the refresh counter. -/
def refreshInterval : ℕ :=
  match c.refreshPolicy with
  | .rankLevelSimultaneous => c.tREFI
  | .bankLevelStaggered => c.tREFIb
  | .rankLevelStaggered => c.tREFI / c.ranks

end Config

/-! ### The address mapping -/

namespace Organization

variable {o : Organization} {m : AddressMap}

theorem setAddressMapping_numbers (h : o.setAddressMapping = .ok m) :
    m.shiftBits = logBase2 o.requestSizeBytes ∧ m.chMask = o.mask .ch ∧ m.raMask = o.mask .ra ∧
      m.bgMask = o.mask .bg ∧ m.baMask = o.mask .ba ∧ m.roMask = o.mask .ro ∧
      m.coMask = o.mask .co := by
  rw [setAddressMapping] at h
  split_ifs at h with hlen
  obtain ⟨fieldPos, -, h⟩ := Lib.bind_eq_ok.mp h
  obtain ⟨chPos, -, h⟩ := Lib.bind_eq_ok.mp h
  obtain ⟨raPos, -, h⟩ := Lib.bind_eq_ok.mp h
  obtain ⟨bgPos, -, h⟩ := Lib.bind_eq_ok.mp h
  obtain ⟨baPos, -, h⟩ := Lib.bind_eq_ok.mp h
  obtain ⟨roPos, -, h⟩ := Lib.bind_eq_ok.mp h
  obtain ⟨coPos, -, h⟩ := Lib.bind_eq_ok.mp h
  cases h
  exact ⟨rfl, rfl, rfl, rfl, rfl, rfl, rfl⟩

theorem shiftRight_and_mask (n : ℕ) (f : Field) :
    (n >>> m.pos f) &&& o.mask f = (o.bitField m f).get n :=
  Nat.and_two_pow_sub_one_eq_mod _ _

end Organization

namespace Config

variable (c : Config)

/-- The value of a field in the address of a burst. -/
def fieldOf (hexAddr : ℕ) (f : Field) : ℕ :=
  (c.bitField c.map f).get (hexAddr >>> c.map.shiftBits)

theorem fieldOf_lt (hexAddr : ℕ) (f : Field) : c.fieldOf hexAddr f < 2 ^ c.fieldWidth f :=
  Nat.mod_lt _ (Nat.two_pow_pos _)

theorem addressMapping_eq (hexAddr : ℕ) : c.addressMapping hexAddr =
    ⟨c.fieldOf hexAddr .ch, c.fieldOf hexAddr .ra, c.fieldOf hexAddr .bg, c.fieldOf hexAddr .ba,
      c.fieldOf hexAddr .ro, c.fieldOf hexAddr .co⟩ := by
  obtain ⟨-, hch, hra, hbg, hba, hro, hco⟩ := Organization.setAddressMapping_numbers c.mapped
  rw [addressMapping, hch, hra, hbg, hba, hro, hco]
  simp only [fieldOf, ← Organization.shiftRight_and_mask]
  rfl

theorem getChannel_eq (hexAddr : ℕ) : c.getChannel hexAddr = c.fieldOf hexAddr .ch := by
  obtain ⟨-, hch, -⟩ := Organization.setAddressMapping_numbers c.mapped
  rw [getChannel, hch]
  exact Organization.shiftRight_and_mask _ .ch

theorem getChannel_lt (hexAddr : ℕ) : c.getChannel hexAddr < c.channels := by
  rw [getChannel_eq]
  exact (c.fieldOf_lt hexAddr .ch).trans_le (two_pow_logBase2_le c.channels_pos)

/-- **Every address is in the memory.** The masks keep the coordinates of a bank in range. -/
theorem hasBank_addressMapping (hexAddr : ℕ) : c.HasBank (c.addressMapping hexAddr).toBank := by
  have hra := (c.fieldOf_lt hexAddr .ra).trans_le (two_pow_logBase2_le c.ranks_pos)
  have hbg := (c.fieldOf_lt hexAddr .bg).trans_le (two_pow_logBase2_le c.bankgroups_pos)
  have hba := (c.fieldOf_lt hexAddr .ba).trans_le (two_pow_logBase2_le c.banksPerGroup_pos)
  rw [addressMapping_eq]
  exact ⟨⟨Int.natCast_nonneg _, Int.ofNat_lt.mpr hra⟩, ⟨Int.natCast_nonneg _, Int.ofNat_lt.mpr hbg⟩,
    Int.natCast_nonneg _, Int.ofNat_lt.mpr hba⟩

theorem mem_banksOfRank {rank : ℤ} {b : Bank} :
    b ∈ c.banksOfRank rank ↔ b.rank = rank ∧ (0 ≤ b.bankgroup ∧ b.bankgroup < c.bankgroups) ∧
      0 ≤ b.bank ∧ b.bank < c.banksPerGroup := by
  simp only [banksOfRank, List.mem_flatMap, List.mem_map, List.mem_range]
  constructor
  · rintro ⟨j, hj, k, hk, rfl⟩
    exact ⟨rfl, ⟨Int.natCast_nonneg j, Int.ofNat_lt.mpr hj⟩, Int.natCast_nonneg k,
      Int.ofNat_lt.mpr hk⟩
  · rintro ⟨rfl, ⟨hj, hj'⟩, hk, hk'⟩
    refine ⟨b.bankgroup.toNat, by omega, b.bank.toNat, by omega, ?_⟩
    rw [Int.toNat_of_nonneg hj, Int.toNat_of_nonneg hk]

theorem length_banksOfRank (rank : ℤ) : (c.banksOfRank rank).length = c.banks := by
  simp [banksOfRank, banks, List.length_flatMap]

end Config

/-! ### A configuration -/

/-- The organization in `runtime/custom_dram_configs/DDR4_8Gb_x16_3200.ini`. `CalculateSize` finds
two ranks of 4096 megabytes. -/
def ddr4Organization : Organization where
  channels := 1
  ranks := 2
  bankgroups := 2
  banksPerGroup := 4
  rows := 65536
  columns := 1024
  busWidth := 64
  burstLength := 8
  mappingText := ['r', 'o', 'c', 'h', 'r', 'a', 'b', 'a', 'b', 'g', 'c', 'o']

/-- The address mapping of `ddr4Organization`. -/
def ddr4Map : AddressMap where
  shiftBits := 6
  chPos := 11
  raPos := 10
  bgPos := 7
  baPos := 8
  roPos := 11
  coPos := 0
  chMask := 0
  raMask := 1
  bgMask := 1
  baMask := 3
  roMask := 65535
  coMask := 127

theorem ddr4_mapped : ddr4Organization.setAddressMapping = .ok ddr4Map := by decide +kernel

theorem ddr4_columnBits :
    logBase2 ddr4Organization.burstLength ≤ logBase2 ddr4Organization.columns := by decide +kernel

/-- The configuration in `runtime/custom_dram_configs/DDR4_8Gb_x16_3200.ini`. -/
def ddr4 : Config where
  toOrganization := ddr4Organization
  burstCycle := 4
  al := 0
  cl := 22
  cwl := 16
  tCCDL := 8
  tCCDS := 4
  tRTRS := 1
  tRTP := 12
  tWTRL := 12
  tWTRS := 4
  tWR := 24
  tRP := 22
  tRRDL := 11
  tRRDS := 9
  tRAS := 52
  tRCD := 22
  tRFC := 560
  tCKESR := 9
  tXS := 576
  tRFCb := 20
  tREFI := 12480
  tREFIb := 1950
  tFAW := 48
  tPPD := 0
  t32AW := 330
  tRCDRD := 24
  tRCDWR := 20
  protocol := .ddr4
  queueStructure := .perBank
  rowBufPolicy := .openPage
  refreshPolicy := .rankLevelStaggered
  cmdQueueSize := 8
  transQueueSize := 32
  unifiedQueue := false
  enableSelfRefresh := false
  srefThreshold := 1000
  enableHbmDualCmd := false
  epochPeriod := 1587301
  map := ddr4Map
  mapped := ddr4_mapped
  columnBits := ddr4_columnBits
  channels_pos := Nat.one_pos
  ranks_pos := Nat.two_pos
  bankgroups_pos := Nat.two_pos
  banksPerGroup_pos := Nat.succ_pos 3

end Beethoven.Dram
