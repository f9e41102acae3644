import Beethoven.Cli.Paths
import Beethoven.Lib.Calendar
import Beethoven.Lib.Decimal
import Beethoven.Lib.SignedWord
import Mathlib.Tactic.IntervalCases

/-!
# Timestamps of image names

The name that the command line suggests for an image ends in the time of the suggestion, in
universal time. The date is computed from the number of days since the first of January 1970, on
years that begin in March, so that the day that is not in every year is the last one of its year.
The computation is on signed machine words. For the day of every second that a word can count, none
of its steps overflows, and the result is the date of the calendar. The texts of two times are
therefore ordered as the times are, up to the year 9999, which is the last one of four digits.
-/

namespace Beethoven.Cli

open Lib Finset

/-! ### The functions of the command line -/

/-- The year, month and day of a number of days since the first of January 1970. -/
def civilFromDays (daysSinceUnixEpoch : Int64) : Int64 × UInt64 × UInt64 :=
  let z := daysSinceUnixEpoch + 719468
  let era := (if z ≥ 0 then z else z - 146096) / 146097
  let doe := z - era * 146097
  let yoe := (doe - doe / 1460 + doe / 36524 - doe / 146096) / 365
  let y := yoe + era * 400
  let doy := doe - (365 * yoe + yoe / 4 - yoe / 100)
  let mp := (5 * doy + 2) / 153
  let day := doy - (153 * mp + 2) / 5 + 1
  let month := mp + if mp < 10 then 3 else -9
  let year := y + if month ≤ 2 then 1 else 0
  (year, month.toUInt64, day.toUInt64)

/-- A time of the system, as whole seconds since the first of January 1970 and nanoseconds after
them. -/
@[ext]
structure SystemTime where
  secs : ℤ
  nanos : ℕ
  secs_lt : secs < 2 ^ 64
  nanos_lt : nanos < 10 ^ 9
  deriving DecidableEq

namespace SystemTime

/-- `SystemTime` is ordered by the seconds, then by the nanoseconds. -/
instance : LT SystemTime :=
  ⟨fun a b => a.secs < b.secs ∨ a.secs = b.secs ∧ a.nanos < b.nanos⟩

/-- The seconds of `duration_since(UNIX_EPOCH)`, which fails before the epoch. -/
def secondsSinceEpoch (time : SystemTime) : Option UInt64 :=
  if 0 ≤ time.secs then some (.ofNat time.secs.toNat) else none

/-- The seconds since the epoch, none before it. -/
def seconds (time : SystemTime) : UInt64 := time.secondsSinceEpoch.getD 0

/-- `UNIX_EPOCH` and a number of whole seconds. -/
def ofSeconds (seconds : UInt64) : SystemTime where
  secs := seconds.toNat
  nanos := 0
  secs_lt := by exact_mod_cast seconds.toNat_lt
  nanos_lt := by decide

end SystemTime

/-- The format `:0width` of a signed number. -/
def formatSigned (width : ℕ) (n : Int64) : Text :=
  if n < 0 then '-' :: zeroPad (width - 1) n.toInt.natAbs else zeroPad width n.toInt.natAbs

/-- The format `:0width` of an unsigned number. -/
def formatUnsigned (width : ℕ) (n : UInt64) : Text := zeroPad width n.toNat

/-- The number of the day of a second. -/
def dayOf (seconds : UInt64) : Int64 := (seconds / 86400).toInt64

/-- The timestamp of a number of seconds since the first of January 1970. -/
def timestampAt (seconds : UInt64) : Text :=
  let secondsOfDay := seconds % 86400
  let (year, month, day) := civilFromDays (dayOf seconds)
  let hour := secondsOfDay / 3600
  let minute := (secondsOfDay % 3600) / 60
  let second := secondsOfDay % 60
  formatSigned 4 year ++ formatUnsigned 2 month ++ formatUnsigned 2 day ++ "-".toList ++
    formatUnsigned 2 hour ++ formatUnsigned 2 minute ++ formatUnsigned 2 second

/-- The timestamp of a time of the system. -/
def utcTimestamp (time : SystemTime) : Text := timestampAt time.seconds

/-! ### The computation on natural numbers -/

/-- The year of a day of an era of four hundred years that begins in March. -/
def yearOfEra (doe : ℕ) : ℕ := (doe - doe / 1460 + doe / 36524 - doe / 146096) / 365

/-- The days of an era before a year. -/
def yearStart (yoe : ℕ) : ℕ := 365 * yoe + yoe / 4 - yoe / 100

/-- The month of a day of a year that begins in March. -/
def marchMonth (doy : ℕ) : ℕ := (5 * doy + 2) / 153

/-- The days of a year that begins in March before a month. -/
def monthStart (mp : ℕ) : ℕ := (153 * mp + 2) / 5

/-- The date of a day of a year that begins in March. -/
def marchDate (y doy : ℕ) : ℕ × ℕ × ℕ :=
  let mp := marchMonth doy
  let day := doy - monthStart mp + 1
  let month := if mp < 10 then mp + 3 else mp - 9
  let year := y + if month ≤ 2 then 1 else 0
  (year, month, day)

/-- The date of a number of days since the first of January 1970, on natural numbers. -/
def civil (days : ℕ) : ℕ × ℕ × ℕ :=
  let z := days + 719468
  let era := z / 146097
  let doe := z - era * 146097
  let yoe := yearOfEra doe
  marchDate (yoe + era * 400) (doe - yearStart yoe)

/-- A day of an era by its century, its four years, its year and its day. Only the last year of four
has another day, and the last of a century has it at the end of the era. -/
theorem exists_cycles {doe : ℕ} (h : doe < 146097) :
    ∃ c q r s, c < 4 ∧ q < 25 ∧ r < 4 ∧ (s < 365 ∨ s = 365 ∧ r = 3 ∧ (q < 24 ∨ c = 3)) ∧
      doe = 36524 * c + 1461 * q + 365 * r + s := by
  obtain ⟨c, t, hc, ht, rfl⟩ : ∃ c t, c < 4 ∧ (t < 36524 ∨ t = 36524 ∧ c = 3) ∧
      doe = 36524 * c + t := by
    rcases Nat.lt_or_ge doe 146096 with hlt | hge
    · exact ⟨doe / 36524, doe % 36524, by omega, by omega, by omega⟩
    · exact ⟨3, 36524, by omega, by omega, by omega⟩
  have hq : t / 1461 < 25 := by omega
  rcases Nat.lt_or_ge (t % 1461) 1460 with hlt | hge
  · exact ⟨c, t / 1461, t % 1461 / 365, t % 1461 % 365, hc, hq, by omega, by omega, by omega⟩
  · exact ⟨c, t / 1461, 3, 365, hc, hq, by omega, by omega, by omega⟩

theorem yearOfEra_cycles {c q r s : ℕ} (hc : c < 4) (hq : q < 25) (hr : r < 4)
    (hs : s < 365 ∨ s = 365 ∧ r = 3 ∧ (q < 24 ∨ c = 3)) :
    yearOfEra (36524 * c + 1461 * q + 365 * r + s) = 100 * c + 4 * q + r := by
  unfold yearOfEra
  generalize hdoe : 36524 * c + 1461 * q + 365 * r + s = doe
  rcases Nat.lt_or_ge (1461 * q + 365 * r + s) 36524 with hlt | hge
  · have hcentury : doe / 36524 = c := Nat.div_eq_of_lt_le (by omega) (by omega)
    have hera : doe / 146096 = 0 := Nat.div_eq_of_lt (by omega)
    rw [hcentury, hera]
    -- 1460 days are one less than four years: towards the end of an era the quotient is ahead
    rcases Nat.lt_or_ge (24 * c + q + 365 * r + s) 1460 with h | h
    · have hfour : doe / 1460 = 25 * c + q := Nat.div_eq_of_lt_le (by omega) (by omega)
      rw [hfour]
      exact Nat.div_eq_of_lt_le (by omega) (by omega)
    · have hfour : doe / 1460 = 25 * c + q + 1 := Nat.div_eq_of_lt_le (by omega) (by omega)
      rw [hfour]
      exact Nat.div_eq_of_lt_le (by omega) (by omega)
  · -- the last day of the era
    obtain ⟨rfl, rfl, rfl, rfl⟩ : c = 3 ∧ q = 24 ∧ r = 3 ∧ s = 365 := by omega
    subst hdoe
    rfl

theorem yearStart_cycles {c q r : ℕ} (hq : q < 25) (hr : r < 4) :
    yearStart (100 * c + 4 * q + r) = 36524 * c + 1461 * q + 365 * r := by
  unfold yearStart
  have hfour : (100 * c + 4 * q + r) / 4 = 25 * c + q := by omega
  have hcentury : (100 * c + 4 * q + r) / 100 = c := by omega
  omega

/-- A day of an era is in its year, and it is the 366th one only if the next year of the calendar is
a leap year. -/
theorem yearOfEra_spec {doe : ℕ} (h : doe < 146097) :
    yearOfEra doe < 400 ∧ ∃ doy, doe = yearStart (yearOfEra doe) + doy ∧
      (doy < 365 ∨ doy = 365 ∧ IsLeap (yearOfEra doe + 1)) := by
  obtain ⟨c, q, r, s, hc, hq, hr, hs, rfl⟩ := exists_cycles h
  rw [yearOfEra_cycles hc hq hr hs, yearStart_cycles hq hr]
  refine ⟨by omega, s, rfl, hs.imp_right fun hs => ⟨hs.1, ?_⟩⟩
  unfold IsLeap
  omega

theorem marchMonth_spec {doy : ℕ} (h : doy ≤ 365) :
    marchMonth doy < 12 ∧ monthStart (marchMonth doy) ≤ doy ∧
      doy < monthStart (marchMonth doy + 1) := by
  unfold monthStart marchMonth
  omega

/-- From March to December, the months begin where the formula says. -/
theorem monthStart_add_monthLength {mp : ℕ} (h : mp < 10) (year : ℕ) :
    monthStart mp + monthLength year (mp + 3) = monthStart (mp + 1) := by
  interval_cases mp <;> rfl

theorem sum_monthLength_march {mp : ℕ} (h : mp ≤ 10) (year : ℕ) :
    ∑ i ∈ range (mp + 2), monthLength year (i + 1) =
      31 + monthLength year 2 + monthStart mp := by
  induction mp with
  | zero => simp [sum_range_succ, monthLength, monthStart]
  | succ mp ih =>
    rw [sum_range_succ, ih (by omega), ← monthStart_add_monthLength h year, Nat.add_assoc]

/-- The first of January 1970. -/
def unixEpoch : Date := Date.firstOfYear 1970

theorem dayNumber_unixEpoch : unixEpoch.dayNumber = 719528 := by
  have h := sum_yearLength 1970
  rw [unixEpoch, Date.dayNumber_firstOfYear]
  omega

/-- The days of the calendar before a year and up to the end of its February. -/
theorem sum_yearLength_add_monthLength (year : ℕ) :
    ∑ i ∈ range year, yearLength i + monthLength year 2 + year / 100 =
      365 * year + year / 4 + year / 400 + 29 := by
  have hsum := sum_yearLength (year + 1)
  have hyear : yearLength year = monthLength year 2 + 337 := by
    simp only [yearLength, monthLength]
    split <;> rfl
  rw [sum_range_succ] at hsum
  omega

/-- From March to December, the year of the calendar is the year that begins in March. -/
theorem marchDate_of_lt {y doy : ℕ} (h : doy ≤ 365) (hlt : marchMonth doy < 10) :
    ∃ date : Date, marchDate y doy = (date.year, date.month, date.day) ∧
      date.dayNumber + y / 100 = 365 * y + y / 4 + y / 400 + doy + 60 := by
  obtain ⟨-, hstart, hend⟩ := marchMonth_spec h
  unfold marchDate
  generalize marchMonth doy = mp at *
  have hlen := monthStart_add_monthLength hlt y
  have hmonths := sum_monthLength_march (Nat.le_of_lt hlt) y
  have hyears := sum_yearLength_add_monthLength y
  refine ⟨⟨y, mp + 3, doy - monthStart mp + 1, by omega, by omega, by omega, by omega⟩, ?_, ?_⟩
  · simp only [if_pos hlt, if_neg (show ¬ mp + 3 ≤ 2 by omega), Nat.add_zero]
  · simp only [Date.dayNumber, Date.dayOfYear, Nat.add_sub_cancel, Nat.reduceSubDiff, hmonths]
    omega

/-- January and February belong to the next year of the calendar. -/
theorem marchDate_of_ge {y doy : ℕ} (h : doy < 365 ∨ doy = 365 ∧ IsLeap (y + 1))
    (hge : 10 ≤ marchMonth doy) :
    ∃ date : Date, marchDate y doy = (date.year, date.month, date.day) ∧
      date.dayNumber + y / 100 = 365 * y + y / 4 + y / 400 + doy + 60 := by
  have hdoy : doy ≤ 365 := by omega
  obtain ⟨hmp, hstart, hend⟩ := marchMonth_spec hdoy
  unfold marchDate
  generalize marchMonth doy = mp at *
  have hyears := sum_yearLength (y + 1)
  have hjanuary : monthStart 10 = 306 := rfl
  have hfebruary : monthStart 11 = 337 := rfl
  obtain rfl | rfl : mp = 10 ∨ mp = 11 := by omega
  · rw [show 10 + 1 = 11 from rfl] at hend
    refine ⟨⟨y + 1, 1, doy - monthStart 10 + 1, by omega, by omega, by omega, ?_⟩, rfl, ?_⟩
    · simp only [monthLength]
      omega
    · simp only [Date.dayNumber, Date.dayOfYear, range_zero, sum_empty, Nat.sub_self]
      omega
  · refine ⟨⟨y + 1, 2, doy - monthStart 11 + 1, by omega, by omega, by omega, ?_⟩, rfl, ?_⟩
    · simp only [monthLength]
      split_ifs with hleap
      · omega
      · have : doy < 365 := h.resolve_right fun h => hleap h.2
        omega
    · simp only [Date.dayNumber, Date.dayOfYear, monthLength, Nat.add_sub_cancel, Nat.reduceSub,
        sum_range_one]
      omega

theorem marchDate_spec {y doy : ℕ} (h : doy < 365 ∨ doy = 365 ∧ IsLeap (y + 1)) :
    ∃ date : Date, marchDate y doy = (date.year, date.month, date.day) ∧
      date.dayNumber + y / 100 = 365 * y + y / 4 + y / 400 + doy + 60 := by
  rcases Nat.lt_or_ge (marchMonth doy) 10 with hlt | hge
  · exact marchDate_of_lt (by omega) hlt
  · exact marchDate_of_ge h hge

theorem civil_date (days : ℕ) :
    ∃ date, civil days = (date.year, date.month, date.day) ∧ unixEpoch.after days = date := by
  unfold civil
  dsimp only
  generalize hz : days + 719468 = z
  have hdoe : z - z / 146097 * 146097 < 146097 := by omega
  obtain ⟨hyoe, doy, hdoy, hleap⟩ := yearOfEra_spec hdoe
  generalize hera : z / 146097 = era at *
  generalize hyear : yearOfEra (z - era * 146097) = yoe at *
  have hy : doy < 365 ∨ doy = 365 ∧ IsLeap (yoe + era * 400 + 1) := by
    refine hleap.imp_right fun h => ⟨h.1, ?_⟩
    have := h.2
    unfold IsLeap at *
    omega
  obtain ⟨date, hdate, hnumber⟩ := marchDate_spec hy
  refine ⟨date, ?_, ?_⟩
  · rwa [hdoy, Nat.add_sub_cancel_left]
  · rw [Date.after_eq_iff, dayNumber_unixEpoch]
    have hfour : (yoe + era * 400) / 4 = yoe / 4 + era * 100 := by omega
    have hcentury : (yoe + era * 400) / 100 = yoe / 100 + era * 4 := by omega
    have hyears : (yoe + era * 400) / 400 = era := by omega
    unfold yearStart at hdoy
    omega

/-! ### The computation on words -/

section Words

variable {x : Int64} {n : ℕ}

theorem holdsNat_yearOfEra (hx : HoldsNat x n) (hn : n < 146097) :
    HoldsNat ((x - x / 1460 + x / 36524 - x / 146096) / 365) (yearOfEra n) := by
  have h1460 : HoldsNat (x / 1460) (n / 1460) := hx.div (.ofNat (by decide))
  have h36524 : HoldsNat (x / 36524) (n / 36524) := hx.div (.ofNat (by decide))
  have h146096 : HoldsNat (x / 146096) (n / 146096) := hx.div (.ofNat (by decide))
  have hsum := ((hx.sub h1460 (by omega)).add h36524 (by omega)).sub h146096 (by omega)
  exact hsum.div (.ofNat (by decide))

theorem holdsNat_yearStart (hx : HoldsNat x n) (hn : n < 400) :
    HoldsNat (365 * x + x / 4 - x / 100) (yearStart n) := by
  have hdays : HoldsNat (365 * x) (365 * n) := HoldsNat.mul (.ofNat (by decide)) hx (by omega)
  have hfour : HoldsNat (x / 4) (n / 4) := hx.div (.ofNat (by decide))
  have hcentury : HoldsNat (x / 100) (n / 100) := hx.div (.ofNat (by decide))
  exact (hdays.add hfour (by omega)).sub hcentury (by omega)

theorem holdsNat_marchMonth (hx : HoldsNat x n) (hn : n ≤ 365) :
    HoldsNat ((5 * x + 2) / 153) (marchMonth n) := by
  have hmul : HoldsNat (5 * x) (5 * n) := HoldsNat.mul (.ofNat (by decide)) hx (by omega)
  have hadd : HoldsNat (5 * x + 2) (5 * n + 2) := hmul.add (.ofNat (by decide)) (by omega)
  exact hadd.div (.ofNat (by decide))

theorem holdsNat_monthStart (hx : HoldsNat x n) (hn : n < 12) :
    HoldsNat ((153 * x + 2) / 5) (monthStart n) := by
  have hmul : HoldsNat (153 * x) (153 * n) := HoldsNat.mul (.ofNat (by decide)) hx (by omega)
  have hadd : HoldsNat (153 * x + 2) (153 * n + 2) := hmul.add (.ofNat (by decide)) (by omega)
  exact hadd.div (.ofNat (by decide))

theorem holdsNat_month (hx : HoldsNat x n) (hn : n < 12) :
    HoldsNat (x + if x < 10 then 3 else -9) (if n < 10 then n + 3 else n - 9) := by
  have hlt : x < 10 ↔ n < 10 := hx.lt_iff (.ofNat (by decide))
  by_cases h : n < 10
  · rw [if_pos h, if_pos (hlt.mpr h)]
    exact hx.add (.ofNat (by decide)) (by omega)
  · rw [if_neg h, if_neg (mt hlt.mp h)]
    have hsub : HoldsNat (x - 9) (n - 9) := hx.sub (.ofNat (by decide)) (by omega)
    rwa [Int64.sub_eq_add_neg] at hsub

theorem holdsNat_year {month : Int64} {m : ℕ} (hx : HoldsNat x n) (hm : HoldsNat month m)
    (hn : n < 2 ^ 62) :
    HoldsNat (x + if month ≤ 2 then 1 else 0) (n + if m ≤ 2 then 1 else 0) := by
  have hle : month ≤ 2 ↔ m ≤ 2 := hm.le_iff (.ofNat (by decide))
  by_cases h : m ≤ 2
  · rw [if_pos h, if_pos (hle.mpr h)]
    exact hx.add (.ofNat (by decide)) (by omega)
  · rw [if_neg h, if_neg (mt hle.mp h)]
    exact hx.add (.ofNat (by decide)) (by omega)

/-- No step of the computation overflows. The days of the seconds that a word can count are below
`2 ^ 48`. -/
theorem holdsNat_civilFromDays {days : ℕ} (hx : HoldsNat x days) (hdays : days < 2 ^ 48) :
    HoldsNat (civilFromDays x).1 (civil days).1 ∧
      (civilFromDays x).2.1.toNat = (civil days).2.1 ∧
      (civilFromDays x).2.2.toNat = (civil days).2.2 := by
  have hz : HoldsNat (x + 719468) (days + 719468) := hx.add (.ofNat (by decide)) (by omega)
  have hpos : x + 719468 ≥ 0 := (HoldsNat.le_iff (.ofNat (by decide)) hz).mpr (Nat.zero_le _)
  have hera : HoldsNat ((x + 719468) / 146097) ((days + 719468) / 146097) :=
    hz.div (.ofNat (by decide))
  unfold civilFromDays civil marchDate
  simp only [if_pos hpos]
  generalize x + 719468 = z at *
  generalize hk : days + 719468 = k at *
  have hmul : HoldsNat (z / 146097 * 146097) (k / 146097 * 146097) :=
    hera.mul (.ofNat (by decide)) (by omega)
  have hdoe := hz.sub hmul (by omega)
  have hdoelt : k - k / 146097 * 146097 < 146097 := by omega
  generalize z - z / 146097 * 146097 = doe at *
  generalize k - k / 146097 * 146097 = e at *
  obtain ⟨hyearlt, t, hdoyeq, ht⟩ := yearOfEra_spec hdoelt
  have hyoe := holdsNat_yearOfEra hdoe hdoelt
  have hy := hyoe.add (hera.mul (.ofNat (by decide : 400 < 2 ^ 63)) (by omega)) (by omega)
  have hdoy := hdoe.sub (holdsNat_yearStart hyoe hyearlt) (by omega)
  have hdoyle : e - yearStart (yearOfEra e) ≤ 365 := by omega
  obtain ⟨hmplt, hmple, -⟩ := marchMonth_spec hdoyle
  have hmp := holdsNat_marchMonth hdoy hdoyle
  have hmonth := holdsNat_month hmp hmplt
  have hday := (hdoy.sub (holdsNat_monthStart hmp hmplt) hmple).add
    (.ofNat (by decide : 1 < 2 ^ 63)) (by omega)
  have hyear := holdsNat_year hy hmonth (by omega)
  exact ⟨hyear, hmonth.toNat_toUInt64, hday.toNat_toUInt64⟩

end Words

theorem holdsNat_dayOf (seconds : UInt64) : HoldsNat (dayOf seconds) (seconds.toNat / 86400) := by
  have hlt := seconds.toNat_lt
  have hdiv : (seconds / 86400).toNat = seconds.toNat / 86400 := UInt64.toNat_div seconds 86400
  unfold dayOf
  rw [← hdiv]
  exact HoldsNat.of_toInt64 (by omega)

theorem exists_date_civilFromDays (seconds : UInt64) :
    ∃ date : Date, HoldsNat (civilFromDays (dayOf seconds)).1 date.year ∧
      (civilFromDays (dayOf seconds)).2.1.toNat = date.month ∧
      (civilFromDays (dayOf seconds)).2.2.toNat = date.day ∧
      unixEpoch.after (seconds.toNat / 86400) = date := by
  have hlt := seconds.toNat_lt
  obtain ⟨hyear, hmonth, hday⟩ := holdsNat_civilFromDays (holdsNat_dayOf seconds) (by omega)
  obtain ⟨date, hcivil, hafter⟩ := civil_date (seconds.toNat / 86400)
  rw [hcivil] at hyear hmonth hday
  exact ⟨date, hyear, hmonth, hday, hafter⟩

/-! ### Order of timestamps -/

/-- The text of a date. -/
def dateText (date : Date) : Text :=
  zeroPad 4 date.year ++ (zeroPad 2 date.month ++ zeroPad 2 date.day)

/-- The text of a second of the day. -/
def timeText (n : ℕ) : Text :=
  zeroPad 2 (n / 3600) ++ (zeroPad 2 (n % 3600 / 60) ++ zeroPad 2 (n % 60))

section Texts

variable {a b : Date} {m n : ℕ}

/-- Up to the year 9999, the texts of dates are ordered as the dates. -/
theorem dateText_lt_iff (ha : a.year ≤ 9999) (hb : b.year ≤ 9999) :
    dateText a < dateText b ↔ a.dayNumber < b.dayNumber := by
  have ham := a.month_le
  have hbm := b.month_le
  have had := a.day_le_31
  have hbd := b.day_le_31
  unfold dateText
  rw [zeroPad_append_lt_iff (by decide) (by omega) (by omega),
    zeroPad_append_lt_iff (by decide) (by omega) (by omega),
    zeroPad_lt_iff (by decide) (by omega) (by omega), Date.dayNumber_lt_iff]

theorem length_dateText (ha : a.year ≤ 9999) : (dateText a).length = 8 := by
  have ham := a.month_le
  have had := a.day_le_31
  simp only [dateText, List.length_append]
  rw [length_zeroPad (by decide) (by omega), length_zeroPad (by decide) (by omega),
    length_zeroPad (by decide) (by omega)]

theorem dateText_eq_iff (ha : a.year ≤ 9999) (hb : b.year ≤ 9999) :
    dateText a = dateText b ↔ a.dayNumber = b.dayNumber := by
  refine ⟨?_, fun h => congrArg dateText (Date.dayNumber_injective h)⟩
  exact eq_of_lt_iff_lt (dateText_lt_iff ha hb) (dateText_lt_iff hb ha)

theorem timeText_lt_iff (hm : m < 86400) (hn : n < 86400) : timeText m < timeText n ↔ m < n := by
  unfold timeText
  rw [zeroPad_append_lt_iff (by decide) (by omega) (by omega),
    zeroPad_append_lt_iff (by decide) (by omega) (by omega),
    zeroPad_lt_iff (by decide) (by omega) (by omega)]
  omega

end Texts

/-- The year of the timestamp of a second. -/
def yearAt (seconds : UInt64) : Int64 := (civilFromDays (dayOf seconds)).1

theorem formatSigned_eq {x : Int64} {n : ℕ} (hx : HoldsNat x n) (w : ℕ) :
    formatSigned w x = zeroPad w n := by
  have hlt : x < 0 ↔ n < 0 := hx.lt_iff (.ofNat (by decide))
  rw [formatSigned, if_neg (mt hlt.mp (Nat.not_lt_zero n)), hx, Int.natAbs_natCast]

theorem timestampAt_eq {seconds : UInt64} (h : yearAt seconds ≤ 9999) :
    ∃ date : Date, date.year ≤ 9999 ∧ date.dayNumber = 719528 + seconds.toNat / 86400 ∧
      timestampAt seconds = dateText date ++ '-' :: timeText (seconds.toNat % 86400) := by
  obtain ⟨date, hyear, hmonth, hday, hafter⟩ := exists_date_civilFromDays seconds
  have hle : date.year ≤ 9999 := (hyear.le_iff (.ofNat (by decide))).mp h
  refine ⟨date, hle, ?_, ?_⟩
  · rw [Date.after_eq_iff, dayNumber_unixEpoch] at hafter
    exact hafter
  · simp only [timestampAt, formatSigned_eq hyear, formatUnsigned, hmonth, hday, UInt64.toNat_div,
      UInt64.toNat_mod, dateText, timeText, List.append_assoc]
    rfl

/-- Up to the year 9999, timestamps are ordered as the seconds they are made of. -/
theorem timestampAt_lt_iff {s t : UInt64} (hs : yearAt s ≤ 9999) (ht : yearAt t ≤ 9999) :
    timestampAt s < timestampAt t ↔ s < t := by
  obtain ⟨a, ha, hanum, hatext⟩ := timestampAt_eq hs
  obtain ⟨b, hb, hbnum, hbtext⟩ := timestampAt_eq ht
  rw [hatext, hbtext, append_lt_append_iff ((length_dateText ha).trans (length_dateText hb).symm),
    dateText_lt_iff ha hb, dateText_eq_iff ha hb, List.cons_lt_cons_iff,
    timeText_lt_iff (Nat.mod_lt _ (by decide)) (Nat.mod_lt _ (by decide)), hanum, hbnum,
    UInt64.lt_iff_toNat_lt]
  simp only [Char.lt_irrefl, false_or, true_and]
  omega

theorem timestampAt_eq_iff {s t : UInt64} (hs : yearAt s ≤ 9999) (ht : yearAt t ≤ 9999) :
    timestampAt s = timestampAt t ↔ s = t := by
  refine ⟨fun h => ?_, congrArg timestampAt⟩
  have hst := (timestampAt_lt_iff hs ht).trans UInt64.lt_iff_toNat_lt
  have hts := (timestampAt_lt_iff ht hs).trans UInt64.lt_iff_toNat_lt
  exact UInt64.toNat_inj.mp (eq_of_lt_iff_lt hst hts h)

namespace SystemTime

theorem seconds_ofSeconds (s : UInt64) : (ofSeconds s).seconds = s := by
  simp [seconds, secondsSinceEpoch, ofSeconds]

theorem ofSeconds_lt_iff {s t : UInt64} : ofSeconds s < ofSeconds t ↔ s < t := by
  have h : ofSeconds s < ofSeconds t ↔
      (s.toNat : ℤ) < t.toNat ∨ (s.toNat : ℤ) = t.toNat ∧ 0 < 0 := Iff.rfl
  rw [h, UInt64.lt_iff_toNat_lt]
  omega

theorem not_seconds_lt {t₁ t₂ : SystemTime} (h : t₁ < t₂) : ¬ t₂.seconds < t₁.seconds := by
  have hle : t₁.secs ≤ t₂.secs := h.elim Int.le_of_lt fun h => Int.le_of_eq h.1
  have h₁ := t₁.secs_lt
  have h₂ := t₂.secs_lt
  simp only [seconds, secondsSinceEpoch, UInt64.lt_iff_toNat_lt]
  split_ifs <;> simp <;> omega

end SystemTime

/-- The date of every second is the one reached by counting days from the first of January 1970, and
timestamps are compared as texts as the times are in whole seconds, up to the year 9999. -/
theorem utcTimestamp_order :
    (∀ seconds : UInt64, ∃ date : Date,
      (civilFromDays (dayOf seconds)).1.toInt = date.year ∧
      (civilFromDays (dayOf seconds)).2.1.toNat = date.month ∧
      (civilFromDays (dayOf seconds)).2.2.toNat = date.day ∧
      unixEpoch.after (seconds.toNat / 86400) = date) ∧
    (∀ t₁ t₂ : SystemTime, yearAt t₁.seconds ≤ 9999 → yearAt t₂.seconds ≤ 9999 →
      (utcTimestamp t₁ < utcTimestamp t₂ ↔ t₁.seconds < t₂.seconds) ∧
      (utcTimestamp t₁ = utcTimestamp t₂ ↔ t₁.seconds = t₂.seconds) ∧
      (t₁ < t₂ → ¬ utcTimestamp t₂ < utcTimestamp t₁)) ∧
    ∀ s₁ s₂ : UInt64, yearAt s₁ ≤ 9999 → yearAt s₂ ≤ 9999 →
      (utcTimestamp (.ofSeconds s₁) < utcTimestamp (.ofSeconds s₂) ↔
        SystemTime.ofSeconds s₁ < SystemTime.ofSeconds s₂) := by
  refine ⟨exists_date_civilFromDays, fun t₁ t₂ h₁ h₂ => ?_, fun s₁ s₂ h₁ h₂ => ?_⟩
  · refine ⟨timestampAt_lt_iff h₁ h₂, timestampAt_eq_iff h₁ h₂, fun hlt => ?_⟩
    exact mt (timestampAt_lt_iff h₂ h₁).mp (SystemTime.not_seconds_lt hlt)
  · rw [SystemTime.ofSeconds_lt_iff, ← timestampAt_lt_iff h₁ h₂, utcTimestamp, utcTimestamp,
      SystemTime.seconds_ofSeconds, SystemTime.seconds_ofSeconds]

theorem utcTimestamp_order_2024 :
    yearAt 1704067205 ≤ 9999 ∧
      utcTimestamp (.ofSeconds 1704067205) = "20240101-000005".toList ∧
      utcTimestamp (.ofSeconds 0) < utcTimestamp (.ofSeconds 1704067205) := by
  have h₀ : yearAt 0 ≤ 9999 := by decide +kernel
  have h₁ : yearAt 1704067205 ≤ 9999 := by decide +kernel
  refine ⟨h₁, by decide +kernel, ?_⟩
  have hlt : SystemTime.ofSeconds 0 < .ofSeconds 1704067205 :=
    SystemTime.ofSeconds_lt_iff.mpr (by decide)
  exact (utcTimestamp_order.2.2 0 1704067205 h₀ h₁).mpr hlt

end Beethoven.Cli
