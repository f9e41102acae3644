import Mathlib.Algebra.BigOperators.Group.Finset.Basic
import Mathlib.Algebra.Order.BigOperators.Group.Finset
import Mathlib.Logic.Function.Iterate

/-!
# The Gregorian calendar

The proleptic Gregorian calendar from the year zero on. A date carries the proof that its month and
its day exist. Dates are numbered by the days that come before them: the lengths of the earlier
years, of the earlier months of the year, and the earlier days of the month. The number of a date
grows by one from a day to the next, and it orders dates by year, month and day.

## Main definitions

* `IsLeap`, `yearLength`, `monthLength`.
* `Date`, `Date.firstOfYear`, `Date.next`, `Date.after`: dates, and counting forward from one.
* `Date.dayOfYear`, `Date.dayNumber`: the days before a date in its year, and since the year zero.

## Main results

* `sum_range_add_lt_iff`: positions in consecutive blocks are ordered by block, then inside it.
* `sum_yearLength`: the days before a year in closed form.
* `Date.dayNumber_lt_iff`: the numbers of dates are ordered as year, month and day.
* `Date.after_eq_iff`: counting days is adding to the number of a date.
-/

namespace Beethoven.Lib

open Finset

/-! ### Positions in consecutive blocks -/

section Blocks

variable {f : ℕ → ℕ} {i j x y : ℕ}

theorem sum_range_add_lt_of_lt (hx : x < f i) (hij : i < j) :
    ∑ k ∈ range i, f k + x < ∑ k ∈ range j, f k :=
  calc ∑ k ∈ range i, f k + x
      < ∑ k ∈ range i, f k + f i := Nat.add_lt_add_left hx _
    _ = ∑ k ∈ range (i + 1), f k := (sum_range_succ f i).symm
    _ ≤ ∑ k ∈ range j, f k := sum_le_sum_of_subset (range_mono hij)

/-- Block `k` has `f k` positions. A position comes before another if its block does, or if it comes
before it in the same block. -/
theorem sum_range_add_lt_iff (hx : x < f i) (hy : y < f j) :
    ∑ k ∈ range i, f k + x < ∑ k ∈ range j, f k + y ↔ i < j ∨ i = j ∧ x < y := by
  rcases Nat.lt_trichotomy i j with hij | rfl | hji
  · have := sum_range_add_lt_of_lt hx hij
    omega
  · omega
  · have := sum_range_add_lt_of_lt hy hji
    omega

end Blocks

/-! ### Years and months -/

/-- The years with a twenty-ninth of February. -/
def IsLeap (year : ℕ) : Prop := year % 4 = 0 ∧ (year % 100 ≠ 0 ∨ year % 400 = 0)

instance (year : ℕ) : Decidable (IsLeap year) := inferInstanceAs (Decidable (_ ∧ _))

/-- The days of a year. -/
def yearLength (year : ℕ) : ℕ := if IsLeap year then 366 else 365

/-- The days of a month. -/
def monthLength (year : ℕ) : ℕ → ℕ
  | 2 => if IsLeap year then 29 else 28
  | 4 | 6 | 9 | 11 => 30
  | _ => 31

theorem one_le_monthLength (year month : ℕ) : 1 ≤ monthLength year month := by
  unfold monthLength
  split
  · split <;> decide
  all_goals decide

theorem monthLength_le (year month : ℕ) : monthLength year month ≤ 31 := by
  unfold monthLength
  split
  · split <;> decide
  all_goals decide

theorem sum_monthLength (year : ℕ) :
    ∑ i ∈ range 12, monthLength year (i + 1) = yearLength year := by
  simp only [sum_range_succ, range_zero, sum_empty, monthLength, yearLength]
  split <;> rfl

/-- A leap year every four years, except for every hundred years, except for every four hundred. -/
theorem yearLength_add (year : ℕ) :
    yearLength year + (if year % 100 = 0 then 1 else 0) =
      365 + (if year % 4 = 0 then 1 else 0) + if year % 400 = 0 then 1 else 0 := by
  have hera : year % 400 = 0 → year % 100 = 0 := by omega
  have hcentury : year % 100 = 0 → year % 4 = 0 := by omega
  simp only [yearLength, IsLeap]
  grind

theorem sum_yearLength (year : ℕ) :
    ∑ i ∈ range year, yearLength i + (year + 99) / 100 =
      365 * year + (year + 3) / 4 + (year + 399) / 400 := by
  induction year with
  | zero => rfl
  | succ year ih =>
    have hyear := yearLength_add year
    have hfour : (year + 1 + 3) / 4 = (year + 3) / 4 + if year % 4 = 0 then 1 else 0 := by
      split <;> omega
    have hcentury :
        (year + 1 + 99) / 100 = (year + 99) / 100 + if year % 100 = 0 then 1 else 0 := by
      split <;> omega
    have hera : (year + 1 + 399) / 400 = (year + 399) / 400 + if year % 400 = 0 then 1 else 0 := by
      split <;> omega
    rw [sum_range_succ, hfour, hcentury, hera]
    omega

/-! ### Dates -/

/-- A date of the calendar. -/
@[ext]
structure Date where
  year : ℕ
  month : ℕ
  day : ℕ
  one_le_month : 1 ≤ month
  month_le : month ≤ 12
  one_le_day : 1 ≤ day
  day_le : day ≤ monthLength year month
  deriving DecidableEq

namespace Date

variable {a b : Date}

/-- The first day of a year. -/
def firstOfYear (year : ℕ) : Date :=
  ⟨year, 1, 1, le_rfl, by decide, le_rfl, one_le_monthLength _ _⟩

/-- The day after a date. -/
def next (a : Date) : Date :=
  if hd : a.day < monthLength a.year a.month then
    { a with day := a.day + 1, one_le_day := Nat.le_add_left 1 _, day_le := hd }
  else if hm : a.month < 12 then
    ⟨a.year, a.month + 1, 1, Nat.le_add_left 1 _, hm, le_rfl, one_le_monthLength _ _⟩
  else
    firstOfYear (a.year + 1)

/-- The date `n` days after a date. -/
def after (a : Date) (n : ℕ) : Date := next^[n] a

/-- The days of the year that come before a date. -/
def dayOfYear (a : Date) : ℕ :=
  ∑ i ∈ range (a.month - 1), monthLength a.year (i + 1) + (a.day - 1)

/-- The days of the calendar that come before a date. -/
def dayNumber (a : Date) : ℕ := ∑ i ∈ range a.year, yearLength i + a.dayOfYear

theorem dayNumber_firstOfYear (year : ℕ) :
    (firstOfYear year).dayNumber = ∑ i ∈ range year, yearLength i := by
  simp [dayNumber, dayOfYear, firstOfYear]

theorem day_le_31 (a : Date) : a.day ≤ 31 := Nat.le_trans a.day_le (monthLength_le _ _)

/-! ### Order of dates -/

theorem day_sub_one_lt (a : Date) : a.day - 1 < monthLength a.year (a.month - 1 + 1) := by
  rw [Nat.sub_add_cancel a.one_le_month]
  have := a.one_le_day
  have := a.day_le
  omega

theorem dayOfYear_lt (a : Date) : a.dayOfYear < yearLength a.year := by
  rw [← sum_monthLength]
  have hm := a.month_le
  exact sum_range_add_lt_of_lt a.day_sub_one_lt (by omega)

/-- In one year, dates are numbered in the order of month and day. -/
theorem dayOfYear_lt_iff (h : a.year = b.year) :
    a.dayOfYear < b.dayOfYear ↔ a.month < b.month ∨ a.month = b.month ∧ a.day < b.day := by
  have hb := b.day_sub_one_lt
  unfold dayOfYear
  rw [← h] at hb ⊢
  rw [sum_range_add_lt_iff (f := fun i => monthLength a.year (i + 1)) a.day_sub_one_lt hb]
  have := a.one_le_month
  have := b.one_le_month
  have := a.one_le_day
  have := b.one_le_day
  omega

/-- Dates are numbered in the order of year, month and day. -/
theorem dayNumber_lt_iff :
    a.dayNumber < b.dayNumber ↔ a.year < b.year ∨
      a.year = b.year ∧ (a.month < b.month ∨ a.month = b.month ∧ a.day < b.day) := by
  unfold dayNumber
  rw [sum_range_add_lt_iff a.dayOfYear_lt b.dayOfYear_lt]
  refine or_congr_right (and_congr_right fun h => ?_)
  exact dayOfYear_lt_iff h

theorem dayNumber_injective : Function.Injective dayNumber := by
  intro a b h
  have hab := mt dayNumber_lt_iff.mpr h.not_lt
  have hba := mt dayNumber_lt_iff.mpr h.not_gt
  ext <;> omega

/-! ### Counting days -/

theorem dayNumber_next (a : Date) : a.next.dayNumber = a.dayNumber + 1 := by
  have hm := a.one_le_month
  have hd := a.one_le_day
  have hle := a.day_le
  unfold next
  split_ifs with hday hmonth
  · simp only [dayNumber, dayOfYear]
    omega
  · -- the last day of a month: the whole month is added
    have hsum := sum_range_succ (fun i => monthLength a.year (i + 1)) (a.month - 1)
    rw [Nat.sub_add_cancel hm] at hsum
    simp only [dayNumber, dayOfYear, Nat.add_sub_cancel, hsum]
    omega
  · -- the last day of a year: its months make up the year
    have hlast : a.month = 12 := by
      have := a.month_le
      omega
    have hsum := sum_range_succ (fun i => monthLength a.year (i + 1)) 11
    rw [sum_monthLength] at hsum
    rw [hlast] at hday hle
    rw [dayNumber_firstOfYear, sum_range_succ, dayNumber, dayOfYear, hlast]
    simp only [Nat.reduceAdd, Nat.reduceSub] at hsum ⊢
    omega

theorem dayNumber_after (a : Date) (n : ℕ) : (a.after n).dayNumber = a.dayNumber + n := by
  induction n with
  | zero => rfl
  | succ n ih =>
    have h : a.after (n + 1) = (a.after n).next := Function.iterate_succ_apply' next n a
    rw [h, dayNumber_next, ih, Nat.add_assoc]

/-- Counting days forward is adding to the number of a date. -/
theorem after_eq_iff {n : ℕ} : a.after n = b ↔ b.dayNumber = a.dayNumber + n := by
  rw [← dayNumber_after, eq_comm, dayNumber_injective.eq_iff]

end Date

end Beethoven.Lib
