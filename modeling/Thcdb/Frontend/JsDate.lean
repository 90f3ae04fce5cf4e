import Thcdb.Calendar.Gregorian

namespace Thcdb.Frontend.Js

open Thcdb.Calendar (dayNumber yearOfDay monthOfDay dateOfDay)

/-- The numbers that digits, `Math.min` and the getters of a date give. -/
inductive Number where
  | nan
  | int (n : ℤ)
  deriving DecidableEq, Repr

namespace Number

/-- `<`, which no comparison with `NaN` satisfies. -/
def lt : Number → Number → Bool
  | int m, int n => m < n
  | _, _ => false

def min : Number → Number → Number
  | int m, int n => int (Min.min m n)
  | _, _ => nan

def add : Number → Number → Number
  | int m, int n => int (m + n)
  | _, _ => nan

@[simp] theorem lt_int (m n : ℤ) : lt (int m) (int n) = decide (m < n) := rfl

@[simp] theorem lt_nan (n : Number) : lt nan n = false := rfl

@[simp] theorem min_int (m n : ℤ) : min (int m) (int n) = int (Min.min m n) := rfl

@[simp] theorem min_nan_left (n : Number) : min nan n = nan := rfl

@[simp] theorem min_nan_right (n : Number) : min n nan = nan := by
  cases n <;> rfl

@[simp] theorem add_int (m n : ℤ) : add (int m) (int n) = int (m + n) := rfl

@[simp] theorem add_nan (n : Number) : add nan n = nan := rfl

end Number

def msPerDay : ℤ := 86400000

/-- The milliseconds since the epoch of a valid date. -/
structure TimeValue where
  ms : ℤ
  bounds : -8640000000000000 ≤ ms ∧ ms ≤ 8640000000000000
  deriving DecidableEq

/-- A `Date`; one with no time value is invalid. -/
abbrev Date := Option TimeValue

def timeClip : Number → Date
  | .int t =>
    if h : -8640000000000000 ≤ t ∧ t ≤ 8640000000000000 then some ⟨t, h⟩ else none
  | .nan => none

/-- Two-digit years are years of the twentieth century. -/
def makeFullYear : Number → Number
  | .int year => .int (if 0 ≤ year ∧ year ≤ 99 then 1900 + year else year)
  | .nan => .nan

/-- Months are counted from zero, and months and days run over into the next year and month. -/
def makeDay : Number → Number → Number → Number
  | .int year, .int month, .int date =>
    .int (dayNumber (year + month / 12) (month % 12 + 1) 1 + date - 1)
  | _, _, _ => .nan

def makeDate : Number → ℤ → Number
  | .int day, time => .int (day * msPerDay + time)
  | .nan, _ => .nan

namespace Date

/-- `new Date(Date.UTC(year, month, date))` -/
def UTC (year month date : Number) : Date :=
  timeClip (makeDate (makeDay (makeFullYear year) month date) 0)

def getUTCFullYear : Date → Number
  | some t => .int (yearOfDay (t.ms / msPerDay))
  | none => .nan

def getUTCMonth : Date → Number
  | some t => .int (monthOfDay (t.ms / msPerDay) - 1)
  | none => .nan

def getUTCDate : Date → Number
  | some t => .int (dateOfDay (t.ms / msPerDay))
  | none => .nan

/-- An invalid date counts as the epoch here. -/
def setUTCFullYear (self : Date) (year : Number) : Date :=
  let t := self.elim 0 (·.ms)
  timeClip (makeDate (makeDay year (.int (monthOfDay (t / msPerDay) - 1))
    (.int (dateOfDay (t / msPerDay)))) (t % msPerDay))

end Date

open Thcdb.Calendar

/-- The days whose midnight is a time value. -/
def InRange (n : ℤ) : Prop := -100000000 ≤ n ∧ n ≤ 100000000

instance (n : ℤ) : Decidable (InRange n) := inferInstanceAs (Decidable (_ ∧ _))

def midnight (n : ℤ) (h : InRange n) : TimeValue :=
  ⟨n * msPerDay, by unfold msPerDay; unfold InRange at h; omega⟩

theorem midnight_day {n : ℤ} (h : InRange n) : (midnight n h).ms / msPerDay = n :=
  Int.mul_ediv_cancel n (by decide)

theorem midnight_time {n : ℤ} (h : InRange n) : (midnight n h).ms % msPerDay = 0 :=
  Int.mul_emod_left n msPerDay

theorem timeClip_midnight {n : ℤ} (h : InRange n) :
    timeClip (makeDate (.int n) 0) = some (midnight n h) := by
  have hb := (midnight n h).bounds
  simp only [makeDate, add_zero, timeClip]
  exact dif_pos hb

theorem timeClip_beyond {n : ℤ} (h : ¬ InRange n) : timeClip (makeDate (.int n) 0) = none := by
  refine dif_neg fun hb => h ?_
  unfold msPerDay at hb
  unfold InRange
  omega

theorem makeDay_date (c : CivilDate) :
    makeDay (.int c.year) (.int (c.month - 1)) (.int c.day) = .int c.toDay := by
  have h1 := c.one_le_month
  have h12 := c.month_le
  rw [makeDay, Int.ediv_eq_zero_of_lt (by omega) (by omega),
    Int.emod_eq_of_lt (by omega) (by omega), CivilDate.toDay]
  simp only [dayNumber, add_zero, sub_add_cancel]
  congr 1
  omega

/-- The day before the first of the next month. -/
theorem makeDay_eve (y : ℤ) {m : ℤ} (h1 : 1 ≤ m) (h12 : m ≤ 12) :
    makeDay (.int y) (.int m) (.int 0) = .int (dayNumber y m (daysInMonth y m)) := by
  rw [← dayNumber_eve y h1 h12]
  simp [makeDay]

end Thcdb.Frontend.Js
