import Mathlib.Algebra.Order.Group.Int
import Mathlib.Algebra.Order.Ring.Int
import Mathlib.Logic.Equiv.Defs
import Mathlib.Order.Monotone.Basic
import Mathlib.Tactic.IntervalCases
import Mathlib.Tactic.NormNum
import Mathlib.Tactic.Ring
import Mathlib.Data.Int.ConditionallyCompleteOrder

namespace Thcdb.Calendar

def IsLeap (y : ℤ) : Prop := y % 4 = 0 ∧ (y % 100 ≠ 0 ∨ y % 400 = 0)

instance (y : ℤ) : Decidable (IsLeap y) := inferInstanceAs (Decidable (_ ∧ _))

def leapDays (y : ℤ) : ℤ := if IsLeap y then 1 else 0

/-- The days from 1 January 1970 to 1 January of `y`. -/
def daysBeforeYear (y : ℤ) : ℤ :=
  365 * (y - 1970) + (y - 1969) / 4 - (y - 1901) / 100 + (y - 1601) / 400

def daysInMonth (y m : ℤ) : ℤ :=
  if m = 2 then 28 + leapDays y
  else if m = 4 ∨ m = 6 ∨ m = 9 ∨ m = 11 then 30
  else 31

/-- The days from 1 January to the first of the month. -/
def daysBeforeMonth (y m : ℤ) : ℤ :=
  if m ≤ 1 then 0
  else if m = 2 then 31
  else leapDays y +
    if m = 3 then 59 else if m = 4 then 90 else if m = 5 then 120 else if m = 6 then 151
    else if m = 7 then 181 else if m = 8 then 212 else if m = 9 then 243 else if m = 10 then 273
    else if m = 11 then 304 else if m = 12 then 334 else 365

def dayNumber (y m d : ℤ) : ℤ := daysBeforeYear y + daysBeforeMonth y m + d - 1

/-- The mean year has `146097 / 400` days; the year it gives is at most one off. -/
def yearOfDay (n : ℤ) : ℤ :=
  let y := 1970 + 400 * n / 146097
  if n < daysBeforeYear y then y - 1
  else if n < daysBeforeYear (y + 1) then y
  else y + 1

/-- The last of the first `k + 1` months that has begun on the day `n` of a year, the days counted
from zero. -/
def lastMonth (y n : ℤ) : ℕ → ℤ
  | 0 => 1
  | k + 1 => if daysBeforeMonth y (k + 2) ≤ n then k + 2 else lastMonth y n k

def monthOfYearDay (y n : ℤ) : ℤ := lastMonth y n 11

def monthOfDay (n : ℤ) : ℤ :=
  monthOfYearDay (yearOfDay n) (n - daysBeforeYear (yearOfDay n))

def dateOfDay (n : ℤ) : ℤ :=
  n - daysBeforeYear (yearOfDay n) - daysBeforeMonth (yearOfDay n) (monthOfDay n) + 1

@[ext] structure CivilDate where
  year : ℤ
  month : ℤ
  day : ℤ
  one_le_month : 1 ≤ month
  month_le : month ≤ 12
  one_le_day : 1 ≤ day
  day_le : day ≤ daysInMonth year month

theorem leapDays_eq (y : ℤ) : leapDays y = 0 ∨ leapDays y = 1 := by
  unfold leapDays
  split <;> simp

theorem daysBeforeYear_succ (y : ℤ) :
    daysBeforeYear (y + 1) = daysBeforeYear y + 365 + leapDays y := by
  unfold daysBeforeYear leapDays IsLeap
  split_ifs <;> omega

theorem daysInMonth_pos (y m : ℤ) : 28 ≤ daysInMonth y m ∧ daysInMonth y m ≤ 31 := by
  have hl := leapDays_eq y
  unfold daysInMonth
  split_ifs <;> omega

/-- A month is followed by the next one. -/
theorem daysBeforeMonth_succ (y : ℤ) {m : ℤ} (h1 : 1 ≤ m) (h12 : m ≤ 12) :
    daysBeforeMonth y (m + 1) = daysBeforeMonth y m + daysInMonth y m := by
  unfold daysBeforeMonth daysInMonth
  interval_cases m <;> norm_num <;> omega

theorem daysBeforeMonth_one (y : ℤ) : daysBeforeMonth y 1 = 0 := rfl

/-- December ends with the year. -/
theorem daysBeforeMonth_thirteen (y : ℤ) : daysBeforeMonth y 13 = 365 + leapDays y := by
  simp only [daysBeforeMonth]
  omega

theorem strictMono_daysBeforeYear : StrictMono daysBeforeYear := by
  refine strictMono_int_of_lt_succ fun y => ?_
  have hy := daysBeforeYear_succ y
  have hl := leapDays_eq y
  omega

/-- The day on which a month ends is the eve of the next month's first. -/
theorem dayNumber_eve (y : ℤ) {m : ℤ} (h1 : 1 ≤ m) (h12 : m ≤ 12) :
    dayNumber (y + m / 12) (m % 12 + 1) 1 - 1 = dayNumber y m (daysInMonth y m) := by
  have hm := daysBeforeMonth_succ y h1 h12
  obtain h | h : m = 12 ∨ m < 12 := by omega
  · subst h
    have hd := daysBeforeMonth_thirteen y
    have hy := daysBeforeYear_succ y
    norm_num [dayNumber, daysBeforeMonth_one] at hm ⊢
    omega
  · rw [Int.ediv_eq_zero_of_lt (by omega) h, Int.emod_eq_of_lt (by omega) h]
    simp only [dayNumber, add_zero]
    omega

theorem daysBeforeYear_yearOfDay (n : ℤ) :
    daysBeforeYear (yearOfDay n) ≤ n ∧ n < daysBeforeYear (yearOfDay n + 1) := by
  have hlow : daysBeforeYear (1970 + 400 * n / 146097 - 1) ≤ n := by
    unfold daysBeforeYear
    omega
  have hhigh : n < daysBeforeYear (1970 + 400 * n / 146097 + 1 + 1) := by
    unfold daysBeforeYear
    omega
  simp only [yearOfDay]
  split_ifs with h1 h2
  · exact ⟨hlow, by simpa using h1⟩
  · exact ⟨not_lt.mp h1, h2⟩
  · exact ⟨not_lt.mp h2, hhigh⟩

theorem yearOfDay_eq {n y : ℤ} (h : daysBeforeYear y ≤ n) (h' : n < daysBeforeYear (y + 1)) :
    yearOfDay n = y := by
  obtain ⟨hn, hn'⟩ := daysBeforeYear_yearOfDay n
  have h1 : y < yearOfDay n + 1 := strictMono_daysBeforeYear.lt_iff_lt.mp (h.trans_lt hn')
  have h2 : yearOfDay n < y + 1 := strictMono_daysBeforeYear.lt_iff_lt.mp (hn.trans_lt h')
  omega

theorem lastMonth_spec {y n : ℤ} (h0 : 0 ≤ n) (k : ℕ) (h : n < daysBeforeMonth y (k + 2)) :
    1 ≤ lastMonth y n k ∧ lastMonth y n k ≤ k + 1 ∧
      daysBeforeMonth y (lastMonth y n k) ≤ n ∧ n < daysBeforeMonth y (lastMonth y n k + 1) := by
  induction k with
  | zero => exact ⟨le_rfl, le_rfl, h0, h⟩
  | succ k ih =>
    rw [lastMonth]
    split_ifs with hk
    · refine ⟨by omega, by push_cast; omega, hk, ?_⟩
      rwa [show (k : ℤ) + 2 + 1 = (k + 1 : ℕ) + 2 by push_cast; ring]
    · obtain ⟨h1, h2, h3⟩ := ih (not_le.mp hk)
      exact ⟨h1, by push_cast; omega, h3⟩

theorem monthOfYearDay_spec {y n : ℤ} (h0 : 0 ≤ n) (h : n < 365 + leapDays y) :
    1 ≤ monthOfYearDay y n ∧ monthOfYearDay y n ≤ 12 ∧
      daysBeforeMonth y (monthOfYearDay y n) ≤ n ∧
      n < daysBeforeMonth y (monthOfYearDay y n + 1) := by
  rw [← daysBeforeMonth_thirteen] at h
  exact lastMonth_spec h0 11 h

theorem monotone_daysBeforeMonth (y : ℤ) : Monotone (daysBeforeMonth y) := by
  refine monotone_int_of_le_succ fun m => ?_
  obtain h | h | h : m ≤ 0 ∨ (1 ≤ m ∧ m ≤ 12) ∨ 13 ≤ m := by omega
  · rw [daysBeforeMonth, daysBeforeMonth, if_pos (by omega), if_pos (by omega)]
  · have hm := daysInMonth_pos y m
    rw [daysBeforeMonth_succ y h.1 h.2]
    omega
  · have hsame : daysBeforeMonth y (m + 1) = daysBeforeMonth y m := by
      unfold daysBeforeMonth
      iterate 12 rw [if_neg (by omega), if_neg (by omega)]
    exact hsame.ge

theorem monthOfYearDay_eq {y n m : ℤ} (h1 : 1 ≤ m) (h12 : m ≤ 12)
    (h : daysBeforeMonth y m ≤ n) (h' : n < daysBeforeMonth y (m + 1)) :
    monthOfYearDay y n = m := by
  have h0 : 0 ≤ n := (monotone_daysBeforeMonth y h1).trans h
  have hn := h'.trans_le (monotone_daysBeforeMonth y (show m + 1 ≤ 13 by omega))
  rw [daysBeforeMonth_thirteen] at hn
  obtain ⟨hm1, hm12, hm, hm'⟩ := monthOfYearDay_spec h0 hn
  by_contra hne
  obtain hlt | hlt := lt_or_gt_of_ne hne
  · have := monotone_daysBeforeMonth y (show monthOfYearDay y n + 1 ≤ m from hlt)
    omega
  · have := monotone_daysBeforeMonth y (show m + 1 ≤ monthOfYearDay y n from hlt)
    omega

/-- A day has its month and its place in the month. -/
theorem yearDay_spec (n : ℤ) :
    1 ≤ monthOfDay n ∧ monthOfDay n ≤ 12 ∧
      daysBeforeMonth (yearOfDay n) (monthOfDay n) ≤ n - daysBeforeYear (yearOfDay n) ∧
      n - daysBeforeYear (yearOfDay n) <
        daysBeforeMonth (yearOfDay n) (monthOfDay n + 1) := by
  obtain ⟨h, h'⟩ := daysBeforeYear_yearOfDay n
  rw [daysBeforeYear_succ] at h'
  exact monthOfYearDay_spec (by omega) (by omega)

namespace CivilDate

def toDay (c : CivilDate) : ℤ := dayNumber c.year c.month c.day

theorem yearDay_bounds (c : CivilDate) :
    daysBeforeMonth c.year c.month ≤ c.toDay - daysBeforeYear c.year ∧
      c.toDay - daysBeforeYear c.year < daysBeforeMonth c.year (c.month + 1) := by
  have hm := daysBeforeMonth_succ c.year c.one_le_month c.month_le
  have hd := c.one_le_day
  have hd' := c.day_le
  unfold toDay dayNumber
  omega

theorem yearOfDay_toDay (c : CivilDate) : yearOfDay c.toDay = c.year := by
  obtain ⟨h, h'⟩ := c.yearDay_bounds
  have hm12 := c.month_le
  have hlow := monotone_daysBeforeMonth c.year c.one_le_month
  have hhigh := monotone_daysBeforeMonth c.year (show c.month + 1 ≤ 13 by omega)
  rw [daysBeforeMonth_one] at hlow
  rw [daysBeforeMonth_thirteen] at hhigh
  refine yearOfDay_eq (by omega) ?_
  rw [daysBeforeYear_succ]
  omega

theorem monthOfDay_toDay (c : CivilDate) : monthOfDay c.toDay = c.month := by
  unfold monthOfDay
  rw [c.yearOfDay_toDay]
  exact monthOfYearDay_eq c.one_le_month c.month_le c.yearDay_bounds.1 c.yearDay_bounds.2

theorem dateOfDay_toDay (c : CivilDate) : dateOfDay c.toDay = c.day := by
  unfold dateOfDay
  rw [c.monthOfDay_toDay, c.yearOfDay_toDay, toDay, dayNumber]
  omega

def ofDay (n : ℤ) : CivilDate where
  year := yearOfDay n
  month := monthOfDay n
  day := dateOfDay n
  one_le_month := (yearDay_spec n).1
  month_le := (yearDay_spec n).2.1
  one_le_day := by
    have h := (yearDay_spec n).2.2.1
    unfold dateOfDay
    omega
  day_le := by
    have h := (yearDay_spec n).2.2.2
    rw [daysBeforeMonth_succ _ (yearDay_spec n).1 (yearDay_spec n).2.1] at h
    unfold dateOfDay
    omega

theorem toDay_ofDay (n : ℤ) : (ofDay n).toDay = n := by
  simp only [toDay, dayNumber, ofDay, dateOfDay]
  omega

theorem ofDay_toDay (c : CivilDate) : ofDay c.toDay = c := by
  ext
  · exact c.yearOfDay_toDay
  · exact c.monthOfDay_toDay
  · exact c.dateOfDay_toDay

end CivilDate

end Thcdb.Calendar
