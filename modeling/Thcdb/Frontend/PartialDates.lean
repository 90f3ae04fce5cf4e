import Mathlib.Data.List.Induction
import Thcdb.Frontend.DateWithPrecision

namespace Thcdb.Frontend.DateWithPrecision

open Js
open Thcdb.Calendar (CivilDate monthOfDay dateOfDay leapDays daysBeforeYear daysBeforeMonth
  daysBeforeYear_succ daysBeforeMonth_succ daysInMonth_pos strictMono_daysBeforeYear
  monotone_daysBeforeMonth)

/-- What a partial date can be: nothing, a year, a month or a date that exists. -/
inductive DatePrefix where
  | empty
  | year (y : ℤ)
  | month (y m : ℤ) (h : 1 ≤ m ∧ m ≤ 12)
  | day (c : CivilDate)

def DatePrefix.store : DatePrefix → Store
  | .empty => {}
  | .year y => { year := some (.int y) }
  | .month y m _ => { year := some (.int y), month := some (.int m) }
  | .day c =>
    { year := some (.int c.year), month := some (.int c.month), day := some (.int c.day) }

def Store.Real (s : Store) : Prop := ∃ p : DatePrefix, p.store = s

def Store.RoundTrips (s : Store) : Prop := valueToStore (storeToValue s) = s

/-- A valid date, of the year 0 or later. -/
def In.FromYearZero (v : In) : Prop := ∃ y, v.value.getUTCFullYear = .int y ∧ 0 ≤ y

/-- The store gives the value back, as far as its precision reaches. -/
def In.Preserved (v : In) : Prop :=
  ∃ w, storeToValue (valueToStore (some v)) = some w ∧ w.precision = v.precision ∧
    w.value.getUTCFullYear = v.value.getUTCFullYear ∧
    (v.precision ≠ .Year → w.value.getUTCMonth = v.value.getUTCMonth) ∧
    (v.precision = .Day → w.value.getUTCDate = v.value.getUTCDate)

/-- Every store that a run of edits passes is a real prefix and round trips, and so does the
value that the run starts from. -/
structure KeepsDates (thisYear : ℕ) (start : Option In) (edits : List Edit) : Prop where
  real : ∀ done, done <+: edits → ((valueToStore start).edits thisYear done).Real
  roundTrips : ∀ done, done <+: edits → ((valueToStore start).edits thisYear done).RoundTrips
  preserved : ∀ v ∈ start, v.Preserved

def Store.request (thisYear : ℕ) (s : Store) : Edit → Store
  | .year raw =>
    { year := (parseNumber YEAR_DIGITS raw).map fun year => year.min (.int thisYear)
      month := s.month, day := s.day }
  | .month raw => { year := s.year, month := parseNumber DATE_PART_DIGITS raw, day := s.day }
  | .day raw => { year := s.year, month := s.month, day := parseNumber DATE_PART_DIGITS raw }

theorem Store.edit_eq (thisYear : ℕ) (s : Store) (e : Edit) :
    s.edit thisYear e = (s.request thisYear e).normalize := by
  cases e <;> rfl

/-- The dates of JavaScript end on 13 September 275760: the first of a later month is no date,
and neither is the last day of that September. -/
def Store.beyond (s : Store) : Bool :=
  s.year = some (.int 275760) &&
    (s.month.any (fun m => !m.lt (.int 10)) ||
      (s.month = some (.int 9) && s.day.any (fun d => !d.lt (.int 1))))

/-- No edit of the run asks for a store beyond the dates. -/
def Store.InRange (thisYear : ℕ) : Store → List Edit → Bool
  | _, [] => true
  | s, e :: es =>
    !(s.request thisYear e).beyond && Store.InRange thisYear (s.edit thisYear e) es

/-- 29 February of the year 0, whose length is read off the year 1900, and the days of September
275760, whose length is not a number. -/
def In.Lost (v : In) : Bool :=
  v.precision = .Day &&
    ((v.value.getUTCFullYear = .int 0 && v.value.getUTCMonth = .int 1 &&
        v.value.getUTCDate = .int 29) ||
      (v.value.getUTCFullYear = .int 275760 && v.value.getUTCMonth = .int 8))

theorem parseInt_append (value : JsString) (c : UInt16) :
    parseInt (value ++ [c]) = 10 * parseInt value + (c.toNat - 0x30) := by
  simp [parseInt]

theorem parseInt_lt {value : JsString} (h : value.all isDigit) :
    parseInt value < 10 ^ value.length := by
  induction value using List.reverseRecOn with
  | nil => decide
  | append_singleton value c ih =>
    simp only [List.all_append, List.all_cons, List.all_nil, Bool.and_true, Bool.and_eq_true] at h
    have hc : c.toNat ≤ 0x39 := by
      have := h.2
      simp only [isDigit, Bool.and_eq_true, decide_eq_true_eq, UInt16.le_iff_toNat_le] at this
      exact this.2
    have hv := ih h.1
    rw [parseInt_append, List.length_append, List.length_singleton, pow_succ]
    omega

theorem parseNumber_eq {maxDigits : ℕ} {raw : JsString} {n : Number}
    (h : parseNumber maxDigits raw = some n) : ∃ k : ℕ, n = .int k ∧ k < 10 ^ maxDigits := by
  simp only [parseNumber] at h
  split_ifs at h with hd
  obtain rfl := Option.some.inj h
  refine ⟨parseInt (raw.take maxDigits), rfl, ?_⟩
  have hall : (raw.take maxDigits).all isDigit :=
    List.all_eq_true.mpr fun c hc => List.all_eq_true.mp hd c (List.mem_of_mem_take hc)
  exact (parseInt_lt hall).trans_le
    (Nat.pow_le_pow_right (by decide) (List.length_take_le maxDigits raw))

/-- The year whose months `Date.UTC` takes for those of `y`. -/
def fullYear (y : ℤ) : ℤ := if 0 ≤ y ∧ y ≤ 99 then 1900 + y else y

theorem leapDays_fullYear {y : ℤ} (h : y ≠ 0) : leapDays (fullYear y) = leapDays y := by
  unfold fullYear leapDays Calendar.IsLeap
  split_ifs <;> omega

theorem daysInMonth_fullYear {y m : ℤ} (h : ¬ (y = 0 ∧ m = 2)) :
    Calendar.daysInMonth (fullYear y) m = Calendar.daysInMonth y m := by
  unfold Calendar.daysInMonth
  obtain hm | hm := eq_or_ne m 2
  · rw [if_pos hm, if_pos hm, leapDays_fullYear fun hy => h ⟨hy, hm⟩]
  · rw [if_neg hm, if_neg hm]

theorem daysInMonth_fullYear_le (y m : ℤ) :
    Calendar.daysInMonth (fullYear y) m ≤ Calendar.daysInMonth y m := by
  by_cases h : y = 0 ∧ m = 2
  · rw [h.1, h.2]
    decide
  · rw [daysInMonth_fullYear h]

theorem daysInMonth_yearZero : Calendar.daysInMonth (fullYear 0) 2 = 28 := by decide

def Representable (c : CivilDate) : Prop :=
  0 ≤ c.year ∧ c.year ≤ 275760 ∧
    (c.year = 275760 → c.month ≤ 8 ∨ c.month = 9 ∧ c.day ≤ 13)

theorem daysBeforeYear_last : daysBeforeYear 275760 = 99999744 := by decide

theorem inRange_toDay {c : CivilDate} (h : Representable c) : InRange c.toDay := by
  obtain ⟨h0, h1, h2⟩ := h
  have hm12 := c.month_le
  have hday := c.yearDay_bounds
  have hlow := strictMono_daysBeforeYear.monotone h0
  have hfirst := monotone_daysBeforeMonth c.year c.one_le_month
  have hzero : daysBeforeYear 0 = -719528 := by decide
  have hlast := daysBeforeYear_last
  rw [Calendar.daysBeforeMonth_one] at hfirst
  refine ⟨by omega, ?_⟩
  obtain hy | hy := h1.lt_or_eq
  · have hnext := strictMono_daysBeforeYear.monotone (show c.year + 1 ≤ 275760 from hy)
    have hend := monotone_daysBeforeMonth c.year (show c.month + 1 ≤ 13 by omega)
    rw [Calendar.daysBeforeMonth_thirteen] at hend
    rw [daysBeforeYear_succ] at hnext
    omega
  · have hsep : daysBeforeMonth c.year 9 = 244 := by
      rw [hy]
      decide
    rw [hy] at hday hlow
    rw [hy] at hsep
    obtain hm | ⟨hm, hd⟩ := h2 hy
    · have hend := monotone_daysBeforeMonth 275760 (show c.month + 1 ≤ 9 by omega)
      omega
    · have htoDay : c.toDay = daysBeforeYear c.year + daysBeforeMonth c.year c.month + c.day - 1 :=
        rfl
      rw [hy, hm] at htoDay
      omega

/-- A date that is a time value is representable. -/
theorem representable_of_le {c : CivilDate} (h0 : 0 ≤ c.year) (hle : c.toDay ≤ 100000000) :
    Representable c := by
  have hday := c.yearDay_bounds
  have hfirst := monotone_daysBeforeMonth c.year c.one_le_month
  have hlast := daysBeforeYear_last
  rw [Calendar.daysBeforeMonth_one] at hfirst
  have h1 : c.year ≤ 275760 := by
    by_contra hy
    have hnext := strictMono_daysBeforeYear.monotone (show 275760 + 1 ≤ c.year by omega)
    rw [daysBeforeYear_succ] at hnext
    have := (Calendar.leapDays_eq 275760)
    omega
  refine ⟨h0, h1, fun hy => ?_⟩
  have htoDay : c.toDay = daysBeforeYear c.year + daysBeforeMonth c.year c.month + c.day - 1 := rfl
  rw [hy] at htoDay
  obtain hm | hm | hm : c.month ≤ 8 ∨ c.month = 9 ∨ 10 ≤ c.month := by omega
  · exact .inl hm
  · have hsep : daysBeforeMonth 275760 9 = 244 := by decide
    rw [hm] at htoDay
    exact .inr ⟨hm, by omega⟩
  · have hoct : daysBeforeMonth 275760 10 = 274 := by decide
    have hend := monotone_daysBeforeMonth 275760 hm
    have := c.one_le_day
    omega

theorem getters_midnight {c : CivilDate} (h : InRange c.toDay) :
    Date.getUTCFullYear (some (midnight c.toDay h)) = .int c.year ∧
      Date.getUTCMonth (some (midnight c.toDay h)) = .int (c.month - 1) ∧
      Date.getUTCDate (some (midnight c.toDay h)) = .int c.day := by
  simp only [Date.getUTCFullYear, Date.getUTCMonth, Date.getUTCDate, midnight_day,
    c.yearOfDay_toDay, c.monthOfDay_toDay, c.dateOfDay_toDay, and_self]

def lastOf (y m : ℤ) (h : 1 ≤ m ∧ m ≤ 12) : CivilDate where
  year := y
  month := m
  day := Calendar.daysInMonth y m
  one_le_month := h.1
  month_le := h.2
  one_le_day := (show (1 : ℤ) ≤ 28 by decide).trans (daysInMonth_pos y m).1
  day_le := le_rfl

theorem UTC_eve (y : ℤ) {m : ℤ} (h : 1 ≤ m ∧ m ≤ 12) :
    Date.UTC (.int y) (.int m) (.int 0) =
      timeClip (makeDate (.int (lastOf (fullYear y) m h).toDay) 0) := by
  rw [Date.UTC, makeFullYear, makeDay_eve _ h.1 h.2]
  rfl

theorem fullYear_bounds {y : ℤ} (h0 : 0 ≤ y) (h1 : y ≤ 275760) :
    0 ≤ fullYear y ∧ fullYear y ≤ 275760 ∧ (fullYear y = 275760 → y = 275760) := by
  unfold fullYear
  split_ifs <;> omega

/-- `daysInMonth` is the length of the month in the full year, as long as the month ends within
the dates. -/
theorem daysInMonth_int {y m : ℤ} (h0 : 0 ≤ y) (h1 : y ≤ 275760) (h : 1 ≤ m ∧ m ≤ 12)
    (hlast : ¬ (y = 275760 ∧ 9 ≤ m)) :
    daysInMonth (.int y) (.int m) = .int (Calendar.daysInMonth (fullYear y) m) := by
  obtain ⟨hf0, hf1, hf⟩ := fullYear_bounds h0 h1
  have hrep : Representable (lastOf (fullYear y) m h) :=
    ⟨hf0, hf1, fun hy => .inl (by have := hf hy; simp only [lastOf]; omega)⟩
  rw [daysInMonth, UTC_eve y h, timeClip_midnight (inRange_toDay hrep)]
  exact (getters_midnight _).2.2

theorem daysInMonth_beyond {m : ℤ} (h : 9 ≤ m ∧ m ≤ 12) :
    daysInMonth (.int 275760) (.int m) = .nan := by
  have hm : 1 ≤ m ∧ m ≤ 12 := ⟨by omega, h.2⟩
  have hsucc := daysBeforeMonth_succ 275760 hm.1 hm.2
  have hend := monotone_daysBeforeMonth 275760 (show 10 ≤ m + 1 by omega)
  have hoct : daysBeforeMonth 275760 10 = 274 := by decide
  have hbeyond : ¬ InRange (lastOf 275760 m hm).toDay := by
    rintro ⟨-, hle⟩
    simp only [CivilDate.toDay, lastOf, Calendar.dayNumber, daysBeforeYear_last] at hle
    omega
  rw [daysInMonth, UTC_eve 275760 hm]
  exact congrArg Date.getUTCDate (timeClip_beyond hbeyond)

theorem le_daysInMonth {c : CivilDate} (h : ¬ (c.year = 0 ∧ c.month = 2 ∧ c.day = 29)) :
    c.day ≤ Calendar.daysInMonth (fullYear c.year) c.month := by
  have hd := c.day_le
  by_cases hz : c.year = 0 ∧ c.month = 2
  · obtain ⟨hy, hm⟩ := hz
    rw [hy, hm] at hd h ⊢
    have hleap : Calendar.daysInMonth 0 2 = 29 := by decide
    rw [daysInMonth_yearZero]
    omega
  · rwa [daysInMonth_fullYear hz]

/-- `fromYMD` gives the date, whatever its year, unless it is the leap day of the year 0. -/
theorem fromYMD_date {c : CivilDate} (h : Representable c)
    (hleap : ¬ (c.year = 0 ∧ c.month = 2 ∧ c.day = 29)) :
    fromYMD (.int c.year) (.int c.month) (.int c.day) =
      some (midnight c.toDay (inRange_toDay h)) := by
  obtain ⟨hf0, hf1, hf⟩ := fullYear_bounds h.1 h.2.1
  let c' : CivilDate :=
    ⟨fullYear c.year, c.month, c.day, c.one_le_month, c.month_le, c.one_le_day,
      le_daysInMonth hleap⟩
  have hrep : Representable c' := ⟨hf0, hf1, fun hy => h.2.2 (hf hy)⟩
  have hutc : Date.UTC (.int c.year) (.int (c.month - 1)) (.int c.day) =
      some (midnight c'.toDay (inRange_toDay hrep)) := by
    rw [Date.UTC, makeFullYear, ← timeClip_midnight (inRange_toDay hrep), ← makeDay_date c']
    rfl
  have hmonth : monthOfDay c'.toDay = c.month := c'.monthOfDay_toDay
  have hdate : dateOfDay c'.toDay = c.day := c'.dateOfDay_toDay
  rw [fromYMD, Number.add_int, ← sub_eq_add_neg, hutc, Date.setUTCFullYear]
  simp only [Option.elim_some, midnight_day, midnight_time, hmonth, hdate, makeDay_date]
  exact timeClip_midnight _

end Thcdb.Frontend.DateWithPrecision
