import Thcdb.Frontend.PartialDates

namespace Thcdb.Frontend.DateWithPrecision

open Js
open Thcdb.Calendar (CivilDate daysInMonth_pos)

namespace DatePrefix

def of : DatePrecision → CivilDate → DatePrefix
  | .Year, c => .year c.year
  | .Month, c => .month c.year c.month ⟨c.one_le_month, c.month_le⟩
  | .Day, c => .day c

/-- The first day of the year, or of the month, or the day itself. -/
def firstDay : DatePrecision → CivilDate → CivilDate
  | .Year, c =>
    ⟨c.year, 1, 1, le_rfl, by decide, le_rfl,
      (show (1 : ℤ) ≤ 28 by decide).trans (daysInMonth_pos c.year 1).1⟩
  | .Month, c =>
    ⟨c.year, c.month, 1, c.one_le_month, c.month_le, le_rfl,
      (show (1 : ℤ) ≤ 28 by decide).trans (daysInMonth_pos c.year c.month).1⟩
  | .Day, c => c

/-- The prefixes whose first day is a date, other than the leap day of the year 0 and the days of
September 275760. -/
def Fits : DatePrefix → Prop
  | .empty => True
  | .year y => 0 ≤ y ∧ y ≤ 275760
  | .month y m _ => (0 ≤ y ∧ y ≤ 275760) ∧ (y = 275760 → m ≤ 9)
  | .day c =>
    (0 ≤ c.year ∧ c.year ≤ 275760) ∧ (c.year = 275760 → c.month ≤ 8) ∧
      ¬ (c.year = 0 ∧ c.month = 2 ∧ c.day = 29)

theorem eq_of_firstDay (p : DatePrefix) :
    p = .empty ∨ ∃ precision c, p = of precision c ∧ firstDay precision c = c := by
  cases p with
  | empty => exact .inl rfl
  | year y =>
    let c : CivilDate := ⟨y, 1, 1, le_rfl, by decide, le_rfl,
      (show (1 : ℤ) ≤ 28 by decide).trans (daysInMonth_pos y 1).1⟩
    exact .inr ⟨.Year, c, rfl, rfl⟩
  | month y m h =>
    let c : CivilDate := ⟨y, m, 1, h.1, h.2, le_rfl,
      (show (1 : ℤ) ≤ 28 by decide).trans (daysInMonth_pos y m).1⟩
    exact .inr ⟨.Month, c, rfl, rfl⟩
  | day c => exact .inr ⟨.Day, c, rfl, rfl⟩

variable {precision : DatePrecision} {c : CivilDate}

theorem representable_firstDay (h : (of precision c).Fits) :
    Representable (firstDay precision c) := by
  cases precision with
  | Year => exact ⟨h.1, h.2, fun _ => .inl (show (1 : ℤ) ≤ 8 by decide)⟩
  | Month =>
    refine ⟨h.1.1, h.1.2, fun hy => ?_⟩
    obtain hm | hm := (h.2 hy).lt_or_eq
    · exact .inl (Int.le_of_lt_add_one hm)
    · exact .inr ⟨hm, show (1 : ℤ) ≤ 13 by decide⟩
  | Day => exact ⟨h.1.1, h.1.2, fun hy => .inl (h.2.1 hy)⟩

theorem firstDay_ne_leapDay (h : (of precision c).Fits) :
    ¬ ((firstDay precision c).year = 0 ∧ (firstDay precision c).month = 2 ∧
      (firstDay precision c).day = 29) := by
  cases precision with
  | Year => exact fun hc => absurd hc.2.1 (show (1 : ℤ) ≠ 2 by decide)
  | Month => exact fun hc => absurd hc.2.2 (show (1 : ℤ) ≠ 29 by decide)
  | Day => exact h.2.2

/-- The value of a store is the first day of its prefix. -/
theorem storeToValue_of (h : (of precision c).Fits) :
    storeToValue (of precision c).store =
      some ⟨some (midnight _ (inRange_toDay (representable_firstDay h))), precision⟩ := by
  rw [← fromYMD_date (representable_firstDay h) (firstDay_ne_leapDay h)]
  cases precision <;> rfl

theorem valueToStore_some (t : TimeValue) :
    valueToStore (some ⟨some t, precision⟩) =
      (of precision (CivilDate.ofDay (t.ms / msPerDay))).store.normalize := by
  cases precision <;>
    simp [valueToStore, of, store, Date.getUTCFullYear, Date.getUTCMonth, Date.getUTCDate,
      CivilDate.ofDay]

/-- A store that stands for a prefix is normalized. -/
theorem normalize_store {p : DatePrefix} (h : p.Fits) : p.store.normalize = p.store := by
  cases p with
  | empty => rfl
  | year y => rfl
  | month y m hm =>
    have h1 : ¬ m < 1 := by omega
    simp [store, Store.normalize, h1, hm.2]
  | day c =>
    obtain ⟨⟨h0, hy⟩, hlast, hleap⟩ := h
    have h1 : ¬ c.month < 1 := not_lt.mpr c.one_le_month
    have h1' : ¬ c.day < 1 := not_lt.mpr c.one_le_day
    have hday : c.day ≤ Calendar.daysInMonth (fullYear c.year) c.month := le_daysInMonth hleap
    have hlen := daysInMonth_int h0 hy ⟨c.one_le_month, c.month_le⟩
      (fun hc => by have := hlast hc.1; omega)
    simp [store, Store.normalize, h1, h1', c.month_le, hlen, hday]

theorem roundTrips {p : DatePrefix} (h : p.Fits) : p.store.RoundTrips := by
  obtain rfl | ⟨precision, c, rfl, hc⟩ := p.eq_of_firstDay
  · rfl
  · rw [Store.RoundTrips, storeToValue_of h, valueToStore_some, midnight_day,
      CivilDate.ofDay_toDay, hc, normalize_store h]

end DatePrefix

structure Request where
  year : Option ℤ
  month : Option ℤ
  day : Option ℤ
  bounds : ∀ y ∈ year, 0 ≤ y ∧ y ≤ 275760

def Request.store (r : Request) : Store where
  year := r.year.map .int
  month := r.month.map .int
  day := r.day.map .int

/-- What `normalize` makes of a request. -/
theorem Request.normalize_cases (r : Request) :
    r.year = none ∧ r.store.normalize = DatePrefix.empty.store ∨
    (∃ y ∈ r.year, (∀ m ∈ r.month, m < 1) ∧ r.store.normalize = (DatePrefix.year y).store) ∨
    (∃ y ∈ r.year, ∃ m ∈ r.month, ∃ h : 1 ≤ min m 12 ∧ min m 12 ≤ 12, (∀ d ∈ r.day, d < 1) ∧
      r.store.normalize = (DatePrefix.month y (min m 12) h).store) ∨
    ∃ y ∈ r.year, ∃ m ∈ r.month, 1 ≤ m ∧ ∃ d ∈ r.day, 1 ≤ d ∧
      r.store.normalize =
        { year := some (.int y), month := some (.int (min m 12))
          day := some ((Number.int d).min (daysInMonth (.int y) (.int (min m 12)))) } := by
  obtain ⟨y, m, d, hy⟩ := r
  obtain _ | y := y
  · exact .inl ⟨rfl, rfl⟩
  obtain _ | m := m
  · exact .inr (.inl ⟨y, rfl, by simp, rfl⟩)
  by_cases hm : m < 1
  · refine .inr (.inl ⟨y, rfl, by simpa using hm, ?_⟩)
    simp [store, Store.normalize, DatePrefix.store, hm]
  obtain _ | d := d
  · refine .inr (.inr (.inl ⟨y, rfl, m, rfl, by omega, by simp, ?_⟩))
    simp [store, Store.normalize, DatePrefix.store, hm]
  by_cases hd : d < 1
  · refine .inr (.inr (.inl ⟨y, rfl, m, rfl, by omega, by simpa using hd, ?_⟩))
    simp [store, Store.normalize, DatePrefix.store, hm, hd]
  · refine .inr (.inr (.inr ⟨y, rfl, m, rfl, by omega, d, rfl, by omega, ?_⟩))
    simp [store, Store.normalize, hm, hd]

theorem Request.beyond_iff (r : Request) :
    r.store.beyond = true ↔ r.year = some 275760 ∧
      ∃ m ∈ r.month, 10 ≤ m ∨ m = 9 ∧ ∃ d ∈ r.day, 1 ≤ d := by
  obtain ⟨y, m, d, hy⟩ := r
  cases y <;> cases m <;> cases d <;> simp [store, Store.beyond]

/-- A request within the dates leaves a prefix. -/
theorem normalize_request (r : Request) (h : r.store.beyond = false) :
    ∃ p : DatePrefix, p.Fits ∧ p.store = r.store.normalize := by
  have hnot : ¬ (r.year = some 275760 ∧ ∃ m ∈ r.month, 10 ≤ m ∨ m = 9 ∧ ∃ d ∈ r.day, 1 ≤ d) :=
    fun hlate => by simp [r.beyond_iff.mpr hlate] at h
  obtain ⟨-, hn⟩ | ⟨y, hy, -, hn⟩ | ⟨y, hy, m, hm, hmin, -, hn⟩ |
    ⟨y, hy, m, hm, hm1, d, hd, hd1, hn⟩ := r.normalize_cases
  · exact ⟨.empty, trivial, hn.symm⟩
  · exact ⟨.year y, r.bounds y hy, hn.symm⟩
  · refine ⟨.month y (min m 12) hmin, ⟨r.bounds y hy, ?_⟩, hn.symm⟩
    rintro rfl
    by_contra h9
    exact hnot ⟨hy, m, hm, .inl (by omega)⟩
  · obtain ⟨h0, h1⟩ := r.bounds y hy
    have hmin : 1 ≤ min m 12 ∧ min m 12 ≤ 12 := by omega
    have hlast : ¬ (y = 275760 ∧ 9 ≤ min m 12) := by
      rintro ⟨rfl, h9⟩
      obtain h9 | h9 : m = 9 ∨ 10 ≤ m := by omega
      · exact hnot ⟨hy, m, hm, .inr ⟨h9, d, hd, hd1⟩⟩
      · exact hnot ⟨hy, m, hm, .inl h9⟩
    have hlen := daysInMonth_pos (fullYear y) (min m 12)
    have hle := daysInMonth_fullYear_le y (min m 12)
    let c : CivilDate := ⟨y, min m 12, min d (Calendar.daysInMonth (fullYear y) (min m 12)),
      hmin.1, hmin.2, by omega, by omega⟩
    refine ⟨.day c, ⟨⟨h0, h1⟩, fun hy => ?_, ?_⟩, ?_⟩
    · have : ¬ 9 ≤ min m 12 := fun h9 => hlast ⟨hy, h9⟩
      exact Int.le_of_lt_add_one (not_le.mp this)
    · rintro ⟨hy0, hm2, hd29⟩
      have hy0 : y = 0 := hy0
      have hm2 : min m 12 = 2 := hm2
      have hd29 : min d (Calendar.daysInMonth (fullYear y) (min m 12)) = 29 := hd29
      rw [hy0, hm2, daysInMonth_yearZero] at hd29
      omega
    · rw [hn, daysInMonth_int h0 h1 hmin hlast]
      rfl

/-- The value of a month after September 275760 is January. -/
theorem not_roundTrips_month {m : ℤ} (h10 : 10 ≤ m) (h12 : m ≤ 12) :
    ¬ Store.RoundTrips { year := some (.int 275760), month := some (.int m) } := by
  unfold Store.RoundTrips
  interval_cases m <;> decide

/-- A request beyond the dates leaves a store that is no prefix or does not round trip. -/
theorem normalize_beyond (r : Request) (h : r.store.beyond = true) :
    ¬ (r.store.normalize.Real ∧ r.store.normalize.RoundTrips) := by
  obtain ⟨hy, m, hm, hlate⟩ := r.beyond_iff.mp h
  rintro ⟨⟨p, hp⟩, htrip⟩
  obtain ⟨hyn, -⟩ | ⟨y', hy', hm', -⟩ | ⟨y', hy', m', hm', hmin, hd', hn⟩ |
    ⟨y', hy', m', hm', hm1, d, hd, hd1, hn⟩ := r.normalize_cases
  · simp [hyn] at hy
  · have := hm' m hm
    omega
  · obtain rfl : m = m' := Option.mem_unique hm hm'
    obtain rfl : y' = 275760 := Option.mem_unique hy' hy
    have h10 : 10 ≤ min m 12 := by
      obtain h10 | ⟨-, d, hd, hd1⟩ := hlate
      · omega
      · have := hd' d hd
        omega
    rw [hn] at htrip
    exact not_roundTrips_month h10 hmin.2 htrip
  · obtain rfl : m = m' := Option.mem_unique hm hm'
    obtain rfl : y' = 275760 := Option.mem_unique hy' hy
    rw [hn, daysInMonth_beyond (by omega)] at hp
    cases p <;> simp [DatePrefix.store] at hp

/-- What was typed is a number of as many digits as are kept, or nothing. -/
theorem parseNumber_cases (maxDigits : ℕ) (raw : JsString) :
    ∃ o : Option ℤ, parseNumber maxDigits raw = o.map .int ∧
      ∀ n ∈ o, 0 ≤ n ∧ n < 10 ^ maxDigits := by
  cases h : parseNumber maxDigits raw with
  | none => exact ⟨none, rfl, by simp⟩
  | some n =>
    obtain ⟨k, rfl, hk⟩ := parseNumber_eq h
    refine ⟨some k, rfl, ?_⟩
    simp only [Option.mem_def, Option.some.injEq, forall_eq']
    exact ⟨Int.natCast_nonneg k, by exact_mod_cast hk⟩

/-- A store that stands for a prefix asks for what `normalize` understands. -/
def DatePrefix.request : (p : DatePrefix) → p.Fits → Request
  | .empty, _ => ⟨none, none, none, fun y hy => absurd hy (Option.not_mem_none y)⟩
  | .year y, h => ⟨some y, none, none, fun _ hy => Option.mem_some.mp hy ▸ h⟩
  | .month y m _, h => ⟨some y, some m, none, fun _ hy => Option.mem_some.mp hy ▸ h.1⟩
  | .day c, h => ⟨some c.year, some c.month, some c.day, fun _ hy => Option.mem_some.mp hy ▸ h.1⟩

theorem DatePrefix.request_store {p : DatePrefix} (h : p.Fits) : (p.request h).store = p.store := by
  cases p <;> rfl

theorem request_of_fits (thisYear : ℕ) {p : DatePrefix} (h : p.Fits) (e : Edit) :
    ∃ r : Request, r.store = p.store.request thisYear e := by
  rw [← DatePrefix.request_store h]
  obtain ⟨y, m, d, hy⟩ := p.request h
  cases e with
  | year raw =>
    obtain ⟨o, ho, hlt⟩ := parseNumber_cases YEAR_DIGITS raw
    refine ⟨⟨o.map (min · thisYear), m, d, ?_⟩, ?_⟩
    · intro n hn
      obtain ⟨k, hk, rfl⟩ := Option.map_eq_some_iff.mp hn
      have := hlt k hk
      norm_num [YEAR_DIGITS] at this
      omega
    · simp only [Request.store, Store.request, ho, Option.map_map]
      rfl
  | month raw =>
    obtain ⟨o, ho, -⟩ := parseNumber_cases DATE_PART_DIGITS raw
    exact ⟨⟨y, o, d, hy⟩, by simp only [Request.store, Store.request, ho]⟩
  | day raw =>
    obtain ⟨o, ho, -⟩ := parseNumber_cases DATE_PART_DIGITS raw
    exact ⟨⟨y, m, o, hy⟩, by simp only [Request.store, Store.request, ho]⟩

/-- One edit keeps to the prefixes, exactly when it asks for nothing beyond the dates. -/
theorem edit_fits (thisYear : ℕ) {p : DatePrefix} (h : p.Fits) (e : Edit)
    (hin : (p.store.request thisYear e).beyond = false) :
    ∃ q : DatePrefix, q.Fits ∧ q.store = p.store.edit thisYear e := by
  obtain ⟨r, hr⟩ := request_of_fits thisYear h e
  rw [Store.edit_eq, ← hr]
  exact normalize_request r (hr ▸ hin)

theorem edit_beyond (thisYear : ℕ) {p : DatePrefix} (h : p.Fits) (e : Edit)
    (hout : (p.store.request thisYear e).beyond = true) :
    ¬ ((p.store.edit thisYear e).Real ∧ (p.store.edit thisYear e).RoundTrips) := by
  obtain ⟨r, hr⟩ := request_of_fits thisYear h e
  rw [Store.edit_eq, ← hr]
  exact normalize_beyond r (hr ▸ hout)

def Store.Keeps (thisYear : ℕ) (s : Store) (edits : List Edit) : Prop :=
  ∀ done, done <+: edits →
    (s.edits thisYear done).Real ∧ (s.edits thisYear done).RoundTrips

theorem Store.keeps_cons (thisYear : ℕ) (s : Store) (e : Edit) (edits : List Edit) :
    s.Keeps thisYear (e :: edits) ↔
      (s.Real ∧ s.RoundTrips) ∧ (s.edit thisYear e).Keeps thisYear edits := by
  constructor
  · intro h
    exact ⟨h [] List.nil_prefix, fun done hd => h (e :: done) (List.cons_prefix_cons.mpr ⟨rfl, hd⟩)⟩
  · rintro ⟨hs, h⟩ done hd
    obtain rfl | ⟨rest, rfl, hrest⟩ := List.prefix_cons_iff.mp hd
    · exact hs
    · exact h rest hrest

/-- A run keeps to real prefixes exactly when none of its edits asks for a store beyond the
dates. -/
theorem keeps_iff (thisYear : ℕ) {p : DatePrefix} (h : p.Fits) (edits : List Edit) :
    p.store.Keeps thisYear edits ↔ p.store.InRange thisYear edits = true := by
  induction edits generalizing p with
  | nil =>
    refine iff_of_true (fun done hd => ?_) rfl
    rw [List.prefix_nil.mp hd]
    exact ⟨⟨p, rfl⟩, DatePrefix.roundTrips h⟩
  | cons e edits ih =>
    rw [Store.keeps_cons, Store.InRange, and_iff_right ⟨⟨p, rfl⟩, DatePrefix.roundTrips h⟩]
    cases hin : (p.store.request thisYear e).beyond with
    | false =>
      obtain ⟨q, hq, hs⟩ := edit_fits thisYear h e hin
      rw [← hs, ih hq]
      rfl
    | true =>
      refine iff_of_false (fun hk => edit_beyond thisYear h e hin ?_) (by simp)
      exact hk [] List.nil_prefix

theorem Store.normalize_year (s : Store) : s.normalize.year = s.year := by
  unfold Store.normalize
  split
  next h => exact h.symm
  next h => exact h.symm

theorem request_year_ne (thisYear : ℕ) {s : Store} (h : s.year ≠ some (.int 275760)) (e : Edit) :
    (s.request thisYear e).year ≠ some (.int 275760) := by
  cases e with
  | year raw =>
    intro hy
    obtain ⟨o, ho, hlt⟩ := parseNumber_cases YEAR_DIGITS raw
    simp only [Store.request, ho, Option.map_map] at hy
    obtain ⟨k, hk, hn⟩ := Option.map_eq_some_iff.mp hy
    have hle := hlt k hk
    have hmin : min k thisYear = 275760 := Number.int.inj hn
    norm_num [YEAR_DIGITS] at hle
    omega
  | month raw => exact h
  | day raw => exact h

theorem inRange_of_year_ne {thisYear : ℕ} {s : Store} (h : s.year ≠ some (.int 275760))
    (edits : List Edit) : s.InRange thisYear edits = true := by
  induction edits generalizing s with
  | nil => rfl
  | cons e edits ih =>
    have hreq := request_year_ne thisYear h e
    have hin : (s.request thisYear e).beyond = false := by simp [Store.beyond, hreq]
    rw [Store.InRange, hin]
    exact ih (by rwa [Store.edit_eq, Store.normalize_year])

/-- The form that starts empty never leaves the real dates. -/
theorem keepsDates_none (thisYear : ℕ) (edits : List Edit) : KeepsDates thisYear none edits := by
  have hk : (DatePrefix.empty.store).Keeps thisYear edits :=
    (keeps_iff thisYear (p := .empty) trivial edits).mpr
      (inRange_of_year_ne (by simp [DatePrefix.store]) edits)
  exact ⟨fun done hd => (hk done hd).1, fun done hd => (hk done hd).2, by simp⟩

def TimeValue.date (t : TimeValue) : CivilDate := CivilDate.ofDay (t.ms / msPerDay)

theorem representable_date {t : TimeValue} (h : 0 ≤ (TimeValue.date t).year) :
    Representable (TimeValue.date t) := by
  have hle : (TimeValue.date t).toDay ≤ 100000000 := by
    rw [TimeValue.date, CivilDate.toDay_ofDay]
    have hb := t.bounds.2
    unfold msPerDay
    omega
  exact representable_of_le h hle

theorem getters (t : TimeValue) :
    Date.getUTCFullYear (some t) = .int (TimeValue.date t).year ∧
      Date.getUTCMonth (some t) = .int ((TimeValue.date t).month - 1) ∧
      Date.getUTCDate (some t) = .int (TimeValue.date t).day := ⟨rfl, rfl, rfl⟩

theorem lost_iff (t : TimeValue) (precision : DatePrecision) :
    In.Lost ⟨some t, precision⟩ = true ↔ precision = .Day ∧
      (((TimeValue.date t).year = 0 ∧ (TimeValue.date t).month = 2 ∧
          (TimeValue.date t).day = 29) ∨
        (TimeValue.date t).year = 275760 ∧ (TimeValue.date t).month = 9) := by
  obtain ⟨hy, hm, hd⟩ := getters t
  have h2 : (TimeValue.date t).month - 1 = 1 ↔ (TimeValue.date t).month = 2 := by omega
  have h9 : (TimeValue.date t).month - 1 = 8 ↔ (TimeValue.date t).month = 9 := by omega
  simp [In.Lost, hy, hm, hd, h2, h9, and_assoc]

theorem fits_of_not_lost {t : TimeValue} {precision : DatePrecision}
    (h : Representable (TimeValue.date t)) (hl : ¬ In.Lost ⟨some t, precision⟩ = true) :
    (DatePrefix.of precision (TimeValue.date t)).Fits := by
  rw [lost_iff] at hl
  obtain ⟨h0, h1, h9⟩ := h
  cases precision with
  | Year => exact ⟨h0, h1⟩
  | Month => exact ⟨⟨h0, h1⟩, fun hy => by have := h9 hy; omega⟩
  | Day =>
    refine ⟨⟨h0, h1⟩, fun hy => ?_, fun hc => hl ⟨rfl, .inl hc⟩⟩
    obtain hm | ⟨hm, -⟩ := h9 hy
    · exact hm
    · exact absurd ⟨rfl, .inr ⟨hy, hm⟩⟩ hl

theorem preserved_of_fits {t : TimeValue} {precision : DatePrecision}
    (h : (DatePrefix.of precision (TimeValue.date t)).Fits) :
    In.Preserved ⟨some t, precision⟩ := by
  obtain ⟨hy, hm, hd⟩ := getters t
  obtain ⟨hy', hm', hd'⟩ := getters_midnight (inRange_toDay (DatePrefix.representable_firstDay h))
  have hstore := DatePrefix.storeToValue_of h
  rw [← DatePrefix.normalize_store h] at hstore
  refine ⟨_, (congrArg storeToValue (DatePrefix.valueToStore_some t)).trans hstore, rfl,
    hy'.trans ?_, fun hp => hm'.trans ?_, fun hp => hd'.trans ?_⟩
  · rw [hy]
    cases precision <;> rfl
  · rw [hm]
    cases precision with
    | Year => exact absurd rfl hp
    | Month => rfl
    | Day => rfl
  · rw [hd]
    cases precision with
    | Year => cases hp
    | Month => cases hp
    | Day => rfl

/-- A lost day comes back as the day before, or its store is no prefix. -/
theorem not_keepsDates_of_lost {thisYear : ℕ} {t : TimeValue} {precision : DatePrecision}
    {edits : List Edit} (h : Representable (TimeValue.date t))
    (hl : In.Lost ⟨some t, precision⟩ = true) :
    ¬ KeepsDates thisYear (some ⟨some t, precision⟩) edits := by
  intro hk
  obtain ⟨rfl, ⟨hy, hm, hd⟩ | ⟨hy, hm⟩⟩ := (lost_iff t precision).mp hl
  · obtain ⟨w, hw, -, -, -, hdate⟩ := hk.preserved _ rfl
    have h28 : (storeToValue (Store.normalize
        ⟨some (.int 0), some (.int 2), some (.int 29)⟩)).map (·.value.getUTCDate) =
          some (.int 28) := by
      decide
    rw [DatePrefix.valueToStore_some] at hw
    change storeToValue (DatePrefix.day (TimeValue.date t)).store.normalize = some w at hw
    rw [DatePrefix.store, hy, hm, hd] at hw
    rw [hw, Option.map_some, hdate rfl, (getters t).2.2, hd] at h28
    exact absurd h28 (by decide)
  · let r : Request :=
      ⟨some (TimeValue.date t).year, some (TimeValue.date t).month, some (TimeValue.date t).day,
        fun _ hy => Option.mem_some.mp hy ▸ ⟨h.1, h.2.1⟩⟩
    have hr : valueToStore (some ⟨some t, .Day⟩) = r.store.normalize :=
      DatePrefix.valueToStore_some t
    refine normalize_beyond r (r.beyond_iff.mpr ?_) ?_
    · exact ⟨congrArg some hy, _, rfl, .inr ⟨hm, _, rfl, (TimeValue.date t).one_le_day⟩⟩
    · rw [← hr]
      exact ⟨hk.real [] List.nil_prefix, hk.roundTrips [] List.nil_prefix⟩

theorem keepsDates_iff_keeps {thisYear : ℕ} {start : Option In} {edits : List Edit}
    (h : ∀ v ∈ start, v.Preserved) :
    KeepsDates thisYear start edits ↔ (valueToStore start).Keeps thisYear edits :=
  ⟨fun hk done hd => ⟨hk.real done hd, hk.roundTrips done hd⟩,
    fun hk => ⟨fun done hd => (hk done hd).1, fun done hd => (hk done hd).2, h⟩⟩

/-- From nothing, or from any valid date of the year 0 or later, every run of edits passes real
prefixes that round trip, and gives the start value back, exactly when the value is not one of the
lost days and no edit asks for a store beyond the dates. -/
theorem keepsDates_iff (thisYear : ℕ) (start : Option In) (hstart : ∀ v ∈ start, v.FromYearZero)
    (edits : List Edit) :
    KeepsDates thisYear start edits ↔
      (∀ v ∈ start, v.Lost = false) ∧ (valueToStore start).InRange thisYear edits = true := by
  cases start with
  | none =>
    rw [keepsDates_iff_keeps (by simp), and_iff_right (by simp)]
    exact keeps_iff thisYear (p := .empty) trivial edits
  | some v =>
    obtain ⟨value, precision⟩ := v
    obtain ⟨y, hy, h0⟩ := hstart _ rfl
    obtain _ | t := value
    · cases hy
    obtain rfl := Number.int.inj hy
    have hrep : Representable (TimeValue.date t) := representable_date h0
    by_cases hl : In.Lost ⟨some t, precision⟩ = true
    · refine iff_of_false (not_keepsDates_of_lost hrep hl) fun hc => ?_
      simp [hc.1 _ rfl] at hl
    · have hfits := fits_of_not_lost hrep hl
      have hstore := (DatePrefix.valueToStore_some t).trans (DatePrefix.normalize_store hfits)
      rw [keepsDates_iff_keeps (by simpa using preserved_of_fits hfits),
        and_iff_right (by simpa using hl), hstore]
      exact keeps_iff thisYear hfits edits

/-- From 29 February 2024 to 2023, and on to its last day of February. -/
theorem keepsDates_leapDay :
    KeepsDates 2026 (some ⟨some ⟨1709164800000, by decide⟩, .Day⟩)
      [.year [0x32, 0x30, 0x32, 0x33], .day [0x33, 0x31]] :=
  (keepsDates_iff 2026 _ (fun _ hv => Option.mem_some.mp hv ▸ ⟨2024, by decide, by decide⟩) _).mpr
    ⟨fun _ hv => Option.mem_some.mp hv ▸ by decide, by decide⟩

/-- 29 February of the year 0 is a date, and comes back as the 28th. -/
theorem not_keepsDates_yearZero :
    In.FromYearZero ⟨some ⟨-62162121600000, by decide⟩, .Day⟩ ∧
      ¬ KeepsDates 2026 (some ⟨some ⟨-62162121600000, by decide⟩, .Day⟩) [] :=
  ⟨⟨0, by decide, by decide⟩, not_keepsDates_of_lost (representable_date (by decide)) (by decide)⟩

end Thcdb.Frontend.DateWithPrecision
