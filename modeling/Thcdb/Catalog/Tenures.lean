import Mathlib
import Thcdb.Catalog.Artist

namespace Thcdb.Catalog

namespace Tenure

/-- A missing join year is before every year. -/
def start (t : Tenure) : WithBot (WithTop ℤ) := t.joinYear.elim ⊥ fun year => ((year : WithTop ℤ) : _)

/-- A missing leave year is after every year. -/
def stop (t : Tenure) : WithBot (WithTop ℤ) := t.leaveYear.elim ⊤ fun year => ((year : WithTop ℤ) : _)

/-- The year that stands for a missing join year is before the leave year. -/
def ClearJoin (t : Tenure) : Prop := t.joinYear = none → ∀ leave ∈ t.leaveYear, 0 < leave

/-- The year that stands for a missing leave year is after the join year. -/
def ClearLeave (t : Tenure) : Prop := t.leaveYear = none → ∀ join ∈ t.joinYear, join < 32767

end Tenure

/-- Tenures one after the other, open only at the two ends. -/
structure Chronological (tenures : List Tenure) : Prop where
  ordered : ∀ t ∈ tenures, t.start < t.stop
  apart : tenures.IsChain fun s t => s.stop < t.start
  joinGiven : ∀ t ∈ tenures.tail, t.joinYear ≠ none
  leaveGiven : ∀ t ∈ tenures.dropLast, t.leaveYear ≠ none

namespace Tenure
variable {s t : Tenure}

theorem given_of_stop_lt_start (h : s.stop < t.start) : s.leaveYear ≠ none ∧ t.joinYear ≠ none := by
  constructor
  · intro hleave
    simp [stop, hleave] at h
  · intro hjoin
    simp [start, hjoin] at h

theorem clearJoin_of_given (h : t.joinYear ≠ none) : t.ClearJoin := fun hnone => absurd hnone h

theorem clearLeave_of_given (h : t.leaveYear ≠ none) : t.ClearLeave := fun hnone => absurd hnone h

end Tenure

namespace Chronological
variable {s t : Tenure} {rest : List Tenure}

theorem singleton_iff : Chronological [t] ↔ t.start < t.stop := by
  constructor
  · intro h
    exact h.ordered t (List.mem_singleton_self t)
  · intro h
    exact ⟨by simpa using h, List.isChain_singleton t, by simp, by simp⟩

theorem cons_cons_iff :
    Chronological (s :: t :: rest) ↔
      s.start < s.stop ∧ s.stop < t.start ∧ Chronological (t :: rest) := by
  constructor
  · intro h
    have hapart := List.isChain_cons_cons.mp h.apart
    refine ⟨h.ordered s List.mem_cons_self, hapart.1, ?_⟩
    exact {
      ordered := fun u hu => h.ordered u (List.mem_cons_of_mem s hu)
      apart := hapart.2
      joinGiven := fun u hu => h.joinGiven u (List.mem_of_mem_tail hu)
      leaveGiven := fun u hu => h.leaveGiven u (by simp [hu]) }
  · rintro ⟨hordered, hapart, h⟩
    have hgiven := Tenure.given_of_stop_lt_start hapart
    exact {
      ordered := List.forall_mem_cons.mpr ⟨hordered, h.ordered⟩
      apart := List.isChain_cons_cons.mpr ⟨hapart, h.apart⟩
      joinGiven := List.forall_mem_cons.mpr ⟨hgiven.2, h.joinGiven⟩
      leaveGiven := List.forall_mem_cons.mpr ⟨hgiven.1, h.leaveGiven⟩ }

end Chronological

namespace NewArtist

/-- Where the single tenure has two years, they have to be equal: the comparison of the code is
reversed. Longer lists keep clear of the years that stand for the open ends. -/
def TenuresClear : List Tenure → Prop
  | [] => True
  | [t] => ∀ join ∈ t.joinYear, ∀ leave ∈ t.leaveYear, join = leave
  | first :: second :: rest => Chronological (first :: second :: rest) →
      first.ClearJoin ∧ ((second :: rest).getLast (List.cons_ne_nil second rest)).ClearLeave

theorem validateTenures_cons_cons {first second : Tenure} {rest : List Tenure} :
    validateTenures (first :: second :: rest) = .ok () ↔
      validateTenureBody (first :: second :: rest) = true := by
  simp [validateTenures]

theorem tenureBefore_iff {s t : Tenure} :
    tenureBefore s t = true ↔
      s.start < s.stop ∧ s.stop < t.start ∧ t.start < t.stop ∧ s.ClearJoin ∧ t.ClearLeave := by
  obtain ⟨sjoin, sleave⟩ := s
  obtain ⟨tjoin, tleave⟩ := t
  cases sleave with
  | none => simp [tenureBefore, Tenure.start, Tenure.stop]
  | some sleave =>
    cases tjoin with
    | none => simp [tenureBefore, Tenure.start, Tenure.stop]
    | some tjoin =>
      -- The two inner years are given, each outer one is a year or its sentinel.
      cases sjoin <;> cases tleave <;>
        simp [tenureBefore, Tenure.start, Tenure.stop, Tenure.ClearJoin, Tenure.ClearLeave] <;>
        tauto

/-- A list of two tenures or more passes if it is chronological and clear of the sentinels. -/
theorem validateTenureBody_iff (first second : Tenure) (rest : List Tenure) :
    validateTenureBody (first :: second :: rest) = true ↔
      Chronological (first :: second :: rest) ∧ first.ClearJoin ∧
        ((second :: rest).getLast (List.cons_ne_nil second rest)).ClearLeave := by
  induction rest generalizing first second with
  | nil =>
    rw [validateTenureBody, Bool.and_eq_true, tenureBefore_iff, Chronological.cons_cons_iff,
      Chronological.singleton_iff]
    simp only [validateTenureBody, List.getLast_singleton]
    tauto
  | cons third rest ih =>
    rw [validateTenureBody, Bool.and_eq_true, tenureBefore_iff, ih second third,
      Chronological.cons_cons_iff (s := first), List.getLast_cons (List.cons_ne_nil third rest)]
    constructor
    · rintro ⟨⟨hordered, hapart, -, hjoin, -⟩, hchron, -, hleave⟩
      exact ⟨⟨hordered, hapart, hchron⟩, hjoin, hleave⟩
    · rintro ⟨⟨hordered, hapart, hchron⟩, hjoin, hleave⟩
      -- The second tenure is an inner one, so that both of its years are given.
      have hinner := Chronological.cons_cons_iff.mp hchron
      have hstop := (Tenure.given_of_stop_lt_start hinner.2.1).1
      have hstart := (Tenure.given_of_stop_lt_start hapart).2
      exact ⟨⟨hordered, hapart, hinner.1, hjoin, Tenure.clearLeave_of_given hstop⟩, hchron,
        Tenure.clearJoin_of_given hstart, hleave⟩

theorem validateTenures_singleton_iff {t : Tenure} :
    validateTenures [t] = .ok () ↔
      ∀ join ∈ t.joinYear, ∀ leave ∈ t.leaveYear, leave < join := by
  obtain ⟨join, leave⟩ := t
  cases join <;> cases leave <;> simp [validateTenures]

theorem start_lt_stop_iff {t : Tenure} :
    t.start < t.stop ↔ ∀ join ∈ t.joinYear, ∀ leave ∈ t.leaveYear, join < leave := by
  obtain ⟨join, leave⟩ := t
  cases join <;> cases leave <;> simp [Tenure.start, Tenure.stop, ← WithBot.coe_top]

/-- Exactly on these lists `validateTenures` accepts if and only if the list is chronological. -/
theorem validateTenures_ok_iff_chronological (tenures : List Tenure) :
    (validateTenures tenures = .ok () ↔ Chronological tenures) ↔ TenuresClear tenures := by
  match tenures with
  | [] =>
    have hempty : Chronological [] := ⟨by simp, List.isChain_nil, by simp, by simp⟩
    simp [TenuresClear, validateTenures, hempty]
  | [t] =>
    rw [Chronological.singleton_iff, validateTenures_singleton_iff, start_lt_stop_iff]
    obtain ⟨join, leave⟩ := t
    cases join with
    | none => simp [TenuresClear]
    | some join =>
      cases leave with
      | none => simp [TenuresClear]
      | some leave =>
        simp only [TenuresClear, Option.mem_def, Option.some.injEq, forall_eq']
        omega
  | first :: second :: rest =>
    rw [validateTenures_cons_cons, validateTenureBody_iff, TenuresClear]
    tauto

/-- A tenure from 2000 to 2005 is chronological and refused. -/
theorem validateTenures_refuses_one_chronological :
    ¬ ∀ tenures : List Tenure, validateTenures tenures = .ok () ↔ Chronological tenures := by
  intro h
  have hchron : Chronological [⟨some 2000, some 2005⟩] := by
    rw [Chronological.singleton_iff, start_lt_stop_iff]
    simp
  have hok := (h [⟨some 2000, some 2005⟩]).mpr hchron
  simp [validateTenures] at hok

theorem validateTenures_of_validate {data : NewArtist} (h : data.validate = .ok ()) :
    ∀ m ∈ data.memberships.getD [], validateTenures m.tenure = .ok () := by
  have hforM : (data.memberships.getD []).forM (fun m => validateTenures m.tenure) = .ok () := by
    unfold validate at h
    cases hmembers : validateArtistTypeAndMembership data.artistType data.memberships with
    | error kind => simp [hmembers, bind, Except.bind] at h
    | ok _ => simpa [hmembers, bind, Except.bind] using h
  clear h
  generalize data.memberships.getD [] = members at hforM ⊢
  induction members with
  | nil => simp
  | cons m members ih =>
    rw [List.forM_eq_forM, List.forM_cons] at hforM
    cases htenures : validateTenures m.tenure with
    | error kind => simp [htenures, bind, Except.bind] at hforM
    | ok _ =>
      rw [htenures] at hforM
      exact List.forall_mem_cons.mpr ⟨htenures, ih hforM⟩

/-- The memberships of an artist that is accepted: several tenures are chronological. -/
theorem chronological_of_validate {data : NewArtist} (h : data.validate = .ok ())
    {m : NewMembership} (hm : m ∈ data.memberships.getD []) (hmany : 1 < m.tenure.length) :
    Chronological m.tenure := by
  have hok := validateTenures_of_validate h m hm
  match htenure : m.tenure with
  | [] => simp [htenure] at hmany
  | [t] => simp [htenure] at hmany
  | first :: second :: rest =>
    rw [htenure, validateTenures_cons_cons, validateTenureBody_iff] at hok
    exact hok.1

end NewArtist

end Thcdb.Catalog
