import Thcdb.Notifications.Inbox

namespace Thcdb.Notifications.Inbox
open Interleaving Relational

/-- A notification that a call created, and whether it handed it to the hub. -/
structure Telling where
  draft : Draft
  id : ℤ
  createdAt : ℕ
  pushed : Bool
  deriving DecidableEq, Repr

/-- A push comes after the row, with what the row says. -/
def Telling.events (i : ℕ) (t : Telling) : List Event :=
  .created i t.draft t.id t.createdAt ::
    if t.pushed then [.pushed i t.draft.recipientUserId (t.draft.wsData t.id t.createdAt)] else []

def Event.isBy (i : ℕ) : Event → Bool
  | .created j .. | .pushed j .. => j = i
  | _ => false

/-- How far a call has come that has `drafts` to create. -/
def Stands (drafts : List Draft) (ts : List Telling) : Call → Prop
  | .creating rest => ts.map Telling.draft ++ rest = drafts
  | .pushing draft id createdAt rest => ts.map Telling.draft ++ rest = drafts ∧
      ∃ before, ts = before ++ [⟨draft, id, createdAt, false⟩]
  | .done true => ts.map Telling.draft = drafts
  | .done false => ts.map Telling.draft <+: drafts
  | _ => False

/-- Everything that the call did is told by `ts`. -/
def Tells (i : ℕ) (drafts : List Draft) (c : Config) : Prop :=
  ∃ ts : List Telling, c.log.filter (Event.isBy i) = ts.flatMap (Telling.events i) ∧
    Stands drafts ts (c.calls i)

section Steps

variable {i j : ℕ} {x : Input} {w w' : World} {l l' : Call} {es : List Event} {drafts : List Draft}
  {ts : List Telling} {c d : Config} {a : Act Input Env} {as : List (Act Input Env)}

theorem start_events (h : start x w = some (w', l', es)) : ∀ e ∈ es, e.isBy i = false := by
  unfold start at h
  split at h <;> (try split at h) <;> cases h <;> simp [Event.isBy]

theorem statement_events (hij : i ≠ j) (h : statement j w l = some (w', l', es)) :
    ∀ e ∈ es, e.isBy i = false := by
  cases l with
  | idle | done ok => cases h
  | creating drafts =>
    cases drafts with
    | nil =>
      cases h
      simp
    | cons draft drafts =>
      simp only [statement] at h
      split at h <;> cases h <;> simp [Event.isBy, hij.symm]
  | pushing draft id createdAt drafts =>
    simp only [statement] at h
    split at h <;> cases h
    · simp
    · split <;> simp [Event.isBy, hij.symm]
  | deleting cutoff =>
    cases h
    simp [Event.isBy]

/-- The other calls log nothing in its name. -/
theorem exec_events (hij : i ≠ j) (h : exec j x w l = some (w', l', es)) :
    ∀ e ∈ es, e.isBy i = false := by
  unfold exec at h
  split at h
  · exact start_events h
  · split at h
    · exact statement_events hij h
    · split at h <;> cases h
      simp
    · cases h

/-- A failed call leaves a beginning of its work. -/
theorem stands_failed (h : Stands drafts ts l) : Stands drafts ts (.done false) := by
  cases l with
  | idle | deleting cutoff => exact h.elim
  | creating rest => exact ⟨rest, h⟩
  | pushing draft id createdAt rest => exact ⟨rest, h.1⟩
  | done ok =>
    cases ok with
    | true => exact (show ts.map Telling.draft = drafts from h) ▸ List.prefix_rfl
    | false => exact h

/-- A statement of the call takes it further. -/
theorem statement_stands (hs : Stands drafts ts l) (h : statement i w l = some (w', l', es)) :
    ∃ ts', ts.flatMap (Telling.events i) ++ es.filter (Event.isBy i) =
      ts'.flatMap (Telling.events i) ∧ Stands drafts ts' l' := by
  cases l with
  | idle | done ok => cases h
  | creating rest =>
    cases rest with
    | nil =>
      cases h
      refine ⟨ts, by simp, ?_⟩
      simpa [Stands] using hs
    | cons draft rest =>
      simp only [statement] at h
      split at h <;> cases h
      · refine ⟨ts ++ [⟨draft, w.notification.next, w.clock, false⟩], ?_, ?_, ts, rfl⟩
        · simp [Telling.events, Event.isBy]
        · rw [← show ts.map Telling.draft ++ draft :: rest = drafts from hs]
          simp
      · exact ⟨ts, by simp, stands_failed hs⟩
  | pushing draft id createdAt rest =>
    simp only [statement] at h
    obtain ⟨hrest, before, rfl⟩ := hs
    split at h <;> cases h
    · exact ⟨_, by simp, ⟨rest, hrest⟩⟩
    · split
      · -- the telling gets its push
        refine ⟨before ++ [⟨draft, id, createdAt, true⟩], ?_, ?_⟩
        · simp [Telling.events, Event.isBy]
        · rw [← hrest]
          simp [Stands]
      · exact ⟨_, by simp, hrest⟩
  | deleting cutoff => exact hs.elim

theorem exec_stands (hs : Stands drafts ts l) (h : exec i x w l = some (w', l', es)) :
    ∃ ts', ts.flatMap (Telling.events i) ++ es.filter (Event.isBy i) =
      ts'.flatMap (Telling.events i) ∧ Stands drafts ts' l' := by
  unfold exec at h
  split at h
  · exact hs.elim
  · split at h
    · exact statement_stands hs h
    · split at h <;> cases h
      exact ⟨ts, by simp, stands_failed hs⟩
    · cases h

theorem Tells.next (ht : Tells i drafts c) (hn : system.next c a = some d) : Tells i drafts d := by
  obtain ⟨ts, hlog, hs⟩ := ht
  cases a with
  | call j x =>
    obtain ⟨w, l, es, he, rfl⟩ := System.next_call_eq_some.mp hn
    by_cases hij : i = j
    · subst hij
      obtain ⟨ts', hts', hs'⟩ := exec_stands hs he
      refine ⟨ts', ?_, ?_⟩
      · rw [← hts', ← hlog, List.filter_append]
      · simpa using hs'
    · refine ⟨ts, ?_, ?_⟩
      · rw [List.filter_append, hlog, List.filter_eq_nil_iff.mpr, List.append_nil]
        intro e hmem
        simp [exec_events hij he e hmem]
      · simpa [Function.update_of_ne hij] using hs
  | env b =>
    obtain ⟨w, -, rfl⟩ := System.next_env_eq_some.mp hn
    exact ⟨ts, hlog, hs⟩

theorem Tells.run (ht : Tells i drafts c) (h : system.run c as = some d) : Tells i drafts d :=
  System.run_induction (I := Tells i drafts) (G := fun _ _ => True)
    (fun _ _ _ hx _ hn => hx.next hn) ht (System.meets_of_forall fun _ _ _ => trivial) h

theorem exec_ne_idle (h : exec i x w l = some (w', l', es)) : l' ≠ .idle := by
  unfold exec at h
  split at h
  · unfold start at h
    split at h <;> (try split at h) <;> cases h <;> simp
  · split at h
    · cases l with
      | idle | done ok => cases h
      | creating drafts =>
        cases drafts with
        | nil =>
          cases h
          simp
        | cons draft drafts =>
          simp only [statement] at h
          split at h <;> cases h <;> simp
      | pushing draft id createdAt drafts =>
        simp only [statement] at h
        split at h <;> cases h <;> simp
      | deleting cutoff =>
        cases h
        simp
    · split at h <;> cases h
      simp
    · cases h

/-- A call that has not begun has done nothing. -/
theorem idle_silent (hlog : c.log = []) (h : system.run c as = some d) :
    ∀ i, d.calls i = .idle → d.log.filter (Event.isBy i) = [] := by
  refine System.run_induction
    (I := fun x => ∀ i, x.calls i = .idle → x.log.filter (Event.isBy i) = [])
    (G := fun _ _ => True) ?_ (by simp [hlog]) (System.meets_of_forall fun _ _ _ => trivial) h
  intro y a z hy _ hn i hi
  cases a with
  | call j x =>
    obtain ⟨w, l, es, he, rfl⟩ := System.next_call_eq_some.mp hn
    by_cases hij : i = j
    · subst hij
      exact absurd (by simpa using hi) (exec_ne_idle he)
    · rw [List.filter_append, hy i (by simpa [Function.update_of_ne hij] using hi),
        List.filter_eq_nil_iff.mpr, List.append_nil]
      intro e hmem
      simp [exec_events hij he e hmem]
  | env b =>
    obtain ⟨w, -, rfl⟩ := System.next_env_eq_some.mp hn
    exact hy i hi

end Steps

/-- How often a reviewer is told of a correction: once for each of the two roles, unless excluded. -/
def due (w : World) (excludeUserIds : List ℤ) (userId : ℤ) : ℕ :=
  if userId ∈ excludeUserIds then 0
  else w.userRole.countP fun r => r.userId = userId && r.roleId ∈ ([1, 2] : List ℤ)

theorem countP_reviewDrafts {w : World} {reviewerIds : List ℤ} (h : reviewerIds.Perm w.reviewerIds)
    (correctionId : ℤ) (excludeUserIds : List ℤ) (userId : ℤ) :
    (reviewDrafts correctionId excludeUserIds reviewerIds).countP (·.recipientUserId = userId) =
      due w excludeUserIds userId := by
  have hcount : (reviewDrafts correctionId excludeUserIds reviewerIds).countP
      (·.recipientUserId = userId) =
      w.reviewerIds.countP fun u => u = userId && !excludeUserIds.contains u := by
    rw [reviewDrafts, List.countP_map, List.countP_filter, h.countP_eq]
    rfl
  rw [hcount, World.reviewerIds, List.countP_map, List.countP_filter, due]
  split
  · next hmem =>
    rw [List.countP_eq_zero]
    intro r _
    simp only [Function.comp_apply, Bool.and_eq_true, decide_eq_true_eq, not_and]
    rintro ⟨rfl, hnot⟩
    simp [hmem] at hnot
  · next hmem =>
    apply List.countP_congr
    intro r _
    simp only [Function.comp_apply, Bool.and_eq_true, decide_eq_true_eq]
    constructor
    · rintro ⟨⟨rfl, -⟩, hrole⟩
      exact ⟨rfl, hrole⟩
    · rintro ⟨rfl, hrole⟩
      exact ⟨⟨rfl, by simpa using hmem⟩, hrole⟩

theorem Stands.isPrefix {drafts : List Draft} {ts : List Telling} {l : Call}
    (h : Stands drafts ts l) : ts.map Telling.draft <+: drafts := stands_failed h

theorem review_begins {c d : Config} {i : ℕ} {correctionId : ℤ}
    {excludeUserIds reviewerIds : List ℤ}
    (hc : system.next c
      (.call i (.notifyCorrectionNeedsReview correctionId excludeUserIds reviewerIds)) = some d) :
    c.calls i = .idle ∧ reviewerIds.Perm c.shared.reviewerIds ∧ d.log = c.log ∧
      d.calls i = .creating (reviewDrafts correctionId excludeUserIds reviewerIds) := by
  obtain ⟨w, l, es, he, rfl⟩ := System.next_call_eq_some.mp hc
  change exec i _ c.shared (c.calls i) = _ at he
  unfold exec at he
  split at he
  · next hidle =>
    simp only [start] at he
    split at he
    · next hperm =>
      cases he
      exact ⟨hidle, hperm, List.append_nil _, by simp⟩
    · cases he
  · split at he <;> simp_all

/-- Whatever runs beside it, a call that asks for the review of a correction creates notifications of
this correction only, pushes each at most once, after its row and with what the row says, and
reaches every reviewer at most once for each reviewer's role; exactly so if it succeeds. -/
theorem review_tells (a c d e : Config) (as bs : List (Act Input Env)) (i : ℕ)
    (correctionId : ℤ) (excludeUserIds reviewerIds : List ℤ) (hlog : a.log = [])
    (ha : system.run a as = some c)
    (hc : system.next c
      (.call i (.notifyCorrectionNeedsReview correctionId excludeUserIds reviewerIds)) = some d)
    (hd : system.run d bs = some e) :
    ∃ ts : List Telling, e.log.filter (Event.isBy i) = ts.flatMap (Telling.events i) ∧
      (∀ t ∈ ts, t.draft = correctionDraft correctionId .CorrectionNeedsReview
        (some "A correction needs review") t.draft.recipientUserId) ∧
      (∀ userId, ts.countP (·.draft.recipientUserId = userId) ≤
        due c.shared excludeUserIds userId) ∧
      (e.calls i = .done true → ∀ userId, ts.countP (·.draft.recipientUserId = userId) =
        due c.shared excludeUserIds userId) := by
  obtain ⟨hidle, hperm, hdlog, hcall⟩ := review_begins hc
  have hbegun : Tells i (reviewDrafts correctionId excludeUserIds reviewerIds) d := by
    refine ⟨[], ?_, ?_⟩
    · rw [hdlog]
      exact idle_silent hlog ha i hidle
    · rw [hcall]
      exact List.nil_append _
  obtain ⟨ts, hevents, hstands⟩ := hbegun.run hd
  have hcount : ∀ userId, ts.countP (·.draft.recipientUserId = userId) =
      (ts.map Telling.draft).countP (·.recipientUserId = userId) := by
    intro userId
    rw [List.countP_map]
    rfl
  refine ⟨ts, hevents, ?_, ?_, ?_⟩
  · intro t ht
    have hmem := hstands.isPrefix.subset (List.mem_map_of_mem ht)
    obtain ⟨userId, -, hdraft⟩ := List.mem_map.mp hmem
    rw [← hdraft]
    rfl
  · intro userId
    rw [hcount, ← countP_reviewDrafts hperm correctionId]
    exact hstands.isPrefix.sublist.countP_le
  · intro hdone userId
    rw [hdone] at hstands
    rw [hcount, ← countP_reviewDrafts hperm correctionId]
    exact congrArg (List.countP _) hstands

/-- User 7 is a moderator, and user 9 an administrator who is a moderator too. -/
def staffed : Config where
  shared :=
    { clock := 0
      notification := Table.empty
      settings := fun _ => some (.obj [])
      userRole := [⟨7, 2⟩, ⟨9, 1⟩, ⟨9, 2⟩]
      correctionUser := [] }
  calls _ := .idle
  log := []

def askForReview : Act Input Env := .call 0 (.notifyCorrectionNeedsReview 3 [7] [9, 7, 9])

def toldTwice : List (Act Input Env) := List.replicate 5 (.call 0 .ok)

theorem staffed_run : system.run staffed [askForReview] =
      some (system.after staffed [askForReview]) ∧
    system.run (system.after staffed [askForReview]) toldTwice =
      some (system.after staffed (askForReview :: toldTwice)) :=
  System.run_after_append (by decide)

theorem staffed_asked : system.next staffed askForReview =
    some (system.after staffed [askForReview]) := by
  obtain ⟨d, hd, hrun⟩ := System.run_cons_eq_some.mp staffed_run.1
  rw [hd]
  exact hrun

theorem review_tells_twice : ∃ ts : List Telling,
    (system.after staffed (askForReview :: toldTwice)).log.filter (Event.isBy 0) =
      ts.flatMap (Telling.events 0) ∧
    (∀ t ∈ ts, t.draft = correctionDraft 3 .CorrectionNeedsReview
      (some "A correction needs review") t.draft.recipientUserId) ∧
    (∀ userId, ts.countP (·.draft.recipientUserId = userId) ≤ due staffed.shared [7] userId) ∧
    ((system.after staffed (askForReview :: toldTwice)).calls 0 = .done true → ∀ userId,
      ts.countP (·.draft.recipientUserId = userId) = due staffed.shared [7] userId) :=
  review_tells staffed staffed (system.after staffed [askForReview]) _ [] toldTwice 0 3 [7]
    [9, 7, 9] rfl rfl staffed_asked staffed_run.2

end Thcdb.Notifications.Inbox
