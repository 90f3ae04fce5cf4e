import Thcdb.Corrections.StatusMachine
import Thcdb.Corrections.Transactions

namespace Thcdb.Corrections
open Auth

variable {D : Type}

def OnePending (w : World D) : Prop :=
  ∀ r ∈ w.corrections, ∀ s ∈ w.corrections, r.status = .Pending → s.status = .Pending →
    r.entityType = s.entityType → r.entityId = s.entityId → r = s

/-- The newest revision of the correction is the history that the upsert has created in `w`. -/
def NewestIsSubmitted (w w' : World D) (entityType : EntityType) (data : EntityData D)
    (id : CorrectionId) : Prop :=
  (∃ v, findRevision w'.revisions id = some v ∧ v.entityHistoryId = w.historySeq entityType) ∧
    ⟨entityType, w.historySeq entityType, data⟩ ∈ w'.histories

/-- An upsert goes into the pending correction, or opens one if there is none. -/
structure UpsertLands (w w' : World D) (outcome : Outcome) (entityType : EntityType)
    (id : EntityId) (new : NewCorrection D) : Prop where
  revises : ∀ p ∈ w.corrections, p.entityType = entityType → p.entityId = id →
    p.status = .Pending → permitted w new.author p → NewestIsSubmitted w w' entityType new.data p.id
  opens : (∃ r ∈ w.corrections, r.entityType = entityType ∧ r.entityId = id) →
    (∀ r ∈ w.corrections, r.entityType = entityType → r.entityId = id → r.status ≠ .Pending) →
    (∃ c, outcome = .submitted c id) ∧
    ∃ p ∈ w'.corrections, (∀ r ∈ w.corrections, r.id ≠ p.id) ∧ p.entityType = entityType ∧
      p.entityId = id ∧ p.status = .Pending ∧ NewestIsSubmitted w w' entityType new.data p.id

def Lands (w w' : World D) (outcome : Outcome) : Input D → Prop
  | .upsert entityType id new => UpsertLands w w' outcome entityType id new
  | _ => True

/-- There is at most one pending correction for each entity all along the run, and every upsert goes
into it. -/
def OneOpenCorrection : World D → List (Request D) → Prop
  | w, [] => OnePending w
  | w, r :: rs => OnePending w ∧ ∀ w' outcome, transact w r = some (w', outcome) →
      Lands w w' outcome r.input ∧ OneOpenCorrection w' rs

/-- The entity has no correction, or a pending one that this user may not revise. -/
def Barred (w : World D) (entityType : EntityType) (id : EntityId) (user : User) : Prop :=
  (∀ r ∈ w.corrections, r.entityType = entityType → r.entityId ≠ id) ∨
    ∃ p ∈ w.corrections, p.entityType = entityType ∧ p.entityId = id ∧ p.status = .Pending ∧
      ¬permitted w user p

def UpsertBarred (w : World D) : Input D → Prop
  | .upsert entityType id new => Barred w entityType id new.author
  | _ => True

def UpsertsBarred : World D → List (Request D) → Prop
  | _, [] => True
  | w, r :: rs => UpsertBarred w r.input ∧
      ∀ w' outcome, transact w r = some (w', outcome) → UpsertsBarred w' rs

variable {w w' : World D} {outcome : Outcome} {entityType : EntityType} {id : EntityId}
  {new : NewCorrection D}

/-- No revision of an older correction is the history that the upsert creates. -/
theorem not_submitted (hw : w.Wf) {p : Correction} (hp : p ∈ w.corrections)
    (ht : p.entityType = entityType)
    (hkept : ∀ v ∈ w'.revisions, v.correctionId = p.id → v ∈ w.revisions) {data : EntityData D} :
    ¬NewestIsSubmitted w w' entityType data p.id := by
  rintro ⟨⟨v, hv, hid⟩, -⟩
  obtain ⟨hmem, hc⟩ := findRevision_mem hv
  have hlt := hw.histories_lt v (hkept v hmem hc) p hp hc.symm
  rw [ht, hid] at hlt
  exact lt_irrefl _ hlt

/-- A revision of a pending correction is never written by `upsert`. -/
theorem upsert_revisions (hw : w.Wf) {p : Correction} (hp : p ∈ w.corrections)
    (hs : p.status = .Pending) {v : CorrectionRevision}
    (hv : v ∈ (w.upsert entityType id new).revisions) (hc : v.correctionId = p.id) :
    v ∈ w.revisions := by
  unfold World.upsert at hv
  split at hv
  · exact hv
  · next previous hl =>
    obtain ⟨hmem, hid, htype⟩ := findLatest_mem hl
    split at hv
    · split at hv
      · rcases List.mem_append.mp hv with hv | hv
        · exact hv
        · rw [List.mem_singleton.mp hv] at hc
          exact absurd hc.symm (ne_of_lt (hw.corrections_lt p hp))
      · exact hv
    · exact hv
    · next hr =>
      rcases List.mem_append.mp hv with hv | hv
      · exact hv
      · rw [List.mem_singleton.mp hv] at hc
        obtain rfl := hw.eq_of_id hmem hp hc
        rw [hr] at hs
        cases hs

/-- `upsert` opens a correction only beside a pending one. -/
theorem upsert_corrections {p : Correction} (hp : p ∈ (w.upsert entityType id new).corrections)
    (hnew : ∀ r ∈ w.corrections, r.id ≠ p.id) :
    ∃ r ∈ w.corrections, r.entityType = entityType ∧ r.entityId = id ∧ r.status = .Pending := by
  have hold : p ∉ w.corrections := fun hmem => hnew p hmem rfl
  unfold World.upsert at hp
  split at hp
  · exact absurd hp hold
  · next previous hl =>
    obtain ⟨hmem, hid, htype⟩ := findLatest_mem hl
    split at hp
    · next hs => exact ⟨previous, hmem, htype, hid, hs⟩
    · exact absurd hp hold
    · exact absurd hp hold

theorem not_lands (hw : w.Wf) {duration : ℕ}
    (hb : ¬Barred w entityType id new.author) :
    ¬UpsertLands w ((w.upsert entityType id new).later duration) outcome entityType id new := by
  intro hl
  simp only [Barred, not_or, not_forall, not_exists, not_and, not_not] at hb
  obtain ⟨⟨r, hr, ht, hid⟩, hpermitted⟩ := hb
  by_cases hp : ∃ p ∈ w.corrections, p.entityType = entityType ∧ p.entityId = id ∧
      p.status = .Pending
  · obtain ⟨p, hmem, htype, hpid, hs⟩ := hp
    have hsubmitted := hl.revises p hmem htype hpid hs (hpermitted p hmem htype hpid hs)
    exact not_submitted hw hmem htype (fun v hv hc => upsert_revisions hw hmem hs hv hc)
      hsubmitted
  · simp only [not_exists, not_and] at hp
    obtain ⟨-, p, hmem, hnew, -⟩ := hl.opens ⟨r, hr, ht, hid⟩ hp
    obtain ⟨s, hs, hstype, hsid, hpending⟩ := upsert_corrections hmem hnew
    exact hp s hs hstype hsid hpending

/-- A barred upsert is one that the law says nothing about. -/
theorem lands_of_barred (h : OnePending w) (hb : Barred w entityType id new.author) :
    UpsertLands w w' outcome entityType id new where
  revises p hp ht hid hs hpermitted := by
    rcases hb with hb | ⟨q, hq, htq, hidq, hsq, hnot⟩
    · exact absurd hid (hb p hp ht)
    · obtain rfl := h p hp q hq hs hsq (ht.trans htq.symm) (hid.trans hidq.symm)
      exact absurd hpermitted hnot
  opens hsome hnone := by
    rcases hb with hb | ⟨q, hq, htq, hidq, hsq, -⟩
    · obtain ⟨r, hr, ht, hid⟩ := hsome
      exact absurd hid (hb r hr ht)
    · exact absurd hsq (hnone q hq htq hidq)

namespace OnePending

/-- Rows that keep their entity, and that are pending only if they were before. -/
theorem map (h : OnePending w) {f : Correction → Correction}
    (hc : w'.corrections = w.corrections.map f) (ht : ∀ r, (f r).entityType = r.entityType)
    (hid : ∀ r, (f r).entityId = r.entityId) (hs : ∀ r, (f r).status = .Pending → r.status = .Pending) :
    OnePending w' := by
  intro r hr s hs' hpr hps htype hentity
  rw [hc] at hr hs'
  obtain ⟨r, hmem, rfl⟩ := List.mem_map.mp hr
  obtain ⟨s, hmem', rfl⟩ := List.mem_map.mp hs'
  rw [ht, ht] at htype
  rw [hid, hid] at hentity
  rw [h r hmem s hmem' (hs r hpr) (hs s hps) htype hentity]

theorem handle (h : OnePending w) (method : HandleCorrectionMethod) (id : CorrectionId)
    (approver : User) : OnePending (w.handle method id approver) := by
  unfold World.handle
  split
  · exact h
  · next d entities _ =>
    refine h.map (f := d.update) rfl d.update_entityType d.update_entityId ?_
    intro r hs
    unfold Decision.update at hs
    split at hs
    · cases hm : d.method <;> simp [hm, HandleCorrectionMethod.status] at hs
    · exact hs

theorem create (h : OnePending w) (entityType : EntityType) (new : NewCorrection D) :
    OnePending (w.create entityType new) := by
  intro r hr s hs hpr hps ht hid
  rcases List.mem_append.mp hr with hr | hr
  · rcases List.mem_append.mp hs with hs | hs
    · exact h r hr s hs hpr hps ht hid
    · rw [List.mem_singleton.mp hs] at hps
      cases hps
  · rw [List.mem_singleton.mp hr] at hpr
    cases hpr

theorem upsert (h : OnePending w) (hb : Barred w entityType id new.author) :
    OnePending (w.upsert entityType id new) := by
  unfold World.upsert
  split
  · exact h
  · next previous hl =>
    obtain ⟨hmem, hid, htype⟩ := findLatest_mem hl
    split
    · next hs =>
      split
      · next hpermitted =>
        rcases hb with hb | ⟨q, hq, htq, hidq, hsq, hnot⟩
        · exact absurd hid (hb previous hmem htype)
        · obtain rfl := h previous hmem q hq hs hsq (htype.trans htq.symm) (hid.trans hidq.symm)
          exact absurd hpermitted hnot
      · exact h
    · exact h
    · exact h

end OnePending

/-- One transaction: an upsert lands where it should only if the law says nothing about it, and
then there is still at most one pending correction. -/
theorem lands_step (hw : w.Wf) (h : OnePending w) {r : Request D}
    (ht : transact w r = some (w', outcome)) :
    (Lands w w' outcome r.input ↔ UpsertBarred w r.input) ∧
      (UpsertBarred w r.input → OnePending w') := by
  obtain ⟨input, duration⟩ := r
  obtain ⟨v, hv, rfl⟩ := transact_eq_some hw ht
  cases input with
  | create entityType new =>
    cases hv
    exact ⟨Iff.rfl, fun _ => h.create entityType new⟩
  | upsert entityType id new =>
    cases hv
    refine ⟨⟨fun hl => ?_, lands_of_barred h⟩, fun hb => h.upsert hb⟩
    by_contra hb
    exact not_lands hw hb hl
  | handle method id approver =>
    cases hv
    exact ⟨Iff.rfl, fun _ => h.handle method id approver⟩
  | ok => cases hv
  | fail => cases hv

theorem transact_of_not_barred (hw : w.Wf) {r : Request D} (h : ¬UpsertBarred w r.input) :
    ∃ w' outcome, transact w r = some (w', outcome) := by
  obtain ⟨input, duration⟩ := r
  cases input with
  | upsert entityType id new =>
    obtain ⟨outcome, ht⟩ := transact_upsert hw duration entityType id new
    exact ⟨_, outcome, ht⟩
  | create entityType new => exact absurd trivial h
  | handle method id approver => exact absurd trivial h
  | ok => exact absurd trivial h
  | fail => exact absurd trivial h

/-- From any tables with at most one pending correction for each entity. -/
theorem one_open_correction (hw : w.Wf) (h : OnePending w) (rs : List (Request D)) :
    OneOpenCorrection w rs ↔ UpsertsBarred w rs := by
  induction rs generalizing w with
  | nil => exact ⟨fun _ => trivial, fun _ => h⟩
  | cons r rs ih =>
    constructor
    · rintro ⟨-, hrun⟩
      have hb : UpsertBarred w r.input := by
        by_contra hb
        obtain ⟨w', outcome, ht⟩ := transact_of_not_barred hw hb
        exact hb ((lands_step hw h ht).1.mp (hrun w' outcome ht).1)
      refine ⟨hb, ?_⟩
      intro w' outcome ht
      have hone := (lands_step hw h ht).2 hb
      exact (ih (hw.transact ht) hone).mp (hrun w' outcome ht).2
    · rintro ⟨hb, hrun⟩
      refine ⟨h, ?_⟩
      intro w' outcome ht
      obtain ⟨hlands, hone⟩ := lands_step hw h ht
      exact ⟨hlands.mpr hb, (ih (hw.transact ht) (hone hb)).mpr (hrun w' outcome ht)⟩

theorem plainWorld_wf : plainWorld.Wf where
  unlocked _ := rfl
  corrections_nodup := by decide
  corrections_lt := by decide
  entities_lt := by decide
  revisions_lt := by decide
  histories_lt := by decide

theorem plainWorld_onePending : OnePending plainWorld := by
  intro r hr s hs _ _ _ _
  rw [List.mem_singleton.mp hr, List.mem_singleton.mp hs]

/-- Somebody else tries to revise the author's correction, which is then approved. -/
def strangerRun : List (Request String) :=
  [⟨.upsert .Tag 1 ⟨.columns "ROCK", ⟨9, [.User]⟩, "louder", .Update⟩, 40⟩,
    ⟨.handle .Approve 1 ⟨2, [.Moderator]⟩, 40⟩]

theorem one_open_correction_stranger : OneOpenCorrection plainWorld strangerRun := by
  apply (one_open_correction plainWorld_wf plainWorld_onePending strangerRun).mpr
  refine ⟨Or.inr ⟨_, List.mem_singleton_self _, rfl, rfl, rfl, by decide⟩, ?_⟩
  exact fun _ _ _ => ⟨trivial, fun _ _ _ => trivial⟩

def createdRun : List (Request String) :=
  [⟨.create .Tag ⟨.columns "rock", ⟨5, [.User]⟩, "new", .Create⟩, 40⟩,
    ⟨.upsert .Tag 1 ⟨.columns "Rock", ⟨5, [.User]⟩, "capital letter", .Update⟩, 40⟩]

def revisedRun : List (Request String) :=
  [⟨.upsert .Tag 1 ⟨.columns "ROCK", ⟨5, [.User]⟩, "louder", .Update⟩, 40⟩]

/-- From empty tables, the created tag cannot be corrected; and a pending correction gets a second
one beside it. -/
theorem no_open_correction :
    ¬(∀ rs, OneOpenCorrection World.empty rs) ∧ ¬∀ rs, OneOpenCorrection plainWorld rs := by
  constructor
  · intro hall
    obtain ⟨-, hrun⟩ := hall createdRun
    obtain ⟨-, -, hrun⟩ := hrun _ _ rfl
    obtain ⟨hlands, -⟩ := hrun _ _ rfl
    obtain ⟨⟨c, hc⟩, -⟩ := hlands.opens ⟨_, List.mem_singleton_self _, rfl, rfl⟩ (by decide)
    cases hc
  · intro hall
    obtain ⟨-, hrun⟩ := hall revisedRun
    obtain ⟨-, hone⟩ := hrun _ _ rfl
    exact absurd (congrArg Correction.id
      (hone _ List.mem_cons_self _ (List.mem_cons_of_mem _ List.mem_cons_self) rfl rfl rfl rfl))
      (by decide)

end Thcdb.Corrections
