import Thcdb.Corrections.Content
import Thcdb.Corrections.StatusMachine
import Thcdb.Corrections.Transactions
import Thcdb.Interleaving.Issued

namespace Thcdb.Corrections
open Auth Interleaving Relational

variable {D : Type}

def Typed : Act (Input D) Env → Prop
  | .call _ (.create entityType new) => new.data.Fits entityType
  | .call _ (.upsert entityType _ new) => new.data.Fits entityType
  | _ => True

/-- Rows are of their kind, and told apart by keys that their sequences have passed. -/
structure World.Founded (w : World D) : Prop where
  entities_fit : ∀ e ∈ w.entities, e.data.Fits e.entityType
  histories_fit : ∀ h ∈ w.histories, h.data.Fits h.entityType
  corrections_nodup : (w.corrections.map Correction.id).Nodup
  corrections_lt : ∀ r ∈ w.corrections, r.id < w.correctionSeq
  histories_nodup : (w.histories.map fun h => (h.entityType, h.id)).Nodup
  histories_lt : ∀ h ∈ w.histories, h.id < w.historySeq h.entityType

section Requests

variable (as : List (Act (Input D) Env))

/-- A call was to create the entity with this content, or to correct it so. -/
def Submitted (entityType : EntityType) (id : EntityId) (new : NewCorrection D) : Prop :=
  ∃ i, .call i (.create entityType new) ∈ as ∨ .call i (.upsert entityType id new) ∈ as

def Created (slot : Slot) (x : Content D) : Prop :=
  ∃ i entityType id new, .call i (.create entityType new) ∈ as ∧
    new.data.slot entityType id = slot ∧ new.data.content = x

/-- Call `i` was to approve or to reject the correction, and whoever made it is on record. -/
def Charged (users : List CorrectionUser) (i : ℕ) (method : HandleCorrectionMethod)
    (id : CorrectionId) : Prop :=
  ∃ approver : User, .call i (.handle method id approver) ∈ as ∧
    ⟨id, approver.id, .Approver⟩ ∈ users

/-- The author of the revision has submitted the history that it adds to its correction. -/
def Attested (corrections : List Correction) (histories : List (History D))
    (v : CorrectionRevision) : Prop :=
  ∃ r ∈ corrections, r.id = v.correctionId ∧ ∃ h ∈ histories, h.entityType = r.entityType ∧
    h.id = v.entityHistoryId ∧ ∃ new, Submitted as r.entityType r.entityId new ∧
      new.author.id = v.authorId ∧ new.description = v.description ∧ new.data = h.data

/-- What an event of the log stands for in the tables `w'`, after a run from `w`. -/
def Accounted (w w' : World D) : Event → Prop
  | .decided i id status _ =>
    ∃ method, Charged as w'.correctionUsers i method id ∧ method.status = status
  | .applied i id historyId =>
    Charged as w'.correctionUsers i .Approve id ∧
    ∃ r h v, findById w'.corrections id = some r ∧
      findHistory w'.histories r.entityType historyId = some h ∧
      v ∈ w'.revisions ∧ v.correctionId = id ∧ v.entityHistoryId = historyId ∧
      (v ∈ w.revisions ∨ ∃ new, Submitted as r.entityType r.entityId new ∧
        new.author.id = v.authorId ∧ new.description = v.description ∧ new.data = h.data)

end Requests

/-- No row is lost, and a correction stays with its entity. -/
structure World.Grows (w w' : World D) : Prop where
  corrections : ∃ f new, w'.corrections = w.corrections.map f ++ new ∧ ∀ r : Correction,
    (f r).id = r.id ∧ (f r).entityType = r.entityType ∧ (f r).entityId = r.entityId
  histories : w.histories <+: w'.histories
  correctionUsers : w.correctionUsers ⊆ w'.correctionUsers
  revisions : w.revisions ⊆ w'.revisions

namespace World.Grows

variable {w w' : World D}

theorem of_rows (h : w'.rows = w.rows) : w.Grows w' := by
  simp only [World.rows, Prod.mk.injEq] at h
  obtain ⟨-, hhistories, hcorrections, husers, hrevisions⟩ := h
  refine ⟨⟨id, [], ?_, fun r => ⟨rfl, rfl, rfl⟩⟩, ?_, ?_, ?_⟩
  · simp [hcorrections]
  · simp [hhistories]
  · exact fun u hu => husers ▸ hu
  · exact fun r hr => hrevisions ▸ hr

theorem of_commit {tx : Tx D} (h : tx.commit w = some w') (i : ℕ) : w.Grows (w'.release i) := by
  obtain ⟨entities, -, rfl⟩ := Tx.commit_eq_some h
  refine ⟨⟨tx.update, tx.corrections, rfl, ?_⟩, List.prefix_append .., List.subset_append_left ..,
    List.subset_append_left ..⟩
  intro r
  unfold Tx.update
  cases tx.decision with
  | none => exact ⟨rfl, rfl, rfl⟩
  | some d => exact ⟨d.update_id r, d.update_entityType r, d.update_entityId r⟩

theorem of_exec {i : ℕ} {a : Input D} {c : Call D} {r : World D × Call D × List Event}
    (h : system.exec i a w c = some r) : w.Grows r.1 := by
  rcases exec_cases h with ⟨hrows, -⟩ | ⟨tx, outcome, w', -, -, hcommit, rfl⟩
  · exact of_rows hrows
  · exact of_commit hcommit i

variable (h : w.Grows w')
include h

theorem correction {id : CorrectionId} {r : Correction} (hr : findById w.corrections id = some r) :
    ∃ r', findById w'.corrections id = some r' ∧ r'.entityType = r.entityType ∧
      r'.entityId = r.entityId := by
  obtain ⟨f, new, hrows, hf⟩ := h.corrections
  rw [hrows]
  exact ⟨f r, findById_publish f (fun s => (hf s).1) hr, (hf r).2⟩

theorem mem_corrections {r : Correction} (hr : r ∈ w.corrections) :
    ∃ r' ∈ w'.corrections, r'.id = r.id ∧ r'.entityType = r.entityType ∧
      r'.entityId = r.entityId := by
  obtain ⟨f, new, hrows, hf⟩ := h.corrections
  rw [hrows]
  exact ⟨f r, List.mem_append_left _ (List.mem_map_of_mem hr), hf r⟩

theorem history {entityType : EntityType} {id : HistoryId} {x : History D}
    (hx : findHistory w.histories entityType id = some x) :
    findHistory w'.histories entityType id = some x := by
  obtain ⟨new, hnew⟩ := h.histories
  unfold findHistory at *
  rw [← hnew, List.find?_append, hx, Option.some_or]

end World.Grows

section Sound

variable (as : List (Act (Input D) Env)) (i : ℕ) (w : World D)

structure Tx.Sound (tx : Tx D) : Prop where
  entities : ∀ e ∈ tx.entities, e.data.Fits e.entityType ∧
    ∃ j new, .call j (.create e.entityType new) ∈ as ∧ new.data = e.data
  histories : ∀ h ∈ tx.histories, h.data.Fits h.entityType
  revisions : ∀ v ∈ tx.revisions, Attested as (w.corrections ++ tx.corrections) tx.histories v

structure Decision.Sound (users : List CorrectionUser) (d : Decision D) : Prop where
  charged : Charged as users i d.method d.correction.id
  filed : ∃ r, findById w.corrections d.correction.id = some r ∧
    r.entityType = d.correction.entityType ∧ r.entityId = d.correction.entityId
  history : ∀ h, d.history = some h → d.method = .Approve ∧
    findHistory w.histories d.correction.entityType h.id = some h ∧
    ∃ v ∈ w.revisions, v.correctionId = d.correction.id ∧ v.entityHistoryId = h.id

def NewCorrectionMeta.Sound (tx : Tx D) (new : NewCorrectionMeta) : Prop :=
  ∃ n, Submitted as new.entityType new.entityId n ∧ n.author = new.author ∧
    n.description = new.description ∧ ⟨new.entityType, new.historyId, n.data⟩ ∈ tx.histories

/-- The correction is there or about to be, and of this entity. -/
def Filed (tx : Tx D) (id : CorrectionId) (new : NewCorrectionMeta) : Prop :=
  ∃ r ∈ w.corrections ++ tx.corrections, r.id = id ∧ r.entityType = new.entityType ∧
    r.entityId = new.entityId

def Call.Sound : Call D → Prop
  | .idle | .done _ => True
  | .createEntity tx new entityType =>
    tx.Sound as w ∧ tx.decision = none ∧ .call i (.create entityType new) ∈ as
  | .createHistory tx new entityType id _ =>
    tx.Sound as w ∧ tx.decision = none ∧ Submitted as entityType id new
  | .findPrevious tx new | .isAuthor tx new _ | .insertCorrection tx new =>
    tx.Sound as w ∧ tx.decision = none ∧ new.Sound as tx
  | .insertAuthor tx new id | .insertRevision tx new id =>
    tx.Sound as w ∧ tx.decision = none ∧ new.Sound as tx ∧ Filed w tx id new
  | .findSubmitted tx _ => tx.Sound as w ∧ tx.decision = none
  | .findCorrection tx method id approver =>
    tx.Sound as w ∧ .call i (.handle method id approver) ∈ as
  | .insertApprover tx method correction approver =>
    tx.Sound as w ∧ .call i (.handle method correction.id approver) ∈ as
  | .readClock tx method correction | .updateStatus tx method correction _ =>
    tx.Sound as w ∧ Charged as tx.correctionUsers i method correction.id
  | .findRevision tx d =>
    tx.Sound as w ∧ d.Sound as i w tx.correctionUsers ∧ d.method = .Approve
  | .findHistory tx d historyId =>
    tx.Sound as w ∧ d.Sound as i w tx.correctionUsers ∧ d.method = .Approve ∧
      ∃ v ∈ w.revisions, v.correctionId = d.correction.id ∧ v.entityHistoryId = historyId
  | .commit tx _ => tx.Sound as w ∧ ∀ d, tx.decision = some d → d.Sound as i w tx.correctionUsers

end Sound

section Mono

variable {as : List (Act (Input D) Env)} {i : ℕ} {w w' : World D}

theorem Attested.mono {corrections corrections' : List Correction}
    {histories histories' : List (History D)} {v : CorrectionRevision}
    (h : Attested as corrections histories v)
    (hc : ∀ r ∈ corrections, ∃ r' ∈ corrections', r'.id = r.id ∧ r'.entityType = r.entityType ∧
      r'.entityId = r.entityId) (hh : histories ⊆ histories') :
    Attested as corrections' histories' v := by
  obtain ⟨r, hr, hid, x, hx, htype, hrest⟩ := h
  obtain ⟨r', hr', hid', htype', hentity'⟩ := hc r hr
  refine ⟨r', hr', hid'.trans hid, x, hh hx, htype.trans htype'.symm, ?_⟩
  rwa [htype', hentity']

theorem World.Grows.append (h : w.Grows w') (new : List Correction) :
    ∀ r ∈ w.corrections ++ new, ∃ r' ∈ w'.corrections ++ new, r'.id = r.id ∧
      r'.entityType = r.entityType ∧ r'.entityId = r.entityId := by
  intro r hr
  rcases List.mem_append.mp hr with hr | hr
  · obtain ⟨r', hr', hsame⟩ := h.mem_corrections hr
    exact ⟨r', List.mem_append_left _ hr', hsame⟩
  · exact ⟨r, List.mem_append_right _ hr, rfl, rfl, rfl⟩

theorem Tx.Sound.mono {tx : Tx D} (hs : tx.Sound as w) (h : w.Grows w') : tx.Sound as w' where
  entities := hs.entities
  histories := hs.histories
  revisions v hv := (hs.revisions v hv).mono (h.append _) (List.Subset.refl _)

theorem Decision.Sound.mono {d : Decision D} {users : List CorrectionUser}
    (hs : d.Sound as i w users) (h : w.Grows w') : d.Sound as i w' users where
  charged := hs.charged
  filed := by
    obtain ⟨r, hr, htype, hentity⟩ := hs.filed
    obtain ⟨r', hr', htype', hentity'⟩ := h.correction hr
    exact ⟨r', hr', htype'.trans htype, hentity'.trans hentity⟩
  history x hx := by
    obtain ⟨hm, hfound, v, hv, hrest⟩ := hs.history x hx
    exact ⟨hm, h.history hfound, v, h.revisions hv, hrest⟩

theorem Filed.mono {tx : Tx D} {id : CorrectionId} {new : NewCorrectionMeta}
    (hf : Filed w tx id new) (h : w.Grows w') : Filed w' tx id new := by
  obtain ⟨r, hr, hid, htype, hentity⟩ := hf
  obtain ⟨r', hr', hid', htype', hentity'⟩ := h.append tx.corrections r hr
  exact ⟨r', hr', hid'.trans hid, htype'.trans htype, hentity'.trans hentity⟩

theorem Call.Sound.mono {c : Call D} (hs : c.Sound as i w) (h : w.Grows w') : c.Sound as i w' := by
  cases c with
  | idle | done => trivial
  | createEntity | createHistory | findPrevious | isAuthor | insertCorrection | findSubmitted |
      findCorrection | insertApprover | readClock | updateStatus =>
    exact ⟨hs.1.mono h, hs.2⟩
  | insertAuthor | insertRevision => exact ⟨hs.1.mono h, hs.2.1, hs.2.2.1, hs.2.2.2.mono h⟩
  | findRevision => exact ⟨hs.1.mono h, hs.2.1.mono h, hs.2.2⟩
  | findHistory =>
    obtain ⟨hsound, hd, hm, v, hv, hrest⟩ := hs
    exact ⟨hsound.mono h, hd.mono h, hm, v, h.revisions hv, hrest⟩
  | commit => exact ⟨hs.1.mono h, fun d hd => (hs.2 d hd).mono h⟩

end Mono

section Steps

variable {as : List (Act (Input D) Env)} {i : ℕ} {w : World D} {c : Call D}

theorem Tx.sound_begin (w : World D) : (Tx.begin w).Sound as w :=
  ⟨by simp [Tx.begin], by simp [Tx.begin], by simp [Tx.begin]⟩

theorem Call.Sound.start {a : Input D} (ha : .call i a ∈ as) {c' : Call D}
    (h : start w a = some c') : c'.Sound as i w := by
  cases a with
  | create entityType new =>
    obtain rfl := Option.some.inj h
    exact ⟨Tx.sound_begin w, rfl, ha⟩
  | upsert entityType id new =>
    obtain rfl := Option.some.inj h
    exact ⟨Tx.sound_begin w, rfl, i, Or.inr ha⟩
  | handle method id approver =>
    obtain rfl := Option.some.inj h
    exact ⟨Tx.sound_begin w, ha⟩
  | ok => cases h
  | fail => cases h

theorem Submitted.fits (htyped : ∀ a ∈ as, Typed a) {entityType : EntityType} {id : EntityId}
    {new : NewCorrection D} (h : Submitted as entityType id new) : new.data.Fits entityType := by
  obtain ⟨j, hj | hj⟩ := h
  · exact htyped _ hj
  · exact htyped _ hj

/-- The next statement of a sound call, in the rows that it has found. -/
theorem Call.Sound.statement (htyped : ∀ a ∈ as, Typed a) (hs : c.Sound as i w)
    {r : World D × Call D × List Event} (h : statement i w c = some r) : r.2.1.Sound as i w := by
  cases c with
  | idle | done => cases h
  | createEntity tx new entityType =>
    obtain ⟨hsound, hnone, ha⟩ := hs
    obtain rfl := Option.some.inj h
    refine ⟨⟨?_, hsound.histories, hsound.revisions⟩, hnone, i, Or.inl ha⟩
    intro e he
    rcases List.mem_append.mp he with he | he
    · exact hsound.entities e he
    · rw [List.mem_singleton.mp he]
      exact ⟨htyped _ ha, i, new, ha, rfl⟩
  | createHistory tx new entityType id status =>
    obtain ⟨hsound, hnone, hsub⟩ := hs
    obtain rfl := Option.some.inj h
    have hsound' : Tx.Sound as w { tx with
        histories := tx.histories ++ [⟨entityType, w.historySeq entityType, new.data⟩] } := by
      refine ⟨hsound.entities, ?_, ?_⟩
      · intro x hx
        rcases List.mem_append.mp hx with hx | hx
        · exact hsound.histories x hx
        · rw [List.mem_singleton.mp hx]
          exact hsub.fits htyped
      · intro v hv
        exact (hsound.revisions v hv).mono (fun r hr => ⟨r, hr, rfl, rfl, rfl⟩)
          (List.subset_append_left ..)
    have hmeta : NewCorrectionMeta.Sound as { tx with
        histories := tx.histories ++ [⟨entityType, w.historySeq entityType, new.data⟩] }
        ⟨new.author, new.type, entityType, id, w.historySeq entityType, new.description, status⟩ :=
      ⟨new, hsub, rfl, rfl, List.mem_append_right _ (List.mem_singleton_self _)⟩
    dsimp only
    split_ifs
    · exact ⟨hsound', hnone, hmeta⟩
    · exact ⟨hsound', hnone, hmeta⟩
  | findPrevious tx new =>
    obtain ⟨hsound, hnone, hmeta⟩ := hs
    simp only [Corrections.statement] at h
    split at h
    · obtain rfl := Option.some.inj h
      trivial
    · next previous hl =>
      obtain ⟨hmem, hid, htype⟩ := findLatest_mem hl
      split at h
      · split at h
        · obtain rfl := Option.some.inj h
          exact ⟨hsound, hnone, hmeta⟩
        · obtain rfl := Option.some.inj h
          exact ⟨hsound, hnone, hmeta⟩
      · obtain rfl := Option.some.inj h
        trivial
      · obtain rfl := Option.some.inj h
        exact ⟨hsound, hnone, hmeta, previous, List.mem_append_left _ hmem, rfl, htype, hid⟩
  | isAuthor tx new previous =>
    simp only [Corrections.statement] at h
    split at h
    · obtain rfl := Option.some.inj h
      exact hs
    · obtain rfl := Option.some.inj h
      trivial
  | insertCorrection tx new =>
    obtain ⟨hsound, hnone, hmeta⟩ := hs
    simp only [Corrections.statement] at h
    split at h
    · obtain rfl := Option.some.inj h
      trivial
    · obtain rfl := Option.some.inj h
      refine ⟨⟨hsound.entities, hsound.histories, ?_⟩, hnone, hmeta, _, List.mem_append_right _
        (List.mem_append_right _ (List.mem_singleton_self _)), rfl, rfl, rfl⟩
      intro v hv
      refine (hsound.revisions v hv).mono ?_ (List.Subset.refl _)
      intro r hr
      refine ⟨r, ?_, rfl, rfl, rfl⟩
      rw [← List.append_assoc]
      exact List.mem_append_left _ hr
  | insertAuthor tx new id =>
    obtain rfl := Option.some.inj h
    exact ⟨⟨hs.1.entities, hs.1.histories, hs.1.revisions⟩, hs.2⟩
  | insertRevision tx new id =>
    obtain ⟨hsound, hnone, ⟨n, hsub, hauthor, hdesc, hhist⟩, r₀, hr₀, hid, htype, hentity⟩ := hs
    have hsound' : Tx.Sound as w { tx with
        revisions := tx.revisions ++ [⟨id, new.historyId, new.author.id, new.description⟩] } := by
      refine ⟨hsound.entities, hsound.histories, ?_⟩
      intro v hv
      rcases List.mem_append.mp hv with hv | hv
      · exact hsound.revisions v hv
      · -- the revision of this submission
        obtain rfl := List.mem_singleton.mp hv
        refine ⟨r₀, hr₀, hid, _, hhist, htype.symm, rfl, n, ?_, ?_, hdesc, rfl⟩
        · rwa [htype, hentity]
        · rw [hauthor]
    simp only [Corrections.statement] at h
    split at h
    · obtain rfl := Option.some.inj h
      exact ⟨hsound', hnone⟩
    · obtain rfl := Option.some.inj h
      refine ⟨hsound', fun d hd => ?_⟩
      rw [hnone] at hd
      cases hd
  | findSubmitted tx new =>
    simp only [Corrections.statement] at h
    split at h
    · obtain rfl := Option.some.inj h
      trivial
    · obtain rfl := Option.some.inj h
      refine ⟨hs.1, fun d hd => ?_⟩
      rw [hs.2] at hd
      cases hd
  | findCorrection tx method id approver =>
    simp only [Corrections.statement] at h
    split at h
    · obtain rfl := Option.some.inj h
      trivial
    · next correction hf =>
      obtain rfl := Option.some.inj h
      refine ⟨hs.1, ?_⟩
      rw [findById_id hf]
      exact hs.2
  | insertApprover tx method correction approver =>
    obtain ⟨w', -, rfl⟩ := Option.map_eq_some_iff.mp h
    split
    · trivial
    · exact ⟨⟨hs.1.entities, hs.1.histories, hs.1.revisions⟩, approver, hs.2,
        List.mem_append_right _ (List.mem_singleton_self _)⟩
  | readClock tx method correction =>
    obtain rfl := Option.some.inj h
    exact hs
  | updateStatus tx method correction handledAt =>
    obtain ⟨hsound, hcharged⟩ := hs
    obtain ⟨w', hw, rfl⟩ := Option.map_eq_some_iff.mp h
    have hrows := World.corrections_eq (World.acquire_rows hw)
    split
    · trivial
    · next r hf =>
      rw [hrows] at hf
      have hid := findById_id hf
      rw [← hid] at hf hcharged
      have hd : Decision.Sound as i w tx.correctionUsers ⟨method,
          { r with status := method.status, handledAt := some handledAt }, handledAt, none⟩ :=
        ⟨hcharged, ⟨r, hf, rfl, rfl⟩, by simp⟩
      cases method with
      | Approve => exact ⟨hsound, hd, rfl⟩
      | Reject =>
        refine ⟨⟨hsound.entities, hsound.histories, hsound.revisions⟩, fun d hd' => ?_⟩
        rw [← Option.some.inj hd']
        exact hd
  | findRevision tx d =>
    simp only [Corrections.statement] at h
    split at h
    · obtain rfl := Option.some.inj h
      trivial
    · next v hv =>
      obtain rfl := Option.some.inj h
      obtain ⟨hmem, hid⟩ := findRevision_mem hv
      exact ⟨hs.1, hs.2.1, hs.2.2, v, hmem, hid, rfl⟩
  | findHistory tx d historyId =>
    obtain ⟨hsound, hd, hm, v, hv, hid, hhid⟩ := hs
    simp only [Corrections.statement] at h
    split at h
    · obtain rfl := Option.some.inj h
      trivial
    · next x hx =>
      obtain rfl := Option.some.inj h
      refine ⟨⟨hsound.entities, hsound.histories, hsound.revisions⟩, fun d' hd' => ?_⟩
      rw [← Option.some.inj hd']
      have hxid : x.id = historyId := by
        have hfound := List.find?_some hx
        simp only [decide_eq_true_eq] at hfound
        exact hfound.2
      refine ⟨hd.charged, hd.filed, ?_⟩
      intro y hy
      obtain rfl := Option.some.inj hy
      rw [hxid]
      exact ⟨hm, hx, v, hv, hid, hhid⟩
  | commit tx outcome =>
    simp only [Corrections.statement] at h
    split at h
    · obtain rfl := Option.some.inj h
      trivial
    · obtain rfl := Option.some.inj h
      trivial

theorem Call.Sound.exec (htyped : ∀ a ∈ as, Typed a) (hs : c.Sound as i w) {a : Input D}
    (ha : .call i a ∈ as) {r : World D × Call D × List Event}
    (h : system.exec i a w c = some r) : r.2.1.Sound as i r.1 := by
  apply Call.Sound.mono _ (World.Grows.of_exec h)
  rcases exec_start h with ⟨-, hstat⟩ | ⟨-, hfail⟩ | ⟨-, c', hstart, rfl⟩
  · exact hs.statement htyped hstat
  · cases c with
    | idle | readClock | done => cases hfail
    | _ =>
      obtain rfl := Option.some.inj hfail
      trivial
  · exact .start ha hstart

end Steps

def Call.tx : Call D → Option (Tx D)
  | .idle | .done _ => none
  | .createEntity tx .. | .createHistory tx .. | .findPrevious tx _ | .isAuthor tx ..
  | .insertCorrection tx _ | .insertAuthor tx .. | .insertRevision tx .. | .findSubmitted tx _
  | .findCorrection tx .. | .insertApprover tx .. | .readClock tx .. | .updateStatus tx ..
  | .findRevision tx _ | .findHistory tx .. | .commit tx _ => some tx

def Call.corrections (c : Call D) : List Correction := c.tx.elim [] Tx.corrections

def Call.histories (c : Call D) : List (History D) := c.tx.elim [] Tx.histories

section Keys

variable {i : ℕ} {a : Input D} {w : World D} {c : Call D} {r : World D × Call D × List Event}

theorem World.acquire_eq_some {w' : World D} {k : Lock} (h : w.acquire i k = some w') :
    w' = { w with locks := Function.update w.locks k (some i) } := by
  unfold World.acquire at h
  split_ifs at h
  exact (Option.some.inj h).symm

/-- The rows that a step adds to what its transaction has written, and their keys. -/
theorem exec_new (h : system.exec i a w c = some r) :
    (r.1.correctionSeq = w.correctionSeq ∧ r.2.1.corrections ⊆ c.corrections ∨
      ∃ x, x.id = w.correctionSeq ∧ r.1.correctionSeq = w.correctionSeq + 1 ∧
        r.2.1.corrections ⊆ c.corrections ++ [x]) ∧
    (r.1.historySeq = w.historySeq ∧ r.2.1.histories ⊆ c.histories ∨
      ∃ x, x.id = w.historySeq x.entityType ∧ r.1.historySeq =
          Function.update w.historySeq x.entityType (w.historySeq x.entityType + 1) ∧
        r.2.1.histories ⊆ c.histories ++ [x]) := by
  rcases exec_start h with ⟨-, hs⟩ | ⟨-, hf⟩ | ⟨rfl, c', hstart, rfl⟩
  · cases c with
    | idle | done => cases hs
    | createHistory tx new entityType id status =>
      obtain rfl := Option.some.inj hs
      refine ⟨Or.inl ⟨rfl, ?_⟩, Or.inr ⟨⟨entityType, w.historySeq entityType, new.data⟩, rfl, rfl, ?_⟩⟩
      · dsimp only
        split_ifs <;> exact List.Subset.refl _
      · dsimp only
        split_ifs <;> exact List.Subset.refl _
    | insertCorrection tx new =>
      simp only [statement] at hs
      split at hs
      · obtain rfl := Option.some.inj hs
        exact ⟨Or.inr ⟨⟨w.correctionSeq, new.status, new.type, new.entityType, new.entityId,
          tx.startedAt, none⟩, rfl, rfl, List.nil_subset _⟩, Or.inl ⟨rfl, List.nil_subset _⟩⟩
      · obtain rfl := Option.some.inj hs
        exact ⟨Or.inr ⟨_, rfl, rfl, List.Subset.refl _⟩, Or.inl ⟨rfl, List.Subset.refl _⟩⟩
    | insertApprover tx method correction approver =>
      obtain ⟨w', hw, rfl⟩ := Option.map_eq_some_iff.mp hs
      obtain rfl := World.acquire_eq_some hw
      split
      · exact ⟨Or.inl ⟨rfl, List.nil_subset _⟩, Or.inl ⟨rfl, List.nil_subset _⟩⟩
      · exact ⟨Or.inl ⟨rfl, List.Subset.refl _⟩, Or.inl ⟨rfl, List.Subset.refl _⟩⟩
    | updateStatus tx method correction handledAt =>
      obtain ⟨w', hw, rfl⟩ := Option.map_eq_some_iff.mp hs
      obtain rfl := World.acquire_eq_some hw
      split
      · exact ⟨Or.inl ⟨rfl, List.nil_subset _⟩, Or.inl ⟨rfl, List.nil_subset _⟩⟩
      · cases method <;>
          exact ⟨Or.inl ⟨rfl, List.Subset.refl _⟩, Or.inl ⟨rfl, List.Subset.refl _⟩⟩
    | commit tx outcome =>
      simp only [statement] at hs
      split at hs
      · obtain rfl := Option.some.inj hs
        exact ⟨Or.inl ⟨rfl, List.nil_subset _⟩, Or.inl ⟨rfl, List.nil_subset _⟩⟩
      · next w' hw =>
        obtain ⟨entities, -, rfl⟩ := Tx.commit_eq_some hw
        obtain rfl := Option.some.inj hs
        exact ⟨Or.inl ⟨rfl, List.nil_subset _⟩, Or.inl ⟨rfl, List.nil_subset _⟩⟩
    | _ =>
      simp only [statement] at hs
      repeat' split at hs
      all_goals
        obtain rfl := Option.some.inj hs
        first
        | exact ⟨Or.inl ⟨rfl, List.Subset.refl _⟩, Or.inl ⟨rfl, List.Subset.refl _⟩⟩
        | exact ⟨Or.inl ⟨rfl, List.nil_subset _⟩, Or.inl ⟨rfl, List.nil_subset _⟩⟩
  · cases c with
    | idle | readClock | done => cases hf
    | _ =>
      obtain rfl := Option.some.inj hf
      exact ⟨Or.inl ⟨rfl, List.nil_subset _⟩, Or.inl ⟨rfl, List.nil_subset _⟩⟩
  · refine ⟨Or.inl ⟨rfl, ?_⟩, Or.inl ⟨rfl, ?_⟩⟩
    · cases a <;> cases hstart <;> exact List.nil_subset _
    · cases a <;> cases hstart <;> exact List.nil_subset _

end Keys

end Thcdb.Corrections
