import Mathlib.Data.Int.Order.Basic
import Mathlib.Data.List.Nodup
import Mathlib.Data.Nat.Basic
import Thcdb.Corrections.Service

namespace Thcdb.Corrections
open Auth Interleaving

variable {D : Type}

/-- The statements of a call that nobody disturbs, up to its end. -/
def finish : ℕ → World D → Call D → Option (World D × Outcome)
  | _, w, .done outcome => some (w, outcome)
  | 0, _, _ => none
  | n + 1, w, call => (statement 0 w call).bind fun x => finish n x.1 x.2.1

/-- A call, and the time that passes until it has ended, above the least that a call takes. -/
structure Request (D : Type) where
  input : Input D
  duration : ℕ

def transact (w : World D) (r : Request D) : Option (World D × Outcome) :=
  (start w r.input).bind fun call => (finish 8 w call).map fun x =>
    ({ x.1 with clock := x.1.clock + r.duration + 1 }, x.2)

/-- The sequences are ahead of their tables, and nobody holds a lock. -/
structure World.Wf (w : World D) : Prop where
  unlocked : ∀ k, w.locks k = none
  corrections_nodup : (w.corrections.map Correction.id).Nodup
  corrections_lt : ∀ r ∈ w.corrections, r.id < w.correctionSeq
  entities_lt : ∀ r ∈ w.corrections, r.entityId < w.entitySeq r.entityType
  revisions_lt : ∀ v ∈ w.revisions, v.correctionId < w.correctionSeq
  histories_lt : ∀ v ∈ w.revisions, ∀ r ∈ w.corrections, r.id = v.correctionId →
    v.entityHistoryId < w.historySeq r.entityType

namespace World

variable (w : World D)

/-- Where a transaction ends; what it has locked is free again. -/
def later (duration : ℕ) : World D :=
  { w with clock := w.clock + duration + 1, locks := fun _ => none }

def addEntity (entityType : EntityType) (data : EntityData D) : World D :=
  { w with
    entities := w.entities ++ [⟨entityType, w.entitySeq entityType, data⟩]
    entitySeq := Function.update w.entitySeq entityType (w.entitySeq entityType + 1) }

/-- A value of a sequence is gone even if the transaction is rolled back. -/
def drawHistory (entityType : EntityType) : World D :=
  { w with historySeq := Function.update w.historySeq entityType (w.historySeq entityType + 1) }

def addHistory (entityType : EntityType) (data : EntityData D) : World D :=
  { w.drawHistory entityType with
    histories := w.histories ++ [⟨entityType, w.historySeq entityType, data⟩] }

def addCorrection (new : NewCorrectionMeta) : World D :=
  { w with
    corrections := w.corrections ++
      [⟨w.correctionSeq, new.status, new.type, new.entityType, new.entityId, w.clock, none⟩]
    correctionUsers := w.correctionUsers ++ [⟨w.correctionSeq, new.author.id, .Author⟩]
    revisions := w.revisions ++ [⟨w.correctionSeq, new.historyId, new.author.id, new.description⟩]
    correctionSeq := w.correctionSeq + 1 }

def addRevision (id : CorrectionId) (new : NewCorrectionMeta) : World D :=
  { w with
    revisions := w.revisions ++ [⟨id, new.historyId, new.author.id, new.description⟩] }

/-- `approve` or `reject`; the first leaves the entities as `apply_update` makes them. -/
def decide (d : Decision D) (approver : User) (entities : List (Entity D)) : World D :=
  { w with
    entities := entities
    corrections := w.corrections.map d.update
    correctionUsers := w.correctionUsers ++ [⟨d.correction.id, approver.id, .Approver⟩] }

def submission (entityType : EntityType) (entityId : EntityId) (status : CorrectionStatus)
    (new : NewCorrection D) : NewCorrectionMeta :=
  ⟨new.author, new.type, entityType, entityId, w.historySeq entityType, new.description, status⟩

theorem lt_entitySeq (entityType : EntityType) (data : EntityData D) :
    w.entitySeq entityType < (w.addEntity entityType data).entitySeq entityType := by
  simp only [addEntity, Function.update_self]
  exact Int.lt_succ _

theorem lt_historySeq (entityType : EntityType) :
    w.historySeq entityType < (w.drawHistory entityType).historySeq entityType := by
  simp only [drawHistory, Function.update_self]
  exact Int.lt_succ _

end World

def permitted (w : World D) (user : User) (correction : Correction) : Bool :=
  user.hasRoles [.Admin, .Moderator] || isAuthor w.correctionUsers user correction

variable {w w' : World D} {outcome : Outcome}

def World.upsert (w : World D) (entityType : EntityType) (id : EntityId) (new : NewCorrection D) :
    World D :=
  match findLatest w.corrections id entityType with
  | none => w.drawHistory entityType
  | some previous =>
    match previous.status with
    | .Pending =>
      if permitted w new.author previous then
        (w.addHistory entityType new.data).addCorrection (w.submission entityType id .Pending new)
      else w.drawHistory entityType
    | .Approved => w.drawHistory entityType
    | .Rejected =>
      (w.addHistory entityType new.data).addRevision previous.id
        (w.submission entityType id .Pending new)

def World.create (w : World D) (entityType : EntityType) (new : NewCorrection D) : World D :=
  ((w.addEntity entityType new.data).addHistory entityType new.data).addCorrection
    (w.submission entityType (w.entitySeq entityType) .Approved new)

/-- The decision that `approve` or `reject` comes to: on a correction that is there, by somebody
who has not approved or rejected it before, with something to apply. -/
def World.decision (w : World D) (method : HandleCorrectionMethod) (id : CorrectionId)
    (approver : User) : Option (Decision D × List (Entity D)) :=
  (findById w.corrections id).bind fun r =>
    let correction := { r with status := method.status, handledAt := some w.clock }
    if w.correctionUsers.contains ⟨r.id, approver.id, .Approver⟩ then none
    else match method with
      | .Reject => some (⟨.Reject, correction, w.clock, none⟩, w.entities)
      | .Approve =>
        (findRevision w.revisions r.id).bind fun revision =>
          (findHistory w.histories r.entityType revision.entityHistoryId).bind fun history =>
            (applyUpdate w.entities correction history).map fun entities =>
              (⟨.Approve, correction, w.clock, some history⟩, entities)

def World.handle (w : World D) (method : HandleCorrectionMethod) (id : CorrectionId)
    (approver : User) : World D :=
  match w.decision method id approver with
  | none => w
  | some (d, entities) => w.decide d approver entities

theorem findLatest_mem {rows : List Correction} {id : EntityId} {entityType : EntityType}
    {r : Correction} (h : findLatest rows id entityType = some r) :
    r ∈ rows ∧ r.entityId = id ∧ r.entityType = entityType := by
  have h' : oneByDesc Correction.createdAt _ = some r := h
  have hmem := (oneByDesc_eq_some h').1
  simpa using hmem

theorem findLatest_isSome {rows : List Correction} {id : EntityId} {entityType : EntityType} :
    (findLatest rows id entityType).isSome ↔
      ∃ r ∈ rows, r.entityId = id ∧ r.entityType = entityType := by
  have hiff : (oneByDesc Correction.createdAt
      (rows.filter fun r => r.entityId = id ∧ r.entityType = entityType)).isSome ↔
      (rows.filter fun r => r.entityId = id ∧ r.entityType = entityType) ≠ [] := oneByDesc_isSome
  refine Iff.trans hiff ?_
  simp [List.filter_eq_nil_iff]

theorem findRevision_mem {revisions : List CorrectionRevision} {v : CorrectionRevision}
    {id : CorrectionId} (h : findRevision revisions id = some v) :
    v ∈ revisions ∧ v.correctionId = id := by
  have h' : oneByDesc CorrectionRevision.entityHistoryId _ = some v := h
  have hmem := (oneByDesc_eq_some h').1
  simpa using hmem

theorem World.Wf.eq_of_id (hw : w.Wf) {r s : Correction} (hr : r ∈ w.corrections)
    (hs : s ∈ w.corrections) (h : r.id = s.id) : r = s :=
  List.inj_on_of_nodup_map hw.corrections_nodup hr hs h

/-- A fresh value of the sequence is no row's key. -/
theorem World.Wf.findById_fresh (hw : w.Wf) : findById w.corrections w.correctionSeq = none := by
  unfold findById
  rw [List.find?_eq_none]
  intro r hr
  have hlt : r.id < w.correctionSeq := hw.corrections_lt r hr
  have hne : r.id ≠ w.correctionSeq := ne_of_lt hlt
  simpa using hne

/-- A transaction that decides nothing only adds rows. -/
theorem Tx.commit_of_undecided {tx : Tx D} (h : tx.decision = none) : tx.commit w = some { w with
    entities := w.entities ++ tx.entities
    histories := w.histories ++ tx.histories
    corrections := w.corrections ++ tx.corrections
    correctionUsers := w.correctionUsers ++ tx.correctionUsers
    revisions := w.revisions ++ tx.revisions } := by
  have hupdate : tx.update = id := by
    funext r
    simp [Tx.update, h]
  simp [Tx.commit, Tx.apply, h, hupdate]

/-- A transaction with a decision needs something to apply it to. -/
theorem Tx.commit_of_decided {tx : Tx D} {d : Decision D} (h : tx.decision = some d) :
    tx.commit w = (d.apply w.entities).map fun entities => { w with
      entities := entities ++ tx.entities
      histories := w.histories ++ tx.histories
      corrections := w.corrections.map d.update ++ tx.corrections
      correctionUsers := w.correctionUsers ++ tx.correctionUsers
      revisions := w.revisions ++ tx.revisions } := by
  have hupdate : tx.update = d.update := by
    funext r
    simp [Tx.update, h]
  simp [Tx.commit, Tx.apply, h, hupdate]

/-- A lock that was taken is free after the end of its transaction. -/
theorem freed_update (locks : Lock → Option ℕ) (taken : Lock) (i : ℕ) :
    (fun k => if Function.update locks taken (some i) k = some i then none
      else Function.update locks taken (some i) k) =
    Function.update (fun k => if locks k = some i then none else locks k) taken none := by
  funext k
  by_cases hk : k = taken
  · simp [hk]
  · simp [hk]

section

variable (hw : w.Wf) (duration : ℕ)
include hw

theorem transact_upsert (entityType : EntityType) (id : EntityId) (new : NewCorrection D) :
    ∃ outcome, transact w ⟨.upsert entityType id new, duration⟩ =
      some ((w.upsert entityType id new).later duration, outcome) := by
  have hfresh := hw.findById_fresh
  have hlocks : w.locks = fun _ => none := funext hw.unlocked
  cases hl : findLatest w.corrections id entityType with
  | none =>
    simp [transact, start, finish, statement, Tx.begin, hl, World.upsert, rollback, World.release,
      World.later, World.drawHistory, hlocks]
  | some previous =>
    cases hs : previous.status with
    -- an open correction is joined by another one, which its author or the staff may add
    | Pending =>
      have hlatest : ∀ r : Correction, r.entityId = id → r.entityType = entityType →
          (findLatest (w.corrections ++ [r]) id entityType).isSome := by
        intro r hid htype
        rw [findLatest_isSome]
        exact ⟨r, by simp, hid, htype⟩
      by_cases hp : permitted w new.author previous
      · obtain ⟨c, hc⟩ := Option.isSome_iff_exists.mp (hlatest
          ⟨w.correctionSeq, .Pending, new.type, entityType, id, w.clock, none⟩ rfl rfl)
        by_cases hr : new.author.hasRoles [.Admin, .Moderator]
        · simp [transact, start, finish, statement, Tx.begin, hl, hs, hp, hr, hfresh, hc,
            World.upsert, World.release, World.later, World.drawHistory, World.addHistory,
            World.addCorrection, World.submission, hlocks, Tx.commit_of_undecided]
        · have ha : isAuthor w.correctionUsers new.author previous := by
            simpa [permitted, hr] using hp
          simp [transact, start, finish, statement, Tx.begin, hl, hs, hp, hr, ha, hfresh, hc,
            World.upsert, World.release, World.later, World.drawHistory, World.addHistory,
            World.addCorrection, World.submission, hlocks, Tx.commit_of_undecided]
      · obtain ⟨hr, ha⟩ : new.author.hasRoles [.Admin, .Moderator] = false ∧
            isAuthor w.correctionUsers new.author previous = false := by
          simpa [permitted] using hp
        simp [transact, start, finish, statement, Tx.begin, hl, hs, hp, hr, ha, World.upsert,
          rollback, World.release, World.later, World.drawHistory, hlocks]
    -- without an open correction the submission is refused
    | Approved =>
      simp [transact, start, finish, statement, Tx.begin, hl, hs, World.upsert, rollback,
        World.release, World.later, World.drawHistory, hlocks]
    -- a rejected one gets a new revision and keeps its status
    | Rejected =>
      simp [transact, start, finish, statement, Tx.begin, hl, hs, World.upsert, World.release,
        World.later, World.drawHistory, World.addHistory, World.addRevision, World.submission,
        hlocks, Tx.commit_of_undecided]

theorem transact_create (entityType : EntityType) (new : NewCorrection D) :
    ∃ outcome, transact w ⟨.create entityType new, duration⟩ =
      some ((w.create entityType new).later duration, outcome) := by
  have hfresh := hw.findById_fresh
  have hlocks : w.locks = fun _ => none := funext hw.unlocked
  obtain ⟨c, hc⟩ := Option.isSome_iff_exists.mp (findLatest_isSome.mpr ⟨_, List.mem_append_right
    w.corrections (List.mem_singleton_self ⟨w.correctionSeq, .Approved, new.type, entityType,
      w.entitySeq entityType, w.clock, none⟩), rfl, rfl⟩)
  by_cases hf : findsCreated entityType
  · simp [transact, start, finish, statement, Tx.begin, hfresh, hf, hc, World.create,
      World.addEntity, World.release, World.later, World.drawHistory, World.addHistory,
      World.addCorrection, World.submission, hlocks, Tx.commit_of_undecided]
  · simp [transact, start, finish, statement, Tx.begin, hfresh, hf, World.create,
      World.addEntity, World.release, World.later, World.drawHistory, World.addHistory,
      World.addCorrection, World.submission, hlocks, Tx.commit_of_undecided]

theorem transact_handle (method : HandleCorrectionMethod) (id : CorrectionId) (approver : User) :
    ∃ outcome, transact w ⟨.handle method id approver, duration⟩ =
      some ((w.handle method id approver).later duration, outcome) := by
  have hlocks : w.locks = fun _ => none := funext hw.unlocked
  cases hf : findById w.corrections id with
  | none =>
    simp [transact, start, finish, statement, Tx.begin, hf, World.handle, World.decision, rollback,
      World.release, World.later, hlocks]
  | some r =>
    obtain rfl : r.id = id := findById_id hf
    by_cases hc : (⟨r.id, approver.id, .Approver⟩ : CorrectionUser) ∈ w.correctionUsers
    · simp [transact, start, finish, statement, Tx.begin, hf, hc, World.handle,
        World.decision, rollback, World.acquire, World.release, World.later, hlocks, freed_update]
    · cases method with
      -- a rejection needs no revision and no history
      | Reject =>
        simp [transact, start, finish, statement, Tx.begin, hf, hc, World.handle,
          World.decision, World.decide, World.acquire, World.release, World.later, hlocks,
          Tx.commit_of_decided, Decision.apply, freed_update]
      | Approve =>
        cases hv : findRevision w.revisions r.id with
        | none =>
          simp [transact, start, finish, statement, Tx.begin, hf, hc, hv, World.handle,
            World.decision, rollback, World.acquire, World.release, World.later, hlocks,
            freed_update]
        | some v =>
          cases hh : findHistory w.histories r.entityType v.entityHistoryId with
          | none =>
            simp [transact, start, finish, statement, Tx.begin, hf, hc, hv, hh, World.handle,
              World.decision, rollback, World.acquire, World.release, World.later, hlocks,
              freed_update]
          | some history =>
            cases ha : applyUpdate w.entities
                { r with status := HandleCorrectionMethod.Approve.status, handledAt := some w.clock }
                history with
            | none =>
              simp [transact, start, finish, statement, Tx.begin, hf, hc, hv, hh, ha,
                World.handle, World.decision, rollback, World.acquire, World.release, World.later,
                hlocks, Tx.commit_of_decided, Decision.apply, freed_update]
            | some entities =>
              simp [transact, start, finish, statement, Tx.begin, hf, hc, hv, hh, ha,
                World.handle, World.decision, World.decide, World.acquire, World.release,
                World.later, hlocks, Tx.commit_of_decided, Decision.apply, freed_update]

end

namespace World.Wf

variable {entityType : EntityType}

theorem later (hw : w.Wf) (duration : ℕ) : (w.later duration).Wf :=
  { hw with unlocked := fun _ => rfl }

theorem addEntity (hw : w.Wf) (data : EntityData D) : (w.addEntity entityType data).Wf := by
  refine { hw with entities_lt := ?_ }
  intro r hr
  have hlt := hw.entities_lt r hr
  by_cases ht : r.entityType = entityType
  · subst ht
    simpa [World.addEntity] using Int.lt_trans hlt (Int.lt_succ _)
  · simpa [World.addEntity, ht] using hlt

theorem drawHistory (hw : w.Wf) : (w.drawHistory entityType).Wf := by
  refine { hw with histories_lt := ?_ }
  intro v hv r hr hid
  have hlt := hw.histories_lt v hv r hr hid
  by_cases ht : r.entityType = entityType
  · subst ht
    simpa [World.drawHistory] using Int.lt_trans hlt (Int.lt_succ _)
  · simpa [World.drawHistory, ht] using hlt

theorem addHistory (hw : w.Wf) (data : EntityData D) : (w.addHistory entityType data).Wf :=
  { hw.drawHistory with }

theorem addCorrection (hw : w.Wf) {new : NewCorrectionMeta}
    (he : new.entityId < w.entitySeq new.entityType)
    (hh : new.historyId < w.historySeq new.entityType) : (w.addCorrection new).Wf where
  unlocked := hw.unlocked
  corrections_nodup := by
    simpa [World.addCorrection, List.nodup_append] using
      ⟨hw.corrections_nodup, fun r hr => ne_of_lt (hw.corrections_lt r hr)⟩
  corrections_lt := by
    intro r hr
    rcases List.mem_append.mp hr with hr | hr
    · exact Int.lt_trans (hw.corrections_lt r hr) (Int.lt_succ _)
    · rw [List.mem_singleton.mp hr]
      exact Int.lt_succ _
  entities_lt := by
    intro r hr
    rcases List.mem_append.mp hr with hr | hr
    · exact hw.entities_lt r hr
    · rw [List.mem_singleton.mp hr]
      exact he
  revisions_lt := by
    intro v hv
    rcases List.mem_append.mp hv with hv | hv
    · exact Int.lt_trans (hw.revisions_lt v hv) (Int.lt_succ _)
    · rw [List.mem_singleton.mp hv]
      exact Int.lt_succ _
  histories_lt := by
    intro v hv r hr hid
    rcases List.mem_append.mp hv with hv | hv
    · rcases List.mem_append.mp hr with hr | hr
      · exact hw.histories_lt v hv r hr hid
      · have hlt := hw.revisions_lt v hv
        rw [List.mem_singleton.mp hr] at hid
        exact absurd hid.symm (ne_of_lt hlt)
    · have hv' := List.mem_singleton.mp hv
      subst hv'
      rcases List.mem_append.mp hr with hr | hr
      · exact absurd hid (ne_of_lt (hw.corrections_lt r hr))
      · rw [List.mem_singleton.mp hr]
        exact hh

theorem addRevision (hw : w.Wf) {p : Correction} (hp : p ∈ w.corrections)
    {new : NewCorrectionMeta} (hh : new.historyId < w.historySeq p.entityType) :
    (w.addRevision p.id new).Wf := by
  refine { hw with revisions_lt := ?_, histories_lt := ?_ }
  · intro v hv
    rcases List.mem_append.mp hv with hv | hv
    · exact hw.revisions_lt v hv
    · rw [List.mem_singleton.mp hv]
      exact hw.corrections_lt p hp
  · intro v hv r hr hid
    rcases List.mem_append.mp hv with hv | hv
    · exact hw.histories_lt v hv r hr hid
    · rw [List.mem_singleton.mp hv] at hid ⊢
      obtain rfl := hw.eq_of_id hr hp hid
      exact hh

theorem decide (hw : w.Wf) (d : Decision D) (approver : User) (entities : List (Entity D)) :
    (w.decide d approver entities).Wf := by
  have hid : Correction.id ∘ d.update = Correction.id := funext d.update_id
  refine { hw with
    corrections_nodup := ?_, corrections_lt := ?_, entities_lt := ?_, histories_lt := ?_ }
  · simpa [World.decide, hid] using hw.corrections_nodup
  · simpa [World.decide] using hw.corrections_lt
  · simpa [World.decide] using hw.entities_lt
  · simpa [World.decide] using hw.histories_lt

theorem create (hw : w.Wf) (entityType : EntityType) (new : NewCorrection D) :
    (w.create entityType new).Wf := by
  refine ((hw.addEntity new.data).addHistory new.data).addCorrection ?_ ?_
  · exact w.lt_entitySeq entityType new.data
  · exact (w.addEntity entityType new.data).lt_historySeq entityType

theorem upsert (hw : w.Wf) (entityType : EntityType) (id : EntityId) (new : NewCorrection D) :
    (w.upsert entityType id new).Wf := by
  have hseq := w.lt_historySeq entityType
  unfold World.upsert
  split
  · exact hw.drawHistory
  · next previous hl =>
    obtain ⟨hmem, hid, htype⟩ := findLatest_mem hl
    split
    · split
      · refine (hw.addHistory new.data).addCorrection ?_ hseq
        have hlt := hw.entities_lt previous hmem
        rw [hid, htype] at hlt
        exact hlt
      · exact hw.drawHistory
    · exact hw.drawHistory
    · refine (hw.addHistory new.data).addRevision (p := previous) hmem ?_
      rw [htype]
      exact hseq

theorem handle (hw : w.Wf) (method : HandleCorrectionMethod) (id : CorrectionId)
    (approver : User) : (w.handle method id approver).Wf := by
  unfold World.handle
  split
  · exact hw
  · exact hw.decide _ _ _

end World.Wf

def World.call (w : World D) : Input D → Option (World D)
  | .create entityType new => some (w.create entityType new)
  | .upsert entityType id new => some (w.upsert entityType id new)
  | .handle method id approver => some (w.handle method id approver)
  | .ok | .fail => none

/-- The statements of an undisturbed call make up that step. -/
theorem transact_eq (hw : w.Wf) (r : Request D) :
    (transact w r).map (·.1) = (w.call r.input).map (·.later r.duration) := by
  obtain ⟨input, duration⟩ := r
  cases input with
  | create entityType new =>
    obtain ⟨o, ho⟩ := transact_create hw duration entityType new
    simp [ho, World.call]
  | upsert entityType id new =>
    obtain ⟨o, ho⟩ := transact_upsert hw duration entityType id new
    simp [ho, World.call]
  | handle method id approver =>
    obtain ⟨o, ho⟩ := transact_handle hw duration method id approver
    simp [ho, World.call]
  | ok => rfl
  | fail => rfl

theorem transact_eq_some (hw : w.Wf) {r : Request D} (h : transact w r = some (w', outcome)) :
    ∃ v, w.call r.input = some v ∧ w' = v.later r.duration := by
  have hmap := transact_eq hw r
  rw [h, Option.map_some] at hmap
  obtain ⟨v, hv, hlater⟩ := Option.map_eq_some_iff.mp hmap.symm
  exact ⟨v, hv, hlater.symm⟩

/-- What a transaction leaves is well formed again. -/
theorem World.Wf.transact (hw : w.Wf) {r : Request D} (h : transact w r = some (w', outcome)) :
    w'.Wf := by
  obtain ⟨v, hv, rfl⟩ := transact_eq_some hw h
  apply World.Wf.later
  cases hi : r.input with
  | create entityType new =>
    rw [hi] at hv
    cases hv
    exact hw.create entityType new
  | upsert entityType id new =>
    rw [hi] at hv
    cases hv
    exact hw.upsert entityType id new
  | handle method id approver =>
    rw [hi] at hv
    cases hv
    exact hw.handle method id approver
  | ok =>
    rw [hi] at hv
    cases hv
  | fail =>
    rw [hi] at hv
    cases hv

end Thcdb.Corrections
