import Mathlib.Logic.Function.Basic
import Thcdb.Corrections.Tables
import Thcdb.Interleaving.System

namespace Thcdb.Corrections
open Auth Interleaving

inductive HandleCorrectionMethod
  | Approve | Reject
  deriving DecidableEq, Repr

def HandleCorrectionMethod.status : HandleCorrectionMethod → CorrectionStatus
  | .Approve => .Approved
  | .Reject => .Rejected

theorem HandleCorrectionMethod.status_ne_pending (m : HandleCorrectionMethod) :
    m.status ≠ .Pending := by
  cases m <;> decide

structure NewCorrectionMeta where
  author : User
  type : CorrectionType
  entityType : EntityType
  entityId : EntityId
  historyId : HistoryId
  description : String
  status : CorrectionStatus
  deriving DecidableEq, Repr

structure NewCorrection (D : Type) where
  data : EntityData D
  author : User
  description : String
  type : CorrectionType
  deriving DecidableEq, Repr

inductive Error
  | AlreadyApproved | NotFound | Unauthorized | Infra
  deriving DecidableEq, Repr

inductive Outcome
  | submitted (correctionId : CorrectionId) (entityId : EntityId)
  | handled
  | failed (e : Error)
  deriving DecidableEq, Repr

/-- What `update_correction_status` and `apply_update` have written. -/
structure Decision (D : Type) where
  method : HandleCorrectionMethod
  correction : Correction
  handledAt : ℕ
  history : Option (History D)
  deriving DecidableEq, Repr

/-- A transaction: when it began, and its writes, which are its own until the commit. -/
structure Tx (D : Type) where
  startedAt : ℕ
  entities : List (Entity D)
  histories : List (History D)
  corrections : List Correction
  correctionUsers : List CorrectionUser
  revisions : List CorrectionRevision
  decision : Option (Decision D)
  deriving DecidableEq, Repr

/-- Rows that two transactions may want at once: the key of an approver, a correction. -/
inductive Lock
  | approver (correctionId : CorrectionId) (userId : UserId)
  | correction (id : CorrectionId)
  deriving DecidableEq

/-- The clock, the committed rows, the identity sequences and the locks of the transactions that
are under way. -/
structure World (D : Type) where
  clock : ℕ
  entities : List (Entity D)
  histories : List (History D)
  corrections : List Correction
  correctionUsers : List CorrectionUser
  revisions : List CorrectionRevision
  entitySeq : EntityType → ℤ
  historySeq : EntityType → ℤ
  correctionSeq : ℤ
  locks : Lock → Option ℕ

inductive Call (D : Type)
  | idle
  | createEntity (tx : Tx D) (new : NewCorrection D) (entityType : EntityType)
  | createHistory (tx : Tx D) (new : NewCorrection D) (entityType : EntityType)
      (entityId : EntityId) (status : CorrectionStatus)
  | findPrevious (tx : Tx D) (new : NewCorrectionMeta)
  | isAuthor (tx : Tx D) (new : NewCorrectionMeta) (previous : Correction)
  | insertCorrection (tx : Tx D) (new : NewCorrectionMeta)
  | insertAuthor (tx : Tx D) (new : NewCorrectionMeta) (correctionId : CorrectionId)
  | insertRevision (tx : Tx D) (new : NewCorrectionMeta) (correctionId : CorrectionId)
  | findSubmitted (tx : Tx D) (new : NewCorrectionMeta)
  | findCorrection (tx : Tx D) (method : HandleCorrectionMethod) (id : CorrectionId)
      (approver : User)
  | insertApprover (tx : Tx D) (method : HandleCorrectionMethod) (correction : Correction)
      (approver : User)
  | readClock (tx : Tx D) (method : HandleCorrectionMethod) (correction : Correction)
  | updateStatus (tx : Tx D) (method : HandleCorrectionMethod) (correction : Correction)
      (handledAt : ℕ)
  | findRevision (tx : Tx D) (decision : Decision D)
  | findHistory (tx : Tx D) (decision : Decision D) (historyId : HistoryId)
  | commit (tx : Tx D) (outcome : Outcome)
  | done (outcome : Outcome)
  deriving DecidableEq

/-- `ok` runs the next statement, `fail` lets the database refuse it or the server panic in it;
the others begin a call. -/
inductive Input (D : Type)
  | create (entityType : EntityType) (new : NewCorrection D)
  | upsert (entityType : EntityType) (id : EntityId) (new : NewCorrection D)
  | handle (method : HandleCorrectionMethod) (id : CorrectionId) (approver : User)
  | ok
  | fail

inductive Env
  | tick (d : ℕ)

inductive Event
  /-- a decision on the correction was committed -/
  | decided (i : ℕ) (correctionId : CorrectionId) (status : CorrectionStatus) (handledAt : ℕ)
  /-- and with it the entity's live data became that of the history -/
  | applied (i : ℕ) (correctionId : CorrectionId) (historyId : HistoryId)
  deriving DecidableEq, Repr

section

variable {D : Type}

def Tx.begin (w : World D) : Tx D := ⟨w.clock, [], [], [], [], [], none⟩

namespace World

/-- Takes a lock, unless another transaction holds it: then the statement waits. -/
def acquire (w : World D) (i : ℕ) (k : Lock) : Option (World D) :=
  if (w.locks k).all (· = i) then some { w with locks := Function.update w.locks k (some i) }
  else none

def release (w : World D) (i : ℕ) : World D :=
  { w with locks := fun k => if w.locks k = some i then none else w.locks k }

end World

namespace Decision

def update (d : Decision D) (r : Correction) : Correction :=
  if r.id = d.correction.id then
    { r with status := d.method.status, handledAt := some d.handledAt }
  else r

@[simp] theorem update_id (d : Decision D) (r : Correction) : (d.update r).id = r.id := by
  unfold update
  split <;> rfl

@[simp] theorem update_entityId (d : Decision D) (r : Correction) :
    (d.update r).entityId = r.entityId := by
  unfold update
  split <;> rfl

@[simp] theorem update_entityType (d : Decision D) (r : Correction) :
    (d.update r).entityType = r.entityType := by
  unfold update
  split <;> rfl

@[simp] theorem update_createdAt (d : Decision D) (r : Correction) :
    (d.update r).createdAt = r.createdAt := by
  unfold update
  split <;> rfl

def apply (d : Decision D) (entities : List (Entity D)) : Option (List (Entity D)) :=
  match d.history with
  | none => some entities
  | some history => applyUpdate entities d.correction history

def events (d : Decision D) (i : ℕ) : List Event :=
  .decided i d.correction.id d.method.status d.handledAt ::
    (d.history.map fun h => .applied i d.correction.id h.id).toList

end Decision

namespace Tx

def update (tx : Tx D) (r : Correction) : Correction := tx.decision.elim r (·.update r)

def apply (tx : Tx D) (entities : List (Entity D)) : Option (List (Entity D)) :=
  tx.decision.elim (some entities) (·.apply entities)

def events (tx : Tx D) (i : ℕ) : List Event := tx.decision.elim [] (·.events i)

/-- The writes become visible together. The rows of an entity that `apply_update` writes stay
locked up to here; with no row to write it fails, and the transaction with it. -/
def commit (tx : Tx D) (w : World D) : Option (World D) :=
  (tx.apply w.entities).map fun entities =>
    { w with
      entities := entities ++ tx.entities
      histories := w.histories ++ tx.histories
      corrections := w.corrections.map tx.update ++ tx.corrections
      correctionUsers := w.correctionUsers ++ tx.correctionUsers
      revisions := w.revisions ++ tx.revisions }

end Tx

/-- Four of the eight `create` services look their correction up again before they commit. -/
def findsCreated : EntityType → Bool
  | .Release | .Song | .Tag | .SongLyrics => true
  | .Artist | .Label | .Event | .CreditRole => false

def start (w : World D) : Input D → Option (Call D)
  | .create entityType new => some (.createEntity (.begin w) new entityType)
  | .upsert entityType id new => some (.createHistory (.begin w) new entityType id .Pending)
  | .handle method id approver => some (.findCorrection (.begin w) method id approver)
  | .ok | .fail => none

/-- `?` on a statement: the transaction is dropped and rolled back. -/
def rollback (i : ℕ) (w : World D) (e : Error) : World D × Call D × List Event :=
  (w.release i, .done (.failed e), [])

def statement (i : ℕ) (w : World D) : Call D → Option (World D × Call D × List Event)
  | .idle | .done _ => none
  | .createEntity tx new entityType =>
    let id := w.entitySeq entityType
    some ({ w with entitySeq := Function.update w.entitySeq entityType (id + 1) },
      .createHistory { tx with entities := tx.entities ++ [⟨entityType, id, new.data⟩] } new
        entityType id .Approved, [])
  | .createHistory tx new entityType entityId status =>
    let id := w.historySeq entityType
    let tx := { tx with histories := tx.histories ++ [⟨entityType, id, new.data⟩] }
    let new : NewCorrectionMeta :=
      ⟨new.author, new.type, entityType, entityId, id, new.description, status⟩
    some ({ w with historySeq := Function.update w.historySeq entityType (id + 1) },
      if status = .Pending then .findPrevious tx new else .insertCorrection tx new, [])
  | .findPrevious tx new =>
    match findLatest w.corrections new.entityId new.entityType with
    | none => some (rollback i w .NotFound)
    | some previous =>
      match previous.status with
      | .Pending =>
        if new.author.hasRoles [.Admin, .Moderator] then some (w, .insertCorrection tx new, [])
        else some (w, .isAuthor tx new previous, [])
      | .Approved => some (rollback i w .AlreadyApproved)
      | .Rejected => some (w, .insertRevision tx new previous.id, [])
  | .isAuthor tx new previous =>
    if Corrections.isAuthor w.correctionUsers new.author previous then
      some (w, .insertCorrection tx new, [])
    else some (rollback i w .Unauthorized)
  | .insertCorrection tx new =>
    let id := w.correctionSeq
    let row : Correction :=
      ⟨id, new.status, new.type, new.entityType, new.entityId, tx.startedAt, none⟩
    let w := { w with correctionSeq := id + 1 }
    if (findById w.corrections id).isSome then some (rollback i w .Infra)
    else some (w, .insertAuthor { tx with corrections := tx.corrections ++ [row] } new id, [])
  | .insertAuthor tx new correctionId =>
    let row : CorrectionUser := ⟨correctionId, new.author.id, .Author⟩
    some (w, .insertRevision { tx with correctionUsers := tx.correctionUsers ++ [row] } new
      correctionId, [])
  | .insertRevision tx new correctionId =>
    let row : CorrectionRevision := ⟨correctionId, new.historyId, new.author.id, new.description⟩
    let tx := { tx with revisions := tx.revisions ++ [row] }
    if new.status = .Pending ∨ findsCreated new.entityType then some (w, .findSubmitted tx new, [])
    else some (w, .commit tx (.submitted correctionId new.entityId), [])
  | .findSubmitted tx new =>
    match findLatest (w.corrections ++ tx.corrections) new.entityId new.entityType with
    | none => some (rollback i w .Infra)
    | some correction => some (w, .commit tx (.submitted correction.id new.entityId), [])
  | .findCorrection tx method id approver =>
    match findById w.corrections id with
    | none => some (rollback i w .Infra)
    | some correction => some (w, .insertApprover tx method correction approver, [])
  | .insertApprover tx method correction approver =>
    let row : CorrectionUser := ⟨correction.id, approver.id, .Approver⟩
    (w.acquire i (.approver correction.id approver.id)).map fun w =>
      -- the primary key holds all three columns
      if w.correctionUsers.contains row then rollback i w .Infra
      else (w, .readClock { tx with correctionUsers := tx.correctionUsers ++ [row] } method
        correction, [])
  | .readClock tx method correction => some (w, .updateStatus tx method correction w.clock, [])
  | .updateStatus tx method correction handledAt =>
    (w.acquire i (.correction correction.id)).map fun w =>
      match findById w.corrections correction.id with
      | none => rollback i w .Infra
      | some r =>
        let correction := { r with status := method.status, handledAt := some handledAt }
        let decision : Decision D := ⟨method, correction, handledAt, none⟩
        match method with
        | .Approve => (w, .findRevision tx decision, [])
        | .Reject => (w, .commit { tx with decision := some decision } .handled, [])
  | .findRevision tx decision =>
    match Corrections.findRevision w.revisions decision.correction.id with
    | none => some (rollback i w .Infra)
    | some revision => some (w, .findHistory tx decision revision.entityHistoryId, [])
  | .findHistory tx decision historyId =>
    match Corrections.findHistory w.histories decision.correction.entityType historyId with
    | none => some (rollback i w .Infra)
    | some history =>
      some (w, .commit { tx with decision := some { decision with history := some history } }
        .handled, [])
  | .commit tx outcome =>
    match tx.commit w with
    | none => some (rollback i w .Infra)
    | some w => some (w.release i, .done outcome, tx.events i)

def fails (i : ℕ) (w : World D) : Call D → Option (World D × Call D × List Event)
  | .idle | .readClock .. | .done _ => none
  | _ => some (rollback i w .Infra)

/-- Any number of the four calls by any users, each one transaction under `READ COMMITTED`, cut at
its statements. -/
def system : System (World D) (Call D) (Input D) Env Event where
  exec i a w c :=
    match a with
    | .ok => statement i w c
    | .fail => fails i w c
    | a =>
      match c with
      | .idle => (start w a).map fun c => (w, c, [])
      | _ => none
  env b w :=
    match b with
    | .tick d => some { w with clock := w.clock + d }

theorem exec_start {i : ℕ} {a : Input D} {w : World D} {c : Call D}
    {r : World D × Call D × List Event} (h : system.exec i a w c = some r) :
    (a = .ok ∧ statement i w c = some r) ∨ (a = .fail ∧ fails i w c = some r) ∨
      (c = .idle ∧ ∃ c', start w a = some c' ∧ r = (w, c', [])) := by
  cases a with
  | ok => exact Or.inl ⟨rfl, h⟩
  | fail => exact Or.inr (Or.inl ⟨rfl, h⟩)
  | create entityType new =>
    cases c with
    | idle => exact Or.inr (Or.inr ⟨rfl, _, rfl, (Option.some.inj h).symm⟩)
    | _ => cases h
  | upsert entityType id new =>
    cases c with
    | idle => exact Or.inr (Or.inr ⟨rfl, _, rfl, (Option.some.inj h).symm⟩)
    | _ => cases h
  | handle method id approver =>
    cases c with
    | idle => exact Or.inr (Or.inr ⟨rfl, _, rfl, (Option.some.inj h).symm⟩)
    | _ => cases h

def World.rows (w : World D) :=
  (w.entities, w.histories, w.corrections, w.correctionUsers, w.revisions)

/-- Taking a lock changes no row. -/
theorem World.acquire_rows {w w' : World D} {i : ℕ} {k : Lock} (h : w.acquire i k = some w') :
    w'.rows = w.rows := by
  unfold acquire at h
  split at h
  · rw [← Option.some.inj h]
    rfl
  · cases h

theorem World.corrections_eq {w w' : World D} (h : w'.rows = w.rows) :
    w'.corrections = w.corrections :=
  congrArg (fun rows => rows.2.2.1) h

theorem World.correctionUsers_eq {w w' : World D} (h : w'.rows = w.rows) :
    w'.correctionUsers = w.correctionUsers :=
  congrArg (fun rows => rows.2.2.2.1) h

theorem Tx.commit_eq_some {tx : Tx D} {w w' : World D} (h : tx.commit w = some w') :
    ∃ entities, tx.apply w.entities = some entities ∧ w' = { w with
      entities := entities ++ tx.entities
      histories := w.histories ++ tx.histories
      corrections := w.corrections.map tx.update ++ tx.corrections
      correctionUsers := w.correctionUsers ++ tx.correctionUsers
      revisions := w.revisions ++ tx.revisions } := by
  obtain ⟨entities, ha, hw⟩ := Option.map_eq_some_iff.mp h
  exact ⟨entities, ha, hw.symm⟩

/-- Only a commit touches the committed rows and logs. -/
theorem exec_cases {i : ℕ} {a : Input D} {w : World D} {c : Call D}
    {r : World D × Call D × List Event} (h : system.exec i a w c = some r) :
    (r.1.rows = w.rows ∧ r.2.2 = []) ∨
    ∃ tx outcome w', a = .ok ∧ c = .commit tx outcome ∧ tx.commit w = some w' ∧
      r = (w'.release i, .done outcome, tx.events i) := by
  rcases exec_start h with ⟨rfl, hs⟩ | ⟨-, hs⟩ | ⟨-, c', -, rfl⟩
  · cases c with
    | idle | done => cases hs
    | commit tx outcome =>
      simp only [statement] at hs
      split at hs
      · obtain rfl := Option.some.inj hs
        exact Or.inl ⟨rfl, rfl⟩
      · next w' hw =>
        exact Or.inr ⟨tx, outcome, w', rfl, rfl, hw, (Option.some.inj hs).symm⟩
    | insertApprover tx method correction approver =>
      obtain ⟨w', hw, rfl⟩ := Option.map_eq_some_iff.mp hs
      have hrows := World.acquire_rows hw
      refine Or.inl ?_
      split
      · exact ⟨hrows, rfl⟩
      · exact ⟨hrows, rfl⟩
    | updateStatus tx method correction handledAt =>
      obtain ⟨w', hw, rfl⟩ := Option.map_eq_some_iff.mp hs
      have hrows := World.acquire_rows hw
      refine Or.inl ?_
      repeat' split
      all_goals exact ⟨hrows, rfl⟩
    | createEntity | createHistory | insertAuthor | readClock =>
      obtain rfl := Option.some.inj hs
      exact Or.inl ⟨rfl, rfl⟩
    | _ =>
      simp only [statement] at hs
      repeat' split at hs
      all_goals
        obtain rfl := Option.some.inj hs
        exact Or.inl ⟨rfl, rfl⟩
  · cases c with
    | idle | readClock | done => cases hs
    | _ =>
      obtain rfl := Option.some.inj hs
      exact Or.inl ⟨rfl, rfl⟩
  · exact Or.inl ⟨rfl, rfl⟩

end

end Thcdb.Corrections
