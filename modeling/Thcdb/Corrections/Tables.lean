import Mathlib.Order.Lattice
import Thcdb.Auth.Users

namespace Thcdb.Corrections
open Auth

abbrev CorrectionId := ℤ

abbrev EntityId := ℤ

abbrev HistoryId := ℤ

inductive CorrectionStatus
  | Pending | Approved | Rejected
  deriving DecidableEq, Repr

inductive CorrectionType
  | Create | Update | Delete
  deriving DecidableEq, Repr

inductive EntityType
  | Artist | Label | Release | Song | Tag | Event | SongLyrics | CreditRole
  deriving DecidableEq, Repr

inductive CorrectionUserType
  | Author | CoAuthor | Reviewer | Approver
  deriving DecidableEq, Repr

inductive UserRoleEnum
  | Admin | Moderator | User
  deriving DecidableEq, Repr

/-- The columns of `User` that corrections read. -/
structure User where
  id : UserId
  roles : List UserRoleEnum
  deriving DecidableEq, Repr

def User.hasRoles (user : User) (expected : List UserRoleEnum) : Bool :=
  user.roles.any fun r => expected.contains r

structure Correction where
  id : CorrectionId
  status : CorrectionStatus
  type : CorrectionType
  entityType : EntityType
  entityId : EntityId
  createdAt : ℕ
  handledAt : Option ℕ
  deriving DecidableEq, Repr

structure CorrectionUser where
  correctionId : CorrectionId
  userId : UserId
  userType : CorrectionUserType
  deriving DecidableEq, Repr

structure CorrectionRevision where
  correctionId : CorrectionId
  entityHistoryId : HistoryId
  authorId : UserId
  description : String
  deriving DecidableEq, Repr

/-- What a correction carries: the columns of song lyrics; those of a label and, apart, its founders
and localized names; or the columns and the relation rows of any other entity. -/
inductive EntityData (D : Type)
  | lyrics (songId languageId : ℤ) (content : String) (isMain : Bool)
  | label (own related : D)
  | columns (d : D)
  deriving DecidableEq, Repr

/-- What an update makes of the data. For a label, `into_active_model` leaves every column of the
model unchanged, so that only the related rows are written. -/
def EntityData.update {D : Type} : EntityData D → EntityData D → EntityData D
  | .label own _, .label _ related => .label own related
  | _, data => data

structure Entity (D : Type) where
  entityType : EntityType
  id : EntityId
  data : EntityData D
  deriving DecidableEq, Repr

/-- A row of one of the eight history tables; none is ever changed. -/
structure History (D : Type) where
  entityType : EntityType
  id : HistoryId
  data : EntityData D
  deriving DecidableEq, Repr

section Queries

variable {D : Type}

def findById (corrections : List Correction) (id : CorrectionId) : Option Correction :=
  corrections.find? (·.id = id)

theorem findById_id {rows : List Correction} {id : CorrectionId} {r : Correction}
    (h : findById rows id = some r) : r.id = id := by
  simpa using List.find?_some h

/-- `order_by_desc(key).one`; of two rows with one key, the first. -/
def oneByDesc {R K : Type} [LT K] [DecidableLT K] (key : R → K) : List R → Option R
  | [] => none
  | r :: rows =>
    match oneByDesc key rows with
    | none => some r
    | some s => if key r < key s then some s else some r

section

variable {R K : Type} [LinearOrder K] {key : R → K} {rows : List R} {r : R}

theorem oneByDesc_isSome : (oneByDesc key rows).isSome ↔ rows ≠ [] := by
  cases rows with
  | nil => simp [oneByDesc]
  | cons s rows =>
    simp only [oneByDesc]
    repeat' split
    all_goals simp

/-- The row found is one of those with the greatest key. -/
theorem oneByDesc_eq_some (h : oneByDesc key rows = some r) :
    r ∈ rows ∧ ∀ s ∈ rows, key s ≤ key r := by
  induction rows generalizing r with
  | nil => cases h
  | cons t rows ih =>
    simp only [oneByDesc] at h
    split at h
    · next hnone =>
      obtain rfl := Option.some.inj h
      have hnil : rows = [] := by
        by_contra hne
        have hsome : (oneByDesc key rows).isSome := oneByDesc_isSome.mpr hne
        rw [hnone] at hsome
        cases hsome
      simp [hnil]
    · next s hs =>
      obtain ⟨hmem, hmax⟩ := ih hs
      split at h
      · next hlt =>
        -- a row further back is taken only if its key is greater
        obtain rfl := Option.some.inj h
        refine ⟨List.mem_cons_of_mem _ hmem, ?_⟩
        intro u hu
        rcases List.mem_cons.mp hu with rfl | hu
        · exact le_of_lt hlt
        · exact hmax u hu
      · next hge =>
        obtain rfl := Option.some.inj h
        refine ⟨List.mem_cons_self, ?_⟩
        intro u hu
        rcases List.mem_cons.mp hu with rfl | hu
        · exact le_rfl
        · exact le_trans (hmax u hu) (not_lt.mp hge)

end

def findLatest (corrections : List Correction) (entityId : EntityId) (entityType : EntityType) :
    Option Correction :=
  oneByDesc Correction.createdAt <|
    corrections.filter fun r => r.entityId = entityId ∧ r.entityType = entityType

def isAuthor (correctionUsers : List CorrectionUser) (user : User) (correction : Correction) :
    Bool :=
  correctionUsers.contains ⟨correction.id, user.id, .Author⟩

/-- The revision with the highest `entity_history_id`. -/
def findRevision (revisions : List CorrectionRevision) (correctionId : CorrectionId) :
    Option CorrectionRevision :=
  oneByDesc CorrectionRevision.entityHistoryId <|
    revisions.filter (·.correctionId = correctionId)

def findHistory (histories : List (History D)) (entityType : EntityType) (id : HistoryId) :
    Option (History D) :=
  histories.find? fun h => h.entityType = entityType ∧ h.id = id

def Entity.isLyrics (e : Entity D) (songId languageId : ℤ) : Bool :=
  match e.data with
  | .lyrics s l .. => s = songId ∧ l = languageId
  | .label .. | .columns _ => false

def Entity.unsetSongMainLyrics (e : Entity D) (songId : ℤ) : Entity D :=
  match e.data with
  | .lyrics s l content _ => if s = songId then { e with data := .lyrics s l content false } else e
  | .label .. | .columns _ => e

/-- `apply_update` of the history's entity kind. Lyrics look for their row by song and language,
every other kind updates the row with the correction's entity id; with no such row, an error. -/
def applyUpdate (entities : List (Entity D)) (correction : Correction) (history : History D) :
    Option (List (Entity D)) :=
  match history.data with
  | .lyrics songId languageId _ isMain =>
    (entities.find? (·.isLyrics songId languageId)).map fun target =>
      entities.map fun e =>
        if e.isLyrics songId languageId ∧ e.id = target.id then { e with data := history.data }
        else if isMain then e.unsetSongMainLyrics songId
        else e
  | .label .. | .columns _ =>
    if entities.any fun e => e.entityType = correction.entityType ∧ e.id = correction.entityId then
      some (entities.map fun e =>
        if e.entityType = correction.entityType ∧ e.id = correction.entityId then
          { e with data := e.data.update history.data }
        else e)
    else none

end Queries

end Thcdb.Corrections
