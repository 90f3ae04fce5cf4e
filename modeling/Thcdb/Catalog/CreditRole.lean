import Thcdb.Catalog.Database

namespace Thcdb.Catalog
open Corrections Relational

structure NewCreditRole where
  name : String
  shortDescription : Option String
  description : Option String
  superRoles : Option (List ℤ)
  deriving DecidableEq, Repr

def NewCreditRole.columns (data : NewCreditRole) : CreditRole :=
  ⟨data.name, data.shortDescription.getD "", data.description.getD ""⟩

namespace CreditRole

variable (db : Database)

def inheritanceSchema : ChildSchema ℤ :=
  ⟨db.hasCreditRole, fun _ superId => db.hasCreditRole superId, true⟩

def hasHistory (id : ℤ) : Bool := db.creditRoles.history.has id

def inheritanceHistorySchema : ChildSchema ℤ :=
  { inheritanceSchema db with owner := hasHistory db }

def create (data : NewCreditRole) : Option (Database × ℤ) := do
  let (creditRole, id) ← db.creditRoles.creditRole.insert .free data.columns
  let db := { db with creditRoles := { db.creditRoles with creditRole := creditRole } }
  let inheritance ← createGiven (inheritanceSchema db) db.creditRoles.inheritance id
    data.superRoles
  return ({ db with creditRoles := { db.creditRoles with inheritance := inheritance } }, id)

def createHistory (data : NewCreditRole) : Option (Database × ℤ) := do
  let (history, id) ← db.creditRoles.history.insert .free data.columns
  let db := { db with creditRoles := { db.creditRoles with history := history } }
  let inheritance ← createGiven (inheritanceHistorySchema db) db.creditRoles.inheritanceHistory id
    data.superRoles
  return ({ db with creditRoles := { db.creditRoles with inheritanceHistory := inheritance } }, id)

def applyHistory (roleId historyId : ℤ) (history : CreditRole) : Option Database := do
  let creditRole ← db.creditRoles.creditRole.updateById .free roleId history
  let inheritance ← updateChildren (inheritanceSchema db) db.creditRoles.inheritance
    db.creditRoles.inheritanceHistory roleId historyId
  let creditRoles := { db.creditRoles with creditRole := creditRole, inheritance := inheritance }
  return { db with creditRoles := creditRoles }

def applyUpdate (revisions : List CorrectionRevision) (correction : Correction) :
    Option Database := do
  let (historyId, history) ← revisedHistory revisions correction db.creditRoles.history
  applyHistory db correction.entityId historyId history

structure Content where
  creditRole : CreditRole
  superRoles : Multiset ℤ
  deriving DecidableEq

def content (data : NewCreditRole) : Content where
  creditRole := data.columns
  superRoles := data.superRoles.getD []

def live (id : ℤ) : Option Content :=
  (db.creditRoles.creditRole.findById id).map fun creditRole => {
    creditRole := creditRole
    superRoles := db.creditRoles.inheritance.items id }

def stored (historyId : ℤ) : Option Content :=
  (db.creditRoles.history.findById historyId).map fun creditRole => {
    creditRole := creditRole
    superRoles := db.creditRoles.inheritanceHistory.items historyId }

structure Wf : Prop where
  inheritance : db.creditRoles.inheritance.Satisfies (inheritanceSchema db).constraints
  inheritanceHistory :
    db.creditRoles.inheritanceHistory.Satisfies (inheritanceHistorySchema db).constraints

variable {db} {db' : Database} {data : NewCreditRole} {id historyId : ℤ} {c : Content}

theorem live_create (hwf : Wf db) (h : create db data = some (db', id)) :
    live db' id = some (content data) := by
  simp only [create, Option.bind_eq_bind, Option.bind_eq_some_iff, Prod.exists] at h
  obtain ⟨creditRole, i, hrole, inheritance, hinheritance, heq⟩ := h
  obtain ⟨-, rfl, rfl⟩ := Table.insert_eq_some hrole
  rw [createGiven_eq] at hinheritance
  obtain ⟨-, rfl⟩ := createChildren_eq_some hinheritance
  obtain ⟨rfl, rfl⟩ := Prod.mk.inj (Option.some.inj heq)
  have hfresh : db.hasCreditRole db.creditRoles.creditRole.next = false := Table.has_next
  simp [live, content, Table.findById_insertAll_next, items_eq_nil hwf.inheritance hfresh]

theorem createHistory_eq_some (h : createHistory db data = some (db', historyId)) :
    historyId = db.creditRoles.history.next ∧
      db' = { db with creditRoles := { db.creditRoles with
        history := db.creditRoles.history.insertAll [data.columns]
        inheritanceHistory := db.creditRoles.inheritanceHistory.adopt historyId
          (data.superRoles.getD []) } } := by
  simp only [createHistory, Option.bind_eq_bind, Option.bind_eq_some_iff, Prod.exists] at h
  obtain ⟨history, i, hhistory, inheritance, hinheritance, heq⟩ := h
  obtain ⟨-, rfl, rfl⟩ := Table.insert_eq_some hhistory
  rw [createGiven_eq] at hinheritance
  obtain ⟨-, rfl⟩ := createChildren_eq_some hinheritance
  obtain ⟨rfl, rfl⟩ := Prod.mk.inj (Option.some.inj heq)
  exact ⟨rfl, rfl⟩

theorem stored_createHistory (hwf : Wf db) (h : createHistory db data = some (db', historyId)) :
    stored db' historyId = some (content data) := by
  obtain ⟨rfl, rfl⟩ := createHistory_eq_some h
  have hfresh : hasHistory db db.creditRoles.history.next = false := Table.has_next
  simp [stored, content, Table.findById_insertAll_next,
    items_eq_nil hwf.inheritanceHistory hfresh]

/-- An approval gives the role the content of the history. -/
theorem live_applyUpdate {revisions : List CorrectionRevision} {correction : Correction}
    {revision : CorrectionRevision} (hwf : Wf db)
    (hnewest : findRevision revisions correction.id = some revision)
    (hid : db.hasCreditRole correction.entityId)
    (hc : stored db revision.entityHistoryId = some c) :
    ∃ db', applyUpdate db revisions correction = some db' ∧
      live db' correction.entityId = some c := by
  obtain ⟨history, hhistory, rfl⟩ := Option.map_eq_some_iff.mp hc
  have hupdate : db.creditRoles.creditRole.updateById .free correction.entityId history =
      some (db.creditRoles.creditRole.set correction.entityId history) := Table.updateById_free hid
  have hinheritance := updateChildren_eq_some revision.entityHistoryId hwf.inheritance
    hwf.inheritanceHistory (fun hu => hu) hid (fun _ hi => hi)
  unfold applyUpdate applyHistory
  simp only [revisedHistory_eq hnewest, hhistory, Option.map_some, hupdate, hinheritance,
    Option.bind_eq_bind, Option.bind_some]
  refine ⟨_, rfl, ?_⟩
  simp [live, Table.findById_set hid]

end CreditRole

end Thcdb.Catalog
