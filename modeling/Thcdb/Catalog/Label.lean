import Thcdb.Catalog.Database

namespace Thcdb.Catalog
open Corrections Relational

structure NewLabel where
  name : String
  foundedDate : Option DateWithPrecision
  dissolvedDate : Option DateWithPrecision
  founders : Option (List ℤ)
  localizedNames : Option (List LocalizedName)
  deriving DecidableEq, Repr

def NewLabel.columns (data : NewLabel) : Label where
  name := data.name
  foundedDate := data.foundedDate.map DateWithPrecision.value
  foundedDatePrecision := precisionOr data.foundedDate
  dissolvedDate := data.dissolvedDate.map DateWithPrecision.value
  dissolvedDatePrecision := precisionOr data.dissolvedDate

/-- What an active model holds of a column. -/
inductive ActiveValue (α : Type)
  | Set (value : α)
  | Unchanged (value : α)
  deriving DecidableEq, Repr

/-- The column after an `UPDATE`, which names the columns that are set. -/
def ActiveValue.over {α : Type} (old : α) : ActiveValue α → α
  | .Set value => value
  | .Unchanged _ => old

namespace Label

structure ActiveModel where
  name : ActiveValue String
  foundedDate : ActiveValue (Option NaiveDate)
  foundedDatePrecision : ActiveValue DatePrecision
  dissolvedDate : ActiveValue (Option NaiveDate)
  dissolvedDatePrecision : ActiveValue DatePrecision
  deriving DecidableEq, Repr

def intoActiveModel (label : Label) : ActiveModel where
  name := .Unchanged label.name
  foundedDate := .Unchanged label.foundedDate
  foundedDatePrecision := .Unchanged label.foundedDatePrecision
  dissolvedDate := .Unchanged label.dissolvedDate
  dissolvedDatePrecision := .Unchanged label.dissolvedDatePrecision

def ActiveModel.over (old : Label) (model : ActiveModel) : Label where
  name := model.name.over old.name
  foundedDate := model.foundedDate.over old.foundedDate
  foundedDatePrecision := model.foundedDatePrecision.over old.foundedDatePrecision
  dissolvedDate := model.dissolvedDate.over old.dissolvedDate
  dissolvedDatePrecision := model.dissolvedDatePrecision.over old.dissolvedDatePrecision

/-- `update`, an error if there is no such row -/
def ActiveModel.update (model : ActiveModel) (labels : Table Label) (id : ℤ) :
    Option (Table Label) := do
  let old ← labels.findById id
  labels.updateById .free id (model.over old)

/-- A row that is written back as it was read writes nothing. -/
theorem update_intoActiveModel (label : Label) {labels : Table Label} {id : ℤ} {old : Label}
    (h : labels.findById id = some old) :
    label.intoActiveModel.update labels id = some (labels.set id old) := by
  have hid : labels.has id := Table.has_iff_findById.mpr ⟨old, h⟩
  have hover : label.intoActiveModel.over old = old := rfl
  rw [ActiveModel.update, h, Option.bind_eq_bind, Option.bind_some, hover,
    Table.updateById_free hid]

variable (db : Database)

def founderSchema : ChildSchema ℤ := ⟨db.hasLabel, fun _ artist => db.hasArtist artist, true⟩

def localizedNameSchema : ChildSchema LocalizedName :=
  ⟨db.hasLabel, fun _ name => db.hasLanguage name.languageId, true⟩

def hasHistory (id : ℤ) : Bool := db.labels.history.has id

def founderHistorySchema : ChildSchema ℤ := { founderSchema db with owner := hasHistory db }

def localizedNameHistorySchema : ChildSchema LocalizedName :=
  { localizedNameSchema db with owner := hasHistory db }

/-- `save_label_and_link_relations` -/
def create (data : NewLabel) : Option (Database × ℤ) := do
  let (label, id) ← db.labels.label.insert .free data.columns
  let db := { db with labels := { db.labels with label := label } }
  let founder ← createGiven (founderSchema db) db.labels.founder id data.founders
  let localizedName ← createGiven (localizedNameSchema db) db.labels.localizedName id
    data.localizedNames
  let labels := { db.labels with founder := founder, localizedName := localizedName }
  return ({ db with labels := labels }, id)

/-- `save_label_history_and_link_relations` -/
def createHistory (data : NewLabel) : Option (Database × ℤ) := do
  let (history, id) ← db.labels.history.insert .free data.columns
  let db := { db with labels := { db.labels with history := history } }
  let founder ← createGiven (founderHistorySchema db) db.labels.founderHistory id data.founders
  let localizedName ← createGiven (localizedNameHistorySchema db) db.labels.localizedNameHistory id
    data.localizedNames
  let labels := { db.labels with
    founderHistory := founder, localizedNameHistory := localizedName }
  return ({ db with labels := labels }, id)

/-- The writes of `apply_update`, from the row of the history on. The active model is made of a
whole row, so none of its columns counts as set but the key. -/
def applyHistory (labelId historyId : ℤ) (history : Label) : Option Database := do
  let label ← history.intoActiveModel.update db.labels.label labelId
  let founder ← updateChildren (founderSchema db) db.labels.founder db.labels.founderHistory
    labelId historyId
  let localizedName ← updateChildren (localizedNameSchema db) db.labels.localizedName
    db.labels.localizedNameHistory labelId historyId
  let labels := { db.labels with
    label := label, founder := founder, localizedName := localizedName }
  return { db with labels := labels }

def applyUpdate (revisions : List CorrectionRevision) (correction : Correction) :
    Option Database := do
  let (historyId, history) ← revisedHistory revisions correction db.labels.history
  applyHistory db correction.entityId historyId history

structure Content where
  label : Label
  founders : Multiset ℤ
  localizedNames : Multiset LocalizedName
  deriving DecidableEq

def content (data : NewLabel) : Content where
  label := data.columns
  founders := data.founders.getD []
  localizedNames := data.localizedNames.getD []

def live (id : ℤ) : Option Content :=
  (db.labels.label.findById id).map fun label => {
    label := label
    founders := db.labels.founder.items id
    localizedNames := db.labels.localizedName.items id }

def stored (historyId : ℤ) : Option Content :=
  (db.labels.history.findById historyId).map fun label => {
    label := label
    founders := db.labels.founderHistory.items historyId
    localizedNames := db.labels.localizedNameHistory.items historyId }

structure Wf : Prop where
  founder : db.labels.founder.Satisfies (founderSchema db).constraints
  localizedName : db.labels.localizedName.Satisfies (localizedNameSchema db).constraints
  founderHistory : db.labels.founderHistory.Satisfies (founderHistorySchema db).constraints
  localizedNameHistory :
    db.labels.localizedNameHistory.Satisfies (localizedNameHistorySchema db).constraints

variable {db} {db' : Database} {data : NewLabel} {id historyId : ℤ} {c : Content}

theorem live_create (hwf : Wf db) (h : create db data = some (db', id)) :
    live db' id = some (content data) := by
  simp only [create, Option.bind_eq_bind, Option.bind_eq_some_iff, Prod.exists] at h
  obtain ⟨label, i, hlabel, founder, hfounder, name, hname, heq⟩ := h
  obtain ⟨-, rfl, rfl⟩ := Table.insert_eq_some hlabel
  rw [createGiven_eq] at hfounder hname
  obtain ⟨-, rfl⟩ := createChildren_eq_some hfounder
  obtain ⟨-, rfl⟩ := createChildren_eq_some hname
  obtain ⟨rfl, rfl⟩ := Prod.mk.inj (Option.some.inj heq)
  have hfresh : db.hasLabel db.labels.label.next = false := Table.has_next
  simp [live, content, Table.findById_insertAll_next, items_eq_nil hwf.founder hfresh,
    items_eq_nil hwf.localizedName hfresh]

theorem createHistory_eq_some (h : createHistory db data = some (db', historyId)) :
    historyId = db.labels.history.next ∧
      db' = { db with labels := { db.labels with
        history := db.labels.history.insertAll [data.columns]
        founderHistory := db.labels.founderHistory.adopt historyId (data.founders.getD [])
        localizedNameHistory := db.labels.localizedNameHistory.adopt historyId
          (data.localizedNames.getD []) } } := by
  simp only [createHistory, Option.bind_eq_bind, Option.bind_eq_some_iff, Prod.exists] at h
  obtain ⟨history, i, hhistory, founder, hfounder, name, hname, heq⟩ := h
  obtain ⟨-, rfl, rfl⟩ := Table.insert_eq_some hhistory
  rw [createGiven_eq] at hfounder hname
  obtain ⟨-, rfl⟩ := createChildren_eq_some hfounder
  obtain ⟨-, rfl⟩ := createChildren_eq_some hname
  obtain ⟨rfl, rfl⟩ := Prod.mk.inj (Option.some.inj heq)
  exact ⟨rfl, rfl⟩

theorem stored_createHistory (hwf : Wf db) (h : createHistory db data = some (db', historyId)) :
    stored db' historyId = some (content data) := by
  obtain ⟨rfl, rfl⟩ := createHistory_eq_some h
  have hfresh : hasHistory db db.labels.history.next = false := Table.has_next
  simp [stored, content, Table.findById_insertAll_next, items_eq_nil hwf.founderHistory hfresh,
    items_eq_nil hwf.localizedNameHistory hfresh]

/-- An approval gives the label the founders and names of the history, and leaves its own row. -/
theorem live_applyUpdate {revisions : List CorrectionRevision} {correction : Correction}
    {revision : CorrectionRevision} (hwf : Wf db)
    (hnewest : findRevision revisions correction.id = some revision)
    (hid : db.hasLabel correction.entityId)
    (hc : stored db revision.entityHistoryId = some c) :
    ∃ db', applyUpdate db revisions correction = some db' ∧
      live db' correction.entityId = some { c with
        label := (db.labels.label.findById correction.entityId).getD c.label } := by
  obtain ⟨history, hhistory, rfl⟩ := Option.map_eq_some_iff.mp hc
  obtain ⟨label, hlabel⟩ := Table.has_iff_findById.mp hid
  have hupdate := update_intoActiveModel history hlabel
  have hfounder := updateChildren_eq_some revision.entityHistoryId hwf.founder hwf.founderHistory
    (fun hu => hu) hid (fun _ hi => hi)
  have hname := updateChildren_eq_some revision.entityHistoryId hwf.localizedName
    hwf.localizedNameHistory (fun hu => hu) hid (fun _ hi => hi)
  unfold applyUpdate applyHistory
  simp only [revisedHistory_eq hnewest, hhistory, Option.map_some, hupdate, hfounder, hname,
    Option.bind_eq_bind, Option.bind_some]
  refine ⟨_, rfl, ?_⟩
  simp [live, Table.findById_set hid, hlabel]

end Label

end Thcdb.Catalog
