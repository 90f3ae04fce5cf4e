import Thcdb.Catalog.Database

namespace Thcdb.Catalog
open Corrections Relational

structure NewTag where
  name : String
  type : TagType
  shortDescription : Option String
  description : Option String
  altNames : Option (List String)
  relations : Option (List TagRelation)
  deriving DecidableEq, Repr

def NewTag.columns (data : NewTag) : Tag :=
  ⟨data.name, data.type, data.shortDescription.getD "", data.description.getD ""⟩

/-- A name that was given without a language. -/
def TagAlternativeName.given (name : String) : TagAlternativeName := ⟨name, false, none⟩

namespace Tag

variable (db : Database)

def alternativeNameSchema : ChildSchema TagAlternativeName :=
  ⟨db.hasTag, fun _ name => name.languageId.all db.hasLanguage, false⟩

/-- No tag is related to itself. -/
def relationSchema : ChildSchema TagRelation :=
  ⟨db.hasTag, fun tag relation => db.hasTag relation.relatedTagId && tag ≠ relation.relatedTagId,
    true⟩

def hasHistory (id : ℤ) : Bool := db.tags.history.has id

def alternativeNameHistorySchema : ChildSchema TagAlternativeName :=
  { alternativeNameSchema db with owner := hasHistory db }

def relationHistorySchema : ChildSchema TagRelation :=
  ⟨hasHistory db, fun _ relation => db.hasTag relation.relatedTagId, true⟩

def create (data : NewTag) : Option (Database × ℤ) := do
  let (tag, id) ← db.tags.tag.insert .free data.columns
  let db := { db with tags := { db.tags with tag := tag } }
  let alternativeName ← createGiven (alternativeNameSchema db) db.tags.alternativeName id
    (data.altNames.map (List.map TagAlternativeName.given))
  let relation ← createGiven (relationSchema db) db.tags.relation id data.relations
  let tags := { db.tags with alternativeName := alternativeName, relation := relation }
  return ({ db with tags := tags }, id)

def createHistory (data : NewTag) : Option (Database × ℤ) := do
  let (history, id) ← db.tags.history.insert .free data.columns
  let db := { db with tags := { db.tags with history := history } }
  let alternativeName ← createGiven (alternativeNameHistorySchema db)
    db.tags.alternativeNameHistory id (data.altNames.map (List.map TagAlternativeName.given))
  let relation ← createGiven (relationHistorySchema db) db.tags.relationHistory id data.relations
  let tags := { db.tags with
    alternativeNameHistory := alternativeName, relationHistory := relation }
  return ({ db with tags := tags }, id)

def applyHistory (tagId historyId : ℤ) (history : Tag) : Option Database := do
  let tag ← db.tags.tag.updateById .free tagId history
  let alternativeName ← updateChildren (alternativeNameSchema db) db.tags.alternativeName
    db.tags.alternativeNameHistory tagId historyId
  let relation ← updateChildren (relationSchema db) db.tags.relation db.tags.relationHistory
    tagId historyId
  let tags := { db.tags with tag := tag, alternativeName := alternativeName, relation := relation }
  return { db with tags := tags }

/-- `apply_correction` -/
def applyUpdate (revisions : List CorrectionRevision) (correction : Correction) :
    Option Database := do
  let (historyId, history) ← revisedHistory revisions correction db.tags.history
  applyHistory db correction.entityId historyId history

structure Content where
  tag : Tag
  alternativeNames : Multiset TagAlternativeName
  relations : Multiset TagRelation
  deriving DecidableEq

def content (data : NewTag) : Content where
  tag := data.columns
  alternativeNames := (data.altNames.getD []).map TagAlternativeName.given
  relations := data.relations.getD []

def live (id : ℤ) : Option Content :=
  (db.tags.tag.findById id).map fun tag => {
    tag := tag
    alternativeNames := db.tags.alternativeName.items id
    relations := db.tags.relation.items id }

def stored (historyId : ℤ) : Option Content :=
  (db.tags.history.findById historyId).map fun tag => {
    tag := tag
    alternativeNames := db.tags.alternativeNameHistory.items historyId
    relations := db.tags.relationHistory.items historyId }

structure Wf : Prop where
  alternativeName : db.tags.alternativeName.Satisfies (alternativeNameSchema db).constraints
  relation : db.tags.relation.Satisfies (relationSchema db).constraints
  alternativeNameHistory :
    db.tags.alternativeNameHistory.Satisfies (alternativeNameHistorySchema db).constraints
  relationHistory : db.tags.relationHistory.Satisfies (relationHistorySchema db).constraints

variable {db} {db' : Database} {data : NewTag} {id historyId : ℤ} {c : Content}

theorem live_create (hwf : Wf db) (h : create db data = some (db', id)) :
    live db' id = some (content data) := by
  simp only [create, Option.bind_eq_bind, Option.bind_eq_some_iff, Prod.exists] at h
  obtain ⟨tag, i, htag, name, hname, relation, hrelation, heq⟩ := h
  obtain ⟨-, rfl, rfl⟩ := Table.insert_eq_some htag
  rw [createGiven_eq] at hname hrelation
  rw [getD_map] at hname
  obtain ⟨-, rfl⟩ := createChildren_eq_some hname
  obtain ⟨-, rfl⟩ := createChildren_eq_some hrelation
  obtain ⟨rfl, rfl⟩ := Prod.mk.inj (Option.some.inj heq)
  have hfresh : db.hasTag db.tags.tag.next = false := Table.has_next
  simp [live, content, Table.findById_insertAll_next, items_eq_nil hwf.alternativeName hfresh,
    items_eq_nil hwf.relation hfresh]

theorem createHistory_eq_some (h : createHistory db data = some (db', historyId)) :
    historyId = db.tags.history.next ∧
      db' = { db with tags := { db.tags with
        history := db.tags.history.insertAll [data.columns]
        alternativeNameHistory := db.tags.alternativeNameHistory.adopt historyId
          ((data.altNames.getD []).map TagAlternativeName.given)
        relationHistory := db.tags.relationHistory.adopt historyId
          (data.relations.getD []) } } := by
  simp only [createHistory, Option.bind_eq_bind, Option.bind_eq_some_iff, Prod.exists] at h
  obtain ⟨history, i, hhistory, name, hname, relation, hrelation, heq⟩ := h
  obtain ⟨-, rfl, rfl⟩ := Table.insert_eq_some hhistory
  rw [createGiven_eq] at hname hrelation
  rw [getD_map] at hname
  obtain ⟨-, rfl⟩ := createChildren_eq_some hname
  obtain ⟨-, rfl⟩ := createChildren_eq_some hrelation
  obtain ⟨rfl, rfl⟩ := Prod.mk.inj (Option.some.inj heq)
  exact ⟨rfl, rfl⟩

theorem stored_createHistory (hwf : Wf db) (h : createHistory db data = some (db', historyId)) :
    stored db' historyId = some (content data) := by
  obtain ⟨rfl, rfl⟩ := createHistory_eq_some h
  have hfresh : hasHistory db db.tags.history.next = false := Table.has_next
  simp [stored, content, Table.findById_insertAll_next,
    items_eq_nil hwf.alternativeNameHistory hfresh, items_eq_nil hwf.relationHistory hfresh]

/-- An approval gives the tag the content of the history, unless that relates it to itself. -/
theorem live_applyUpdate {revisions : List CorrectionRevision} {correction : Correction}
    {revision : CorrectionRevision} (hwf : Wf db)
    (hnewest : findRevision revisions correction.id = some revision)
    (hid : db.hasTag correction.entityId)
    (hc : stored db revision.entityHistoryId = some c) :
    if ∀ r ∈ c.relations, r.relatedTagId ≠ correction.entityId then
      ∃ db', applyUpdate db revisions correction = some db' ∧
        live db' correction.entityId = some c
    else applyUpdate db revisions correction = none := by
  obtain ⟨history, hhistory, rfl⟩ := Option.map_eq_some_iff.mp hc
  have hupdate : db.tags.tag.updateById .free correction.entityId history =
      some (db.tags.tag.set correction.entityId history) := Table.updateById_free hid
  have hname := updateChildren_eq_some revision.entityHistoryId hwf.alternativeName
    hwf.alternativeNameHistory (fun hu => hu) hid (fun _ hi => hi)
  -- all that a relation can fail by is that it leads to the tag itself
  have hitem : ∀ r ∈ db.tags.relationHistory.items revision.entityHistoryId,
      ((relationSchema db).item correction.entityId r ↔
        r.relatedTagId ≠ correction.entityId) := by
    intro r hr
    have htag : db.hasTag r.relatedTagId := (check_of_satisfies hwf.relationHistory hr).2
    simp only [relationSchema, htag, Bool.true_and, decide_eq_true_eq]
    exact ne_comm
  have hrelation : updateChildren (relationSchema db) db.tags.relation db.tags.relationHistory
      correction.entityId revision.entityHistoryId = _ :=
    updateChildren_eq hwf.relation hwf.relationHistory (fun hu => hu) hid
  rw [if_congr (forall₂_congr hitem) rfl rfl] at hrelation
  unfold applyUpdate applyHistory
  simp only [revisedHistory_eq hnewest, hhistory, Option.map_some, hupdate, hname, hrelation,
    Option.bind_eq_bind, Option.bind_some, Multiset.mem_coe]
  split
  · refine ⟨_, rfl, ?_⟩
    simp [live, Table.findById_set hid]
  · rfl

end Tag

end Thcdb.Catalog
