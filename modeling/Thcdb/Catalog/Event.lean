import Thcdb.Catalog.Database

namespace Thcdb.Catalog
open Corrections Relational

structure NewEvent where
  name : String
  shortDescription : Option String
  description : Option String
  location : Option Location
  startDate : Option DateWithPrecision
  endDate : Option DateWithPrecision
  alternativeNames : Option (List String)
  deriving DecidableEq, Repr

namespace NewEvent

def validateEndDate (start end' : Option DateWithPrecision) : Except String Unit :=
  match start, end' with
  | _, none => .ok ()
  | some start, some end' =>
    if start.value < end'.value then .ok ()
    else .error "end_date must be later than start_date"
  | none, some _ => .error "end_date requires start_date when provided"

def validate (data : NewEvent) : Except String Unit := validateEndDate data.startDate data.endDate

def columns (data : NewEvent) : Event where
  name := data.name
  shortDescription := data.shortDescription.getD ""
  description := data.description.getD ""
  startDate := data.startDate.map DateWithPrecision.value
  startDatePrecision := precisionOr data.startDate
  endDate := data.endDate.map DateWithPrecision.value
  endDatePrecision := precisionOr data.endDate
  location := {
    country := data.location.bind Location.country
    province := data.location.bind Location.province
    city := data.location.bind Location.city }

end NewEvent

/-- A name as it is given: an alias, in no language. -/
def EventAlternativeName.given (name : String) : EventAlternativeName := ⟨name, .Alias, none⟩

namespace Event

variable (db : Database)

/-- The check `validate_date`, on live rows and on histories. -/
def constraints : Constraints Event where
  check c := c.endDate.all fun e => c.startDate.any fun s => s < e
  conflict _ _ := false

def alternativeNameSchema : ChildSchema EventAlternativeName :=
  ⟨db.hasEvent, fun _ name =>
    (match name.type with
      | .Localization => name.languageId.isSome
      | .Alias => name.languageId.isNone) && name.languageId.all db.hasLanguage, false⟩

def hasHistory (id : ℤ) : Bool := db.events.history.has id

def alternativeNameHistorySchema : ChildSchema EventAlternativeName :=
  { alternativeNameSchema db with owner := hasHistory db }

def create (data : NewEvent) : Option (Database × ℤ) := do
  let (event, id) ← db.events.event.insert constraints data.columns
  let db := { db with events := { db.events with event := event } }
  let alternativeName ← createGiven (alternativeNameSchema db) db.events.alternativeName id
    (data.alternativeNames.map (List.map EventAlternativeName.given))
  return ({ db with events := { db.events with alternativeName := alternativeName } }, id)

def createHistory (data : NewEvent) : Option (Database × ℤ) := do
  let (history, id) ← db.events.history.insert constraints data.columns
  let db := { db with events := { db.events with history := history } }
  let alternativeName ← createGiven (alternativeNameHistorySchema db)
    db.events.alternativeNameHistory id
    (data.alternativeNames.map (List.map EventAlternativeName.given))
  return ({ db with events := { db.events with alternativeNameHistory := alternativeName } }, id)

def applyHistory (eventId historyId : ℤ) (history : Event) : Option Database := do
  let event ← db.events.event.updateById constraints eventId history
  let alternativeName ← updateChildren (alternativeNameSchema db) db.events.alternativeName
    db.events.alternativeNameHistory eventId historyId
  return { db with events := { db.events with
    event := event, alternativeName := alternativeName } }

/-- `apply_correction` -/
def applyUpdate (revisions : List CorrectionRevision) (correction : Correction) :
    Option Database := do
  let (historyId, history) ← revisedHistory revisions correction db.events.history
  applyHistory db correction.entityId historyId history

structure Content where
  event : Event
  alternativeNames : Multiset EventAlternativeName
  deriving DecidableEq

def content (data : NewEvent) : Content where
  event := data.columns
  alternativeNames := (data.alternativeNames.getD []).map EventAlternativeName.given

def live (id : ℤ) : Option Content :=
  (db.events.event.findById id).map fun event => {
    event := event
    alternativeNames := db.events.alternativeName.items id }

def stored (historyId : ℤ) : Option Content :=
  (db.events.history.findById historyId).map fun event => {
    event := event
    alternativeNames := db.events.alternativeNameHistory.items historyId }

structure Wf : Prop where
  event : db.events.event.Satisfies constraints
  alternativeName : db.events.alternativeName.Satisfies (alternativeNameSchema db).constraints
  history : db.events.history.Satisfies constraints
  alternativeNameHistory :
    db.events.alternativeNameHistory.Satisfies (alternativeNameHistorySchema db).constraints

variable {db} {db' : Database} {data : NewEvent} {id historyId : ℤ} {c : Content}

theorem live_create (hwf : Wf db) (h : create db data = some (db', id)) :
    live db' id = some (content data) := by
  simp only [create, Option.bind_eq_bind, Option.bind_eq_some_iff, Prod.exists] at h
  obtain ⟨event, i, hevent, name, hname, heq⟩ := h
  obtain ⟨-, rfl, rfl⟩ := Table.insert_eq_some hevent
  rw [createGiven_eq, getD_map] at hname
  obtain ⟨-, rfl⟩ := createChildren_eq_some hname
  obtain ⟨rfl, rfl⟩ := Prod.mk.inj (Option.some.inj heq)
  have hfresh : db.hasEvent db.events.event.next = false := Table.has_next
  simp [live, content, Table.findById_insertAll_next, items_eq_nil hwf.alternativeName hfresh]

theorem createHistory_eq_some (h : createHistory db data = some (db', historyId)) :
    historyId = db.events.history.next ∧
      db' = { db with events := { db.events with
        history := db.events.history.insertAll [data.columns]
        alternativeNameHistory := db.events.alternativeNameHistory.adopt historyId
          ((data.alternativeNames.getD []).map EventAlternativeName.given) } } := by
  simp only [createHistory, Option.bind_eq_bind, Option.bind_eq_some_iff, Prod.exists] at h
  obtain ⟨history, i, hhistory, name, hname, heq⟩ := h
  obtain ⟨-, rfl, rfl⟩ := Table.insert_eq_some hhistory
  rw [createGiven_eq, getD_map] at hname
  obtain ⟨-, rfl⟩ := createChildren_eq_some hname
  obtain ⟨rfl, rfl⟩ := Prod.mk.inj (Option.some.inj heq)
  exact ⟨rfl, rfl⟩

theorem stored_createHistory (hwf : Wf db) (h : createHistory db data = some (db', historyId)) :
    stored db' historyId = some (content data) := by
  obtain ⟨rfl, rfl⟩ := createHistory_eq_some h
  have hfresh : hasHistory db db.events.history.next = false := Table.has_next
  simp [stored, content, Table.findById_insertAll_next,
    items_eq_nil hwf.alternativeNameHistory hfresh]

/-- An approval gives the event the content of the history. -/
theorem live_applyUpdate {revisions : List CorrectionRevision} {correction : Correction}
    {revision : CorrectionRevision} (hwf : Wf db)
    (hnewest : findRevision revisions correction.id = some revision)
    (hid : db.hasEvent correction.entityId)
    (hc : stored db revision.entityHistoryId = some c) :
    ∃ db', applyUpdate db revisions correction = some db' ∧
      live db' correction.entityId = some c := by
  obtain ⟨history, hhistory, rfl⟩ := Option.map_eq_some_iff.mp hc
  have hcheck : constraints.check history :=
    hwf.history.1 _ (List.mem_map_of_mem (Table.findById_eq_some.mp hhistory))
  have hupdate : db.events.event.updateById constraints correction.entityId history =
      some (db.events.event.set correction.entityId history) :=
    hwf.event.updateById_eq hid hcheck fun _ _ => rfl
  have hname := updateChildren_eq_some revision.entityHistoryId hwf.alternativeName
    hwf.alternativeNameHistory (fun hu => hu) hid (fun _ hi => hi)
  unfold applyUpdate applyHistory
  simp only [revisedHistory_eq hnewest, hhistory, Option.map_some, hupdate, hname,
    Option.bind_eq_bind, Option.bind_some]
  refine ⟨_, rfl, ?_⟩
  simp [live, Table.findById_set hid]

end Event

end Thcdb.Catalog
