import Thcdb.Catalog.Artist
import Thcdb.Catalog.CreditRole
import Thcdb.Catalog.Event
import Thcdb.Catalog.Label
import Thcdb.Catalog.Release
import Thcdb.Catalog.Song
import Thcdb.Catalog.Tag

namespace Thcdb.Catalog
open Corrections Relational

/-- The kinds of entities whose corrections write rows of that entity; lyrics find theirs by song
and language. -/
inductive Kind
  | Artist | Label | Release | Song | Tag | Event | CreditRole
  deriving DecidableEq, Repr

def Kind.entityType : Kind → EntityType
  | .Artist => .Artist
  | .Label => .Label
  | .Release => .Release
  | .Song => .Song
  | .Tag => .Tag
  | .Event => .Event
  | .CreditRole => .CreditRole

/-- The transactions of one kind of entity, with what they read and write. -/
structure EntityRepo where
  New : Type
  Content : Type
  /-- what the create path accepts -/
  Valid : New → Prop
  create : Database → New → Option (Database × ℤ)
  createHistory : Database → New → Option (Database × ℤ)
  applyUpdate : Database → List CorrectionRevision → Correction → Option Database
  content : New → Content
  /-- the rows of an entity, without identities and order -/
  live : Database → ℤ → Option Content
  /-- the rows of a history, likewise -/
  stored : Database → ℤ → Option Content
  hasEntity : Database → ℤ → Bool
  /-- what the database keeps true of the tables -/
  Wf : Database → Prop
  /-- what is true of every history of an accepted input -/
  Proper : Content → Prop
  /-- what does not stand in the way of an approval -/
  Applicable : Database → ℤ → Content → Prop
  /-- what an approval makes of a history -/
  leaves : Database → ℤ → Content → Content
  /-- where an approval stores what creation would -/
  Approvable : Database → ℤ → Content → Prop
  live_create : ∀ {db db' data id}, Wf db → create db data = some (db', id) →
    live db' id = some (content data)
  stored_createHistory : ∀ {db db' data id}, Wf db → createHistory db data = some (db', id) →
    stored db' id = some (content data)
  proper_content : ∀ {db db' data id}, Valid data → createHistory db data = some (db', id) →
    Proper (content data)
  live_applyUpdate : ∀ {db revisions correction revision c}, Wf db →
    findRevision revisions correction.id = some revision → hasEntity db correction.entityId →
    stored db revision.entityHistoryId = some c → Proper c →
    Applicable db correction.entityId c →
    ∃ db', applyUpdate db revisions correction = some db' ∧
      live db' correction.entityId = some (leaves db correction.entityId c)
  applyUpdate_eq_none : ∀ {db revisions correction revision c}, Wf db →
    findRevision revisions correction.id = some revision → hasEntity db correction.entityId →
    stored db revision.entityHistoryId = some c → Proper c →
    ¬Applicable db correction.entityId c → applyUpdate db revisions correction = none
  approvable_iff : ∀ {db id c}, hasEntity db id →
    (Approvable db id c ↔ Applicable db id c ∧ leaves db id c = c)

namespace EntityRepo

def artist : EntityRepo where
  New := NewArtist
  Content := Artist.Content
  Valid data := data.validate = .ok ()
  create := Artist.create
  createHistory := Artist.createHistory
  applyUpdate := Artist.applyUpdate
  content := Artist.content
  live := Artist.live
  stored := Artist.stored
  hasEntity := Database.hasArtist
  Wf := Artist.Wf
  Proper := Artist.Proper
  Applicable := Artist.Approvable
  leaves _ _ c := c
  Approvable := Artist.Approvable
  live_create := Artist.live_create
  stored_createHistory := Artist.stored_createHistory
  proper_content := Artist.proper_content
  live_applyUpdate := Artist.live_applyUpdate
  applyUpdate_eq_none := Artist.applyUpdate_eq_none
  approvable_iff _ := (and_iff_left rfl).symm

/-- Labels are not validated. -/
def label : EntityRepo where
  New := NewLabel
  Content := Label.Content
  Valid _ := True
  create := Label.create
  createHistory := Label.createHistory
  applyUpdate := Label.applyUpdate
  content := Label.content
  live := Label.live
  stored := Label.stored
  hasEntity := Database.hasLabel
  Wf := Label.Wf
  Proper _ := True
  Applicable _ _ _ := True
  leaves db id c := { c with label := (db.labels.label.findById id).getD c.label }
  Approvable db id c := db.labels.label.findById id = some c.label
  live_create := Label.live_create
  stored_createHistory := Label.stored_createHistory
  proper_content _ _ := trivial
  live_applyUpdate hwf hnewest hid hc _ _ := Label.live_applyUpdate hwf hnewest hid hc
  applyUpdate_eq_none _ _ _ _ _ h := absurd trivial h
  approvable_iff hid := by
    obtain ⟨label, hlabel⟩ := Table.has_iff_findById.mp hid
    simp only [hlabel, Option.some.injEq, Option.getD_some, true_and]
    exact ⟨fun h => by rw [h], fun h => congrArg Label.Content.label h⟩

def release : EntityRepo where
  New := NewRelease
  Content := Release.Content
  Valid data := data.validate = []
  create := Release.create
  createHistory := Release.createHistory
  applyUpdate := Release.applyUpdate
  content := Release.content
  live := Release.live
  stored := Release.stored
  hasEntity := Release.hasRelease
  Wf := Release.Wf
  Proper c := c.strays = 0
  Applicable := Release.Approvable
  leaves _ _ c := c
  Approvable := Release.Approvable
  live_create := Release.live_create
  stored_createHistory := Release.stored_createHistory
  proper_content _ _ := rfl
  live_applyUpdate := Release.live_applyUpdate
  applyUpdate_eq_none := Release.applyUpdate_eq_none
  approvable_iff _ := (and_iff_left rfl).symm

def song : EntityRepo where
  New := NewSong
  Content := Song.Content
  Valid data := data.validate none = .ok ()
  create := Song.create
  createHistory := Song.createHistory
  applyUpdate := Song.applyUpdate
  content := Song.content
  live := Song.live
  stored := Song.stored
  hasEntity := Database.hasSong
  Wf := Song.Wf
  Proper _ := True
  Applicable _ id c := ∀ r ∈ c.relations, r.relatedSongId ≠ id
  leaves _ _ c := c
  Approvable _ id c := ∀ r ∈ c.relations, r.relatedSongId ≠ id
  live_create := Song.live_create
  stored_createHistory := Song.stored_createHistory
  proper_content _ _ := trivial
  live_applyUpdate hwf hnewest hid hc _ h := by
    have hspec := Song.live_applyUpdate hwf hnewest hid hc
    rwa [if_pos h] at hspec
  applyUpdate_eq_none hwf hnewest hid hc _ h := by
    have hspec := Song.live_applyUpdate hwf hnewest hid hc
    rwa [if_neg h] at hspec
  approvable_iff _ := (and_iff_left rfl).symm

def tag : EntityRepo where
  New := NewTag
  Content := Tag.Content
  Valid _ := True
  create := Tag.create
  createHistory := Tag.createHistory
  applyUpdate := Tag.applyUpdate
  content := Tag.content
  live := Tag.live
  stored := Tag.stored
  hasEntity := Database.hasTag
  Wf := Tag.Wf
  Proper _ := True
  Applicable _ id c := ∀ r ∈ c.relations, r.relatedTagId ≠ id
  leaves _ _ c := c
  Approvable _ id c := ∀ r ∈ c.relations, r.relatedTagId ≠ id
  live_create := Tag.live_create
  stored_createHistory := Tag.stored_createHistory
  proper_content _ _ := trivial
  live_applyUpdate hwf hnewest hid hc _ h := by
    have hspec := Tag.live_applyUpdate hwf hnewest hid hc
    rwa [if_pos h] at hspec
  applyUpdate_eq_none hwf hnewest hid hc _ h := by
    have hspec := Tag.live_applyUpdate hwf hnewest hid hc
    rwa [if_neg h] at hspec
  approvable_iff _ := (and_iff_left rfl).symm

def event : EntityRepo where
  New := NewEvent
  Content := Event.Content
  Valid data := data.validate = .ok ()
  create := Event.create
  createHistory := Event.createHistory
  applyUpdate := Event.applyUpdate
  content := Event.content
  live := Event.live
  stored := Event.stored
  hasEntity := Database.hasEvent
  Wf := Event.Wf
  Proper _ := True
  Applicable _ _ _ := True
  leaves _ _ c := c
  Approvable _ _ _ := True
  live_create := Event.live_create
  stored_createHistory := Event.stored_createHistory
  proper_content _ _ := trivial
  live_applyUpdate hwf hnewest hid hc _ _ := Event.live_applyUpdate hwf hnewest hid hc
  applyUpdate_eq_none _ _ _ _ _ h := absurd trivial h
  approvable_iff _ := (and_iff_left rfl).symm

def creditRole : EntityRepo where
  New := NewCreditRole
  Content := CreditRole.Content
  Valid _ := True
  create := CreditRole.create
  createHistory := CreditRole.createHistory
  applyUpdate := CreditRole.applyUpdate
  content := CreditRole.content
  live := CreditRole.live
  stored := CreditRole.stored
  hasEntity := Database.hasCreditRole
  Wf := CreditRole.Wf
  Proper _ := True
  Applicable _ _ _ := True
  leaves _ _ c := c
  Approvable _ _ _ := True
  live_create := CreditRole.live_create
  stored_createHistory := CreditRole.stored_createHistory
  proper_content _ _ := trivial
  live_applyUpdate hwf hnewest hid hc _ _ := CreditRole.live_applyUpdate hwf hnewest hid hc
  applyUpdate_eq_none _ _ _ _ _ h := absurd trivial h
  approvable_iff _ := (and_iff_left rfl).symm

end EntityRepo

def Kind.repo : Kind → EntityRepo
  | .Artist => .artist
  | .Label => .label
  | .Release => .release
  | .Song => .song
  | .Tag => .tag
  | .Event => .event
  | .CreditRole => .creditRole

section

variable {k : Kind} {db₀ db₀' db₁ db₁' db : Database} {data : k.repo.New} {created : ℤ}
  {revisions : List CorrectionRevision} {correction : Correction} {revision : CorrectionRevision}

/-- The history that an approval reads is that of a proper input. -/
theorem stored_proper (hvalid : k.repo.Valid data) (hwf : k.repo.Wf db₁)
    (hhistory : k.repo.createHistory db₁ data = some (db₁', revision.entityHistoryId))
    (hstored : k.repo.stored db revision.entityHistoryId =
      k.repo.stored db₁' revision.entityHistoryId) :
    k.repo.stored db revision.entityHistoryId = some (k.repo.content data) ∧
      k.repo.Proper (k.repo.content data) := by
  rw [hstored, k.repo.stored_createHistory hwf hhistory]
  exact ⟨rfl, k.repo.proper_content hvalid hhistory⟩

/-- Approving an input leaves what creating from it stores, if nothing stands in the way. -/
theorem approval_equals_creation (hvalid : k.repo.Valid data) (hwf₀ : k.repo.Wf db₀)
    (hcreate : k.repo.create db₀ data = some (db₀', created)) (hwf₁ : k.repo.Wf db₁)
    (hhistory : k.repo.createHistory db₁ data = some (db₁', revision.entityHistoryId))
    (hwf : k.repo.Wf db)
    (hstored : k.repo.stored db revision.entityHistoryId =
      k.repo.stored db₁' revision.entityHistoryId)
    (hnewest : findRevision revisions correction.id = some revision)
    (hid : k.repo.hasEntity db correction.entityId) :
    (∃ db', k.repo.applyUpdate db revisions correction = some db' ∧
        k.repo.live db' correction.entityId = k.repo.live db₀' created) ↔
      k.repo.Approvable db correction.entityId (k.repo.content data) := by
  obtain ⟨hc, hproper⟩ := stored_proper hvalid hwf₁ hhistory hstored
  rw [k.repo.live_create hwf₀ hcreate]
  rw [k.repo.approvable_iff hid]
  by_cases h : k.repo.Applicable db correction.entityId (k.repo.content data)
  · obtain ⟨db', happly, hlive⟩ := k.repo.live_applyUpdate hwf hnewest hid hc hproper h
    simp [happly, hlive, h]
  · have hnone := k.repo.applyUpdate_eq_none hwf hnewest hid hc hproper h
    simp [hnone, h]

end

def oneSong : Database :=
  let db : Database := default
  { db with songs := { db.songs with song := db.songs.song.insertAll [⟨"s"⟩] } }

def oneDisc (tracks : List NewTrack) : NewRelease where
  title := "t"
  releaseType := .Album
  releaseDate := none
  recordingDateStart := none
  recordingDateEnd := none
  artists := []
  catalogNums := []
  credits := []
  discs := [⟨none⟩]
  events := []
  localizedTitles := []
  tracks := tracks

def firstCorrection : Correction := ⟨1, .Pending, .Update, .Release, 1, 0, none⟩

def firstRevision : CorrectionRevision := ⟨1, 1, 1, ""⟩

def firstTrack : NewTrack := ⟨1, none, none, none, 0, []⟩

def committed (r : Option (Database × ℤ)) : Database := (r.map Prod.fst).getD default

def oneTrack : Database := committed (Release.create oneSong (oneDisc [firstTrack]))

def oneTrackHistory : Database := committed (Release.createHistory oneTrack (oneDisc [firstTrack]))

theorem approval_equals_creation_one_track :
    ∃ db', Release.applyUpdate oneTrackHistory [firstRevision] firstCorrection = some db' ∧
      Release.live db' 1 = Release.live oneTrack 1 := by
  have hvalid : (oneDisc [firstTrack]).validate = [] := by decide
  have hwf₀ : Release.Wf oneSong := by constructor <;> decide
  have hcreate : Release.create oneSong (oneDisc [firstTrack]) = some (oneTrack, 1) := rfl
  have hwf₁ : Release.Wf oneTrack := by constructor <;> decide
  have hhistory : Release.createHistory oneTrack (oneDisc [firstTrack]) =
      some (oneTrackHistory, firstRevision.entityHistoryId) := rfl
  have hwf : Release.Wf oneTrackHistory := by constructor <;> decide
  have hnewest : findRevision [firstRevision] firstCorrection.id = some firstRevision := by decide
  refine (approval_equals_creation (k := .Release) hvalid hwf₀ hcreate hwf₁ hhistory hwf rfl hnewest
    (by decide)).mpr ?_
  exact ⟨⟨_, List.mem_cons_self, by decide⟩, by decide, by decide⟩

/-- Creation stores a release without tracks, and its approval fails. -/
theorem trackless_release_not_approved :
    (oneDisc []).validate = [] ∧ Release.Wf default ∧
      ∃ db₀ db, Release.create default (oneDisc []) = some (db₀, 1) ∧
        Release.createHistory db₀ (oneDisc []) = some (db, 1) ∧
        Release.applyUpdate db [firstRevision] firstCorrection = none := by
  refine ⟨by decide, by constructor <;> decide, _, _, rfl, rfl, rfl⟩

end Thcdb.Catalog
