import Thcdb.Catalog.Database
import Thcdb.Relational.Nested

namespace Thcdb.Catalog
open Corrections Relational

structure NewDisc where
  name : Option String
  deriving DecidableEq, Repr

structure NewTrack where
  songId : ℤ
  trackNumber : Option String
  displayTitle : Option String
  duration : Option ℤ
  discIndex : UInt8
  artists : List ℤ
  deriving DecidableEq, Repr

structure NewRelease where
  title : String
  releaseType : ReleaseType
  releaseDate : Option DateWithPrecision
  recordingDateStart : Option DateWithPrecision
  recordingDateEnd : Option DateWithPrecision
  artists : List ℤ
  catalogNums : List CatalogNumber
  credits : List ReleaseCredit
  discs : List NewDisc
  events : List ℤ
  localizedTitles : List LocalizedTitle
  tracks : List NewTrack
  deriving DecidableEq, Repr

/-- The columns of a track; its artists have none. -/
def NewTrack.columns (track : NewTrack) : Track :=
  ⟨track.songId, track.trackNumber, track.displayTitle, track.duration⟩

namespace NewRelease

inductive ValidationError
  | titleLength
  | discsLength
  | trackDisc (discIndex : UInt8) (track : ℕ)
  deriving DecidableEq, Repr

/-- The first track on a disc that is not there. -/
def isValidTrackList (discs : List NewDisc) (tracks : List NewTrack) : Option ValidationError :=
  (tracks.zipIdx.find? fun p => discs.length ≤ p.1.discIndex.toNat).map fun p =>
    .trackDisc p.1.discIndex p.2

/-- One error for each field that is wrong. -/
def validate (data : NewRelease) : List ValidationError :=
  (if data.title.isEmpty then [.titleLength] else []) ++
    (if data.discs.isEmpty then [.discsLength] else []) ++
    (isValidTrackList data.discs data.tracks).toList

def columns (data : NewRelease) : Release where
  title := data.title
  releaseType := data.releaseType
  releaseDate := data.releaseDate.map DateWithPrecision.value
  releaseDatePrecision := precisionOr data.releaseDate
  recordingDateStart := data.recordingDateStart.map DateWithPrecision.value
  recordingDateStartPrecision := precisionOr data.recordingDateStart
  recordingDateEnd := data.recordingDateEnd.map DateWithPrecision.value
  recordingDateEndPrecision := precisionOr data.recordingDateEnd

end NewRelease

namespace Release

variable (db : Database)

def hasRelease (id : ℤ) : Bool := db.releases.release.has id

def hasHistory (id : ℤ) : Bool := db.releases.history.has id

def artistSchema : ChildSchema ℤ := ⟨hasRelease db, fun _ artist => db.hasArtist artist, true⟩

def catalogNumberSchema : ChildSchema CatalogNumber :=
  ⟨hasRelease db, fun _ number => number.labelId.all db.hasLabel, false⟩

def creditSchema : ChildSchema ReleaseCredit :=
  ⟨hasRelease db, fun _ credit => db.hasArtist credit.artistId && db.hasCreditRole credit.roleId,
    false⟩

def eventSchema : ChildSchema ℤ := ⟨hasRelease db, fun _ event => db.hasEvent event, true⟩

def localizedTitleSchema : ChildSchema LocalizedTitle :=
  ⟨hasRelease db, fun _ title => db.hasLanguage title.languageId, true⟩

def discSchema : ChildSchema (Option String) := ⟨hasRelease db, fun _ _ => true, false⟩

/-- Tracks refer to a row of the discs, whichever release that belongs to. -/
def trackSchema (discs : Table (Owned (Option String))) : ChildSchema DiscTrack :=
  ⟨hasRelease db, fun _ t => db.hasSong t.track.songId && discs.has t.discId, false⟩

def trackArtistSchema : ChildSchema ℤ :=
  ⟨db.releases.track.has, fun _ artist => db.hasArtist artist, true⟩

def artistHistorySchema : ChildSchema ℤ := { artistSchema db with owner := hasHistory db }

def catalogNumberHistorySchema : ChildSchema CatalogNumber :=
  { catalogNumberSchema db with owner := hasHistory db }

def creditHistorySchema : ChildSchema ReleaseCredit :=
  { creditSchema db with owner := hasHistory db }

def eventHistorySchema : ChildSchema ℤ := { eventSchema db with owner := hasHistory db }

def localizedTitleHistorySchema : ChildSchema LocalizedTitle :=
  { localizedTitleSchema db with owner := hasHistory db }

def discHistorySchema : ChildSchema (Option String) :=
  { discSchema db with owner := hasHistory db }

def trackHistorySchema (discs : Table (Owned (Option String))) : ChildSchema DiscTrack :=
  { trackSchema db discs with owner := hasHistory db }

/-- `create_release_disc`, and the same for histories: the table, and the discs that it returns. -/
def createDiscs (S : ChildSchema (Option String)) (t : Table (Owned (Option String))) (owner : ℤ)
    (discs : List NewDisc) :
    Option (Table (Owned (Option String)) × List (Row (Owned (Option String)))) :=
  if discs.isEmpty then some (t, [])
  else t.insertManyReturning S.constraints (discs.map fun disc => ⟨owner, disc.name⟩)

/-- `create_release_track`, and the same for histories; without the disc, a panic. -/
def createTracks (S : ChildSchema DiscTrack) (t : Table (Owned DiscTrack)) (owner : ℤ)
    (tracks : List NewTrack) (discs : List (Row (Owned (Option String)))) :
    Option (Table (Owned DiscTrack)) :=
  if tracks.isEmpty then some t
  else do
    let models ← tracks.mapM fun track =>
      discs[track.discIndex.toNat]?.map fun disc =>
        (⟨owner, ⟨track.columns, disc.id⟩⟩ : Owned DiscTrack)
    t.insertMany S.constraints models

def create (data : NewRelease) : Option (Database × ℤ) := do
  let (release, id) ← db.releases.release.insert .free data.columns
  let db := { db with releases := { db.releases with release := release } }
  let artist ← createChildren (artistSchema db) db.releases.artist id data.artists
  let catalogNumber ← createChildren (catalogNumberSchema db) db.releases.catalogNumber id
    data.catalogNums
  let credit ← createChildren (creditSchema db) db.releases.credit id data.credits
  let event ← createChildren (eventSchema db) db.releases.event id data.events
  let localizedTitle ← createChildren (localizedTitleSchema db) db.releases.localizedTitle id
    data.localizedTitles
  let (disc, discs) ← createDiscs (discSchema db) db.releases.disc id data.discs
  let track ← createTracks (trackSchema db disc) db.releases.track id data.tracks discs
  let releases := { db.releases with
    artist := artist, catalogNumber := catalogNumber, credit := credit, event := event,
    localizedTitle := localizedTitle, disc := disc, track := track }
  return ({ db with releases := releases }, id)

def createHistory (data : NewRelease) : Option (Database × ℤ) := do
  let (history, id) ← db.releases.history.insert .free data.columns
  let db := { db with releases := { db.releases with history := history } }
  let artist ← createChildren (artistHistorySchema db) db.releases.artistHistory id data.artists
  let catalogNumber ← createChildren (catalogNumberHistorySchema db)
    db.releases.catalogNumberHistory id data.catalogNums
  let credit ← createChildren (creditHistorySchema db) db.releases.creditHistory id data.credits
  let event ← createChildren (eventHistorySchema db) db.releases.eventHistory id data.events
  let localizedTitle ← createChildren (localizedTitleHistorySchema db)
    db.releases.localizedTitleHistory id data.localizedTitles
  let (disc, discs) ← createDiscs (discHistorySchema db) db.releases.discHistory id data.discs
  let track ← createTracks (trackHistorySchema db disc) db.releases.trackHistory id data.tracks
    discs
  let releases := { db.releases with
    artistHistory := artist, catalogNumberHistory := catalogNumber, creditHistory := credit,
    eventHistory := event, localizedTitleHistory := localizedTitle, discHistory := disc,
    trackHistory := track }
  return ({ db with releases := releases }, id)

/-- The deletion of the tracks of a release, which artists of a track forbid. -/
def deleteTracks (releaseId : ℤ) : Option (Table (Owned DiscTrack)) :=
  if (db.releases.track.itemRows releaseId).all fun r =>
      (db.releases.trackArtist.items r.id).isEmpty then
    some (db.releases.track.disown releaseId)
  else none

/-- The deletion of the discs of a release, which tracks on them forbid. -/
def deleteDiscs (tracks : Table (Owned DiscTrack)) (releaseId : ℤ) :
    Option (Table (Owned (Option String))) :=
  if (db.releases.disc.itemRows releaseId).all fun r =>
      tracks.cols.all fun t => t.item.discId ≠ r.id then
    some (db.releases.disc.disown releaseId)
  else none

def updateTracksAndDiscs (releaseId historyId : ℤ) :
    Option (Table (Owned (Option String)) × Table (Owned DiscTrack)) := do
  let track ← deleteTracks db releaseId
  let disc ← deleteDiscs db track releaseId
  let discHistories := db.releases.discHistory.itemRows historyId
  let trackHistories := db.releases.trackHistory.items historyId
  let (disc, newDiscs) ← disc.insertManyReturning (discSchema db).constraints
    (discHistories.map fun r => ⟨releaseId, r.cols⟩)
  let models ← trackHistories.mapM fun t =>
    newDiscs[(discHistories.map Row.id).idxOf t.discId]?.map fun disc =>
      (⟨releaseId, ⟨t.track, disc.id⟩⟩ : Owned DiscTrack)
  let track ← track.insertMany (trackSchema db disc).constraints models
  return (disc, track)

def applyHistory (releaseId historyId : ℤ) (history : Release) : Option Database := do
  let release ← db.releases.release.updateById .free releaseId history
  let artist ← updateChildren (artistSchema db) db.releases.artist db.releases.artistHistory
    releaseId historyId
  let catalogNumber ← updateChildren (catalogNumberSchema db) db.releases.catalogNumber
    db.releases.catalogNumberHistory releaseId historyId
  let credit ← updateChildren (creditSchema db) db.releases.credit db.releases.creditHistory
    releaseId historyId
  let event ← updateChildren (eventSchema db) db.releases.event db.releases.eventHistory
    releaseId historyId
  let localizedTitle ← updateChildren (localizedTitleSchema db) db.releases.localizedTitle
    db.releases.localizedTitleHistory releaseId historyId
  let (disc, track) ← updateTracksAndDiscs db releaseId historyId
  let releases := { db.releases with
    release := release, artist := artist, catalogNumber := catalogNumber, credit := credit,
    event := event, localizedTitle := localizedTitle, disc := disc, track := track }
  return { db with releases := releases }

def applyUpdate (revisions : List CorrectionRevision) (correction : Correction) :
    Option Database := do
  let (historyId, history) ← revisedHistory revisions correction db.releases.history
  applyHistory db correction.entityId historyId history

structure Content where
  release : Release
  artists : Multiset ℤ
  catalogNumbers : Multiset CatalogNumber
  credits : Multiset ReleaseCredit
  events : Multiset ℤ
  localizedTitles : Multiset LocalizedTitle
  discs : Multiset (Option String × Multiset Track)
  /-- tracks on the discs of others -/
  strays : Multiset Track
  trackArtists : Multiset (Track × ℤ)
  deriving DecidableEq

def content (data : NewRelease) : Content where
  release := data.columns
  artists := data.artists
  catalogNumbers := data.catalogNums
  credits := data.credits
  events := data.events
  localizedTitles := data.localizedTitles
  discs := data.discs.mapIdx fun i disc =>
    (disc.name, ((data.tracks.filter fun t => t.discIndex.toNat = i).map NewTrack.columns :
      Multiset Track))
  strays := 0
  trackArtists := 0

/-- The discs of an owner with the tracks on each. -/
def discsOf (discs : Table (Owned (Option String))) (tracks : Table (Owned DiscTrack))
    (owner : ℤ) : Multiset (Option String × Multiset Track) :=
  ((grouped (discs.itemRows owner)
    ((tracks.items owner).map fun t => ⟨t.discId, t.track⟩)).map fun p =>
      (p.1, (p.2 : Multiset Track)) : List (Option String × Multiset Track))

def straysOf (discs : Table (Owned (Option String))) (tracks : Table (Owned DiscTrack))
    (owner : ℤ) : Multiset Track :=
  ((tracks.items owner).filter fun t =>
    t.discId ∉ (discs.itemRows owner).map Row.id).map DiscTrack.track

def live (id : ℤ) : Option Content :=
  (db.releases.release.findById id).map fun release => {
    release := release
    artists := db.releases.artist.items id
    catalogNumbers := db.releases.catalogNumber.items id
    credits := db.releases.credit.items id
    events := db.releases.event.items id
    localizedTitles := db.releases.localizedTitle.items id
    discs := discsOf db.releases.disc db.releases.track id
    strays := straysOf db.releases.disc db.releases.track id
    trackArtists := (db.releases.track.itemRows id).flatMap fun r =>
      (db.releases.trackArtist.items r.id).map fun artist => (r.cols.track, artist) }

/-- Approvals do not read the artists of the tracks of a history. -/
def stored (historyId : ℤ) : Option Content :=
  (db.releases.history.findById historyId).map fun release => {
    release := release
    artists := db.releases.artistHistory.items historyId
    catalogNumbers := db.releases.catalogNumberHistory.items historyId
    credits := db.releases.creditHistory.items historyId
    events := db.releases.eventHistory.items historyId
    localizedTitles := db.releases.localizedTitleHistory.items historyId
    discs := discsOf db.releases.discHistory db.releases.trackHistory historyId
    strays := straysOf db.releases.discHistory db.releases.trackHistory historyId
    trackArtists := 0 }

structure Wf : Prop where
  artist : db.releases.artist.Satisfies (artistSchema db).constraints
  catalogNumber : db.releases.catalogNumber.Satisfies (catalogNumberSchema db).constraints
  credit : db.releases.credit.Satisfies (creditSchema db).constraints
  event : db.releases.event.Satisfies (eventSchema db).constraints
  localizedTitle : db.releases.localizedTitle.Satisfies (localizedTitleSchema db).constraints
  disc : db.releases.disc.Satisfies (discSchema db).constraints
  track : db.releases.track.Satisfies (trackSchema db db.releases.disc).constraints
  trackArtist : db.releases.trackArtist.Satisfies (trackArtistSchema db).constraints
  artistHistory : db.releases.artistHistory.Satisfies (artistHistorySchema db).constraints
  catalogNumberHistory :
    db.releases.catalogNumberHistory.Satisfies (catalogNumberHistorySchema db).constraints
  creditHistory : db.releases.creditHistory.Satisfies (creditHistorySchema db).constraints
  eventHistory : db.releases.eventHistory.Satisfies (eventHistorySchema db).constraints
  localizedTitleHistory :
    db.releases.localizedTitleHistory.Satisfies (localizedTitleHistorySchema db).constraints
  discHistory : db.releases.discHistory.Satisfies (discHistorySchema db).constraints
  trackHistory :
    db.releases.trackHistory.Satisfies (trackHistorySchema db db.releases.discHistory).constraints

section Discs

variable {S : ChildSchema (Option String)} {T : ChildSchema DiscTrack}
  {discTable discTable' : Table (Owned (Option String))}
  {trackTable trackTable' : Table (Owned DiscTrack)}
  {owner n : ℤ} {discs : List NewDisc} {tracks : List NewTrack}
  {rows : List (Row (Owned (Option String)))}

theorem createDiscs_eq_some (h : createDiscs S discTable owner discs = some (discTable', rows)) :
    discTable' = discTable.adopt owner (discs.map NewDisc.name) ∧
      rows = numbered discTable.next (discs.map fun disc => ⟨owner, disc.name⟩) := by
  unfold createDiscs at h
  split at h
  · next hnil =>
    obtain ⟨rfl, rfl⟩ := Prod.mk.inj (Option.some.inj h)
    rw [List.isEmpty_iff.mp hnil]
    simp [Table.adopt, numbered]
  · obtain ⟨t, ht, heq⟩ := Option.map_eq_some_iff.mp h
    obtain ⟨rfl, rfl⟩ := Prod.mk.inj heq
    obtain ⟨-, -, -, rfl⟩ := Table.insertMany_eq_some ht
    simp [Table.adopt, Function.comp_def]

/-- Every track finds its disc among those that were just numbered. -/
theorem createTracks_eq_some
    (h : createTracks T trackTable owner tracks
      (numbered n (discs.map fun disc => ⟨owner, disc.name⟩)) = some trackTable') :
    (∀ t ∈ tracks, t.discIndex.toNat < discs.length) ∧
      trackTable' = trackTable.adopt owner
        (tracks.map fun t => ⟨t.columns, n + t.discIndex.toNat⟩) := by
  unfold createTracks at h
  split at h
  · next hnil =>
    obtain rfl := Option.some.inj h
    rw [List.isEmpty_iff.mp hnil]
    simp [Table.adopt]
  · obtain ⟨models, hmodels, hinsert⟩ := Option.bind_eq_some_iff.mp h
    obtain ⟨-, -, -, rfl⟩ := Table.insertMany_eq_some hinsert
    have hdisc : ∀ (t : NewTrack) (m : Owned DiscTrack),
        (numbered n (discs.map fun disc => (⟨owner, disc.name⟩ : Owned (Option String))))[
            t.discIndex.toNat]?.map (fun disc =>
          (⟨owner, ⟨t.columns, disc.id⟩⟩ : Owned DiscTrack)) = some m →
        t.discIndex.toNat < discs.length ∧ m = ⟨owner, ⟨t.columns, n + t.discIndex.toNat⟩⟩ := by
      intro t m hm
      simp only [getElem?_numbered, List.getElem?_map, Option.map_map, Option.map_eq_some_iff,
        List.getElem?_eq_some_iff] at hm
      obtain ⟨disc, ⟨hlt, -⟩, rfl⟩ := hm
      exact ⟨hlt, rfl⟩
    obtain ⟨rfl, hall⟩ := eq_map_of_mapM hmodels fun t m hm => (hdisc t m hm).2
    refine ⟨fun t ht => (hdisc t _ (hall t ht)).1, ?_⟩
    simp [Table.adopt, Function.comp_def]

/-- The discs as they were just written, with the tracks of the input. -/
theorem discsOf_adopt (hdisc : discTable.itemRows owner = []) (htrack : trackTable.items owner = []) :
    discsOf (discTable.adopt owner (discs.map NewDisc.name))
        (trackTable.adopt owner
          (tracks.map fun t => ⟨t.columns, discTable.next + t.discIndex.toNat⟩)) owner =
      (discs.mapIdx fun i disc =>
        (disc.name, ((tracks.filter fun t => t.discIndex.toNat = i).map NewTrack.columns :
          Multiset Track)) : List (Option String × Multiset Track)) := by
  have hitems : (tracks.map fun t : NewTrack =>
        (⟨discTable.next + t.discIndex.toNat, t.columns⟩ : Owned Track)) =
      (tracks.map fun t => (t.discIndex.toNat, t.columns)).map fun p =>
        ⟨discTable.next + p.1, p.2⟩ := by
    simp [Function.comp_def]
  unfold discsOf
  rw [itemRows_adopt, items_adopt, hdisc, htrack, List.nil_append, List.nil_append, List.map_map]
  simp only [Function.comp_def]
  rw [hitems, grouped_positions]
  refine congrArg Multiset.ofList (List.ext_getElem (by simp) ?_)
  intro i h₁ h₂
  simp [List.filter_map, Function.comp_def]

theorem straysOf_adopt (hdisc : discTable.itemRows owner = []) (htrack : trackTable.items owner = [])
    (hindex : ∀ t ∈ tracks, t.discIndex.toNat < discs.length) :
    straysOf (discTable.adopt owner (discs.map NewDisc.name))
        (trackTable.adopt owner
          (tracks.map fun t => ⟨t.columns, discTable.next + t.discIndex.toNat⟩)) owner = 0 := by
  unfold straysOf
  rw [itemRows_adopt, items_adopt, hdisc, htrack, List.nil_append, List.nil_append]
  have hnone : (tracks.map fun t : NewTrack =>
        (⟨t.columns, discTable.next + t.discIndex.toNat⟩ : DiscTrack)).filter (fun t =>
      t.discId ∉ (numbered discTable.next (discs.map NewDisc.name)).map Row.id) = [] := by
    rw [List.filter_eq_nil_iff]
    intro t ht
    obtain ⟨track, htrack, rfl⟩ := List.mem_map.mp ht
    have hmem : discTable.next + track.discIndex.toNat ∈
        (numbered discTable.next (discs.map NewDisc.name)).map Row.id := by
      apply mem_numbered
      rw [List.length_map]
      exact hindex track htrack
    simpa using hmem
  rw [hnone]
  rfl

end Discs

section Specs

variable {db db' : Database} {data : NewRelease} {id historyId : ℤ} {c : Content}

def created (db : Database) (data : NewRelease) : Database :=
  let id := db.releases.release.next
  { db with releases := { db.releases with
    release := db.releases.release.insertAll [data.columns]
    artist := db.releases.artist.adopt id data.artists
    catalogNumber := db.releases.catalogNumber.adopt id data.catalogNums
    credit := db.releases.credit.adopt id data.credits
    event := db.releases.event.adopt id data.events
    localizedTitle := db.releases.localizedTitle.adopt id data.localizedTitles
    disc := db.releases.disc.adopt id (data.discs.map NewDisc.name)
    track := db.releases.track.adopt id (data.tracks.map fun t =>
      ⟨t.columns, db.releases.disc.next + t.discIndex.toNat⟩) } }

/-- What creation leaves, and the discs that tracks name. -/
theorem create_eq_some (h : create db data = some (db', id)) :
    id = db.releases.release.next ∧
      (∀ t ∈ data.tracks, t.discIndex.toNat < data.discs.length) ∧ db' = created db data := by
  simp only [create, Option.bind_eq_bind, Option.bind_eq_some_iff, Prod.exists] at h
  obtain ⟨release, i, hrelease, artist, hartist, number, hnumber, credit, hcredit, event, hevent,
    title, htitle, disc, discs, hdisc, track, htrack, heq⟩ := h
  obtain ⟨-, rfl, rfl⟩ := Table.insert_eq_some hrelease
  obtain ⟨-, rfl⟩ := createChildren_eq_some hartist
  obtain ⟨-, rfl⟩ := createChildren_eq_some hnumber
  obtain ⟨-, rfl⟩ := createChildren_eq_some hcredit
  obtain ⟨-, rfl⟩ := createChildren_eq_some hevent
  obtain ⟨-, rfl⟩ := createChildren_eq_some htitle
  obtain ⟨rfl, rfl⟩ := createDiscs_eq_some hdisc
  obtain ⟨hindex, rfl⟩ := createTracks_eq_some htrack
  obtain ⟨rfl, rfl⟩ := Prod.mk.inj (Option.some.inj heq)
  exact ⟨rfl, hindex, rfl⟩

/-- Creation stores the content of the input; the artists of its tracks are lost. -/
theorem live_create (hwf : Wf db) (h : create db data = some (db', id)) :
    live db' id = some (content data) := by
  obtain ⟨rfl, hindex, rfl⟩ := create_eq_some h
  have hfresh : hasRelease db db.releases.release.next = false := Table.has_next
  have hdiscs := items_eq_nil hwf.disc hfresh
  have htracks := items_eq_nil hwf.track hfresh
  have hartists : ∀ r ∈ numbered db.releases.track.next (data.tracks.map fun t =>
      (⟨t.columns, db.releases.disc.next + t.discIndex.toNat⟩ : DiscTrack)),
      db.releases.trackArtist.items r.id = [] := by
    intro r hr
    exact items_eq_nil hwf.trackArtist (Table.has_eq_false (numbered_bounds hr).1)
  simpa [live, created, content, Table.findById_insertAll_next, items_eq_nil hwf.artist hfresh,
    items_eq_nil hwf.catalogNumber hfresh, items_eq_nil hwf.credit hfresh,
    items_eq_nil hwf.event hfresh, items_eq_nil hwf.localizedTitle hfresh,
    discsOf_adopt (itemRows_eq_nil hdiscs) htracks,
    straysOf_adopt (itemRows_eq_nil hdiscs) htracks hindex, itemRows_eq_nil htracks]
    using hartists

/-- The tables after `create_release_history_with_relations`, and the discs that tracks name. -/
theorem createHistory_eq_some (h : createHistory db data = some (db', historyId)) :
    historyId = db.releases.history.next ∧
      (∀ t ∈ data.tracks, t.discIndex.toNat < data.discs.length) ∧
      db' = { db with releases := { db.releases with
        history := db.releases.history.insertAll [data.columns]
        artistHistory := db.releases.artistHistory.adopt historyId data.artists
        catalogNumberHistory := db.releases.catalogNumberHistory.adopt historyId data.catalogNums
        creditHistory := db.releases.creditHistory.adopt historyId data.credits
        eventHistory := db.releases.eventHistory.adopt historyId data.events
        localizedTitleHistory := db.releases.localizedTitleHistory.adopt historyId
          data.localizedTitles
        discHistory := db.releases.discHistory.adopt historyId (data.discs.map NewDisc.name)
        trackHistory := db.releases.trackHistory.adopt historyId (data.tracks.map fun t =>
          ⟨t.columns, db.releases.discHistory.next + t.discIndex.toNat⟩) } } := by
  simp only [createHistory, Option.bind_eq_bind, Option.bind_eq_some_iff, Prod.exists] at h
  obtain ⟨history, i, hhistory, artist, hartist, number, hnumber, credit, hcredit, event, hevent,
    title, htitle, disc, discs, hdisc, track, htrack, heq⟩ := h
  obtain ⟨-, rfl, rfl⟩ := Table.insert_eq_some hhistory
  obtain ⟨-, rfl⟩ := createChildren_eq_some hartist
  obtain ⟨-, rfl⟩ := createChildren_eq_some hnumber
  obtain ⟨-, rfl⟩ := createChildren_eq_some hcredit
  obtain ⟨-, rfl⟩ := createChildren_eq_some hevent
  obtain ⟨-, rfl⟩ := createChildren_eq_some htitle
  obtain ⟨rfl, rfl⟩ := createDiscs_eq_some hdisc
  obtain ⟨hindex, rfl⟩ := createTracks_eq_some htrack
  obtain ⟨rfl, rfl⟩ := Prod.mk.inj (Option.some.inj heq)
  exact ⟨rfl, hindex, rfl⟩

theorem stored_createHistory (hwf : Wf db) (h : createHistory db data = some (db', historyId)) :
    stored db' historyId = some (content data) := by
  obtain ⟨rfl, hindex, rfl⟩ := createHistory_eq_some h
  have hfresh : hasHistory db db.releases.history.next = false := Table.has_next
  have hdiscs := items_eq_nil hwf.discHistory hfresh
  have htracks := items_eq_nil hwf.trackHistory hfresh
  simp [stored, content, Table.findById_insertAll_next, items_eq_nil hwf.artistHistory hfresh,
    items_eq_nil hwf.catalogNumberHistory hfresh, items_eq_nil hwf.creditHistory hfresh,
    items_eq_nil hwf.eventHistory hfresh, items_eq_nil hwf.localizedTitleHistory hfresh,
    discsOf_adopt (itemRows_eq_nil hdiscs) htracks,
    straysOf_adopt (itemRows_eq_nil hdiscs) htracks hindex]

/-- What does not stand in the way of an approval: there are tracks to insert, the old ones have no
artists, and no other release has tracks on the old discs. -/
structure Approvable (db : Database) (id : ℤ) (c : Content) : Prop where
  tracks : ∃ p ∈ c.discs, p.2 ≠ 0
  trackArtists : ∀ r ∈ db.releases.track.itemRows id, db.releases.trackArtist.items r.id = []
  discs : ∀ r ∈ db.releases.disc.itemRows id, ∀ t ∈ db.releases.track.cols,
    t.owner ≠ id → t.item.discId ≠ r.id

theorem straysOf_eq_zero {discs : Table (Owned (Option String))} {tracks : Table (Owned DiscTrack)}
    {owner : ℤ} :
    straysOf discs tracks owner = 0 ↔
      ∀ t ∈ tracks.items owner, t.discId ∈ (discs.itemRows owner).map Row.id := by
  unfold straysOf
  rw [Multiset.coe_eq_zero, List.map_eq_nil_iff, List.filter_eq_nil_iff]
  simp

/-- A release has tracks on its discs if it has tracks at all. -/
theorem tracks_ne_nil {discs : Table (Owned (Option String))} {tracks : Table (Owned DiscTrack)}
    {owner : ℤ} (h : straysOf discs tracks owner = 0) :
    (∃ p ∈ discsOf discs tracks owner, p.2 ≠ 0) ↔ tracks.items owner ≠ [] := by
  constructor
  · rintro ⟨p, hp, hne⟩ hnil
    obtain ⟨q, hq, rfl⟩ := List.mem_map.mp hp
    obtain ⟨r, -, rfl⟩ := List.mem_map.mp hq
    simp [hnil] at hne
  · intro hne
    obtain ⟨t, ht⟩ := List.exists_mem_of_ne_nil _ hne
    obtain ⟨r, hr, hid⟩ := List.mem_map.mp (straysOf_eq_zero.mp h t ht)
    refine ⟨_, List.mem_map_of_mem (List.mem_map_of_mem hr), ?_⟩
    rw [Ne, Multiset.coe_eq_zero, List.map_eq_nil_iff, List.filter_eq_nil_iff]
    intro hall
    exact hall _ (List.mem_map_of_mem ht) (by simp [hid])

theorem deleteTracks_eq :
    deleteTracks db id =
      if ∀ r ∈ db.releases.track.itemRows id, db.releases.trackArtist.items r.id = [] then
        some (db.releases.track.disown id)
      else none := by
  unfold deleteTracks
  refine if_congr ?_ rfl rfl
  simp

theorem deleteDiscs_eq :
    deleteDiscs db (db.releases.track.disown id) id =
      if ∀ r ∈ db.releases.disc.itemRows id, ∀ t ∈ db.releases.track.cols,
          t.owner ≠ id → t.item.discId ≠ r.id then
        some (db.releases.disc.disown id)
      else none := by
  unfold deleteDiscs
  refine if_congr ?_ rfl rfl
  simp [Table.disown, or_iff_not_imp_left]

section Rekey

variable {discs discHistory : Table (Owned (Option String))}
  {tracks trackHistory : Table (Owned DiscTrack)}

/-- The tracks of a history, on the discs that were written anew. -/
def rekeyedTracks (n : ℤ) (discHistory : Table (Owned (Option String)))
    (trackHistory : Table (Owned DiscTrack)) (historyId : ℤ) : List DiscTrack :=
  (trackHistory.items historyId).map fun t =>
    ⟨t.track, n + ((discHistory.itemRows historyId).map Row.id).idxOf t.discId⟩

theorem discsOf_rekey :
    discsOf ((discs.disown id).adopt id (discHistory.items historyId))
        ((tracks.disown id).adopt id
          (rekeyedTracks discs.next discHistory trackHistory historyId)) id =
      discsOf discHistory trackHistory historyId := by
  have hchildren : (rekeyedTracks discs.next discHistory trackHistory historyId).map
        (fun t => (⟨t.discId, t.track⟩ : Owned Track)) =
      ((trackHistory.items historyId).map fun t => (⟨t.discId, t.track⟩ : Owned Track)).map
        fun c => ⟨discs.next + ((discHistory.itemRows historyId).map Row.id).idxOf c.owner,
          c.item⟩ := by
    simp [rekeyedTracks, Function.comp_def]
  unfold discsOf
  rw [itemRows_adopt, itemRows_disown, items_adopt, items_disown, List.nil_append, List.nil_append,
    hchildren, ← itemRows_cols]
  exact congrArg _ (congrArg _ (grouped_rekey itemRows_nodup))

theorem straysOf_rekey (h : straysOf discHistory trackHistory historyId = 0) :
    straysOf ((discs.disown id).adopt id (discHistory.items historyId))
        ((tracks.disown id).adopt id
          (rekeyedTracks discs.next discHistory trackHistory historyId)) id = 0 := by
  rw [straysOf_eq_zero] at h ⊢
  rw [itemRows_adopt, itemRows_disown, items_adopt, items_disown, List.nil_append, List.nil_append]
  intro t ht
  obtain ⟨q, hq, rfl⟩ := List.mem_map.mp ht
  apply mem_numbered
  rw [← itemRows_cols, List.length_map, ← List.length_map (f := Row.id)]
  exact List.idxOf_lt_length_of_mem (h q hq)

end Rekey

section Update

variable (db id historyId)

def newDiscs : List (Owned (Option String)) :=
  (db.releases.discHistory.itemRows historyId).map fun r => ⟨id, r.cols⟩

theorem insertAll_newDiscs : (db.releases.disc.disown id).insertAll (newDiscs db id historyId) =
    (db.releases.disc.disown id).adopt id (db.releases.discHistory.items historyId) := by
  rw [Table.adopt, ← itemRows_cols, List.map_map]
  rfl

variable {db id historyId}

theorem insertDiscs_eq (historyId : ℤ) (hid : hasRelease db id) :
    (db.releases.disc.disown id).insertManyReturning (discSchema db).constraints
        (newDiscs db id historyId) =
      if db.releases.discHistory.itemRows historyId ≠ [] then
        some ((db.releases.disc.disown id).adopt id (db.releases.discHistory.items historyId),
          numbered db.releases.disc.next (newDiscs db id historyId))
      else none := by
  have hcheck : ∀ c ∈ newDiscs db id historyId, (discSchema db).constraints.check c := by
    intro c hc
    obtain ⟨r, -, rfl⟩ := List.mem_map.mp hc
    exact ChildSchema.check_iff.mpr ⟨hid, rfl⟩
  rw [Table.insertManyReturning_eq fun _ _ => rfl, insertAll_newDiscs]
  by_cases hnil : db.releases.discHistory.itemRows historyId = []
  · simp [hnil, newDiscs]
  · rw [if_pos ⟨by simpa [newDiscs] using hnil, hcheck⟩, if_pos hnil]
    rfl

variable (hhistory : ∀ t ∈ db.releases.trackHistory.items historyId,
  t.discId ∈ (db.releases.discHistory.itemRows historyId).map Row.id)
include hhistory

/-- Every track goes to the new disc that stands where its own stood. -/
theorem mapM_newDiscs (id : ℤ) : (db.releases.trackHistory.items historyId).mapM (fun t =>
      (numbered db.releases.disc.next (newDiscs db id historyId))[
          ((db.releases.discHistory.itemRows historyId).map Row.id).idxOf t.discId]?.map fun disc =>
        (⟨id, ⟨t.track, disc.id⟩⟩ : Owned DiscTrack)) =
    some ((rekeyedTracks db.releases.disc.next db.releases.discHistory db.releases.trackHistory
      historyId).map (Owned.mk id)) := by
  rw [rekeyedTracks, List.map_map]
  apply mapM_eq_map
  intro t ht
  have hindex := List.idxOf_lt_length_of_mem (hhistory t ht)
  rw [List.length_map] at hindex
  simp [newDiscs, getElem?_numbered, List.getElem?_eq_getElem hindex]

theorem check_rekeyedTracks (hwf : Wf db) (hid : hasRelease db id) :
    ∀ c ∈ (rekeyedTracks db.releases.disc.next db.releases.discHistory db.releases.trackHistory
        historyId).map (Owned.mk id),
      (trackSchema db ((db.releases.disc.disown id).adopt id
        (db.releases.discHistory.items historyId))).constraints.check c := by
  intro c hc
  obtain ⟨q, hq, rfl⟩ := List.mem_map.mp hc
  obtain ⟨t, ht, rfl⟩ := List.mem_map.mp hq
  refine ChildSchema.check_iff.mpr ⟨hid, ?_⟩
  have hitem := (check_of_satisfies hwf.trackHistory ht).2
  have hlt := List.idxOf_lt_length_of_mem (hhistory t ht)
  rw [List.length_map, ← List.length_map (f := Row.cols), itemRows_cols,
    ← List.length_map (f := Owned.mk id)] at hlt
  have hdisc := has_insertAll_position (t := db.releases.disc.disown id) hlt
  simp only [trackHistorySchema, trackSchema, Bool.and_eq_true] at hitem ⊢
  exact ⟨hitem.1, hdisc⟩

/-- Where there are no discs there are no tracks. -/
theorem trackHistory_eq_nil (hnil : db.releases.discHistory.itemRows historyId = []) :
    db.releases.trackHistory.items historyId = [] := by
  apply List.eq_nil_iff_forall_not_mem.mpr
  intro t ht
  have hmem := hhistory t ht
  rw [hnil] at hmem
  cases hmem

end Update

/-- The discs and tracks of the history, under new identities. -/
theorem updateTracksAndDiscs_eq (hwf : Wf db) (hid : hasRelease db id)
    (hstrays : straysOf db.releases.discHistory db.releases.trackHistory historyId = 0)
    (hartists : ∀ r ∈ db.releases.track.itemRows id, db.releases.trackArtist.items r.id = [])
    (hdiscs : ∀ r ∈ db.releases.disc.itemRows id, ∀ t ∈ db.releases.track.cols,
      t.owner ≠ id → t.item.discId ≠ r.id) :
    updateTracksAndDiscs db id historyId =
      if db.releases.trackHistory.items historyId ≠ [] then
        some ((db.releases.disc.disown id).adopt id (db.releases.discHistory.items historyId),
          (db.releases.track.disown id).adopt id (rekeyedTracks db.releases.disc.next
            db.releases.discHistory db.releases.trackHistory historyId))
      else none := by
  have hhistory := straysOf_eq_zero.mp hstrays
  have hinsert := insertDiscs_eq historyId hid
  have hmodels := mapM_newDiscs hhistory id
  unfold newDiscs at hinsert hmodels
  unfold updateTracksAndDiscs
  rw [deleteTracks_eq, if_pos hartists]
  simp only [Option.bind_eq_bind, Option.bind_some]
  rw [deleteDiscs_eq, if_pos hdiscs]
  simp only [Option.bind_some, hinsert]
  -- without discs the insertion is an error, and so it is without tracks
  by_cases hnil : db.releases.discHistory.itemRows historyId = []
  · simp [hnil, trackHistory_eq_nil hhistory hnil]
  · rw [if_pos hnil]
    simp only [Option.bind_some, hmodels]
    rw [Table.insertMany_eq fun _ _ => rfl]
    by_cases htracks : db.releases.trackHistory.items historyId = []
    · simp [htracks, rekeyedTracks]
    · have hne : (rekeyedTracks db.releases.disc.next db.releases.discHistory
          db.releases.trackHistory historyId).map (Owned.mk id) ≠ [] := by
        simpa [rekeyedTracks] using htracks
      rw [if_pos ⟨hne, check_rekeyedTracks hhistory hwf hid⟩, if_pos htracks, Table.adopt]
      rfl

variable {revisions : List CorrectionRevision} {correction : Correction}
  {revision : CorrectionRevision} {history : Release}

/-- Only the discs and tracks of an approval can fail. -/
theorem applyUpdate_eq (hwf : Wf db)
    (hnewest : findRevision revisions correction.id = some revision)
    (hid : hasRelease db correction.entityId)
    (hhistory : db.releases.history.findById revision.entityHistoryId = some history) :
    applyUpdate db revisions correction =
      (updateTracksAndDiscs db correction.entityId revision.entityHistoryId).map fun p =>
        { db with releases := { db.releases with
          release := db.releases.release.set correction.entityId history
          artist := (db.releases.artist.disown correction.entityId).adopt correction.entityId
            (db.releases.artistHistory.items revision.entityHistoryId)
          catalogNumber := (db.releases.catalogNumber.disown correction.entityId).adopt
            correction.entityId (db.releases.catalogNumberHistory.items revision.entityHistoryId)
          credit := (db.releases.credit.disown correction.entityId).adopt correction.entityId
            (db.releases.creditHistory.items revision.entityHistoryId)
          event := (db.releases.event.disown correction.entityId).adopt correction.entityId
            (db.releases.eventHistory.items revision.entityHistoryId)
          localizedTitle := (db.releases.localizedTitle.disown correction.entityId).adopt
            correction.entityId (db.releases.localizedTitleHistory.items revision.entityHistoryId)
          disc := p.1
          track := p.2 } } := by
  have hupdate : db.releases.release.updateById .free correction.entityId history =
      some (db.releases.release.set correction.entityId history) := Table.updateById_free hid
  have hartist := updateChildren_eq_some revision.entityHistoryId hwf.artist hwf.artistHistory
    (fun hu => hu) hid (fun _ hi => hi)
  have hnumber := updateChildren_eq_some revision.entityHistoryId hwf.catalogNumber
    hwf.catalogNumberHistory (fun hu => hu) hid (fun _ hi => hi)
  have hcredit := updateChildren_eq_some revision.entityHistoryId hwf.credit hwf.creditHistory
    (fun hu => hu) hid (fun _ hi => hi)
  have hevent := updateChildren_eq_some revision.entityHistoryId hwf.event hwf.eventHistory
    (fun hu => hu) hid (fun _ hi => hi)
  have htitle := updateChildren_eq_some revision.entityHistoryId hwf.localizedTitle
    hwf.localizedTitleHistory (fun hu => hu) hid (fun _ hi => hi)
  unfold applyUpdate applyHistory
  simp only [revisedHistory_eq hnewest, hhistory, Option.map_some, hupdate, hartist, hnumber,
    hcredit, hevent, htitle, Option.bind_eq_bind, Option.bind_some]
  cases updateTracksAndDiscs db correction.entityId revision.entityHistoryId <;> rfl

/-- An approval gives the release the content of the history. -/
theorem live_applyUpdate (hwf : Wf db)
    (hnewest : findRevision revisions correction.id = some revision)
    (hid : hasRelease db correction.entityId)
    (hc : stored db revision.entityHistoryId = some c) (hstrays : c.strays = 0)
    (h : Approvable db correction.entityId c) :
    ∃ db', applyUpdate db revisions correction = some db' ∧
      live db' correction.entityId = some c := by
  obtain ⟨history, hhistory, rfl⟩ := Option.map_eq_some_iff.mp hc
  have htracks := (tracks_ne_nil hstrays).mp h.tracks
  rw [applyUpdate_eq hwf hnewest hid hhistory,
    updateTracksAndDiscs_eq hwf hid hstrays h.trackArtists h.discs, if_pos htracks]
  refine ⟨_, rfl, ?_⟩
  have hstrays' : straysOf db.releases.discHistory db.releases.trackHistory
    revision.entityHistoryId = 0 := hstrays
  have hartists : ∀ r ∈ numbered db.releases.track.next (rekeyedTracks db.releases.disc.next
      db.releases.discHistory db.releases.trackHistory revision.entityHistoryId),
      db.releases.trackArtist.items r.id = [] := by
    intro r hr
    exact items_eq_nil hwf.trackArtist (Table.has_eq_false (numbered_bounds hr).1)
  simpa [live, Table.findById_set hid, discsOf_rekey, straysOf_rekey hstrays', hstrays']
    using hartists

theorem applyUpdate_eq_none (hwf : Wf db)
    (hnewest : findRevision revisions correction.id = some revision)
    (hid : hasRelease db correction.entityId)
    (hc : stored db revision.entityHistoryId = some c) (hstrays : c.strays = 0)
    (h : ¬Approvable db correction.entityId c) : applyUpdate db revisions correction = none := by
  obtain ⟨history, hhistory, rfl⟩ := Option.map_eq_some_iff.mp hc
  rw [applyUpdate_eq hwf hnewest hid hhistory, Option.map_eq_none_iff]
  by_cases hartists : ∀ r ∈ db.releases.track.itemRows correction.entityId,
      db.releases.trackArtist.items r.id = []
  · by_cases hdiscs : ∀ r ∈ db.releases.disc.itemRows correction.entityId,
        ∀ t ∈ db.releases.track.cols, t.owner ≠ correction.entityId → t.item.discId ≠ r.id
    · rw [updateTracksAndDiscs_eq hwf hid hstrays hartists hdiscs]
      refine if_neg fun htracks => h ⟨?_, hartists, hdiscs⟩
      exact (tracks_ne_nil hstrays).mpr htracks
    · unfold updateTracksAndDiscs
      rw [deleteTracks_eq, if_pos hartists]
      simp only [Option.bind_eq_bind, Option.bind_some]
      rw [deleteDiscs_eq, if_neg hdiscs]
      rfl
  · unfold updateTracksAndDiscs
    rw [deleteTracks_eq, if_neg hartists]
    rfl

end Specs

end Release

end Thcdb.Catalog
