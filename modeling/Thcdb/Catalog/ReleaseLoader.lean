import Thcdb.Catalog.ArtistPage
import Thcdb.Catalog.Release
import Thcdb.Relational.Join

namespace Thcdb.Catalog.Release
open Relational

structure ReleaseArtist where
  id : ℤ
  name : String
  deriving DecidableEq, Repr

structure SimpleLabel where
  id : ℤ
  name : String
  deriving DecidableEq, Repr

structure SimpleEvent where
  id : ℤ
  name : String
  deriving DecidableEq, Repr

structure SongRef where
  id : ℤ
  title : String
  deriving DecidableEq, Repr

structure LoadedCatalogNumber where
  catalogNumber : String
  label : Option SimpleLabel
  deriving DecidableEq, Repr

structure LoadedTitle where
  language : Row Language
  title : String
  deriving DecidableEq, Repr

structure LoadedCredit where
  artist : ReleaseArtist
  role : CreditRoleRef
  on : Option (List ℤ)
  deriving DecidableEq, Repr

structure ReleaseDisc where
  id : ℤ
  name : Option String
  deriving DecidableEq, Repr

structure ReleaseTrack where
  id : ℤ
  trackNumber : Option String
  discId : ℤ
  displayTitle : Option String
  duration : Option ℤ
  song : SongRef
  artists : List ReleaseArtist
  deriving DecidableEq, Repr

structure Loaded where
  id : ℤ
  title : String
  releaseType : ReleaseType
  releaseDate : Option DateWithPrecision
  recordingDateStart : Option DateWithPrecision
  recordingDateEnd : Option DateWithPrecision
  artists : List ReleaseArtist
  catalogNums : List LoadedCatalogNumber
  localizedTitles : List LoadedTitle
  discs : List ReleaseDisc
  tracks : List ReleaseTrack
  credits : List LoadedCredit
  events : List SimpleEvent
  deriving DecidableEq, Repr

def fromOption (value : Option NaiveDate) (precision : DatePrecision) : Option DateWithPrecision :=
  value.map fun value => ⟨value, precision⟩

section Queries
variable {C : Type}

def rowsIn (t : Table C) (ids : List ℤ) : List (Row C) := t.rows.filter fun r => r.id ∈ ids

/-- `load_one`, for models that refer to a row -/
def loadOne (t : Table C) (ids : List ℤ) : List (Option (Row C)) :=
  ids.map fun id => (t.findById id).map (Row.mk id)

/-- `load_many`, for the models with these identities -/
def loadMany (t : Table (Owned C)) (ids : List ℤ) : List (List (Row C)) := ids.map t.itemRows

/-- `load_many_to_many`; links to rows that are not there are passed over. -/
def loadManyToMany (t : Table C) (via : Table (Owned ℤ)) (ids : List ℤ) : List (List (Row C)) :=
  ids.map fun id => (via.items id).filterMap fun other => (t.findById other).map (Row.mk other)

end Queries

/-- A slice of a vector; out of its range, a panic. -/
def sliceOf {α : Type} (xs : List α) (start len : ℕ) : Option (List α) :=
  if start + len ≤ xs.length then some ((xs.drop start).take len) else none

structure TrackDetails where
  songs : List (Row Song)
  artists : List (Row Artist)
  artistIds : List (List (List ℤ))

/-- The artists of the tracks of all releases, cut into those of each release. -/
def cutArtistIds (artistIdsPerTrack : List (List ℤ)) (tracksLens : List ℕ) :
    Option (List (List (List ℤ))) :=
  tracksLens.zipIdx.mapM fun p =>
    if artistIdsPerTrack.isEmpty then some [] else sliceOf artistIdsPerTrack p.2 p.1

/-- What is loaded beside the releases, in lists that follow theirs or in one for all. -/
structure RelatedEntities where
  artists : List (List (Row Artist))
  catalogNumbers : List (List (Row CatalogNumber))
  localizedTitles : List (List (Row LocalizedTitle))
  languages : List (Row Language)
  discs : List (List (Row (Option String)))
  tracks : List (List (Row DiscTrack))
  trackSongs : List (Row Song)
  trackArtists : List (Row Artist)
  trackArtistIds : List (List (List ℤ))
  credits : List (List (Row ReleaseCredit))
  creditArtists : List (Row Artist)
  creditRoles : List (Row CreditRole)
  events : List (List (Row Event))
  labels : List (Row Label)

section Loading
variable (db : Database)

def loadCreditDetails (credits : List (List (Row ReleaseCredit)))
    (artists : List (List (Row Artist))) : List (Row Artist) × List (Row CreditRole) :=
  let flattenCredits := credits.flatten
  let uniqueArtists := firsts (flattenCredits.map fun c => c.cols.artistId)
  let releaseArtistIds := artists.flatten.map Row.id
  let creditArtists := (loadOne db.artists.artist uniqueArtists).filterMap fun artist =>
    artist.filter fun artist => artist.id ∉ releaseArtistIds
  (creditArtists ++ artists.flatten,
    (loadOne db.creditRoles.creditRole (flattenCredits.map fun c => c.cols.roleId)).filterMap id)

def loadTrackDetails (tracks : List (List (Row DiscTrack))) : Option TrackDetails := do
  let flattenTracks := tracks.flatten
  let songs := rowsIn db.songs.song (flattenTracks.map fun t => t.cols.track.songId)
  let artistsPerTrack := loadManyToMany db.artists.artist db.releases.trackArtist
    (flattenTracks.map Row.id)
  let artists := firsts artistsPerTrack.flatten
  let artistIdsPerTrack := artistsPerTrack.map fun artists => artists.map Row.id
  let tracksLens := tracks.map List.length
  guard (artistIdsPerTrack.length = tracksLens.sum)
  let artistIds ← cutArtistIds artistIdsPerTrack tracksLens
  return { songs := songs, artists := artists, artistIds := artistIds }

def RelatedEntities.load (releases : List (Row Release)) : Option RelatedEntities := do
  let ids := releases.map Row.id
  let artists := loadManyToMany db.artists.artist db.releases.artist ids
  let catalogNumbers := loadMany db.releases.catalogNumber ids
  let tracks := loadMany db.releases.track ids
  let credits := loadMany db.releases.credit ids
  let (creditArtists, creditRoles) := loadCreditDetails db credits artists
  let details ← loadTrackDetails db tracks
  return {
    artists := artists
    catalogNumbers := catalogNumbers
    localizedTitles := loadMany db.releases.localizedTitle ids
    languages := db.languages.rows
    discs := loadMany db.releases.disc ids
    tracks := tracks
    trackSongs := details.songs
    trackArtists := details.artists
    trackArtistIds := details.artistIds
    credits := credits
    creditArtists := creditArtists
    creditRoles := creditRoles
    events := loadManyToMany db.events.event db.releases.event ids
    labels := rowsIn db.labels.label
      (catalogNumbers.flatten.filterMap fun number => number.cols.labelId) }

end Loading

section Conversion

def convArtists (artists : List (Row Artist)) : List ReleaseArtist :=
  artists.map fun artist => ⟨artist.id, artist.cols.name⟩

def convCatalogNumbers (catalogNums : List (Row CatalogNumber)) (labels : List (Row Label)) :
    List LoadedCatalogNumber :=
  catalogNums.map fun number =>
    { catalogNumber := number.cols.catalogNumber
      label := (number.cols.labelId.bind fun id => labels.find? (·.id = id)).map fun label =>
        ⟨label.id, label.cols.name⟩ }

def convLocalizedTitles (titles : List (Row LocalizedTitle)) (languages : List (Row Language)) :
    Option (List LoadedTitle) :=
  titles.mapM fun title =>
    (languages.find? (·.id = title.cols.languageId)).map fun language => ⟨language, title.cols.title⟩

def convCredits (credits : List (Row ReleaseCredit)) (creditArtists : List (Row Artist))
    (creditRoles : List (Row CreditRole)) : Option (List LoadedCredit) :=
  credits.mapM fun credit => do
    let artist ← creditArtists.find? (·.id = credit.cols.artistId)
    let role ← creditRoles.find? (·.id = credit.cols.roleId)
    return ⟨⟨artist.id, artist.cols.name⟩, ⟨role.id, role.cols.name⟩, credit.cols.on⟩

/-- Tracks without a list of artists are left out. -/
def convTracks (tracks : List (Row DiscTrack)) (songs : List (Row Song))
    (allTrackArtists : List (Row Artist)) (trackArtistIdsMapping : List (List ℤ)) :
    Option (List ReleaseTrack) :=
  (tracks.zip trackArtistIdsMapping).mapM fun (track, artistIds) => do
    let song ← songs.find? (·.id = track.cols.track.songId)
    let artists ← artistIds.mapM fun artistId =>
      (allTrackArtists.find? (·.id = artistId)).map fun artist =>
        (⟨artist.id, artist.cols.name⟩ : ReleaseArtist)
    return {
      id := track.id
      trackNumber := track.cols.track.trackNumber
      discId := track.cols.discId
      displayTitle := track.cols.track.displayTitle
      duration := track.cols.track.duration
      song := ⟨song.id, song.cols.title⟩
      artists := artists }

def convDiscs (discs : List (Row (Option String))) : List ReleaseDisc :=
  discs.map fun disc => ⟨disc.id, disc.cols⟩

def convEvents (events : List (Row Event)) : List SimpleEvent :=
  events.map fun event => ⟨event.id, event.cols.name⟩

/-- Without the release's own entry in a list, the empty list. -/
def convToDomainModel (release : Row Release) (related : RelatedEntities) (index : ℕ) :
    Option Loaded := do
  let localizedTitles ← convLocalizedTitles (related.localizedTitles[index]?.getD [])
    related.languages
  let tracks ← convTracks (related.tracks[index]?.getD []) related.trackSongs
    related.trackArtists (related.trackArtistIds[index]?.getD [])
  let credits ← convCredits (related.credits[index]?.getD []) related.creditArtists
    related.creditRoles
  return {
    id := release.id
    title := release.cols.title
    releaseType := release.cols.releaseType
    releaseDate := fromOption release.cols.releaseDate release.cols.releaseDatePrecision
    recordingDateStart := fromOption release.cols.recordingDateStart
      release.cols.recordingDateStartPrecision
    recordingDateEnd := fromOption release.cols.recordingDateEnd
      release.cols.recordingDateEndPrecision
    artists := convArtists (related.artists[index]?.getD [])
    catalogNums := convCatalogNumbers (related.catalogNumbers[index]?.getD []) related.labels
    localizedTitles := localizedTitles
    discs := convDiscs (related.discs[index]?.getD [])
    tracks := tracks
    credits := credits
    events := convEvents (related.events[index]?.getD []) }

end Conversion

/-- The releases of a query; a panic is `none`. -/
def findManyImpl (db : Database) (releases : List (Row Release)) : Option (List Loaded) := do
  let related ← RelatedEntities.load db releases
  releases.zipIdx.mapM fun p => convToDomainModel p.1 related p.2

section Assembled
variable (db : Database)

def artistRef (id : ℤ) : ReleaseArtist :=
  ⟨id, ((db.artists.artist.findById id).map Artist.name).getD ""⟩

def labelRef (id : ℤ) : SimpleLabel := ⟨id, ((db.labels.label.findById id).map Label.name).getD ""⟩

def eventRef (id : ℤ) : SimpleEvent := ⟨id, ((db.events.event.findById id).map Event.name).getD ""⟩

def songRef (id : ℤ) : SongRef := ⟨id, ((db.songs.song.findById id).map Song.title).getD ""⟩

def roleRef (id : ℤ) : CreditRoleRef :=
  ⟨id, ((db.creditRoles.creditRole.findById id).map CreditRole.name).getD ""⟩

def languageRef (id : ℤ) : Row Language := ⟨id, (db.languages.findById id).getD ⟨"", ""⟩⟩

def trackOf (t : Row DiscTrack) (artistIds : List ℤ) : ReleaseTrack where
  id := t.id
  trackNumber := t.cols.track.trackNumber
  discId := t.cols.discId
  displayTitle := t.cols.track.displayTitle
  duration := t.cols.track.duration
  song := songRef db t.cols.track.songId
  artists := artistIds.map (artistRef db)

def assemble (r : Row Release) (artistIds : List (List ℤ)) : Loaded where
  id := r.id
  title := r.cols.title
  releaseType := r.cols.releaseType
  releaseDate := fromOption r.cols.releaseDate r.cols.releaseDatePrecision
  recordingDateStart := fromOption r.cols.recordingDateStart r.cols.recordingDateStartPrecision
  recordingDateEnd := fromOption r.cols.recordingDateEnd r.cols.recordingDateEndPrecision
  artists := (db.releases.artist.items r.id).map (artistRef db)
  catalogNums := (db.releases.catalogNumber.items r.id).map fun number =>
    ⟨number.catalogNumber, number.labelId.map (labelRef db)⟩
  localizedTitles := (db.releases.localizedTitle.items r.id).map fun title =>
    ⟨languageRef db title.languageId, title.title⟩
  discs := (db.releases.disc.itemRows r.id).map fun disc => ⟨disc.id, disc.cols⟩
  tracks := ((db.releases.track.itemRows r.id).zip artistIds).map fun p => trackOf db p.1 p.2
  credits := (db.releases.credit.items r.id).map fun credit =>
    ⟨artistRef db credit.artistId, roleRef db credit.roleId, credit.on⟩
  events := (db.releases.event.items r.id).map (eventRef db)

def allArtistIds (releases : List (Row Release)) : List (List ℤ) :=
  releases.flatMap fun r => (db.releases.track.itemRows r.id).map fun t =>
    db.releases.trackArtist.items t.id

def tracksLens (releases : List (Row Release)) : List ℕ :=
  releases.map fun r => (db.releases.track.itemRows r.id).length

end Assembled

section Lookups
variable {C : Type} {t : Table C} {l : List (Row C)} {id : ℤ} {c : C}

/-- Among rows of one table, an identity finds its row. -/
theorem find?_rows (hsub : ∀ r ∈ l, r ∈ t.rows) (hmem : ⟨id, c⟩ ∈ l) :
    l.find? (·.id = id) = some ⟨id, c⟩ := by
  cases hfind : l.find? (·.id = id) with
  | none =>
    have hnot := List.find?_eq_none.mp hfind _ hmem
    simp at hnot
  | some r =>
    have hr := List.mem_of_find?_eq_some hfind
    have hid : r.id = id := by simpa using List.find?_some hfind
    rw [Table.eq_of_id (hsub r hr) (hsub _ hmem) hid]

theorem mem_rows_of_findById (h : t.findById id = some c) : (⟨id, c⟩ : Row C) ∈ t.rows :=
  Table.findById_eq_some.mp h

theorem find?_rowsIn {ids : List ℤ} (hid : id ∈ ids) (h : t.findById id = some c) :
    (rowsIn t ids).find? (·.id = id) = some ⟨id, c⟩ := by
  refine find?_rows (t := t) (fun r hr => (List.mem_filter.mp hr).1) ?_
  exact List.mem_filter.mpr ⟨mem_rows_of_findById h, by simpa using hid⟩

theorem map_filterMap_eq {α β γ : Type} {xs : List α} {f : α → Option β} {h : β → γ} {g : α → γ}
    (hfound : ∀ x ∈ xs, (f x).map h = some (g x)) : (xs.filterMap f).map h = xs.map g := by
  induction xs with
  | nil => rfl
  | cons x xs ih =>
    obtain ⟨hx, hxs⟩ := List.forall_mem_cons.mp hfound
    obtain ⟨y, hy, hgy⟩ := Option.map_eq_some_iff.mp hx
    rw [List.filterMap_cons_some hy, List.map_cons, hgy, ih hxs, List.map_cons]

/-- Where every link leads to a row, the rows of the links are those of the identities. -/
theorem map_loadManyToMany {β : Type} {via : Table (Owned ℤ)} {ids : List ℤ} (h : Row C → β)
    (g : ℤ → β) (hfound : ∀ id ∈ ids, ∀ other ∈ via.items id,
      ((t.findById other).map (Row.mk other)).map h = some (g other)) :
    (loadManyToMany t via ids).map (List.map h) = ids.map fun id => (via.items id).map g := by
  rw [loadManyToMany, List.map_map]
  exact List.map_congr_left fun id hid => map_filterMap_eq (hfound id hid)

theorem mem_rows_of_mem_loadManyToMany {via : Table (Owned ℤ)} {ids : List ℤ} {r : Row C}
    (h : r ∈ (loadManyToMany t via ids).flatten) : r ∈ t.rows := by
  obtain ⟨rows, hrows, hr⟩ := List.mem_flatten.mp h
  obtain ⟨id, _, rfl⟩ := List.mem_map.mp hrows
  obtain ⟨other, _, hother⟩ := List.mem_filterMap.mp hr
  obtain ⟨c, hc, rfl⟩ := Option.map_eq_some_iff.mp hother
  exact mem_rows_of_findById hc

theorem getD_map_ids {β : Type} {releases : List (Row Release)} {f : ℤ → List β} {i : ℕ}
    {r : Row Release} (h : releases[i]? = some r) :
    ((releases.map Row.id).map f)[i]?.getD [] = f r.id := by
  simp [h]

end Lookups

section Consistent
variable {db : Database} {releases : List (Row Release)} {r : Row Release} {i : ℕ}

/-- Every row of a release refers to rows that are there. -/
theorem Wf.foundTrackArtist (hwf : Wf db) {trackId id : ℤ}
    (h : id ∈ db.releases.trackArtist.items trackId) :
    ∃ artist, db.artists.artist.findById id = some artist :=
  Table.has_iff_findById.mp (check_of_satisfies hwf.trackArtist h).2

theorem Wf.foundArtist (hwf : Wf db) {releaseId id : ℤ}
    (h : id ∈ db.releases.artist.items releaseId) :
    ∃ artist, db.artists.artist.findById id = some artist :=
  Table.has_iff_findById.mp (check_of_satisfies hwf.artist h).2

theorem Wf.foundEvent (hwf : Wf db) {releaseId id : ℤ}
    (h : id ∈ db.releases.event.items releaseId) :
    ∃ event, db.events.event.findById id = some event :=
  Table.has_iff_findById.mp (check_of_satisfies hwf.event h).2

theorem Wf.foundLanguage (hwf : Wf db) {releaseId : ℤ} {title : LocalizedTitle}
    (h : title ∈ db.releases.localizedTitle.items releaseId) :
    ∃ language, db.languages.findById title.languageId = some language :=
  Table.has_iff_findById.mp (check_of_satisfies hwf.localizedTitle h).2

theorem Wf.foundCredit (hwf : Wf db) {releaseId : ℤ} {credit : ReleaseCredit}
    (h : credit ∈ db.releases.credit.items releaseId) :
    (∃ artist, db.artists.artist.findById credit.artistId = some artist) ∧
      ∃ role, db.creditRoles.creditRole.findById credit.roleId = some role := by
  have hitem := (check_of_satisfies hwf.credit h).2
  rw [creditSchema, Bool.and_eq_true] at hitem
  exact ⟨Table.has_iff_findById.mp hitem.1, Table.has_iff_findById.mp hitem.2⟩

theorem Wf.foundSong (hwf : Wf db) {releaseId : ℤ} {t : DiscTrack}
    (h : t ∈ db.releases.track.items releaseId) :
    ∃ song, db.songs.song.findById t.track.songId = some song := by
  have hitem := (check_of_satisfies hwf.track h).2
  rw [trackSchema, Bool.and_eq_true] at hitem
  exact Table.has_iff_findById.mp hitem.1

theorem Wf.foundLabel (hwf : Wf db) {releaseId id : ℤ} {number : CatalogNumber}
    (h : number ∈ db.releases.catalogNumber.items releaseId) (hlabel : number.labelId = some id) :
    ∃ label, db.labels.label.findById id = some label := by
  have hitem : number.labelId.all db.hasLabel := (check_of_satisfies hwf.catalogNumber h).2
  rw [hlabel] at hitem
  exact Table.has_iff_findById.mp hitem

theorem cols_mem_items {I : Type} {t : Table (Owned I)} {owner : ℤ} {row : Row I}
    (h : row ∈ t.itemRows owner) : row.cols ∈ t.items owner := by
  rw [← itemRows_cols]
  exact List.mem_map_of_mem h

/-- The artists of the tracks are those of the links. -/
theorem artistIdsPerTrack_eq (hwf : Wf db) :
    (loadManyToMany db.artists.artist db.releases.trackArtist
      ((loadMany db.releases.track (releases.map Row.id)).flatten.map Row.id)).map
        (fun artists => artists.map Row.id) = allArtistIds db releases := by
  rw [map_loadManyToMany Row.id id]
  · simp [allArtistIds, loadMany, List.flatMap_def, Function.comp_def, List.map_flatten]
  · intro trackId _ other hother
    obtain ⟨artist, hartist⟩ := hwf.foundTrackArtist hother
    simp [hartist]

theorem convArtists_eq (hwf : Wf db) (hr : releases[i]? = some r) :
    convArtists (((loadManyToMany db.artists.artist db.releases.artist
      (releases.map Row.id)))[i]?.getD []) =
        (db.releases.artist.items r.id).map (artistRef db) := by
  rw [loadManyToMany, getD_map_ids hr, convArtists]
  refine map_filterMap_eq fun id hid => ?_
  obtain ⟨artist, hartist⟩ := hwf.foundArtist hid
  simp [artistRef, hartist]

theorem convEvents_eq (hwf : Wf db) (hr : releases[i]? = some r) :
    convEvents (((loadManyToMany db.events.event db.releases.event
      (releases.map Row.id)))[i]?.getD []) = (db.releases.event.items r.id).map (eventRef db) := by
  rw [loadManyToMany, getD_map_ids hr, convEvents]
  refine map_filterMap_eq fun id hid => ?_
  obtain ⟨event, hevent⟩ := hwf.foundEvent hid
  simp [eventRef, hevent]

/-- A row of a release is among those that are loaded for all releases. -/
theorem mem_flatten_loadMany {I : Type} {t : Table (Owned I)} {row : Row I}
    (hr : releases[i]? = some r) (hrow : row ∈ t.itemRows r.id) :
    row ∈ (loadMany t (releases.map Row.id)).flatten := by
  refine List.mem_flatten.mpr ⟨t.itemRows r.id, ?_, hrow⟩
  exact List.mem_map.mpr ⟨r.id, List.mem_map_of_mem (List.mem_of_getElem? hr), rfl⟩

theorem map_itemRows {I β : Type} {t : Table (Owned I)} {owner : ℤ} {f : I → β} :
    (t.itemRows owner).map (fun row => f row.cols) = (t.items owner).map f := by
  rw [← itemRows_cols, List.map_map]
  rfl

theorem convCatalogNumbers_eq (hwf : Wf db) (hr : releases[i]? = some r) :
    convCatalogNumbers ((loadMany db.releases.catalogNumber (releases.map Row.id))[i]?.getD [])
      (rowsIn db.labels.label ((loadMany db.releases.catalogNumber
        (releases.map Row.id)).flatten.filterMap fun number => number.cols.labelId)) =
      (db.releases.catalogNumber.items r.id).map fun number =>
        ⟨number.catalogNumber, number.labelId.map (labelRef db)⟩ := by
  rw [convCatalogNumbers, ← map_itemRows]
  conv_lhs => rw [loadMany, getD_map_ids hr, ← loadMany]
  refine List.map_congr_left fun number hnumber => ?_
  cases hlabel : number.cols.labelId with
  | none => rfl
  | some id =>
    obtain ⟨label, hfound⟩ := hwf.foundLabel (cols_mem_items hnumber) hlabel
    have hid : id ∈ (loadMany db.releases.catalogNumber (releases.map Row.id)).flatten.filterMap
        fun number => number.cols.labelId :=
      List.mem_filterMap.mpr ⟨number, mem_flatten_loadMany hr hnumber, hlabel⟩
    rw [Option.bind_some, find?_rowsIn hid hfound]
    simp [labelRef, hfound]

theorem convLocalizedTitles_eq (hwf : Wf db) (hr : releases[i]? = some r) :
    convLocalizedTitles ((loadMany db.releases.localizedTitle (releases.map Row.id))[i]?.getD [])
      db.languages.rows = some ((db.releases.localizedTitle.items r.id).map fun title =>
        ⟨languageRef db title.languageId, title.title⟩) := by
  rw [convLocalizedTitles, loadMany, getD_map_ids hr, ← map_itemRows]
  refine mapM_eq_map fun title htitle => ?_
  obtain ⟨language, hlanguage⟩ := hwf.foundLanguage (cols_mem_items htitle)
  rw [find?_rows (fun _ h => h) (mem_rows_of_findById hlanguage)]
  simp [languageRef, hlanguage]

/-- The artist of a credit is among those of the releases, or is loaded beside them. -/
theorem find?_creditArtists (hr : releases[i]? = some r) {credit : Row ReleaseCredit}
    (hcredit : credit ∈ db.releases.credit.itemRows r.id) {artist : Artist}
    (hartist : db.artists.artist.findById credit.cols.artistId = some artist) :
    (loadCreditDetails db (loadMany db.releases.credit (releases.map Row.id))
      (loadManyToMany db.artists.artist db.releases.artist (releases.map Row.id))).1.find?
        (·.id = credit.cols.artistId) = some ⟨credit.cols.artistId, artist⟩ := by
  have hmem := mem_rows_of_findById hartist
  refine find?_rows (t := db.artists.artist) ?_ ?_
  · intro row hrow
    rcases List.mem_append.mp hrow with hrow | hrow
    · obtain ⟨found, hfound, hkept⟩ := List.mem_filterMap.mp hrow
      obtain ⟨id, _, rfl⟩ := List.mem_map.mp hfound
      obtain ⟨hsome, _⟩ := Option.filter_eq_some_iff.mp hkept
      obtain ⟨c, hc, rfl⟩ := Option.map_eq_some_iff.mp hsome
      exact mem_rows_of_findById hc
    · exact mem_rows_of_mem_loadManyToMany hrow
  · by_cases hreleased : credit.cols.artistId ∈ (loadManyToMany db.artists.artist
        db.releases.artist (releases.map Row.id)).flatten.map Row.id
    · obtain ⟨row, hrow, hid⟩ := List.mem_map.mp hreleased
      have heq : row = ⟨credit.cols.artistId, artist⟩ :=
        Table.eq_of_id (mem_rows_of_mem_loadManyToMany hrow) hmem hid
      exact List.mem_append_right _ (heq ▸ hrow)
    · refine List.mem_append_left _ (List.mem_filterMap.mpr ⟨_, List.mem_map.mpr
        ⟨credit.cols.artistId, ?_, rfl⟩, ?_⟩)
      · rw [mem_firsts]
        exact List.mem_map_of_mem (mem_flatten_loadMany hr hcredit)
      · rw [hartist]
        simpa [Option.filter] using hreleased

theorem find?_creditRoles (hr : releases[i]? = some r) {credit : Row ReleaseCredit}
    (hcredit : credit ∈ db.releases.credit.itemRows r.id) {role : CreditRole}
    (hrole : db.creditRoles.creditRole.findById credit.cols.roleId = some role) :
    (loadCreditDetails db (loadMany db.releases.credit (releases.map Row.id))
      (loadManyToMany db.artists.artist db.releases.artist (releases.map Row.id))).2.find?
        (·.id = credit.cols.roleId) = some ⟨credit.cols.roleId, role⟩ := by
  refine find?_rows (t := db.creditRoles.creditRole) ?_ ?_
  · intro row hrow
    obtain ⟨found, hfound, hid⟩ := List.mem_filterMap.mp hrow
    obtain ⟨id, _, rfl⟩ := List.mem_map.mp hfound
    obtain ⟨c, hc, rfl⟩ := Option.map_eq_some_iff.mp hid
    exact mem_rows_of_findById hc
  · refine List.mem_filterMap.mpr ⟨_, List.mem_map.mpr ⟨credit.cols.roleId, ?_, rfl⟩, ?_⟩
    · exact List.mem_map_of_mem (mem_flatten_loadMany hr hcredit)
    · rw [hrole]
      rfl

theorem convCredits_eq (hwf : Wf db) (hr : releases[i]? = some r) :
    convCredits ((loadMany db.releases.credit (releases.map Row.id))[i]?.getD [])
      (loadCreditDetails db (loadMany db.releases.credit (releases.map Row.id))
        (loadManyToMany db.artists.artist db.releases.artist (releases.map Row.id))).1
      (loadCreditDetails db (loadMany db.releases.credit (releases.map Row.id))
        (loadManyToMany db.artists.artist db.releases.artist (releases.map Row.id))).2 =
      some ((db.releases.credit.items r.id).map fun credit =>
        ⟨artistRef db credit.artistId, roleRef db credit.roleId, credit.on⟩) := by
  have hown : (loadMany db.releases.credit (releases.map Row.id))[i]?.getD [] =
      db.releases.credit.itemRows r.id := getD_map_ids hr
  rw [convCredits, hown, ← map_itemRows]
  refine mapM_eq_map fun credit hcredit => ?_
  obtain ⟨⟨artist, hartist⟩, role, hrole⟩ := hwf.foundCredit (cols_mem_items hcredit)
  rw [find?_creditArtists hr hcredit hartist, find?_creditRoles hr hcredit hrole]
  simp [artistRef, roleRef, hartist, hrole]

end Consistent

section Tracks
variable {db : Database} {releases : List (Row Release)} {r : Row Release} {i : ℕ}

theorem loadTrackDetails_eq (hwf : Wf db) :
    loadTrackDetails db (loadMany db.releases.track (releases.map Row.id)) =
      (cutArtistIds (allArtistIds db releases) (tracksLens db releases)).map fun cuts => {
        songs := rowsIn db.songs.song ((loadMany db.releases.track
          (releases.map Row.id)).flatten.map fun t => t.cols.track.songId)
        artists := firsts (loadManyToMany db.artists.artist db.releases.trackArtist
          ((loadMany db.releases.track (releases.map Row.id)).flatten.map Row.id)).flatten
        artistIds := cuts } := by
  have hlens : (loadMany db.releases.track (releases.map Row.id)).map List.length =
      tracksLens db releases := by
    simp [loadMany, tracksLens, Function.comp_def]
  have hsum : (allArtistIds db releases).length = (tracksLens db releases).sum := by
    simp [allArtistIds, tracksLens, List.length_flatMap]
  unfold loadTrackDetails
  simp only [artistIdsPerTrack_eq hwf, hlens, hsum]
  simp [Option.bind_eq_bind, Option.map_eq_bind]

theorem sliceOf_eq_some {α : Type} {xs ys : List α} {start len : ℕ} :
    sliceOf xs start len = some ys ↔ start + len ≤ xs.length ∧ (xs.drop start).take len = ys := by
  unfold sliceOf
  split <;> simp_all

/-- What is cut out for each release, where there are tracks at all. -/
theorem cutArtistIds_eq_some_iff {ids : List (List ℤ)} {lens : List ℕ} (hne : ids ≠ [])
    {cuts : List (List (List ℤ))} : cutArtistIds ids lens = some cuts ↔
      cuts.length = lens.length ∧ ∀ i len cut, lens[i]? = some len → cuts[i]? = some cut →
        i + len ≤ ids.length ∧ (ids.drop i).take len = cut := by
  have hempty : ids.isEmpty = false := by simpa using hne
  unfold cutArtistIds
  rw [hempty, mapM_zipIdx_eq_some_iff]
  simp only [Bool.false_eq_true, if_false, sliceOf_eq_some]

theorem cutArtistIds_nil {lens : List ℕ} : cutArtistIds [] lens = some (lens.map fun _ => []) := by
  have hall : cutArtistIds [] lens = some (lens.zipIdx.map fun _ => []) :=
    mapM_eq_map fun _ _ => rfl
  rw [hall, List.map_const', List.map_const', List.length_zipIdx]

theorem length_cutArtistIds {ids : List (List ℤ)} {lens : List ℕ} {cuts : List (List (List ℤ))}
    (h : cutArtistIds ids lens = some cuts) : cuts.length = lens.length :=
  (mapM_zipIdx_eq_some_iff.mp h).1

theorem cutArtistIds_mem {ids : List (List ℤ)} {lens : List ℕ} {cuts : List (List (List ℤ))}
    (h : cutArtistIds ids lens = some cuts) {cut : List (List ℤ)} (hcut : cut ∈ cuts) :
    ∀ x ∈ cut, x ∈ ids := by
  obtain ⟨i, hi⟩ := List.mem_iff_getElem?.mp hcut
  by_cases hne : ids = []
  · subst hne
    rw [cutArtistIds_nil, Option.some.injEq] at h
    subst h
    obtain ⟨_, _, rfl⟩ := List.mem_map.mp hcut
    simp
  · obtain ⟨hlength, hall⟩ := (cutArtistIds_eq_some_iff hne).mp h
    have hlt : i < lens.length := hlength ▸ (List.getElem?_eq_some_iff.mp hi).1
    obtain ⟨_, hslice⟩ := hall i _ cut (List.getElem?_eq_getElem hlt) hi
    intro x hx
    rw [← hslice] at hx
    exact List.mem_of_mem_drop (List.mem_of_mem_take hx)

/-- The artists of the tracks are among those that are loaded for all of them. -/
theorem find?_trackArtists (hwf : Wf db) {ids : List ℤ} (hids : ids ∈ allArtistIds db releases)
    {id : ℤ} (hid : id ∈ ids) : ∃ artist, db.artists.artist.findById id = some artist ∧
      (firsts (loadManyToMany db.artists.artist db.releases.trackArtist
        ((loadMany db.releases.track (releases.map Row.id)).flatten.map Row.id)).flatten).find?
          (·.id = id) = some ⟨id, artist⟩ := by
  rw [allArtistIds] at hids
  obtain ⟨release, hrelease, hids⟩ := List.mem_flatMap.mp hids
  obtain ⟨track, htrack, rfl⟩ := List.mem_map.mp hids
  obtain ⟨artist, hartist⟩ := hwf.foundTrackArtist hid
  obtain ⟨i, hi⟩ := List.mem_iff_getElem?.mp hrelease
  refine ⟨artist, hartist, find?_rows (t := db.artists.artist) ?_ ?_⟩
  · intro row hrow
    exact mem_rows_of_mem_loadManyToMany (mem_firsts.mp hrow)
  · refine mem_firsts.mpr (List.mem_flatten.mpr ⟨_, List.mem_map.mpr ⟨track.id, ?_, rfl⟩, ?_⟩)
    · exact List.mem_map_of_mem (mem_flatten_loadMany hi htrack)
    · exact List.mem_filterMap.mpr ⟨id, hid, by rw [hartist]; rfl⟩

theorem convTracks_eq (hwf : Wf db) (hr : releases[i]? = some r) {artistIds : List (List ℤ)}
    (hids : ∀ x ∈ artistIds, x ∈ allArtistIds db releases) :
    convTracks ((loadMany db.releases.track (releases.map Row.id))[i]?.getD [])
      (rowsIn db.songs.song ((loadMany db.releases.track
          (releases.map Row.id)).flatten.map fun t => t.cols.track.songId))
      (firsts (loadManyToMany db.artists.artist db.releases.trackArtist
          ((loadMany db.releases.track (releases.map Row.id)).flatten.map Row.id)).flatten)
      artistIds =
      some (((db.releases.track.itemRows r.id).zip artistIds).map fun p => trackOf db p.1 p.2) := by
  have hown : (loadMany db.releases.track (releases.map Row.id))[i]?.getD [] =
      db.releases.track.itemRows r.id := getD_map_ids hr
  rw [convTracks, hown]
  refine mapM_eq_map ?_
  rintro ⟨track, ids⟩ hp
  have htrack := (List.of_mem_zip hp).1
  -- the song of a track is among those that were loaded for all releases
  obtain ⟨song, hsong⟩ := hwf.foundSong (cols_mem_items htrack)
  have hartists : ids.mapM (fun artistId => ((firsts (loadManyToMany db.artists.artist
      db.releases.trackArtist ((loadMany db.releases.track
        (releases.map Row.id)).flatten.map Row.id)).flatten).find? (·.id = artistId)).map
          fun artist => (⟨artist.id, artist.cols.name⟩ : ReleaseArtist)) =
        some (ids.map (artistRef db)) := by
    refine mapM_eq_map fun id hid => ?_
    obtain ⟨artist, hartist, hfind⟩ :=
      find?_trackArtists hwf (hids ids (List.of_mem_zip hp).2) hid
    rw [hfind, artistRef, hartist]
    rfl
  have hsongIn : track.cols.track.songId ∈ (loadMany db.releases.track
      (releases.map Row.id)).flatten.map fun t => t.cols.track.songId :=
    List.mem_map_of_mem (mem_flatten_loadMany hr htrack)
  simp only [find?_rowsIn hsongIn hsong, Option.bind_eq_bind, Option.bind_some]
  rw [hartists]
  simp [trackOf, songRef, hsong]

/-- The whole reading: the tracks get the artists that were cut out for their release. -/
theorem findManyImpl_eq (hwf : Wf db) : findManyImpl db releases =
    (cutArtistIds (allArtistIds db releases) (tracksLens db releases)).map fun cuts =>
      releases.zipIdx.map fun p => assemble db p.1 (cuts[p.2]?.getD []) := by
  unfold findManyImpl RelatedEntities.load
  simp only [loadTrackDetails_eq hwf]
  cases hcuts : cutArtistIds (allArtistIds db releases) (tracksLens db releases) with
  | none => rfl
  | some cuts =>
    simp only [Option.bind_eq_bind, Option.map_some, Option.bind_some]
    -- each release is converted by its position among those that were loaded
    refine mapM_eq_map ?_
    rintro ⟨r, i⟩ hp
    have hr : releases[i]? = some r := List.mk_mem_zipIdx_iff_getElem?.mp hp
    have hmem : ∀ x ∈ cuts[i]?.getD [], x ∈ allArtistIds db releases := by
      cases hcut : cuts[i]? with
      | none => simp
      | some cut => exact cutArtistIds_mem hcuts (List.mem_of_getElem? hcut)
    unfold convToDomainModel
    simp only [convLocalizedTitles_eq hwf hr, convTracks_eq hwf hr hmem, convCredits_eq hwf hr,
      convArtists_eq hwf hr, convCatalogNumbers_eq hwf hr, convEvents_eq hwf hr,
      Option.bind_eq_bind, Option.bind_some]
    rw [convDiscs, loadMany, getD_map_ids hr]
    rfl

end Tracks

end Thcdb.Catalog.Release
