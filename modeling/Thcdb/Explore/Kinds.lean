import Thcdb.Catalog.TrackArtists
import Thcdb.Explore.Listings

namespace Thcdb.Explore
open Catalog Corrections Paging Relational

structure Keys (db : Database) : Prop where
  artist : ∀ r ∈ db.artists.artist.rows, IsKey r.id
  release : ∀ r ∈ db.releases.release.rows, IsKey r.id
  song : ∀ r ∈ db.songs.song.rows, IsKey r.id
  tag : ∀ r ∈ db.tags.tag.rows, IsKey r.id
  label : ∀ r ∈ db.labels.label.rows, IsKey r.id
  event : ∀ r ∈ db.events.event.rows, IsKey r.id

section Kinds
variable {D : Type} (db : Database) (keys : Keys db)

structure ArtistFilter where
  artistTypes : Option (List ArtistType)

def ArtistFilter.intoSelect (filter : ArtistFilter) (r : Row Artist) : Bool :=
  filter.artistTypes.all fun types => types.contains r.cols.artistType

def artistListing (findManyImpl : FindManyImpl Artist D) : Listing Artist ArtistFilter D where
  entityType := .Artist
  table := db.artists.artist
  keys := keys.artist
  findManyImpl := findManyImpl.loader
  intoSelect := ArtistFilter.intoSelect
  sortedSelect filter r := filter.artistTypes.all fun types => types.contains r.cols.artistType
  agree _ _ := rfl

structure ReleaseFilter where
  releaseTypes : Option (List ReleaseType)

def ReleaseFilter.intoSelect (filter : ReleaseFilter) (r : Row Release) : Bool :=
  filter.releaseTypes.all fun types => types.contains r.cols.releaseType

def orPanic {α : Type} : Option α → Except Failure α
  | none => .error .panicked
  | some a => .ok a

theorem orPanic_eq_ok {α : Type} {o : Option α} {a : α} : orPanic o = .ok a ↔ o = some a := by
  cases o with
  | none => exact ⟨nofun, nofun⟩
  | some b => exact ⟨fun h => congrArg some (Except.ok.inj h), fun h => by cases h; rfl⟩

/-- The releases of a query are read together, which may panic. -/
def releaseLoader (hwf : Release.Wf db) : EntityLoader Release Release.Loaded where
  load rows := orPanic (Release.findManyImpl db rows)
  getId := Release.Loaded.id
  nil := rfl
  ids rows items h := by
    rw [orPanic_eq_ok, Release.findManyImpl_eq hwf] at h
    obtain ⟨cuts, -, rfl⟩ := Option.map_eq_some_iff.mp h
    have hids : (rows.zipIdx.map Prod.fst).map Row.id = rows.map Row.id := by
      rw [List.zipIdx_map_fst]
    rw [List.map_map, ← hids, List.map_map]
    rfl

def releaseListing (hwf : Release.Wf db) : Listing Release ReleaseFilter Release.Loaded where
  entityType := .Release
  table := db.releases.release
  keys := keys.release
  findManyImpl := releaseLoader db hwf
  intoSelect := ReleaseFilter.intoSelect
  sortedSelect filter r := filter.releaseTypes.all fun types => types.contains r.cols.releaseType
  agree _ _ := rfl

structure SongFilter where
  languageIds : Option (List ℤ)

def SongFilter.applyLanguageFilter (languageIds : List ℤ) (r : Row Song) : Bool :=
  db.songs.language.rows.any fun l => l.cols.owner = r.id && languageIds.contains l.cols.item

def SongFilter.intoSelect (filter : SongFilter) (r : Row Song) : Bool :=
  filter.languageIds.all fun languageIds => SongFilter.applyLanguageFilter db languageIds r

/-- Both queries for songs are made by `into_select`. -/
def songListing (findManyImpl : FindManyImpl Song D) : Listing Song SongFilter D where
  entityType := .Song
  table := db.songs.song
  keys := keys.song
  findManyImpl := findManyImpl.loader
  intoSelect := SongFilter.intoSelect db
  sortedSelect := SongFilter.intoSelect db
  agree _ _ := rfl

structure TagFilter where
  tagTypes : Option (List TagType)

def TagFilter.intoSelect (filter : TagFilter) (r : Row Tag) : Bool :=
  filter.tagTypes.all fun types => types.contains r.cols.type

def tagListing (findManyImpl : FindManyImpl Tag D) : Listing Tag TagFilter D where
  entityType := .Tag
  table := db.tags.tag
  keys := keys.tag
  findManyImpl := findManyImpl.loader
  intoSelect := TagFilter.intoSelect
  sortedSelect filter r := filter.tagTypes.all fun types => types.contains r.cols.type
  agree _ _ := rfl

structure LabelFilter where
  foundedDateFrom : Option NaiveDate
  foundedDateTo : Option NaiveDate
  isDissolved : Option Bool

/-- A comparison with a `NULL` is not true. -/
def LabelFilter.intoSelect (filter : LabelFilter) (r : Row Label) : Bool :=
  filter.foundedDateFrom.all (fun first => r.cols.foundedDate.any fun date => first ≤ date) &&
    filter.foundedDateTo.all (fun last => r.cols.foundedDate.any fun date => date ≤ last) &&
      filter.isDissolved.all fun isDissolved =>
        if isDissolved then r.cols.dissolvedDate.isSome else r.cols.dissolvedDate.isNone

def labelListing (findManyImpl : FindManyImpl Label D) : Listing Label LabelFilter D where
  entityType := .Label
  table := db.labels.label
  keys := keys.label
  findManyImpl := findManyImpl.loader
  intoSelect := LabelFilter.intoSelect
  sortedSelect filter r :=
    filter.foundedDateFrom.all (fun first => r.cols.foundedDate.any fun date => first ≤ date) &&
      filter.foundedDateTo.all (fun last => r.cols.foundedDate.any fun date => date ≤ last) &&
        filter.isDissolved.all fun isDissolved =>
          if isDissolved then r.cols.dissolvedDate.isSome else r.cols.dissolvedDate.isNone
  agree _ _ := rfl

structure EventFilter where
  startDateFrom : Option NaiveDate
  startDateTo : Option NaiveDate

def EventFilter.intoSelect (filter : EventFilter) (r : Row Catalog.Event) : Bool :=
  filter.startDateFrom.all (fun first => r.cols.startDate.any fun date => first ≤ date) &&
    filter.startDateTo.all fun last => r.cols.startDate.any fun date => date ≤ last

def eventListing (findManyImpl : FindManyImpl Catalog.Event D) :
    Listing Catalog.Event EventFilter D where
  entityType := .Event
  table := db.events.event
  keys := keys.event
  findManyImpl := findManyImpl.loader
  intoSelect := EventFilter.intoSelect
  sortedSelect filter r :=
    filter.startDateFrom.all (fun first => r.cols.startDate.any fun date => first ≤ date) &&
      filter.startDateTo.all fun last => r.cols.startDate.any fun date => date ≤ last
  agree _ _ := rfl

end Kinds

section Releases
variable {db : Database} {keys : Keys db} {hwf : Release.Wf db} {corrections : List Correction}
  {conditions : ReleaseFilter} {limit? : Option UInt32}

theorem load_releaseLoader_iff (hwf : Release.Wf db) {rows : List (Row Release)} :
    (∃ items, (releaseLoader db hwf).load rows = .ok items) ↔ Release.SlicesFit db rows := by
  rw [← Release.exists_findManyImpl_iff hwf]
  exact exists_congr fun _ => orPanic_eq_ok

/-- All listed releases are loaded for each page of the one listing, and the page for the other. -/
structure ReleasesLoad (db : Database) (keys : Keys db) (hwf : Release.Wf db)
    (corrections : List Correction) (conditions : ReleaseFilter) (limit? : Option UInt32) :
    Prop where
  sorted : Release.SlicesFitAnywhere db
    (listedRows (releaseListing db keys hwf) corrections conditions)
  unsorted : ∀ i, Release.SlicesFit db
    (slice (pageSize limit?) i (selectedRows (releaseListing db keys hwf) conditions))

theorem loads_release_iff : Loads (releaseListing db keys hwf) corrections conditions limit? ↔
    ReleasesLoad db keys hwf corrections conditions limit? := by
  constructor
  · rintro ⟨hsorted, hunsorted⟩
    refine ⟨Release.slicesFit_perm_iff.mp fun rows hrows => ?_, fun i => ?_⟩
    · exact (load_releaseLoader_iff hwf).mp (hsorted rows hrows)
    · exact (load_releaseLoader_iff hwf).mp (hunsorted i)
  · rintro ⟨hsorted, hunsorted⟩
    refine ⟨fun rows hrows => ?_, fun i => ?_⟩
    · exact (load_releaseLoader_iff hwf).mpr (Release.slicesFit_perm_iff.mpr hsorted rows hrows)
    · exact (load_releaseLoader_iff hwf).mpr (hunsorted i)

end Releases

/-- A listing whose entities can always be loaded is right unless `NULL`s or ties get in the way. -/
def SortsUnlessCut {C Q D : Type} (L : Listing C Q D) (corrections : List Correction)
    (f : CorrectionSortField) (d : SortDirection) : Prop :=
  ∀ (conditions : Q) (limit? : Option UInt32),
    ListsSorted L corrections conditions f d limit? ↔
      HandledBehind f (ofType corrections L.entityType) ∧
        Uncut (Precedes f (ofType corrections L.entityType) d) (pageSize limit?)
          (listed L corrections conditions)

theorem sortsUnlessCut {C Q D : Type} {L : Listing C Q D} {corrections : List Correction}
    {f : CorrectionSortField} {d : SortDirection}
    (htotal : ∀ rows, ∃ items, L.findManyImpl.load rows = .ok items) :
    SortsUnlessCut L corrections f d := by
  intro conditions limit?
  rw [listsSorted_iff]
  refine and_congr_right fun _ => and_iff_left ?_
  exact ⟨fun rows _ => htotal rows, fun i => htotal _⟩

/-- However the database orders ties and rows: the query for corrections gives each entity once and
in order exactly if no entity with an earlier timestamp than another has a `NULL`; and the pages of
the six listings show what they should exactly if, besides, no page ends between ties and the
releases that are read together do not make their loader panic. -/
theorem sorted_by_correction_iff (corrections : List Correction) (f : CorrectionSortField)
    (d : SortDirection) :
    (∀ entityType, (∀ answer : Answer corrections entityType f d, Complete answer) ↔
      HandledBehind f (ofType corrections entityType)) ∧
    ∀ (db : Database) (keys : Keys db) (D : Type),
      (∀ m : FindManyImpl Artist D, SortsUnlessCut (artistListing db keys m) corrections f d) ∧
      (∀ m : FindManyImpl Song D, SortsUnlessCut (songListing db keys m) corrections f d) ∧
      (∀ m : FindManyImpl Tag D, SortsUnlessCut (tagListing db keys m) corrections f d) ∧
      (∀ m : FindManyImpl Label D, SortsUnlessCut (labelListing db keys m) corrections f d) ∧
      (∀ m : FindManyImpl Catalog.Event D,
        SortsUnlessCut (eventListing db keys m) corrections f d) ∧
      ∀ (hwf : Release.Wf db) (conditions : ReleaseFilter) (limit? : Option UInt32),
        ListsSorted (releaseListing db keys hwf) corrections conditions f d limit? ↔
          HandledBehind f (ofType corrections .Release) ∧
            Uncut (Precedes f (ofType corrections .Release) d) (pageSize limit?)
              (listed (releaseListing db keys hwf) corrections conditions) ∧
            ReleasesLoad db keys hwf corrections conditions limit? := by
  refine ⟨fun _ => complete_iff, fun db keys D => ?_⟩
  have htotal : ∀ {C : Type} (m : FindManyImpl C D) (rows : List (Row C)),
      ∃ items, m.loader.load rows = .ok items := fun m rows => ⟨m.load rows, rfl⟩
  refine ⟨fun m => sortsUnlessCut (htotal m), fun m => sortsUnlessCut (htotal m),
    fun m => sortsUnlessCut (htotal m), fun m => sortsUnlessCut (htotal m),
    fun m => sortsUnlessCut (htotal m), fun hwf conditions limit? => ?_⟩
  rw [listsSorted_iff, loads_release_iff]
  rfl

/-- Two labels that were corrected one after the other, on pages of one label. -/
def twoLabels : Database :=
  let db : Database := default
  { db with labels := { db.labels with
    label := db.labels.label.insertAll
      [⟨"a", none, .Day, none, .Day⟩, ⟨"b", none, .Day, none, .Day⟩] } }

theorem twoLabels_keys : Keys twoLabels := by
  constructor <;> simp only [IsKey] <;> decide

def labelIds : FindManyImpl Label ℤ := ⟨List.map Row.id, id, fun _ => List.map_id _⟩

def handledInTurn : List Correction :=
  [⟨1, .Approved, .Update, .Label, 1, 0, some 5⟩, ⟨2, .Approved, .Update, .Label, 2, 0, some 3⟩]

theorem sorted_by_correction_two_labels :
    ListsSorted (labelListing twoLabels twoLabels_keys labelIds) handledInTurn ⟨none, none, none⟩
      .HandledAt .Desc (some 1) := by
  have hnotNull : ∀ c ∈ ofType handledInTurn .Label,
      CorrectionSortField.HandledAt.column c ≠ none := by decide
  obtain ⟨-, -, -, hlabels, -⟩ :=
    (sorted_by_correction_iff handledInTurn .HandledAt .Desc).2 twoLabels twoLabels_keys ℤ
  refine (hlabels labelIds ⟨none, none, none⟩ (some 1)).mpr ⟨?_, by decide⟩
  exact fun a b s t _ _ _ c hc _ => hnotNull c hc

/-- The second label was corrected earlier than the first, and waits for another correction. -/
def waiting : List Correction :=
  [⟨1, .Approved, .Update, .Label, 1, 0, some 5⟩, ⟨2, .Approved, .Update, .Label, 2, 0, some 3⟩,
    ⟨3, .Pending, .Update, .Label, 2, 1, none⟩]

def waitingFirst : Answer waiting .Label .HandledAt .Desc where
  models := [⟨3, .Pending, .Update, .Label, 2, 1, none⟩,
    ⟨1, .Approved, .Update, .Label, 1, 0, some 5⟩, ⟨2, .Approved, .Update, .Label, 2, 0, some 3⟩]
  perm := by decide
  sorted := by decide

theorem waiting_correction_first : ¬∀ corrections entityType f d
    (answer : Answer corrections entityType f d), Complete answer := by
  intro h
  have hbefore := (h waiting .Label .HandledAt .Desc waitingFirst).inOrder 1 (by decide) 2
    (by decide) 5 3 (by decide) (by decide) (by decide)
  exact absurd hbefore (by decide : ¬[1, 2].Sublist ([2, 1] : List ℤ))

end Thcdb.Explore
