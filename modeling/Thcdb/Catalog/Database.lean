import Thcdb.Corrections.Tables
import Thcdb.Relational.Children

namespace Thcdb.Catalog
open Relational

/-- Days, in the order of the calendar. -/
abbrev NaiveDate := ℤ

inductive DatePrecision
  | Day | Month | Year
  deriving DecidableEq, Repr

structure DateWithPrecision where
  value : NaiveDate
  precision : DatePrecision
  deriving DecidableEq, Repr

structure Location where
  country : Option String
  province : Option String
  city : Option String
  deriving DecidableEq, Repr

/-- The columns of a location that was not given. -/
def Location.none : Location := ⟨Option.none, Option.none, Option.none⟩

structure LocalizedName where
  languageId : ℤ
  name : String
  deriving DecidableEq, Repr

structure LocalizedTitle where
  languageId : ℤ
  title : String
  deriving DecidableEq, Repr

structure Language where
  code : String
  name : String
  deriving DecidableEq, Repr

section Artist

inductive ArtistType
  | Solo | Multiple | Unknown
  deriving DecidableEq, Repr

structure Artist where
  name : String
  artistType : ArtistType
  textAlias : Option (List String)
  startDate : Option NaiveDate
  startDatePrecision : Option DatePrecision
  endDate : Option NaiveDate
  endDatePrecision : Option DatePrecision
  startLocation : Location
  currentLocation : Location
  deriving DecidableEq, Repr

structure ArtistAlias where
  firstId : ℤ
  secondId : ℤ
  deriving DecidableEq, Repr

structure ArtistMembership where
  memberId : ℤ
  groupId : ℤ
  deriving DecidableEq, Repr

structure Tenure where
  joinYear : Option ℤ
  leaveYear : Option ℤ
  deriving DecidableEq, Repr

structure ArtistTables where
  artist : Table Artist
  artistAlias : Table ArtistAlias
  link : Table (Owned String)
  localizedName : Table (Owned LocalizedName)
  membership : Table ArtistMembership
  membershipRole : Table (Owned ℤ)
  membershipTenure : Table (Owned Tenure)
  history : Table Artist
  aliasHistory : Table (Owned ℤ)
  linkHistory : Table (Owned String)
  localizedNameHistory : Table (Owned LocalizedName)
  membershipHistory : Table (Owned ℤ)
  membershipRoleHistory : Table (Owned ℤ)
  membershipTenureHistory : Table (Owned Tenure)
  deriving Inhabited

end Artist

section Label

structure Label where
  name : String
  foundedDate : Option NaiveDate
  foundedDatePrecision : DatePrecision
  dissolvedDate : Option NaiveDate
  dissolvedDatePrecision : DatePrecision
  deriving DecidableEq, Repr

structure LabelTables where
  label : Table Label
  founder : Table (Owned ℤ)
  localizedName : Table (Owned LocalizedName)
  history : Table Label
  founderHistory : Table (Owned ℤ)
  localizedNameHistory : Table (Owned LocalizedName)
  deriving Inhabited

end Label

section Release

inductive ReleaseType
  | Album | EP | Single | Compilation | Demo | Other
  deriving DecidableEq, Repr

structure Release where
  title : String
  releaseType : ReleaseType
  releaseDate : Option NaiveDate
  releaseDatePrecision : DatePrecision
  recordingDateStart : Option NaiveDate
  recordingDateStartPrecision : DatePrecision
  recordingDateEnd : Option NaiveDate
  recordingDateEndPrecision : DatePrecision
  deriving DecidableEq, Repr

structure CatalogNumber where
  catalogNumber : String
  labelId : Option ℤ
  deriving DecidableEq, Repr

structure ReleaseCredit where
  artistId : ℤ
  roleId : ℤ
  on : Option (List ℤ)
  deriving DecidableEq, Repr

/-- The columns of a track that its disc does not decide. -/
structure Track where
  songId : ℤ
  trackNumber : Option String
  displayTitle : Option String
  duration : Option ℤ
  deriving DecidableEq, Repr

/-- A track refers to its release and to a disc. -/
structure DiscTrack where
  track : Track
  discId : ℤ
  deriving DecidableEq, Repr

structure ReleaseTables where
  release : Table Release
  artist : Table (Owned ℤ)
  catalogNumber : Table (Owned CatalogNumber)
  credit : Table (Owned ReleaseCredit)
  event : Table (Owned ℤ)
  localizedTitle : Table (Owned LocalizedTitle)
  disc : Table (Owned (Option String))
  track : Table (Owned DiscTrack)
  trackArtist : Table (Owned ℤ)
  history : Table Release
  artistHistory : Table (Owned ℤ)
  catalogNumberHistory : Table (Owned CatalogNumber)
  creditHistory : Table (Owned ReleaseCredit)
  eventHistory : Table (Owned ℤ)
  localizedTitleHistory : Table (Owned LocalizedTitle)
  discHistory : Table (Owned (Option String))
  trackHistory : Table (Owned DiscTrack)
  trackArtistHistory : Table (Owned ℤ)
  deriving Inhabited

end Release

section Song

structure Song where
  title : String
  deriving DecidableEq, Repr

structure SongCredit where
  artistId : ℤ
  roleId : Option ℤ
  deriving DecidableEq, Repr

structure SongRelation where
  firstId : ℤ
  secondId : ℤ
  relationTypeId : ℤ
  description : String
  deriving DecidableEq, Repr

structure NewSongRelation where
  relatedSongId : ℤ
  relationTypeId : ℤ
  description : String
  deriving DecidableEq, Repr

structure SongTables where
  song : Table Song
  artist : Table (Owned ℤ)
  credit : Table (Owned SongCredit)
  language : Table (Owned ℤ)
  localizedTitle : Table (Owned LocalizedTitle)
  relation : Table SongRelation
  history : Table Song
  artistHistory : Table (Owned ℤ)
  creditHistory : Table (Owned SongCredit)
  languageHistory : Table (Owned ℤ)
  localizedTitleHistory : Table (Owned LocalizedTitle)
  relationHistory : Table (Owned NewSongRelation)
  deriving Inhabited

end Song

section Tag

inductive TagType
  | Descriptor | Genre | Movement | Scene
  deriving DecidableEq, Repr

inductive TagRelationType
  | Inherit | Derive
  deriving DecidableEq, Repr

structure Tag where
  name : String
  type : TagType
  shortDescription : String
  description : String
  deriving DecidableEq, Repr

structure TagAlternativeName where
  name : String
  isOriginLanguage : Bool
  languageId : Option ℤ
  deriving DecidableEq, Repr

structure TagRelation where
  relatedTagId : ℤ
  type : TagRelationType
  deriving DecidableEq, Repr

structure TagTables where
  tag : Table Tag
  alternativeName : Table (Owned TagAlternativeName)
  relation : Table (Owned TagRelation)
  history : Table Tag
  alternativeNameHistory : Table (Owned TagAlternativeName)
  relationHistory : Table (Owned TagRelation)
  deriving Inhabited

end Tag

section Event

inductive AlternativeNameType
  | Alias | Localization
  deriving DecidableEq, Repr

structure Event where
  name : String
  shortDescription : String
  description : String
  startDate : Option NaiveDate
  startDatePrecision : DatePrecision
  endDate : Option NaiveDate
  endDatePrecision : DatePrecision
  location : Location
  deriving DecidableEq, Repr

structure EventAlternativeName where
  name : String
  type : AlternativeNameType
  languageId : Option ℤ
  deriving DecidableEq, Repr

structure EventTables where
  event : Table Event
  alternativeName : Table (Owned EventAlternativeName)
  history : Table Event
  alternativeNameHistory : Table (Owned EventAlternativeName)
  deriving Inhabited

end Event

section CreditRole

structure CreditRole where
  name : String
  shortDescription : String
  description : String
  deriving DecidableEq, Repr

structure CreditRoleTables where
  creditRole : Table CreditRole
  inheritance : Table (Owned ℤ)
  history : Table CreditRole
  inheritanceHistory : Table (Owned ℤ)
  deriving Inhabited

end CreditRole

section SongLyrics

structure SongLyrics where
  songId : ℤ
  languageId : ℤ
  content : String
  isMain : Bool
  deriving DecidableEq, Repr

structure SongLyricsTables where
  songLyrics : Table SongLyrics
  history : Table SongLyrics
  deriving Inhabited

end SongLyrics

/-- The tables of one database; of languages and of the kinds of song relations only the rows are
read. -/
structure Database where
  languages : Table Language
  songRelationTypes : Table String
  artists : ArtistTables
  labels : LabelTables
  releases : ReleaseTables
  songs : SongTables
  tags : TagTables
  events : EventTables
  creditRoles : CreditRoleTables
  songLyrics : SongLyricsTables
  deriving Inhabited

namespace Database

variable (db : Database)

def hasLanguage (id : ℤ) : Bool := db.languages.has id

def hasArtist (id : ℤ) : Bool := db.artists.artist.has id

def hasLabel (id : ℤ) : Bool := db.labels.label.has id

def hasSong (id : ℤ) : Bool := db.songs.song.has id

def hasTag (id : ℤ) : Bool := db.tags.tag.has id

def hasEvent (id : ℤ) : Bool := db.events.event.has id

def hasCreditRole (id : ℤ) : Bool := db.creditRoles.creditRole.has id

def hasSongRelationType (id : ℤ) : Bool := db.songRelationTypes.has id

end Database

/-- The newest revision of a correction: which history row it is about, and the row. -/
def revisedHistory {C : Type} (revisions : List Corrections.CorrectionRevision)
    (correction : Corrections.Correction) (history : Table C) : Option (ℤ × C) := do
  let revision ← Corrections.findRevision revisions correction.id
  let row ← history.findById revision.entityHistoryId
  return (revision.entityHistoryId, row)

section

open Corrections

variable {C : Type} {revisions : List CorrectionRevision} {correction : Correction}
  {revision : CorrectionRevision} {history : Table C}

theorem revisedHistory_eq (h : findRevision revisions correction.id = some revision) :
    revisedHistory revisions correction history =
      (history.findById revision.entityHistoryId).map fun row =>
        (revision.entityHistoryId, row) := by
  unfold revisedHistory
  rw [h, Option.map_eq_bind]
  rfl

end

/-- A column that is left out when no date was given, and then takes its default. -/
def precisionOr (date : Option DateWithPrecision) : DatePrecision :=
  (date.map DateWithPrecision.precision).getD .Day

end Thcdb.Catalog
