import Thcdb.Catalog.Approval
import Thcdb.Catalog.SongLyrics
import Thcdb.Corrections.SnapshotDiff
import Thcdb.Relational.Ordered

namespace Thcdb.Catalog
open Corrections Relational Json

section Values

def optional {α : Type} (f : α → Value) (o : Option α) : Value := o.elim .null f

def datePrecisionString : DatePrecision → String
  | .Day => "Day"
  | .Month => "Month"
  | .Year => "Year"

def dateWithPrecision (value : Option NaiveDate) (precision : Option DatePrecision) : Value :=
  match value, precision with
  | some value, some precision =>
    object [("value", .date value), ("precision", .str (datePrecisionString precision))]
  | _, _ => .null

def locationValue (l : Location) : Value :=
  if l.country.isNone ∧ l.province.isNone ∧ l.city.isNone then .null
  else object [("country", optional .str l.country), ("province", optional .str l.province),
    ("city", optional .str l.city)]

def ArtistType.serialize : ArtistType → Value
  | .Solo => .str "Solo"
  | .Multiple => .str "Multiple"
  | .Unknown => .str "Unknown"

def ReleaseType.serialize : ReleaseType → Value
  | .Album => .str "Album"
  | .EP => .str "Ep"
  | .Single => .str "Single"
  | .Compilation => .str "Compilation"
  | .Demo => .str "Demo"
  | .Other => .str "Other"

def TagType.serialize : TagType → Value
  | .Descriptor => .str "Descriptor"
  | .Genre => .str "Genre"
  | .Movement => .str "Movement"
  | .Scene => .str "Scene"

def TagRelationType.serialize : TagRelationType → Value
  | .Inherit => .str "Inherit"
  | .Derive => .str "Derive"

def LocalizedName.value (n : LocalizedName) : Value :=
  object [("language_id", .num n.languageId), ("name", .str n.name)]

def LocalizedTitle.value (t : LocalizedTitle) : Value :=
  object [("language_id", .num t.languageId), ("title", .str t.title)]

end Values

variable (db : Database) (historyId : ℤ)

namespace Artist

def tenureValue (t : Tenure) : Value :=
  object [("join_year", optional .num t.joinYear), ("leave_year", optional .num t.leaveYear)]

def membershipValue (r : Row ℤ) : Value :=
  object [
    ("id", .num r.id),
    ("artist_id", .num r.cols),
    ("roles", .arr ((db.artists.membershipRoleHistory.items r.id).map .num)),
    ("tenures", .arr ((db.artists.membershipTenureHistory.items r.id).map tenureValue))]

def snapshot : Option Value := do
  let history ← db.artists.history.findById historyId
  let aliases := orderBy (fun alias' => alias') (db.artists.aliasHistory.itemRows historyId)
  let links := orderById (db.artists.linkHistory.itemRows historyId)
  let localizedNames := orderById (db.artists.localizedNameHistory.itemRows historyId)
  let memberships := sortById (db.artists.membershipHistory.itemRows historyId)
  return object [
    ("name", .str history.name),
    ("artist_type", history.artistType.serialize),
    ("text_alias", optional (fun names => .arr (names.map .str)) history.textAlias),
    ("start_date", dateWithPrecision history.startDate history.startDatePrecision),
    ("end_date", dateWithPrecision history.endDate history.endDatePrecision),
    ("start_location", locationValue history.startLocation),
    ("current_location", locationValue history.currentLocation),
    ("links", .arr (links.map .str)),
    ("aliases", .arr (aliases.map .num)),
    ("localized_names", .arr (localizedNames.map LocalizedName.value)),
    ("memberships", .arr (memberships.map (membershipValue db)))]

/-- `db'` has the rows that `db` has of a history, in whichever order. -/
structure Matches (db' : Database) : Prop where
  history : db'.artists.history.findById historyId = db.artists.history.findById historyId
  aliases :
    (db'.artists.aliasHistory.itemRows historyId).Perm (db.artists.aliasHistory.itemRows historyId)
  links :
    (db'.artists.linkHistory.itemRows historyId).Perm (db.artists.linkHistory.itemRows historyId)
  localizedNames : (db'.artists.localizedNameHistory.itemRows historyId).Perm
    (db.artists.localizedNameHistory.itemRows historyId)
  memberships : (db'.artists.membershipHistory.itemRows historyId).Perm
    (db.artists.membershipHistory.itemRows historyId)
  roles : ∀ r ∈ db.artists.membershipHistory.itemRows historyId,
    (db'.artists.membershipRoleHistory.itemRows r.id).Perm
      (db.artists.membershipRoleHistory.itemRows r.id)
  tenures : ∀ r ∈ db.artists.membershipHistory.itemRows historyId,
    (db'.artists.membershipTenureHistory.itemRows r.id).Perm
      (db.artists.membershipTenureHistory.itemRows r.id)

end Artist

namespace Label

def snapshot : Option Value := do
  let history ← db.labels.history.findById historyId
  let founders := orderBy (fun artist => artist) (db.labels.founderHistory.itemRows historyId)
  let localizedNames := orderBy LocalizedName.languageId
    (db.labels.localizedNameHistory.itemRows historyId)
  return object [
    ("name", .str history.name),
    ("founded_date", dateWithPrecision history.foundedDate (some history.foundedDatePrecision)),
    ("dissolved_date",
      dateWithPrecision history.dissolvedDate (some history.dissolvedDatePrecision)),
    ("founders", .arr (founders.map .num)),
    ("localized_names", .arr (localizedNames.map LocalizedName.value))]

structure Matches (db' : Database) : Prop where
  history : db'.labels.history.findById historyId = db.labels.history.findById historyId
  founders : (db'.labels.founderHistory.itemRows historyId).Perm
    (db.labels.founderHistory.itemRows historyId)
  localizedNames : (db'.labels.localizedNameHistory.itemRows historyId).Perm
    (db.labels.localizedNameHistory.itemRows historyId)

end Label

namespace Release

def creditValue (c : ReleaseCredit) : Value :=
  object [
    ("artist_id", .num c.artistId),
    ("role_id", .num c.roleId),
    ("on", optional (fun tracks => .arr (tracks.map .num)) c.on)]

def discTracks (t : Table (Owned DiscTrack)) (discId : ℤ) : List (Row (Owned DiscTrack)) :=
  t.rows.filter fun r => r.cols.item.discId = discId

def trackValue (track : Row (Owned DiscTrack)) (artists : List ℤ) : Value :=
  object [
    ("id", .num track.id),
    ("song_id", .num track.cols.item.track.songId),
    ("track_number", optional .str track.cols.item.track.trackNumber),
    ("display_title", optional .str track.cols.item.track.displayTitle),
    ("duration", optional .num track.cols.item.track.duration),
    ("artists", .arr (artists.map .num))]

def discValue (disc : Row (Option String)) (tracks : List (Row (Owned DiscTrack)))
    (artists : List (List ℤ)) : Value :=
  object [
    ("id", .num disc.id),
    ("name", optional .str disc.cols),
    ("tracks", .arr (List.zipWith trackValue tracks artists))]

def takeLengths {α : Type} : List ℕ → List α → List (List α)
  | [], _ => []
  | n :: ns, l => l.take n :: takeLengths ns (l.drop n)

/-- The discs with their tracks and the artists of these, which are loaded for all tracks at
once. -/
def discValues : List Value :=
  let discs := sortById (db.releases.discHistory.itemRows historyId)
  let tracks := discs.map fun disc => discTracks db.releases.trackHistory disc.id
  let trackLengths := tracks.map List.length
  let flatTrackArtists := tracks.flatten.map fun track =>
    db.releases.trackArtistHistory.items track.id
  let trackArtists := takeLengths trackLengths flatTrackArtists
  List.zipWith (fun disc p => discValue disc p.1 p.2) discs (tracks.zip trackArtists)

def snapshot : Option Value := do
  let history ← db.releases.history.findById historyId
  let artists := orderBy (fun artist => artist) (db.releases.artistHistory.itemRows historyId)
  let credits := orderById (db.releases.creditHistory.itemRows historyId)
  let localizedTitles := orderBy LocalizedTitle.languageId
    (db.releases.localizedTitleHistory.itemRows historyId)
  let catalogNumbers := orderById (db.releases.catalogNumberHistory.itemRows historyId)
  let releaseEvents := orderBy (fun event => event) (db.releases.eventHistory.itemRows historyId)
  return object [
    ("title", .str history.title),
    ("release_type", history.releaseType.serialize),
    ("release_date", dateWithPrecision history.releaseDate (some history.releaseDatePrecision)),
    ("recording_date_start",
      dateWithPrecision history.recordingDateStart (some history.recordingDateStartPrecision)),
    ("recording_date_end",
      dateWithPrecision history.recordingDateEnd (some history.recordingDateEndPrecision)),
    ("discs", .arr (discValues db historyId)),
    ("release_events", .arr (releaseEvents.map .num)),
    ("credits", .arr (credits.map creditValue)),
    ("artists", .arr (artists.map .num)),
    ("localized_titles", .arr (localizedTitles.map LocalizedTitle.value)),
    ("catalog_numbers", .arr (catalogNumbers.map fun n => .str n.catalogNumber))]

structure Matches (db' : Database) : Prop where
  history : db'.releases.history.findById historyId = db.releases.history.findById historyId
  artists : (db'.releases.artistHistory.itemRows historyId).Perm
    (db.releases.artistHistory.itemRows historyId)
  catalogNumbers : (db'.releases.catalogNumberHistory.itemRows historyId).Perm
    (db.releases.catalogNumberHistory.itemRows historyId)
  credits : (db'.releases.creditHistory.itemRows historyId).Perm
    (db.releases.creditHistory.itemRows historyId)
  events : (db'.releases.eventHistory.itemRows historyId).Perm
    (db.releases.eventHistory.itemRows historyId)
  localizedTitles : (db'.releases.localizedTitleHistory.itemRows historyId).Perm
    (db.releases.localizedTitleHistory.itemRows historyId)
  discs : (db'.releases.discHistory.itemRows historyId).Perm
    (db.releases.discHistory.itemRows historyId)
  tracks : (db'.releases.trackHistory.itemRows historyId).Perm
    (db.releases.trackHistory.itemRows historyId)
  discTracks : ∀ r ∈ db.releases.discHistory.itemRows historyId,
    (discTracks db'.releases.trackHistory r.id).Perm (discTracks db.releases.trackHistory r.id)
  trackArtists : ∀ r ∈ db.releases.trackHistory.itemRows historyId,
    (db'.releases.trackArtistHistory.itemRows r.id).Perm
      (db.releases.trackArtistHistory.itemRows r.id)

end Release

namespace Song

def creditValue (c : SongCredit) : Value :=
  object [("artist_id", .num c.artistId), ("role_id", optional .num c.roleId)]

def relationValue (r : NewSongRelation) : Value :=
  object [
    ("related_song_id", .num r.relatedSongId),
    ("relation_type_id", .num r.relationTypeId),
    ("description", .str r.description)]

def snapshot : Option Value := do
  let history ← db.songs.history.findById historyId
  let artists := orderBy (fun artist => artist) (db.songs.artistHistory.itemRows historyId)
  let credits := orderById (db.songs.creditHistory.itemRows historyId)
  let localizedTitles := orderById (db.songs.localizedTitleHistory.itemRows historyId)
  let languageIds := orderBy (fun language => language)
    (db.songs.languageHistory.itemRows historyId)
  let relations := orderBy NewSongRelation.relatedSongId
    (db.songs.relationHistory.itemRows historyId)
  return object [
    ("title", .str history.title),
    ("artists", .arr (artists.map .num)),
    ("credits", .arr (credits.map creditValue)),
    ("localized_titles", .arr (localizedTitles.map LocalizedTitle.value)),
    ("languages", .arr (languageIds.map .num)),
    ("relations", .arr (relations.map relationValue))]

structure Matches (db' : Database) : Prop where
  history : db'.songs.history.findById historyId = db.songs.history.findById historyId
  artists :
    (db'.songs.artistHistory.itemRows historyId).Perm (db.songs.artistHistory.itemRows historyId)
  credits :
    (db'.songs.creditHistory.itemRows historyId).Perm (db.songs.creditHistory.itemRows historyId)
  languages : (db'.songs.languageHistory.itemRows historyId).Perm
    (db.songs.languageHistory.itemRows historyId)
  localizedTitles : (db'.songs.localizedTitleHistory.itemRows historyId).Perm
    (db.songs.localizedTitleHistory.itemRows historyId)
  relations : (db'.songs.relationHistory.itemRows historyId).Perm
    (db.songs.relationHistory.itemRows historyId)

end Song

namespace Tag

def relationValue (r : TagRelation) : Value :=
  object [("related_tag_id", .num r.relatedTagId), ("type", r.type.serialize)]

def snapshot : Option Value := do
  let history ← db.tags.history.findById historyId
  let alternativeNames := orderById (db.tags.alternativeNameHistory.itemRows historyId)
  let relations := orderBy TagRelation.relatedTagId (db.tags.relationHistory.itemRows historyId)
  return object [
    ("name", .str history.name),
    ("type", history.type.serialize),
    ("short_description", .str history.shortDescription),
    ("description", .str history.description),
    ("alternative_names", .arr (alternativeNames.map fun n => .str n.name)),
    ("relations", .arr (relations.map relationValue))]

structure Matches (db' : Database) : Prop where
  history : db'.tags.history.findById historyId = db.tags.history.findById historyId
  alternativeNames : (db'.tags.alternativeNameHistory.itemRows historyId).Perm
    (db.tags.alternativeNameHistory.itemRows historyId)
  relations :
    (db'.tags.relationHistory.itemRows historyId).Perm (db.tags.relationHistory.itemRows historyId)

end Tag

namespace Event

def snapshot : Option Value := do
  let history ← db.events.history.findById historyId
  let alternativeNames := orderById (db.events.alternativeNameHistory.itemRows historyId)
  return object [
    ("name", .str history.name),
    ("description", .str history.description),
    ("short_description", .str history.shortDescription),
    ("start_date", dateWithPrecision history.startDate (some history.startDatePrecision)),
    ("end_date", dateWithPrecision history.endDate (some history.endDatePrecision)),
    ("location", locationValue history.location),
    ("alternative_names", .arr (alternativeNames.map fun n => .str n.name))]

structure Matches (db' : Database) : Prop where
  history : db'.events.history.findById historyId = db.events.history.findById historyId
  alternativeNames : (db'.events.alternativeNameHistory.itemRows historyId).Perm
    (db.events.alternativeNameHistory.itemRows historyId)

end Event

namespace SongLyrics

def snapshot : Option Value := do
  let history ← db.songLyrics.history.findById historyId
  return object [
    ("language_id", .num history.languageId),
    ("content", .str history.content),
    ("is_main", .bool history.isMain)]

def Matches (db' : Database) : Prop :=
  db'.songLyrics.history.findById historyId = db.songLyrics.history.findById historyId

end SongLyrics

namespace CreditRole

def snapshot : Option Value := do
  let history ← db.creditRoles.history.findById historyId
  let inherits := orderBy (fun superId => superId)
    (db.creditRoles.inheritanceHistory.itemRows historyId)
  return object [
    ("name", .str history.name),
    ("description", .str history.description),
    ("inherits", .arr (inherits.map .num))]

structure Matches (db' : Database) : Prop where
  history : db'.creditRoles.history.findById historyId = db.creditRoles.history.findById historyId
  inheritances : (db'.creditRoles.inheritanceHistory.itemRows historyId).Perm
    (db.creditRoles.inheritanceHistory.itemRows historyId)

end CreditRole

def snapshotForHistory (entityType : EntityType) : Option Value :=
  match entityType with
  | .Artist => Artist.snapshot db historyId
  | .Label => Label.snapshot db historyId
  | .Release => Release.snapshot db historyId
  | .Song => Song.snapshot db historyId
  | .Tag => Tag.snapshot db historyId
  | .Event => Event.snapshot db historyId
  | .SongLyrics => SongLyrics.snapshot db historyId
  | .CreditRole => CreditRole.snapshot db historyId

/-- The second database has the rows that the first has of a history, in whichever order. -/
def MatchesHistory (entityType : EntityType) (db' : Database) : Prop :=
  match entityType with
  | .Artist => Artist.Matches db historyId db'
  | .Label => Label.Matches db historyId db'
  | .Release => Release.Matches db historyId db'
  | .Song => Song.Matches db historyId db'
  | .Tag => Tag.Matches db historyId db'
  | .Event => Event.Matches db historyId db'
  | .SongLyrics => SongLyrics.Matches db historyId db'
  | .CreditRole => CreditRole.Matches db historyId db'

end Thcdb.Catalog
