import Mathlib.Data.List.Sort
import Thcdb.Catalog.Database

namespace Thcdb.Catalog
open Corrections Relational

structure NewSong where
  title : String
  artists : Option (List ℤ)
  credits : Option (List SongCredit)
  languages : Option (List ℤ)
  localizedTitles : Option (List LocalizedName)
  relations : Option (List NewSongRelation)
  deriving DecidableEq, Repr

namespace NewSong

inductive ValidationErrorKind
  | SelfRelation
  | DuplicateRelatedSong
  deriving DecidableEq, Repr

def ValidationErrorKind.message : ValidationErrorKind → String
  | .SelfRelation => "Song relation cannot target the same song"
  | .DuplicateRelatedSong => "Song relation cannot contain duplicate songs"

/-- The loop over the relations, with the songs it has met. -/
def validateRelations (songId : Option ℤ) : List ℤ → List NewSongRelation →
    Except ValidationErrorKind Unit
  | _, [] => .ok ()
  | met, relation :: relations =>
    if songId = some relation.relatedSongId then .error .SelfRelation
    else if relation.relatedSongId ∈ met then .error .DuplicateRelatedSong
    else validateRelations songId (relation.relatedSongId :: met) relations

def validate (song : NewSong) (songId : Option ℤ) : Except ValidationErrorKind Unit :=
  match song.relations with
  | none => .ok ()
  | some relations => validateRelations songId [] relations

end NewSong

def LocalizedName.toTitle (n : LocalizedName) : LocalizedTitle := ⟨n.languageId, n.name⟩

namespace Song

variable (db : Database)

def artistSchema : ChildSchema ℤ := ⟨db.hasSong, fun _ artist => db.hasArtist artist, true⟩

def creditSchema : ChildSchema SongCredit :=
  ⟨db.hasSong,
    fun _ credit => db.hasArtist credit.artistId && credit.roleId.all db.hasCreditRole, true⟩

def languageSchema : ChildSchema ℤ := ⟨db.hasSong, fun _ language => db.hasLanguage language, true⟩

def localizedTitleSchema : ChildSchema LocalizedTitle :=
  ⟨db.hasSong, fun _ title => db.hasLanguage title.languageId, false⟩

def relationConstraints : Constraints SongRelation where
  check c := c.firstId < c.secondId && db.hasSong c.firstId && db.hasSong c.secondId &&
    db.hasSongRelationType c.relationTypeId
  conflict _ _ := false

def hasHistory (id : ℤ) : Bool := db.songs.history.has id

def artistHistorySchema : ChildSchema ℤ := { artistSchema db with owner := hasHistory db }

def creditHistorySchema : ChildSchema SongCredit := { creditSchema db with owner := hasHistory db }

def languageHistorySchema : ChildSchema ℤ := { languageSchema db with owner := hasHistory db }

def localizedTitleHistorySchema : ChildSchema LocalizedTitle :=
  { localizedTitleSchema db with owner := hasHistory db }

def relationHistorySchema : ChildSchema NewSongRelation :=
  ⟨hasHistory db, fun _ relation => db.hasSong relation.relatedSongId &&
    db.hasSongRelationType relation.relationTypeId, false⟩

def normalizeSongRelationPair (firstSongId secondSongId : ℤ) : ℤ × ℤ :=
  if firstSongId < secondSongId then (firstSongId, secondSongId) else (secondSongId, firstSongId)

def relationRow (songId : ℤ) (relation : NewSongRelation) : SongRelation :=
  let ids := normalizeSongRelationPair songId relation.relatedSongId
  ⟨ids.1, ids.2, relation.relationTypeId, relation.description⟩

def createRelations (songId : ℤ) (relations : List NewSongRelation) (t : Table SongRelation) :
    Option (Table SongRelation) :=
  if relations.isEmpty then some t
  else t.insertMany (relationConstraints db) (relations.map (relationRow songId))

def create (data : NewSong) : Option (Database × ℤ) := do
  let (song, id) ← db.songs.song.insert .free ⟨data.title⟩
  let db := { db with songs := { db.songs with song := song } }
  let artist ← createGiven (artistSchema db) db.songs.artist id data.artists
  let credit ← createGiven (creditSchema db) db.songs.credit id data.credits
  let language ← createGiven (languageSchema db) db.songs.language id data.languages
  let localizedTitle ← createGiven (localizedTitleSchema db) db.songs.localizedTitle id
    (data.localizedTitles.map (List.map LocalizedName.toTitle))
  let relation ← data.relations.elim (some db.songs.relation) fun relations =>
    createRelations db id relations db.songs.relation
  let songs := { db.songs with
    artist := artist, credit := credit, language := language, localizedTitle := localizedTitle,
    relation := relation }
  return ({ db with songs := songs }, id)

def createHistory (data : NewSong) : Option (Database × ℤ) := do
  let (history, id) ← db.songs.history.insert .free ⟨data.title⟩
  let db := { db with songs := { db.songs with history := history } }
  let artist ← createGiven (artistHistorySchema db) db.songs.artistHistory id data.artists
  let credit ← createGiven (creditHistorySchema db) db.songs.creditHistory id data.credits
  let language ← createGiven (languageHistorySchema db) db.songs.languageHistory id data.languages
  let localizedTitle ← createGiven (localizedTitleHistorySchema db)
    db.songs.localizedTitleHistory id
    (data.localizedTitles.map (List.map LocalizedName.toTitle))
  let relation ← createGiven (relationHistorySchema db) db.songs.relationHistory id data.relations
  let songs := { db.songs with
    artistHistory := artist, creditHistory := credit, languageHistory := language,
    localizedTitleHistory := localizedTitle, relationHistory := relation }
  return ({ db with songs := songs }, id)

def involves (songId : ℤ) (c : SongRelation) : Bool := c.firstId = songId || c.secondId = songId

def updateRelations (songId historyId : ℤ) : Option (Table SongRelation) :=
  createRelations db songId (db.songs.relationHistory.items historyId)
    (db.songs.relation.deleteWhere (involves songId))

def applyHistory (songId historyId : ℤ) (history : Song) : Option Database := do
  let song ← db.songs.song.updateById .free songId history
  let artist ← updateChildren (artistSchema db) db.songs.artist db.songs.artistHistory
    songId historyId
  let credit ← updateChildren (creditSchema db) db.songs.credit db.songs.creditHistory
    songId historyId
  let language ← updateChildren (languageSchema db) db.songs.language db.songs.languageHistory
    songId historyId
  let localizedTitle ← updateChildren (localizedTitleSchema db) db.songs.localizedTitle
    db.songs.localizedTitleHistory songId historyId
  let relation ← updateRelations db songId historyId
  let songs := { db.songs with
    song := song, artist := artist, credit := credit, language := language,
    localizedTitle := localizedTitle, relation := relation }
  return { db with songs := songs }

def applyUpdate (revisions : List CorrectionRevision) (correction : Correction) :
    Option Database := do
  let (historyId, history) ← revisedHistory revisions correction db.songs.history
  applyHistory db correction.entityId historyId history

/-- The rows of a song or of a history, as the song's page sees them and without their identities
and order. -/
structure Content where
  song : Song
  artists : Multiset ℤ
  credits : Multiset SongCredit
  languages : Multiset ℤ
  localizedTitles : Multiset LocalizedTitle
  relations : Multiset NewSongRelation
  deriving DecidableEq

def content (data : NewSong) : Content where
  song := ⟨data.title⟩
  artists := data.artists.getD []
  credits := data.credits.getD []
  languages := data.languages.getD []
  localizedTitles := (data.localizedTitles.getD []).map LocalizedName.toTitle
  relations := data.relations.getD []

def relatedSongId (songId : ℤ) (c : SongRelation) : ℤ :=
  if c.firstId = songId then c.secondId else c.firstId

/-- A row of `song_relation` from the side of one of its songs. -/
def seenFrom (songId : ℤ) (c : SongRelation) : NewSongRelation :=
  ⟨relatedSongId songId c, c.relationTypeId, c.description⟩

def relationsOf (t : Table SongRelation) (songId : ℤ) : List NewSongRelation :=
  (t.cols.filter (involves songId)).map (seenFrom songId)

def live (id : ℤ) : Option Content :=
  (db.songs.song.findById id).map fun song => {
    song := song
    artists := db.songs.artist.items id
    credits := db.songs.credit.items id
    languages := db.songs.language.items id
    localizedTitles := db.songs.localizedTitle.items id
    relations := relationsOf db.songs.relation id }

def stored (historyId : ℤ) : Option Content :=
  (db.songs.history.findById historyId).map fun song => {
    song := song
    artists := db.songs.artistHistory.items historyId
    credits := db.songs.creditHistory.items historyId
    languages := db.songs.languageHistory.items historyId
    localizedTitles := db.songs.localizedTitleHistory.items historyId
    relations := db.songs.relationHistory.items historyId }

structure Wf : Prop where
  artist : db.songs.artist.Satisfies (artistSchema db).constraints
  credit : db.songs.credit.Satisfies (creditSchema db).constraints
  language : db.songs.language.Satisfies (languageSchema db).constraints
  localizedTitle : db.songs.localizedTitle.Satisfies (localizedTitleSchema db).constraints
  relation : db.songs.relation.Satisfies (relationConstraints db)
  artistHistory : db.songs.artistHistory.Satisfies (artistHistorySchema db).constraints
  creditHistory : db.songs.creditHistory.Satisfies (creditHistorySchema db).constraints
  languageHistory : db.songs.languageHistory.Satisfies (languageHistorySchema db).constraints
  localizedTitleHistory :
    db.songs.localizedTitleHistory.Satisfies (localizedTitleHistorySchema db).constraints
  relationHistory : db.songs.relationHistory.Satisfies (relationHistorySchema db).constraints

section Relations

variable {db : Database} {t t' : Table SongRelation} {songId other : ℤ} {r : NewSongRelation}
  {relations : List NewSongRelation}

@[simp] theorem seenFrom_relationRow : seenFrom songId (relationRow songId r) = r := by
  unfold seenFrom relatedSongId relationRow normalizeSongRelationPair
  split
  · simp
  · next hlt =>
    by_cases heq : r.relatedSongId = songId
    · simp [← heq]
    · simp [heq]

@[simp] theorem involves_relationRow : involves songId (relationRow songId r) := by
  unfold involves relationRow normalizeSongRelationPair
  split <;> simp

theorem createRelations_eq_some (h : createRelations db songId relations t = some t') :
    (∀ r ∈ relations, (relationConstraints db).check (relationRow songId r)) ∧
      t' = t.insertAll (relations.map (relationRow songId)) := by
  unfold createRelations at h
  split at h
  · next hnil =>
    rw [List.isEmpty_iff.mp hnil, List.map_nil, Table.insertAll_nil]
    exact ⟨by simp, (Option.some.inj h).symm⟩
  · obtain ⟨-, hcheck, -, rfl⟩ := Table.insertMany_eq_some h
    exact ⟨fun r hr => hcheck _ (List.mem_map_of_mem hr), rfl⟩

theorem createRelations_eq :
    createRelations db songId relations t =
      if ∀ r ∈ relations, (relationConstraints db).check (relationRow songId r) then
        some (t.insertAll (relations.map (relationRow songId)))
      else none := by
  unfold createRelations
  cases relations with
  | nil => simp
  | cons r rs =>
    rw [if_neg (by simp), Table.insertMany_eq fun _ _ => rfl]
    simp

@[simp] theorem relationsOf_insertAll :
    relationsOf (t.insertAll (relations.map (relationRow songId))) songId =
      relationsOf t songId ++ relations := by
  simp [relationsOf, List.filter_map, Function.comp_def]

@[simp] theorem relationsOf_deleteWhere :
    relationsOf (t.deleteWhere (involves songId)) songId = [] := by
  simp [relationsOf, List.filter_filter]

/-- No relations hang on a song that does not exist. -/
theorem relationsOf_eq_nil (h : t.Satisfies (relationConstraints db))
    (hn : db.hasSong songId = false) : relationsOf t songId = [] := by
  rw [relationsOf, List.map_eq_nil_iff, List.filter_eq_nil_iff]
  intro c hc hinv
  have hcheck := h.1 c hc
  simp only [relationConstraints, Bool.and_eq_true, decide_eq_true_eq] at hcheck
  simp only [involves, Bool.or_eq_true, decide_eq_true_eq] at hinv
  obtain ⟨⟨⟨-, hfirst⟩, hsecond⟩, -⟩ := hcheck
  rcases hinv with rfl | rfl
  · rw [hn] at hfirst
    cases hfirst
  · rw [hn] at hsecond
    cases hsecond

end Relations

theorem elim_createRelations {db : Database} {id : ℤ} {t : Table SongRelation}
    {relations : Option (List NewSongRelation)} :
    (relations.elim (some t) fun relations => createRelations db id relations t) =
      createRelations db id (relations.getD []) t := by
  cases relations <;> rfl

section Specs

variable {db db' : Database} {data : NewSong} {id historyId : ℤ} {history : Song} {c : Content}

theorem hasSong_next : db.hasSong db.songs.song.next = false := Table.has_next

/-- The tables after `create`, and the relations it checked. -/
theorem create_eq_some (h : create db data = some (db', id)) :
    id = db.songs.song.next ∧
      (∀ r ∈ data.relations.getD [], (relationConstraints db').check (relationRow id r)) ∧
      db' = { db with songs := { db.songs with
        song := db.songs.song.insertAll [⟨data.title⟩]
        artist := db.songs.artist.adopt id (data.artists.getD [])
        credit := db.songs.credit.adopt id (data.credits.getD [])
        language := db.songs.language.adopt id (data.languages.getD [])
        localizedTitle := db.songs.localizedTitle.adopt id
          ((data.localizedTitles.getD []).map LocalizedName.toTitle)
        relation := db.songs.relation.insertAll
          ((data.relations.getD []).map (relationRow id)) } } := by
  simp only [create, Option.bind_eq_bind, Option.bind_eq_some_iff, Prod.exists] at h
  obtain ⟨song, i, hsong, artist, hartist, credit, hcredit, language, hlanguage, title, htitle,
    relation, hrelation, heq⟩ := h
  obtain ⟨-, rfl, rfl⟩ := Table.insert_eq_some hsong
  rw [createGiven_eq] at hartist hcredit hlanguage htitle
  rw [getD_map] at htitle
  obtain ⟨-, rfl⟩ := createChildren_eq_some hartist
  obtain ⟨-, rfl⟩ := createChildren_eq_some hcredit
  obtain ⟨-, rfl⟩ := createChildren_eq_some hlanguage
  obtain ⟨-, rfl⟩ := createChildren_eq_some htitle
  rw [elim_createRelations] at hrelation
  obtain ⟨hcheck, rfl⟩ := createRelations_eq_some hrelation
  obtain ⟨rfl, rfl⟩ := Prod.mk.inj (Option.some.inj heq)
  exact ⟨rfl, hcheck, rfl⟩

theorem live_create (hwf : Wf db) (h : create db data = some (db', id)) :
    live db' id = some (content data) := by
  obtain ⟨rfl, -, rfl⟩ := create_eq_some h
  have hrelations : relationsOf db.songs.relation db.songs.song.next = [] :=
    relationsOf_eq_nil hwf.relation hasSong_next
  simp [live, content, Table.findById_insertAll_next, hrelations,
    items_eq_nil hwf.artist hasSong_next, items_eq_nil hwf.credit hasSong_next,
    items_eq_nil hwf.language hasSong_next, items_eq_nil hwf.localizedTitle hasSong_next]

theorem createHistory_eq_some (h : createHistory db data = some (db', historyId)) :
    historyId = db.songs.history.next ∧
      db' = { db with songs := { db.songs with
        history := db.songs.history.insertAll [⟨data.title⟩]
        artistHistory := db.songs.artistHistory.adopt historyId (data.artists.getD [])
        creditHistory := db.songs.creditHistory.adopt historyId (data.credits.getD [])
        languageHistory := db.songs.languageHistory.adopt historyId (data.languages.getD [])
        localizedTitleHistory := db.songs.localizedTitleHistory.adopt historyId
          ((data.localizedTitles.getD []).map LocalizedName.toTitle)
        relationHistory := db.songs.relationHistory.adopt historyId
          (data.relations.getD []) } } := by
  simp only [createHistory, Option.bind_eq_bind, Option.bind_eq_some_iff, Prod.exists] at h
  obtain ⟨history, i, hhistory, artist, hartist, credit, hcredit, language, hlanguage, title,
    htitle, relation, hrelation, heq⟩ := h
  obtain ⟨-, rfl, rfl⟩ := Table.insert_eq_some hhistory
  rw [createGiven_eq] at hartist hcredit hlanguage htitle hrelation
  rw [getD_map] at htitle
  obtain ⟨-, rfl⟩ := createChildren_eq_some hartist
  obtain ⟨-, rfl⟩ := createChildren_eq_some hcredit
  obtain ⟨-, rfl⟩ := createChildren_eq_some hlanguage
  obtain ⟨-, rfl⟩ := createChildren_eq_some htitle
  obtain ⟨-, rfl⟩ := createChildren_eq_some hrelation
  obtain ⟨rfl, rfl⟩ := Prod.mk.inj (Option.some.inj heq)
  exact ⟨rfl, rfl⟩

theorem stored_createHistory (hwf : Wf db) (h : createHistory db data = some (db', historyId)) :
    stored db' historyId = some (content data) := by
  obtain ⟨rfl, rfl⟩ := createHistory_eq_some h
  have hfresh : hasHistory db db.songs.history.next = false := Table.has_next
  simp [stored, content, Table.findById_insertAll_next,
    items_eq_nil hwf.artistHistory hfresh, items_eq_nil hwf.creditHistory hfresh,
    items_eq_nil hwf.languageHistory hfresh, items_eq_nil hwf.localizedTitleHistory hfresh,
    items_eq_nil hwf.relationHistory hfresh]

/-- The rows of an approval: of a relation with the song itself there can be none. -/
theorem updateRelations_eq (hwf : Wf db) (hid : db.hasSong id) :
    updateRelations db id historyId =
      if ∀ r ∈ db.songs.relationHistory.items historyId, r.relatedSongId ≠ id then
        some ((db.songs.relation.deleteWhere (involves id)).insertAll
          ((db.songs.relationHistory.items historyId).map (relationRow id)))
      else none := by
  have hcheck : ∀ r ∈ db.songs.relationHistory.items historyId,
      ((relationConstraints db).check (relationRow id r) ↔ r.relatedSongId ≠ id) := by
    intro r hr
    have hitem := (check_of_satisfies hwf.relationHistory hr).2
    simp only [relationHistorySchema, Bool.and_eq_true] at hitem
    by_cases hlt : id < r.relatedSongId
    · simp [relationConstraints, relationRow, normalizeSongRelationPair, hlt, hitem, hid, hlt.ne']
    · have hiff : r.relatedSongId < id ↔ r.relatedSongId ≠ id := by
        constructor
        · exact ne_of_lt
        · intro hne
          exact lt_of_le_of_ne (not_lt.mp hlt) hne
      simp [relationConstraints, relationRow, normalizeSongRelationPair, hlt, hitem, hid, hiff]
  unfold updateRelations
  rw [createRelations_eq]
  exact if_congr (forall₂_congr hcheck) rfl rfl

theorem applyHistory_eq_some (h : applyHistory db id historyId history = some db') :
    (∀ r ∈ db.songs.relationHistory.items historyId,
        (relationConstraints db).check (relationRow id r)) ∧
      db' = { db with songs := { db.songs with
        song := db.songs.song.set id history
        artist := (db.songs.artist.disown id).adopt id (db.songs.artistHistory.items historyId)
        credit := (db.songs.credit.disown id).adopt id (db.songs.creditHistory.items historyId)
        language := (db.songs.language.disown id).adopt id
          (db.songs.languageHistory.items historyId)
        localizedTitle := (db.songs.localizedTitle.disown id).adopt id
          (db.songs.localizedTitleHistory.items historyId)
        relation := (db.songs.relation.deleteWhere (involves id)).insertAll
          ((db.songs.relationHistory.items historyId).map (relationRow id)) } } := by
  simp only [applyHistory, Option.bind_eq_bind, Option.bind_eq_some_iff] at h
  obtain ⟨song, hsong, artist, hartist, credit, hcredit, language, hlanguage, title, htitle,
    relation, hrelation, heq⟩ := h
  obtain ⟨-, -, rfl⟩ := Table.updateById_eq_some hsong
  obtain ⟨-, rfl⟩ := createChildren_eq_some hartist
  obtain ⟨-, rfl⟩ := createChildren_eq_some hcredit
  obtain ⟨-, rfl⟩ := createChildren_eq_some hlanguage
  obtain ⟨-, rfl⟩ := createChildren_eq_some htitle
  obtain ⟨hcheck, rfl⟩ := createRelations_eq_some hrelation
  exact ⟨hcheck, (Option.some.inj heq).symm⟩

/-- An approval gives the song the content of the history, unless that relates it to itself. -/
theorem applyHistory_eq (hwf : Wf db) (hid : db.hasSong id) (hc : stored db historyId = some c)
    (hh : db.songs.history.findById historyId = some history) :
    if ∀ r ∈ c.relations, r.relatedSongId ≠ id then
      ∃ db', applyHistory db id historyId history = some db' ∧ live db' id = some c
    else applyHistory db id historyId history = none := by
  have hupdate : db.songs.song.updateById .free id history = some (db.songs.song.set id history) :=
    Table.updateById_free hid
  have hartist := updateChildren_eq_some historyId hwf.artist hwf.artistHistory
    (fun hu => hu) hid (fun _ hi => hi)
  have hcredit := updateChildren_eq_some historyId hwf.credit hwf.creditHistory
    (fun hu => hu) hid (fun _ hi => hi)
  have hlanguage := updateChildren_eq_some historyId hwf.language hwf.languageHistory
    (fun hu => hu) hid (fun _ hi => hi)
  have htitle := updateChildren_eq_some historyId hwf.localizedTitle hwf.localizedTitleHistory
    (fun hu => hu) hid (fun _ hi => hi)
  unfold stored at hc
  rw [hh] at hc
  obtain rfl := Option.some.inj hc
  unfold applyHistory
  simp only [hupdate, hartist, hcredit, hlanguage, htitle, updateRelations_eq hwf hid,
    Option.bind_eq_bind, Option.bind_some, Multiset.mem_coe]
  split
  · refine ⟨_, rfl, ?_⟩
    simp [live, Table.findById_set hid]
  · rfl

/-- `applyHistory_eq` for the newest revision of a correction. -/
theorem live_applyUpdate {revisions : List CorrectionRevision} {correction : Correction}
    {revision : CorrectionRevision} (hwf : Wf db)
    (hnewest : findRevision revisions correction.id = some revision)
    (hid : db.hasSong correction.entityId)
    (hc : stored db revision.entityHistoryId = some c) :
    if ∀ r ∈ c.relations, r.relatedSongId ≠ correction.entityId then
      ∃ db', applyUpdate db revisions correction = some db' ∧
        live db' correction.entityId = some c
    else applyUpdate db revisions correction = none := by
  obtain ⟨history, hhistory, -⟩ := Option.map_eq_some_iff.mp hc
  have hupdate : applyUpdate db revisions correction =
      applyHistory db correction.entityId revision.entityHistoryId history := by
    unfold applyUpdate
    rw [revisedHistory_eq hnewest, hhistory]
    rfl
  rw [hupdate]
  exact applyHistory_eq hwf hid hc hhistory

end Specs

end Song

end Thcdb.Catalog
