import Thcdb.Catalog.TrackArtists

namespace Thcdb.Catalog

/-- The identities in the input are of rows that exist. -/
structure NewRelease.Refers (data : NewRelease) (db : Database) : Prop where
  artist : ∀ id ∈ data.artists, db.hasArtist id
  label : ∀ number ∈ data.catalogNums, number.labelId.all db.hasLabel
  credit : ∀ credit ∈ data.credits, db.hasArtist credit.artistId && db.hasCreditRole credit.roleId
  event : ∀ id ∈ data.events, db.hasEvent id
  language : ∀ title ∈ data.localizedTitles, db.hasLanguage title.languageId
  song : ∀ track ∈ data.tracks, db.hasSong track.songId
  trackArtist : ∀ track ∈ data.tracks, ∀ id ∈ track.artists, db.hasArtist id

/-- Nothing is given twice that the tables keep once. -/
def NewRelease.Distinct (data : NewRelease) : Prop :=
  data.artists.Nodup ∧ data.events.Nodup ∧ data.localizedTitles.Nodup

namespace Release
open Relational

section Creation
variable {db db' : Database} {data : NewRelease} {id : ℤ}

def inserted (db : Database) (data : NewRelease) : Database :=
  { db with releases := { db.releases with
    release := db.releases.release.insertAll [data.columns] } }

/-- One more release breaks no constraint. -/
theorem Wf.inserted (hwf : Wf db) : Wf (inserted db data) :=
  have hrelease : ∀ i, db.releases.release.has i →
      (db.releases.release.insertAll [data.columns]).has i := fun _ hi => Table.has_insertAll hi
  { hwf with
    artist := hwf.artist.of_check rfl hrelease fun _ _ hi => hi
    catalogNumber := hwf.catalogNumber.of_check rfl hrelease fun _ _ hi => hi
    credit := hwf.credit.of_check rfl hrelease fun _ _ hi => hi
    event := hwf.event.of_check rfl hrelease fun _ _ hi => hi
    localizedTitle := hwf.localizedTitle.of_check rfl hrelease fun _ _ hi => hi
    disc := hwf.disc.of_check rfl hrelease fun _ _ hi => hi
    track := hwf.track.of_check rfl hrelease fun _ _ hi => hi }

section Writers
variable {S : ChildSchema (Option String)} {T : ChildSchema DiscTrack}
  {discTable : Table (Owned (Option String))} {trackTable : Table (Owned DiscTrack)}
  {owner n : ℤ} {discs : List NewDisc} {tracks : List NewTrack}

theorem createDiscs_eq : createDiscs S discTable owner discs =
    (createChildren S discTable owner (discs.map NewDisc.name)).map fun t =>
      (t, numbered discTable.next (discs.map fun disc => ⟨owner, disc.name⟩)) := by
  cases discs with
  | nil => rfl
  | cons disc discs =>
    simp [createDiscs, createChildren, Table.insertManyReturning, Function.comp_def]

/-- Where every track has its disc, the tracks are children like others. -/
theorem createTracks_eq (hdisc : ∀ t ∈ tracks, t.discIndex.toNat < discs.length) :
    createTracks T trackTable owner tracks
      (numbered n (discs.map fun disc => ⟨owner, disc.name⟩)) =
      createChildren T trackTable owner (tracks.map fun t =>
        ⟨t.columns, n + t.discIndex.toNat⟩) := by
  have hmodels : tracks.mapM (fun track => (numbered n (discs.map fun disc =>
      (⟨owner, disc.name⟩ : Owned (Option String))))[track.discIndex.toNat]?.map fun disc =>
        (⟨owner, ⟨track.columns, disc.id⟩⟩ : Owned DiscTrack)) =
      some (tracks.map fun track => ⟨owner, ⟨track.columns, n + track.discIndex.toNat⟩⟩) := by
    refine mapM_eq_map fun track htrack => ?_
    simp [getElem?_numbered, List.getElem?_eq_getElem (hdisc track htrack)]
  unfold createTracks createChildren
  rw [hmodels]
  simp [Function.comp_def]

end Writers

/-- A validated track names a disc of its release. -/
theorem discIndex_lt_of_validate (hvalid : data.validate = []) {t : NewTrack}
    (ht : t ∈ data.tracks) : t.discIndex.toNat < data.discs.length := by
  rw [NewRelease.validate, List.append_eq_nil_iff, Option.toList_eq_nil_iff,
    NewRelease.isValidTrackList, Option.map_eq_none_iff, List.find?_eq_none] at hvalid
  obtain ⟨i, hi⟩ := List.mem_iff_getElem?.mp ht
  have hfound := hvalid.2 (t, i) (List.mk_mem_zipIdx_iff_getElem?.mpr hi)
  simpa using hfound

/-- More discs do no harm to the tracks. -/
theorem satisfies_trackSchema (hwf : Wf db) (owner : ℤ) (discs : List (Option String)) :
    db.releases.track.Satisfies
      (trackSchema db (db.releases.disc.adopt owner discs)).constraints := by
  refine hwf.track.of_check rfl (fun _ ho => ho) fun _ t ht => ?_
  rw [trackSchema, Bool.and_eq_true] at ht ⊢
  exact ⟨ht.1, Table.has_insertAll ht.2⟩

theorem wf_create (hwf : Wf db) (h : create db data = some (db', id)) : Wf db' := by
  simp only [create, Option.bind_eq_bind, Option.bind_eq_some_iff, Prod.exists] at h
  obtain ⟨release, i, hrelease, artist, hartist, number, hnumber, credit, hcredit, event, hevent,
    title, htitle, disc, discs, hrows, track, htrack, heq⟩ := h
  obtain ⟨-, rfl, rfl⟩ := Table.insert_eq_some hrelease
  have hgrown : Wf (inserted db data) := hwf.inserted
  rw [createDiscs_eq] at hrows
  obtain ⟨table, hdisc, hpair⟩ := Option.map_eq_some_iff.mp hrows
  obtain ⟨rfl, rfl⟩ := Prod.mk.inj hpair
  obtain ⟨hindex, -⟩ := createTracks_eq_some htrack
  rw [createTracks_eq hindex] at htrack
  obtain ⟨-, rfl⟩ := createChildren_eq_some hdisc
  obtain ⟨-, hadoptedTracks⟩ := createChildren_eq_some htrack
  obtain ⟨rfl, rfl⟩ := Prod.mk.inj (Option.some.inj heq)
  exact { hgrown with
    artist := hgrown.artist.createChildren hartist
    catalogNumber := hgrown.catalogNumber.createChildren hnumber
    credit := hgrown.credit.createChildren hcredit
    event := hgrown.event.createChildren hevent
    localizedTitle := hgrown.localizedTitle.createChildren htitle
    disc := hgrown.disc.createChildren hdisc
    track := (satisfies_trackSchema hgrown _ _).createChildren htrack
    trackArtist := hgrown.trackArtist.of_check rfl
      (fun _ ho => hadoptedTracks ▸ Table.has_insertAll ho) fun _ _ hi => hi }

/-- What was stored was given once. -/
theorem distinct_of_create (hwf : Wf db) (h : create db data = some (db', id)) :
    data.Distinct := by
  have hstored := wf_create hwf h
  obtain ⟨rfl, -, rfl⟩ := create_eq_some h
  have hfresh : hasRelease db db.releases.release.next = false := Table.has_next
  refine ⟨?_, ?_, ?_⟩
  · rw [← items_adopt_of_fresh hwf.artist hfresh data.artists]
    exact nodup_of_satisfies hstored.artist rfl
  · rw [← items_adopt_of_fresh hwf.event hfresh data.events]
    exact nodup_of_satisfies hstored.event rfl
  · rw [← items_adopt_of_fresh hwf.localizedTitle hfresh data.localizedTitles]
    exact nodup_of_satisfies hstored.localizedTitle rfl

/-- A validated input whose references are there is stored when nothing is given twice. -/
theorem create_eq_created (hwf : Wf db) (hvalid : data.validate = []) (href : data.Refers db)
    (hdistinct : data.Distinct) :
    create db data = some (created db data, db.releases.release.next) := by
  obtain ⟨hartists, hevents, htitles⟩ := hdistinct
  have hgrown : Wf (inserted db data) := hwf.inserted
  have hfresh : hasRelease db db.releases.release.next = false := Table.has_next
  have howner : hasRelease (inserted db data) db.releases.release.next :=
    Table.has_iff_findById.mpr ⟨data.columns, Table.findById_insertAll_next⟩
  have hartist := createChildren_eq_adopt hgrown.artist (items_eq_nil hwf.artist hfresh) howner
    href.artist fun _ => hartists
  have hnumber := createChildren_eq_adopt hgrown.catalogNumber
    (items_eq_nil hwf.catalogNumber hfresh) howner href.label (by rintro ⟨⟩)
  have hcredit := createChildren_eq_adopt hgrown.credit (items_eq_nil hwf.credit hfresh) howner
    href.credit (by rintro ⟨⟩)
  have hevent := createChildren_eq_adopt hgrown.event (items_eq_nil hwf.event hfresh) howner
    href.event fun _ => hevents
  have htitle := createChildren_eq_adopt hgrown.localizedTitle
    (items_eq_nil hwf.localizedTitle hfresh) howner href.language fun _ => htitles
  have hdisc : createDiscs (discSchema (inserted db data)) db.releases.disc
      db.releases.release.next data.discs =
        some (db.releases.disc.adopt db.releases.release.next (data.discs.map NewDisc.name),
          numbered db.releases.disc.next
            (data.discs.map fun disc => ⟨db.releases.release.next, disc.name⟩)) := by
    refine createDiscs_eq.trans (congrArg _ (createChildren_eq_adopt hgrown.disc
      (items_eq_nil hwf.disc hfresh) howner (fun _ _ => rfl) ?_))
    rintro ⟨⟩
  have hindex : ∀ t ∈ data.tracks, t.discIndex.toNat < data.discs.length :=
    fun t ht => discIndex_lt_of_validate hvalid ht
  -- the tracks may name the discs that were inserted before them
  have hold := satisfies_trackSchema hgrown db.releases.release.next
    (data.discs.map NewDisc.name)
  have htrack := (createTracks_eq hindex).trans (createChildren_eq_adopt hold
    (items_eq_nil hwf.track hfresh) howner
    (by
      intro track htrack
      obtain ⟨t, ht, rfl⟩ := List.mem_map.mp htrack
      rw [trackSchema, Bool.and_eq_true]
      refine ⟨href.song t ht, has_insertAll_position ?_⟩
      simpa using hindex t ht)
    (by rintro ⟨⟩))
  simp only [create, Option.bind_eq_bind, Option.bind_eq_some_iff, Prod.exists]
  exact ⟨_, _, Table.insert_free, _, hartist, _, hnumber, _, hcredit, _, hevent, _, htitle, _, _,
    hdisc, _, htrack, rfl⟩

end Creation

section Reading

/-- What a track of the input says, and the same of a track that is read. -/
structure TrackContent where
  columns : Track
  disc : ℕ
  artists : List ℤ
  deriving DecidableEq, Repr

def newTrackContent (track : NewTrack) : TrackContent :=
  ⟨track.columns, track.discIndex.toNat, track.artists⟩

/-- The place of a disc among those of its release, in the order of their identities. -/
def Loaded.discPosition (l : Loaded) (discId : ℤ) : ℕ := l.discs.countP fun disc => disc.id < discId

def Loaded.trackContent (l : Loaded) (t : ReleaseTrack) : TrackContent :=
  ⟨⟨t.song.id, t.trackNumber, t.displayTitle, t.duration⟩, l.discPosition t.discId,
    t.artists.map ReleaseArtist.id⟩

/-- What is read is what was given, lists in any order. -/
structure ReadsAs (data : NewRelease) (l : Loaded) : Prop where
  title : l.title = data.title
  releaseType : l.releaseType = data.releaseType
  releaseDate : l.releaseDate = data.releaseDate
  recordingDateStart : l.recordingDateStart = data.recordingDateStart
  recordingDateEnd : l.recordingDateEnd = data.recordingDateEnd
  artists : (l.artists.map ReleaseArtist.id).Perm data.artists
  catalogNums : (l.catalogNums.map fun number =>
    (⟨number.catalogNumber, number.label.map SimpleLabel.id⟩ : CatalogNumber)).Perm data.catalogNums
  credits : (l.credits.map fun credit =>
    (⟨credit.artist.id, credit.role.id, credit.on⟩ : ReleaseCredit)).Perm data.credits
  events : (l.events.map SimpleEvent.id).Perm data.events
  localizedTitles : (l.localizedTitles.map fun title =>
    (⟨title.language.id, title.title⟩ : LocalizedTitle)).Perm data.localizedTitles
  discs : (l.discs.map ReleaseDisc.name).Perm (data.discs.map NewDisc.name)
  tracks : (l.tracks.map l.trackContent).Perm (data.tracks.map newTrackContent)

/-- The release is stored, and reading it back gives the input. -/
def RoundTrips (db : Database) (data : NewRelease) : Prop :=
  ∃ db' id l, create db data = some (db', id) ∧
    findManyImpl db' (rowsIn db'.releases.release [id]) = some [l] ∧ ReadsAs data l

variable {db : Database} {data : NewRelease}

theorem fromOption_precisionOr {date : Option DateWithPrecision} :
    fromOption (date.map DateWithPrecision.value) (precisionOr date) = date := by
  cases date <;> rfl

theorem rowsIn_created :
    rowsIn (created db data).releases.release [db.releases.release.next] =
      [⟨db.releases.release.next, data.columns⟩] := by
  have hold : ∀ r ∈ db.releases.release.rows, ¬r.id = db.releases.release.next :=
    fun r hr => ne_of_lt (db.releases.release.lt_next r hr)
  simpa [rowsIn, created, Table.rows_insertAll, numbered] using hold

/-- The release as it is read after its creation: its tracks have no artists. -/
def readBack (db : Database) (data : NewRelease) : Loaded :=
  assemble (created db data) ⟨db.releases.release.next, data.columns⟩ (data.tracks.map fun _ => [])

theorem itemRows_created (hwf : Wf db) :
    (created db data).releases.track.itemRows db.releases.release.next =
      numbered db.releases.track.next (data.tracks.map fun t =>
        ⟨t.columns, db.releases.disc.next + t.discIndex.toNat⟩) := by
  have hfresh : hasRelease db db.releases.release.next = false := Table.has_next
  rw [created, itemRows_adopt, itemRows_eq_nil (items_eq_nil hwf.track hfresh), List.nil_append]

theorem findManyImpl_created (hwf : Wf db) (hcreated : Wf (created db data)) :
    findManyImpl (created db data) (rowsIn (created db data).releases.release
      [db.releases.release.next]) = some [readBack db data] := by
  have hnone : ∀ r ∈ numbered db.releases.track.next (data.tracks.map fun t =>
      (⟨t.columns, db.releases.disc.next + t.discIndex.toNat⟩ : DiscTrack)),
      (created db data).releases.trackArtist.items r.id = [] := by
    intro r hr
    exact items_eq_nil hwf.trackArtist (Table.has_eq_false (numbered_bounds hr).1)
  have hown : ownArtistIds (created db data) ⟨db.releases.release.next, data.columns⟩ =
      data.tracks.map fun _ => [] := by
    rw [ownArtistIds, itemRows_created hwf, List.map_congr_left hnone, List.map_const',
      List.map_const', numbered_length, List.length_map]
  rw [rowsIn_created, findManyImpl_singleton hcreated, hown, readBack]

theorem tracks_readBack (hwf : Wf db) : (readBack db data).tracks = data.tracks.mapIdx fun i t =>
    trackOf (created db data) ⟨db.releases.track.next + i,
      ⟨t.columns, db.releases.disc.next + t.discIndex.toNat⟩⟩ [] := by
  have htracks : (readBack db data).tracks = (((created db data).releases.track.itemRows
      db.releases.release.next).zip (data.tracks.map fun _ => [])).map fun p =>
        trackOf (created db data) p.1 p.2 := rfl
  rw [htracks, itemRows_created hwf, numbered_eq_mapIdx]
  refine List.ext_getElem (by simp) fun i h₁ h₂ => ?_
  simp

theorem discPosition_readBack (hwf : Wf db) {k : ℕ} (h : k ≤ data.discs.length) :
    (readBack db data).discPosition (db.releases.disc.next + k) = k := by
  have hfresh : hasRelease db db.releases.release.next = false := Table.has_next
  have hdiscs : (readBack db data).discs = ((created db data).releases.disc.itemRows
      db.releases.release.next).map fun disc => ⟨disc.id, disc.cols⟩ := rfl
  rw [Loaded.discPosition, hdiscs, created, itemRows_adopt,
    itemRows_eq_nil (items_eq_nil hwf.disc hfresh), List.nil_append, List.countP_map]
  exact countP_numbered (by simpa using h)

/-- All but the artists of the tracks is read as it was given. -/
theorem readsAs_readBack_iff (hwf : Wf db) (hvalid : data.validate = []) :
    ReadsAs data (readBack db data) ↔ ∀ t ∈ data.tracks, t.artists = [] := by
  have hfresh : hasRelease db db.releases.release.next = false := Table.has_next
  -- a track comes back on the disc that its index named, and without artists
  have htracks : (readBack db data).tracks.map (readBack db data).trackContent =
      data.tracks.map fun t => ⟨t.columns, t.discIndex.toNat, []⟩ := by
    rw [tracks_readBack hwf]
    refine List.ext_getElem (by simp) fun i h₁ h₂ => ?_
    have hi : i < data.tracks.length := by simpa using h₂
    have hlt : data.tracks[i].discIndex.toNat ≤ data.discs.length :=
      (discIndex_lt_of_validate hvalid (List.getElem_mem hi)).le
    simp [Loaded.trackContent, trackOf, discPosition_readBack hwf hlt, songRef, NewTrack.columns]
  constructor
  · intro h t ht
    have hmem : newTrackContent t ∈ (readBack db data).tracks.map (readBack db data).trackContent :=
      h.tracks.mem_iff.mpr (List.mem_map_of_mem ht)
    rw [htracks] at hmem
    obtain ⟨u, _, heq⟩ := List.mem_map.mp hmem
    exact (congrArg TrackContent.artists heq).symm
  · intro hnone
    have hartists : (created db data).releases.artist.items db.releases.release.next =
        data.artists :=
      items_adopt_of_fresh hwf.artist hfresh _
    have hnumbers : (created db data).releases.catalogNumber.items db.releases.release.next =
        data.catalogNums :=
      items_adopt_of_fresh hwf.catalogNumber hfresh _
    have hcredits : (created db data).releases.credit.items db.releases.release.next =
        data.credits :=
      items_adopt_of_fresh hwf.credit hfresh _
    have hevents : (created db data).releases.event.items db.releases.release.next =
        data.events :=
      items_adopt_of_fresh hwf.event hfresh _
    have htitles : (created db data).releases.localizedTitle.items db.releases.release.next =
        data.localizedTitles :=
      items_adopt_of_fresh hwf.localizedTitle hfresh _
    have hdiscs : (created db data).releases.disc.items db.releases.release.next =
        data.discs.map NewDisc.name :=
      items_adopt_of_fresh hwf.disc hfresh _
    exact {
      title := rfl
      releaseType := rfl
      releaseDate := fromOption_precisionOr
      recordingDateStart := fromOption_precisionOr
      recordingDateEnd := fromOption_precisionOr
      artists := by
        simp [readBack, assemble, hartists, artistRef, Function.comp_def]
      catalogNums := by
        simp [readBack, assemble, hnumbers, labelRef, Function.comp_def]
      credits := by
        simp [readBack, assemble, hcredits, artistRef, roleRef, Function.comp_def]
      events := by
        simp [readBack, assemble, hevents, eventRef, Function.comp_def]
      localizedTitles := by
        simp [readBack, assemble, htitles, languageRef, Function.comp_def]
      discs := by
        rw [← hdiscs, ← itemRows_cols]
        simp [readBack, assemble, Function.comp_def]
      tracks := by
        rw [htracks]
        refine List.Perm.of_eq (List.map_congr_left fun t ht => ?_)
        rw [newTrackContent, hnone t ht] }

/-- Creation is undone by reading, but for the artists of tracks, which no writer stores. -/
theorem roundTrips_iff (hwf : Wf db) (hvalid : data.validate = []) (href : data.Refers db) :
    RoundTrips db data ↔ data.Distinct ∧ ∀ t ∈ data.tracks, t.artists = [] := by
  constructor
  · rintro ⟨db', id, l, hcreate, hread, hreads⟩
    have hdistinct := distinct_of_create hwf hcreate
    have hcreated := wf_create hwf hcreate
    obtain ⟨rfl, -, rfl⟩ := create_eq_some hcreate
    rw [findManyImpl_created hwf hcreated] at hread
    obtain rfl := List.singleton_inj.mp (Option.some.inj hread)
    exact ⟨hdistinct, (readsAs_readBack_iff hwf hvalid).mp hreads⟩
  · rintro ⟨hdistinct, hnone⟩
    have hcreate := create_eq_created hwf hvalid href hdistinct
    refine ⟨_, _, _, hcreate, findManyImpl_created hwf (wf_create hwf hcreate), ?_⟩
    exact (readsAs_readBack_iff hwf hvalid).mpr hnone

end Reading

def oneSongOneArtist : Database :=
  let db : Database := default
  let artist : Artist := ⟨"a", .Solo, none, none, none, none, none, .none, .none⟩
  { db with
    songs := { db.songs with song := db.songs.song.insertAll [⟨"s"⟩] }
    artists := { db.artists with artist := db.artists.artist.insertAll [artist] } }

def oneTrackBy (artists : List ℤ) : NewRelease where
  title := "t"
  releaseType := .Single
  releaseDate := none
  recordingDateStart := none
  recordingDateEnd := none
  artists := [1]
  catalogNums := []
  credits := []
  discs := [⟨none⟩]
  events := []
  localizedTitles := []
  tracks := [⟨1, none, none, none, 0, artists⟩]

theorem roundTrips_one_track : RoundTrips oneSongOneArtist (oneTrackBy []) := by
  have hwf : Wf oneSongOneArtist := by constructor <;> decide
  have href : (oneTrackBy []).Refers oneSongOneArtist := by constructor <;> decide
  refine (roundTrips_iff hwf (by decide) href).mpr ?_
  exact ⟨⟨by decide, by decide, by decide⟩, by decide⟩

/-- The artist of the track is lost without an error. -/
theorem roundTrips_track_artist : ¬∀ db data, Wf db → data.validate = [] → data.Refers db →
    RoundTrips db data := by
  intro hclaim
  have hwf : Wf oneSongOneArtist := by constructor <;> decide
  have hvalid : (oneTrackBy [1]).validate = [] := by decide
  have href : (oneTrackBy [1]).Refers oneSongOneArtist := by constructor <;> decide
  obtain ⟨db', id, l, hcreate, hread, hreads⟩ := hclaim _ _ hwf hvalid href
  have hcreated := wf_create hwf hcreate
  obtain ⟨rfl, -, rfl⟩ := create_eq_some hcreate
  rw [findManyImpl_created hwf hcreated] at hread
  obtain rfl := List.singleton_inj.mp (Option.some.inj hread)
  have hnone := (readsAs_readBack_iff hwf hvalid).mp hreads
  revert hnone
  decide

end Release

end Thcdb.Catalog
