import Mathlib.Data.Sym.Sym2
import Mathlib.Data.List.Sort
import Thcdb.Catalog.Song

namespace Thcdb.Catalog
open Corrections Relational

structure SongRef where
  id : ℤ
  title : String
  deriving DecidableEq, Repr

structure SimpleArtist where
  id : ℤ
  name : String
  deriving DecidableEq, Repr

structure SongRelationType where
  id : ℤ
  name : String
  deriving DecidableEq, Repr

structure ShownSongRelation where
  song : SongRef
  artist : Option SimpleArtist
  type : SongRelationType
  description : String
  deriving DecidableEq, Repr

/-- The input that would give the relation. -/
def ShownSongRelation.toNew (r : ShownSongRelation) : NewSongRelation :=
  ⟨r.song.id, r.type.id, r.description⟩

namespace Song

variable (db : Database)

/-- `load_relation_artists`, for one song: its first artist. -/
def loadRelationArtist (songId : ℤ) : Option SimpleArtist := do
  let artistId ← ((db.songs.artist.items songId).insertionSort (· ≤ ·)).head?
  let artist ← db.artists.artist.findById artistId
  return ⟨artistId, artist.name⟩

/-- One turn of `build_song_relations`. -/
def buildSongRelation (songId : ℤ) (relation : SongRelation) : Option ShownSongRelation := do
  let related := relatedSongId songId relation
  let song ← db.songs.song.findById related
  let relationType ← db.songRelationTypes.findById relation.relationTypeId
  return {
    song := ⟨related, song.title⟩
    artist := loadRelationArtist db related
    type := ⟨relation.relationTypeId, relationType⟩
    description := relation.description }

/-- `order_by_asc(FirstId).order_by_asc(SecondId)` -/
def pairLe (c d : SongRelation) : Prop :=
  c.firstId < d.firstId ∨ (c.firstId = d.firstId ∧ c.secondId ≤ d.secondId)

instance : DecidableRel pairLe := fun c d => by
  unfold pairLe
  infer_instance

def loadSongRelations (songId : ℤ) : List ShownSongRelation :=
  ((db.songs.relation.cols.filter (involves songId)).insertionSort pairLe).filterMap
    (buildSongRelation db songId)

/-- The database, and what was submitted for songs: the song, the history and the input. -/
structure Site where
  db : Database
  submitted : List (ℤ × ℤ × NewSong)

/-- The transactions on songs. Creations and approvals are labelled with the song and the input they
store. The correction of a creation can be approved like any other. -/
inductive Step : Site → Option (ℤ × NewSong) → Site → Prop
  | create {db db₁ db₂ : Database} {submitted : List (ℤ × ℤ × NewSong)} {data : NewSong}
      {id historyId : ℤ} (hvalid : data.validate none = .ok ())
      (hcreate : create db data = some (db₁, id))
      (hhistory : createHistory db₁ data = some (db₂, historyId)) :
      Step ⟨db, submitted⟩ (some (id, data)) ⟨db₂, (id, historyId, data) :: submitted⟩
  | upsertCorrection {db db' : Database} {submitted : List (ℤ × ℤ × NewSong)} {data : NewSong}
      {id historyId : ℤ} (hvalid : data.validate (some id) = .ok ())
      (hhistory : createHistory db data = some (db', historyId)) :
      Step ⟨db, submitted⟩ none ⟨db', (id, historyId, data) :: submitted⟩
  | approve {db db' : Database} {submitted : List (ℤ × ℤ × NewSong)} {data : NewSong}
      {revisions : List CorrectionRevision} {correction : Correction}
      {revision : CorrectionRevision}
      (hnewest : findRevision revisions correction.id = some revision)
      (hsubmitted : (correction.entityId, revision.entityHistoryId, data) ∈ submitted)
      (hupdate : applyUpdate db revisions correction = some db') :
      Step ⟨db, submitted⟩ (some (correction.entityId, data)) ⟨db', submitted⟩

/-- What transactions on songs make of a database without songs. -/
inductive Reachable : Site → Prop
  | init {db : Database} (h : db.songs = default) : Reachable ⟨db, []⟩
  | step {s s' : Site} {label : Option (ℤ × NewSong)} (h : Reachable s) (hs : Step s label s') :
      Reachable s'

/-- One row for each unordered pair of songs, the smaller first. -/
structure OneRowPerPair (t : Table SongRelation) : Prop where
  unique : ∀ r ∈ t.rows, ∀ q ∈ t.rows,
    s(r.cols.firstId, r.cols.secondId) = s(q.cols.firstId, q.cols.secondId) → r = q
  ordered : ∀ r ∈ t.rows, r.cols.firstId < r.cols.secondId

/-- What the pages show once the relations of a song were written. -/
structure Shows (before after : Database) (songId : ℤ) (relations : List NewSongRelation) :
    Prop where
  own : ((loadSongRelations after songId).map ShownSongRelation.toNew).Perm relations
  others : ∀ other, other ≠ songId → ∀ typeId description,
    ⟨songId, typeId, description⟩ ∈ (loadSongRelations after other).map ShownSongRelation.toNew ↔
      ⟨other, typeId, description⟩ ∈ relations
  rest : after.songs.relation.rows.filter (fun r => !involves songId r.cols) =
    before.songs.relation.rows.filter fun r => !involves songId r.cols

section Read

variable {db : Database} {songId : ℤ} {c : SongRelation}

theorem buildSongRelation_isSome (h : (relationConstraints db).check c) :
    ∃ r, buildSongRelation db songId c = some r ∧ r.toNew = seenFrom songId c := by
  simp only [relationConstraints, Bool.and_eq_true, decide_eq_true_eq] at h
  obtain ⟨⟨⟨-, hfirst⟩, hsecond⟩, htype⟩ := h
  have hrelated : db.hasSong (relatedSongId songId c) := by
    unfold relatedSongId
    split
    · exact hsecond
    · exact hfirst
  obtain ⟨song, hsong⟩ := Table.has_iff_findById.mp hrelated
  obtain ⟨relationType, htype⟩ := Table.has_iff_findById.mp htype
  refine ⟨⟨⟨relatedSongId songId c, song.title⟩, loadRelationArtist db (relatedSongId songId c),
    ⟨c.relationTypeId, relationType⟩, c.description⟩, ?_, rfl⟩
  simp [buildSongRelation, hsong, htype]

theorem build_toNew {l : List SongRelation}
    (h : ∀ c ∈ l, (relationConstraints db).check c) :
    (l.filterMap (buildSongRelation db songId)).map ShownSongRelation.toNew =
      l.map (seenFrom songId) := by
  induction l with
  | nil => rfl
  | cons c l ih =>
    obtain ⟨r, hr, hnew⟩ := buildSongRelation_isSome (h c List.mem_cons_self)
    rw [List.filterMap_cons_some hr, List.map_cons, List.map_cons, hnew,
      ih fun d hd => h d (List.mem_cons_of_mem _ hd)]

/-- Nothing is lost on the page: every row finds its song and its type. -/
theorem loadSongRelations_perm (h : db.songs.relation.Satisfies (relationConstraints db)) :
    ((loadSongRelations db songId).map ShownSongRelation.toNew).Perm
      (relationsOf db.songs.relation songId) := by
  have hperm := List.perm_insertionSort pairLe (db.songs.relation.cols.filter (involves songId))
  unfold loadSongRelations relationsOf
  rw [build_toNew]
  · exact hperm.map _
  · intro c hc
    exact h.1 c (List.mem_filter.mp (hperm.mem_iff.mp hc)).1

end Read

section Write

variable {t : Table SongRelation} {songId other : ℤ} {relations : List NewSongRelation}
  {r : NewSongRelation} {c : SongRelation}

def replaceRelations (t : Table SongRelation) (songId : ℤ) (relations : List NewSongRelation) :
    Table SongRelation :=
  (t.deleteWhere (involves songId)).insertAll (relations.map (relationRow songId))

theorem involves_relationRow_of_ne (h : other ≠ songId) :
    involves other (relationRow songId r) ↔ r.relatedSongId = other := by
  unfold involves relationRow normalizeSongRelationPair
  split <;> simp [h.symm]

theorem seenFrom_relationRow_related :
    seenFrom r.relatedSongId (relationRow songId r) =
      ⟨songId, r.relationTypeId, r.description⟩ := by
  unfold seenFrom relatedSongId relationRow normalizeSongRelationPair
  split
  · next hlt => simp [hlt.ne]
  · simp

theorem involves_of_relatedSongId (h : relatedSongId other c = songId) : involves songId c := by
  unfold relatedSongId at h
  unfold involves
  split at h <;> simp [h]

theorem mem_relationsOf_replaceRelations (h : other ≠ songId) {typeId : ℤ} {description : String} :
    ⟨songId, typeId, description⟩ ∈ relationsOf (replaceRelations t songId relations) other ↔
      ⟨other, typeId, description⟩ ∈ relations := by
  unfold relationsOf replaceRelations
  rw [Table.cols_insertAll, Table.cols_deleteWhere, List.filter_append, List.map_append,
    List.mem_append]
  constructor
  · rintro (hold | hnew)
    · obtain ⟨c, hc, hseen⟩ := List.mem_map.mp hold
      have hkept := (List.mem_filter.mp (List.mem_filter.mp hc).1).2
      have hinv := involves_of_relatedSongId (congrArg NewSongRelation.relatedSongId hseen)
      rw [hinv] at hkept
      cases hkept
    · obtain ⟨c, hc, hseen⟩ := List.mem_map.mp hnew
      obtain ⟨hc, hinv⟩ := List.mem_filter.mp hc
      obtain ⟨r, hr, rfl⟩ := List.mem_map.mp hc
      obtain rfl := (involves_relationRow_of_ne h).mp hinv
      rw [seenFrom_relationRow_related] at hseen
      obtain ⟨-, rfl, rfl⟩ := NewSongRelation.mk.inj hseen
      exact hr
  · intro hr
    refine Or.inr (List.mem_map.mpr ⟨_, List.mem_filter.mpr ⟨List.mem_map_of_mem hr, ?_⟩, ?_⟩)
    · exact (involves_relationRow_of_ne h).mpr rfl
    · exact seenFrom_relationRow_related

theorem replaceRelations_rest :
    (replaceRelations t songId relations).rows.filter (fun r => !involves songId r.cols) =
      t.rows.filter fun r => !involves songId r.cols := by
  have hnew : (numbered t.next (relations.map (relationRow songId))).filter
      (fun r => !involves songId r.cols) = [] := by
    rw [List.filter_eq_nil_iff]
    intro r hr
    have hcols : r.cols ∈ relations.map (relationRow songId) := by
      have hmem := List.mem_map_of_mem (f := Row.cols) hr
      rwa [numbered_cols] at hmem
    obtain ⟨relation, -, hrow⟩ := List.mem_map.mp hcols
    simp [← hrow]
  show (List.filter _ t.rows ++ numbered t.next _).filter _ = _
  rw [List.filter_append, hnew, List.append_nil, List.filter_filter]
  simp

def pair (c : SongRelation) : ℤ × ℤ := (c.firstId, c.secondId)

/-- The pair of a row says who is related, from either side. -/
theorem relatedSongId_of_pair {c d : SongRelation} (h : pair c = pair d) :
    relatedSongId songId c = relatedSongId songId d := by
  obtain ⟨hfirst, hsecond⟩ := Prod.mk.inj h
  unfold relatedSongId
  rw [hfirst, hsecond]

theorem involves_of_pair {c d : SongRelation} (h : pair c = pair d) :
    involves songId c = involves songId d := by
  obtain ⟨hfirst, hsecond⟩ := Prod.mk.inj h
  unfold involves
  rw [hfirst, hsecond]

/-- Songs that are related once keep their pairs apart. -/
theorem replaceRelations_pairs (h : t.cols.Pairwise fun c d => pair c ≠ pair d)
    (hr : (relations.map NewSongRelation.relatedSongId).Nodup) :
    (replaceRelations t songId relations).cols.Pairwise fun c d => pair c ≠ pair d := by
  unfold replaceRelations
  rw [Table.cols_insertAll, Table.cols_deleteWhere, List.pairwise_append]
  refine ⟨h.sublist List.filter_sublist, ?_, ?_⟩
  · rw [List.Nodup, List.pairwise_map] at hr
    rw [List.pairwise_map]
    refine hr.imp ?_
    intro r q hne hpair
    have hrelated : relatedSongId songId (relationRow songId r) =
        relatedSongId songId (relationRow songId q) := relatedSongId_of_pair hpair
    have hseen : ∀ r, relatedSongId songId (relationRow songId r) = r.relatedSongId := fun r =>
      congrArg NewSongRelation.relatedSongId seenFrom_relationRow
    rw [hseen, hseen] at hrelated
    exact hne hrelated
  · intro c hc d hd hpair
    obtain ⟨r, -, rfl⟩ := List.mem_map.mp hd
    have hkept := (List.mem_filter.mp hc).2
    rw [involves_of_pair hpair, involves_relationRow] at hkept
    cases hkept

end Write

section Validate

variable {data : NewSong} {songId : Option ℤ} {met : List ℤ} {relations : List NewSongRelation}

theorem validateRelations_ok (h : NewSong.validateRelations songId met relations = .ok ()) :
    (relations.map NewSongRelation.relatedSongId).Nodup ∧
      ∀ r ∈ relations, r.relatedSongId ∉ met := by
  induction relations generalizing met with
  | nil => simp
  | cons r relations ih =>
    unfold NewSong.validateRelations at h
    split at h
    · cases h
    · split at h
      · cases h
      · next hmet =>
        obtain ⟨hnodup, hapart⟩ := ih h
        refine ⟨List.nodup_cons.mpr ⟨?_, hnodup⟩, ?_⟩
        · intro hmem
          obtain ⟨q, hq, heq⟩ := List.mem_map.mp hmem
          exact hapart q hq (heq ▸ List.mem_cons_self)
        · intro q hq
          rcases List.mem_cons.mp hq with rfl | hq
          · exact hmet
          · exact fun hmem => hapart q hq (List.mem_cons_of_mem _ hmem)

theorem related_nodup (h : data.validate songId = .ok ()) :
    ((data.relations.getD []).map NewSongRelation.relatedSongId).Nodup := by
  unfold NewSong.validate at h
  split at h
  · next hnone => simp [hnone]
  · next relations hsome =>
    rw [hsome]
    exact (validateRelations_ok h).1

end Validate

section Run

/-- What the transactions keep true of the relations and of the submitted histories. -/
structure Inv (db : Database) (submitted : List (ℤ × ℤ × NewSong)) : Prop where
  relation : db.songs.relation.Satisfies (relationConstraints db)
  pairs : db.songs.relation.cols.Pairwise fun c d => pair c ≠ pair d
  owners : ∀ c ∈ db.songs.relationHistory.cols, c.owner < db.songs.history.next
  submitted : ∀ p ∈ submitted, p.2.1 < db.songs.history.next ∧
    db.songs.relationHistory.items p.2.1 = p.2.2.relations.getD [] ∧
    ((p.2.2.relations.getD []).map NewSongRelation.relatedSongId).Nodup

variable {db db' : Database} {data : NewSong} {id historyId : ℤ}
  {submitted : List (ℤ × ℤ × NewSong)}

theorem Inv.init (h : db.songs = default) : Inv db [] := by
  refine ⟨?_, ?_, ?_, ?_⟩
  · rw [h]
    exact Table.satisfies_empty
  · rw [h]
    exact List.Pairwise.nil
  · rw [h]
    intro c hc
    cases hc
  · intro p hp
    cases hp

theorem Inv.createHistory (hinv : Inv db submitted)
    (hnodup : ((data.relations.getD []).map NewSongRelation.relatedSongId).Nodup)
    (h : createHistory db data = some (db', historyId)) :
    Inv db' ((id, historyId, data) :: submitted) := by
  obtain ⟨rfl, rfl⟩ := createHistory_eq_some h
  have hlt : db.songs.history.next < (db.songs.history.insertAll [⟨data.title⟩]).next :=
    Int.lt_succ _
  refine ⟨hinv.relation, hinv.pairs, ?_, ?_⟩
  · intro c hc
    rcases mem_cols_adopt.mp hc with hc | ⟨i, -, rfl⟩
    · exact lt_trans (hinv.owners c hc) hlt
    · exact hlt
  · intro p hp
    rcases List.mem_cons.mp hp with rfl | hp
    · refine ⟨hlt, ?_, hnodup⟩
      rw [items_adopt, items_eq_nil_of_lt hinv.owners, List.nil_append]
    · obtain ⟨hp1, hp2, hp3⟩ := hinv.submitted p hp
      refine ⟨lt_trans hp1 hlt, ?_, hp3⟩
      rw [items_adopt_of_ne (ne_of_lt hp1)]
      exact hp2

theorem satisfies_replaceRelations {t : Table SongRelation} {relations : List NewSongRelation}
    (h : t.Satisfies (relationConstraints db))
    (hcheck : ∀ r ∈ relations, (relationConstraints db).check (relationRow id r)) :
    (replaceRelations t id relations).Satisfies (relationConstraints db) := by
  refine ⟨?_, ?_⟩
  · intro c hc
    rw [replaceRelations, Table.cols_insertAll, List.mem_append] at hc
    rcases hc with hc | hc
    · exact (h.deleteWhere).1 c hc
    · obtain ⟨r, hr, rfl⟩ := List.mem_map.mp hc
      exact hcheck r hr
  · exact List.pairwise_of_forall fun _ _ => rfl

/-- A new song has no relations to delete. -/
theorem deleteWhere_involves {t : Table SongRelation} (h : t.Satisfies (relationConstraints db))
    (hid : db.hasSong id = false) : t.deleteWhere (involves id) = t := by
  apply Table.ext
  · have hnil := relationsOf_eq_nil h hid
    rw [relationsOf, List.map_eq_nil_iff, List.filter_eq_nil_iff] at hnil
    refine List.filter_eq_self.mpr ?_
    intro r hr
    simpa using hnil r.cols (List.mem_map_of_mem hr)
  · rfl

theorem Inv.create (hinv : Inv db submitted) (hvalid : data.validate none = .ok ())
    (h : create db data = some (db', id)) :
    Inv db' submitted ∧ db'.songs.relation =
      replaceRelations db.songs.relation id (data.relations.getD []) := by
  obtain ⟨rfl, hcheck, rfl⟩ := create_eq_some h
  have hdelete := deleteWhere_involves hinv.relation hasSong_next
  have hreplace : db.songs.relation.insertAll
        ((data.relations.getD []).map (relationRow db.songs.song.next)) =
      replaceRelations db.songs.relation db.songs.song.next (data.relations.getD []) := by
    unfold replaceRelations
    rw [hdelete]
  refine ⟨⟨?_, ?_, hinv.owners, hinv.submitted⟩, hreplace⟩
  · show Table.Satisfies (db.songs.relation.insertAll _) _
    rw [hreplace]
    refine satisfies_replaceRelations (hinv.relation.mono ?_ rfl) hcheck
    intro c hc
    simp only [relationConstraints, Bool.and_eq_true] at hc ⊢
    exact ⟨⟨⟨hc.1.1.1, Table.has_insertAll hc.1.1.2⟩, Table.has_insertAll hc.1.2⟩, hc.2⟩
  · show List.Pairwise _ (db.songs.relation.insertAll _).cols
    rw [hreplace]
    exact replaceRelations_pairs hinv.pairs (related_nodup hvalid)

theorem Inv.approve {revisions : List CorrectionRevision} {correction : Correction}
    {revision : CorrectionRevision} (hinv : Inv db submitted)
    (hnewest : findRevision revisions correction.id = some revision)
    (hsubmitted : (correction.entityId, revision.entityHistoryId, data) ∈ submitted)
    (h : applyUpdate db revisions correction = some db') :
    Inv db' submitted ∧ db'.songs.relation =
      replaceRelations db.songs.relation correction.entityId (data.relations.getD []) := by
  obtain ⟨⟨historyId, history⟩, hrevised, happly⟩ := Option.bind_eq_some_iff.mp h
  rw [revisedHistory_eq hnewest] at hrevised
  obtain ⟨row, -, heq⟩ := Option.map_eq_some_iff.mp hrevised
  obtain ⟨rfl, rfl⟩ := Prod.mk.inj heq
  obtain ⟨-, hitems, hnodup⟩ := hinv.submitted _ hsubmitted
  obtain ⟨hcheck, rfl⟩ := applyHistory_eq_some happly
  simp only at hitems
  rw [hitems] at hcheck
  have hreplace : (db.songs.relation.deleteWhere (involves correction.entityId)).insertAll
        ((db.songs.relationHistory.items revision.entityHistoryId).map
          (relationRow correction.entityId)) =
      replaceRelations db.songs.relation correction.entityId (data.relations.getD []) := by
    rw [hitems]
    rfl
  refine ⟨⟨?_, ?_, hinv.owners, hinv.submitted⟩, hreplace⟩
  · show Table.Satisfies (Table.insertAll _ _) _
    rw [hreplace]
    refine (satisfies_replaceRelations hinv.relation hcheck).mono ?_ rfl
    intro c hc
    simpa [relationConstraints, Database.hasSong, Database.hasSongRelationType] using hc
  · show List.Pairwise _ (Table.insertAll _ _).cols
    rw [hreplace]
    exact replaceRelations_pairs hinv.pairs hnodup

theorem Inv.step {s s' : Site} {label : Option (ℤ × NewSong)} (h : Inv s.db s.submitted)
    (hs : Step s label s') : Inv s'.db s'.submitted := by
  cases hs with
  | create hvalid hcreate hhistory =>
    exact (h.create hvalid hcreate).1.createHistory (related_nodup hvalid) hhistory
  | upsertCorrection hvalid hhistory => exact h.createHistory (related_nodup hvalid) hhistory
  | approve hnewest hsubmitted hupdate => exact (h.approve hnewest hsubmitted hupdate).1

theorem Inv.reachable {s : Site} (h : Reachable s) : Inv s.db s.submitted := by
  induction h with
  | init h => exact Inv.init h
  | step h hs ih => exact ih.step hs

theorem Inv.oneRowPerPair (h : Inv db submitted) : OneRowPerPair db.songs.relation := by
  have hordered : ∀ r ∈ db.songs.relation.rows, r.cols.firstId < r.cols.secondId := by
    intro r hr
    have hcheck := h.relation.1 r.cols (List.mem_map_of_mem hr)
    simp only [relationConstraints, Bool.and_eq_true, decide_eq_true_eq] at hcheck
    exact hcheck.1.1.1
  refine ⟨?_, hordered⟩
  intro r hr q hq hpair
  have hrows := h.pairs
  rw [Table.cols, List.pairwise_map] at hrows
  have : Std.Symm fun r q : Row SongRelation => pair r.cols ≠ pair q.cols := ⟨fun _ _ => Ne.symm⟩
  by_contra hne
  have hapart := hrows.forall hr hq hne
  rcases Sym2.eq_iff.mp hpair with ⟨hfirst, hsecond⟩ | ⟨hfirst, hsecond⟩
  · exact hapart (Prod.ext hfirst hsecond)
  · have hlt := hordered r hr
    rw [hfirst, hsecond] at hlt
    exact lt_asymm hlt (hordered q hq)

/-- Once the rows of a song were replaced, all pages agree with the input. -/
theorem shows_of_replaceRelations {before after : Database} {relations : List NewSongRelation}
    (h : after.songs.relation.Satisfies (relationConstraints after))
    (hreplace : after.songs.relation = replaceRelations before.songs.relation id relations) :
    Shows before after id relations := by
  refine ⟨?_, ?_, ?_⟩
  · have hperm : ((loadSongRelations after id).map ShownSongRelation.toNew).Perm _ :=
      loadSongRelations_perm h
    rw [hreplace, replaceRelations, relationsOf_insertAll, relationsOf_deleteWhere] at hperm
    exact hperm
  · intro other hne typeId description
    rw [(loadSongRelations_perm h).mem_iff, hreplace]
    exact mem_relationsOf_replaceRelations hne
  · rw [hreplace]
    exact replaceRelations_rest

/-- In every run, a pair of songs has one row, and after a creation or an approval the page of the
song shows its input, the other pages the same relations from their side, and no other pair has
changed. -/
theorem song_relations_agree {s : Site} (h : Reachable s) :
    OneRowPerPair s.db.songs.relation ∧
      ∀ s' id data, Step s (some (id, data)) s' →
        Shows s.db s'.db id (data.relations.getD []) := by
  have hinv := Inv.reachable h
  refine ⟨hinv.oneRowPerPair, ?_⟩
  intro s' id data hs
  have hinv' := hinv.step hs
  cases hs with
  | create hvalid hcreate hhistory =>
    obtain ⟨-, hreplace⟩ := hinv.create hvalid hcreate
    obtain ⟨-, rfl⟩ := createHistory_eq_some hhistory
    exact shows_of_replaceRelations hinv'.relation hreplace
  | approve hnewest hsubmitted hupdate =>
    exact shows_of_replaceRelations hinv'.relation (hinv.approve hnewest hsubmitted hupdate).2

def noSongs : Database :=
  let db : Database := default
  { db with songRelationTypes := db.songRelationTypes.insertAll ["Original", "Arrange"] }

def original : NewSong := ⟨"a", none, none, none, none, none⟩

def arrangement : NewSong := ⟨"b", none, none, none, none, some [⟨1, 1, "of a"⟩]⟩

def corrected : NewSong := ⟨"a", none, none, none, none, some [⟨2, 2, "as b"⟩]⟩

def created (db : Database) (data : NewSong) : Option (Database × ℤ × ℤ) := do
  let (db, id) ← create db data
  let (db, historyId) ← createHistory db data
  return (db, id, historyId)

theorem Reachable.created {db' : Database} (data : NewSong) (h : Reachable ⟨db, submitted⟩)
    (hvalid : data.validate none = .ok ()) (hdb : created db data = some (db', id, historyId)) :
    Reachable ⟨db', (id, historyId, data) :: submitted⟩ := by
  simp only [Song.created, Option.bind_eq_bind, Option.bind_eq_some_iff, Prod.exists] at hdb
  obtain ⟨db₁, i, hcreate, db₂, j, hhistory, heq⟩ := hdb
  cases heq
  exact h.step (.create hvalid hcreate hhistory)

def withOriginal : Database := ((created noSongs original).get (by decide)).1

def withArrangement : Database := ((created withOriginal arrangement).get (by decide)).1

def withCorrection : Database := ((createHistory withArrangement corrected).get (by decide)).1

def correctionOfOriginal : Correction := ⟨1, .Pending, .Update, .Song, 1, 0, none⟩

def revisionOfOriginal : CorrectionRevision := ⟨1, 3, 1, ""⟩

def songHistories : List (ℤ × ℤ × NewSong) :=
  [(1, 3, corrected), (2, 2, arrangement), (1, 1, original)]

theorem reachable_withCorrection : Reachable ⟨withCorrection, songHistories⟩ := by
  have hnone : Reachable ⟨noSongs, []⟩ := .init rfl
  have horiginal : Reachable ⟨withOriginal, [(1, 1, original)]⟩ :=
    hnone.created original rfl rfl
  have harrangement : Reachable ⟨withArrangement, [(2, 2, arrangement), (1, 1, original)]⟩ :=
    horiginal.created arrangement rfl rfl
  have hhistory : createHistory withArrangement corrected = some (withCorrection, 3) := rfl
  exact harrangement.step (.upsertCorrection rfl hhistory)

theorem song_relations_agree_two_songs :
    ∃ db', applyUpdate withCorrection [revisionOfOriginal] correctionOfOriginal = some db' ∧
      Shows withCorrection db' 1 [⟨2, 2, "as b"⟩] := by
  refine ⟨_, rfl, ?_⟩
  have hnewest : findRevision [revisionOfOriginal] correctionOfOriginal.id =
      some revisionOfOriginal := by decide
  have hsubmitted : (correctionOfOriginal.entityId, revisionOfOriginal.entityHistoryId, corrected) ∈
      songHistories := by decide
  exact (song_relations_agree reachable_withCorrection).2 _ _ _ (.approve hnewest hsubmitted rfl)

end Run

end Song

end Thcdb.Catalog
