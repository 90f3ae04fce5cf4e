import Thcdb.Catalog.DiffCoverage

namespace Thcdb.Catalog
open Corrections Relational Json

section Matches

variable {db db' : Database} {h : ℤ}

theorem Label.Matches.stored (hs : Label.Matches db h db') :
    Label.stored db' h = Label.stored db h := by
  unfold Label.stored
  rw [hs.history, coe_items hs.founders, coe_items hs.localizedNames]

theorem Song.Matches.stored (hs : Song.Matches db h db') :
    Song.stored db' h = Song.stored db h := by
  unfold Song.stored
  rw [hs.history, coe_items hs.artists, coe_items hs.credits, coe_items hs.languages,
    coe_items hs.localizedTitles, coe_items hs.relations]

theorem Tag.Matches.stored (hs : Tag.Matches db h db') :
    Tag.stored db' h = Tag.stored db h := by
  unfold Tag.stored
  rw [hs.history, coe_items hs.alternativeNames, coe_items hs.relations]

theorem Event.Matches.stored (hs : Event.Matches db h db') :
    Event.stored db' h = Event.stored db h := by
  unfold Event.stored
  rw [hs.history, coe_items hs.alternativeNames]

theorem CreditRole.Matches.stored (hs : CreditRole.Matches db h db') :
    CreditRole.stored db' h = CreditRole.stored db h := by
  unfold CreditRole.stored
  rw [hs.history, coe_items hs.inheritances]

theorem Artist.Matches.stored (hs : Artist.Matches db h db') :
    Artist.stored db' h = Artist.stored db h := by
  have hmemberships : (Artist.membershipHistoriesOf (Artist.historyMemberships db') h :
      Multiset Artist.MembershipContent) =
        Artist.membershipHistoriesOf (Artist.historyMemberships db) h := by
    unfold Artist.membershipHistoriesOf Artist.historyMemberships
    refine Multiset.coe_eq_coe.mpr ((hs.memberships.map _).trans (List.Perm.of_eq ?_))
    apply List.map_congr_left
    intro r hr
    simp only [coe_items (hs.roles r hr), coe_items (hs.tenures r hr)]
  unfold Artist.stored
  rw [hs.history, coe_items hs.aliases, coe_items hs.links, coe_items hs.localizedNames,
    hmemberships]

theorem Release.Matches.stored (hs : Release.Matches db h db') :
    Release.stored db' h = Release.stored db h := by
  have htracks : (db'.releases.trackHistory.items h).Perm (db.releases.trackHistory.items h) :=
    Multiset.coe_eq_coe.mp (coe_items hs.tracks)
  have hdiscs : Release.discsOf db'.releases.discHistory db'.releases.trackHistory h =
      Release.discsOf db.releases.discHistory db.releases.trackHistory h := by
    unfold Release.discsOf grouped
    rw [List.map_map, List.map_map]
    refine Multiset.coe_eq_coe.mpr ((hs.discs.map _).trans (List.Perm.of_eq ?_))
    apply List.map_congr_left
    intro r _
    have hperm := ((htracks.map fun t => (⟨t.discId, t.track⟩ : Owned Track)).filter
      fun c => c.owner = r.id).map Owned.item
    simp only [Function.comp_def, Multiset.coe_eq_coe.mpr hperm]
  have hstrays : Release.straysOf db'.releases.discHistory db'.releases.trackHistory h =
      Release.straysOf db.releases.discHistory db.releases.trackHistory h := by
    unfold Release.straysOf
    have hmem : ∀ i, i ∈ (db'.releases.discHistory.itemRows h).map Row.id ↔
        i ∈ (db.releases.discHistory.itemRows h).map Row.id :=
      fun i => (hs.discs.map Row.id).mem_iff
    simp only [hmem]
    exact Multiset.coe_eq_coe.mpr ((htracks.filter _).map _)
  unfold Release.stored
  rw [hs.history, coe_items hs.artists, coe_items hs.catalogNumbers, coe_items hs.credits,
    coe_items hs.events, coe_items hs.localizedTitles, hdiscs, hstrays]

end Matches

/-- The transactions of one kind of entity on its histories, lyrics included. -/
structure HistoryRepo where
  New : Type
  Rows : Type
  /-- what the create path accepts -/
  Valid : New → Prop
  createHistory : Database → New → Option (Database × ℤ)
  applyUpdate : Database → List CorrectionRevision → Correction → Option Database
  /-- the live rows that approvals for an entity write -/
  rows : Database → ℤ → Rows
  hasEntity : Database → ℤ → Bool
  /-- what the database keeps true of the tables -/
  Wf : Database → Prop

def EntityRepo.histories (R : EntityRepo) : HistoryRepo where
  New := R.New
  Rows := Option R.Content
  Valid := R.Valid
  createHistory := R.createHistory
  applyUpdate := R.applyUpdate
  rows := R.live
  hasEntity := R.hasEntity
  Wf := R.Wf

structure SongLyrics.Wf (db : Database) : Prop where
  songLyrics : db.songLyrics.songLyrics.Satisfies (constraints db)
  history : db.songLyrics.history.Satisfies (historyConstraints db)

/-- Approvals of lyrics may write to any row, so all rows are looked at. -/
def SongLyrics.histories : HistoryRepo where
  New := NewSongLyrics
  Rows := Table SongLyrics
  Valid lyrics := lyrics.validate = .ok ()
  createHistory := SongLyrics.createHistory
  applyUpdate := SongLyrics.applyUpdate
  rows db _ := db.songLyrics.songLyrics
  hasEntity db id := db.songLyrics.songLyrics.has id
  Wf := SongLyrics.Wf

def historyRepo : EntityType → HistoryRepo
  | .Artist => EntityRepo.artist.histories
  | .Label => EntityRepo.label.histories
  | .Release => EntityRepo.release.histories
  | .Song => EntityRepo.song.histories
  | .Tag => EntityRepo.tag.histories
  | .Event => EntityRepo.event.histories
  | .SongLyrics => SongLyrics.histories
  | .CreditRole => EntityRepo.creditRole.histories

/-- An approval that fails is rolled back. -/
def HistoryRepo.approve (R : HistoryRepo) (db : Database) (revisions : List CorrectionRevision)
    (correction : Correction) : Database :=
  (R.applyUpdate db revisions correction).getD db

section Coverage

/-- What two credit roles have in common unless their histories show a difference; then the short
description has to agree too. -/
def CreditRole.Covers (a b : NewCreditRole) : Prop :=
  a.columns.name = b.columns.name → a.columns.description = b.columns.description →
    (content a).superRoles = (content b).superRoles →
    a.columns.shortDescription = b.columns.shortDescription

/-- There is nothing to write: the row of the song and language, if there is one, has it all. -/
def SongLyrics.Idle (db : Database) (lyrics : NewSongLyrics) : Prop :=
  ∀ c ∈ db.songLyrics.songLyrics.cols, c.songId = lyrics.songId →
    c.languageId = lyrics.languageId → Holds lyrics c

/-- Lyrics that agree but for the song are for one song, or there is nothing to write. -/
def SongLyrics.Covers (db : Database) (a b : NewSongLyrics) : Prop :=
  a.languageId = b.languageId → a.content = b.content → a.isMain = b.isMain →
    a.songId = b.songId ∨ (Idle db a ∧ Idle db b)

/-- Whether an empty difference between the histories of two inputs would hide nothing. -/
def Covers : (k : EntityType) → Database → (historyRepo k).New → (historyRepo k).New → Prop
  | .CreditRole, _, a, b => CreditRole.Covers a b
  | .SongLyrics, db, a, b => SongLyrics.Covers db a b
  | _, _, _, _ => True

end Coverage

/-- Histories with the same content leave the same rows, or both cannot be approved. -/
theorem EntityRepo.rows_approve_eq (R : EntityRepo) {db : Database}
    {revisions revisions' : List CorrectionRevision} {correction correction' : Correction}
    {revision revision' : CorrectionRevision} {a b : R.New} (hwf : R.Wf db)
    (hnewest : findRevision revisions correction.id = some revision)
    (hnewest' : findRevision revisions' correction'.id = some revision')
    (hid : R.hasEntity db correction.entityId) (hsame : correction'.entityId = correction.entityId)
    (ha : R.stored db revision.entityHistoryId = some (R.content a))
    (hb : R.stored db revision'.entityHistoryId = some (R.content b))
    (hproper : R.Proper (R.content a)) (heq : R.content a = R.content b) :
    R.live (R.histories.approve db revisions correction) correction.entityId =
      R.live (R.histories.approve db revisions' correction') correction.entityId := by
  rw [← heq] at hb
  unfold HistoryRepo.approve EntityRepo.histories
  by_cases h : R.Applicable db correction.entityId (R.content a)
  · obtain ⟨db', happly, hlive⟩ := R.live_applyUpdate hwf hnewest hid ha hproper h
    rw [← hsame] at hid h
    obtain ⟨db'', happly', hlive'⟩ := R.live_applyUpdate hwf hnewest' hid hb hproper h
    rw [hsame] at hlive'
    simp only [happly, happly', Option.getD_some, hlive, hlive']
  · have happly := R.applyUpdate_eq_none hwf hnewest hid ha hproper h
    rw [← hsame] at hid h
    have happly' := R.applyUpdate_eq_none hwf hnewest' hid hb hproper h
    simp only [happly, happly']

section Lyrics

namespace SongLyrics

variable {db : Database} {a b lyrics : NewSongLyrics} {h h' : ℤ}
  {revisions revisions' : List CorrectionRevision}
  {correction correction' : Correction} {revision revision' : CorrectionRevision}
  {pretty : Value → String} {t : Table SongLyrics}

def after (lyrics : NewSongLyrics) (t : Table SongLyrics) : Table SongLyrics :=
  ((updateTarget lyrics.columns t).map fun target =>
    t.update (written lyrics.columns target.id)).getD t

theorem rows_approve (hwf : Wf db)
    (hnewest : findRevision revisions correction.id = some revision)
    (hh : db.songLyrics.history.findById revision.entityHistoryId = some lyrics.columns) :
    (histories.approve db revisions correction).songLyrics.songLyrics =
      after lyrics db.songLyrics.songLyrics := by
  unfold HistoryRepo.approve histories applyUpdate after
  simp only [revisedHistory_eq hnewest, hh, Option.map_some, Option.bind_eq_bind,
    Option.bind_some, applyHistory_eq hwf.songLyrics]
  cases updateTarget lyrics.columns db.songLyrics.songLyrics <;> rfl

/-- Rows of other songs stay as they are. -/
theorem findById_after_of_ne {r : Row SongLyrics} (hr : r ∈ t.rows)
    (hne : r.cols.songId ≠ lyrics.songId) : (after lyrics t).findById r.id = some r.cols := by
  unfold after
  cases ht : updateTarget lyrics.columns t with
  | none => exact Table.findById_of_mem hr
  | some target =>
    obtain ⟨hmem, hsong, -⟩ := updateTarget_eq_some ht
    have hid : r.id ≠ target.id := by
      intro hid
      rw [Table.eq_of_id hr hmem hid] at hne
      exact hne hsong
    simp only [Option.map_some, Option.getD_some]
    rw [Table.findById_update (Table.findById_of_mem hr), written, if_neg hid,
      if_neg fun hmain => hne hmain.2]

theorem after_eq_self (hwf : Wf db) (hidle : Idle db lyrics) :
    after lyrics db.songLyrics.songLyrics = db.songLyrics.songLyrics := by
  unfold after
  cases ht : updateTarget lyrics.columns db.songLyrics.songLyrics with
  | none => rfl
  | some target =>
    obtain ⟨hmem, hsong, hlanguage⟩ := updateTarget_eq_some ht
    have hheld : Holds lyrics target.cols :=
      hidle _ (List.mem_map_of_mem hmem) hsong hlanguage
    apply Table.ext
    · simp only [Option.map_some, Option.getD_some, Table.update]
      conv_rhs => rw [← List.map_id db.songLyrics.songLyrics.rows]
      apply List.map_congr_left
      intro r hr
      have hr' : db.songLyrics.songLyrics.findById r.id = some r.cols := Table.findById_of_mem hr
      have htarget : db.songLyrics.songLyrics.findById target.id = some target.cols :=
        Table.findById_of_mem hmem
      have hcols : written lyrics.columns target.id r = r.cols := by
        unfold written
        by_cases hid : r.id = target.id
        · obtain rfl := Table.eq_of_id hr hmem hid
          simp [NewSongLyrics.columns, ← hheld.1, ← hheld.2]
        · have hself := unset_eq_self hwf.songLyrics htarget hr' hid hheld
          rw [hsong] at hself
          rw [if_neg hid]
          exact hself
      rw [hcols, id]
    · rfl

/-- Only lyrics that have nothing to write leave the rows of their song as they are. -/
theorem idle_of_after (hwf : Wf db)
    (h : ∀ r ∈ db.songLyrics.songLyrics.rows, r.cols.songId = lyrics.songId →
      (after lyrics db.songLyrics.songLyrics).findById r.id = some r.cols) : Idle db lyrics := by
  intro c hc hsong hlanguage
  obtain ⟨r, hr, rfl⟩ := List.mem_map.mp hc
  have hafter := h r hr hsong
  unfold after at hafter
  cases ht : updateTarget lyrics.columns db.songLyrics.songLyrics with
  | none =>
    have hnone := List.find?_eq_none.mp ht r hr
    simp [NewSongLyrics.columns, hsong, hlanguage] at hnone
  | some target =>
    obtain ⟨hmem, hsong', hlanguage'⟩ := updateTarget_eq_some ht
    have hid : r.id = target.id := by
      by_contra hid
      have hconflict := hwf.songLyrics.conflict_eq_false constraints_symm hr hmem hid
      simp [constraints, hsong, hlanguage, hsong', hlanguage', NewSongLyrics.columns] at hconflict
    simp only [ht, Option.map_some, Option.getD_some] at hafter
    rw [Table.findById_update (Table.findById_of_mem hr), written, if_pos hid] at hafter
    have hcols := Option.some.inj hafter
    exact ⟨(congrArg SongLyrics.content hcols).symm, (congrArg SongLyrics.isMain hcols).symm⟩

/-- Lyrics for two songs leave the same rows only if neither has anything to write. -/
theorem after_eq_iff (hwf : Wf db) (hlanguage : a.languageId = b.languageId)
    (hcontent : a.content = b.content) (hmain : a.isMain = b.isMain) :
    after a db.songLyrics.songLyrics = after b db.songLyrics.songLyrics ↔
      a.songId = b.songId ∨ (Idle db a ∧ Idle db b) := by
  constructor
  · intro heq
    by_cases hsong : a.songId = b.songId
    · exact Or.inl hsong
    · refine Or.inr ⟨idle_of_after hwf ?_, idle_of_after hwf ?_⟩
      · intro r hr hr'
        rw [heq]
        exact findById_after_of_ne hr (hr'.trans_ne hsong)
      · intro r hr hr'
        rw [← heq]
        exact findById_after_of_ne hr (hr'.trans_ne (Ne.symm hsong))
  · rintro (hsong | ⟨ha, hb⟩)
    · have hab : a = b := by
        cases a
        cases b
        simp only at hsong hlanguage hcontent hmain
        rw [hsong, hlanguage, hcontent, hmain]
      rw [hab]
    · rw [after_eq_self hwf ha, after_eq_self hwf hb]

end SongLyrics

end Lyrics

section Roles

namespace CreditRole

variable {db : Database} {a b : NewCreditRole} {h : ℤ} {c : Content}

theorem snapshot_of_stored (hc : stored db h = some c) : ∃ v, snapshot db h = some v := by
  obtain ⟨row, hrow, -⟩ := Option.map_eq_some_iff.mp hc
  exact snapshot_eq_some hrow

theorem matches_self : Matches db h db := ⟨rfl, List.Perm.refl _⟩

theorem content_eq_iff : content a = content b ↔ a.columns = b.columns ∧
    (content a).superRoles = (content b).superRoles := by
  refine ⟨fun heq => ⟨congrArg Content.creditRole heq, congrArg Content.superRoles heq⟩, ?_⟩
  rintro ⟨hcolumns, hroles⟩
  have hcontent : ∀ d, content d = ⟨d.columns, (content d).superRoles⟩ := fun _ => rfl
  rw [hcontent a, hcontent b, hcolumns, hroles]

theorem columns_eq (hname : a.columns.name = b.columns.name)
    (hshort : a.columns.shortDescription = b.columns.shortDescription)
    (hdescription : a.columns.description = b.columns.description) : a.columns = b.columns := by
  unfold NewCreditRole.columns at *
  simp only at hname hshort hdescription
  rw [hname, hshort, hdescription]

theorem rows_approve {revisions : List CorrectionRevision} {correction : Correction}
    {revision : CorrectionRevision} (hwf : Wf db)
    (hnewest : findRevision revisions correction.id = some revision)
    (hid : db.hasCreditRole correction.entityId)
    (hc : stored db revision.entityHistoryId = some c) :
    live (EntityRepo.creditRole.histories.approve db revisions correction) correction.entityId =
      some c := by
  obtain ⟨db', happly, hlive⟩ := live_applyUpdate hwf hnewest hid hc
  unfold HistoryRepo.approve EntityRepo.histories EntityRepo.creditRole
  simp only [happly, Option.getD_some, hlive]

end CreditRole

end Roles

/-- An empty difference is one of equal snapshots. -/
theorem forall_empty_diff_iff {h h' : ℤ} {pretty : Value → String} (k : EntityType)
    {M M' : Database → Prop} {p : Prop} :
    (∀ q q' v v', M q → M' q' → snapshotForHistory q h k = some v →
        snapshotForHistory q' h' k = some v' → diffSnapshots pretty v v' = [] → p) ↔
      ∀ q q' v, M q → M' q' → snapshotForHistory q h k = some v →
        snapshotForHistory q' h' k = some v → p := by
  constructor
  · intro hp q q' v hq hq' hv hv'
    have hcanonical := canonical_snapshotForHistory hv
    exact hp q q' v v hq hq' hv hv' ((diffSnapshots_eq_nil hcanonical hcanonical).mpr rfl)
  · intro hp q q' v v' hq hq' hv hv' hnil
    obtain rfl := (diffSnapshots_eq_nil (canonical_snapshotForHistory hv)
      (canonical_snapshotForHistory hv')).mp hnil
    exact hp q q' v hq hq' hv hv'

section

variable {db₁ db₁' db₂ db₂' db : Database} {revisions revisions' : List CorrectionRevision}
  {correction correction' : Correction} {revision revision' : CorrectionRevision}

/-- An empty difference between two histories means that their approvals leave the same rows; but
the short description of a credit role and the song of lyrics are not looked at. -/
theorem diff_hides_no_change (pretty : Value → String) (k : EntityType)
    {a b : (historyRepo k).New} (hva : (historyRepo k).Valid a) (hvb : (historyRepo k).Valid b)
    (hwf₁ : (historyRepo k).Wf db₁)
    (ha : (historyRepo k).createHistory db₁ a = some (db₁', revision.entityHistoryId))
    (hwf₂ : (historyRepo k).Wf db₂)
    (hb : (historyRepo k).createHistory db₂ b = some (db₂', revision'.entityHistoryId))
    (hne : revision.entityHistoryId ≠ revision'.entityHistoryId)
    (hwf : (historyRepo k).Wf db) (hsa : MatchesHistory db₁' revision.entityHistoryId k db)
    (hsb : MatchesHistory db₂' revision'.entityHistoryId k db)
    (hnewest : findRevision revisions correction.id = some revision)
    (hnewest' : findRevision revisions' correction'.id = some revision')
    (hid : (historyRepo k).hasEntity db correction.entityId)
    (hsame : correction'.entityId = correction.entityId) :
    (∀ q q' v v', MatchesHistory db revision.entityHistoryId k q →
        MatchesHistory db revision'.entityHistoryId k q' →
        snapshotForHistory q revision.entityHistoryId k = some v →
        snapshotForHistory q' revision'.entityHistoryId k = some v' →
        diffSnapshots pretty v v' = [] →
        (historyRepo k).rows ((historyRepo k).approve db revisions correction)
            correction.entityId =
          (historyRepo k).rows ((historyRepo k).approve db revisions' correction')
            correction.entityId) ↔
      Covers k db a b := by
  refine (forall_empty_diff_iff k).trans ?_
  cases k with
  | Artist =>
    have hca := (Artist.Matches.stored hsa).trans (Artist.stored_createHistory hwf₁ ha)
    have hcb := (Artist.Matches.stored hsb).trans (Artist.stored_createHistory hwf₂ hb)
    refine iff_of_true (fun q q' v hq hq' hv hv' => ?_) trivial
    exact EntityRepo.artist.rows_approve_eq hwf hnewest hnewest' hid hsame hca hcb
      (Artist.proper_content hva ha) (Artist.content_of_snapshot hne hca hcb hq hq' hv hv')
  | Label =>
    have hca := (Label.Matches.stored hsa).trans (Label.stored_createHistory hwf₁ ha)
    have hcb := (Label.Matches.stored hsb).trans (Label.stored_createHistory hwf₂ hb)
    refine iff_of_true (fun q q' v hq hq' hv hv' => ?_) trivial
    exact EntityRepo.label.rows_approve_eq hwf hnewest hnewest' hid hsame hca hcb trivial
      (Label.content_of_snapshot hca hcb hq hq' hv hv')
  | Release =>
    have hca := (Release.Matches.stored hsa).trans (Release.stored_createHistory hwf₁ ha)
    have hcb := (Release.Matches.stored hsb).trans (Release.stored_createHistory hwf₂ hb)
    refine iff_of_true (fun q q' v hq hq' hv hv' => ?_) trivial
    exact EntityRepo.release.rows_approve_eq hwf hnewest hnewest' hid hsame hca hcb rfl
      (Release.content_of_snapshot hva hne hca hq hq' hv hv')
  | Song =>
    have hca := (Song.Matches.stored hsa).trans (Song.stored_createHistory hwf₁ ha)
    have hcb := (Song.Matches.stored hsb).trans (Song.stored_createHistory hwf₂ hb)
    refine iff_of_true (fun q q' v hq hq' hv hv' => ?_) trivial
    exact EntityRepo.song.rows_approve_eq hwf hnewest hnewest' hid hsame hca hcb trivial
      (Song.content_of_snapshot hca hcb hq hq' hv hv')
  | Tag =>
    have hca := (Tag.Matches.stored hsa).trans (Tag.stored_createHistory hwf₁ ha)
    have hcb := (Tag.Matches.stored hsb).trans (Tag.stored_createHistory hwf₂ hb)
    refine iff_of_true (fun q q' v hq hq' hv hv' => ?_) trivial
    exact EntityRepo.tag.rows_approve_eq hwf hnewest hnewest' hid hsame hca hcb trivial
      (Tag.content_of_snapshot hca hcb hq hq' hv hv')
  | Event =>
    have hca := (Event.Matches.stored hsa).trans (Event.stored_createHistory hwf₁ ha)
    have hcb := (Event.Matches.stored hsb).trans (Event.stored_createHistory hwf₂ hb)
    refine iff_of_true (fun q q' v hq hq' hv hv' => ?_) trivial
    exact EntityRepo.event.rows_approve_eq hwf hnewest hnewest' hid hsame hca hcb trivial
      (Event.content_of_snapshot hca hcb hq hq' hv hv')
  | SongLyrics =>
    -- the song of the lyrics is not in the snapshot
    have hca := hsa.trans (SongLyrics.createHistory_findById ha)
    have hcb := hsb.trans (SongLyrics.createHistory_findById hb)
    have hrows := SongLyrics.rows_approve hwf hnewest hca
    have hrows' := SongLyrics.rows_approve hwf hnewest' hcb
    constructor
    · intro h hlanguage hcontent hmain
      obtain ⟨v, hv⟩ := SongLyrics.snapshot_eq_some hca
      obtain ⟨v', hv'⟩ := SongLyrics.snapshot_eq_some hcb
      obtain rfl := (SongLyrics.snapshot_eq_iff hca hcb rfl rfl hv hv').mpr
        ⟨hlanguage, hcontent, hmain⟩
      have hafter := h db db v rfl rfl hv hv'
      exact (SongLyrics.after_eq_iff hwf hlanguage hcontent hmain).mp
        (hrows.symm.trans (hafter.trans hrows'))
    · intro hcovers q q' v hq hq' hv hv'
      obtain ⟨hlanguage, hcontent, hmain⟩ :=
        (SongLyrics.snapshot_eq_iff hca hcb hq hq' hv hv').mp rfl
      have hafter := (SongLyrics.after_eq_iff hwf hlanguage hcontent hmain).mpr
        (hcovers hlanguage hcontent hmain)
      exact hrows.trans (hafter.trans hrows'.symm)
  | CreditRole =>
    -- the short description is not in the snapshot
    have hca := (CreditRole.Matches.stored hsa).trans (CreditRole.stored_createHistory hwf₁ ha)
    have hcb := (CreditRole.Matches.stored hsb).trans (CreditRole.stored_createHistory hwf₂ hb)
    constructor
    · intro h hname hdescription hroles
      obtain ⟨v, hv⟩ := CreditRole.snapshot_of_stored hca
      obtain ⟨v', hv'⟩ := CreditRole.snapshot_of_stored hcb
      obtain rfl := (CreditRole.snapshot_eq_iff hca hcb CreditRole.matches_self
        CreditRole.matches_self hv hv').mpr ⟨hname, hdescription, hroles⟩
      have hrows := h db db v CreditRole.matches_self CreditRole.matches_self hv hv'
      have hcontent := (CreditRole.rows_approve hwf hnewest hid hca).symm.trans (hrows.trans
        (hsame ▸ CreditRole.rows_approve hwf hnewest' (hsame ▸ hid) hcb))
      exact congrArg CreditRole.shortDescription
        (CreditRole.content_eq_iff.mp (Option.some.inj hcontent)).1
    · intro hcovers q q' v hq hq' hv hv'
      obtain ⟨hname, hdescription, hroles⟩ :=
        (CreditRole.snapshot_eq_iff hca hcb hq hq' hv hv').mp rfl
      have hcolumns : a.columns = b.columns :=
        CreditRole.columns_eq hname (hcovers hname hdescription hroles) hdescription
      exact EntityRepo.creditRole.rows_approve_eq hwf hnewest hnewest' hid hsame hca hcb trivial
        (CreditRole.content_eq_iff.mpr ⟨hcolumns, hroles⟩)

end

def drums (shortDescription : Option String) (superRoles : Option (List ℤ)) : NewCreditRole :=
  ⟨"drums", shortDescription, none, superRoles⟩

def oneRole : Database :=
  committed (CreditRole.createHistory (committed (CreditRole.create default (drums none none)))
    (drums none none))

def twoRoles (data : NewCreditRole) : Database := committed (CreditRole.createHistory oneRole data)

def firstRoleCorrection : Correction := ⟨1, .Pending, .Update, .CreditRole, 1, 0, none⟩

def secondRevision : CorrectionRevision := ⟨1, 2, 1, ""⟩

def approvedRole (db : Database) (revision : CorrectionRevision) : Option CreditRole.Content :=
  EntityRepo.creditRole.live
    (EntityRepo.creditRole.histories.approve db [revision] firstRoleCorrection) 1

theorem diff_hides_no_change_drums :
    approvedRole (twoRoles (drums (some "") (some []))) firstRevision =
      approvedRole (twoRoles (drums (some "") (some []))) secondRevision := by
  have ha : CreditRole.createHistory (committed (CreditRole.create default (drums none none)))
      (drums none none) = some (oneRole, firstRevision.entityHistoryId) := rfl
  have hb : CreditRole.createHistory oneRole (drums (some "") (some [])) =
      some (twoRoles (drums (some "") (some [])), secondRevision.entityHistoryId) := rfl
  have hsa : CreditRole.Matches oneRole firstRevision.entityHistoryId
      (twoRoles (drums (some "") (some []))) := ⟨rfl, List.Perm.refl _⟩
  have hnewest : findRevision [firstRevision] firstRoleCorrection.id = some firstRevision := by
    decide
  have hnewest' : findRevision [secondRevision] firstRoleCorrection.id = some secondRevision := by
    decide
  have hid : (twoRoles (drums (some "") (some []))).hasCreditRole firstRoleCorrection.entityId := by
    decide
  have hcovers : Covers .CreditRole (twoRoles (drums (some "") (some []))) (drums none none)
      (drums (some "") (some [])) := fun _ _ _ => rfl
  obtain ⟨v, hv, hv'⟩ : ∃ v,
      snapshotForHistory (twoRoles (drums (some "") (some []))) 1 .CreditRole = some v ∧
        snapshotForHistory (twoRoles (drums (some "") (some []))) 2 .CreditRole = some v :=
    ⟨_, rfl, rfl⟩
  exact (diff_hides_no_change (fun _ => "") .CreditRole trivial trivial
    (by constructor <;> decide) ha (by constructor <;> decide) hb (by decide)
    (by constructor <;> decide) hsa CreditRole.matches_self hnewest hnewest' hid rfl).mpr hcovers
    _ _ v v CreditRole.matches_self CreditRole.matches_self hv hv'
    ((diffSnapshots_eq_nil (canonical_snapshotForHistory hv) (canonical_snapshotForHistory hv')).mpr
      rfl)

/-- Two histories that differ in the short description only have the same snapshot. -/
theorem short_description_not_shown :
    CreditRole.createHistory oneRole (drums (some "beats") none) =
        some (twoRoles (drums (some "beats") none), 2) ∧
      (∃ v v', snapshotForHistory (twoRoles (drums (some "beats") none)) 1 .CreditRole = some v ∧
        snapshotForHistory (twoRoles (drums (some "beats") none)) 2 .CreditRole = some v' ∧
        diffSnapshots (fun _ => "") v v' = []) ∧
      approvedRole (twoRoles (drums (some "beats") none)) firstRevision ≠
        approvedRole (twoRoles (drums (some "beats") none)) secondRevision := by
  obtain ⟨v, hv, hv'⟩ : ∃ v,
      snapshotForHistory (twoRoles (drums (some "beats") none)) 1 .CreditRole = some v ∧
        snapshotForHistory (twoRoles (drums (some "beats") none)) 2 .CreditRole = some v :=
    ⟨_, rfl, rfl⟩
  refine ⟨rfl, ⟨v, v, hv, hv', ?_⟩, by decide⟩
  exact (diffSnapshots_eq_nil (canonical_snapshotForHistory hv)
    (canonical_snapshotForHistory hv')).mpr rfl

end Thcdb.Catalog
