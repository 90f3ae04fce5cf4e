import Thcdb.Catalog.HiddenChanges

namespace Thcdb.Catalog
open Corrections Relational Json

variable {db db' q q' : Database} {h h' : ℤ}

theorem Label.matches_self : Label.Matches db h db :=
  ⟨rfl, List.Perm.refl _, List.Perm.refl _⟩

theorem Song.matches_self : Song.Matches db h db :=
  ⟨rfl, List.Perm.refl _, List.Perm.refl _, List.Perm.refl _, List.Perm.refl _, List.Perm.refl _⟩

theorem Tag.matches_self : Tag.Matches db h db :=
  ⟨rfl, List.Perm.refl _, List.Perm.refl _⟩

theorem Artist.matches_self : Artist.Matches db h db :=
  ⟨rfl, List.Perm.refl _, List.Perm.refl _, List.Perm.refl _, List.Perm.refl _,
    fun _ _ => List.Perm.refl _, fun _ _ => List.Perm.refl _⟩

theorem Release.matches_self : Release.Matches db h db :=
  ⟨rfl, List.Perm.refl _, List.Perm.refl _, List.Perm.refl _, List.Perm.refl _, List.Perm.refl _,
    List.Perm.refl _, List.Perm.refl _, fun _ _ => List.Perm.refl _, fun _ _ => List.Perm.refl _⟩

namespace Label

variable {data : NewLabel}

/-- The rows of a history of the input, in whichever order. -/
structure Wrote (db : Database) (h : ℤ) (data : NewLabel) : Prop where
  history : db.labels.history.findById h = some data.columns
  founders : db.labels.founderHistory.Wrote h (data.founders.getD [])
  localizedNames : db.labels.localizedNameHistory.Wrote h (data.localizedNames.getD [])

theorem wrote_createHistory (hwf : Wf db) (hc : createHistory db data = some (db', h)) :
    Wrote db' h data := by
  obtain ⟨rfl, rfl⟩ := createHistory_eq_some hc
  have hfresh : hasHistory db db.labels.history.next = false := Table.has_next
  exact ⟨Table.findById_insertAll_next, wrote_adopt (items_eq_nil hwf.founderHistory hfresh),
    wrote_adopt (items_eq_nil hwf.localizedNameHistory hfresh)⟩

theorem Wrote.matches (hw : Wrote db h data) (hm : Matches db h q) : Wrote q h data :=
  ⟨hm.history.trans hw.history, hw.founders.perm hm.founders,
    hw.localizedNames.perm hm.localizedNames⟩

/-- Only the order of the names is left open. -/
theorem Wrote.snapshot_eq_iff (hw : Wrote q h data) (hw' : Wrote q' h' data) :
    snapshot q h = snapshot q' h' ↔
      orderBy LocalizedName.languageId (q.labels.localizedNameHistory.itemRows h) =
        orderBy LocalizedName.languageId (q'.labels.localizedNameHistory.itemRows h') := by
  unfold snapshot
  rw [hw.history, hw'.history]
  have hfounders := hw.founders.orderBy hw'.founders tieFree_id
  simp [object_inj, Fields.keys, hfounders]

theorem snapshot_eq_iff_tieFree (hw : Wrote db h data) (hw' : Wrote db h' data) :
    (∀ q q', Matches db h q → Matches db h' q' → snapshot q h = snapshot q' h') ↔
      TieFree LocalizedName.languageId (data.localizedNames.getD []) := by
  have hreturn : ∀ t, (t.itemRows h).Perm (db.labels.localizedNameHistory.itemRows h) →
      ∃ q, Matches db h q ∧ q.labels.localizedNameHistory = t := fun t hperm =>
    ⟨{ db with labels := { db.labels with localizedNameHistory := t } },
      ⟨rfl, List.Perm.refl _, hperm⟩, rfl⟩
  rw [← forall_orderBy_eq_iff (fun q : Database => q.labels.localizedNameHistory)
    (fun q (hm : Matches db h q) => (hw.matches hm).localizedNames)
    (fun q (hm : Matches db h' q) => (hw'.matches hm).localizedNames) matches_self matches_self hreturn]
  exact forall₄_congr fun q q' hm hm' => (hw.matches hm).snapshot_eq_iff (hw'.matches hm')

end Label

namespace Song

variable {data : NewSong}

structure Wrote (db : Database) (h : ℤ) (data : NewSong) : Prop where
  history : db.songs.history.findById h = some ⟨data.title⟩
  artists : db.songs.artistHistory.Wrote h (data.artists.getD [])
  credits : db.songs.creditHistory.Wrote h (data.credits.getD [])
  languages : db.songs.languageHistory.Wrote h (data.languages.getD [])
  localizedTitles : db.songs.localizedTitleHistory.Wrote h
    ((data.localizedTitles.getD []).map LocalizedName.toTitle)
  relations : db.songs.relationHistory.Wrote h (data.relations.getD [])

theorem wrote_createHistory (hwf : Wf db) (hc : createHistory db data = some (db', h)) :
    Wrote db' h data := by
  obtain ⟨rfl, rfl⟩ := createHistory_eq_some hc
  have hfresh : hasHistory db db.songs.history.next = false := Table.has_next
  exact ⟨Table.findById_insertAll_next, wrote_adopt (items_eq_nil hwf.artistHistory hfresh),
    wrote_adopt (items_eq_nil hwf.creditHistory hfresh),
    wrote_adopt (items_eq_nil hwf.languageHistory hfresh),
    wrote_adopt (items_eq_nil hwf.localizedTitleHistory hfresh),
    wrote_adopt (items_eq_nil hwf.relationHistory hfresh)⟩

theorem Wrote.matches (hw : Wrote db h data) (hm : Matches db h q) : Wrote q h data :=
  ⟨hm.history.trans hw.history, hw.artists.perm hm.artists, hw.credits.perm hm.credits,
    hw.languages.perm hm.languages, hw.localizedTitles.perm hm.localizedTitles,
    hw.relations.perm hm.relations⟩

/-- Only the order of the relations is left open. -/
theorem Wrote.snapshot_eq_iff (hw : Wrote q h data) (hw' : Wrote q' h' data) :
    snapshot q h = snapshot q' h' ↔
      orderBy NewSongRelation.relatedSongId (q.songs.relationHistory.itemRows h) =
        orderBy NewSongRelation.relatedSongId (q'.songs.relationHistory.itemRows h') := by
  unfold snapshot
  rw [hw.history, hw'.history]
  have hartists := hw.artists.orderBy hw'.artists tieFree_id
  have hlanguages := hw.languages.orderBy hw'.languages tieFree_id
  have hcredits := hw.credits.orderById.trans hw'.credits.orderById.symm
  have htitles := hw.localizedTitles.orderById.trans hw'.localizedTitles.orderById.symm
  simp [object_inj, Fields.keys, hartists, hlanguages, hcredits, htitles]

theorem snapshot_eq_iff_tieFree (hw : Wrote db h data) (hw' : Wrote db h' data) :
    (∀ q q', Matches db h q → Matches db h' q' → snapshot q h = snapshot q' h') ↔
      TieFree NewSongRelation.relatedSongId (data.relations.getD []) := by
  have hreturn : ∀ t, (t.itemRows h).Perm (db.songs.relationHistory.itemRows h) →
      ∃ q, Matches db h q ∧ q.songs.relationHistory = t := fun t hperm =>
    ⟨{ db with songs := { db.songs with relationHistory := t } },
      ⟨rfl, List.Perm.refl _, List.Perm.refl _, List.Perm.refl _, List.Perm.refl _, hperm⟩, rfl⟩
  rw [← forall_orderBy_eq_iff (fun q : Database => q.songs.relationHistory)
    (fun q (hm : Matches db h q) => (hw.matches hm).relations)
    (fun q (hm : Matches db h' q) => (hw'.matches hm).relations) matches_self matches_self hreturn]
  exact forall₄_congr fun q q' hm hm' => (hw.matches hm).snapshot_eq_iff (hw'.matches hm')

end Song

namespace Tag

variable {data : NewTag}

structure Wrote (db : Database) (h : ℤ) (data : NewTag) : Prop where
  history : db.tags.history.findById h = some data.columns
  alternativeNames : db.tags.alternativeNameHistory.Wrote h
    ((data.altNames.getD []).map TagAlternativeName.given)
  relations : db.tags.relationHistory.Wrote h (data.relations.getD [])

theorem wrote_createHistory (hwf : Wf db) (hc : createHistory db data = some (db', h)) :
    Wrote db' h data := by
  obtain ⟨rfl, rfl⟩ := createHistory_eq_some hc
  have hfresh : hasHistory db db.tags.history.next = false := Table.has_next
  exact ⟨Table.findById_insertAll_next,
    wrote_adopt (items_eq_nil hwf.alternativeNameHistory hfresh),
    wrote_adopt (items_eq_nil hwf.relationHistory hfresh)⟩

theorem Wrote.matches (hw : Wrote db h data) (hm : Matches db h q) : Wrote q h data :=
  ⟨hm.history.trans hw.history, hw.alternativeNames.perm hm.alternativeNames,
    hw.relations.perm hm.relations⟩

/-- Only the order of the relations is left open. -/
theorem Wrote.snapshot_eq_iff (hw : Wrote q h data) (hw' : Wrote q' h' data) :
    snapshot q h = snapshot q' h' ↔
      orderBy TagRelation.relatedTagId (q.tags.relationHistory.itemRows h) =
        orderBy TagRelation.relatedTagId (q'.tags.relationHistory.itemRows h') := by
  unfold snapshot
  rw [hw.history, hw'.history]
  have hnames := hw.alternativeNames.orderById.trans hw'.alternativeNames.orderById.symm
  simp [object_inj, Fields.keys, hnames]

theorem snapshot_eq_iff_tieFree (hw : Wrote db h data) (hw' : Wrote db h' data) :
    (∀ q q', Matches db h q → Matches db h' q' → snapshot q h = snapshot q' h') ↔
      TieFree TagRelation.relatedTagId (data.relations.getD []) := by
  have hreturn : ∀ t, (t.itemRows h).Perm (db.tags.relationHistory.itemRows h) →
      ∃ q, Matches db h q ∧ q.tags.relationHistory = t := fun t hperm =>
    ⟨{ db with tags := { db.tags with relationHistory := t } },
      ⟨rfl, List.Perm.refl _, hperm⟩, rfl⟩
  rw [← forall_orderBy_eq_iff (fun q : Database => q.tags.relationHistory)
    (fun q (hm : Matches db h q) => (hw.matches hm).relations)
    (fun q (hm : Matches db h' q) => (hw'.matches hm).relations) matches_self matches_self hreturn]
  exact forall₄_congr fun q q' hm hm' => (hw.matches hm).snapshot_eq_iff (hw'.matches hm')

end Tag

namespace Event

variable {data : NewEvent}

structure Wrote (db : Database) (h : ℤ) (data : NewEvent) : Prop where
  history : db.events.history.findById h = some data.columns
  alternativeNames : db.events.alternativeNameHistory.Wrote h
    ((data.alternativeNames.getD []).map EventAlternativeName.given)

theorem wrote_createHistory (hwf : Wf db) (hc : createHistory db data = some (db', h)) :
    Wrote db' h data := by
  obtain ⟨rfl, rfl⟩ := createHistory_eq_some hc
  have hfresh : hasHistory db db.events.history.next = false := Table.has_next
  exact ⟨Table.findById_insertAll_next,
    wrote_adopt (items_eq_nil hwf.alternativeNameHistory hfresh)⟩

theorem Wrote.matches (hw : Wrote db h data) (hm : Matches db h q) : Wrote q h data :=
  ⟨hm.history.trans hw.history, hw.alternativeNames.perm hm.alternativeNames⟩

theorem Wrote.snapshot_eq (hw : Wrote q h data) (hw' : Wrote q' h' data) :
    snapshot q h = snapshot q' h' := by
  unfold snapshot
  rw [hw.history, hw'.history, hw.alternativeNames.orderById, hw'.alternativeNames.orderById]

end Event

namespace CreditRole

variable {data : NewCreditRole}

structure Wrote (db : Database) (h : ℤ) (data : NewCreditRole) : Prop where
  history : db.creditRoles.history.findById h = some data.columns
  inheritances : db.creditRoles.inheritanceHistory.Wrote h (data.superRoles.getD [])

theorem wrote_createHistory (hwf : Wf db) (hc : createHistory db data = some (db', h)) :
    Wrote db' h data := by
  obtain ⟨rfl, rfl⟩ := createHistory_eq_some hc
  have hfresh : hasHistory db db.creditRoles.history.next = false := Table.has_next
  exact ⟨Table.findById_insertAll_next, wrote_adopt (items_eq_nil hwf.inheritanceHistory hfresh)⟩

theorem Wrote.matches (hw : Wrote db h data) (hm : Matches db h q) : Wrote q h data :=
  ⟨hm.history.trans hw.history, hw.inheritances.perm hm.inheritances⟩

theorem Wrote.snapshot_eq (hw : Wrote q h data) (hw' : Wrote q' h' data) :
    snapshot q h = snapshot q' h' := by
  have hroles := hw.inheritances.orderBy hw'.inheritances tieFree_id
  unfold snapshot
  rw [hw.history, hw'.history, hroles]

end CreditRole

namespace SongLyrics

theorem snapshot_eq {row : SongLyrics} (hrow : q.songLyrics.history.findById h = some row)
    (hrow' : q'.songLyrics.history.findById h' = some row) : snapshot q h = snapshot q' h' := by
  unfold snapshot
  rw [hrow, hrow']

end SongLyrics

namespace Artist

variable {data : NewArtist}

/-- The rows of a history of the input, in whichever order; of memberships, the members. -/
structure Wrote (db : Database) (h : ℤ) (data : NewArtist) : Prop where
  history : db.artists.history.findById h = some data.columns
  aliases : db.artists.aliasHistory.Wrote h (data.aliases.getD [])
  links : db.artists.linkHistory.Wrote h (data.links.getD [])
  localizedNames : db.artists.localizedNameHistory.Wrote h (data.localizedNames.getD [])
  memberships : db.artists.membershipHistory.Wrote h
    ((data.memberships.getD []).map NewMembership.artistId)

theorem wrote_createHistory (hwf : Wf db) (hc : createHistory db data = some (db', h)) :
    Wrote db' h data := by
  obtain ⟨rfl, -, rfl⟩ := createHistory_eq_some hc
  have hfresh : hasHistory db db.artists.history.next = false := Table.has_next
  exact ⟨Table.findById_insertAll_next, wrote_adopt (items_eq_nil hwf.aliasHistory hfresh),
    wrote_adopt (items_eq_nil hwf.linkHistory hfresh),
    wrote_adopt (items_eq_nil hwf.localizedNameHistory hfresh),
    db.artists.membershipHistory.next,
    List.Perm.of_eq (itemRows_numbered (items_eq_nil hwf.membershipHistory hfresh))⟩

theorem Wrote.matches (hw : Wrote db h data) (hm : Matches db h q) : Wrote q h data :=
  ⟨hm.history.trans hw.history, hw.aliases.perm hm.aliases, hw.links.perm hm.links,
    hw.localizedNames.perm hm.localizedNames, hw.memberships.perm hm.memberships⟩

/-- Only the memberships are left open. -/
theorem Wrote.snapshot_eq_iff (hw : Wrote q h data) (hw' : Wrote q' h' data) :
    snapshot q h = snapshot q' h' ↔
      (sortById (q.artists.membershipHistory.itemRows h)).map (membershipValue q) =
        (sortById (q'.artists.membershipHistory.itemRows h')).map (membershipValue q') := by
  unfold snapshot
  rw [hw.history, hw'.history]
  have haliases := hw.aliases.orderBy hw'.aliases tieFree_id
  have hlinks := hw.links.orderById.trans hw'.links.orderById.symm
  have hnames := hw.localizedNames.orderById.trans hw'.localizedNames.orderById.symm
  simp [object_inj, Fields.keys, haliases, hlinks, hnames]

theorem snapshot_eq_iff_nil (hne : h ≠ h') (hw : Wrote db h data) (hw' : Wrote db h' data) :
    (∀ q q', Matches db h q → Matches db h' q' → snapshot q h = snapshot q' h') ↔
      data.memberships.getD [] = [] := by
  rw [← List.map_eq_nil_iff (f := NewMembership.artistId)]
  constructor
  · intro hall
    have hvalues := (hw.snapshot_eq_iff hw').mp (hall db db matches_self matches_self)
    obtain ⟨hnil, -⟩ := eq_nil_of_ids hvalues (fun _ _ => membershipValue_id) (by
      intro r hr s hs
      exact itemRows_disjoint hne (sortById_perm.subset hr) (sortById_perm.subset hs))
    exact hw.memberships.eq_nil_iff.mp (sortById_eq_nil.mp hnil)
  · intro hnil q q' hm hm'
    rw [(hw.matches hm).snapshot_eq_iff (hw'.matches hm'),
      (hw.matches hm).memberships.eq_nil_iff.mpr hnil,
      (hw'.matches hm').memberships.eq_nil_iff.mpr hnil, sortById_eq_nil.mpr rfl]
    rfl

end Artist

namespace Release

variable {data : NewRelease}

/-- The rows of a history of the input, in whichever order; of tracks, none. -/
structure Wrote (db : Database) (h : ℤ) (data : NewRelease) : Prop where
  history : db.releases.history.findById h = some data.columns
  artists : db.releases.artistHistory.Wrote h data.artists
  catalogNumbers : db.releases.catalogNumberHistory.Wrote h data.catalogNums
  credits : db.releases.creditHistory.Wrote h data.credits
  events : db.releases.eventHistory.Wrote h data.events
  localizedTitles : db.releases.localizedTitleHistory.Wrote h data.localizedTitles
  discs : db.releases.discHistory.Wrote h (data.discs.map NewDisc.name)

theorem wrote_createHistory (hwf : Wf db) (hc : createHistory db data = some (db', h)) :
    Wrote db' h data := by
  obtain ⟨rfl, -, rfl⟩ := createHistory_eq_some hc
  have hfresh : hasHistory db db.releases.history.next = false := Table.has_next
  exact ⟨Table.findById_insertAll_next, wrote_adopt (items_eq_nil hwf.artistHistory hfresh),
    wrote_adopt (items_eq_nil hwf.catalogNumberHistory hfresh),
    wrote_adopt (items_eq_nil hwf.creditHistory hfresh),
    wrote_adopt (items_eq_nil hwf.eventHistory hfresh),
    wrote_adopt (items_eq_nil hwf.localizedTitleHistory hfresh),
    wrote_adopt (items_eq_nil hwf.discHistory hfresh)⟩

theorem Wrote.matches (hw : Wrote db h data) (hm : Matches db h q) : Wrote q h data :=
  ⟨hm.history.trans hw.history, hw.artists.perm hm.artists,
    hw.catalogNumbers.perm hm.catalogNumbers, hw.credits.perm hm.credits,
    hw.events.perm hm.events, hw.localizedTitles.perm hm.localizedTitles, hw.discs.perm hm.discs⟩

/-- Only the discs and the order of the titles are left open. -/
theorem Wrote.snapshot_eq_iff (hw : Wrote q h data) (hw' : Wrote q' h' data) :
    snapshot q h = snapshot q' h' ↔ discValues q h = discValues q' h' ∧
      orderBy LocalizedTitle.languageId (q.releases.localizedTitleHistory.itemRows h) =
        orderBy LocalizedTitle.languageId (q'.releases.localizedTitleHistory.itemRows h') := by
  unfold snapshot
  rw [hw.history, hw'.history]
  have hartists := hw.artists.orderBy hw'.artists tieFree_id
  have hevents := hw.events.orderBy hw'.events tieFree_id
  have hcredits := hw.credits.orderById.trans hw'.credits.orderById.symm
  have hnumbers := hw.catalogNumbers.orderById.trans hw'.catalogNumbers.orderById.symm
  simp [object_inj, Fields.keys, hartists, hevents, hcredits, hnumbers]

theorem discValues_eq_nil (hw : Wrote db h data) (hnil : data.discs = []) :
    discValues db h = [] := by
  rw [discValues_eq, hw.discs.eq_nil_iff.mpr (List.map_eq_nil_iff.mpr hnil),
    sortById_eq_nil.mpr rfl]
  rfl

theorem snapshot_eq_iff_nil (hne : h ≠ h') (hw : Wrote db h data) (hw' : Wrote db h' data) :
    (∀ q q', Matches db h q → Matches db h' q' → snapshot q h = snapshot q' h') ↔
      data.discs = [] ∧ TieFree LocalizedTitle.languageId data.localizedTitles := by
  constructor
  · intro hall
    have hvalues := ((hw.snapshot_eq_iff hw').mp (hall db db matches_self matches_self)).1
    rw [discValues_eq, discValues_eq] at hvalues
    obtain ⟨hnil, -⟩ := eq_nil_of_ids hvalues (fun _ _ => discValue_id) (by
      intro r hr s hs
      exact itemRows_disjoint hne (sortById_perm.subset hr) (sortById_perm.subset hs))
    refine ⟨List.map_eq_nil_iff.mp (hw.discs.eq_nil_iff.mp (sortById_eq_nil.mp hnil)), ?_⟩
    by_contra htie
    obtain ⟨t, -, hperm, htitles⟩ := hw.localizedTitles.exists_ne htie
      (orderBy LocalizedTitle.languageId (db.releases.localizedTitleHistory.itemRows h'))
    have hm : Matches db h
        { db with releases := { db.releases with localizedTitleHistory := t } } :=
      { (matches_self : Matches db h db) with localizedTitles := hperm }
    have heq := hall _ db hm matches_self
    exact htitles (((hw.matches hm).snapshot_eq_iff hw').mp heq).2
  · rintro ⟨hnil, htie⟩ q q' hm hm'
    refine ((hw.matches hm).snapshot_eq_iff (hw'.matches hm')).mpr ⟨?_, ?_⟩
    · rw [discValues_eq_nil (hw.matches hm) hnil, discValues_eq_nil (hw'.matches hm') hnil]
    · exact (hw.matches hm).localizedTitles.orderBy (hw'.matches hm').localizedTitles htie

end Release

/-- What two histories of an input show in the same way: no memberships and no discs, whose
identities are shown, and no two rows that the order of the snapshot does not tell apart. -/
def Steady : (k : EntityType) → (historyRepo k).New → Prop
  | .Artist, data => (NewArtist.memberships data).getD [] = []
  | .Label, data => TieFree LocalizedName.languageId ((NewLabel.localizedNames data).getD [])
  | .Release, data => NewRelease.discs data = [] ∧
      TieFree LocalizedTitle.languageId (NewRelease.localizedTitles data)
  | .Song, data => TieFree NewSongRelation.relatedSongId ((NewSong.relations data).getD [])
  | .Tag, data => TieFree TagRelation.relatedTagId ((NewTag.relations data).getD [])
  | _, _ => True

/-- Where there is a snapshot, an empty difference is one of equal snapshots. -/
theorem forall_diff_iff {pretty : Value → String} (k : EntityType) {M M' : Database → Prop}
    (hsome : ∀ q, M q → ∃ v, snapshotForHistory q h k = some v) :
    (∀ q q', M q → M' q' → ∃ v v', snapshotForHistory q h k = some v ∧
        snapshotForHistory q' h' k = some v' ∧ diffSnapshots pretty v v' = []) ↔
      ∀ q q', M q → M' q' → snapshotForHistory q h k = snapshotForHistory q' h' k := by
  refine forall_congr' fun q => forall_congr' fun q' => ?_
  refine forall_congr' fun hm => forall_congr' fun _ => ?_
  constructor
  · rintro ⟨v, v', hv, hv', hnil⟩
    obtain rfl := (diffSnapshots_eq_nil (canonical_snapshotForHistory hv)
      (canonical_snapshotForHistory hv')).mp hnil
    exact hv.trans hv'.symm
  · intro heq
    obtain ⟨v, hv⟩ := hsome q hm
    have hcanonical := canonical_snapshotForHistory hv
    exact ⟨v, v, hv, heq.symm.trans hv, (diffSnapshots_eq_nil hcanonical hcanonical).mpr rfl⟩

section

variable {db₁ db₁' db₂ db₂' : Database}

/-- Two histories of one input differ only in the identities of memberships and discs and in the
order of rows that the query does not order. -/
theorem diff_invents_no_change (pretty : Value → String) (k : EntityType)
    {data : (historyRepo k).New} (hwf₁ : (historyRepo k).Wf db₁)
    (ha : (historyRepo k).createHistory db₁ data = some (db₁', h)) (hwf₂ : (historyRepo k).Wf db₂)
    (hb : (historyRepo k).createHistory db₂ data = some (db₂', h')) (hne : h ≠ h')
    (hma : MatchesHistory db₁' h k db) (hmb : MatchesHistory db₂' h' k db) :
    (∀ q q', MatchesHistory db h k q → MatchesHistory db h' k q' →
        ∃ v v', snapshotForHistory q h k = some v ∧ snapshotForHistory q' h' k = some v' ∧
          diffSnapshots pretty v v' = []) ↔
      Steady k data := by
  cases k with
  | Artist =>
    have hw := (Artist.wrote_createHistory hwf₁ ha).matches hma
    have hw' := (Artist.wrote_createHistory hwf₂ hb).matches hmb
    refine (forall_diff_iff .Artist ?_).trans (Artist.snapshot_eq_iff_nil hne hw hw')
    exact fun q hm => Artist.snapshot_eq_some (hw.matches hm).history
  | Label =>
    have hw := (Label.wrote_createHistory hwf₁ ha).matches hma
    have hw' := (Label.wrote_createHistory hwf₂ hb).matches hmb
    refine (forall_diff_iff .Label ?_).trans (Label.snapshot_eq_iff_tieFree hw hw')
    exact fun q hm => Label.snapshot_eq_some (hw.matches hm).history
  | Release =>
    have hw := (Release.wrote_createHistory hwf₁ ha).matches hma
    have hw' := (Release.wrote_createHistory hwf₂ hb).matches hmb
    refine (forall_diff_iff .Release ?_).trans (Release.snapshot_eq_iff_nil hne hw hw')
    exact fun q hm => Release.snapshot_eq_some (hw.matches hm).history
  | Song =>
    have hw := (Song.wrote_createHistory hwf₁ ha).matches hma
    have hw' := (Song.wrote_createHistory hwf₂ hb).matches hmb
    refine (forall_diff_iff .Song ?_).trans (Song.snapshot_eq_iff_tieFree hw hw')
    exact fun q hm => Song.snapshot_eq_some (hw.matches hm).history
  | Tag =>
    have hw := (Tag.wrote_createHistory hwf₁ ha).matches hma
    have hw' := (Tag.wrote_createHistory hwf₂ hb).matches hmb
    refine (forall_diff_iff .Tag ?_).trans (Tag.snapshot_eq_iff_tieFree hw hw')
    exact fun q hm => Tag.snapshot_eq_some (hw.matches hm).history
  | Event =>
    have hw := (Event.wrote_createHistory hwf₁ ha).matches hma
    have hw' := (Event.wrote_createHistory hwf₂ hb).matches hmb
    refine (forall_diff_iff .Event ?_).trans (iff_of_true ?_ trivial)
    · exact fun q hm => Event.snapshot_eq_some (hw.matches hm).history
    · exact fun q q' hm hm' => (hw.matches hm).snapshot_eq (hw'.matches hm')
  | SongLyrics =>
    have hw := hma.trans (SongLyrics.createHistory_findById ha)
    have hw' := hmb.trans (SongLyrics.createHistory_findById hb)
    refine (forall_diff_iff .SongLyrics ?_).trans (iff_of_true ?_ trivial)
    · exact fun q hm => SongLyrics.snapshot_eq_some (hm.trans hw)
    · exact fun q q' hm hm' => SongLyrics.snapshot_eq (hm.trans hw) (hm'.trans hw')
  | CreditRole =>
    have hw := (CreditRole.wrote_createHistory hwf₁ ha).matches hma
    have hw' := (CreditRole.wrote_createHistory hwf₂ hb).matches hmb
    refine (forall_diff_iff .CreditRole ?_).trans (iff_of_true ?_ trivial)
    · exact fun q hm => CreditRole.snapshot_eq_some (hw.matches hm).history
    · exact fun q q' hm hm' => (hw.matches hm).snapshot_eq (hw'.matches hm')

end

def backwards {C : Type} (t : Table C) : Table C where
  rows := t.rows.reverse
  next := t.next
  lt_next := by simpa using t.lt_next
  nodup := by simpa [List.map_reverse, List.nodup_reverse] using t.nodup

/-- A label with two founders and names in two languages. -/
def aliceLabel : NewLabel := ⟨"Alice", none, none, some [2, 1], some [⟨2, "Arisu"⟩, ⟨1, "Alice"⟩]⟩

def twoFounders : Database :=
  let db : Database := default
  let artist : Artist := ⟨"a", .Solo, none, none, none, none, none, .none, .none⟩
  { db with
    artists := { db.artists with artist := db.artists.artist.insertAll [artist, artist] }
    languages := db.languages.insertAll [⟨"en", "English"⟩, ⟨"ja", "Japanese"⟩] }

def oneLabel : Database := committed (Label.createHistory twoFounders aliceLabel)

def twoLabels : Database := committed (Label.createHistory oneLabel aliceLabel)

def twoLabelsBackwards : Database :=
  { twoLabels with labels := { twoLabels.labels with
      founderHistory := backwards twoLabels.labels.founderHistory
      localizedNameHistory := backwards twoLabels.labels.localizedNameHistory } }

theorem diff_invents_no_change_label :
    ∃ v v', snapshotForHistory twoLabels 1 .Label = some v ∧
      snapshotForHistory twoLabelsBackwards 2 .Label = some v' ∧
      diffSnapshots (fun _ => "") v v' = [] := by
  have ha : Label.createHistory twoFounders aliceLabel = some (oneLabel, 1) := rfl
  have hb : Label.createHistory oneLabel aliceLabel = some (twoLabels, 2) := rfl
  have hma : Label.Matches oneLabel 1 twoLabels := ⟨rfl, List.Perm.refl _, List.Perm.refl _⟩
  have hbackwards : Label.Matches twoLabels 2 twoLabelsBackwards := ⟨rfl, by decide, by decide⟩
  have hsteady : Steady .Label aliceLabel := by
    unfold Steady
    decide
  exact (diff_invents_no_change (fun _ => "") .Label (by constructor <;> decide) ha
    (by constructor <;> decide) hb (by decide) hma Label.matches_self).mpr hsteady _ _
    Label.matches_self hbackwards

def twoTrackHistories : Database :=
  committed (Release.createHistory oneTrackHistory (oneDisc [firstTrack]))

/-- A disc has another identity in either history. -/
theorem same_release_differs :
    (oneDisc [firstTrack]).validate = [] ∧
      Release.createHistory oneTrack (oneDisc [firstTrack]) = some (oneTrackHistory, 1) ∧
      Release.createHistory oneTrackHistory (oneDisc [firstTrack]) = some (twoTrackHistories, 2) ∧
      ∃ v v', snapshotForHistory twoTrackHistories 1 .Release = some v ∧
        snapshotForHistory twoTrackHistories 2 .Release = some v' ∧
        diffSnapshots (fun _ => "") v v' ≠ [] := by
  obtain ⟨v, hv⟩ : ∃ v, snapshotForHistory twoTrackHistories 1 .Release = some v := ⟨_, rfl⟩
  obtain ⟨v', hv'⟩ : ∃ v, snapshotForHistory twoTrackHistories 2 .Release = some v := ⟨_, rfl⟩
  refine ⟨by decide, rfl, rfl, v, v', hv, hv', ?_⟩
  intro hnil
  obtain rfl := (diffSnapshots_eq_nil (canonical_snapshotForHistory hv)
    (canonical_snapshotForHistory hv')).mp hnil
  have hdiscs := (Release.discs_eq_nil_of_snapshot (by decide) Release.matches_self
    Release.matches_self hv hv').1
  exact absurd hdiscs (by decide)

end Thcdb.Catalog
