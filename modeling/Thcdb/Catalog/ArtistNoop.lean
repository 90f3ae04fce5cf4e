import Thcdb.Catalog.Approval
import Thcdb.Catalog.ArtistRuns

namespace Thcdb.Catalog
open Corrections Relational

namespace Artist

section Aliases

variable {db : Database} {t t' : Table ArtistAlias} {id other : ℤ} {c : ArtistAlias}
  {aliases : List ℤ}

theorem otherAlias_ne (hc : c.firstId < c.secondId) : otherAlias id c ≠ id := by
  unfold otherAlias
  split
  · next h => exact fun heq => hc.ne (h.trans heq.symm)
  · next h => exact h

/-- The row of an alias is settled by the artist and by the other side. -/
theorem aliasRow_otherAlias (hc : c.firstId < c.secondId) (hof : ofAlias id c) :
    aliasRow id (otherAlias id c) = c := by
  simp only [ofAlias, Bool.or_eq_true, decide_eq_true_eq] at hof
  unfold otherAlias
  split
  · next h =>
    rw [← h, aliasRow, min_eq_right hc.le, max_eq_left hc.le]
  · next h =>
    obtain rfl := hof.resolve_left h
    rw [aliasRow, min_eq_left hc.le, max_eq_right hc.le]

/-- Aliases that are deleted and written again are the same rows. -/
theorem cols_rewritten_perm (ht : t.Satisfies (aliasConstraints db))
    (haliases : (aliases : Multiset ℤ) = aliasesOf t id) :
    ((t.deleteWhere (ofAlias id)).insertAll (aliases.map (aliasRow id))).cols.Perm t.cols := by
  have hrows : (aliases.map (aliasRow id)).Perm (t.cols.filter (ofAlias id)) := by
    refine ((Multiset.coe_eq_coe.mp haliases).map _).trans (List.Perm.of_eq ?_)
    rw [aliasesOf, List.map_map]
    conv_rhs => rw [← List.map_id (t.cols.filter (ofAlias id))]
    apply List.map_congr_left
    intro c hc
    obtain ⟨hmem, hof⟩ := List.mem_filter.mp hc
    have hcheck := ht.1 c hmem
    simp only [aliasConstraints, Bool.and_eq_true, decide_eq_true_eq] at hcheck
    exact aliasRow_otherAlias hcheck.2 hof
  rw [Table.cols_insertAll, Table.cols_deleteWhere]
  refine (List.perm_append_comm.trans (hrows.append_right _)).trans ?_
  exact List.filter_append_perm _ _

theorem aliasesOf_perm (h : t'.cols.Perm t.cols) :
    (aliasesOf t' other : Multiset ℤ) = aliasesOf t other :=
  Multiset.coe_eq_coe.mpr ((h.filter _).map _)

end Aliases

section Memberships

variable {db : Database} {id historyId other : ℤ} {artistType : ArtistType}
  {t t' : MembershipTables ArtistMembership}

/-- Without memberships, before and in the history, nothing is written. -/
theorem approvedMemberships_eq_self (hnone : ∀ c ∈ db.artists.membership.cols, !ofMembership id c)
    (hnil : db.artists.membershipHistory.itemRows historyId = []) :
    approvedMemberships db id historyId artistType = liveMemberships db := by
  have hdelete : db.artists.membership.deleteWhere (ofMembership id) = db.artists.membership := by
    apply Table.ext
    · refine List.filter_eq_self.mpr fun r hr => ?_
      exact hnone r.cols (List.mem_map_of_mem hr)
    · rfl
  rw [approvedMemberships, hnil, hdelete]
  simp [withMemberships, hang, liveMemberships]

/-- Where a membership goes that was shown on a page, that page is not the same. -/
theorem length_membershipsOf_lt
    (ht : t'.1.rows = t.1.rows.filter fun r => !ofMembership id r.cols) {r : Row ArtistMembership}
    (hr : r ∈ t.1.rows) (hof : ofMembership id r.cols) (hshown : shown artistType other r.cols) :
    (membershipsOf t' artistType other).length < (membershipsOf t artistType other).length := by
  have hsub : (t'.1.rows.filter fun r => shown artistType other r.cols).Sublist
      (t.1.rows.filter fun r => shown artistType other r.cols) := by
    rw [ht]
    exact List.filter_sublist.filter _
  rw [membershipsOf, membershipsOf, List.length_map, List.length_map]
  refine lt_of_le_of_ne hsub.length_le fun hlength => ?_
  have hmem : r ∈ t'.1.rows.filter fun r => shown artistType other r.cols := by
    rw [hsub.eq_of_length hlength]
    exact List.mem_filter.mpr ⟨hr, hshown⟩
  have hrow := (List.mem_filter.mp hmem).1
  rw [ht] at hrow
  simp [hof] at hrow

/-- A membership that is not shown on the page of one side is shown on that of the other. -/
theorem shown_elsewhere (hs : Sound db) {artist : Artist} {c : ArtistMembership}
    (hartist : db.artists.artist.findById id = some artist)
    (hc : c ∈ db.artists.membership.cols) (hof : ofMembership id c)
    (hhidden : ¬shown artist.artistType id c) :
    ∃ i other, i ≠ id ∧ db.artists.artist.findById i = some other ∧
      shown other.artistType i c := by
  obtain ⟨⟨group, hgroup⟩, member, hmember⟩ := hs.wf.artists_of_membership hc
  have hseen := hs.seen c hc group member hgroup hmember
  simp only [ofMembership, Bool.or_eq_true, decide_eq_true_eq] at hof
  by_cases hsolo : artist.artistType = .Solo
  · have hne : c.memberId ≠ id := by simpa [shown, hsolo] using hhidden
    have hid := hof.resolve_left hne
    rw [hid, hartist] at hgroup
    obtain rfl := Option.some.inj hgroup
    have htype := hseen.resolve_left (not_not.mpr hsolo)
    exact ⟨c.memberId, member, hne, hmember, by simp [shown, htype]⟩
  · have hne : c.groupId ≠ id := by simpa [shown, hsolo] using hhidden
    have hid := hof.resolve_right hne
    rw [hid, hartist] at hmember
    obtain rfl := Option.some.inj hmember
    have htype := hseen.resolve_right hsolo
    exact ⟨c.groupId, group, hne, hgroup, by simp [shown, htype]⟩

end Memberships

section Noop

variable {db db' : Database} {id historyId other : ℤ} {artist history : Artist}
  {common : CommonFilter} {page : Page List} {revisions : List CorrectionRevision}
  {correction : Correction} {revision : CorrectionRevision}

/-- Where a history sends the page back, without memberships, the rows of others stay. -/
theorem live_approved_of_ne (hwf : Wf db)
    (hnone : ∀ c ∈ db.artists.membership.cols, !ofMembership id c)
    (hnil : db.artists.membershipHistory.itemRows historyId = [])
    (haliases : (db.artists.aliasHistory.items historyId : Multiset ℤ) =
      aliasesOf db.artists.artistAlias id) (hne : other ≠ id) :
    live (approved db id historyId history) other = live db other := by
  have hmemberships : liveMemberships (approved db id historyId history) = liveMemberships db :=
    approvedMemberships_eq_self hnone hnil
  have hrows : (aliasesOf (approved db id historyId history).artists.artistAlias other :
      Multiset ℤ) = aliasesOf db.artists.artistAlias other :=
    aliasesOf_perm (cols_rewritten_perm hwf.artistAlias haliases)
  unfold live
  rw [hmemberships, hrows]
  simp [approved, Table.findById_set_of_ne hne, hne]

/-- A page that is approved as it is has no memberships, or they have neither roles nor tenures. -/
theorem membershipsOf_eq_nil (hwf : Wf db)
    (hproper : Proper (pageFrom db id artist).content) (hfree : Unburdened db id) :
    membershipsOf (liveMemberships db) artist.artistType id = [] := by
  by_contra hne
  have hmemberships : (pageFrom db id artist).content.memberships ≠ 0 := by
    rw [content_memberships hwf]
    simpa using hne
  obtain ⟨m, hm, hroles⟩ := hproper.roles hmemberships
  rw [content_memberships hwf] at hm
  obtain ⟨r, hr, rfl⟩ := List.mem_map.mp (Multiset.mem_coe.mp hm)
  obtain ⟨hrow, hshown⟩ := List.mem_filter.mp hr
  have hnil := (hfree r hrow (ofMembership_of_shown hshown)).1
  exact hroles (by simp [membershipContent, liveMemberships, hnil])

theorem itemRows_of_stored (hwf : Wf db)
    (hc : stored db historyId = some (pageFrom db id artist).content)
    (hnil : membershipsOf (liveMemberships db) artist.artistType id = []) :
    db.artists.membershipHistory.itemRows historyId = [] := by
  obtain ⟨history, -, heq⟩ := Option.map_eq_some_iff.mp hc
  have hmemberships := congrArg Content.memberships heq
  rw [content_memberships hwf, hnil] at hmemberships
  simpa [membershipHistoriesOf, historyMemberships] using hmemberships

/-- The pages of others count their memberships. -/
theorem length_of_unordered_eq (hwf : Wf db) (hwf' : Wf db')
    (hlanguages : db'.languages = db.languages) (hroles : db'.creditRoles = db.creditRoles)
    (hartist : db.artists.artist.findById other = some artist)
    (hartist' : db'.artists.artist.findById other = some artist)
    (h : (findOne db' ⟨none, none⟩ other).map Page.unordered =
      (findOne db ⟨none, none⟩ other).map Page.unordered) :
    (membershipsOf (liveMemberships db') artist.artistType other).length =
      (membershipsOf (liveMemberships db) artist.artistType other).length := by
  rw [unordered_findOne hwf', unordered_findOne hwf, pageOf_congr hlanguages hroles, live, live,
    hartist, hartist'] at h
  simp only [Option.map_some, CommonFilter.accepts, Option.all_none, Bool.and_self,
    Option.filter, if_true, Option.some.injEq] at h
  have hcard := congrArg (fun page : Page Multiset => page.memberships.card) h
  simpa [pageOf] using hcard

/-- Where nothing shows on any page, no membership mentions the artist. -/
theorem not_ofMembership (hs : Sound db) (hs' : Sound (approved db id historyId history))
    (hartist : db.artists.artist.findById id = some artist)
    (hc : stored db historyId = some (pageFrom db id artist).content)
    (hfree : Unburdened db id)
    (hall : ∀ other, (findOne (approved db id historyId history) ⟨none, none⟩ other).map
      Page.unordered = (findOne db ⟨none, none⟩ other).map Page.unordered) :
    ∀ c ∈ db.artists.membership.cols, !ofMembership id c := by
  intro c hmem
  have hnil := membershipsOf_eq_nil hs.wf (hs.proper _ _ hc) hfree
  have hhistories := itemRows_of_stored hs.wf hc hnil
  obtain ⟨r, hr, rfl⟩ := List.mem_map.mp hmem
  by_contra hof
  have hof : ofMembership id r.cols := by simpa using hof
  have hhidden : ¬shown artist.artistType id r.cols := by
    intro hshown
    have hlist := List.map_eq_nil_iff.mp hnil
    exact List.filter_eq_nil_iff.mp hlist r hr hshown
  obtain ⟨i, other, hne, hother, hshown⟩ := shown_elsewhere hs hartist hmem hof hhidden
  have hother' : (approved db id historyId history).artists.artist.findById i = some other :=
    (Table.findById_set_of_ne hne).trans hother
  have hrows : (liveMemberships (approved db id historyId history)).1.rows =
      (liveMemberships db).1.rows.filter fun r => !ofMembership id r.cols := by
    simp [liveMemberships, approved, approvedMemberships, hhistories, withMemberships,
      Table.deleteWhere]
  have hlt := length_membershipsOf_lt hrows hr hof hshown
  have heq := length_of_unordered_eq hs.wf hs'.wf rfl rfl hother hother' (hall i)
  omega

theorem membershipsOf_of_none {artistType : ArtistType}
    (hnone : ∀ c ∈ db.artists.membership.cols, !ofMembership id c) :
    membershipsOf (liveMemberships db) artistType id = [] := by
  rw [membershipsOf, List.map_eq_nil_iff, List.filter_eq_nil_iff]
  intro r hr hshown
  have hnot := hnone r.cols (List.mem_map_of_mem hr)
  rw [ofMembership_of_shown hshown] at hnot
  cases hnot

theorem aliases_of_stored (hc : stored db historyId = some (pageFrom db id artist).content) :
    (db.artists.aliasHistory.items historyId : Multiset ℤ) =
      aliasesOf db.artists.artistAlias id := by
  obtain ⟨history, -, heq⟩ := Option.map_eq_some_iff.mp hc
  exact congrArg Content.aliases heq

/-- Nothing stands in the way of the approval of a page without memberships on either side. -/
theorem approvable_of_none (hwf : Wf db)
    (hnone : ∀ c ∈ db.artists.membership.cols, !ofMembership id c) :
    Approvable db id (pageFrom db id artist).content := by
  refine ⟨?_, ?_⟩
  · intro hself
    obtain ⟨c, hc, hother⟩ := List.mem_map.mp (Multiset.mem_coe.mp hself)
    have hcheck := hwf.artistAlias.1 c (List.mem_filter.mp hc).1
    simp only [aliasConstraints, Bool.and_eq_true, decide_eq_true_eq] at hcheck
    exact otherAlias_ne hcheck.2 hother
  · intro r hr hof
    have hnot := hnone r.cols (List.mem_map_of_mem hr)
    rw [hof] at hnot
    cases hnot

/-- The content of the page shows what the rows of the artist show. -/
theorem filter_content (hartist : db.artists.artist.findById id = some artist) :
    ((some (pageFrom db id artist).content).filter fun c =>
        common.accepts id c.artist.artistType).map (pageOf db id) =
      ((live db id).filter fun c => common.accepts id c.artist.artistType).map (pageOf db id) := by
  have htype : (pageFrom db id artist).content.artist.artistType = artist.artistType := rfl
  rw [live, hartist]
  cases haccepts : common.accepts id artist.artistType with
  | false => simp [Option.filter, htype, haccepts]
  | true => simp [Option.filter, htype, haccepts, pageOf_content, unordered_pageFrom]

/-- Sending the page of an artist back changes nothing if, and only if, no membership mentions the
artist, on either side. -/
theorem noop_changes_nothing (hr : Reachable db)
    (hpage : findOne db common correction.entityId = some page)
    (hnewest : findRevision revisions correction.id = some revision)
    (hc : stored db revision.entityHistoryId = some page.content) :
    (∃ db', applyUpdate db revisions correction = some db' ∧ ∀ common id,
        (findOne db' common id).map Page.unordered = (findOne db common id).map Page.unordered) ↔
      ∀ c ∈ db.artists.membership.cols, !ofMembership correction.entityId c := by
  have hs := hr.sound
  obtain ⟨artist, hartist, rfl⟩ := findOne_eq_some hs.wf hpage
  constructor
  · rintro ⟨db', happly, hall⟩
    have hs' := hs.applyUpdate happly
    obtain ⟨revision', history, hnewest', -, -, hfree, rfl⟩ := hs.applyUpdate_eq_some happly
    obtain rfl := Option.some.inj (hnewest.symm.trans hnewest')
    exact not_ofMembership hs hs' hartist hc hfree (hall ⟨none, none⟩)
  · intro hnone
    obtain ⟨db', happly, hlive⟩ := live_applyUpdate hs.wf hnewest
      (Table.has_iff_findById.mpr ⟨artist, hartist⟩) hc (hs.proper _ _ hc)
      (approvable_of_none hs.wf hnone)
    have hs' := hs.applyUpdate happly
    refine ⟨db', happly, fun common i => ?_⟩
    obtain ⟨revision', history, hnewest', -, -, -, rfl⟩ := hs.applyUpdate_eq_some happly
    obtain rfl := Option.some.inj (hnewest.symm.trans hnewest')
    have hpageOf : pageOf (approved db correction.entityId revision.entityHistoryId history) =
        pageOf db := pageOf_congr rfl rfl
    rw [unordered_findOne hs'.wf, unordered_findOne hs.wf, hpageOf]
    by_cases hi : i = correction.entityId
    · rw [hi, hlive]
      exact filter_content hartist
    · have hhistories := itemRows_of_stored hs.wf hc (membershipsOf_of_none hnone)
      rw [live_approved_of_ne hs.wf hnone hhistories (aliases_of_stored hc) hi]

end Noop

section Band

def oneCreditRole : Database :=
  let db : Database := default
  { db with creditRoles := { db.creditRoles with
    creditRole := db.creditRoles.creditRole.insertAll [⟨"vocals", "", ""⟩] } }

def named (name : String) (artistType : ArtistType) (aliases : List ℤ)
    (memberships : List NewMembership) : NewArtist where
  name := name
  artistType := artistType
  aliases := some aliases
  textAliases := none
  startDate := none
  endDate := none
  links := none
  localizedNames := none
  startLocation := none
  currentLocation := none
  memberships := some memberships

def singer : NewArtist := named "singer" .Solo [] []

def band : NewArtist := named "band" .Multiple [] [⟨1, [1], [⟨some 2000, none⟩]⟩]

def pseudonym : NewArtist := named "pseudonym" .Solo [1] []

def withSinger (data : NewArtist) : Database :=
  committed (create (committed (create oneCreditRole singer)) data)

def withHistory (data : NewArtist) : Database := committed (createHistory (withSinger data) data)

def secondCorrection : Correction := ⟨1, .Pending, .Update, .Artist, 2, 0, none⟩

theorem reachable_singer : Reachable (committed (create oneCreditRole singer)) := by
  have hstart : Reachable oneCreditRole := .start rfl
  have hvalid : singer.validate = .ok () := rfl
  have hcreate : create oneCreditRole singer =
      some (committed (create oneCreditRole singer), 1) := rfl
  exact hstart.create hvalid hcreate

theorem reachable_withHistory {data : NewArtist} (hvalid : data.validate = .ok ())
    (hcreate : create (committed (create oneCreditRole singer)) data = some (withSinger data, 2))
    (hhistory : createHistory (withSinger data) data = some (withHistory data, 1)) :
    Reachable (withHistory data) :=
  (reachable_singer.create hvalid hcreate).submit hvalid hhistory

theorem noop_changes_nothing_pseudonym :
    ∃ db', applyUpdate (withHistory pseudonym) [firstRevision] secondCorrection = some db' ∧
      ∀ common id, (findOne db' common id).map Page.unordered =
        (findOne (withHistory pseudonym) common id).map Page.unordered := by
  have hr : Reachable (withHistory pseudonym) := reachable_withHistory rfl rfl rfl
  have hpage : findOne (withHistory pseudonym) ⟨none, none⟩ secondCorrection.entityId =
      some (pageFrom (withHistory pseudonym) 2 pseudonym.columns) := rfl
  have hnewest : findRevision [firstRevision] secondCorrection.id = some firstRevision := by decide
  exact (noop_changes_nothing hr hpage hnewest rfl).mpr (by decide)

/-- The page of a band is sent back, and the approval fails: its membership has a role. -/
theorem band_page_not_approved :
    Reachable (withHistory band) ∧ ∃ page,
      findOne (withHistory band) ⟨none, none⟩ 2 = some page ∧ page.artistType = .Multiple ∧
        stored (withHistory band) 1 = some page.content ∧
        applyUpdate (withHistory band) [firstRevision] secondCorrection = none := by
  have hr : Reachable (withHistory band) := reachable_withHistory rfl rfl rfl
  have hcontent : (pageFrom (withHistory band) 2 band.columns).content = Artist.content band := by
    have hmemberships : (pageFrom (withHistory band) 2 band.columns).content.memberships =
        membershipsOf (liveMemberships (withHistory band)) .Multiple 2 :=
      content_memberships hr.sound.wf
    have hfields : (pageFrom (withHistory band) 2 band.columns).content =
        { Artist.content band with
          memberships := (pageFrom (withHistory band) 2 band.columns).content.memberships } := rfl
    rw [hfields, hmemberships]
    rfl
  refine ⟨hr, pageFrom (withHistory band) 2 band.columns, rfl, rfl, ?_, rfl⟩
  rw [hcontent]
  rfl

end Band

end Artist

end Thcdb.Catalog
