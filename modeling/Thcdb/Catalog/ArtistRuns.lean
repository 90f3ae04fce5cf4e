import Thcdb.Catalog.ArtistPage

namespace Thcdb.Catalog
open Corrections Relational

namespace Artist

section Wf

variable {db db' : Database} {data : NewArtist} {id historyId : ℤ}

/-- More artists and more histories break no constraint. -/
theorem Wf.grow (hwf : Wf db) (artist history : Table Artist)
    (hartist : ∀ i, db.artists.artist.has i → artist.has i)
    (hhistory : ∀ i, db.artists.history.has i → history.has i) :
    Wf { db with artists := { db.artists with artist := artist, history := history } } where
  artistAlias := by
    refine hwf.artistAlias.mono ?_ rfl
    intro c hc
    simp only [aliasConstraints, Database.hasArtist, Bool.and_eq_true] at hc ⊢
    exact ⟨⟨hartist _ hc.1.1, hartist _ hc.1.2⟩, hc.2⟩
  link := hwf.link.of_check rfl hartist fun _ _ hi => hi
  localizedName := hwf.localizedName.of_check rfl hartist fun _ _ hi => hi
  membership := by
    refine hwf.membership.mono ?_ rfl
    intro c hc
    simp only [membershipConstraints, Database.hasArtist, Bool.and_eq_true] at hc ⊢
    exact ⟨hartist _ hc.1, hartist _ hc.2⟩
  membershipRole := hwf.membershipRole
  membershipTenure := hwf.membershipTenure
  aliasHistory := hwf.aliasHistory.of_check rfl hhistory fun _ _ => hartist _
  linkHistory := hwf.linkHistory.of_check rfl hhistory fun _ _ hi => hi
  localizedNameHistory := hwf.localizedNameHistory.of_check rfl hhistory fun _ _ hi => hi
  membershipHistory := hwf.membershipHistory.of_check rfl hhistory fun _ _ => hartist _
  membershipRoleHistory := hwf.membershipRoleHistory
  membershipTenureHistory := hwf.membershipTenureHistory

theorem satisfies_createAliases {t t' : Table ArtistAlias} {aliases : List ℤ}
    (ht : t.Satisfies (aliasConstraints db)) (h : createAliases db t id aliases = some t') :
    t'.Satisfies (aliasConstraints db) := by
  unfold createAliases at h
  split at h
  · obtain rfl := Option.some.inj h
    exact ht
  · exact ht.insertMany h

theorem satisfies_createMemberships (hwf : Wf db) {artistType : ArtistType}
    {members : List NewMembership} {t : MembershipTables ArtistMembership}
    (h : createMemberships db id artistType members = some t) :
    t.1.Satisfies (membershipConstraints db) ∧
      t.2.1.Satisfies ((roleCheck db).on t.1).constraints ∧
      t.2.2.Satisfies (tenureCheck.on t.1).constraints := by
  unfold createMemberships at h
  split at h
  · obtain rfl := Option.some.inj h
    exact ⟨hwf.membership, hwf.membershipRole, hwf.membershipTenure⟩
  · exact satisfies_insertNested hwf.membership hwf.membershipRole hwf.membershipTenure h

theorem satisfies_createMembershipHistories (hwf : Wf db) {members : List NewMembership}
    {t : MembershipTables (Owned ℤ)}
    (h : createMembershipHistories db historyId members = some t) :
    t.1.Satisfies (membershipHistorySchema db).constraints ∧
      t.2.1.Satisfies ((roleCheck db).on t.1).constraints ∧
      t.2.2.Satisfies (tenureCheck.on t.1).constraints := by
  unfold createMembershipHistories at h
  split at h
  · obtain rfl := Option.some.inj h
    exact ⟨hwf.membershipHistory, hwf.membershipRoleHistory, hwf.membershipTenureHistory⟩
  · exact satisfies_insertNested hwf.membershipHistory hwf.membershipRoleHistory
      hwf.membershipTenureHistory h

theorem satisfies_updateMemberships (hwf : Wf db) {artistType : ArtistType}
    {t : MembershipTables ArtistMembership}
    (h : updateMemberships db id historyId artistType = some t) :
    t.1.Satisfies (membershipConstraints db) ∧
      t.2.1.Satisfies ((roleCheck db).on t.1).constraints ∧
      t.2.2.Satisfies (tenureCheck.on t.1).constraints := by
  obtain ⟨membership, hdelete, h⟩ := Option.bind_eq_some_iff.mp h
  rw [deleteMemberships_eq] at hdelete
  split at hdelete
  · next hfree =>
    obtain rfl := Option.some.inj hdelete
    have hmembership := hwf.membership.deleteWhere (p := ofMembership id)
    have hrole := hwf.membershipRole.on_deleteWhere fun r hr hof => (hfree r hr hof).1
    have htenure := hwf.membershipTenure.on_deleteWhere fun r hr hof => (hfree r hr hof).2
    dsimp only at h
    split at h
    · obtain rfl := Option.some.inj h
      exact ⟨hmembership, hrole, htenure⟩
    · exact satisfies_insertNested hmembership hrole htenure h
  · cases hdelete

theorem wf_create (hwf : Wf db) (h : create db data = some (db', id)) : Wf db' := by
  simp only [create, Option.bind_eq_bind, Option.bind_eq_some_iff, Prod.exists] at h
  obtain ⟨artist, i, hartist, aliases, haliases, link, hlink, name, hname, membership, role, tenure,
    hmemberships, heq⟩ := h
  obtain ⟨-, rfl, rfl⟩ := Table.insert_eq_some hartist
  have hgrown := hwf.grow (db.artists.artist.insertAll [data.columns]) db.artists.history
    (fun i hi => Table.has_insertAll hi) fun i hi => hi
  rw [elim_createAliases] at haliases
  rw [createGiven_eq] at hlink hname
  rw [elim_createMemberships] at hmemberships
  obtain ⟨hmembership, hrole, htenure⟩ := satisfies_createMemberships hgrown hmemberships
  obtain ⟨rfl, rfl⟩ := Prod.mk.inj (Option.some.inj heq)
  exact {
    hgrown with
    artistAlias := satisfies_createAliases hgrown.artistAlias haliases
    link := hgrown.link.createChildren hlink
    localizedName := hgrown.localizedName.createChildren hname
    membership := hmembership
    membershipRole := hrole
    membershipTenure := htenure }

theorem wf_createHistory (hwf : Wf db) (h : createHistory db data = some (db', historyId)) :
    Wf db' := by
  simp only [createHistory, Option.bind_eq_bind, Option.bind_eq_some_iff, Prod.exists] at h
  obtain ⟨history, i, hhistory, aliases, haliases, link, hlink, name, hname, membership, role,
    tenure, hmemberships, heq⟩ := h
  obtain ⟨-, rfl, rfl⟩ := Table.insert_eq_some hhistory
  have hgrown := hwf.grow db.artists.artist (db.artists.history.insertAll [data.columns])
    (fun i hi => hi) fun i hi => Table.has_insertAll hi
  rw [createGiven_eq] at haliases hlink hname
  rw [elim_createMembershipHistories] at hmemberships
  obtain ⟨hmembership, hrole, htenure⟩ := satisfies_createMembershipHistories hgrown hmemberships
  obtain ⟨rfl, rfl⟩ := Prod.mk.inj (Option.some.inj heq)
  exact {
    hgrown with
    aliasHistory := hgrown.aliasHistory.createChildren haliases
    linkHistory := hgrown.linkHistory.createChildren hlink
    localizedNameHistory := hgrown.localizedNameHistory.createChildren hname
    membershipHistory := hmembership
    membershipRoleHistory := hrole
    membershipTenureHistory := htenure }

theorem wf_applyUpdate {revisions : List CorrectionRevision} {correction : Correction}
    (hwf : Wf db) (h : applyUpdate db revisions correction = some db') : Wf db' := by
  simp only [applyUpdate, applyHistory, Option.bind_eq_bind, Option.bind_eq_some_iff,
    Prod.exists] at h
  obtain ⟨historyId, history, -, artist, hartist, aliases, haliases, link, hlink, name, hname,
    membership, role, tenure, hmemberships, heq⟩ := h
  obtain ⟨-, -, rfl⟩ := Table.updateById_eq_some hartist
  obtain ⟨hmembership, hrole, htenure⟩ := satisfies_updateMemberships hwf hmemberships
  have hrows : Wf { db with artists := { db.artists with
      artistAlias := aliases, link := link, localizedName := name, membership := membership,
      membershipRole := role, membershipTenure := tenure } } := {
    hwf with
    artistAlias := satisfies_createAliases hwf.artistAlias.deleteWhere haliases
    link := Table.Satisfies.createChildren hwf.link.deleteWhere hlink
    localizedName := Table.Satisfies.createChildren hwf.localizedName.deleteWhere hname
    membership := hmembership
    membershipRole := hrole
    membershipTenure := htenure }
  obtain rfl := Option.some.inj heq
  exact hrows.grow (db.artists.artist.set correction.entityId history) db.artists.history
    (fun i hi => by rwa [Table.has_set]) fun i hi => hi

end Wf

section Histories

variable {db db' : Database} {data : NewArtist} {historyId i : ℤ}

/-- A new history leaves the older ones as they are. -/
theorem stored_createHistory_of_ne (h : createHistory db data = some (db', historyId))
    (hi : i ≠ historyId) : stored db' i = stored db i := by
  obtain ⟨rfl, -, rfl⟩ := createHistory_eq_some h
  have hrows : (putHistory data (historyMemberships db) db.artists.history.next).1.itemRows i =
      db.artists.membershipHistory.itemRows i := by
    have hadopt : (data.memberships.getD []).map (fun m =>
          (⟨db.artists.history.next, m.artistId⟩ : Owned ℤ)) =
        ((data.memberships.getD []).map NewMembership.artistId).map
          (Owned.mk db.artists.history.next) := by
      rw [List.map_map]
      rfl
    simp only [putHistory, hadopt, historyMemberships]
    exact itemRows_adopt_of_ne hi
  have hmemberships : membershipHistoriesOf
        (putHistory data (historyMemberships db) db.artists.history.next) i =
      membershipHistoriesOf (historyMemberships db) i := by
    unfold membershipHistoriesOf
    rw [hrows]
    apply List.map_congr_left
    intro r hr
    have hlt : r.id < db.artists.membershipHistory.next :=
      db.artists.membershipHistory.lt_next _ (mem_itemRows.mp hr)
    simp only [putHistory, historyMemberships, items_hang_of_lt hlt]
  simp only [historyMemberships] at hmemberships
  simp only [stored, Table.findById_insertAll_of_ne hi, items_adopt_of_ne hi, historyMemberships,
    hmemberships]

end Histories

/-- What the transactions on artists keep true: the constraints, that every membership is shown on
the page of its group or of its member, and that no history lacks what its creation asked for. -/
structure Sound (db : Database) : Prop where
  wf : Wf db
  seen : ∀ c ∈ db.artists.membership.cols, ∀ group member,
    db.artists.artist.findById c.groupId = some group →
    db.artists.artist.findById c.memberId = some member →
    group.artistType ≠ .Solo ∨ member.artistType = .Solo
  proper : ∀ historyId c, stored db historyId = some c → Proper c

section Sound

variable {db db' : Database} {data : NewArtist} {id historyId : ℤ}

/-- Either side of a membership is an artist. -/
theorem Wf.artists_of_membership (hwf : Wf db) {c : ArtistMembership}
    (hc : c ∈ db.artists.membership.cols) :
    (∃ group, db.artists.artist.findById c.groupId = some group) ∧
      ∃ member, db.artists.artist.findById c.memberId = some member := by
  have hcheck := hwf.membership.1 c hc
  simp only [membershipConstraints, Bool.and_eq_true] at hcheck
  exact ⟨Table.has_iff_findById.mp hcheck.2, Table.has_iff_findById.mp hcheck.1⟩

/-- A membership is shown on the page of the artist it is written for. -/
theorem seen_membershipRow {t : Table Artist} (artist : Artist) {group member : Artist} {p : ℤ}
    (hartist : t.findById id = some artist)
    (hgroup : t.findById (membershipRow artist.artistType id p).groupId = some group)
    (hmember : t.findById (membershipRow artist.artistType id p).memberId = some member) :
    group.artistType ≠ .Solo ∨ member.artistType = .Solo := by
  unfold membershipRow at hgroup hmember
  by_cases hsolo : artist.artistType = .Solo
  · rw [if_pos hsolo] at hmember
    obtain rfl := Option.some.inj (hartist.symm.trans hmember)
    exact Or.inr hsolo
  · rw [if_neg hsolo] at hgroup
    obtain rfl := Option.some.inj (hartist.symm.trans hgroup)
    exact Or.inl hsolo

theorem sound_start (h : db.artists = default) : Sound db := by
  have hnone : ∀ i, stored db i = none := by
    intro i
    rw [stored, h]
    rfl
  refine ⟨?_, ?_, ?_⟩
  · constructor <;> rw [h] <;> exact Table.satisfies_empty
  · intro c hc
    rw [h] at hc
    cases hc
  · intro i c hc
    rw [hnone] at hc
    cases hc

theorem Sound.create (hs : Sound db) (h : create db data = some (db', id)) : Sound db' := by
  have hwf := wf_create hs.wf h
  obtain ⟨rfl, -, rfl⟩ := create_eq_some h
  refine ⟨hwf, ?_, hs.proper⟩
  intro c hc group member hgroup hmember
  simp only [put, withMemberships, liveMemberships, Table.cols_insertAll] at hc
  rcases List.mem_append.mp hc with hc | hc
  · obtain ⟨⟨g, hg⟩, m, hm⟩ := hs.wf.artists_of_membership hc
    have hgroup' := Option.some.inj ((Table.findById_insertAll hg).symm.trans hgroup)
    have hmember' := Option.some.inj ((Table.findById_insertAll hm).symm.trans hmember)
    rw [← hgroup', ← hmember']
    exact hs.seen c hc g m hg hm
  · obtain ⟨m, -, rfl⟩ := List.mem_map.mp hc
    exact seen_membershipRow data.columns Table.findById_insertAll_next hgroup hmember

theorem Sound.createHistory (hs : Sound db) (hvalid : data.validate = .ok ())
    (h : createHistory db data = some (db', historyId)) : Sound db' := by
  have hwf := wf_createHistory hs.wf h
  have hnew := stored_createHistory hs.wf h
  have hproper := proper_content hvalid h
  have hold := fun i => stored_createHistory_of_ne (i := i) h
  refine ⟨hwf, ?_, ?_⟩
  · obtain ⟨rfl, -, rfl⟩ := createHistory_eq_some h
    exact hs.seen
  · intro i c hc
    by_cases hi : i = historyId
    · rw [hi, hnew] at hc
      obtain rfl := Option.some.inj hc
      exact hproper
    · rw [hold i hi] at hc
      exact hs.proper i c hc

variable {revisions : List CorrectionRevision} {correction : Correction}

/-- What an approval that succeeds has found, and the tables it leaves. -/
theorem Sound.applyUpdate_eq_some (hs : Sound db)
    (h : applyUpdate db revisions correction = some db') :
    ∃ revision history, findRevision revisions correction.id = some revision ∧
      db.hasArtist correction.entityId ∧
      db.artists.history.findById revision.entityHistoryId = some history ∧
      Unburdened db correction.entityId ∧
      db' = approved db correction.entityId revision.entityHistoryId history := by
  have happly := h
  unfold applyUpdate revisedHistory at h
  simp only [applyHistory, Option.bind_eq_bind, Option.bind_eq_some_iff, Prod.exists] at h
  obtain ⟨historyId, history, ⟨revision, hnewest, row, hrow, heq⟩, artist, hartist, -⟩ := h
  obtain ⟨rfl, rfl⟩ := Prod.mk.inj (Option.some.inj heq)
  have hid := (Table.updateById_eq_some hartist).1
  have hproper := hs.proper revision.entityHistoryId _ (congrArg (Option.map _) hrow)
  rw [applyUpdate_eq hs.wf hnewest hid hrow
    ⟨hproper.unknown, hproper.roles, hproper.tenures⟩] at happly
  split at happly
  · next hfree =>
    exact ⟨revision, row, hnewest, hid, hrow, hfree.2, (Option.some.inj happly).symm⟩
  · cases happly

theorem Sound.applyUpdate (hs : Sound db) (h : applyUpdate db revisions correction = some db') :
    Sound db' := by
  have hwf := wf_applyUpdate hs.wf h
  obtain ⟨revision, history, -, hid, -, -, rfl⟩ := hs.applyUpdate_eq_some h
  refine ⟨hwf, ?_, hs.proper⟩
  intro c hc group member hgroup hmember
  simp only [approved, approvedMemberships, withMemberships, Table.cols_insertAll] at hc
  rcases List.mem_append.mp hc with hc | hc
  · -- memberships of the artist are gone, and the types of others are as before
    rw [Table.cols_deleteWhere] at hc
    obtain ⟨hc, hof⟩ := List.mem_filter.mp hc
    simp only [ofMembership, Bool.not_or, Bool.and_eq_true, Bool.not_eq_true',
      decide_eq_false_iff_not] at hof
    simp only [approved, Table.findById_set_of_ne hof.1, Table.findById_set_of_ne hof.2]
      at hgroup hmember
    exact hs.seen c hc group member hgroup hmember
  · obtain ⟨r, -, rfl⟩ := List.mem_map.mp hc
    exact seen_membershipRow history (Table.findById_set hid) hgroup hmember

end Sound

inductive Reachable : Database → Prop
  | start {db : Database} : db.artists = default → Reachable db
  | create {db db' : Database} {data : NewArtist} {id : ℤ} : Reachable db →
      data.validate = .ok () → Artist.create db data = some (db', id) → Reachable db'
  | submit {db db' : Database} {data : NewArtist} {historyId : ℤ} : Reachable db →
      data.validate = .ok () → Artist.createHistory db data = some (db', historyId) → Reachable db'
  | approve {db db' : Database} {revisions : List CorrectionRevision} {correction : Correction} :
      Reachable db → Artist.applyUpdate db revisions correction = some db' → Reachable db'

theorem Reachable.sound {db : Database} (hr : Reachable db) : Sound db := by
  induction hr with
  | start h => exact sound_start h
  | create _ _ h ih => exact ih.create h
  | submit _ hvalid h ih => exact ih.createHistory hvalid h
  | approve _ h ih => exact ih.applyUpdate h

end Artist

end Thcdb.Catalog
