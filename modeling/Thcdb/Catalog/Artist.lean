import Thcdb.Catalog.Database
import Thcdb.Relational.Nested

namespace Thcdb.Catalog
open Corrections Relational

structure NewMembership where
  artistId : ℤ
  roles : List ℤ
  tenure : List Tenure
  deriving DecidableEq, Repr

structure NewArtist where
  name : String
  artistType : ArtistType
  aliases : Option (List ℤ)
  textAliases : Option (List String)
  startDate : Option DateWithPrecision
  endDate : Option DateWithPrecision
  links : Option (List String)
  localizedNames : Option (List LocalizedName)
  startLocation : Option Location
  currentLocation : Option Location
  memberships : Option (List NewMembership)
  deriving DecidableEq, Repr

namespace NewArtist

inductive ValidationErrorKind
  | UnknownTypeArtistHasMembers
  | InvalidTenure
  deriving DecidableEq, Repr

def ValidationErrorKind.message : ValidationErrorKind → String
  | .UnknownTypeArtistHasMembers => "Unknown type artist cannot have members"
  | .InvalidTenure => "Invalid tenure"

def validateArtistTypeAndMembership (artistType : ArtistType)
    (membership : Option (List NewMembership)) : Except ValidationErrorKind Unit :=
  if artistType = .Unknown ∧ membership.any (!·.isEmpty) then .error .UnknownTypeArtistHasMembers
  else .ok ()

/-- Years before the first and after the last one are open. -/
def tenureBefore (first second : Tenure) : Bool :=
  match first.leaveYear, second.joinYear with
  | some firstLeave, some secondJoin =>
    first.joinYear.getD 0 < firstLeave ∧ firstLeave < secondJoin ∧
      secondJoin < second.leaveYear.getD 32767
  | _, _ => false

/-- The windows of two tenures. -/
def validateTenureBody : List Tenure → Bool
  | first :: second :: rest => tenureBefore first second && validateTenureBody (second :: rest)
  | _ => true

def validateTenures (tenures : List Tenure) : Except ValidationErrorKind Unit :=
  let valid : Bool := match tenures with
    | [] => true
    | [⟨some join, some leave⟩] => leave < join
    | [_] => true
    | rest => validateTenureBody rest
  if valid then .ok () else .error .InvalidTenure

def validate (data : NewArtist) : Except ValidationErrorKind Unit := do
  validateArtistTypeAndMembership data.artistType data.memberships
  (data.memberships.getD []).forM fun membership => validateTenures membership.tenure

def columns (data : NewArtist) : Artist where
  name := data.name
  artistType := data.artistType
  textAlias := data.textAliases
  startDate := data.startDate.map DateWithPrecision.value
  startDatePrecision := data.startDate.map DateWithPrecision.precision
  endDate := data.endDate.map DateWithPrecision.value
  endDatePrecision := data.endDate.map DateWithPrecision.precision
  startLocation := data.startLocation.getD Location.none
  currentLocation := data.currentLocation.getD Location.none

end NewArtist

namespace Artist

variable (db : Database)

def aliasConstraints : Constraints ArtistAlias where
  check c := db.hasArtist c.firstId && db.hasArtist c.secondId && c.firstId < c.secondId
  conflict c d := c = d

def linkSchema : ChildSchema String := ⟨db.hasArtist, fun _ _ => true, false⟩

def localizedNameSchema : ChildSchema LocalizedName :=
  ⟨db.hasArtist, fun _ name => db.hasLanguage name.languageId, false⟩

def membershipConstraints : Constraints ArtistMembership where
  check c := db.hasArtist c.memberId && db.hasArtist c.groupId
  conflict _ _ := false

def roleCheck : ChildCheck ℤ := ⟨db.hasCreditRole, true⟩

def tenureCheck : ChildCheck Tenure := ⟨fun _ => true, false⟩

def hasHistory (id : ℤ) : Bool := db.artists.history.has id

def aliasHistorySchema : ChildSchema ℤ :=
  ⟨hasHistory db, fun _ artist => db.hasArtist artist, true⟩

def linkHistorySchema : ChildSchema String := { linkSchema db with owner := hasHistory db }

def localizedNameHistorySchema : ChildSchema LocalizedName :=
  { localizedNameSchema db with owner := hasHistory db }

def membershipHistorySchema : ChildSchema ℤ :=
  ⟨hasHistory db, fun _ artist => db.hasArtist artist, false⟩

def aliasRow (artistId aliasId : ℤ) : ArtistAlias := ⟨min aliasId artistId, max aliasId artistId⟩

/-- `create_artist_alias`, and its part of `update_artist_aliases` -/
def createAliases (t : Table ArtistAlias) (artistId : ℤ) (aliases : List ℤ) :
    Option (Table ArtistAlias) :=
  if aliases.isEmpty then some t
  else t.insertMany (aliasConstraints db) (aliases.map (aliasRow artistId))

/-- The row of a membership as creation writes it. -/
def membershipRow (artistType : ArtistType) (artistId partner : ℤ) : ArtistMembership :=
  if artistType = .Solo then { groupId := partner, memberId := artistId }
  else { groupId := artistId, memberId := partner }

/-- The row of a membership as approvals write it. -/
def approvedRow (artistType : ArtistType) (artistId partner : ℤ) : ArtistMembership :=
  if artistType = .Multiple then { groupId := artistId, memberId := partner }
  else { groupId := partner, memberId := artistId }

abbrev MembershipTables (C : Type) := Table C × Table (Owned ℤ) × Table (Owned Tenure)

def liveMemberships : MembershipTables ArtistMembership :=
  (db.artists.membership, db.artists.membershipRole, db.artists.membershipTenure)

def historyMemberships : MembershipTables (Owned ℤ) :=
  (db.artists.membershipHistory, db.artists.membershipRoleHistory,
    db.artists.membershipTenureHistory)

/-- Roles and tenures are inserted even if there are none, which is an error. -/
def insertMemberships {C : Type} (k : Constraints C) (t : MembershipTables C) (rows : List C)
    (roles : List (List ℤ)) (tenures : List (List Tenure)) : Option (MembershipTables C) :=
  insertNested k (roleCheck db) tenureCheck t.1 t.2.1 t.2.2 rows roles tenures

def createMemberships (artistId : ℤ) (artistType : ArtistType) (members : List NewMembership) :
    Option (MembershipTables ArtistMembership) :=
  if members.isEmpty then some (liveMemberships db)
  else insertMemberships db (membershipConstraints db) (liveMemberships db)
    (members.map fun member => membershipRow artistType artistId member.artistId)
    (members.map NewMembership.roles) (members.map NewMembership.tenure)

def createMembershipHistories (historyId : ℤ) (members : List NewMembership) :
    Option (MembershipTables (Owned ℤ)) :=
  if members.isEmpty then some (historyMemberships db)
  else insertMemberships db (membershipHistorySchema db).constraints (historyMemberships db)
    (members.map fun member => ⟨historyId, member.artistId⟩)
    (members.map NewMembership.roles) (members.map NewMembership.tenure)

def create (data : NewArtist) : Option (Database × ℤ) := do
  let (artist, id) ← db.artists.artist.insert .free data.columns
  let db := { db with artists := { db.artists with artist := artist } }
  let artistAlias ← data.aliases.elim (some db.artists.artistAlias)
    (createAliases db db.artists.artistAlias id)
  let link ← createGiven (linkSchema db) db.artists.link id data.links
  let localizedName ← createGiven (localizedNameSchema db) db.artists.localizedName id
    data.localizedNames
  let (membership, role, tenure) ← data.memberships.elim (some (liveMemberships db))
    (createMemberships db id data.artistType)
  let artists := { db.artists with
    artistAlias := artistAlias, link := link, localizedName := localizedName,
    membership := membership, membershipRole := role, membershipTenure := tenure }
  return ({ db with artists := artists }, id)

def createHistory (data : NewArtist) : Option (Database × ℤ) := do
  let (history, id) ← db.artists.history.insert .free data.columns
  let db := { db with artists := { db.artists with history := history } }
  let aliasHistory ← createGiven (aliasHistorySchema db) db.artists.aliasHistory id data.aliases
  let link ← createGiven (linkHistorySchema db) db.artists.linkHistory id data.links
  let localizedName ← createGiven (localizedNameHistorySchema db)
    db.artists.localizedNameHistory id data.localizedNames
  let (membership, role, tenure) ← data.memberships.elim (some (historyMemberships db))
    (createMembershipHistories db id)
  let artists := { db.artists with
    aliasHistory := aliasHistory, linkHistory := link, localizedNameHistory := localizedName,
    membershipHistory := membership, membershipRoleHistory := role,
    membershipTenureHistory := tenure }
  return ({ db with artists := artists }, id)

def ofAlias (artistId : ℤ) (c : ArtistAlias) : Bool :=
  c.firstId = artistId || c.secondId = artistId

def updateAliases (artistId historyId : ℤ) : Option (Table ArtistAlias) :=
  createAliases db (db.artists.artistAlias.deleteWhere (ofAlias artistId)) artistId
    (db.artists.aliasHistory.items historyId)

def ofMembership (artistId : ℤ) (c : ArtistMembership) : Bool :=
  c.memberId = artistId || c.groupId = artistId

/-- The deletion of the memberships of an artist on either side, which roles and tenures forbid:
their foreign keys do not cascade. -/
def deleteMemberships (artistId : ℤ) : Option (Table ArtistMembership) :=
  if (db.artists.membership.rows.filter fun r => ofMembership artistId r.cols).all fun r =>
      (db.artists.membershipRole.items r.id).isEmpty &&
        (db.artists.membershipTenure.items r.id).isEmpty then
    some (db.artists.membership.deleteWhere (ofMembership artistId))
  else none

def updateMemberships (artistId historyId : ℤ) (artistType : ArtistType) :
    Option (MembershipTables ArtistMembership) := do
  let membership ← deleteMemberships db artistId
  let t := (membership, db.artists.membershipRole, db.artists.membershipTenure)
  let histories := db.artists.membershipHistory.itemRows historyId
  if artistType = .Unknown ∨ histories = [] then
    return t
  else
    insertMemberships db (membershipConstraints db) t
      (histories.map fun r => approvedRow artistType artistId r.cols)
      (histories.map fun r => db.artists.membershipRoleHistory.items r.id)
      (histories.map fun r => db.artists.membershipTenureHistory.items r.id)

def applyHistory (artistId historyId : ℤ) (history : Artist) : Option Database := do
  let artist ← db.artists.artist.updateById .free artistId history
  let artistAlias ← updateAliases db artistId historyId
  let link ← updateChildren (linkSchema db) db.artists.link db.artists.linkHistory artistId
    historyId
  let localizedName ← updateChildren (localizedNameSchema db) db.artists.localizedName
    db.artists.localizedNameHistory artistId historyId
  let (membership, role, tenure) ← updateMemberships db artistId historyId history.artistType
  let artists := { db.artists with
    artist := artist, artistAlias := artistAlias, link := link, localizedName := localizedName,
    membership := membership, membershipRole := role, membershipTenure := tenure }
  return { db with artists := artists }

def applyUpdate (revisions : List CorrectionRevision) (correction : Correction) :
    Option Database := do
  let (historyId, history) ← revisedHistory revisions correction db.artists.history
  applyHistory db correction.entityId historyId history

abbrev MembershipContent := ℤ × Multiset ℤ × Multiset Tenure

def membershipGiven (m : NewMembership) : MembershipContent := (m.artistId, m.roles, m.tenure)

/-- The rows of an artist or of a history, without their identities and order. -/
structure Content where
  artist : Artist
  aliases : Multiset ℤ
  links : Multiset String
  localizedNames : Multiset LocalizedName
  memberships : Multiset MembershipContent
  /-- rows on the side that the type of the artist does not show -/
  hidden : Multiset MembershipContent
  deriving DecidableEq

def content (data : NewArtist) : Content where
  artist := data.columns
  aliases := data.aliases.getD []
  links := data.links.getD []
  localizedNames := data.localizedNames.getD []
  memberships := (data.memberships.getD []).map membershipGiven
  hidden := 0

def otherAlias (artistId : ℤ) (c : ArtistAlias) : ℤ :=
  if c.firstId = artistId then c.secondId else c.firstId

def aliasesOf (t : Table ArtistAlias) (artistId : ℤ) : List ℤ :=
  (t.cols.filter (ofAlias artistId)).map (otherAlias artistId)

/-- The memberships that are shown on the page of an artist of the type. -/
def shown (artistType : ArtistType) (artistId : ℤ) (c : ArtistMembership) : Bool :=
  if artistType = .Solo then c.memberId = artistId else c.groupId = artistId

def partner (artistType : ArtistType) (c : ArtistMembership) : ℤ :=
  if artistType = .Solo then c.groupId else c.memberId

def membershipContent (t : MembershipTables ArtistMembership) (artistType : ArtistType)
    (r : Row ArtistMembership) : MembershipContent :=
  (partner artistType r.cols, t.2.1.items r.id, t.2.2.items r.id)

def membershipsOf (t : MembershipTables ArtistMembership) (artistType : ArtistType)
    (artistId : ℤ) : List MembershipContent :=
  (t.1.rows.filter fun r => shown artistType artistId r.cols).map (membershipContent t artistType)

def hiddenOf (t : MembershipTables ArtistMembership) (artistType : ArtistType) (artistId : ℤ) :
    List MembershipContent :=
  (t.1.rows.filter fun r => ofMembership artistId r.cols && !shown artistType artistId r.cols).map
    (membershipContent t artistType)

def membershipHistoriesOf (t : MembershipTables (Owned ℤ)) (historyId : ℤ) :
    List MembershipContent :=
  (t.1.itemRows historyId).map fun r => (r.cols, t.2.1.items r.id, t.2.2.items r.id)

def live (id : ℤ) : Option Content :=
  (db.artists.artist.findById id).map fun artist => {
    artist := artist
    aliases := aliasesOf db.artists.artistAlias id
    links := db.artists.link.items id
    localizedNames := db.artists.localizedName.items id
    memberships := membershipsOf (liveMemberships db) artist.artistType id
    hidden := hiddenOf (liveMemberships db) artist.artistType id }

def stored (historyId : ℤ) : Option Content :=
  (db.artists.history.findById historyId).map fun artist => {
    artist := artist
    aliases := db.artists.aliasHistory.items historyId
    links := db.artists.linkHistory.items historyId
    localizedNames := db.artists.localizedNameHistory.items historyId
    memberships := membershipHistoriesOf (historyMemberships db) historyId
    hidden := 0 }

structure Wf : Prop where
  artistAlias : db.artists.artistAlias.Satisfies (aliasConstraints db)
  link : db.artists.link.Satisfies (linkSchema db).constraints
  localizedName : db.artists.localizedName.Satisfies (localizedNameSchema db).constraints
  membership : db.artists.membership.Satisfies (membershipConstraints db)
  membershipRole :
    db.artists.membershipRole.Satisfies ((roleCheck db).on db.artists.membership).constraints
  membershipTenure :
    db.artists.membershipTenure.Satisfies (tenureCheck.on db.artists.membership).constraints
  aliasHistory : db.artists.aliasHistory.Satisfies (aliasHistorySchema db).constraints
  linkHistory : db.artists.linkHistory.Satisfies (linkHistorySchema db).constraints
  localizedNameHistory :
    db.artists.localizedNameHistory.Satisfies (localizedNameHistorySchema db).constraints
  membershipHistory :
    db.artists.membershipHistory.Satisfies (membershipHistorySchema db).constraints
  membershipRoleHistory : db.artists.membershipRoleHistory.Satisfies
    ((roleCheck db).on db.artists.membershipHistory).constraints
  membershipTenureHistory : db.artists.membershipTenureHistory.Satisfies
    (tenureCheck.on db.artists.membershipHistory).constraints

section Rows

variable {artistType : ArtistType} {artistId aliasId p : ℤ}

theorem otherAlias_aliasRow (h : aliasId ≠ artistId) :
    otherAlias artistId (aliasRow artistId aliasId) = aliasId := by
  unfold otherAlias aliasRow
  rcases lt_or_gt_of_ne h with hlt | hgt
  · simp [min_eq_left hlt.le, h]
  · simp [min_eq_right hgt.le, max_eq_left hgt.le]

theorem ofAlias_aliasRow : ofAlias artistId (aliasRow artistId aliasId) := by
  rcases le_total aliasId artistId with hle | hle
  · simp [ofAlias, aliasRow, hle]
  · simp [ofAlias, aliasRow, hle]

@[simp] theorem shown_membershipRow :
    shown artistType artistId (membershipRow artistType artistId p) := by
  cases artistType <;> simp [shown, membershipRow]

@[simp] theorem partner_membershipRow :
    partner artistType (membershipRow artistType artistId p) = p := by
  cases artistType <;> simp [partner, membershipRow]

/-- The two ways to write a row differ on artists of unknown type, who have no memberships. -/
theorem approvedRow_eq (h : artistType ≠ .Unknown) :
    approvedRow artistType artistId p = membershipRow artistType artistId p := by
  cases artistType with
  | Solo => rfl
  | Multiple => rfl
  | Unknown => exact absurd rfl h

theorem ofMembership_of_shown {c : ArtistMembership} (h : shown artistType artistId c) :
    ofMembership artistId c := by
  cases artistType <;> simp_all [shown, ofMembership]

end Rows

section Aliases

variable {db} {t t' : Table ArtistAlias} {artistId : ℤ} {aliases : List ℤ}

theorem aliasRow_injOn (h : artistId ∉ aliases) {a b : ℤ} (ha : a ∈ aliases) (hb : b ∈ aliases)
    (heq : aliasRow artistId a = aliasRow artistId b) : a = b := by
  have hother := congrArg (otherAlias artistId) heq
  rwa [otherAlias_aliasRow (ne_of_mem_of_not_mem ha h),
    otherAlias_aliasRow (ne_of_mem_of_not_mem hb h)] at hother

theorem aliasesOf_insertAll (h : ∀ c ∈ t.cols, !ofAlias artistId c) (hself : artistId ∉ aliases) :
    aliasesOf (t.insertAll (aliases.map (aliasRow artistId))) artistId = aliases := by
  have hold : t.cols.filter (ofAlias artistId) = [] := by
    rw [List.filter_eq_nil_iff]
    simpa using h
  have hnew : (aliases.map (aliasRow artistId)).filter (ofAlias artistId) =
      aliases.map (aliasRow artistId) := by
    rw [List.filter_eq_self]
    intro c hc
    obtain ⟨a, -, rfl⟩ := List.mem_map.mp hc
    exact ofAlias_aliasRow
  rw [aliasesOf, Table.cols_insertAll, List.filter_append, hold, hnew, List.nil_append,
    List.map_map]
  conv_rhs => rw [← List.map_id aliases]
  apply List.map_congr_left
  intro a ha
  exact otherAlias_aliasRow (ne_of_mem_of_not_mem ha hself)

/-- The check keeps an artist from being an alias of itself. -/
theorem createAliases_eq_some (h : createAliases db t artistId aliases = some t') :
    artistId ∉ aliases ∧ t' = t.insertAll (aliases.map (aliasRow artistId)) := by
  unfold createAliases at h
  split at h
  · next hnil =>
    obtain rfl := List.isEmpty_iff.mp hnil
    exact ⟨List.not_mem_nil, by simpa using h.symm⟩
  · obtain ⟨-, hcheck, -, rfl⟩ := Table.insertMany_eq_some h
    refine ⟨?_, rfl⟩
    intro hself
    have hlt := hcheck _ (List.mem_map_of_mem hself)
    simp [aliasConstraints, aliasRow] at hlt

theorem createAliases_eq (ht : t.Satisfies (aliasConstraints db))
    (h : ∀ c ∈ t.cols, !ofAlias artistId c) (hid : db.hasArtist artistId)
    (hall : ∀ a ∈ aliases, db.hasArtist a) (hnodup : aliases.Nodup) :
    createAliases db t artistId aliases =
      if artistId ∉ aliases then some (t.insertAll (aliases.map (aliasRow artistId)))
      else none := by
  split
  · next hself =>
    unfold createAliases
    split
    · next hnil =>
      obtain rfl := List.isEmpty_iff.mp hnil
      simp
    · next hnil =>
      -- a pair is written with the smaller identity first
      have hcheck : (aliases.map (aliasRow artistId)).all (aliasConstraints db).check := by
        rw [List.all_eq_true]
        intro c hc
        obtain ⟨a, ha, rfl⟩ := List.mem_map.mp hc
        have hne : a ≠ artistId := ne_of_mem_of_not_mem ha hself
        rcases lt_or_gt_of_ne hne with hlt | hgt
        · simp [aliasConstraints, aliasRow, min_eq_left hlt.le, max_eq_right hlt.le, hlt,
            hall a ha, hid]
        · simp [aliasConstraints, aliasRow, min_eq_right hgt.le, max_eq_left hgt.le, hgt,
            hall a ha, hid]
      -- no pair of the artist is left, and the new ones differ in the alias
      have hpairs : (t.cols ++ aliases.map (aliasRow artistId)).Pairwise
          fun c d => !(aliasConstraints db).conflict c d := by
        rw [List.pairwise_append]
        refine ⟨ht.2, ?_, ?_⟩
        · have hrows : (aliases.map (aliasRow artistId)).Nodup :=
            List.Nodup.map_on (fun a ha b hb => aliasRow_injOn hself ha hb) hnodup
          exact hrows.imp fun hcd => by simp [aliasConstraints, hcd]
        · intro c hc d hd
          obtain ⟨a, -, rfl⟩ := List.mem_map.mp hd
          have hcd : c ≠ aliasRow artistId a := by
            rintro rfl
            have hnot := h _ hc
            rw [ofAlias_aliasRow] at hnot
            cases hnot
          simp [aliasConstraints, hcd]
      rw [Table.insertMany, if_neg (by simpa using hnil), if_pos ⟨hcheck, hpairs⟩]
  · next hself =>
    rw [Option.eq_none_iff_forall_ne_some]
    intro t' ht'
    exact hself (createAliases_eq_some ht').1

end Aliases

section Memberships

variable {t : MembershipTables ArtistMembership} {artistType : ArtistType} {artistId : ℤ}
  {F : Type} {fs : List F} {p : F → ℤ} {a : F → List ℤ} {b : F → List Tenure}

def withMemberships (t : MembershipTables ArtistMembership) (artistType : ArtistType)
    (artistId : ℤ) (fs : List F) (p : F → ℤ) (a : F → List ℤ) (b : F → List Tenure) :
    MembershipTables ArtistMembership :=
  let rows := fs.map fun x => membershipRow artistType artistId (p x)
  (t.1.insertAll rows, t.2.1.insertAll (hang (numbered t.1.next rows) (fs.map a)),
    t.2.2.insertAll (hang (numbered t.1.next rows) (fs.map b)))

/-- An artist without memberships has those that are put in. -/
theorem membershipsOf_withMemberships (h : ∀ c ∈ t.1.cols, !ofMembership artistId c)
    (ha : ∀ c ∈ t.2.1.cols, c.owner < t.1.next) (hb : ∀ c ∈ t.2.2.cols, c.owner < t.1.next) :
    membershipsOf (withMemberships t artistType artistId fs p a b) artistType artistId =
      fs.map fun x => (p x, (a x : Multiset ℤ), (b x : Multiset Tenure)) := by
  have hold : t.1.rows.filter (fun r => shown artistType artistId r.cols) = [] := by
    rw [List.filter_eq_nil_iff]
    intro r hr hshown
    have hnot := h r.cols (List.mem_map_of_mem hr)
    rw [ofMembership_of_shown hshown] at hnot
    cases hnot
  have hnew : (numbered t.1.next (fs.map fun x => membershipRow artistType artistId (p x))).filter
        (fun r => shown artistType artistId r.cols) =
      numbered t.1.next (fs.map fun x => membershipRow artistType artistId (p x)) := by
    rw [List.filter_eq_self]
    intro r hr
    have hcols := List.mem_map_of_mem (f := Row.cols) hr
    rw [numbered_cols] at hcols
    obtain ⟨x, -, hx⟩ := List.mem_map.mp hcols
    rw [← hx]
    exact shown_membershipRow
  unfold membershipsOf withMemberships
  simp only [Table.rows_insertAll, List.filter_append, hold, hnew, List.nil_append]
  apply map_numbered
  intro i hi
  have hrole := items_hang (a := a) (f := fun x => membershipRow artistType artistId (p x)) ha hi
  have htenure := items_hang (a := b) (f := fun x => membershipRow artistType artistId (p x)) hb hi
  simp only [membershipContent, partner_membershipRow, hrole, htenure]

theorem hiddenOf_withMemberships (h : ∀ c ∈ t.1.cols, !ofMembership artistId c) :
    hiddenOf (withMemberships t artistType artistId fs p a b) artistType artistId = [] := by
  rw [hiddenOf, List.map_eq_nil_iff, List.filter_eq_nil_iff]
  intro r hr
  rcases List.mem_append.mp hr with hr | hr
  · have hnot := h r.cols (List.mem_map_of_mem hr)
    simp only [Bool.not_eq_true'] at hnot
    simp [hnot]
  · have hcols := List.mem_map_of_mem (f := Row.cols) hr
    rw [numbered_cols] at hcols
    obtain ⟨x, -, hx⟩ := List.mem_map.mp hcols
    simp [← hx]

end Memberships

section Specs

variable {db} {db' : Database} {data : NewArtist} {id historyId : ℤ} {c : Content}
  {artistType : ArtistType}

theorem createMemberships_eq_some {members : List NewMembership}
    {t : MembershipTables ArtistMembership}
    (h : createMemberships db id artistType members = some t) :
    t = withMemberships (liveMemberships db) artistType id members NewMembership.artistId
        NewMembership.roles NewMembership.tenure ∧
      (members ≠ [] → (∃ m ∈ members, m.roles ≠ []) ∧ ∃ m ∈ members, m.tenure ≠ []) := by
  unfold createMemberships at h
  split at h
  · next hnil =>
    obtain rfl := List.isEmpty_iff.mp hnil
    obtain rfl := Option.some.inj h
    exact ⟨by simp [withMemberships, hang], fun hne => absurd rfl hne⟩
  · obtain ⟨ht, hrole, htenure, hroles, htenures⟩ := insertNested_eq_some h
    exact ⟨Prod.ext ht (Prod.ext hrole htenure), fun _ => ⟨hroles, htenures⟩⟩

def put (data : NewArtist) (t : MembershipTables ArtistMembership) (id : ℤ) :
    MembershipTables ArtistMembership :=
  withMemberships t data.artistType id (data.memberships.getD []) NewMembership.artistId
    NewMembership.roles NewMembership.tenure

theorem elim_createAliases {t : Table ArtistAlias} :
    (data.aliases.elim (some t) (createAliases db t id)) =
      createAliases db t id (data.aliases.getD []) := by
  cases data.aliases <;> rfl

theorem elim_createMemberships :
    (data.memberships.elim (some (liveMemberships db)) (createMemberships db id artistType)) =
      createMemberships db id artistType (data.memberships.getD []) := by
  cases data.memberships <;> rfl

theorem create_eq_some (h : create db data = some (db', id)) :
    id = db.artists.artist.next ∧ id ∉ data.aliases.getD [] ∧
      db' = { db with artists := { db.artists with
        artist := db.artists.artist.insertAll [data.columns]
        artistAlias := db.artists.artistAlias.insertAll ((data.aliases.getD []).map (aliasRow id))
        link := db.artists.link.adopt id (data.links.getD [])
        localizedName := db.artists.localizedName.adopt id (data.localizedNames.getD [])
        membership := (put data (liveMemberships db) id).1
        membershipRole := (put data (liveMemberships db) id).2.1
        membershipTenure := (put data (liveMemberships db) id).2.2 } } := by
  simp only [create, Option.bind_eq_bind, Option.bind_eq_some_iff, Prod.exists] at h
  obtain ⟨artist, i, hartist, aliases, haliases, link, hlink, name, hname, membership, role, tenure,
    hmemberships, heq⟩ := h
  obtain ⟨-, rfl, rfl⟩ := Table.insert_eq_some hartist
  rw [createGiven_eq] at hlink hname
  obtain ⟨-, rfl⟩ := createChildren_eq_some hlink
  obtain ⟨-, rfl⟩ := createChildren_eq_some hname
  rw [elim_createAliases] at haliases
  obtain ⟨hself, rfl⟩ := createAliases_eq_some haliases
  rw [elim_createMemberships] at hmemberships
  obtain ⟨hput, -⟩ := createMemberships_eq_some hmemberships
  obtain ⟨rfl, hchildren⟩ := Prod.mk.inj hput
  obtain ⟨rfl, rfl⟩ := Prod.mk.inj hchildren
  obtain ⟨rfl, rfl⟩ := Prod.mk.inj (Option.some.inj heq)
  exact ⟨rfl, hself, rfl⟩

theorem hasArtist_next : db.hasArtist db.artists.artist.next = false := Table.has_next

/-- No aliases hang on an artist that does not exist. -/
theorem ofAlias_eq_false (hwf : Wf db) (hn : db.hasArtist id = false) :
    ∀ c ∈ db.artists.artistAlias.cols, !ofAlias id c := by
  intro c hc
  have hcheck := hwf.artistAlias.1 c hc
  simp only [aliasConstraints, Bool.and_eq_true] at hcheck
  have hfirst : c.firstId ≠ id := by
    rintro rfl
    rw [hcheck.1.1] at hn
    cases hn
  have hsecond : c.secondId ≠ id := by
    rintro rfl
    rw [hcheck.1.2] at hn
    cases hn
  simp [ofAlias, hfirst, hsecond]

theorem ofMembership_eq_false (hwf : Wf db) (hn : db.hasArtist id = false) :
    ∀ c ∈ db.artists.membership.cols, !ofMembership id c := by
  intro c hc
  have hcheck := hwf.membership.1 c hc
  simp only [membershipConstraints, Bool.and_eq_true] at hcheck
  have hmember : c.memberId ≠ id := by
    rintro rfl
    rw [hcheck.1] at hn
    cases hn
  have hgroup : c.groupId ≠ id := by
    rintro rfl
    rw [hcheck.2] at hn
    cases hn
  simp [ofMembership, hmember, hgroup]

theorem live_create (hwf : Wf db) (h : create db data = some (db', id)) :
    live db' id = some (content data) := by
  obtain ⟨rfl, hself, rfl⟩ := create_eq_some h
  have hmemberships : membershipsOf (put data (liveMemberships db) db.artists.artist.next)
      data.artistType db.artists.artist.next = (data.memberships.getD []).map membershipGiven :=
    membershipsOf_withMemberships (ofMembership_eq_false hwf hasArtist_next)
      (fun _ => owner_lt hwf.membershipRole) (fun _ => owner_lt hwf.membershipTenure)
  have hhidden : hiddenOf (put data (liveMemberships db) db.artists.artist.next)
      data.artistType db.artists.artist.next = [] :=
    hiddenOf_withMemberships (ofMembership_eq_false hwf hasArtist_next)
  have htype : data.columns.artistType = data.artistType := rfl
  simp only [live, content, Table.findById_insertAll_next, Option.map_some, htype,
    liveMemberships, aliasesOf_insertAll (ofAlias_eq_false hwf hasArtist_next) hself]
  simp only [liveMemberships] at hmemberships hhidden
  simp [hmemberships, hhidden, items_eq_nil hwf.link hasArtist_next,
    items_eq_nil hwf.localizedName hasArtist_next]

def putHistory (data : NewArtist) (t : MembershipTables (Owned ℤ)) (historyId : ℤ) :
    MembershipTables (Owned ℤ) :=
  let members := data.memberships.getD []
  let rows := members.map fun member => (⟨historyId, member.artistId⟩ : Owned ℤ)
  (t.1.insertAll rows, t.2.1.insertAll (hang (numbered t.1.next rows)
      (members.map NewMembership.roles)),
    t.2.2.insertAll (hang (numbered t.1.next rows) (members.map NewMembership.tenure)))

theorem elim_createMembershipHistories :
    (data.memberships.elim (some (historyMemberships db)) (createMembershipHistories db id)) =
      createMembershipHistories db id (data.memberships.getD []) := by
  cases data.memberships <;> rfl

theorem createMembershipHistories_eq_some {t : MembershipTables (Owned ℤ)}
    (h : createMembershipHistories db id (data.memberships.getD []) = some t) :
    t = putHistory data (historyMemberships db) id ∧
      (data.memberships.getD [] ≠ [] → (∃ m ∈ data.memberships.getD [], m.roles ≠ []) ∧
        ∃ m ∈ data.memberships.getD [], m.tenure ≠ []) := by
  unfold createMembershipHistories at h
  split at h
  · next hnil =>
    have hmembers := List.isEmpty_iff.mp hnil
    obtain rfl := Option.some.inj h
    exact ⟨by simp [putHistory, hang, hmembers], fun hne => absurd hmembers hne⟩
  · obtain ⟨ht, hrole, htenure, hroles, htenures⟩ := insertNested_eq_some h
    exact ⟨Prod.ext ht (Prod.ext hrole htenure), fun _ => ⟨hroles, htenures⟩⟩

theorem createHistory_eq_some (h : createHistory db data = some (db', historyId)) :
    historyId = db.artists.history.next ∧
      (data.memberships.getD [] ≠ [] → (∃ m ∈ data.memberships.getD [], m.roles ≠ []) ∧
        ∃ m ∈ data.memberships.getD [], m.tenure ≠ []) ∧
      db' = { db with artists := { db.artists with
        history := db.artists.history.insertAll [data.columns]
        aliasHistory := db.artists.aliasHistory.adopt historyId (data.aliases.getD [])
        linkHistory := db.artists.linkHistory.adopt historyId (data.links.getD [])
        localizedNameHistory := db.artists.localizedNameHistory.adopt historyId
          (data.localizedNames.getD [])
        membershipHistory := (putHistory data (historyMemberships db) historyId).1
        membershipRoleHistory := (putHistory data (historyMemberships db) historyId).2.1
        membershipTenureHistory :=
          (putHistory data (historyMemberships db) historyId).2.2 } } := by
  simp only [createHistory, Option.bind_eq_bind, Option.bind_eq_some_iff, Prod.exists] at h
  obtain ⟨history, i, hhistory, aliases, haliases, link, hlink, name, hname, membership, role,
    tenure, hmemberships, heq⟩ := h
  obtain ⟨-, rfl, rfl⟩ := Table.insert_eq_some hhistory
  rw [createGiven_eq] at haliases hlink hname
  obtain ⟨-, rfl⟩ := createChildren_eq_some haliases
  obtain ⟨-, rfl⟩ := createChildren_eq_some hlink
  obtain ⟨-, rfl⟩ := createChildren_eq_some hname
  rw [elim_createMembershipHistories] at hmemberships
  obtain ⟨hput, hchildren⟩ := createMembershipHistories_eq_some hmemberships
  obtain ⟨rfl, htables⟩ := Prod.mk.inj hput
  obtain ⟨rfl, rfl⟩ := Prod.mk.inj htables
  obtain ⟨rfl, rfl⟩ := Prod.mk.inj (Option.some.inj heq)
  exact ⟨rfl, hchildren, rfl⟩

theorem itemRows_numbered {F : Type} {fs : List F} {p : F → ℤ} {t : Table (Owned ℤ)}
    (h : t.items historyId = []) :
    (t.insertAll (fs.map fun x => ⟨historyId, p x⟩)).itemRows historyId =
      numbered t.next (fs.map p) := by
  have hrows : fs.map (fun x => (⟨historyId, p x⟩ : Owned ℤ)) =
      (fs.map p).map (Owned.mk historyId) := by
    rw [List.map_map]
    rfl
  rw [hrows]
  exact itemRows_adopt.trans (by rw [itemRows_eq_nil h, List.nil_append])

theorem stored_createHistory (hwf : Wf db) (h : createHistory db data = some (db', historyId)) :
    stored db' historyId = some (content data) := by
  obtain ⟨rfl, -, rfl⟩ := createHistory_eq_some h
  have hfresh : hasHistory db db.artists.history.next = false := Table.has_next
  have hmemberships : membershipHistoriesOf
      (putHistory data (historyMemberships db) db.artists.history.next)
      db.artists.history.next = (data.memberships.getD []).map membershipGiven := by
    simp only [membershipHistoriesOf, putHistory, historyMemberships]
    rw [itemRows_numbered (p := NewMembership.artistId)
      (items_eq_nil hwf.membershipHistory hfresh)]
    apply map_numbered
    intro i hi
    have hrole := items_hang (a := NewMembership.roles)
      (f := fun m : NewMembership => (⟨db.artists.history.next, m.artistId⟩ : Owned ℤ))
      (fun _ => owner_lt hwf.membershipRoleHistory) hi
    have htenure := items_hang (a := NewMembership.tenure)
      (f := fun m : NewMembership => (⟨db.artists.history.next, m.artistId⟩ : Owned ℤ))
      (fun _ => owner_lt hwf.membershipTenureHistory) hi
    simp only [hrole, htenure, membershipGiven]
  simp only [stored, content, Table.findById_insertAll_next, Option.map_some, historyMemberships]
  simp only [historyMemberships] at hmemberships
  simp [hmemberships, items_eq_nil hwf.aliasHistory hfresh, items_eq_nil hwf.linkHistory hfresh,
    items_eq_nil hwf.localizedNameHistory hfresh]

/-- What validation and the inserts of a history see to: artists of unknown type have no
memberships, and with memberships come roles and tenures. -/
structure Proper (c : Content) : Prop where
  unknown : c.artist.artistType = .Unknown → c.memberships = 0
  roles : c.memberships ≠ 0 → ∃ m ∈ c.memberships, m.2.1 ≠ 0
  tenures : c.memberships ≠ 0 → ∃ m ∈ c.memberships, m.2.2 ≠ 0

theorem proper_content (hvalid : data.validate = .ok ())
    (h : createHistory db data = some (db', historyId)) : Proper (content data) := by
  obtain ⟨-, hchildren, -⟩ := createHistory_eq_some h
  have hne : (content data).memberships ≠ 0 → data.memberships.getD [] ≠ [] := by
    intro hmemberships hnil
    simp [content, hnil] at hmemberships
  refine ⟨?_, ?_, ?_⟩
  · intro hunknown
    by_contra hmemberships
    have htype : data.artistType = .Unknown := hunknown
    have hnonempty := hne hmemberships
    cases hm : data.memberships with
    | none => exact hnonempty (by simp [hm])
    | some members =>
      have hmembers : members ≠ [] := by simpa [hm] using hnonempty
      simp [NewArtist.validate, NewArtist.validateArtistTypeAndMembership, htype, hm,
        hmembers] at hvalid
      cases hvalid
  · intro hmemberships
    obtain ⟨m, hm, hroles⟩ := (hchildren (hne hmemberships)).1
    exact ⟨membershipGiven m, List.mem_map_of_mem hm, by simpa [membershipGiven] using hroles⟩
  · intro hmemberships
    obtain ⟨m, hm, htenures⟩ := (hchildren (hne hmemberships)).2
    exact ⟨membershipGiven m, List.mem_map_of_mem hm, by simpa [membershipGiven] using htenures⟩

def Unburdened (db : Database) (id : ℤ) : Prop :=
  ∀ r ∈ db.artists.membership.rows, ofMembership id r.cols →
    db.artists.membershipRole.items r.id = [] ∧ db.artists.membershipTenure.items r.id = []

instance : Decidable (Unburdened db id) :=
  inferInstanceAs (Decidable (∀ r ∈ db.artists.membership.rows, _))

theorem deleteMemberships_eq :
    deleteMemberships db id =
      if Unburdened db id then some (db.artists.membership.deleteWhere (ofMembership id))
      else none := by
  unfold deleteMemberships
  refine if_congr ?_ rfl rfl
  simp [Unburdened, or_iff_not_imp_left]

def approvedMemberships (db : Database) (id historyId : ℤ) (artistType : ArtistType) :
    MembershipTables ArtistMembership :=
  withMemberships (db.artists.membership.deleteWhere (ofMembership id),
      db.artists.membershipRole, db.artists.membershipTenure) artistType id
    (db.artists.membershipHistory.itemRows historyId) Row.cols
    (fun r => db.artists.membershipRoleHistory.items r.id)
    (fun r => db.artists.membershipTenureHistory.items r.id)

theorem updateMemberships_eq (hwf : Wf db) (hid : db.hasArtist id) {artist : Artist}
    (hproper : Proper ⟨artist, 0, 0, 0, membershipHistoriesOf (historyMemberships db) historyId,
      0⟩) :
    updateMemberships db id historyId artist.artistType =
      if Unburdened db id then some (approvedMemberships db id historyId artist.artistType)
      else none := by
  unfold updateMemberships
  rw [deleteMemberships_eq]
  split
  · next hfree =>
    simp only [Option.bind_eq_bind, Option.bind_some]
    by_cases hnil : db.artists.membershipHistory.itemRows historyId = []
    · simp [hnil, approvedMemberships, withMemberships, hang]
    · have hmemberships : (membershipHistoriesOf (historyMemberships db) historyId :
          Multiset MembershipContent) ≠ 0 := by
        simpa [membershipHistoriesOf, historyMemberships] using hnil
      -- a history of an artist of unknown type has no memberships
      have htype : artist.artistType ≠ .Unknown := fun htype =>
        hmemberships (hproper.unknown htype)
      obtain ⟨_, ha, hroles⟩ := hproper.roles hmemberships
      obtain ⟨_, hb, htenures⟩ := hproper.tenures hmemberships
      obtain ⟨r, hr, rfl⟩ := List.mem_map.mp ha
      obtain ⟨s, hs, rfl⟩ := List.mem_map.mp hb
      have hrows : (db.artists.membershipHistory.itemRows historyId).map
            (fun r => approvedRow artist.artistType id r.cols) =
          (db.artists.membershipHistory.itemRows historyId).map
            fun r => membershipRow artist.artistType id r.cols := by
        simp only [approvedRow_eq htype]
      rw [if_neg (by simp [htype, hnil]), hrows]
      -- the rows that were deleted had no roles and no tenures that would stay behind
      refine insertNested_eq (fun _ _ => rfl)
        (hwf.membershipRole.on_deleteWhere fun r hr hof => (hfree r hr hof).1)
        (hwf.membershipTenure.on_deleteWhere fun r hr hof => (hfree r hr hof).2) ?_
        ⟨r, hr, by simpa [historyMemberships] using hroles⟩
        ⟨s, hs, by simpa [historyMemberships] using htenures⟩ ?_ (fun _ _ _ _ => rfl)
        (fun _ _ _ => nodup_of_satisfies hwf.membershipRoleHistory rfl) (fun hu => by cases hu)
      · intro q hq
        have hpartner := (check_of_satisfies hwf.membershipHistory
          (mem_items.mpr (List.mem_map_of_mem (mem_itemRows.mp hq)))).2
        have hpartner' : db.hasArtist q.cols := hpartner
        cases artist.artistType <;> simp [membershipConstraints, membershipRow, hpartner', hid]
      · intro q hq i hi
        exact (check_of_satisfies hwf.membershipRoleHistory hi).2
  · rfl

/-- What does not stand in the way of an approval: the artist is no alias of itself, and its
memberships have no roles and no tenures. -/
structure Approvable (db : Database) (id : ℤ) (c : Content) : Prop where
  aliases : id ∉ c.aliases
  memberships : Unburdened db id

variable {revisions : List CorrectionRevision} {correction : Correction}
  {revision : CorrectionRevision} {history : Artist}

def approved (db : Database) (id historyId : ℤ) (history : Artist) : Database :=
  { db with artists := { db.artists with
    artist := db.artists.artist.set id history
    artistAlias := (db.artists.artistAlias.deleteWhere (ofAlias id)).insertAll
      ((db.artists.aliasHistory.items historyId).map (aliasRow id))
    link := (db.artists.link.disown id).adopt id (db.artists.linkHistory.items historyId)
    localizedName := (db.artists.localizedName.disown id).adopt id
      (db.artists.localizedNameHistory.items historyId)
    membership := (approvedMemberships db id historyId history.artistType).1
    membershipRole := (approvedMemberships db id historyId history.artistType).2.1
    membershipTenure := (approvedMemberships db id historyId history.artistType).2.2 } }

/-- Only the aliases and the memberships of an approval can fail. -/
theorem applyUpdate_eq (hwf : Wf db)
    (hnewest : findRevision revisions correction.id = some revision)
    (hid : db.hasArtist correction.entityId)
    (hhistory : db.artists.history.findById revision.entityHistoryId = some history)
    (hproper : Proper ⟨history, 0, 0, 0,
      membershipHistoriesOf (historyMemberships db) revision.entityHistoryId, 0⟩) :
    applyUpdate db revisions correction =
      if correction.entityId ∉ db.artists.aliasHistory.items revision.entityHistoryId ∧
          Unburdened db correction.entityId then
        some (approved db correction.entityId revision.entityHistoryId history)
      else none := by
  have hupdate : db.artists.artist.updateById .free correction.entityId history =
      some (db.artists.artist.set correction.entityId history) := Table.updateById_free hid
  -- the old aliases are gone when the new ones are written
  have halias : updateAliases db correction.entityId revision.entityHistoryId = _ :=
    createAliases_eq hwf.artistAlias.deleteWhere
      (fun c hc => by
        rw [Table.cols_deleteWhere] at hc
        exact (List.mem_filter.mp hc).2)
      hid (fun a ha => (check_of_satisfies hwf.aliasHistory ha).2)
      (nodup_of_satisfies hwf.aliasHistory rfl)
  have hlink := updateChildren_eq_some revision.entityHistoryId hwf.link hwf.linkHistory
    (fun hu => hu) hid (fun _ hi => hi)
  have hname := updateChildren_eq_some revision.entityHistoryId hwf.localizedName
    hwf.localizedNameHistory (fun hu => hu) hid (fun _ hi => hi)
  unfold applyUpdate applyHistory
  simp only [revisedHistory_eq hnewest, hhistory, Option.map_some, hupdate, halias, hlink, hname,
    updateMemberships_eq hwf hid hproper, Option.bind_eq_bind, Option.bind_some]
  by_cases hself : correction.entityId ∈ db.artists.aliasHistory.items revision.entityHistoryId
  · simp [hself]
  · by_cases hfree : Unburdened db correction.entityId
    · simp [hself, hfree, approved]
    · simp [hself, hfree]

/-- An approval gives the artist the content of the history. -/
theorem live_applyUpdate (hwf : Wf db)
    (hnewest : findRevision revisions correction.id = some revision)
    (hid : db.hasArtist correction.entityId)
    (hc : stored db revision.entityHistoryId = some c) (hproper : Proper c)
    (h : Approvable db correction.entityId c) :
    ∃ db', applyUpdate db revisions correction = some db' ∧
      live db' correction.entityId = some c := by
  obtain ⟨history, hhistory, rfl⟩ := Option.map_eq_some_iff.mp hc
  have hself : correction.entityId ∉
      db.artists.aliasHistory.items revision.entityHistoryId := h.aliases
  rw [applyUpdate_eq hwf hnewest hid hhistory ⟨hproper.unknown, hproper.roles, hproper.tenures⟩,
    if_pos ⟨hself, h.memberships⟩]
  refine ⟨_, rfl, ?_⟩
  have haliases := aliasesOf_insertAll (t := db.artists.artistAlias.deleteWhere
    (ofAlias correction.entityId)) (fun c hc => by
      rw [Table.cols_deleteWhere] at hc
      exact (List.mem_filter.mp hc).2) hself
  have hnone : ∀ c ∈ (db.artists.membership.deleteWhere (ofMembership correction.entityId)).cols,
      !ofMembership correction.entityId c := by
    intro c hc
    rw [Table.cols_deleteWhere] at hc
    exact (List.mem_filter.mp hc).2
  -- the side on which a membership is read is that on which it was written
  have hmemberships : membershipsOf (approvedMemberships db correction.entityId
        revision.entityHistoryId history.artistType) history.artistType correction.entityId =
      membershipHistoriesOf (historyMemberships db) revision.entityHistoryId :=
    membershipsOf_withMemberships hnone (fun _ => owner_lt hwf.membershipRole)
      (fun _ => owner_lt hwf.membershipTenure)
  have hhidden : hiddenOf (approvedMemberships db correction.entityId
        revision.entityHistoryId history.artistType) history.artistType correction.entityId = [] :=
    hiddenOf_withMemberships hnone
  simp only [live, approved, Table.findById_set hid, Option.map_some, liveMemberships, haliases]
  simp [hmemberships, hhidden]

theorem applyUpdate_eq_none (hwf : Wf db)
    (hnewest : findRevision revisions correction.id = some revision)
    (hid : db.hasArtist correction.entityId)
    (hc : stored db revision.entityHistoryId = some c) (hproper : Proper c)
    (h : ¬Approvable db correction.entityId c) : applyUpdate db revisions correction = none := by
  obtain ⟨history, hhistory, rfl⟩ := Option.map_eq_some_iff.mp hc
  rw [applyUpdate_eq hwf hnewest hid hhistory ⟨hproper.unknown, hproper.roles, hproper.tenures⟩]
  exact if_neg fun happrovable => h ⟨happrovable.1, happrovable.2⟩

end Specs

end Artist

end Thcdb.Catalog
