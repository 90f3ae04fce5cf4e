import Thcdb.Catalog.Artist
import Thcdb.Relational.Ordered

namespace Thcdb.Catalog
open Relational

structure CommonFilter where
  artistTypes : Option (List ArtistType)
  exclusion : Option (List ℤ)
  deriving DecidableEq, Repr

def CommonFilter.accepts (common : CommonFilter) (id : ℤ) (artistType : ArtistType) : Bool :=
  common.artistTypes.all (artistType ∈ ·) && common.exclusion.all (id ∉ ·)

structure CreditRoleRef where
  id : ℤ
  name : String
  deriving DecidableEq, Repr

namespace Artist

structure PageName where
  languageId : ℤ
  language : Language
  name : String
  deriving DecidableEq, Repr

structure PageMembership (F : Type → Type) where
  artistId : ℤ
  roles : F CreditRoleRef
  tenure : F Tenure

/-- What is returned of an artist, with lists or with multisets. -/
structure Page (F : Type → Type) where
  id : ℤ
  name : String
  artistType : ArtistType
  textAliases : Option (F String)
  startDate : Option DateWithPrecision
  endDate : Option DateWithPrecision
  aliases : F ℤ
  links : F String
  localizedNames : F PageName
  startLocation : Location
  currentLocation : Location
  memberships : F (PageMembership F)

def PageMembership.unordered (m : PageMembership List) : PageMembership Multiset :=
  ⟨m.artistId, m.roles, m.tenure⟩

def Page.unordered (page : Page List) : Page Multiset where
  id := page.id
  name := page.name
  artistType := page.artistType
  textAliases := page.textAliases.map Multiset.ofList
  startDate := page.startDate
  endDate := page.endDate
  aliases := page.aliases
  links := page.links
  localizedNames := page.localizedNames
  startLocation := page.startLocation
  currentLocation := page.currentLocation
  memberships := page.memberships.map PageMembership.unordered

section

variable (db : Database)

def pageDate (value : Option NaiveDate) (precision : Option DatePrecision) :
    Option DateWithPrecision :=
  match value, precision with
  | some value, some precision => some ⟨value, precision⟩
  | _, _ => none

/-- There is a language for every name. -/
def pageName (n : LocalizedName) : Option PageName :=
  (db.languages.findById n.languageId).map fun language => ⟨n.languageId, language, n.name⟩

def pageRole (roleId : ℤ) : Option CreditRoleRef :=
  (db.creditRoles.creditRole.findById roleId).map fun role => ⟨roleId, role.name⟩

def groupAssociation (id : ℤ) : List (ArtistMembership × List CreditRoleRef × List (Row Tenure)) :=
  (db.artists.membership.rows.filter fun r => ofMembership id r.cols).map fun r =>
    (r.cols, (db.artists.membershipRole.items r.id).filterMap (pageRole db),
      db.artists.membershipTenure.itemRows r.id)

def pageMemberships (id : ℤ) (artistType : ArtistType) : List (PageMembership List) :=
  ((groupAssociation db id).filter fun p => shown artistType id p.1).map fun p =>
    { artistId := partner artistType p.1, roles := p.2.1, tenure := orderById p.2.2 }

def findOne (common : CommonFilter) (id : ℤ) : Option (Page List) := do
  let artist ← db.artists.artist.findById id
  guard (common.accepts id artist.artistType)
  let localizedNames ← (db.artists.localizedName.items id).mapM (pageName db)
  return {
    id := id
    name := artist.name
    artistType := artist.artistType
    textAliases := artist.textAlias
    startDate := pageDate artist.startDate artist.startDatePrecision
    endDate := pageDate artist.endDate artist.endDatePrecision
    aliases := aliasesOf db.artists.artistAlias id
    links := db.artists.link.items id
    localizedNames := localizedNames
    startLocation := artist.startLocation
    currentLocation := artist.currentLocation
    memberships := pageMemberships db id artist.artistType }

def pageOf (id : ℤ) (c : Content) : Page Multiset where
  id := id
  name := c.artist.name
  artistType := c.artist.artistType
  textAliases := c.artist.textAlias.map Multiset.ofList
  startDate := pageDate c.artist.startDate c.artist.startDatePrecision
  endDate := pageDate c.artist.endDate c.artist.endDatePrecision
  aliases := c.aliases
  links := c.links
  localizedNames := c.localizedNames.filterMap (pageName db)
  startLocation := c.artist.startLocation
  currentLocation := c.artist.currentLocation
  memberships := c.memberships.map fun m => ⟨m.1, m.2.1.filterMap (pageRole db), m.2.2⟩

end

/-- What a history stores if a page is sent back as it is. -/
def Page.content (page : Page List) : Content where
  artist := {
    name := page.name
    artistType := page.artistType
    textAlias := page.textAliases
    startDate := page.startDate.map DateWithPrecision.value
    startDatePrecision := page.startDate.map DateWithPrecision.precision
    endDate := page.endDate.map DateWithPrecision.value
    endDatePrecision := page.endDate.map DateWithPrecision.precision
    startLocation := page.startLocation
    currentLocation := page.currentLocation }
  aliases := page.aliases
  links := page.links
  localizedNames := page.localizedNames.map fun n => (⟨n.languageId, n.name⟩ : LocalizedName)
  memberships := page.memberships.map fun m =>
    ((m.artistId, m.roles.map CreditRoleRef.id, m.tenure) : MembershipContent)
  hidden := 0

section Sent

/-- The input that sends a page back. -/
def Page.toNewArtist (page : Page List) : NewArtist where
  name := page.name
  artistType := page.artistType
  aliases := some page.aliases
  textAliases := page.textAliases
  startDate := page.startDate
  endDate := page.endDate
  links := some page.links
  localizedNames := some (page.localizedNames.map fun n => ⟨n.languageId, n.name⟩)
  startLocation := some page.startLocation
  currentLocation := some page.currentLocation
  memberships := some (page.memberships.map fun m =>
    ⟨m.artistId, m.roles.map CreditRoleRef.id, m.tenure⟩)

theorem content_toNewArtist (page : Page List) : Artist.content page.toNewArtist = page.content := by
  simp [Artist.content, Page.content, Page.toNewArtist, NewArtist.columns, membershipGiven,
    Function.comp_def]

end Sent

section Lookups

variable {db db' : Database} {id : ℤ} {c : Content} {page : Page List} {common : CommonFilter}
  {artistType : ArtistType}

theorem pageName_eq_some {n : LocalizedName} (h : db.hasLanguage n.languageId) :
    ∃ name, pageName db n = some name ∧ (⟨name.languageId, name.name⟩ : LocalizedName) = n := by
  obtain ⟨language, hlanguage⟩ := Table.has_iff_findById.mp h
  refine ⟨⟨n.languageId, language, n.name⟩, ?_, rfl⟩
  rw [pageName, hlanguage]
  rfl

theorem pageRole_eq_some {roleId : ℤ} (h : db.hasCreditRole roleId) :
    ∃ role, pageRole db roleId = some role ∧ role.id = roleId := by
  obtain ⟨role, hrole⟩ := Table.has_iff_findById.mp h
  refine ⟨⟨roleId, role.name⟩, ?_, rfl⟩
  rw [pageRole, hrole]
  rfl

/-- Every name on a page is the one that is looked up for its text. -/
theorem pageName_of_some {n : LocalizedName} {name : PageName} (h : pageName db n = some name) :
    pageName db ⟨name.languageId, name.name⟩ = some name := by
  obtain ⟨language, hlanguage, rfl⟩ := Option.map_eq_some_iff.mp h
  exact h

theorem pageRole_of_some {roleId : ℤ} {role : CreditRoleRef} (h : pageRole db roleId = some role) :
    pageRole db role.id = some role := by
  obtain ⟨row, hrow, rfl⟩ := Option.map_eq_some_iff.mp h
  exact h

/-- What was looked up is found again. -/
theorem filterMap_lookup {α β : Type} {f : α → Option β} {g : β → α} {l : List α}
    (hf : ∀ a b, f a = some b → f (g b) = some b) :
    ((l.filterMap f).map g).filterMap f = l.filterMap f := by
  rw [List.filterMap_map]
  conv_rhs => rw [← List.filterMap_some (l := l.filterMap f)]
  apply List.filterMap_congr
  intro b hb
  obtain ⟨a, -, ha⟩ := List.mem_filterMap.mp hb
  exact hf a b ha

/-- Where every lookup succeeds, nothing is lost. -/
theorem map_lookup {α β : Type} {f : α → Option β} {g : β → α} {l : List α}
    (hf : ∀ a ∈ l, ∃ b, f a = some b ∧ g b = a) : (l.filterMap f).map g = l := by
  rw [List.map_filterMap]
  conv_rhs => rw [← List.filterMap_some (l := l)]
  apply List.filterMap_congr
  intro a ha
  obtain ⟨b, hb, hg⟩ := hf a ha
  rw [hb, Option.map_some, hg]

end Lookups

section Page

variable {db db' : Database} {id : ℤ} {c : Content} {page : Page List} {common : CommonFilter}
  {artistType : ArtistType} {artist : Artist}

def pageFrom (db : Database) (id : ℤ) (artist : Artist) : Page List where
  id := id
  name := artist.name
  artistType := artist.artistType
  textAliases := artist.textAlias
  startDate := pageDate artist.startDate artist.startDatePrecision
  endDate := pageDate artist.endDate artist.endDatePrecision
  aliases := aliasesOf db.artists.artistAlias id
  links := db.artists.link.items id
  localizedNames := (db.artists.localizedName.items id).filterMap (pageName db)
  startLocation := artist.startLocation
  currentLocation := artist.currentLocation
  memberships := pageMemberships db id artist.artistType

/-- The foreign keys see to it that every language is found. -/
theorem findOne_eq (hwf : Wf db) :
    findOne db common id =
      ((db.artists.artist.findById id).filter fun artist =>
        common.accepts id artist.artistType).map (pageFrom db id) := by
  have hnames : (db.artists.localizedName.items id).mapM (pageName db) =
      some ((db.artists.localizedName.items id).filterMap (pageName db)) := by
    apply mapM_eq_filterMap
    intro n hn
    obtain ⟨name, hname, -⟩ := pageName_eq_some (check_of_satisfies hwf.localizedName hn).2
    exact ⟨name, hname⟩
  unfold findOne
  rw [hnames]
  cases db.artists.artist.findById id with
  | none => rfl
  | some artist =>
    cases haccepts : common.accepts id artist.artistType with
    | false => simp [haccepts]
    | true =>
      simp [haccepts]
      rfl

theorem pageMemberships_eq :
    pageMemberships db id artistType =
      (db.artists.membership.rows.filter fun r => shown artistType id r.cols).map fun r =>
        { artistId := partner artistType r.cols
          roles := (db.artists.membershipRole.items r.id).filterMap (pageRole db)
          tenure := orderById (db.artists.membershipTenure.itemRows r.id) } := by
  have hfilter : (db.artists.membership.rows.filter fun r => ofMembership id r.cols).filter
        (fun r => shown artistType id r.cols) =
      db.artists.membership.rows.filter fun r => shown artistType id r.cols := by
    rw [List.filter_filter]
    apply List.filter_congr
    intro r _
    cases hshown : shown artistType id r.cols with
    | false => rfl
    | true => simp [ofMembership_of_shown hshown]
  unfold pageMemberships groupAssociation
  rw [List.filter_map, List.map_map]
  simp only [Function.comp_def, hfilter]

theorem coe_orderById_self {I : Type} {t : Table (Owned I)} {owner : ℤ} :
    (orderById (t.itemRows owner) : Multiset I) = t.items owner :=
  coe_orderById (List.Perm.refl _)

theorem unordered_pageFrom :
    (pageFrom db id artist).unordered = pageOf db id {
      artist := artist
      aliases := aliasesOf db.artists.artistAlias id
      links := db.artists.link.items id
      localizedNames := db.artists.localizedName.items id
      memberships := membershipsOf (liveMemberships db) artist.artistType id
      hidden := hiddenOf (liveMemberships db) artist.artistType id } := by
  simp [Page.unordered, pageFrom, pageOf, pageMemberships_eq, membershipsOf, membershipContent,
    PageMembership.unordered, coe_orderById_self, liveMemberships, Function.comp_def]

/-- A page shows the rows of the artist, up to order, and nothing else. -/
theorem unordered_findOne (hwf : Wf db) :
    (findOne db common id).map Page.unordered =
      ((live db id).filter fun c => common.accepts id c.artist.artistType).map (pageOf db id) := by
  rw [findOne_eq hwf, live]
  cases db.artists.artist.findById id with
  | none => rfl
  | some artist =>
    cases haccepts : common.accepts id artist.artistType with
    | false => simp [Option.filter, haccepts]
    | true => simp [Option.filter, haccepts, unordered_pageFrom]

/-- Languages and credit roles are all that a page takes from elsewhere. -/
theorem pageOf_congr (hlanguages : db'.languages = db.languages)
    (hroles : db'.creditRoles = db.creditRoles) : pageOf db' = pageOf db := by
  have hname : pageName db' = pageName db := by
    funext n
    rw [pageName, pageName, hlanguages]
  have hrole : pageRole db' = pageRole db := by
    funext roleId
    rw [pageRole, pageRole, hroles]
  funext id c
  rw [pageOf, pageOf, hname, hrole]

theorem pageDate_value_precision {value : Option NaiveDate} {precision : Option DatePrecision} :
    pageDate ((pageDate value precision).map DateWithPrecision.value)
      ((pageDate value precision).map DateWithPrecision.precision) = pageDate value precision := by
  cases value with
  | none => rfl
  | some value => cases precision <;> rfl

/-- A page that is sent back shows the same again. -/
theorem pageOf_content : pageOf db id (pageFrom db id artist).content =
    (pageFrom db id artist).unordered := by
  have hnames : (pageFrom db id artist).content.localizedNames.filterMap (pageName db) =
      (pageFrom db id artist).localizedNames := by
    have hlookup := filterMap_lookup (l := db.artists.localizedName.items id)
      (f := pageName db) (g := fun n => (⟨n.languageId, n.name⟩ : LocalizedName))
      fun _ _ => pageName_of_some
    simp only [pageFrom, Page.content, Multiset.filterMap_coe, hlookup]
  have hmemberships : ((pageFrom db id artist).content.memberships.map fun m =>
        (⟨m.1, m.2.1.filterMap (pageRole db), m.2.2⟩ : PageMembership Multiset)) =
      ((pageFrom db id artist).memberships.map PageMembership.unordered :
        Multiset (PageMembership Multiset)) := by
    simp only [pageFrom, Page.content, pageMemberships_eq, Multiset.map_coe, List.map_map]
    refine congrArg Multiset.ofList (List.map_congr_left fun r _ => ?_)
    have hlookup := filterMap_lookup (l := db.artists.membershipRole.items r.id)
      (f := pageRole db) (g := CreditRoleRef.id) fun _ _ => pageRole_of_some
    simp [PageMembership.unordered, hlookup]
  unfold pageOf Page.unordered
  rw [hnames, hmemberships]
  simp [pageFrom, Page.content, pageDate_value_precision]

/-- Roles are rows of credit roles, so that none is lost on the page. -/
theorem content_memberships (hwf : Wf db) :
    (pageFrom db id artist).content.memberships =
      membershipsOf (liveMemberships db) artist.artistType id := by
  simp only [pageFrom, Page.content, pageMemberships_eq, membershipsOf, List.map_map]
  refine congrArg Multiset.ofList (List.map_congr_left fun r _ => ?_)
  have hlookup : ((db.artists.membershipRole.items r.id).filterMap (pageRole db)).map
      CreditRoleRef.id = db.artists.membershipRole.items r.id := by
    apply map_lookup
    intro roleId hroleId
    exact pageRole_eq_some (check_of_satisfies hwf.membershipRole hroleId).2
  simp [membershipContent, liveMemberships, hlookup, coe_orderById_self]

theorem findOne_eq_some (hwf : Wf db) (h : findOne db common id = some page) :
    ∃ artist, db.artists.artist.findById id = some artist ∧ page = pageFrom db id artist := by
  rw [findOne_eq hwf] at h
  obtain ⟨artist, hartist, rfl⟩ := Option.map_eq_some_iff.mp h
  exact ⟨artist, (Option.filter_eq_some_iff.mp hartist).1, rfl⟩

end Page

end Artist

end Thcdb.Catalog
