import Thcdb.Catalog.ReleaseLoader
import Thcdb.Paging.Cursors
import Thcdb.Relational.Ordered

namespace Thcdb.Catalog.ArtistReleases
open Paging Relational Release

structure Cursor where
  after : ℤ
  limit : UInt8
  deriving DecidableEq, Repr

structure CursorResponse (T : Type) where
  items : List T
  nextCursor : Option ℤ
  deriving DecidableEq, Repr

def CursorResponse.map {T U : Type} (r : CursorResponse T) (f : T → U) : CursorResponse U :=
  ⟨r.items.map f, r.nextCursor⟩

structure ArtistReleaseArtist where
  id : ℤ
  name : String
  deriving DecidableEq, Repr

structure Discography where
  releaseId : ℤ
  title : String
  artist : List ArtistReleaseArtist
  releaseDate : Option DateWithPrecision
  releaseType : ReleaseType
  deriving DecidableEq, Repr

abbrev Appearance := Discography

structure Credit where
  releaseId : ℤ
  title : String
  artist : List ArtistReleaseArtist
  releaseDate : Option DateWithPrecision
  releaseType : ReleaseType
  roles : List CreditRoleRef
  deriving DecidableEq, Repr

structure ArtistReleaseIR where
  release : Row Release
  artists : List (Row Artist)

section Queries
variable (db : Database) (artistId : ℤ)

def notReleaseArtist (r : Row Release) : Bool := artistId ∉ db.releases.artist.items r.id

/-- The releases with a track by the artist. -/
def appearanceSelect : List (Row Release) :=
  db.releases.release.rows.filter fun r => notReleaseArtist db artistId r &&
    (db.releases.track.itemRows r.id).any fun t => artistId ∈ db.releases.trackArtist.items t.id

/-- `INNER JOIN` with the credits of the artist: each of them makes a row. -/
def creditSelect : List (Row Release) :=
  (db.releases.release.rows.flatMap fun r =>
    ((db.releases.credit.items r.id).filter fun c => c.artistId = artistId).map fun _ => r).filter
      (notReleaseArtist db artistId)

/-- `LEFT JOIN` with the artists of releases, and then the rows of this one. -/
def discographySelect (releaseType : ReleaseType) : List (Row Release) :=
  ((leftJoin (fun r : Row Release => db.releases.artist.items r.id) db.releases.release.rows).filter
    fun p => p.1.cols.releaseType = releaseType && p.2 = some artistId).map Prod.fst

/-- One page of a select, with the artists of the releases; the overflow of `limit + 1` is a
panic. -/
def findArtistReleases (select : List (Row Release)) (pagination : Cursor) :
    Option (CursorResponse ArtistReleaseIR) :=
  if 255 < pagination.limit.toNat + 1 then none
  else
    -- one more than the limit is read, to see whether there are more
    let found := ((sortById select).filter fun r => pagination.after < r.id).take
      (pagination.limit.toNat + 1)
    let hasMore : Bool := pagination.limit.toNat < found.length
    let releases := if hasMore then found.dropLast else found
    match releases.getLast? with
    | none => some ⟨[], none⟩
    | some last =>
      let artists := loadManyToMany db.artists.artist db.releases.artist (releases.map Row.id)
      some ⟨(releases.zip artists).map fun p => ⟨p.1, p.2⟩,
        if hasMore then some last.id else none⟩

def ArtistReleaseIR.artist (ir : ArtistReleaseIR) : List ArtistReleaseArtist :=
  ir.artists.map fun artist => ⟨artist.id, artist.cols.name⟩

def Discography.fromIR (ir : ArtistReleaseIR) : Discography where
  releaseId := ir.release.id
  title := ir.release.cols.title
  artist := ir.artist
  releaseDate := fromOption ir.release.cols.releaseDate ir.release.cols.releaseDatePrecision
  releaseType := ir.release.cols.releaseType

def appearance (pagination : Cursor) : Option (CursorResponse Appearance) :=
  (findArtistReleases db (appearanceSelect db artistId) pagination).map fun x =>
    x.map Discography.fromIR

def discography (releaseType : ReleaseType) (pagination : Cursor) :
    Option (CursorResponse Discography) :=
  (findArtistReleases db (discographySelect db artistId releaseType) pagination).map fun x =>
    x.map Discography.fromIR

/-- Without the role of a credit, a panic. -/
def intoCreditRoles (models : List (Row ReleaseCredit)) (roles : List (Row CreditRole)) :
    Option (List CreditRoleRef) :=
  models.mapM fun model =>
    (roles.find? (·.id = model.cols.roleId)).map fun role => ⟨model.cols.roleId, role.cols.name⟩

def intoArtistCredits (irs : List (ArtistReleaseIR × List (Row ReleaseCredit)))
    (creditRoles : List (Row CreditRole)) : Option (List Credit) :=
  irs.mapM fun (ir, releaseCredits) => do
    let roles ← intoCreditRoles releaseCredits creditRoles
    return {
      releaseId := ir.release.id
      title := ir.release.cols.title
      artist := ir.artist
      releaseDate := fromOption ir.release.cols.releaseDate ir.release.cols.releaseDatePrecision
      releaseType := ir.release.cols.releaseType
      roles := roles }

def creditRows (r : Row Release) : List (Row ReleaseCredit) :=
  (db.releases.credit.itemRows r.id).filter fun c => c.cols.artistId = artistId

def credit (pagination : Cursor) : Option (CursorResponse Credit) := do
  let found ← findArtistReleases db (creditSelect db artistId) pagination
  let releaseCredits := found.items.map fun x => creditRows db artistId x.release
  let roleIds := releaseCredits.flatten.map fun c => c.cols.roleId
  let creditRoles := rowsIn db.creditRoles.creditRole roleIds
  let items ← intoArtistCredits (found.items.zip releaseCredits) creditRoles
  return ⟨items, found.nextCursor⟩

end Queries

section Listed
variable (db : Database) (artistId : ℤ)

/-- The artist is on a track of the release but not on the release. -/
def Appears (r : Row Release) : Prop :=
  artistId ∉ db.releases.artist.items r.id ∧
    ∃ t ∈ db.releases.track.itemRows r.id, artistId ∈ db.releases.trackArtist.items t.id

def creditsOf (r : Row Release) : List ReleaseCredit :=
  (db.releases.credit.items r.id).filter fun c => c.artistId = artistId

/-- The artist has a credit on the release but is not on the release. -/
def Credited (r : Row Release) : Prop :=
  artistId ∉ db.releases.artist.items r.id ∧ creditsOf db artistId r ≠ []

def ReleasedAs (releaseType : ReleaseType) (r : Row Release) : Prop :=
  r.cols.releaseType = releaseType ∧ artistId ∈ db.releases.artist.items r.id

instance (r : Row Release) : Decidable (Appears db artistId r) :=
  inferInstanceAs (Decidable (_ ∧ _))

instance (r : Row Release) : Decidable (Credited db artistId r) :=
  inferInstanceAs (Decidable (_ ∧ _))

instance (releaseType : ReleaseType) (r : Row Release) :
    Decidable (ReleasedAs db artistId releaseType r) :=
  inferInstanceAs (Decidable (_ ∧ _))

/-- The releases with a property, in the order of their identities. -/
def listed (p : Row Release → Prop) [DecidablePred p] : List (Row Release) :=
  sortById (db.releases.release.rows.filter p)

def artistsOf (r : Row Release) : List ArtistReleaseArtist :=
  (db.releases.artist.items r.id).map fun id => ⟨id, (artistRef db id).name⟩

def Discography.of (r : Row Release) : Discography where
  releaseId := r.id
  title := r.cols.title
  artist := artistsOf db r
  releaseDate := fromOption r.cols.releaseDate r.cols.releaseDatePrecision
  releaseType := r.cols.releaseType

def Credit.of (r : Row Release) : Credit where
  releaseId := r.id
  title := r.cols.title
  artist := artistsOf db r
  releaseDate := fromOption r.cols.releaseDate r.cols.releaseDatePrecision
  releaseType := r.cols.releaseType
  roles := (creditsOf db artistId r).map fun c => roleRef db c.roleId

/-- From cursor 0 on, the pages end, none is too long, and together they show these items. -/
def PagesShow {T : Type} (find : Cursor → Option (CursorResponse T)) (limit : UInt8)
    (items : List T) : Prop :=
  ∃ pages, Follows (fun c => (find ⟨c, limit⟩).map fun r => (r.items, r.nextCursor)) 0 pages ∧
    (∀ page ∈ pages, page.length ≤ limit.toNat) ∧ pages.flatten = items

/-- All three listings show each release that they are of once, in order. -/
def ListingsPage (limit : UInt8) : Prop :=
  PagesShow (appearance db artistId) limit
      ((listed db (Appears db artistId)).map (Discography.of db)) ∧
    PagesShow (credit db artistId) limit
      ((listed db (Credited db artistId)).map (Credit.of db artistId)) ∧
    ∀ releaseType, PagesShow (discography db artistId releaseType) limit
      ((listed db (ReleasedAs db artistId releaseType)).map (Discography.of db))

end Listed

section Pages
variable {db : Database} {artistId cursor : ℤ} {limit : UInt8} {select : List (Row Release)}
  {releaseType : ReleaseType}

def irOf (db : Database) (r : Row Release) : ArtistReleaseIR :=
  ⟨r, (db.releases.artist.items r.id).filterMap fun id =>
    (db.artists.artist.findById id).map (Row.mk id)⟩

theorem findArtistReleases_overflow (h : limit = 255) :
    findArtistReleases db select ⟨cursor, limit⟩ = none := by
  subst h
  rfl

/-- Below the overflow, a page is the rows after the cursor up to the limit. -/
theorem findArtistReleases_eq (h : limit ≠ 255) :
    findArtistReleases db select ⟨cursor, limit⟩ =
      some ⟨(cursorPage Row.id (sortById select) limit.toNat cursor).1.map (irOf db),
        (cursorPage Row.id (sortById select) limit.toNat cursor).2⟩ := by
  have hlimit : ¬255 < limit.toNat + 1 := by
    intro hlt
    have hbound := limit.toNat_lt
    have hmax : limit.toNat = 255 := by omega
    exact h (UInt8.toNat_inj.mp hmax)
  unfold findArtistReleases cursorPage
  rw [if_neg hlimit]
  generalize (sortById select).filter (fun r => cursor < r.id) = rows
  simp only [decide_eq_true_eq, lt_length_probe, drop_probe]
  cases hlast : (rows.take limit.toNat).getLast? with
  | none =>
    rw [List.getLast?_eq_none_iff.mp hlast]
    simp
  | some last =>
    have hload : loadManyToMany db.artists.artist db.releases.artist
        ((rows.take limit.toNat).map Row.id) =
          (rows.take limit.toNat).map fun r => (irOf db r).artists := by
      rw [loadManyToMany, List.map_map]
      rfl
    have hzip : (rows.take limit.toNat).zip ((rows.take limit.toNat).map fun r =>
        (irOf db r).artists) = (rows.take limit.toNat).map fun r => (r, (irOf db r).artists) := by
      simpa using List.zip_map' (f := id) (g := fun r => (irOf db r).artists)
        (l := rows.take limit.toNat)
    rw [hload, hzip, List.map_map]
    rfl

/-- In a consistent database every link leads to an artist. -/
theorem artist_irOf (hwf : Wf db) (r : Row Release) : (irOf db r).artist = artistsOf db r := by
  refine map_filterMap_eq fun id hid => ?_
  obtain ⟨artist, hartist⟩ := hwf.foundArtist hid
  simp [artistRef, hartist]

theorem fromIR_irOf (hwf : Wf db) (r : Row Release) :
    Discography.fromIR (irOf db r) = Discography.of db r := by
  rw [Discography.fromIR, artist_irOf hwf]
  rfl

theorem creditRows_cols {r : Row Release} :
    (creditRows db artistId r).map Row.cols = creditsOf db artistId r := by
  rw [creditRows, creditsOf, ← itemRows_cols, List.filter_map]
  rfl

/-- The roles of the credits on a page are among those that are loaded for it. -/
theorem intoArtistCredits_eq (hwf : Wf db) (releases : List (Row Release)) :
    intoArtistCredits ((releases.map (irOf db)).zip (releases.map (creditRows db artistId)))
      (rowsIn db.creditRoles.creditRole
        ((releases.map (creditRows db artistId)).flatten.map fun c => c.cols.roleId)) =
      some (releases.map (Credit.of db artistId)) := by
  rw [intoArtistCredits, List.zip_map', List.mapM_map]
  refine mapM_eq_map fun r hr => ?_
  have hroles : intoCreditRoles (creditRows db artistId r) (rowsIn db.creditRoles.creditRole
      ((releases.map (creditRows db artistId)).flatten.map fun c => c.cols.roleId)) =
      some ((creditsOf db artistId r).map fun c => roleRef db c.roleId) := by
    rw [intoCreditRoles, ← creditRows_cols, List.map_map]
    refine mapM_eq_map fun c hc => ?_
    obtain ⟨hrow, _⟩ := List.mem_filter.mp hc
    obtain ⟨_, role, hrole⟩ := hwf.foundCredit (cols_mem_items hrow)
    have hid : c.cols.roleId ∈
        (releases.map (creditRows db artistId)).flatten.map fun c => c.cols.roleId :=
      List.mem_map_of_mem (List.mem_flatten.mpr ⟨_, List.mem_map_of_mem hr, hc⟩)
    rw [find?_rowsIn hid hrole]
    simp [roleRef, hrole]
  simp only [Function.comp_apply, hroles, Option.bind_eq_bind, Option.bind_some, artist_irOf hwf]
  rfl

theorem appearance_eq (hwf : Wf db) (h : limit ≠ 255) : appearance db artistId ⟨cursor, limit⟩ =
    some ⟨(cursorPage Row.id (sortById (appearanceSelect db artistId)) limit.toNat cursor).1.map
        (Discography.of db),
      (cursorPage Row.id (sortById (appearanceSelect db artistId)) limit.toNat cursor).2⟩ := by
  rw [appearance, findArtistReleases_eq h, Option.map_some, CursorResponse.map, List.map_map]
  simp only [Function.comp_def, fromIR_irOf hwf]

theorem discography_eq (hwf : Wf db) (h : limit ≠ 255) :
    discography db artistId releaseType ⟨cursor, limit⟩ =
      some ⟨(cursorPage Row.id (sortById (discographySelect db artistId releaseType)) limit.toNat
          cursor).1.map (Discography.of db),
        (cursorPage Row.id (sortById (discographySelect db artistId releaseType)) limit.toNat
          cursor).2⟩ := by
  rw [discography, findArtistReleases_eq h, Option.map_some, CursorResponse.map, List.map_map]
  simp only [Function.comp_def, fromIR_irOf hwf]

theorem credit_eq (hwf : Wf db) (h : limit ≠ 255) : credit db artistId ⟨cursor, limit⟩ =
    some ⟨(cursorPage Row.id (sortById (creditSelect db artistId)) limit.toNat cursor).1.map
        (Credit.of db artistId),
      (cursorPage Row.id (sortById (creditSelect db artistId)) limit.toNat cursor).2⟩ := by
  unfold credit
  rw [findArtistReleases_eq h]
  have hcredits : ∀ releases : List (Row Release),
      (releases.map (irOf db)).map (fun x => creditRows db artistId x.release) =
        releases.map (creditRows db artistId) := fun releases => by
    rw [List.map_map]
    rfl
  simp only [Option.bind_eq_bind, Option.bind_some, hcredits, intoArtistCredits_eq hwf]
  rfl

end Pages

section Order
variable {db : Database} {p : Row Release → Prop} [DecidablePred p] {w : Row Release → ℕ}

theorem pairwise_listed : (listed db p).Pairwise fun r s => r.id < s.id := by
  have hnodup : (listed db p).Pairwise fun r s => r.id ≠ s.id := by
    have hids := db.releases.release.nodup.sublist (List.filter_sublist (p := p).map Row.id)
    exact (List.pairwise_map.mp hids).perm sortById_perm.symm fun h => h.symm
  refine (pairwise_key Row.id).imp₂ ?_ hnodup
  intro r s hle hne
  exact lt_of_le_of_ne hle hne

theorem mem_listed {r : Row Release} : r ∈ listed db p ↔ r ∈ db.releases.release.rows ∧ p r := by
  rw [listed, sortById_perm.mem_iff, List.mem_filter, decide_eq_true_eq]

/-- A select whose rows are releases, some of them repeated, in the order of the cursor. -/
theorem sortById_repeated (hp : ∀ r, p r ↔ 0 < w r) :
    sortById (repeated w db.releases.release.rows) = repeated w (listed db p) := by
  have hfilter : db.releases.release.rows.filter (fun r => 0 < w r) =
      db.releases.release.rows.filter p := List.filter_congr fun r _ => by simp [hp]
  refine List.Perm.eq_of_pairwise ?_ (pairwise_key Row.id) (pairwise_repeated pairwise_listed) ?_
  · intro r s hr hs hle hge
    have hr' := mem_of_mem_repeated (sortById_perm.mem_iff.mp hr)
    exact Table.eq_of_id hr' (mem_listed.mp (mem_of_mem_repeated hs)).1 (le_antisymm hle hge)
  · refine sortById_perm.trans ?_
    rw [← repeated_filter_pos, hfilter]
    exact repeated_perm sortById_perm.symm

end Order

section Shown
variable {db : Database} {limit : UInt8} {T : Type} {find : Cursor → Option (CursorResponse T)}
  {f : Row Release → T} {w : Row Release → ℕ} {p : Row Release → Prop} [DecidablePred p]

/-- A listing of releases that stand in a select as often as their weights say. -/
theorem pagesShow_iff (hlimit : 0 < limit.toNat) (hp : ∀ r, p r ↔ 0 < w r)
    (hoverflow : limit = 255 → find ⟨0, limit⟩ = none)
    (hfind : limit ≠ 255 → ∀ c, find ⟨c, limit⟩ =
      some ⟨(cursorPage Row.id (repeated w (listed db p)) limit.toNat c).1.map f,
        (cursorPage Row.id (repeated w (listed db p)) limit.toNat c).2⟩)
    (hf : ∀ r s, f r = f s → r.id = s.id) :
    PagesShow find limit ((listed db p).map f) ↔ limit ≠ 255 ∧
      (∀ r ∈ listed db p, 0 < r.id) ∧
        ∀ i r, (listed db p)[i]? = some r → w r ≠ 1 → limit.toNat ∣ i + 1 := by
  have hw : ∀ r ∈ listed db p, 0 < w r := fun r hr => (hp r).mp (mem_listed.mp hr).2
  have hall : (∀ r ∈ listed db p, 0 < r.id) →
      (repeated w (listed db p)).filter (fun r => 0 < r.id) = repeated w (listed db p) := by
    intro hpos
    refine List.filter_eq_self.mpr fun r hr => ?_
    simpa using hpos r (mem_of_mem_repeated hr)
  -- the limit is raised by one to see whether there is more, which 255 has no room for
  by_cases hmax : limit = 255
  · refine iff_of_false ?_ fun h => h.1 hmax
    rintro ⟨pages, hpages, -⟩
    cases hpages with
    | last hpage => simp [hoverflow hmax] at hpage
    | next hpage _ => simp [hoverflow hmax] at hpage
  · have hfun : (fun c => (find ⟨c, limit⟩).map fun r => (r.items, r.nextCursor)) = fun c =>
        (some (cursorPage Row.id (repeated w (listed db p)) limit.toNat c)).map
          fun page => (page.1.map f, page.2) := by
      funext c
      rw [hfind hmax]
      rfl
    rw [PagesShow, hfun]
    constructor
    · rintro ⟨shown, hshown, -, hflat⟩
      obtain ⟨pages, hpages, rfl⟩ := hshown.of_map
      rw [← List.map_flatten] at hflat
      -- an item has the identity of its release, so that the pages are those of the releases
      have hsame : pages.flatten = listed db p := by
        refine eq_of_map_eq hflat fun r hr s hs heq => ?_
        have hr' := (mem_listed.mp (mem_of_mem_repeated (hpages.of_mem r hr).2)).1
        exact Table.eq_of_id hr' (mem_listed.mp hs).1 (hf r s heq)
      have hpos : ∀ r ∈ listed db p, 0 < r.id := fun r hr => (hpages.of_mem r (hsame ▸ hr)).1
      exact ⟨hmax, hpos, dvd_of_follows hlimit pairwise_listed hw (hall hpos) hpages hsame⟩
    · rintro ⟨-, hpos, hends⟩
      obtain ⟨pages, hpages, hflat⟩ :=
        exists_follows hlimit pairwise_listed hw (hall hpos) hends
      refine ⟨_, hpages.map, ?_, by rw [← List.map_flatten, hflat]⟩
      intro page hpage
      obtain ⟨rows, hrows, rfl⟩ := List.mem_map.mp hpage
      rw [List.length_map]
      exact hpages.page_length_le rows hrows

end Shown

section Selects
variable (db : Database) (artistId : ℤ) (releaseType : ReleaseType)

/-- How often a release stands in each select. -/
def appearanceWeight (r : Row Release) : ℕ := if Appears db artistId r then 1 else 0

def creditWeight (r : Row Release) : ℕ :=
  if artistId ∈ db.releases.artist.items r.id then 0 else (creditsOf db artistId r).length

def discographyWeight (r : Row Release) : ℕ :=
  if r.cols.releaseType = releaseType then (db.releases.artist.items r.id).count artistId else 0

variable {db artistId releaseType} {limit : UInt8}

theorem appearanceSelect_eq : appearanceSelect db artistId =
    repeated (appearanceWeight db artistId) db.releases.release.rows := by
  unfold appearanceWeight
  rw [← filter_eq_repeated]
  refine List.filter_congr fun r _ => ?_
  rw [Bool.eq_iff_iff, decide_eq_true_iff]
  simp [notReleaseArtist, Appears]

theorem creditSelect_eq : creditSelect db artistId =
    repeated (creditWeight db artistId) db.releases.release.rows := by
  rw [creditSelect, List.filter_flatMap]
  refine List.flatMap_congr fun r _ => ?_
  rw [← creditsOf, List.map_const', creditWeight]
  by_cases h : artistId ∈ db.releases.artist.items r.id
  · rw [if_pos h, List.filter_replicate_of_neg (by simpa [notReleaseArtist] using h)]
    rfl
  · rw [if_neg h, List.filter_replicate_of_pos (by simpa [notReleaseArtist] using h)]

theorem discographySelect_eq : discographySelect db artistId releaseType =
    repeated (discographyWeight db artistId releaseType) db.releases.release.rows := by
  rw [discographySelect, leftJoin, List.filter_flatMap, List.map_flatMap]
  refine List.flatMap_congr fun r _ => ?_
  rw [discographyWeight, joined]
  by_cases h : r.cols.releaseType = releaseType
  · cases hitems : db.releases.artist.items r.id with
    | nil => simp [h]
    | cons id ids =>
      have hrows : ((id :: ids).map fun b => (r, some b)).filter (fun p =>
          p.1.cols.releaseType = releaseType && p.2 = some artistId) =
            ((id :: ids).filter (· = artistId)).map fun b => (r, some b) := by
        rw [List.filter_map]
        simp [Function.comp_def, h]
      have hfst : (fun b => Prod.fst (r, some b)) = Function.const ℤ r := rfl
      rw [if_pos h, hrows, List.map_map, Function.comp_def, hfst, List.map_const,
        List.count_eq_countP, List.countP_eq_length_filter]
      rfl
  · cases hitems : db.releases.artist.items r.id <;> simp [h]

theorem appears_iff {r : Row Release} :
    Appears db artistId r ↔ 0 < appearanceWeight db artistId r := by
  by_cases h : Appears db artistId r <;> simp [appearanceWeight, h]

theorem credited_iff {r : Row Release} : Credited db artistId r ↔ 0 < creditWeight db artistId r := by
  rw [Credited, ← List.length_pos_iff, creditWeight]
  by_cases h : artistId ∈ db.releases.artist.items r.id <;> simp [h]

theorem releasedAs_iff {r : Row Release} : ReleasedAs db artistId releaseType r ↔
    0 < discographyWeight db artistId releaseType r := by
  rw [ReleasedAs, ← List.count_pos_iff, discographyWeight]
  by_cases h : r.cols.releaseType = releaseType <;> simp [h]

/-- Each appearance makes one row. -/
theorem appearance_pages_iff (hwf : Wf db) (hlimit : 0 < limit) :
    PagesShow (appearance db artistId) limit
        ((listed db (Appears db artistId)).map (Discography.of db)) ↔
      limit ≠ 255 ∧ ∀ r ∈ listed db (Appears db artistId), 0 < r.id := by
  rw [pagesShow_iff (UInt8.lt_iff_toNat_lt.mp hlimit) fun r => appears_iff]
  · refine and_congr_right fun _ => and_iff_left fun i r hr hne => absurd ?_ hne
    exact if_pos (mem_listed.mp (List.mem_of_getElem? hr)).2
  · intro hmax
    rw [appearance, findArtistReleases_overflow hmax]
    rfl
  · intro hmax c
    rw [appearance_eq hwf hmax, appearanceSelect_eq, sortById_repeated fun r => appears_iff]
  · intro r s h
    exact congrArg Discography.releaseId h

/-- An artist is on a release once, and so a release makes one row. -/
theorem discography_pages_iff (hwf : Wf db) (hlimit : 0 < limit) :
    PagesShow (discography db artistId releaseType) limit
        ((listed db (ReleasedAs db artistId releaseType)).map (Discography.of db)) ↔
      limit ≠ 255 ∧ ∀ r ∈ listed db (ReleasedAs db artistId releaseType), 0 < r.id := by
  rw [pagesShow_iff (UInt8.lt_iff_toNat_lt.mp hlimit) fun r => releasedAs_iff]
  · refine and_congr_right fun _ => and_iff_left fun i r hr hne => absurd ?_ hne
    obtain ⟨htype, hartist⟩ := (mem_listed.mp (List.mem_of_getElem? hr)).2
    rw [discographyWeight, if_pos htype]
    exact List.count_eq_one_of_mem (nodup_of_satisfies hwf.artist rfl) hartist
  · intro hmax
    rw [discography, findArtistReleases_overflow hmax]
    rfl
  · intro hmax c
    rw [discography_eq hwf hmax, discographySelect_eq, sortById_repeated fun r => releasedAs_iff]
  · intro r s h
    exact congrArg Discography.releaseId h

/-- A release with several credits of the artist must end a page, for the rest to be passed over. -/
theorem credit_pages_iff (hwf : Wf db) (hlimit : 0 < limit) :
    PagesShow (credit db artistId) limit
        ((listed db (Credited db artistId)).map (Credit.of db artistId)) ↔
      limit ≠ 255 ∧ (∀ r ∈ listed db (Credited db artistId), 0 < r.id) ∧
        ∀ i r, (listed db (Credited db artistId))[i]? = some r →
          1 < (creditsOf db artistId r).length → limit.toNat ∣ i + 1 := by
  rw [pagesShow_iff (UInt8.lt_iff_toNat_lt.mp hlimit) fun r => credited_iff]
  · refine and_congr_right fun _ => and_congr_right fun _ => ?_
    refine forall₃_congr fun i r hr => ?_
    obtain ⟨hout, hcredits⟩ := (mem_listed.mp (List.mem_of_getElem? hr)).2
    have hpos := List.length_pos_iff.mpr hcredits
    rw [creditWeight, if_neg hout]
    exact imp_congr_left (by omega)
  · intro hmax
    rw [credit, findArtistReleases_overflow hmax]
    rfl
  · intro hmax c
    rw [credit_eq hwf hmax, creditSelect_eq, sortById_repeated fun r => credited_iff]
  · intro r s h
    exact congrArg Credit.releaseId h

/-- The pages of the listings show every release once, in order, under these conditions. -/
theorem listings_page_iff (hwf : Wf db) (hlimit : 0 < limit) :
    (PagesShow (appearance db artistId) limit
        ((listed db (Appears db artistId)).map (Discography.of db)) ↔
      limit ≠ 255 ∧ ∀ r ∈ listed db (Appears db artistId), 0 < r.id) ∧
    (PagesShow (credit db artistId) limit
        ((listed db (Credited db artistId)).map (Credit.of db artistId)) ↔
      limit ≠ 255 ∧ (∀ r ∈ listed db (Credited db artistId), 0 < r.id) ∧
        ∀ i r, (listed db (Credited db artistId))[i]? = some r →
          1 < (creditsOf db artistId r).length → limit.toNat ∣ i + 1) ∧
    ∀ releaseType, PagesShow (discography db artistId releaseType) limit
        ((listed db (ReleasedAs db artistId releaseType)).map (Discography.of db)) ↔
      limit ≠ 255 ∧ ∀ r ∈ listed db (ReleasedAs db artistId releaseType), 0 < r.id := by
  refine ⟨appearance_pages_iff hwf hlimit, credit_pages_iff hwf hlimit, ?_⟩
  intro releaseType
  exact discography_pages_iff hwf hlimit

end Selects

/-- Some releases, and the credits of one artist: for which release, and in which of two roles. -/
def credited (releases : ℕ) (credits : List (ℤ × ℤ)) : Database :=
  let db : Database := default
  let artist : Artist := ⟨"a", .Solo, none, none, none, none, none, .none, .none⟩
  let release : Release := ⟨"p", .Album, none, .Day, none, .Day, none, .Day⟩
  { db with
    artists := { db.artists with artist := db.artists.artist.insertAll [artist] }
    creditRoles := { db.creditRoles with
      creditRole := db.creditRoles.creditRole.insertAll [⟨"v", "", ""⟩, ⟨"w", "", ""⟩] }
    releases := { db.releases with
      release := db.releases.release.insertAll (List.replicate releases release)
      credit := db.releases.credit.insertAll (credits.map fun c => ⟨c.1, 1, c.2, none⟩) } }

theorem listed_eq_rows {db : Database} {p : Row Release → Prop} [DecidablePred p]
    (h : ∀ r ∈ db.releases.release.rows, p r)
    (hsorted : db.releases.release.rows.Pairwise fun r s => r.id ≤ s.id) :
    listed db p = db.releases.release.rows := by
  rw [listed, List.filter_eq_self.mpr (by simpa using h)]
  exact List.mergeSort_of_pairwise (by simpa using hsorted)

/-- Three releases, of which the second, at the end of the first page, has two credits. -/
def threeCredited : Database := credited 3 [(1, 1), (2, 1), (2, 2), (3, 2)]

theorem listings_page_three_credited : PagesShow (credit threeCredited 1) 2
    ((listed threeCredited (Credited threeCredited 1)).map (Credit.of threeCredited 1)) := by
  have hwf : Wf threeCredited := by constructor <;> decide
  refine (listings_page_iff hwf (by decide)).2.1.mpr ?_
  rw [listed_eq_rows (by decide) (by decide)]
  refine ⟨by decide, by decide, ?_⟩
  intro i r hr hmany
  obtain _ | _ | _ | i := i
  · obtain rfl := Option.some.inj hr
    exact absurd hmany (by decide)
  · decide
  · obtain rfl := Option.some.inj hr
    exact absurd hmany (by decide)
  · cases hr

/-- With two credits a release stands on the page twice. -/
theorem listings_page_two_credits : ¬∀ db artistId limit, Wf db → 0 < limit →
    ListingsPage db artistId limit := by
  intro hclaim
  have hwf : Wf (credited 1 [(1, 1), (1, 2)]) := by constructor <;> decide
  have hshown := (hclaim (credited 1 [(1, 1), (1, 2)]) 1 20 hwf (by decide)).2.1
  rw [credit_pages_iff hwf (by decide), listed_eq_rows (by decide) (by decide)] at hshown
  have hdvd := hshown.2.2 0 _ rfl (by decide)
  revert hdvd
  decide

end Thcdb.Catalog.ArtistReleases
