import Thcdb.Auth.Users
import Thcdb.Fallible.Except
import Thcdb.Paging.PageQuery
import Thcdb.Users.Tables

namespace Thcdb.Admin
open Paging Relational Users

structure UserSummary where
  id : ℤ
  name : String
  roles : List UserRole
  deriving DecidableEq, Repr

/-- The `LIKE` of SQL, with the backslash as its escape. -/
def like : List Char → List Char → Bool
  | [], s => s.isEmpty
  | '%' :: p, s => s.tails.any (like p)
  | '_' :: p, s => match s with
    | [] => false
    | _ :: s => like p s
  | '\\' :: c :: p, s => match s with
    | [] => false
    | d :: s => c = d && like p s
  | c :: p, s => match s with
    | [] => false
    | d :: s => c = d && like p s

section Query
variable (X : Auth.Crates) (db : UserTables)

/-- An empty keyword filters nothing. -/
def matchesKeyword (keyword : Option String) (user : Row UserColumns) : Bool :=
  match keyword.filter (!·.isEmpty) with
  | none => true
  | some keyword =>
    like ('%' :: (X.toLowercase keyword).toList ++ ['%']) (X.lower user.cols.name).toList

def matchingUsers (keyword : Option String) : List (Row UserColumns) :=
  sortById (db.user.rows.filter (matchesKeyword X keyword))

def userSummary (model : Row UserColumns × List ℤ) : Except String UserSummary := do
  let roles ← model.2.mapM UserRole.tryFrom
  return ⟨model.1.id, model.1.cols.name, roles⟩

/-- Offset and limit are those of the rows of the join, the total is one of users. -/
def adminUsers {db : UserTables} (arrangement : Arrangement db) (keyword : Option String)
    (pagination : PageQuery) : Except String (PageResponse UserSummary) := do
  let page := pagination.page
  let pageSize := pagination.limit
  let users := matchingUsers X db keyword
  let rows := leftJoin (fun user => arrangement.roles user.id) users
  let models := consolidate ((rows.drop (pageOffset page pageSize)).take pageSize.toNat)
  let items ← models.mapM userSummary
  return ⟨items, page, pageSize, users.length, totalPages users.length pageSize⟩

end Query

section Listing
variable (X : Auth.Crates) {db : UserTables} (keyword : Option String) (limit? : Option UInt32)

variable (db) in
def Shows (user : Row UserColumns) (item : UserSummary) : Prop :=
  ∃ roles : List UserRoleEnum, item = ⟨user.id, user.cols.name, roles.map .ofEnum⟩ ∧
    (roles.map UserRoleEnum.asId).Perm (db.rolesOf user.id)

variable (db) in
def userPages : ℕ := totalPages (matchingUsers X db keyword).length (PageQuery.mk limit? none).limit

structure AllListed (arrangement : UInt32 → Arrangement db)
    (items : UInt32 → List UserSummary) : Prop where
  answered : ∀ p : UInt32, 0 < p.toNat → p.toNat ≤ userPages X db keyword limit? →
    ∃ response, adminUsers X (arrangement p) keyword ⟨limit?, some p⟩ = .ok response ∧
      response.items = items p ∧ response.totalPages = userPages X db keyword limit?
  listed : List.Forall₂ (Shows db) (matchingUsers X db keyword)
    ((List.range (userPages X db keyword limit?)).flatMap fun i => items (UInt32.ofNat (i + 1)))
  full : ∀ p : UInt32, 0 < p.toNat → p.toNat < userPages X db keyword limit? →
    (items p).length = pageSize limit?

variable (db) in
def usersBefore : ℕ := (userPages X db keyword limit? - 1) * pageSize limit?

variable (db) in
/-- The users before the last page have one role at most, those on the last page make no more
rows than fit, and every role is one of the enumeration. -/
structure FitsPages : Prop where
  known : ∀ user ∈ matchingUsers X db keyword, ∀ roleId ∈ db.rolesOf user.id,
    UserRoleEnum.Known roleId
  single : ∀ user ∈ (matchingUsers X db keyword).take (usersBefore X db keyword limit?),
    (db.rolesOf user.id).length ≤ 1
  last : (((matchingUsers X db keyword).drop (usersBefore X db keyword limit?)).map
    fun user => max 1 (db.rolesOf user.id).length).sum ≤ pageSize limit?

end Listing

section Summary
variable {user : Row UserColumns} {roleIds : List ℤ} {item : UserSummary}

theorem tryFrom_eq_ok_iff {roleId : ℤ} {role : UserRole} :
    UserRole.tryFrom roleId = .ok role ↔
      ∃ kind : UserRoleEnum, role = .ofEnum kind ∧ kind.asId = roleId := by
  unfold UserRole.tryFrom
  constructor
  · intro h
    cases hkind : UserRoleEnum.tryFrom roleId with
    | error e => simp [hkind, Except.map] at h
    | ok kind =>
      simp only [hkind, Except.map, Except.ok.injEq] at h
      exact ⟨kind, h.symm, UserRoleEnum.asId_of_tryFrom hkind⟩
  · rintro ⟨kind, rfl, rfl⟩
    rw [UserRoleEnum.tryFrom_asId]
    rfl

theorem userSummary_eq_ok_iff : userSummary (user, roleIds) = .ok item ↔
    ∃ kinds : List UserRoleEnum, item = ⟨user.id, user.cols.name, kinds.map .ofEnum⟩ ∧
      kinds.map UserRoleEnum.asId = roleIds := by
  have hroles : ∀ roles : List UserRole, roleIds.mapM UserRole.tryFrom = .ok roles ↔
      ∃ kinds : List UserRoleEnum, roles = kinds.map .ofEnum ∧
        kinds.map UserRoleEnum.asId = roleIds := by
    intro roles
    rw [Fallible.mapM_eq_ok_iff]
    constructor
    · intro h
      induction h with
      | nil => exact ⟨[], rfl, rfl⟩
      | cons hrole _ ih =>
        obtain ⟨kind, rfl, rfl⟩ := tryFrom_eq_ok_iff.mp hrole
        obtain ⟨kinds, rfl, rfl⟩ := ih
        exact ⟨kind :: kinds, rfl, rfl⟩
    · rintro ⟨kinds, rfl, rfl⟩
      rw [List.forall₂_map_left_iff, List.forall₂_map_right_iff]
      exact List.forall₂_same.mpr fun kind _ => tryFrom_eq_ok_iff.mpr ⟨kind, rfl, rfl⟩
  unfold userSummary
  cases hmap : roleIds.mapM UserRole.tryFrom with
  | error e =>
    constructor
    · intro h
      cases h
    · rintro ⟨kinds, _, hids⟩
      have hok := (hroles _).mpr ⟨kinds, rfl, hids⟩
      rw [hmap] at hok
      cases hok
  | ok roles =>
    obtain ⟨kinds, rfl, hids⟩ := (hroles roles).mp hmap
    constructor
    · intro h
      exact ⟨kinds, (Except.ok.inj h).symm, hids⟩
    · rintro ⟨kinds', rfl, hids'⟩
      have hok := (hroles _).mpr ⟨kinds', rfl, hids'⟩
      rw [hmap] at hok
      rw [← Except.ok.inj hok]
      rfl

end Summary

section Pages
variable {X : Auth.Crates} {db : UserTables} {keyword : Option String} {limit? : Option UInt32}
  {arrangement : Arrangement db} {p : UInt32} {items : List UserSummary}

def pageRows (X : Auth.Crates) (arrangement : Arrangement db) (keyword : Option String)
    (limit? : Option UInt32) (p : UInt32) : List (Row UserColumns × Option ℤ) :=
  slice (pageSize limit?) (p.toNat - 1)
    (leftJoin (fun user => arrangement.roles user.id) (matchingUsers X db keyword))

theorem adminUsers_eq (hp : 0 < p.toNat) :
    adminUsers X arrangement keyword ⟨limit?, some p⟩ =
      ((consolidate (pageRows X arrangement keyword limit? p)).mapM userSummary).map fun items =>
        ⟨items, p, (PageQuery.mk limit? none).limit, (matchingUsers X db keyword).length,
          userPages X db keyword limit?⟩ := by
  have hpage := PageQuery.page_eq limit? hp
  have hoffset := pageOffset_eq (q := ⟨limit?, some p⟩) p
  unfold adminUsers
  simp only [hpage, hoffset]
  show (do
    let items ← (consolidate (pageRows X arrangement keyword limit? p)).mapM userSummary
    _) = _
  cases (consolidate (pageRows X arrangement keyword limit? p)).mapM userSummary <;> rfl

theorem weight_arrangement (user : Row UserColumns) :
    weight (fun user => arrangement.roles user.id) user = max 1 (db.rolesOf user.id).length := by
  rw [weight, (arrangement.perm user.id).length_eq]

theorem nodup_matchingUsers : (matchingUsers X db keyword).Nodup := by
  have hrows : db.user.rows.Nodup := List.Nodup.of_map _ db.user.nodup
  exact (sortById_perm.nodup_iff).mpr (hrows.filter _)

/-- How many roles are shown on a page, counting a user without any as one. -/
theorem sum_items_le {response : PageResponse UserSummary} (hp : 0 < p.toNat)
    (h : adminUsers X arrangement keyword ⟨limit?, some p⟩ = .ok response) :
    (response.items.map fun item => max 1 item.roles.length).sum ≤ pageSize limit? := by
  rw [adminUsers_eq hp] at h
  cases hpage : (consolidate (pageRows X arrangement keyword limit? p)).mapM userSummary with
  | error e => simp [hpage, Except.map] at h
  | ok items =>
    simp only [hpage, Except.map, Except.ok.injEq] at h
    have hmap : response.items.map (fun item => max 1 item.roles.length) =
        (consolidate (pageRows X arrangement keyword limit? p)).map fun g => max 1 g.2.length := by
      rw [← h]
      have hall := Fallible.mapM_eq_ok_iff.mp hpage
      clear hpage h
      generalize consolidate (pageRows X arrangement keyword limit? p) = groups at hall ⊢
      induction hall with
      | nil => rfl
      | @cons g item _ _ hitem _ ih =>
        obtain ⟨kinds, rfl, hids⟩ := userSummary_eq_ok_iff.mp hitem
        rw [List.map_cons, List.map_cons, ih, ← hids, List.length_map, List.length_map]
    rw [hmap]
    refine sum_consolidate_le.trans ?_
    rw [pageRows, length_slice]
    exact min_le_left _ _

theorem Shows.length_eq {user : Row UserColumns} {item : UserSummary}
    (h : Shows db user item) :
    max 1 (db.rolesOf user.id).length = max 1 item.roles.length := by
  obtain ⟨roles, rfl, hperm⟩ := h
  have hlength := hperm.length_eq
  rw [List.length_map] at hlength
  rw [← hlength, List.length_map]

theorem Shows.known {user : Row UserColumns} {item : UserSummary}
    (h : Shows db user item) :
    ∀ roleId ∈ db.rolesOf user.id, UserRoleEnum.Known roleId := by
  intro roleId hrole
  obtain ⟨roles, _, hperm⟩ := h
  obtain ⟨kind, _, hkind⟩ := List.mem_map.mp (hperm.symm.subset hrole)
  exact UserRoleEnum.known_iff.mpr ⟨kind, hkind⟩

/-- The users of the pages before the last one stand once each. -/
theorem fits_of_listed {items : UInt32 → List UserSummary}
    (h : AllListed X keyword limit? (fun _ => db.plain) items) :
    FitsPages X db keyword limit? := by
  have hnumber : ∀ i < userPages X db keyword limit?, (UInt32.ofNat (i + 1)).toNat = i + 1 :=
    fun i hi => toNat_pageNumber hi
  have hsum : ∀ i < userPages X db keyword limit?,
      ((items (UInt32.ofNat (i + 1))).map fun item => max 1 item.roles.length).sum ≤
        pageSize limit? := by
    intro i hi
    have hp := hnumber i hi
    obtain ⟨response, hok, hitems, _⟩ := h.answered (UInt32.ofNat (i + 1)) (by omega) (by omega)
    rw [← hitems]
    exact sum_items_le (by omega) hok
  have hweights : (matchingUsers X db keyword).map (fun user => max 1 (db.rolesOf user.id).length) =
      ((List.range (userPages X db keyword limit?)).flatMap
        fun i => items (UInt32.ofNat (i + 1))).map fun item => max 1 item.roles.length := by
    have hall := h.listed
    generalize matchingUsers X db keyword = users at hall ⊢
    generalize List.flatMap _ _ = shown at hall ⊢
    induction hall with
    | nil => rfl
    | cons hshows _ ih => rw [List.map_cons, List.map_cons, ih, hshows.length_eq]
  have hknown : ∀ user ∈ matchingUsers X db keyword, ∀ roleId ∈ db.rolesOf user.id,
      UserRoleEnum.Known roleId := by
    intro user huser
    obtain ⟨i, hi, rfl⟩ := List.mem_iff_getElem.mp huser
    exact (h.listed.get hi (h.listed.length_eq ▸ hi)).known
  match hpages : userPages X db keyword limit? with
  | 0 =>
    have hnone : matchingUsers X db keyword = [] := by
      have hall := h.listed
      rw [hpages] at hall
      exact List.forall₂_nil_right_iff.mp hall
    exact ⟨hknown, by simp [hnone], by simp [hnone]⟩
  | n + 1 =>
    -- The pages before the last one are full, so that their users have one row each.
    have hbefore : usersBefore X db keyword limit? = n * pageSize limit? := by
      rw [usersBefore, hpages, Nat.succ_sub_one]
    have hfull : ∀ i < n, (items (UInt32.ofNat (i + 1))).length = pageSize limit? := by
      intro i hi
      have hp := hnumber i (by omega)
      exact h.full (UInt32.ofNat (i + 1)) (by omega) (by omega)
    have hfront := length_flatMap_range hfull
    rw [hpages, List.range_succ, List.flatMap_append, List.map_append] at hweights
    have hlength : (((List.range n).flatMap fun i => items (UInt32.ofNat (i + 1))).map
        fun item => max 1 item.roles.length).length = n * pageSize limit? := by
      rw [List.length_map, hfront]
    refine ⟨hknown, ?_, ?_⟩
    · intro user huser
      have htake := congrArg (List.take (n * pageSize limit?)) hweights
      rw [List.take_left' hlength, ← List.map_take] at htake
      have hone : max 1 (db.rolesOf user.id).length ∈
          ((List.range n).flatMap fun i => items (UInt32.ofNat (i + 1))).map
            fun item => max 1 item.roles.length := by
        rw [← htake, ← hbefore]
        exact List.mem_map_of_mem huser
      obtain ⟨item, hitem, hweight⟩ := List.mem_map.mp hone
      obtain ⟨i, hi, hmem⟩ := List.mem_flatMap.mp hitem
      have hi' := List.mem_range.mp hi
      have hunit : max 1 item.roles.length = 1 := eq_one_of_sum_le (fun _ _ => le_max_left _ _)
        ((hsum i (by omega)).trans_eq (hfull i hi').symm) item hmem
      omega
    · have hdrop := congrArg (List.drop (n * pageSize limit?)) hweights
      rw [List.drop_left' hlength, ← List.map_drop] at hdrop
      rw [hbefore, hdrop]
      simpa using hsum n (by omega)

def kindOf (roleId : ℤ) : UserRoleEnum := (UserRoleEnum.tryFrom roleId).toOption.getD .User

theorem asId_kindOf {roleId : ℤ} (h : UserRoleEnum.Known roleId) : (kindOf roleId).asId = roleId := by
  obtain ⟨kind, rfl⟩ := UserRoleEnum.known_iff.mp h
  rw [kindOf, UserRoleEnum.tryFrom_asId]
  rfl

def shown (arrangement : Arrangement db) (user : Row UserColumns) : UserSummary :=
  ⟨user.id, user.cols.name, ((arrangement.roles user.id).map kindOf).map .ofEnum⟩

theorem map_asId_kindOf {user : Row UserColumns}
    (hknown : ∀ roleId ∈ db.rolesOf user.id, UserRoleEnum.Known roleId) :
    ((arrangement.roles user.id).map kindOf).map UserRoleEnum.asId = arrangement.roles user.id := by
  rw [List.map_map]
  conv_rhs => rw [← List.map_id (arrangement.roles user.id)]
  refine List.map_congr_left fun roleId hrole => ?_
  exact asId_kindOf (hknown roleId ((arrangement.perm user.id).subset hrole))

theorem shows_shown {user : Row UserColumns}
    (hknown : ∀ roleId ∈ db.rolesOf user.id, UserRoleEnum.Known roleId) :
    Shows db user (shown arrangement user) :=
  ⟨_, rfl, by rw [map_asId_kindOf hknown]; exact arrangement.perm user.id⟩

/-- A page whose rows are those of whole users shows these users. -/
theorem adminUsers_of_pageRows {users : List (Row UserColumns)} (hp : 0 < p.toNat)
    (hnodup : users.Nodup)
    (hknown : ∀ user ∈ users, ∀ roleId ∈ db.rolesOf user.id, UserRoleEnum.Known roleId)
    (hrows : pageRows X arrangement keyword limit? p =
      leftJoin (fun user => arrangement.roles user.id) users) :
    adminUsers X arrangement keyword ⟨limit?, some p⟩ =
      .ok ⟨users.map (shown arrangement), p, (PageQuery.mk limit? none).limit,
        (matchingUsers X db keyword).length, userPages X db keyword limit?⟩ := by
  have hitems : (consolidate (pageRows X arrangement keyword limit? p)).mapM userSummary =
      .ok (users.map (shown arrangement)) := by
    rw [hrows, consolidate_leftJoin hnodup, Fallible.mapM_eq_ok_iff, List.forall₂_map_left_iff,
      List.forall₂_map_right_iff]
    refine List.forall₂_same.mpr fun user huser => ?_
    exact userSummary_eq_ok_iff.mpr ⟨_, rfl, map_asId_kindOf (hknown user huser)⟩
  rw [adminUsers_eq hp, hitems]
  rfl

/-- Where the users fit, the rows of every page are those of whole users. -/
theorem pageRows_of_fits (h : FitsPages X db keyword limit?) (hp : 0 < p.toNat)
    (hlast : p.toNat ≤ userPages X db keyword limit?) :
    pageRows X arrangement keyword limit? p =
      leftJoin (fun user => arrangement.roles user.id)
        (slice (pageSize limit?) (p.toNat - 1) (matchingUsers X db keyword)) := by
  -- a user before the last page has a single row
  have hsingle : ∀ {j : ℕ}, j ≤ usersBefore X db keyword limit? →
      ∀ user ∈ (matchingUsers X db keyword).take j,
        weight (fun user => arrangement.roles user.id) user = 1 := by
    intro j hj user huser
    have hone := h.single user ((List.take_subset_take_left _ hj) huser)
    rw [weight_arrangement]
    omega
  have hoffset : (p.toNat - 1) * pageSize limit? ≤ usersBefore X db keyword limit? :=
    Nat.mul_le_mul_right _ (by omega)
  rw [pageRows, slice, slice, drop_leftJoin (hsingle hoffset)]
  by_cases heq : p.toNat = userPages X db keyword limit?
  · -- The last page has room for all of the rows that are left.
    have hrest : (p.toNat - 1) * pageSize limit? = usersBefore X db keyword limit? := by
      rw [usersBefore, heq]
    have hsum := h.last
    rw [← hrest] at hsum
    have hrows : (leftJoin (fun user => arrangement.roles user.id)
        ((matchingUsers X db keyword).drop ((p.toNat - 1) * pageSize limit?))).length ≤
          pageSize limit? := by
      rw [length_leftJoin]
      refine le_trans (le_of_eq ?_) hsum
      congr 1
      exact List.map_congr_left fun user _ => weight_arrangement user
    have husers : ((matchingUsers X db keyword).drop ((p.toNat - 1) * pageSize limit?)).length ≤
        pageSize limit? := length_le_sum_weight.trans hsum
    rw [List.take_of_length_le hrows, List.take_of_length_le husers]
  · refine take_leftJoin fun user huser => ?_
    have hmem : user ∈ (matchingUsers X db keyword).take (p.toNat * pageSize limit?) := by
      have hsplit : p.toNat * pageSize limit? =
          (p.toNat - 1) * pageSize limit? + pageSize limit? := by
        rw [← Nat.succ_mul]
        congr 1
        omega
      rw [hsplit, List.take_add]
      exact List.mem_append_right _ huser
    exact hsingle (Nat.mul_le_mul_right _ (by omega)) user hmem

theorem le_userPages_mul (h : FitsPages X db keyword limit?) :
    (matchingUsers X db keyword).length ≤ userPages X db keyword limit? * pageSize limit? := by
  match hpages : userPages X db keyword limit? with
  | 0 =>
    have hzero : (matchingUsers X db keyword).length = 0 := by
      by_contra hne
      rw [userPages, totalPages, if_neg hne] at hpages
      have hpos : 0 < sliceCount (PageQuery.mk limit? none).limit.toNat
          (matchingUsers X db keyword).length :=
        (sliceCount_pos_iff (PageQuery.limit_pos _)).mpr (Nat.pos_of_ne_zero hne)
      have hmax : 0 < U32_MAX := by decide
      omega
    omega
  | n + 1 =>
    have hbefore : usersBefore X db keyword limit? = n * pageSize limit? := by
      rw [usersBefore, hpages, Nat.succ_sub_one]
    have hlast := h.last
    have hrest : ((matchingUsers X db keyword).drop (n * pageSize limit?)).length ≤
        pageSize limit? := by
      rw [hbefore] at hlast
      exact length_le_sum_weight.trans hlast
    rw [List.length_drop] at hrest
    rw [Nat.succ_mul]
    omega

theorem listed_of_fits (h : FitsPages X db keyword limit?) (arrangements : UInt32 → Arrangement db) :
    AllListed X keyword limit? arrangements fun p =>
      (slice (pageSize limit?) (p.toNat - 1) (matchingUsers X db keyword)).map
        (shown (arrangements p)) := by
  have hslice : ∀ {i : ℕ}, (slice (pageSize limit?) i (matchingUsers X db keyword)).Sublist
      (matchingUsers X db keyword) := fun {i} =>
    (List.take_sublist _ _).trans (List.drop_sublist _ _)
  refine ⟨?_, ?_, ?_⟩
  · intro p hp hlast
    have hknown : ∀ user ∈ slice (pageSize limit?) (p.toNat - 1) (matchingUsers X db keyword),
        ∀ roleId ∈ db.rolesOf user.id, UserRoleEnum.Known roleId :=
      fun user huser => h.known user (hslice.subset huser)
    exact ⟨_, adminUsers_of_pageRows hp (nodup_matchingUsers.sublist hslice) hknown
      (pageRows_of_fits h hp hlast), rfl, rfl⟩
  · -- the pages are the slices of the users, one after the other
    have hall : matchingUsers X db keyword =
        (List.range (userPages X db keyword limit?)).flatMap
          fun i => slice (pageSize limit?) i (matchingUsers X db keyword) := by
      rw [flatMap_slice, List.take_of_length_le (le_userPages_mul h)]
    conv => arg 2; rw [hall]
    refine forall₂_flatMap fun i hi => ?_
    have hp := toNat_pageNumber (List.mem_range.mp hi)
    rw [hp, Nat.add_sub_cancel, List.forall₂_map_right_iff]
    exact List.forall₂_same.mpr fun user huser => shows_shown (h.known user (hslice.subset huser))
  · intro p hp hlt
    rw [List.length_map]
    refine length_slice_of_lt (PageQuery.limit_pos _) ?_
    have hle : userPages X db keyword limit? ≤
        sliceCount (pageSize limit?) (matchingUsers X db keyword).length := by
      unfold userPages totalPages
      split
      · exact Nat.zero_le _
      · exact min_le_left _ _
    omega

end Pages

/-- Whatever the order of the roles in each query, the pages show all users with all roles exactly
if the users before the last page have one role at most and the rows of the others fit on it. -/
theorem adminUsers_lists_all_iff (X : Auth.Crates) (db : UserTables) (keyword : Option String)
    (limit? : Option UInt32) :
    (∀ arrangements : UInt32 → Arrangement db, ∃ items,
      AllListed X keyword limit? arrangements items) ↔ FitsPages X db keyword limit? := by
  constructor
  · intro h
    obtain ⟨items, hlisted⟩ := h fun _ => db.plain
    exact fits_of_listed hlisted
  · intro h arrangements
    exact ⟨_, listed_of_fits h arrangements⟩

/-- A moderator, who is a user as well, on pages of one user. -/
def moderatorOnly : UserTables where
  user := {
    rows := [⟨1, ⟨"a", "a@b.c", true, "", none, 0, 0, none, none, .null⟩⟩]
    next := 2
    lt_next := fun r hr => by
      rw [List.mem_singleton.mp hr]
      decide
    nodup := List.nodup_singleton 1 }
  userRole := [⟨1, 2⟩, ⟨1, 3⟩]
  nodup := by decide

theorem adminUsers_cuts_roles :
    ¬ ∀ (X : Auth.Crates) (db : UserTables) (keyword : Option String) (limit? : Option UInt32)
      (arrangements : UInt32 → Arrangement db), ∃ items,
        AllListed X keyword limit? arrangements items := by
  intro h
  obtain ⟨items, hlisted⟩ := h .plain moderatorOnly none (some 1) fun _ => moderatorOnly.plain
  have husers : matchingUsers .plain moderatorOnly none = moderatorOnly.user.rows := by
    have hfilter : moderatorOnly.user.rows.filter (matchesKeyword .plain none) =
        moderatorOnly.user.rows := by decide
    rw [matchingUsers, hfilter]
    simp [sortById, moderatorOnly]
  have hlast := (fits_of_listed hlisted).last
  rw [usersBefore, userPages, husers] at hlast
  exact absurd hlast (by decide)

end Thcdb.Admin
