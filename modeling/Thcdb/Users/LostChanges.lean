import Mathlib.Data.Finset.Basic
import Thcdb.Interleaving.Replay
import Thcdb.Interleaving.Trace
import Thcdb.Users.ImageUpload

namespace Thcdb.Users
open Interleaving

structure Account where
  columns : UserColumns
  roles : Finset ℤ
  deriving DecidableEq

namespace World

def roleIdsOf (w : World) (userId : ℤ) : Finset ℤ :=
  ((w.versionsOf userId).map RoleVersion.roleId).toFinset

def account (w : World) (userId : ℤ) : Option Account :=
  (w.users userId).map fun columns => ⟨columns, w.roleIdsOf userId⟩

def SameRows (w w' : World) : Prop := w'.users = w.users ∧ w'.userRoles = w.userRoles

theorem SameRows.refl (w : World) : w.SameRows w := ⟨rfl, rfl⟩

theorem SameRows.trans {w w' w'' : World} (h : w.SameRows w') (h' : w'.SameRows w'') :
    w.SameRows w'' := ⟨h'.1.trans h.1, h'.2.trans h.2⟩

theorem SameRows.account_eq {w w' : World} (h : w.SameRows w') (userId : ℤ) :
    w'.account userId = w.account userId := by
  simp only [account, roleIdsOf, versionsOf, h.1, h.2]

theorem sameRows_release (w : World) (i : ℕ) : w.SameRows (w.release i) := ⟨rfl, rfl⟩

variable {w w' : World} {i : ℕ}

theorem sameRows_of_acquire {k : Lock} (h : w.acquire i k = some w') : w.SameRows w' := by
  unfold acquire at h
  split_ifs at h
  cases h
  exact ⟨rfl, rfl⟩

theorem sameRows_of_acquireAll {ks : List Lock} (h : w.acquireAll i ks = some w') :
    w.SameRows w' := by
  induction ks generalizing w with
  | nil =>
    cases h
    exact SameRows.refl _
  | cons k ks ih =>
    obtain ⟨v, hv, hks⟩ := Option.bind_eq_some_iff.mp (by simpa [acquireAll] using h)
    exact (sameRows_of_acquire hv).trans (ih hks)

theorem deleteRows_spec {found deleted : List RoleVersion}
    (h : w.deleteRows i found = some (w', deleted)) :
    w.SameRows w' ∧ ∀ r ∈ deleted, r ∈ found := by
  obtain ⟨v, hv, heq⟩ := Option.map_eq_some_iff.mp h
  cases heq
  exact ⟨sameRows_of_acquireAll hv, fun r hr => List.mem_of_mem_filter hr⟩

theorem insertRows_spec {tx : Tx} {userId : ℤ} {roleIds : List ℤ}
    {inserted : Option (List RoleVersion)}
    (h : w.insertRows i tx userId roleIds = some (w', inserted)) :
    w.SameRows w' ∧ ∀ rows, inserted = some rows →
      rows.map RoleVersion.roleId = roleIds ∧ ∀ r ∈ rows, r.userId = userId := by
  obtain ⟨v, hv, heq⟩ := Option.map_eq_some_iff.mp h
  split_ifs at heq
  · cases heq
    refine ⟨(sameRows_of_acquireAll hv).trans ⟨rfl, rfl⟩, ?_⟩
    intro rows hrows
    cases hrows
    constructor
    · simp [List.mapIdx_eq_zipIdx_map, Function.comp_def]
    · intro r hr
      obtain ⟨k, hk, rfl⟩ := List.mem_mapIdx.mp hr
      rfl
  · cases heq
    exact ⟨sameRows_of_acquireAll hv, fun rows hrows => by cases hrows⟩

end World

/-- A transaction that touches the roles of one user only, and inserts those of the list. -/
structure Tx.Writes (tx : Tx) (userId : ℤ) (roleIds : List ℤ) : Prop where
  deleted : ∀ r ∈ tx.deleted, r.userId = userId
  inserted : ∀ r ∈ tx.inserted, r.userId = userId
  roleIds : tx.inserted.map RoleVersion.roleId = roleIds

def Call.Consistent : Call → Prop
  | .deleteRoles _ user tx => tx.user = some (user.id, user.columns) ∧ tx.inserted = []
  | .awaitRoles _ user tx found =>
    tx.user = some (user.id, user.columns) ∧ tx.inserted = [] ∧ ∀ r ∈ found, r.userId = user.id
  | .insertRoles _ user tx =>
    tx.user = some (user.id, user.columns) ∧ tx.Writes user.id []
  | .commitUpload _ user tx =>
    tx.user = some (user.id, user.columns) ∧ tx.Writes user.id (user.roles.map UserRole.id)
  | .awaitEditable userId _ found =>
    ∀ r ∈ found, r.userId = userId ∧ r.roleId ∈ EditableUserRole.allRoleIds
  | .insertEditable userId _ tx =>
    tx.user = none ∧ tx.Writes userId [] ∧ ∀ r ∈ tx.deleted, r.roleId ∈ EditableUserRole.allRoleIds
  | .findNewRoles userId roles tx | .commitRoles userId roles tx _ =>
    tx.user = none ∧ tx.Writes userId (EditableUserRole.roleIds roles) ∧
      ∀ r ∈ tx.deleted, r.roleId ∈ EditableUserRole.allRoleIds
  | _ => True

/-- What a statement does to the committed rows: nothing, unless it ends a transaction. -/
inductive Effect (i : ℕ) (w : World) : Call → World → List Event → Prop
  | none {c w'} (same : w.SameRows w') : Effect i w c w' []
  | upload {field user tx} : Effect i w (.commitUpload field user tx) ((w.commit tx).release i)
      [.uploaded user.id field (field.get user.columns)]
  | roles {userId roles tx newRoles} :
      Effect i w (.commitRoles userId roles tx newRoles) ((w.commit tx).release i)
        [.rolesSet userId roles]
  | password {userId passwordHash columns v} (same : w.SameRows v)
      (found : v.users userId = some columns) :
      Effect i w (.setPassword userId passwordHash)
        (({ v with
          users := Function.update v.users userId
            (some { columns with password := passwordHash }) }).release i)
        [.passwordSet userId passwordHash]

section
variable {i : ℕ} {w w' : World} {c c' : Call} {es : List Event}

theorem effect_rollback {v : World} {e : Error} (same : w.SameRows v)
    (h : rollback i v e = (w', c', es)) : c'.Consistent ∧ Effect i w c w' es := by
  cases h
  exact ⟨trivial, .none (same.trans (v.sameRows_release i))⟩

theorem effect_of_statement (h : statement i w c = some (w', c', es)) (hc : c.Consistent) :
    c'.Consistent ∧ Effect i w c w' es := by
  have same := World.SameRows.refl w
  cases c with
  | idle => cases h
  | createImage => cases h
  | done => cases h
  | findUser field userId =>
    simp only [statement] at h
    split at h
    · exact effect_rollback same (Option.some.inj h)
    · cases h
      exact ⟨trivial, .none same⟩
  | findRoles field user =>
    simp only [statement] at h
    split at h
    · exact effect_rollback same (Option.some.inj h)
    · split_ifs at h
      · cases h
        exact ⟨trivial, .none same⟩
      · exact effect_rollback same (Option.some.inj h)
  -- the lock is all that the update does to the committed rows
  | updateUser field user =>
    obtain ⟨v, hv, h⟩ := Option.map_eq_some_iff.mp h
    have same := World.sameRows_of_acquire hv
    split_ifs at h
    · exact effect_rollback same h
    · cases h
      exact ⟨⟨rfl, rfl⟩, .none same⟩
  | deleteRoles field user tx =>
    cases h
    refine ⟨⟨hc.1, hc.2, ?_⟩, .none same⟩
    intro r hr
    exact of_decide_eq_true (List.mem_filter.mp hr).2
  -- what is deleted was found before
  | awaitRoles field user tx found =>
    obtain ⟨⟨v, deleted⟩, hv, h⟩ := Option.map_eq_some_iff.mp h
    obtain ⟨same, hdeleted⟩ := World.deleteRows_spec hv
    obtain ⟨huser, hinserted, hfound⟩ := hc
    cases h
    refine ⟨⟨huser, ?_, ?_, ?_⟩, .none same⟩
    · exact fun r hr => hfound r (hdeleted r hr)
    · simp [hinserted]
    · simp [hinserted]
  | insertRoles field user tx =>
    simp only [statement] at h
    split_ifs at h
    · exact effect_rollback same (Option.some.inj h)
    · obtain ⟨⟨v, inserted⟩, hv, h⟩ := Option.map_eq_some_iff.mp h
      obtain ⟨same, hinserted⟩ := World.insertRows_spec hv
      cases inserted with
      | none => exact effect_rollback same h
      | some rows =>
        cases h
        obtain ⟨hids, husers⟩ := hinserted rows rfl
        exact ⟨⟨hc.1, hc.2.deleted, husers, hids⟩, .none same⟩
  | commitUpload field user tx =>
    cases h
    exact ⟨trivial, .upload⟩
  | findTarget userId roles =>
    simp only [statement] at h
    split at h
    · exact effect_rollback same (Option.some.inj h)
    · cases h
      exact ⟨trivial, .none same⟩
  | findOldRoles userId roles =>
    simp only [statement] at h
    split at h
    · exact effect_rollback same (Option.some.inj h)
    · cases h
      exact ⟨trivial, .none same⟩
  | deleteEditable userId roles =>
    cases h
    refine ⟨?_, .none same⟩
    intro r hr
    obtain ⟨hr, hid⟩ := List.mem_filter.mp hr
    exact ⟨of_decide_eq_true (List.mem_filter.mp hr).2, of_decide_eq_true hid⟩
  | awaitEditable userId roles found =>
    obtain ⟨⟨v, deleted⟩, hv, h⟩ := Option.map_eq_some_iff.mp h
    obtain ⟨same, hdeleted⟩ := World.deleteRows_spec hv
    cases h
    refine ⟨⟨rfl, ⟨?_, by simp, rfl⟩, ?_⟩, .none same⟩
    · exact fun r hr => (hc r (hdeleted r hr)).1
    · exact fun r hr => (hc r (hdeleted r hr)).2
  | insertEditable userId roles tx =>
    obtain ⟨huser, hwrites, heditable⟩ := hc
    simp only [statement] at h
    split_ifs at h with hempty
    · cases h
      rw [List.isEmpty_iff] at hempty
      exact ⟨⟨huser, hempty ▸ hwrites, heditable⟩, .none same⟩
    · obtain ⟨⟨v, inserted⟩, hv, h⟩ := Option.map_eq_some_iff.mp h
      obtain ⟨same, hinserted⟩ := World.insertRows_spec hv
      cases inserted with
      | none => exact effect_rollback same h
      | some rows =>
        cases h
        obtain ⟨hids, husers⟩ := hinserted rows rfl
        exact ⟨⟨huser, ⟨hwrites.deleted, husers, hids⟩, heditable⟩, .none same⟩
  | findNewRoles userId roles tx =>
    simp only [statement] at h
    split at h
    · exact effect_rollback same (Option.some.inj h)
    · cases h
      exact ⟨hc, .none same⟩
  | commitRoles userId roles tx newRoles =>
    cases h
    exact ⟨trivial, .roles⟩
  | findVerified userId passwordHash =>
    simp only [statement] at h
    split at h
    · exact effect_rollback same (Option.some.inj h)
    · split_ifs at h
      · cases h
        exact ⟨trivial, .none same⟩
      · exact effect_rollback same (Option.some.inj h)
  | setPassword userId passwordHash =>
    obtain ⟨v, hv, h⟩ := Option.map_eq_some_iff.mp h
    have same := World.sameRows_of_acquire hv
    cases hfound : v.users userId with
    | none =>
      rw [hfound] at h
      exact effect_rollback same h
    | some columns =>
      rw [hfound] at h
      cases h
      exact ⟨trivial, .password same hfound⟩

end

namespace World

variable {w : World} {tx : Tx} {userId roleId : ℤ} {roleIds : List ℤ}

theorem mem_roleIdsOf :
    roleId ∈ w.roleIdsOf userId ↔ ∃ r ∈ w.userRoles, r.userId = userId ∧ r.roleId = roleId := by
  simp [roleIdsOf, versionsOf, and_assoc]

/-- A transaction leaves the roles it does not delete and adds those that it inserts. -/
theorem mem_roleIdsOf_commit (h : tx.Writes userId roleIds) :
    roleId ∈ (w.commit tx).roleIdsOf userId ↔
      (∃ r ∈ w.userRoles, r ∉ tx.deleted ∧ r.userId = userId ∧ r.roleId = roleId) ∨
        roleId ∈ roleIds := by
  rw [mem_roleIdsOf]
  constructor
  · rintro ⟨r, hr, huser, hid⟩
    rcases List.mem_append.mp hr with hr | hr
    · obtain ⟨hr, hkept⟩ := List.mem_filter.mp hr
      exact .inl ⟨r, hr, of_decide_eq_true hkept, huser, hid⟩
    · right
      rw [← h.roleIds, ← hid]
      exact List.mem_map_of_mem hr
  · rintro (⟨r, hr, hkept, huser, hid⟩ | hid)
    · exact ⟨r, List.mem_append_left _ (List.mem_filter.mpr ⟨hr, decide_eq_true hkept⟩), huser, hid⟩
    · rw [← h.roleIds] at hid
      obtain ⟨r, hr, hid⟩ := List.mem_map.mp hid
      exact ⟨r, List.mem_append_right _ hr, h.inserted r hr, hid⟩

/-- The roles of other users stay. -/
theorem roleIdsOf_commit_of_ne {other : ℤ} (h : tx.Writes userId roleIds) (hne : other ≠ userId) :
    (w.commit tx).roleIdsOf other = w.roleIdsOf other := by
  ext roleId
  rw [mem_roleIdsOf, mem_roleIdsOf]
  constructor
  · rintro ⟨r, hr, huser, hid⟩
    rcases List.mem_append.mp hr with hr | hr
    · exact ⟨r, List.mem_of_mem_filter hr, huser, hid⟩
    · exact absurd (huser.symm.trans (h.inserted r hr)) hne
  · rintro ⟨r, hr, huser, hid⟩
    have hkept : r ∉ tx.deleted := fun hd => hne (huser.symm.trans (h.deleted r hd))
    exact ⟨r, List.mem_append_left _ (List.mem_filter.mpr ⟨hr, decide_eq_true hkept⟩), huser, hid⟩

end World

/-- What a committed change is meant to be: an upload changes one column and no role, and the roles
that cannot be edited stay when roles are set. -/
def Event.apply (userId : ℤ) : Event → Account → Account
  | .uploaded id field imageId, x =>
    if id = userId then { x with columns := field.set x.columns imageId } else x
  | .rolesSet id roles, x =>
    if id = userId then
      { x with
        roles := x.roles.filter (· ∉ EditableUserRole.allRoleIds) ∪
          (EditableUserRole.roleIds roles).toFinset }
    else x
  | .passwordSet id passwordHash, x =>
    if id = userId then { x with columns := { x.columns with password := passwordHash } } else x

/-- Besides the image, the row is still the one that was loaded with the request, the roles that
were loaded are still there, and the transaction deletes no others. -/
structure UploadKeeps (w : World) (field : ImageField) (user : User) (tx : Tx) : Prop where
  columns : (w.users user.id).map (field.set · (field.get user.columns)) = some user.columns
  present : ∀ roleId ∈ user.roles.map UserRole.id, roleId ∈ w.roleIdsOf user.id
  loaded : ∀ r ∈ tx.deleted, r.roleId ∈ user.roles.map UserRole.id

/-- The roles that can be edited, as they are now, were all deleted or are set again. -/
def RolesKeep (w : World) (userId : ℤ) (roles : Finset EditableUserRole) (tx : Tx) : Prop :=
  ∀ r ∈ w.versionsOf userId, r.roleId ∈ EditableUserRole.allRoleIds →
    r ∈ tx.deleted ∨ r.roleId ∈ EditableUserRole.roleIds roles

instance (w : World) (field : ImageField) (user : User) (tx : Tx) :
    Decidable (UploadKeeps w field user tx) :=
  decidable_of_iff (_ ∧ _ ∧ _) ⟨fun h => ⟨h.1, h.2.1, h.2.2⟩, fun h => ⟨h.1, h.2, h.3⟩⟩

instance (w : World) (userId : ℤ) (roles : Finset EditableUserRole) (tx : Tx) :
    Decidable (RolesKeep w userId roles tx) :=
  inferInstanceAs (Decidable (∀ r ∈ w.versionsOf userId, _))

/-- Where it commits, the call finds what its transaction has worked from. -/
def Call.Keeps (w : World) : Call → Prop
  | .commitUpload field user tx => UploadKeeps w field user tx
  | .commitRoles userId roles tx _ => RolesKeep w userId roles tx
  | _ => True

instance (w : World) : DecidablePred (Call.Keeps w) := fun c => by
  cases c <;> unfold Call.Keeps <;> infer_instance

def Keeps (c : Config) : Act Input Empty → Prop
  | .call i .ok => (c.calls i).Keeps c.shared
  | _ => True

instance (c : Config) : DecidablePred (Keeps c)
  | .call i .ok => inferInstanceAs (Decidable ((c.calls i).Keeps c.shared))
  | .call _ (.upload ..) | .call _ (.setUserRoles ..) | .call _ (.resetPassword ..)
  | .call _ (.image _) | .call _ .fail => .isTrue trivial
  | .env b => b.elim

section
variable {w : World} {tx : Tx} {userId : ℤ}

theorem account_commitUpload {field : ImageField} {user : User}
    (huser : tx.user = some (user.id, user.columns))
    (hwrites : tx.Writes user.id (user.roles.map UserRole.id))
    (h : UploadKeeps w field user tx) :
    (w.commit tx).account userId = (w.account userId).map
      ((Event.uploaded user.id field (field.get user.columns)).apply userId) := by
  have husers : (w.commit tx).users = Function.update w.users user.id (some user.columns) := by
    simp [World.commit, huser]
  by_cases hid : userId = user.id
  · subst hid
    -- a role that is deleted is inserted again, and no other is inserted
    have hroles : (w.commit tx).roleIdsOf user.id = w.roleIdsOf user.id := by
      ext roleId
      rw [World.mem_roleIdsOf_commit hwrites]
      constructor
      · rintro (⟨r, hr, -, hr'⟩ | hroleId)
        · exact World.mem_roleIdsOf.mpr ⟨r, hr, hr'⟩
        · exact h.present roleId hroleId
      · intro hroleId
        obtain ⟨r, hr, huser, rfl⟩ := World.mem_roleIdsOf.mp hroleId
        by_cases hdeleted : r ∈ tx.deleted
        · exact .inr (h.loaded r hdeleted)
        · exact .inl ⟨r, hr, hdeleted, huser, rfl⟩
    obtain ⟨columns, hcolumns, hset⟩ := Option.map_eq_some_iff.mp h.columns
    simp [World.account, husers, hroles, hcolumns, Event.apply, hset]
  · have hother : ¬user.id = userId := fun heq => hid heq.symm
    simp [World.account, husers, World.roleIdsOf_commit_of_ne hwrites hid,
      Function.update_of_ne hid, Event.apply, hother, Function.comp_def]

theorem account_commitRoles {id : ℤ} {roles : Finset EditableUserRole}
    (huser : tx.user = none) (hwrites : tx.Writes id (EditableUserRole.roleIds roles))
    (heditable : ∀ r ∈ tx.deleted, r.roleId ∈ EditableUserRole.allRoleIds)
    (h : RolesKeep w id roles tx) :
    (w.commit tx).account userId =
      (w.account userId).map ((Event.rolesSet id roles).apply userId) := by
  have husers : (w.commit tx).users = w.users := by simp [World.commit, huser]
  by_cases hid : userId = id
  · subst hid
    -- of the roles that can be edited those of the request are left
    have hroles : (w.commit tx).roleIdsOf userId =
        (w.roleIdsOf userId).filter (· ∉ EditableUserRole.allRoleIds) ∪
          (EditableUserRole.roleIds roles).toFinset := by
      ext roleId
      rw [World.mem_roleIdsOf_commit hwrites, Finset.mem_union, Finset.mem_filter,
        World.mem_roleIdsOf, List.mem_toFinset]
      constructor
      · rintro (⟨r, hr, hkept, huser, rfl⟩ | hroleId)
        · by_cases hall : r.roleId ∈ EditableUserRole.allRoleIds
          · have hr' : r ∈ w.versionsOf userId := List.mem_filter.mpr ⟨hr, decide_eq_true huser⟩
            exact .inr ((h r hr' hall).resolve_left hkept)
          · exact .inl ⟨⟨r, hr, huser, rfl⟩, hall⟩
        · exact .inr hroleId
      · rintro (⟨⟨r, hr, huser, rfl⟩, hall⟩ | hroleId)
        · exact .inl ⟨r, hr, fun hd => hall (heditable r hd), huser, rfl⟩
        · exact .inr hroleId
    simp [World.account, husers, hroles, Event.apply, Function.comp_def]
  · have hother : ¬id = userId := fun heq => hid heq.symm
    simp [World.account, husers, World.roleIdsOf_commit_of_ne hwrites hid, Event.apply, hother,
      Function.comp_def]

theorem account_setPassword {id : ℤ} {passwordHash : String} {columns : UserColumns}
    (hfound : w.users id = some columns) :
    ({ w with
      users := Function.update w.users id
        (some { columns with password := passwordHash }) } : World).account userId =
      (w.account userId).map ((Event.passwordSet id passwordHash).apply userId) := by
  by_cases hid : userId = id
  · subst hid
    simp [World.account, hfound, Event.apply, World.roleIdsOf, World.versionsOf]
  · have hother : ¬id = userId := fun heq => hid heq.symm
    simp [World.account, Function.update_of_ne hid, Event.apply, hother, World.roleIdsOf,
      World.versionsOf, Function.comp_def]

end

theorem account_of_sameRows {w w' : World} (same : w.SameRows w') (userId : ℤ) :
    w'.account userId = (w.account userId).map (replay (Event.apply userId) []) := by
  rw [same.account_eq, show replay (Event.apply userId) [] = id from rfl, Option.map_id, id]

/-- A statement that meets the guard does to every user what it logs. -/
theorem Effect.account_eq {i : ℕ} {w w' : World} {c : Call} {es : List Event}
    (h : Effect i w c w' es) (hc : c.Consistent)
    (hkeeps : c.Keeps w) (userId : ℤ) :
    w'.account userId = (w.account userId).map (replay (Event.apply userId) es) := by
  cases h with
  | none same => exact account_of_sameRows same userId
  | upload =>
    rw [(World.sameRows_release _ i).account_eq]
    exact account_commitUpload hc.1 hc.2 hkeeps
  | roles =>
    rw [(World.sameRows_release _ i).account_eq]
    exact account_commitRoles hc.1 hc.2.1 hc.2.2 hkeeps
  | password same found =>
    rw [(World.sameRows_release _ i).account_eq, account_setPassword found, same.account_eq]
    rfl

theorem rollback_of_fails {i : ℕ} {w : World} {c : Call} {r : World × Call × List Event}
    (h : fails i w c = some r) : rollback i w .Infra = r := by
  cases c with
  | idle => cases h
  | done => cases h
  | _ => exact Option.some.inj h

theorem consistent_update {calls : ℕ → Call} (h : ∀ i, (calls i).Consistent) (i : ℕ) {c : Call}
    (hc : c.Consistent) (j : ℕ) : (Function.update calls i c j).Consistent := by
  by_cases hj : j = i
  · rw [hj, Function.update_self]
    exact hc
  · rw [Function.update_of_ne hj]
    exact h j

theorem account_next {c d : Config} {a : Act Input Empty} (hc : ∀ i, (c.calls i).Consistent)
    (hg : Keeps c a) (hn : system.next c a = some d) :
    (∀ i, (d.calls i).Consistent) ∧ ∃ es, d.log = c.log ++ es ∧ ∀ userId,
      d.shared.account userId = (c.shared.account userId).map (replay (Event.apply userId) es) := by
  cases a with
  | env b => exact b.elim
  | call i x =>
    obtain ⟨w', c', es, he, rfl⟩ := System.next_call_eq_some.mp hn
    suffices h : c'.Consistent ∧ ∀ userId, w'.account userId =
        (c.shared.account userId).map (replay (Event.apply userId) es) from
      ⟨consistent_update hc i h.1, es, rfl, h.2⟩
    have same := World.SameRows.refl c.shared
    have released := c.shared.sameRows_release i
    cases x with
    | ok =>
      obtain ⟨hc', heffect⟩ := effect_of_statement he (hc i)
      exact ⟨hc', heffect.account_eq (hc i) hg⟩
    | fail =>
      cases rollback_of_fails he
      exact ⟨trivial, account_of_sameRows released⟩
    | image imageId =>
      simp only [system] at he
      split at he
      · split_ifs at he
        · cases he
          exact ⟨trivial, account_of_sameRows released⟩
        · cases he
          exact ⟨trivial, account_of_sameRows same⟩
      · cases he
    | upload | setUserRoles | resetPassword =>
      simp only [system] at he
      split at he <;> cases he
      exact ⟨trivial, account_of_sameRows same⟩

def Event.password (userId : ℤ) : Event → Option String
  | .passwordSet id passwordHash => if id = userId then some passwordHash else none
  | _ => none

def Event.roleIds (userId : ℤ) : Event → Option (Finset ℤ)
  | .rolesSet id roles =>
    if id = userId then some (EditableUserRole.roleIds roles).toFinset else none
  | _ => none

namespace Account

def editable (x : Account) : Finset ℤ := x.roles.filter (· ∈ EditableUserRole.allRoleIds)

def fixed (x : Account) : Finset ℤ := x.roles.filter (· ∉ EditableUserRole.allRoleIds)

/-- The password is that of the last change in the log, the roles that can be edited are those that
were last set, and nothing else is changed but images by their uploads. -/
structure Kept (userId : ℤ) (log : List Event) (x y : Account) : Prop where
  password : y.columns.password =
    (lastWrite (Event.password userId) log).getD x.columns.password
  editable : y.editable = (lastWrite (Event.roleIds userId) log).getD x.editable
  fixed : y.fixed = x.fixed
  replayed : y = replay (Event.apply userId) log x

theorem roleIds_subset_all (roles : Finset EditableUserRole) {roleId : ℤ}
    (h : roleId ∈ EditableUserRole.roleIds roles) : roleId ∈ EditableUserRole.allRoleIds := by
  obtain ⟨role, hrole, rfl⟩ := List.mem_map.mp h
  exact List.mem_map_of_mem (List.mem_of_mem_filter hrole)

variable {userId : ℤ} {x : Account}

theorem password_apply (e : Event) :
    (e.apply userId x).columns.password = (e.password userId).getD x.columns.password := by
  cases e with
  | uploaded id field imageId =>
    simp only [Event.apply]
    split_ifs
    · cases field <;> rfl
    · rfl
  | rolesSet id roles =>
    simp only [Event.apply]
    split_ifs <;> rfl
  | passwordSet id passwordHash =>
    simp only [Event.apply, Event.password]
    split_ifs <;> rfl

theorem editable_apply (e : Event) :
    (e.apply userId x).editable = (e.roleIds userId).getD x.editable := by
  cases e with
  | rolesSet id roles =>
    simp only [Event.apply, Event.roleIds]
    split_ifs
    · -- the roles that are set can all be edited
      ext roleId
      simp only [editable, Option.getD_some, Finset.mem_filter, Finset.mem_union, List.mem_toFinset]
      have hsub : roleId ∈ EditableUserRole.roleIds roles → roleId ∈ EditableUserRole.allRoleIds :=
        roleIds_subset_all roles
      tauto
    · rfl
  | uploaded | passwordSet =>
    simp only [Event.apply]
    split_ifs <;> rfl

theorem fixed_apply (e : Event) : (e.apply userId x).fixed = x.fixed := by
  cases e with
  | rolesSet id roles =>
    simp only [Event.apply]
    split_ifs
    · ext roleId
      simp only [fixed, Finset.mem_filter, Finset.mem_union, List.mem_toFinset]
      have hsub : roleId ∈ EditableUserRole.roleIds roles → roleId ∈ EditableUserRole.allRoleIds :=
        roleIds_subset_all roles
      tauto
    · rfl
  | uploaded | passwordSet =>
    simp only [Event.apply]
    split_ifs <;> rfl

theorem kept_replay (log : List Event) : Kept userId log x (replay (Event.apply userId) log x) where
  password := part_replay (p := fun x : Account => x.columns.password)
    fun e _ => password_apply e
  editable := part_replay fun e _ => editable_apply e
  fixed := part_replay_of_forall fun e _ => fixed_apply e
  replayed := rfl

end Account

/-- Every user has what the committed changes say. -/
def ChangesKept (w : World) (c : Config) : Prop :=
  ∀ userId x, w.account userId = some x →
    ∃ y, c.shared.account userId = some y ∧ Account.Kept userId c.log x y

def Call.Finished : Call → Prop
  | .idle | .done _ => True
  | _ => False

instance : DecidablePred Call.Finished := fun c => by
  cases c <;> unfold Call.Finished <;> infer_instance

/-- Where every commit finds what its transaction has worked from, no change is lost. -/
theorem changesKept_of_meets (w : World) (as : List (Act Input Empty)) (c : Config)
    (hg : system.Meets Keeps (initial w) as) (hr : system.run (initial w) as = some c) :
    ChangesKept w c := by
  intro userId x hx
  have h : c.shared.account userId = (w.account userId).map (replay (Event.apply userId) c.log) := by
    apply System.run_replays (I := fun c => ∀ i, (c.calls i).Consistent)
      (v := fun w => w.account userId) ?_ ?_ rfl hg hr
    · intro c a d hc hkeeps hn
      obtain ⟨hd, es, hes, haccount⟩ := account_next hc hkeeps hn
      exact ⟨hd, es, hes, haccount userId⟩
    · intro i
      trivial
  refine ⟨replay (Event.apply userId) c.log x, ?_, Account.kept_replay c.log⟩
  rw [h, hx]
  rfl

def kogasa : World where
  users id := if id = 1 then
      some ⟨"kogasa", "kogasa@example.org", true, "$old", none, 0, 0, none, none, .null⟩
    else none
  userRoles := [⟨0, 1, 2⟩, ⟨1, 1, 3⟩]
  nextVersion := 2
  locks _ := none

/-- An upload runs while roles are being set and a password is being reset. -/
def uploadBetween : List (Act Input Empty) :=
  [.call 1 (.setUserRoles 1 ∅), .call 1 .ok, .call 1 .ok, .call 2 (.resetPassword 1 "$new"),
    .call 2 .ok, .call 0 (.upload .avatarId 1), .call 0 .ok, .call 0 .ok, .call 0 (.image 7),
    .call 0 .ok, .call 0 .ok, .call 0 .ok, .call 0 .ok, .call 0 .ok] ++
    List.replicate 5 (.call 1 .ok) ++ [.call 2 .ok]

theorem uploadBetween_guarded : system.Meets Keeps (initial kogasa) uploadBetween := by
  decide

theorem uploadBetween_log : ((system.run (initial kogasa) uploadBetween).map fun c => c.log) =
    some [.uploaded 1 .avatarId (some 7), .rolesSet 1 ∅, .passwordSet 1 "$new"] := by
  decide

theorem changesKept_kogasa : ∃ c, system.run (initial kogasa) uploadBetween = some c ∧
    c.log = [.uploaded 1 .avatarId (some 7), .rolesSet 1 ∅, .passwordSet 1 "$new"] ∧
    ChangesKept kogasa c := by
  obtain ⟨c, hc, hlog⟩ := Option.map_eq_some_iff.mp uploadBetween_log
  exact ⟨c, hc, hlog, changesKept_of_meets kogasa uploadBetween c uploadBetween_guarded hc⟩

/-- Roles are set and a password is reset while an image is being created. -/
def uploadAround : List (Act Input Empty) :=
  [.call 0 (.upload .avatarId 1), .call 0 .ok, .call 0 .ok, .call 1 (.setUserRoles 1 ∅)] ++
    List.replicate 7 (.call 1 .ok) ++
    [.call 2 (.resetPassword 1 "$new"), .call 2 .ok, .call 2 .ok, .call 0 (.image 7), .call 0 .ok,
      .call 0 .ok, .call 0 .ok, .call 0 .ok, .call 0 .ok]

theorem uploadAround_finished {c : Config}
    (hr : system.run (initial kogasa) uploadAround = some c) (i : ℕ) : (c.calls i).Finished := by
  have hwithin : ∀ a ∈ uploadAround, a.Within [0, 1, 2] := by decide
  by_cases hi : i ∈ [0, 1, 2]
  · have h : (system.run (initial kogasa) uploadAround).all
        fun c => ∀ i ∈ [0, 1, 2], (c.calls i).Finished := by decide
    rw [hr] at h
    exact of_decide_eq_true h i hi
  · rw [System.run_calls hwithin hi hr]
    trivial

/-- The roles and the password that were loaded with the upload are back. -/
theorem uploadAround_lost : (system.run (initial kogasa) uploadAround).map
    (fun c => (c.log, c.shared.account 1)) = some
      ([.rolesSet 1 ∅, .passwordSet 1 "$new", .uploaded 1 .avatarId (some 7)],
        some ⟨⟨"kogasa", "kogasa@example.org", true, "$old", some 7, 0, 0, none, none, .null⟩,
          {2, 3}⟩) := by
  decide

theorem changes_lost : ¬∀ w as c, system.run (initial w) as = some c →
    (∀ i, (c.calls i).Finished) → ChangesKept w c := by
  intro h
  obtain ⟨c, hc, heq⟩ := Option.map_eq_some_iff.mp uploadAround_lost
  obtain ⟨hlog, haccount⟩ := Prod.mk.inj heq
  have hbefore : ∃ x, kogasa.account 1 = some x ∧ x.columns.password = "$old" := ⟨_, rfl, rfl⟩
  obtain ⟨x, hx, -⟩ := hbefore
  obtain ⟨y, hy, hkept⟩ := h kogasa uploadAround c hc (uploadAround_finished hc) 1 x hx
  have hnew : y.columns.password = "$new" := by
    rw [hkept.password, hlog]
    rfl
  rw [haccount] at hy
  cases hy
  exact absurd hnew (by decide)

end Thcdb.Users
