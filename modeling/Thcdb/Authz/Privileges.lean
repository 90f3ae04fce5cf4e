import Thcdb.Authz.Sync
import Thcdb.Fallible.Except
import Thcdb.Interleaving.History
import Thcdb.Users.LostChanges

namespace Thcdb.Authz
open Interleaving Relational Users

/-- Whether the join of `user_role`, `role`, `role_permission` and `permission` has a row. -/
def userHasPermission (t : Rows) (userRoles : List RoleVersion) (userId : ℤ) (name : String) :
    Bool :=
  (userRoles.filter fun ur => ur.userId = userId).any fun ur =>
    (t.role.filter fun roleId => roleId = ur.roleId).any fun roleId =>
      (t.rolePermission.filter fun m => m.roleId = roleId).any fun m =>
        (t.permission.filter fun p => p.id = m.permissionId).any fun p => p.cols.name = name

section Checks

variable {t : Rows} {userRoles : List RoleVersion} {userId : ℤ} {name : String}

/-- The role is there whenever a mapping refers to it. -/
theorem userHasPermission_iff (h : Consistent t) : userHasPermission t userRoles userId name ↔
    ∃ ur ∈ userRoles, ur.userId = userId ∧ ∃ m ∈ t.rolePermission, m.roleId = ur.roleId ∧
      ∃ p ∈ t.permission, p.id = m.permissionId ∧ p.cols.name = name := by
  simp only [userHasPermission, List.any_filter, List.any_eq_true, Bool.and_eq_true,
    decide_eq_true_eq]
  constructor
  · rintro ⟨ur, hur, huser, roleId, -, rfl, m, hm, hrole, p, hp, hid, hname⟩
    exact ⟨ur, hur, huser, m, hm, hrole, p, hp, hid, hname⟩
  · rintro ⟨ur, hur, huser, m, hm, hrole, p, hp, hid, hname⟩
    exact ⟨ur, hur, huser, ur.roleId, hrole ▸ h.roleFk m hm, rfl, m, hm, hrole, p, hp, hid, hname⟩

/-- With the tables in line, a check asks for the defaults of the user's roles. -/
theorem userHasPermission_of_synced {w : World} (h : Consistent t) (hsynced : Synced t)
    (name : String) (hknown : ∀ roleId ∈ w.roleIdsOf userId, UserRoleEnum.Known roleId) :
    userHasPermission t w.userRoles userId name ↔
      ∃ role : UserRoleEnum, role.asId ∈ w.roleIdsOf userId ∧ name ∈ defaultPermissions role := by
  rw [userHasPermission_iff h]
  constructor
  · rintro ⟨ur, hur, huser, m, hm, hrole, hp⟩
    have hmem : ur.roleId ∈ w.roleIdsOf userId := World.mem_roleIdsOf.mpr ⟨ur, hur, huser, rfl⟩
    obtain ⟨role, hid⟩ := UserRoleEnum.known_iff.mp (hknown _ hmem)
    obtain ⟨p, hp, hpid, hname⟩ := hp
    have hmapping : (⟨role.asId, p.id⟩ : RolePermission) = m := by
      rw [hid, ← hrole, hpid]
    refine ⟨role, hid ▸ hmem, (hsynced.roles role).subset ?_⟩
    exact mem_permissionsOf.mpr ⟨p, hp, hmapping ▸ hm, hname⟩
  · rintro ⟨role, hmem, hname⟩
    obtain ⟨ur, hur, huser, hid⟩ := World.mem_roleIdsOf.mp hmem
    obtain ⟨p, hp, hm, hname⟩ := mem_permissionsOf.mp ((hsynced.roles role).symm.subset hname)
    exact ⟨ur, hur, huser, _, hm, hid.symm, p, hp, rfl, hname⟩

end Checks

/-- A request asked for the role to be given to the user. -/
def Granted (as : List (Act Input Empty)) (userId roleId : ℤ) : Prop :=
  ∃ i roles, Act.call i (.setUserRoles userId roles) ∈ as ∧ roleId ∈ EditableUserRole.roleIds roles

/-- Roles that the user may have: those of the beginning, without loss of any that cannot be edited,
and those that were asked for. -/
structure Fair (w : World) (as : List (Act Input Empty)) (userId : ℤ) (roleIds : Finset ℤ) :
    Prop where
  had : ∀ roleId ∈ roleIds, roleId ∈ w.roleIdsOf userId ∨ Granted as userId roleId
  kept : ∀ roleId ∈ w.roleIdsOf userId, roleId ∉ EditableUserRole.allRoleIds → roleId ∈ roleIds

def loaded : Call → Option User
  | .createImage _ user | .updateUser _ user | .deleteRoles _ user _ | .awaitRoles _ user _ _
  | .insertRoles _ user _ | .commitUpload _ user _ => some user
  | _ => none

def target : Call → Option (ℤ × Finset EditableUserRole)
  | .findTarget userId roles | .findOldRoles userId roles | .deleteEditable userId roles
  | .awaitEditable userId roles _ | .insertEditable userId roles _ | .findNewRoles userId roles _
  | .commitRoles userId roles _ _ => some (userId, roles)
  | _ => none

def roleIds (user : User) : Finset ℤ := (user.roles.map UserRole.id).toFinset

structure Holds (w : World) (as : List (Act Input Empty)) (c : Call) : Prop where
  loaded : ∀ user ∈ loaded c, Fair w as user.id (roleIds user)
  target : ∀ t ∈ target c, ∃ i, Act.call i (.setUserRoles t.1 t.2) ∈ as

section Steps

variable {w : World} {as bs : List (Act Input Empty)} {userId : ℤ} {S : Finset ℤ}

theorem Fair.append (h : Fair w as userId S) : Fair w (as ++ bs) userId S := by
  refine ⟨fun roleId hmem => (h.had roleId hmem).imp_right ?_, h.kept⟩
  rintro ⟨i, roles, hact, hid⟩
  exact ⟨i, roles, List.mem_append_left _ hact, hid⟩

theorem Holds.append {c : Call} (h : Holds w as c) : Holds w (as ++ bs) c := by
  refine ⟨fun user huser => (h.loaded user huser).append, fun t ht => ?_⟩
  obtain ⟨i, hact⟩ := h.target t ht
  exact ⟨i, List.mem_append_left _ hact⟩

theorem holds_of_none {c : Call} (hl : loaded c = none) (ht : target c = none) :
    Holds w as c := by
  constructor
  · simp [hl]
  · simp [ht]

/-- A step to a call with the same locals. -/
theorem Holds.of_eq {c c' : Call} (h : Holds w as c)
    (hl : ∀ user' ∈ Authz.loaded c', ∃ user ∈ Authz.loaded c, user'.id = user.id ∧
      user'.roles = user.roles)
    (ht : Authz.target c' = Authz.target c) : Holds w as c' := by
  constructor
  · intro user' huser'
    obtain ⟨user, huser, hid, hroles⟩ := hl user' huser'
    rw [hid, roleIds, hroles]
    exact h.loaded user huser
  · rw [ht]
    exact h.target

theorem id_of_tryFrom {roleId : ℤ} {role : UserRole} (h : UserRole.tryFrom roleId = .ok role) :
    role.id = roleId := by
  unfold UserRole.tryFrom at h
  cases hkind : UserRoleEnum.tryFrom roleId with
  | error e => simp [hkind, Except.map] at h
  | ok kind =>
    rw [hkind] at h
    cases h
    exact UserRoleEnum.asId_of_tryFrom hkind

/-- The roles are loaded as they stand. -/
theorem roleIds_of_rolesSeen {v : World} {roles : List UserRole}
    (h : v.rolesSeen .empty userId = .ok roles) :
    (roles.map UserRole.id).toFinset = v.roleIdsOf userId := by
  have hids : ∀ {rows : List RoleVersion} {roles : List UserRole},
      List.Forall₂ (fun r role => UserRole.tryFrom r.roleId = .ok role) rows roles →
      roles.map UserRole.id = rows.map RoleVersion.roleId := by
    intro rows roles hall
    induction hall with
    | nil => rfl
    | cons hrole _ ih =>
      rw [List.map_cons, List.map_cons, ih, id_of_tryFrom hrole]
  have hall := Fallible.mapM_eq_ok_iff.mp h
  rw [World.roleIdsOf, hids hall]
  simp [Tx.empty]

theorem holds_rollback {i : ℕ} {v v' : World} {e : Error} {c' : Call} {es : List Event}
    (h : rollback i v e = (v', c', es)) : Holds w as c' := by
  cases h
  exact holds_of_none rfl rfl

/-- A statement keeps the locals, or loads the roles as they are by then. -/
theorem statement_holds {i : ℕ} {v v' : World} {c c' : Call} {es : List Event}
    (hfair : ∀ userId, Fair w as userId (v.roleIdsOf userId)) (hc : Holds w as c)
    (h : statement i v c = some (v', c', es)) : Holds w as c' := by
  cases c with
  | idle => cases h
  | createImage => cases h
  | done => cases h
  | findUser field userId =>
    simp only [statement] at h
    split at h
    · exact holds_rollback (Option.some.inj h)
    · cases h
      exact holds_of_none rfl rfl
  | findRoles field user =>
    simp only [statement] at h
    split at h
    · exact holds_rollback (Option.some.inj h)
    · next roles hroles =>
      split_ifs at h
      · cases h
        refine ⟨?_, by simp [target]⟩
        rintro _ ⟨⟩
        rw [roleIds, roleIds_of_rolesSeen hroles]
        exact hfair user.id
      · exact holds_rollback (Option.some.inj h)
  | updateUser field user =>
    obtain ⟨x, hx, h⟩ := Option.map_eq_some_iff.mp h
    split_ifs at h
    · exact holds_rollback h
    · cases h
      exact ⟨hc.loaded, hc.target⟩
  | deleteRoles field user tx =>
    cases h
    exact ⟨hc.loaded, hc.target⟩
  | awaitRoles field user tx found =>
    obtain ⟨x, hx, h⟩ := Option.map_eq_some_iff.mp h
    cases h
    exact ⟨hc.loaded, hc.target⟩
  | insertRoles field user tx =>
    simp only [statement] at h
    split_ifs at h
    · exact holds_rollback (Option.some.inj h)
    · obtain ⟨⟨x, inserted⟩, hx, h⟩ := Option.map_eq_some_iff.mp h
      cases inserted with
      | none => exact holds_rollback h
      | some rows =>
        cases h
        exact ⟨hc.loaded, hc.target⟩
  | commitUpload field user tx =>
    cases h
    exact holds_of_none rfl rfl
  | findTarget userId roles =>
    simp only [statement] at h
    split at h
    · exact holds_rollback (Option.some.inj h)
    · cases h
      exact ⟨hc.loaded, hc.target⟩
  | findOldRoles userId roles =>
    simp only [statement] at h
    split at h
    · exact holds_rollback (Option.some.inj h)
    · cases h
      exact ⟨hc.loaded, hc.target⟩
  | deleteEditable userId roles =>
    cases h
    exact ⟨hc.loaded, hc.target⟩
  | awaitEditable userId roles found =>
    obtain ⟨x, hx, h⟩ := Option.map_eq_some_iff.mp h
    cases h
    exact ⟨hc.loaded, hc.target⟩
  | insertEditable userId roles tx =>
    simp only [statement] at h
    split_ifs at h
    · cases h
      exact ⟨hc.loaded, hc.target⟩
    · obtain ⟨⟨x, inserted⟩, hx, h⟩ := Option.map_eq_some_iff.mp h
      cases inserted with
      | none => exact holds_rollback h
      | some rows =>
        cases h
        exact ⟨hc.loaded, hc.target⟩
  | findNewRoles userId roles tx =>
    simp only [statement] at h
    split at h
    · exact holds_rollback (Option.some.inj h)
    · cases h
      exact ⟨hc.loaded, hc.target⟩
  | commitRoles userId roles tx newRoles =>
    cases h
    exact holds_of_none rfl rfl
  | findVerified userId passwordHash =>
    simp only [statement] at h
    split at h
    · exact holds_rollback (Option.some.inj h)
    · split_ifs at h
      · cases h
        exact holds_of_none rfl rfl
      · exact holds_rollback (Option.some.inj h)
  | setPassword userId passwordHash =>
    obtain ⟨x, hx, h⟩ := Option.map_eq_some_iff.mp h
    split at h
    · exact holds_rollback h
    · cases h
      exact holds_of_none rfl rfl

theorem roleIdsOf_of_sameRows {v v' : World} (h : v.SameRows v') :
    v'.roleIdsOf userId = v.roleIdsOf userId := by
  rw [World.roleIdsOf, World.versionsOf, h.2]
  rfl

/-- The commit of an upload puts the roles that were loaded in the place of those it deletes. -/
theorem Fair.upload {v : World} {user : User} {tx : Tx} (hv : Fair w as userId (v.roleIdsOf userId))
    (hwrites : tx.Writes user.id (user.roles.map UserRole.id))
    (hloaded : Fair w as user.id (roleIds user)) :
    Fair w as userId ((v.commit tx).roleIdsOf userId) := by
  by_cases hu : userId = user.id
  · subst hu
    constructor
    · intro roleId hmem
      rcases (World.mem_roleIdsOf_commit hwrites).mp hmem with ⟨r, hr, -, huser, hid⟩ | hmem
      · exact hv.had roleId (World.mem_roleIdsOf.mpr ⟨r, hr, huser, hid⟩)
      · exact hloaded.had roleId (List.mem_toFinset.mpr hmem)
    · intro roleId hmem hfixed
      apply (World.mem_roleIdsOf_commit hwrites).mpr
      exact .inr (List.mem_toFinset.mp (hloaded.kept roleId hmem hfixed))
  · rwa [World.roleIdsOf_commit_of_ne hwrites hu]

/-- Setting roles deletes none that cannot be edited. -/
theorem Fair.setRoles {v : World} {id : ℤ} {roles : Finset EditableUserRole} {tx : Tx}
    (hv : Fair w as userId (v.roleIdsOf userId))
    (hwrites : tx.Writes id (EditableUserRole.roleIds roles))
    (hdeleted : ∀ r ∈ tx.deleted, r.roleId ∈ EditableUserRole.allRoleIds)
    (hasked : ∃ i, Act.call i (.setUserRoles id roles) ∈ as) :
    Fair w as userId ((v.commit tx).roleIdsOf userId) := by
  by_cases hu : userId = id
  · subst hu
    constructor
    · intro roleId hmem
      rcases (World.mem_roleIdsOf_commit hwrites).mp hmem with ⟨r, hr, -, huser, hid⟩ | hmem
      · exact hv.had roleId (World.mem_roleIdsOf.mpr ⟨r, hr, huser, hid⟩)
      · obtain ⟨i, hact⟩ := hasked
        exact .inr ⟨i, roles, hact, hmem⟩
    · intro roleId hmem hfixed
      apply (World.mem_roleIdsOf_commit hwrites).mpr
      obtain ⟨r, hr, huser, hid⟩ := World.mem_roleIdsOf.mp (hv.kept roleId hmem hfixed)
      exact .inl ⟨r, hr, fun hd => hfixed (hid ▸ hdeleted r hd), huser, hid⟩
  · rwa [World.roleIdsOf_commit_of_ne hwrites hu]

theorem effect_fair {i : ℕ} {v v' : World} {c : Call} {es : List Event}
    (h : Effect i v c v' es) (hcons : c.Consistent) (hc : Holds w as c)
    (hv : Fair w as userId (v.roleIdsOf userId)) : Fair w as userId (v'.roleIdsOf userId) := by
  cases h with
  | none same => rwa [roleIdsOf_of_sameRows same]
  | upload => exact hv.upload hcons.2 (hc.loaded _ rfl)
  | roles => exact hv.setRoles hcons.2.1 hcons.2.2 (hc.target _ rfl)
  | password same found =>
    rw [← roleIdsOf_of_sameRows same] at hv
    exact hv

end Steps

/-- The roles of all users are fair, and so is what every call works with. -/
structure Inv (w : World) (as : List (Act Input Empty)) (c : Config) : Prop where
  consistent : ∀ i, (c.calls i).Consistent
  holds : ∀ i, Holds w as (c.calls i)
  fair : ∀ userId, Fair w as userId (c.shared.roleIdsOf userId)

section Runs

variable {w : World} {as : List (Act Input Empty)} {c d : Config} {a : Act Input Empty}

theorem inv_initial (w : World) : Inv w [] (initial w) where
  consistent _ := trivial
  holds _ := holds_of_none rfl rfl
  fair _ := ⟨fun _ h => .inl h, fun _ h _ => h⟩

theorem Inv.next (h : Inv w as c) (hn : system.next c a = some d) : Inv w (as ++ [a]) d := by
  cases a with
  | env b => exact b.elim
  | call i x =>
    obtain ⟨v, c', es, he, rfl⟩ := System.next_call_eq_some.mp hn
    suffices hstep : c'.Consistent ∧ Holds w (as ++ [.call i x]) c' ∧
        ∀ userId, Fair w (as ++ [.call i x]) userId (v.roleIdsOf userId) by
      refine ⟨consistent_update h.consistent i hstep.1, ?_, hstep.2.2⟩
      intro j
      by_cases hj : j = i
      · subst hj
        simpa using hstep.2.1
      · simpa [Function.update_of_ne hj] using (h.holds j).append
    have hfair : ∀ userId, Fair w (as ++ [.call i x]) userId (c.shared.roleIdsOf userId) :=
      fun userId => (h.fair userId).append
    have hold : Holds w (as ++ [.call i x]) (c.calls i) := (h.holds i).append
    have released : ∀ userId, (c.shared.release i).roleIdsOf userId = c.shared.roleIdsOf userId :=
      fun _ => roleIdsOf_of_sameRows (c.shared.sameRows_release i)
    cases x with
    | ok =>
      obtain ⟨hc', heffect⟩ := effect_of_statement he (h.consistent i)
      exact ⟨hc', statement_holds hfair hold he,
        fun userId => effect_fair heffect (h.consistent i) hold (hfair userId)⟩
    | fail =>
      cases rollback_of_fails he
      exact ⟨trivial, holds_of_none rfl rfl, hfair⟩
    | image imageId =>
      simp only [system] at he
      split at he
      · next field user hcall =>
        split_ifs at he
        · cases he
          exact ⟨trivial, holds_of_none rfl rfl, hfair⟩
        · cases he
          rw [hcall] at hold
          refine ⟨trivial, ⟨?_, by simp [target]⟩, hfair⟩
          rintro _ ⟨⟩
          exact hold.loaded user rfl
      · cases he
    | setUserRoles userId roles =>
      simp only [system] at he
      split at he <;> cases he
      refine ⟨trivial, ⟨by simp [loaded], ?_⟩, hfair⟩
      rintro _ ⟨⟩
      exact ⟨i, by simp⟩
    | upload | resetPassword =>
      simp only [system] at he
      split at he <;> cases he
      exact ⟨trivial, holds_of_none rfl rfl, hfair⟩

theorem inv_run (h : system.run (initial w) as = some c) : Inv w as c :=
  System.run_history (I := Inv w) (fun _ _ _ _ hx hn => hx.next hn) (inv_initial w) h

end Runs

theorem defaultPermissions_of_notModerator {name : String}
    (hname : name ∉ defaultPermissions .Moderator) {role : UserRoleEnum}
    (h : name ∈ defaultPermissions role) : role.asId ∉ EditableUserRole.allRoleIds := by
  cases role with
  | Admin => decide
  | Moderator => exact absurd h hname
  | User => decide

/-- Moderator is the only role that can be asked for. -/
theorem eq_moderator_of_mem_roleIds {roles : Finset EditableUserRole} {role : UserRoleEnum}
    (h : role.asId ∈ EditableUserRole.roleIds roles) : role = .Moderator ∧ .Moderator ∈ roles := by
  obtain ⟨editable, hmem, hid⟩ := List.mem_map.mp h
  have hroles : editable ∈ roles := of_decide_eq_true (List.mem_filter.mp hmem).2
  cases editable
  cases role with
  | Moderator => exact ⟨rfl, hroles⟩
  | _ => exact absurd hid (by decide)

/-- After a start that brought the permissions in line, and whatever requests interleave, a check
asks exactly for the default permissions of the roles that the user has by then. Nobody passes a
check that was failed at the beginning but by the permissions of a moderator, and by these only after
a request to make this user one; and the permissions that moderators do not have are had by those
who had them. -/
theorem privileges (fails : ℕ → Bool) (nextId : ℕ → ℤ) (tables : {t : Rows // Consistent t})
    (hsync : (syncPermissions fails nextId tables).1 = .ok ()) (w : World)
    (hknown : ∀ userId, ∀ roleId ∈ w.roleIdsOf userId, UserRoleEnum.Known roleId)
    (as : List (Act Input Empty)) (d : Config) (h : system.run (initial w) as = some d)
    (userId : ℤ) (name : String) :
    (userHasPermission (syncPermissions fails nextId tables).2 d.shared.userRoles userId name ↔
      ∃ role : UserRoleEnum, role.asId ∈ d.shared.roleIdsOf userId ∧
        name ∈ defaultPermissions role) ∧
    (userHasPermission (syncPermissions fails nextId tables).2 d.shared.userRoles userId name →
      userHasPermission (syncPermissions fails nextId tables).2 w.userRoles userId name ∨
        name ∈ defaultPermissions .Moderator ∧
          ∃ i roles, Act.call i (.setUserRoles userId roles) ∈ as ∧ .Moderator ∈ roles) ∧
    (name ∉ defaultPermissions .Moderator →
      (userHasPermission (syncPermissions fails nextId tables).2 d.shared.userRoles userId name ↔
        userHasPermission (syncPermissions fails nextId tables).2 w.userRoles userId name)) := by
  have hsynced := (syncPermissions_eq_ok hsync).2
  have hconsistent := (syncPermissions fails nextId tables).2.property
  have hfair := (inv_run h).fair userId
  have hlater : ∀ roleId ∈ d.shared.roleIdsOf userId, UserRoleEnum.Known roleId := by
    intro roleId hmem
    rcases hfair.had roleId hmem with hw | ⟨i, roles, -, hid⟩
    · exact hknown userId roleId hw
    · obtain ⟨editable, -, rfl⟩ := List.mem_map.mp hid
      exact UserRoleEnum.known_iff.mpr ⟨editable.toEnum, rfl⟩
  have hnow := userHasPermission_of_synced hconsistent hsynced name hlater
  have hbefore := userHasPermission_of_synced hconsistent hsynced name (hknown userId)
  refine ⟨hnow, ?_, ?_⟩
  · rw [hnow, hbefore]
    rintro ⟨role, hmem, hname⟩
    rcases hfair.had _ hmem with hw | ⟨i, roles, hact, hid⟩
    · exact .inl ⟨role, hw, hname⟩
    · obtain ⟨rfl, hmod⟩ := eq_moderator_of_mem_roleIds hid
      exact .inr ⟨hname, i, roles, hact, hmod⟩
  · intro hmod
    rw [hnow, hbefore]
    constructor
    · rintro ⟨role, hmem, hname⟩
      rcases hfair.had _ hmem with hw | ⟨i, roles, -, hid⟩
      · exact ⟨role, hw, hname⟩
      · obtain ⟨rfl, -⟩ := eq_moderator_of_mem_roleIds hid
        exact absurd hname hmod
    · rintro ⟨role, hmem, hname⟩
      exact ⟨role, hfair.kept _ hmem (defaultPermissions_of_notModerator hmod hname), hname⟩

theorem kogasa_known (userId roleId : ℤ) (h : roleId ∈ kogasa.roleIdsOf userId) :
    UserRoleEnum.Known roleId := by
  have hall : ∀ r ∈ kogasa.userRoles, UserRoleEnum.Known r.roleId := by decide
  obtain ⟨r, hr, -, rfl⟩ := World.mem_roleIdsOf.mp h
  exact hall r hr

theorem staleRows_sync : (syncPermissions (fun _ => false) (· + 10) staleRows).1 = .ok () := by
  decide +kernel

/-- The roles of a moderator are taken away while an image is being uploaded. -/
theorem privileges_kogasa :
    let t := (syncPermissions (fun _ => false) (· + 10) staleRows).2
    let d := system.after (initial kogasa) uploadBetween
    (userHasPermission t d.shared.userRoles 1 adminWrite ↔ ∃ role : UserRoleEnum,
      role.asId ∈ d.shared.roleIdsOf 1 ∧ adminWrite ∈ defaultPermissions role) ∧
    (userHasPermission t d.shared.userRoles 1 adminWrite →
      userHasPermission t kogasa.userRoles 1 adminWrite ∨
        adminWrite ∈ defaultPermissions .Moderator ∧
          ∃ i roles, Act.call i (.setUserRoles 1 roles) ∈ uploadBetween ∧ .Moderator ∈ roles) ∧
    (adminWrite ∉ defaultPermissions .Moderator →
      (userHasPermission t d.shared.userRoles 1 adminWrite ↔
        userHasPermission t kogasa.userRoles 1 adminWrite)) :=
  privileges (fun _ => false) (· + 10) staleRows staleRows_sync kogasa kogasa_known uploadBetween
    _ (System.run_after (by decide)) 1 adminWrite

end Thcdb.Authz
