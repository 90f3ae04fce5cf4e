import Thcdb.Authz.RolePermissions

namespace Thcdb.Authz
open Relational Users
open Fallible (bind_eq_ok)

variable {fails : ℕ → Bool} {nextId : ℕ → ℤ} {s s' : State} {t : Rows}

structure Synced (t : Rows) : Prop where
  defs : (t.permission.map Row.cols).Perm PermissionDef.all
  roles : ∀ role, (t.permissionsOf role).Perm (defaultPermissions role)

section FixedPoint

theorem checkExisting_of_expected {models : List (Row PermissionDef)} {existingNames : List String}
    {unknownIds : List ℤ} (h : ∀ m ∈ models, m.cols ∈ PermissionDef.all) :
    checkExisting fails models existingNames unknownIds s =
      .ok ((existingNames ++ models.map fun m => m.cols.name, unknownIds), s) := by
  induction models generalizing existingNames with
  | nil => rw [checkExisting, List.map_nil, List.append_nil]
  | cons m models ih =>
    have hfound : expectedByName m.cols.name = some m.cols :=
      expectedByName_eq_some.mpr ⟨h m List.mem_cons_self, rfl⟩
    have hsame : updateDescription fails m m.cols s = .ok s := if_neg (not_not.mpr rfl)
    rw [checkExisting, hfound]
    dsimp only
    rw [hsame]
    have hrest : checkExisting fails models (existingNames ++ [m.cols.name]) unknownIds s = _ :=
      ih fun m' hm' => h m' (List.mem_cons_of_mem _ hm')
    rw [List.append_assoc, List.singleton_append] at hrest
    exact hrest

theorem syncPermissionDefs_of_synced
    (h : (s.tables.val.permission.map Row.cols).Perm PermissionDef.all) :
    ReadsOnly fails s (syncPermissionDefs fails nextId s) := by
  refine ReadsOnly.query fun s₁ htables => ?_
  have hexpected : ∀ m ∈ s.tables.val.permission, m.cols ∈ PermissionDef.all := fun m hm =>
    h.subset (List.mem_map_of_mem hm)
  have hnone : (PermissionDef.all.filter fun d =>
      d.name ∉ s.tables.val.permission.map fun m => m.cols.name) = [] := by
    refine List.filter_eq_nil_iff.mpr fun d hd => ?_
    obtain ⟨m, hm, rfl⟩ := List.mem_map.mp (h.symm.subset hd)
    simpa using ⟨m, hm, rfl⟩
  dsimp only
  rw [checkExisting_of_expected hexpected]
  change ReadsOnly fails s₁ (insertMissing fails nextId ((PermissionDef.all.filter fun d =>
    d.name ∉ s.tables.val.permission.map fun m => m.cols.name).map PermissionDef.name) s₁ >>=
      deleteUnknown fails [])
  rw [hnone]
  exact ReadsOnly.ok

theorem missingMappings_of_granted {permissionIds : String → Option ℤ}
    {existing : List (ℤ × String)} {role : UserRoleEnum} {names : List String}
    (h : ∀ name ∈ names, name ∈ existingSet existing role) :
    missingMappings permissionIds existing role names = .ok [] := by
  induction names with
  | nil => rfl
  | cons name names ih =>
    rw [missingMappings, if_pos (h name List.mem_cons_self)]
    exact ih fun n hn => h n (List.mem_cons_of_mem _ hn)

theorem roleMappings_of_granted {permissionIds : String → Option ℤ}
    {existing : List (ℤ × String)} {rs : List UserRoleEnum}
    (h : ∀ role ∈ rs, ∀ name, name ∈ existingSet existing role ↔ name ∈ defaultPermissions role) :
    roleMappings permissionIds existing rs = .ok [] := by
  induction rs with
  | nil => rfl
  | cons r rs ih =>
    have hr := h r List.mem_cons_self
    have hextra : (existingSet existing r).filter (· ∉ defaultPermissions r) = [] :=
      List.filter_eq_nil_iff.mpr fun name hname => by simpa using (hr name).mp hname
    simp only [roleMappings]
    rw [if_neg (not_not.mpr hextra),
      missingMappings_of_granted fun name hname => (hr name).mpr hname,
      ih fun role hrole => h role (List.mem_cons_of_mem _ hrole)]
    rfl

theorem syncRolePermissions_of_synced (h : Synced s.tables) :
    ReadsOnly fails s (syncRolePermissions fails s) := by
  have hgranted : ∀ role ∈ roles, ∀ name,
      name ∈ existingSet s.tables.val.existingMappings role ↔ name ∈ defaultPermissions role :=
    fun role _ name => (mem_existingSet h.defs).trans (h.roles role).mem_iff
  unfold syncRolePermissions permissionFetchIdMap
  rw [bind_assoc]
  refine ReadsOnly.query fun s₁ h₁ => ?_
  refine ReadsOnly.query fun s₂ h₂ => ?_
  dsimp only
  rw [h₁, roleMappings_of_granted hgranted]
  exact ReadsOnly.ok

/-- A run on tables that are in line leaves them, whatever the database refuses. -/
theorem syncPermissions_of_synced {tables : {t : Rows // Consistent t}} (h : Synced tables) :
    (syncPermissions fails nextId tables).2 = tables ∧
      ((∀ n, fails n = false) → (syncPermissions fails nextId tables).1 = .ok ()) := by
  refine ReadsOnly.transaction ?_
  refine ReadsOnly.query fun s₁ h₁ => ?_
  refine ReadsOnly.bind (syncPermissionDefs_of_synced ?_) fun s₂ h₂ => ?_
  · rw [h₁]
    exact h.defs
  refine ReadsOnly.bind (syncRolePermissions_of_synced ?_) fun s₃ h₃ => ?_
  · rw [h₂, h₁]
    exact h
  exact ReadsOnly.query fun s₄ h₄ => ReadsOnly.ok

end FixedPoint

section Claim

structure Converged (before after : {t : Rows // Consistent t}) : Prop where
  synced : Synced after
  attached : ∀ m ∈ after.val.rolePermission, ∃ p ∈ after.val.permission, p.id = m.permissionId
  detached : ∀ r ∈ before.val.permission, r.cols.name ∉ PermissionDef.names →
    ∀ m ∈ after.val.rolePermission, m.permissionId ≠ r.id
  again : ∀ fails nextId, (syncPermissions fails nextId after).2 = after
  succeeds : ∀ fails nextId, (∀ n, fails n = false) →
    (syncPermissions fails nextId after).1 = .ok ()

theorem syncPermissions_eq_ok {tables : {t : Rows // Consistent t}}
    (h : (syncPermissions fails nextId tables).1 = .ok ()) :
    DefsSynced tables (syncPermissions fails nextId tables).2 ∧
      Synced (syncPermissions fails nextId tables).2 := by
  obtain ⟨s, hbody, hafter⟩ := transaction_of_ok h
  change (syncPermissions fails nextId tables).2 = s.tables at hafter
  obtain ⟨⟨_, s₁⟩, hbegin, hbody⟩ := bind_eq_ok.mp hbody
  obtain ⟨s₂, hdefs, hbody⟩ := bind_eq_ok.mp hbody
  obtain ⟨s₃, hroles, hbody⟩ := bind_eq_ok.mp hbody
  obtain ⟨⟨_, s₄⟩, hcommit, hbody⟩ := bind_eq_ok.mp hbody
  have h₁ : s₁.tables = tables := (query_eq_ok hbegin).2
  have h₄ : s.tables = s₃.tables := by
    rw [← Except.ok.inj hbody]
    exact (query_eq_ok hcommit).2
  have hsynced : DefsSynced s₁.tables s₂.tables := syncPermissionDefs_synced hdefs
  obtain ⟨hpermission, hpermissions⟩ := syncRolePermissions_synced hsynced.cols hroles
  rw [hafter, h₄, ← h₁]
  constructor
  · constructor
    · rw [hpermission]
      exact hsynced.cols
    · rw [hpermission]
      exact hsynced.removed
  · constructor
    · rw [hpermission]
      exact hsynced.cols
    · exact hpermissions

theorem sync_permissions_converges (fails : ℕ → Bool) (nextId : ℕ → ℤ)
    (tables : {t : Rows // Consistent t}) :
    ((syncPermissions fails nextId tables).1 = .ok () →
      Converged tables (syncPermissions fails nextId tables).2) ∧
    ∀ e, (syncPermissions fails nextId tables).1 = .error e →
      (syncPermissions fails nextId tables).2 = tables := by
  refine ⟨fun h => ?_, fun e h => transaction_of_error h⟩
  obtain ⟨hdefs, hsynced⟩ := syncPermissions_eq_ok h
  have hconsistent := (syncPermissions fails nextId tables).2.property
  constructor
  · exact hsynced
  · intro m hm
    exact List.mem_map.mp (hconsistent.permissionFk m hm)
  · intro r hr hname m hm heq
    exact hdefs.removed r hr hname (heq ▸ hconsistent.permissionFk m hm)
  · exact fun fails' nextId' => (syncPermissions_of_synced hsynced).1
  · exact fun fails' nextId' => (syncPermissions_of_synced hsynced).2

/-- A stale description, a permission that the code does not know and three that are missing. -/
def staleRows : {t : Rows // Consistent t} where
  val :=
    { permission := [⟨4, imageQueueManage, some "Manage images"⟩, ⟨7, "song.manage", none⟩]
      rolePermission := [⟨1, 4⟩, ⟨2, 7⟩]
      role := [1, 2, 3] }
  property := by decide

theorem staleRows_converge :
    Converged staleRows (syncPermissions (fun _ => false) (· + 10) staleRows).2 := by
  have hok : (syncPermissions (fun _ => false) (· + 10) staleRows).1 = .ok () := by
    decide +kernel
  exact (sync_permissions_converges (fun _ => false) (· + 10) staleRows).1 hok

end Claim

end Thcdb.Authz
