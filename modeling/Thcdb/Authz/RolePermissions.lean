import Thcdb.Authz.PermissionDefs

namespace Thcdb.Authz
open Relational Users
open Fallible (bind_eq_ok)

variable {fails : ℕ → Bool} {nextId : ℕ → ℤ} {s s' : State} {t : Rows} {role : UserRoleEnum}
  {name : String} {i : ℤ} {permissionIds : String → Option ℤ} {existing : List (ℤ × String)}
  {names : List String} {rs : List UserRoleEnum} {mappings : List RolePermission}

theorem mem_roles : role ∈ roles := by cases role <;> decide

theorem asId_injective : Function.Injective UserRoleEnum.asId := by
  intro r r' h
  have hfrom := UserRoleEnum.tryFrom_asId r
  rw [h, UserRoleEnum.tryFrom_asId] at hfrom
  exact (Except.ok.inj hfrom).symm

theorem defaultPermissions_nodup : (defaultPermissions role).Nodup := by cases role <;> decide

theorem mem_names_of_synced (hdefs : (t.permission.map Row.cols).Perm PermissionDef.all)
    {p : Row PermissionDef} (hp : p ∈ t.permission) : p.cols.name ∈ PermissionDef.names :=
  List.mem_map_of_mem (hdefs.subset (List.mem_map_of_mem hp))

section Reads

theorem mem_permissionsOf : name ∈ t.permissionsOf role ↔
    ∃ p ∈ t.permission, ⟨role.asId, p.id⟩ ∈ t.rolePermission ∧ p.cols.name = name := by
  simp [Rows.permissionsOf, and_assoc]

theorem permissionsOf_nodup (ht : Consistent t) : (t.permissionsOf role).Nodup := by
  have hnames := ht.names
  rw [List.map_map] at hnames
  exact hnames.sublist (List.filter_sublist.map _)

theorem mem_existingSet (hdefs : (t.permission.map Row.cols).Perm PermissionDef.all) :
    name ∈ existingSet t.existingMappings role ↔ name ∈ t.permissionsOf role := by
  simp only [existingSet, Rows.existingMappings, List.mem_dedup, List.mem_map, List.mem_filter,
    List.mem_flatMap, decide_eq_true_eq, mem_permissionsOf]
  constructor
  · -- the join keeps the mappings of this role
    rintro ⟨_, ⟨⟨m, hm, p, ⟨⟨hp, hid⟩, -⟩, rfl⟩, hrole⟩, rfl⟩
    refine ⟨p, hp, ?_, rfl⟩
    rw [hid, ← hrole]
    exact hm
  · rintro ⟨p, hp, hm, rfl⟩
    have hknown := mem_names_of_synced hdefs hp
    exact ⟨_, ⟨⟨_, hm, p, ⟨⟨hp, rfl⟩, ⟨role, mem_roles, rfl⟩, hknown⟩, rfl⟩, rfl⟩, rfl⟩

def Rows.idMap (t : Rows) (name : String) : Option ℤ :=
  (indexBy (fun r => r.cols.name) (t.permission.filter fun r => r.cols.name ∈ PermissionDef.names)
    name).map Row.id

theorem idMap_eq_some (ht : Consistent t) : t.idMap name = some i ↔
    name ∈ PermissionDef.names ∧ ∃ p ∈ t.permission, p.cols.name = name ∧ p.id = i := by
  have hnames := ht.names
  rw [List.map_map] at hnames
  have hnodup : ((t.permission.filter fun r => r.cols.name ∈ PermissionDef.names).map
      fun r => r.cols.name).Nodup := hnames.sublist (List.filter_sublist.map _)
  simp only [Rows.idMap, Option.map_eq_some_iff, indexBy_of_nodup hnodup, List.mem_filter,
    decide_eq_true_eq]
  constructor
  · rintro ⟨p, ⟨⟨hp, hknown⟩, rfl⟩, rfl⟩
    exact ⟨hknown, p, hp, rfl, rfl⟩
  · rintro ⟨hknown, p, hp, rfl, rfl⟩
    exact ⟨p, ⟨⟨hp, hknown⟩, rfl⟩, rfl⟩

theorem permissionFetchIdMap_eq_ok {r : (String → Option ℤ) × State}
    (h : permissionFetchIdMap fails s = .ok r) :
    r.1 = s.tables.val.idMap ∧ r.2.tables = s.tables := by
  obtain ⟨⟨models, s₁⟩, hquery, h⟩ := bind_eq_ok.mp h
  obtain ⟨rfl, htables⟩ := query_eq_ok hquery
  rw [← Except.ok.inj h]
  exact ⟨rfl, htables⟩

end Reads

section Mappings

theorem missingMappings_eq_ok
    (h : missingMappings permissionIds existing role names = .ok mappings) :
    (∀ m ∈ mappings, m.roleId = role.asId ∧
      ∃ name ∈ names, permissionIds name = some m.permissionId) ∧
    ∀ name ∈ names, name ∉ existingSet existing role →
      ∃ i, permissionIds name = some i ∧ ⟨role.asId, i⟩ ∈ mappings := by
  induction names generalizing mappings with
  | nil =>
    cases h
    exact ⟨fun m hm => (nomatch hm), fun name hname => (nomatch hname)⟩
  | cons n names ih =>
    unfold missingMappings at h
    split_ifs at h with hn
    · obtain ⟨hsound, hcomplete⟩ := ih h
      refine ⟨fun m hm => ?_, fun name hname hnot => ?_⟩
      · obtain ⟨hrole, name, hname, hid⟩ := hsound m hm
        exact ⟨hrole, name, List.mem_cons_of_mem _ hname, hid⟩
      · rcases List.mem_cons.mp hname with rfl | hname
        · exact absurd hn hnot
        · exact hcomplete name hname hnot
    · cases hid : permissionIds n with
      | none =>
        rw [hid] at h
        cases h
      | some permissionId =>
        rw [hid] at h
        obtain ⟨rest, hrest, h⟩ := bind_eq_ok.mp h
        obtain ⟨hsound, hcomplete⟩ := ih hrest
        rw [← Except.ok.inj h]
        refine ⟨fun m hm => ?_, fun name hname hnot => ?_⟩
        · rcases List.mem_cons.mp hm with rfl | hm
          · exact ⟨rfl, n, List.mem_cons_self, hid⟩
          · obtain ⟨hrole, name, hname, hid⟩ := hsound m hm
            exact ⟨hrole, name, List.mem_cons_of_mem _ hname, hid⟩
        · rcases List.mem_cons.mp hname with rfl | hname
          · exact ⟨permissionId, hid, List.mem_cons_self⟩
          · obtain ⟨i, hid, hmem⟩ := hcomplete name hname hnot
            exact ⟨i, hid, List.mem_cons_of_mem _ hmem⟩

/-- The mappings that are to be inserted, against the names that the roles have. -/
structure Complement (permissionIds : String → Option ℤ) (existing : List (ℤ × String))
    (rs : List UserRoleEnum) (mappings : List RolePermission) : Prop where
  noExtra : ∀ role ∈ rs, ∀ name ∈ existingSet existing role, name ∈ defaultPermissions role
  sound : ∀ m ∈ mappings, ∃ role ∈ rs, m.roleId = role.asId ∧
    ∃ name ∈ defaultPermissions role, permissionIds name = some m.permissionId
  complete : ∀ role ∈ rs, ∀ name ∈ defaultPermissions role, name ∉ existingSet existing role →
    ∃ i, permissionIds name = some i ∧ ⟨role.asId, i⟩ ∈ mappings

theorem roleMappings_eq_ok (h : roleMappings permissionIds existing rs = .ok mappings) :
    Complement permissionIds existing rs mappings := by
  induction rs generalizing mappings with
  | nil =>
    cases h
    exact ⟨fun r hr => (nomatch hr), fun m hm => (nomatch hm), fun r hr => (nomatch hr)⟩
  | cons r rs ih =>
    simp only [roleMappings] at h
    split_ifs at h with hextra
    obtain ⟨here, hhere, h⟩ := bind_eq_ok.mp h
    obtain ⟨others, hothers, h⟩ := bind_eq_ok.mp h
    obtain ⟨hsound, hcomplete⟩ := missingMappings_eq_ok hhere
    have hrest := ih hothers
    rw [← Except.ok.inj h]
    constructor
    · intro role hrole name hname
      rcases List.mem_cons.mp hrole with rfl | hrole
      · rw [not_not] at hextra
        simpa using List.filter_eq_nil_iff.mp hextra name hname
      · exact hrest.noExtra role hrole name hname
    · intro m hm
      rcases List.mem_append.mp hm with hm | hm
      · exact ⟨r, List.mem_cons_self, hsound m hm⟩
      · obtain ⟨role, hrole, hm⟩ := hrest.sound m hm
        exact ⟨role, List.mem_cons_of_mem _ hrole, hm⟩
    · intro role hrole name hname hnot
      rcases List.mem_cons.mp hrole with rfl | hrole
      · obtain ⟨i, hid, hmem⟩ := hcomplete name hname hnot
        exact ⟨i, hid, List.mem_append_left _ hmem⟩
      · obtain ⟨i, hid, hmem⟩ := hrest.complete role hrole name hname hnot
        exact ⟨i, hid, List.mem_append_right _ hmem⟩

end Mappings

section Phase

theorem syncRolePermissions_eq_ok (h : syncRolePermissions fails s = .ok s') :
    ∃ mappings, Complement s.tables.val.idMap s.tables.val.existingMappings roles mappings ∧
      s'.tables.val = s.tables.val.insertMappings mappings := by
  obtain ⟨⟨permissionIds, s₁⟩, hfetch, h⟩ := bind_eq_ok.mp h
  obtain ⟨⟨existing, s₂⟩, hquery, h⟩ := bind_eq_ok.mp h
  obtain ⟨mappings, hmappings, h⟩ := bind_eq_ok.mp h
  obtain ⟨hids, htables₁⟩ := permissionFetchIdMap_eq_ok hfetch
  obtain ⟨hexisting, htables₂⟩ := query_eq_ok hquery
  dsimp only at hids htables₁ hexisting htables₂ hmappings h
  have htables : s₂.tables = s.tables := htables₂.trans htables₁
  rw [htables₁] at hexisting
  refine ⟨mappings, ?_, ?_⟩
  · rw [← hids, ← hexisting]
    exact roleMappings_eq_ok hmappings
  · split_ifs at h with hnil
    · rw [← Except.ok.inj h, htables, List.isEmpty_iff.mp hnil]
      simp [Rows.insertMappings]
    · rw [execute_eq_ok h, htables]

/-- What a role has after the mappings are inserted: no name that is not among its default
permissions, and of these all. -/
theorem mem_permissionsOf_insert (ht : Consistent t)
    (hdefs : (t.permission.map Row.cols).Perm PermissionDef.all)
    (h : Complement t.idMap t.existingMappings roles mappings) :
    name ∈ (t.insertMappings mappings).permissionsOf role ↔ name ∈ defaultPermissions role := by
  rw [mem_permissionsOf]
  simp only [Rows.insertMappings, List.mem_append]
  constructor
  · rintro ⟨p, hp, hold | hnew, rfl⟩
    · have hexisting := (mem_existingSet hdefs).mpr (mem_permissionsOf.mpr ⟨p, hp, hold, rfl⟩)
      exact h.noExtra role mem_roles _ hexisting
    · obtain ⟨role', -, hrole, name, hname, hid⟩ := h.sound _ hnew
      obtain ⟨-, p', hp', rfl, hsame⟩ := (idMap_eq_some ht).mp hid
      -- identities tell the permissions apart, so the name is the one that was looked up
      rwa [asId_injective hrole, ← List.inj_on_of_nodup_map ht.ids hp' hp hsame]
  · intro hname
    by_cases hexisting : name ∈ existingSet t.existingMappings role
    · obtain ⟨p, hp, hold, hpname⟩ := mem_permissionsOf.mp ((mem_existingSet hdefs).mp hexisting)
      exact ⟨p, hp, .inl hold, hpname⟩
    · obtain ⟨i, hid, hnew⟩ := h.complete role mem_roles name hname hexisting
      obtain ⟨-, p, hp, hpname, rfl⟩ := (idMap_eq_some ht).mp hid
      exact ⟨p, hp, .inr hnew, hpname⟩

theorem syncRolePermissions_synced
    (hdefs : (s.tables.val.permission.map Row.cols).Perm PermissionDef.all)
    (h : syncRolePermissions fails s = .ok s') :
    s'.tables.val.permission = s.tables.val.permission ∧
      ∀ role, (s'.tables.val.permissionsOf role).Perm (defaultPermissions role) := by
  obtain ⟨mappings, hcomplement, hs'⟩ := syncRolePermissions_eq_ok h
  refine ⟨by rw [hs', Rows.insertMappings], fun role => ?_⟩
  refine (List.perm_ext_iff_of_nodup (permissionsOf_nodup s'.tables.property)
    defaultPermissions_nodup).mpr fun name => ?_
  rw [hs']
  exact mem_permissionsOf_insert s.tables.property hdefs hcomplement

end Phase

end Thcdb.Authz
