import Thcdb.Authz.Permissions

namespace Thcdb.Authz
open Relational Users
open Fallible (bind_eq_ok)

variable {fails : ℕ → Bool} {nextId : ℕ → ℤ} {s s' : State} {name : String} {d : PermissionDef}

theorem names_nodup : PermissionDef.names.Nodup := by decide

theorem expectedByName_eq_some :
    expectedByName name = some d ↔ d ∈ PermissionDef.all ∧ d.name = name :=
  indexBy_of_nodup names_nodup

theorem expectedByName_eq_none : expectedByName name = none ↔ name ∉ PermissionDef.names :=
  indexBy_eq_none_iff names_nodup

/-- A permission as the code describes it; a permission that it does not know stays. -/
def withExpected (r : Row PermissionDef) : Row PermissionDef :=
  ⟨r.id, corrected PermissionDef.name PermissionDef.all r.cols⟩

theorem withExpected_of_some {r : Row PermissionDef} (h : expectedByName r.cols.name = some d) :
    withExpected r = ⟨r.id, d⟩ := by
  obtain ⟨hd, hname⟩ := expectedByName_eq_some.mp h
  rw [withExpected, corrected_eq_of_mem names_nodup hd hname]

theorem withExpected_of_none {r : Row PermissionDef} (h : expectedByName r.cols.name = none) :
    withExpected r = r := by
  rw [withExpected, corrected_eq_of_notMem names_nodup (expectedByName_eq_none.mp h)]

def Rows.mapPermissions (f : Row PermissionDef → Row PermissionDef) (t : Rows) : Rows :=
  { t with permission := t.permission.map f }

section Loop

/-- A row whose identity is among the given ones, as the code has it. -/
def fixAmong (ids : List ℤ) (r : Row PermissionDef) : Row PermissionDef :=
  if r.id ∈ ids then withExpected r else r

theorem mapPermissions_eq_self {t : Rows} {f : Row PermissionDef → Row PermissionDef}
    (h : ∀ r ∈ t.permission, f r = r) : t.mapPermissions f = t := by
  have hmap : t.permission.map f = t.permission := by
    rw [List.map_congr_left h, List.map_id']
  rw [Rows.mapPermissions, hmap]

theorem fixAmong_cons {t : Rows} {i : ℤ} {ids : List ℤ} (hi : i ∉ ids) :
    (t.mapPermissions (fixAmong [i])).mapPermissions (fixAmong ids) =
      t.mapPermissions (fixAmong (i :: ids)) := by
  have hpoint : ∀ r, fixAmong ids (fixAmong [i] r) = fixAmong (i :: ids) r := by
    intro r
    by_cases hr : r.id = i
    · have hwith : (withExpected r).id ∉ ids := by
        rw [withExpected, hr]
        exact hi
      simp [fixAmong, hr, hwith]
    · simp [fixAmong, hr]
  have hcomp : fixAmong ids ∘ fixAmong [i] = fixAmong (i :: ids) := funext hpoint
  simp only [Rows.mapPermissions, List.map_map, hcomp]

theorem updateDescription_eq_ok {model : Row PermissionDef}
    (h : updateDescription fails model d s = .ok s') (hd : expectedByName model.cols.name = some d)
    (hrows : ∀ r ∈ s.tables.val.permission, r.id = model.id → r = model) :
    s'.tables.val = s.tables.val.mapPermissions (fixAmong [model.id]) := by
  have hname : d.name = model.cols.name := (expectedByName_eq_some.mp hd).2
  have hwith : withExpected model = ⟨model.id, d⟩ := withExpected_of_some hd
  unfold updateDescription at h
  split_ifs at h with hdesc
  · rw [execute_eq_ok h]
    simp only [Rows.describe, Rows.mapPermissions]
    congr 1
    refine List.map_congr_left fun r hr => ?_
    by_cases hid : r.id = model.id
    · rw [if_pos hid, fixAmong, if_pos (List.mem_singleton.mpr hid), hrows r hr hid, hwith, ← hname]
    · rw [if_neg hid, fixAmong, if_neg (fun hmem => hid (List.mem_singleton.mp hmem))]
  · rw [← Except.ok.inj h, mapPermissions_eq_self]
    intro r hr
    unfold fixAmong
    split_ifs with hid
    · rw [hrows r hr (List.mem_singleton.mp hid), hwith]
      rw [ne_eq, not_not] at hdesc
      cases model with
      | mk id cols =>
        cases cols
        cases d
        simp_all
    · rfl

/-- A model of the loop, whose name is known or not, leaves its own row as the code has it. -/
theorem checkExisting_cons_eq_ok {m : Row PermissionDef} {models : List (Row PermissionDef)}
    {existingNames : List String} {unknownIds : List ℤ} {r : (List String × List ℤ) × State}
    (h : checkExisting fails (m :: models) existingNames unknownIds s = .ok r)
    (hrows : ∀ r ∈ s.tables.val.permission, r.id = m.id → r = m) :
    ∃ s₁ : State, s₁.tables.val = s.tables.val.mapPermissions (fixAmong [m.id]) ∧
      (m.cols.name ∈ PermissionDef.names ∧
          checkExisting fails models (existingNames ++ [m.cols.name]) unknownIds s₁ = .ok r ∨
        m.cols.name ∉ PermissionDef.names ∧
          checkExisting fails models existingNames (unknownIds ++ [m.id]) s₁ = .ok r) := by
  cases hd : expectedByName m.cols.name with
  | none =>
    rw [checkExisting, hd] at h
    refine ⟨s, (mapPermissions_eq_self fun r hr => ?_).symm, .inr ⟨expectedByName_eq_none.mp hd, h⟩⟩
    unfold fixAmong
    split_ifs with hid
    · rw [hrows r hr (List.mem_singleton.mp hid), withExpected_of_none hd]
    · rfl
  | some d =>
    have hknown : m.cols.name ∈ PermissionDef.names := by
      by_contra hnot
      rw [expectedByName_eq_none.mpr hnot] at hd
      cases hd
    rw [checkExisting, hd] at h
    obtain ⟨s₁, hupdate, h⟩ := bind_eq_ok.mp h
    exact ⟨s₁, updateDescription_eq_ok hupdate hd hrows, .inl ⟨hknown, h⟩⟩

/-- The rows of the other models are as they were. -/
theorem mem_mapPermissions_fixAmong {t : Rows} {m m' r : Row PermissionDef} (hne : m'.id ≠ m.id)
    (hrows : ∀ r ∈ t.permission, r.id = m'.id → r = m')
    (hr : r ∈ (t.mapPermissions (fixAmong [m.id])).permission) (hid : r.id = m'.id) : r = m' := by
  obtain ⟨r₀, hr₀, rfl⟩ := List.mem_map.mp hr
  unfold fixAmong at hid ⊢
  split_ifs at hid ⊢ with hr₀m
  · -- a row that was changed has the identity of `m`
    exact absurd (hid.symm.trans (List.mem_singleton.mp hr₀m)) hne
  · exact hrows r₀ hr₀ hid

/-- The loop leaves every row as the code has it, and tells apart the names and the identities. -/
theorem checkExisting_eq_ok {models : List (Row PermissionDef)} {existingNames names' : List String}
    {unknownIds unknown' : List ℤ}
    (h : checkExisting fails models existingNames unknownIds s = .ok ((names', unknown'), s'))
    (hids : (models.map Row.id).Nodup)
    (hrows : ∀ m ∈ models, ∀ r ∈ s.tables.val.permission, r.id = m.id → r = m) :
    names' = existingNames ++
        (models.filter fun m => m.cols.name ∈ PermissionDef.names).map (fun m => m.cols.name) ∧
      unknown' = unknownIds ++
        (models.filter fun m => m.cols.name ∉ PermissionDef.names).map Row.id ∧
      s'.tables.val = s.tables.val.mapPermissions (fixAmong (models.map Row.id)) := by
  induction models generalizing existingNames unknownIds s with
  | nil =>
    cases h
    refine ⟨(List.append_nil _).symm, (List.append_nil _).symm, ?_⟩
    exact (mapPermissions_eq_self fun r _ => if_neg List.not_mem_nil).symm
  | cons m models ih =>
    obtain ⟨hm, hids⟩ := List.nodup_cons.mp hids
    obtain ⟨s₁, htables₁, hstep⟩ := checkExisting_cons_eq_ok h (hrows m List.mem_cons_self)
    have hrows₁ : ∀ m' ∈ models, ∀ r ∈ s₁.tables.val.permission, r.id = m'.id → r = m' := by
      intro m' hm' r hr
      rw [htables₁] at hr
      have hne : m'.id ≠ m.id := fun heq => hm (heq ▸ List.mem_map_of_mem hm')
      exact mem_mapPermissions_fixAmong hne (hrows m' (List.mem_cons_of_mem _ hm')) hr
    rw [List.map_cons, ← fixAmong_cons hm, ← htables₁]
    rcases hstep with ⟨hknown, h⟩ | ⟨hunknown, h⟩
    · obtain ⟨hnames, hunk, htables⟩ := ih h hids hrows₁
      refine ⟨?_, ?_, htables⟩
      · rw [hnames, List.filter_cons_of_pos (by simpa using hknown), List.map_cons,
          List.append_assoc, List.singleton_append]
      · rw [hunk, List.filter_cons_of_neg (by simpa using hknown)]
    · obtain ⟨hnames, hunk, htables⟩ := ih h hids hrows₁
      refine ⟨?_, ?_, htables⟩
      · rw [hnames, List.filter_cons_of_neg (by simpa using hunknown)]
      · rw [hunk, List.filter_cons_of_pos (by simpa using hunknown), List.map_cons,
          List.append_assoc, List.singleton_append]

end Loop

section Phase

theorem insertMissing_eq_ok {missingNames : List String}
    (h : insertMissing fails nextId missingNames s = .ok s') :
    s'.tables.val =
      s.tables.val.insertPermissions nextId (missingNames.filterMap expectedByName) := by
  unfold insertMissing at h
  split_ifs at h with hnil
  · rw [← Except.ok.inj h, List.isEmpty_iff.mp hnil]
    simp [Rows.insertPermissions]
  · exact execute_eq_ok h

theorem deleteUnknown_eq_ok {unknownIds : List ℤ} (h : deleteUnknown fails unknownIds s = .ok s') :
    s'.tables.val = (s.tables.val.deleteMappings unknownIds).deletePermissions unknownIds := by
  unfold deleteUnknown at h
  split_ifs at h with hnil
  · rw [← Except.ok.inj h, List.isEmpty_iff.mp hnil]
    simp [Rows.deleteMappings, Rows.deletePermissions]
  · obtain ⟨s₁, hmappings, hpermissions⟩ := bind_eq_ok.mp h
    rw [execute_eq_ok hpermissions, execute_eq_ok hmappings]

/-- The identities of the permissions that the code does not know. -/
def Rows.unknownIds (t : Rows) : List ℤ :=
  (t.permission.filter fun r => r.cols.name ∉ PermissionDef.names).map Row.id

def Rows.missing (t : Rows) : List PermissionDef :=
  PermissionDef.all.filter fun d => d.name ∉ t.permission.map fun r => r.cols.name

/-- The tables before the unknown permissions go. -/
def Rows.extended (nextId : ℕ → ℤ) (t : Rows) : Rows :=
  (t.mapPermissions withExpected).insertPermissions nextId t.missing

theorem syncPermissionDefs_eq_ok (h : syncPermissionDefs fails nextId s = .ok s') :
    Consistent (s.tables.val.extended nextId) ∧
      s'.tables.val =
        ((s.tables.val.extended nextId).deleteMappings s.tables.val.unknownIds).deletePermissions
          s.tables.val.unknownIds := by
  obtain ⟨⟨existing, s₁⟩, hquery, h⟩ := bind_eq_ok.mp h
  obtain ⟨hexisting, htables₁⟩ := query_eq_ok hquery
  obtain ⟨⟨⟨existingNames, unknownIds⟩, s₂⟩, hcheck, h⟩ := bind_eq_ok.mp h
  obtain ⟨s₃, hinsert, hdelete⟩ := bind_eq_ok.mp h
  dsimp only at hexisting htables₁ hinsert hdelete
  subst hexisting
  have hids : (s.tables.val.permission.map Row.id).Nodup := s.tables.property.ids
  have hrows : ∀ m ∈ s.tables.val.permission, ∀ r ∈ s₁.tables.val.permission,
      r.id = m.id → r = m := by
    intro m hm r hr hid
    rw [htables₁] at hr
    exact List.inj_on_of_nodup_map hids hr hm hid
  obtain ⟨hnames, hunknown, htables₂⟩ := checkExisting_eq_ok hcheck hids hrows
  have hfixed : s₂.tables.val = s.tables.val.mapPermissions withExpected := by
    rw [htables₂, htables₁, Rows.mapPermissions, Rows.mapPermissions]
    congr 1
    exact List.map_congr_left fun r hr => if_pos (List.mem_map_of_mem hr)
  have hmissing : ((PermissionDef.all.filter fun d => d.name ∉ existingNames).map
      PermissionDef.name).filterMap expectedByName = s.tables.val.missing := by
    rw [expectedByName, filterMap_indexBy names_nodup fun d hd => List.mem_of_mem_filter hd, hnames]
    exact filter_missing
  have hextended : s₃.tables.val = s.tables.val.extended nextId := by
    rw [insertMissing_eq_ok hinsert, hmissing, hfixed, Rows.extended]
  refine ⟨hextended ▸ s₃.tables.property, ?_⟩
  rw [deleteUnknown_eq_ok hdelete, hextended, hunknown, List.nil_append, Rows.unknownIds]

variable {t : Rows}

theorem mem_unknownIds (ht : Consistent t) {r : Row PermissionDef} (hr : r ∈ t.permission) :
    r.id ∈ t.unknownIds ↔ r.cols.name ∉ PermissionDef.names := by
  simp only [Rows.unknownIds, List.mem_map, List.mem_filter, decide_eq_true_eq]
  constructor
  · rintro ⟨r', ⟨hr', hname⟩, hid⟩
    rwa [← List.inj_on_of_nodup_map ht.ids hr' hr hid]
  · exact fun hname => ⟨r, ⟨hr, hname⟩, rfl⟩

/-- A new permission takes the identity of none that goes, since both are in the table at once. -/
theorem permission_extended (ht : Consistent t) (hextended : Consistent (t.extended nextId)) :
    ((t.extended nextId).deletePermissions t.unknownIds).permission =
      (t.permission.filter fun r => r.cols.name ∈ PermissionDef.names).map withExpected ++
        t.missing.mapIdx fun i d => ⟨nextId i, d⟩ := by
  have hkept : ((t.permission.map withExpected).filter fun r => r.id ∉ t.unknownIds) =
      (t.permission.filter fun r => r.cols.name ∈ PermissionDef.names).map withExpected := by
    rw [List.filter_map]
    congr 1
    refine List.filter_congr fun r hr => ?_
    simp only [Function.comp_apply, withExpected, mem_unknownIds ht hr, not_not]
  have hids : (t.permission.map withExpected).map Row.id = t.permission.map Row.id := by
    rw [List.map_map]
    rfl
  have hdisjoint := hextended.ids
  simp only [Rows.extended, Rows.insertPermissions, Rows.mapPermissions, List.map_append,
    hids] at hdisjoint
  have hnew : ((t.missing.mapIdx fun i d => (⟨nextId i, d⟩ : Row PermissionDef)).filter fun r =>
      r.id ∉ t.unknownIds) = t.missing.mapIdx fun i d => ⟨nextId i, d⟩ := by
    refine List.filter_eq_self.mpr fun r hr => ?_
    rw [decide_eq_true_eq]
    intro hunknown
    obtain ⟨r', hr', hid⟩ := List.mem_map.mp hunknown
    have hold : r'.id ∈ t.permission.map Row.id :=
      List.mem_map_of_mem (List.mem_of_mem_filter hr')
    exact (List.nodup_append.mp hdisjoint).2.2 _ hold _ (List.mem_map_of_mem hr) hid
  simp only [Rows.extended, Rows.insertPermissions, Rows.mapPermissions, Rows.deletePermissions,
    List.filter_append]
  rw [hkept, hnew]

theorem cols_inserted {defs : List PermissionDef} :
    (defs.mapIdx fun i d => (⟨nextId i, d⟩ : Row PermissionDef)).map Row.cols = defs := by
  apply List.ext_getElem?
  intro i
  rw [List.getElem?_map, List.getElem?_mapIdx, Option.map_map]
  exact congrFun Option.map_id _

/-- Where the tables hold what the code describes, the identities of the others are gone. -/
structure DefsSynced (t t' : Rows) : Prop where
  cols : (t'.permission.map Row.cols).Perm PermissionDef.all
  removed : ∀ r ∈ t.permission, r.cols.name ∉ PermissionDef.names → r.id ∉ t'.permission.map Row.id

theorem syncPermissionDefs_synced (h : syncPermissionDefs fails nextId s = .ok s') :
    DefsSynced s.tables s'.tables := by
  obtain ⟨hextended, hs'⟩ := syncPermissionDefs_eq_ok h
  have hconsistent : Consistent s.tables.val := s.tables.property
  have hpermission := permission_extended hconsistent hextended
  constructor
  · have hcols : s'.tables.val.permission.map Row.cols = reconciled PermissionDef.name
        PermissionDef.all (s.tables.val.permission.map Row.cols) := by
      rw [hs']
      change (((s.tables.val.extended nextId).deletePermissions _).permission).map Row.cols = _
      rw [hpermission, List.map_append, cols_inserted, reconciled, List.filter_map, List.map_map,
        List.map_map, List.map_map]
      rfl
    rw [hcols]
    exact reconciled_perm names_nodup hconsistent.names
  · intro r hr hname
    rw [hs']
    have hunknown : r.id ∈ s.tables.val.unknownIds := (mem_unknownIds hconsistent hr).mpr hname
    intro hmem
    obtain ⟨r', hr', hid⟩ := List.mem_map.mp hmem
    have hkept : r'.id ∉ s.tables.val.unknownIds := by
      simpa [Rows.deletePermissions] using (List.mem_filter.mp hr').2
    exact hkept (hid ▸ hunknown)

end Phase

end Thcdb.Authz
