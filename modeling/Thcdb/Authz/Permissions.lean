import Thcdb.Relational.Reconcile
import Thcdb.Relational.Sessions
import Thcdb.Relational.Table
import Thcdb.Users.Tables

namespace Thcdb.Authz
open Relational Users

/-- Also the columns of a row of `permission` besides its identity. -/
structure PermissionDef where
  name : String
  description : Option String
  deriving DecidableEq, Repr

def correctionManage : String := "correction.manage"

def imageQueueManage : String := "image.queue.manage"

def adminUserRead : String := "admin.user.read"

def adminWrite : String := "admin.user.role.write"

def PermissionDef.all : List PermissionDef :=
  [⟨correctionManage, some "Manage corrections"⟩,
   ⟨imageQueueManage, some "Manage image queue"⟩,
   ⟨adminUserRead, some "Read users list"⟩,
   ⟨adminWrite, some "Update user roles"⟩]

def PermissionDef.names : List String := PermissionDef.all.map PermissionDef.name

/-- `UserRoleEnum::iter`. -/
def roles : List UserRoleEnum := [.Admin, .Moderator, .User]

def defaultPermissions : UserRoleEnum → List String
  | .Admin => [correctionManage, imageQueueManage, adminUserRead, adminWrite]
  | .Moderator => [correctionManage, imageQueueManage]
  | .User => []

structure RolePermission where
  roleId : ℤ
  permissionId : ℤ
  deriving DecidableEq, Repr

/-- The rows of `permission` and of `role_permission`, and the identities of `role`. -/
structure Rows where
  permission : List (Row PermissionDef)
  rolePermission : List RolePermission
  role : List ℤ
  deriving DecidableEq, Repr

structure Consistent (t : Rows) : Prop where
  ids : (t.permission.map Row.id).Nodup
  names : ((t.permission.map Row.cols).map PermissionDef.name).Nodup
  mappings : t.rolePermission.Nodup
  permissionFk : ∀ m ∈ t.rolePermission, m.permissionId ∈ t.permission.map Row.id
  roleFk : ∀ m ∈ t.rolePermission, m.roleId ∈ t.role

instance : DecidablePred Consistent := fun t =>
  decidable_of_iff
    ((t.permission.map Row.id).Nodup ∧ ((t.permission.map Row.cols).map PermissionDef.name).Nodup ∧
      t.rolePermission.Nodup ∧ (∀ m ∈ t.rolePermission, m.permissionId ∈ t.permission.map Row.id) ∧
      ∀ m ∈ t.rolePermission, m.roleId ∈ t.role)
    ⟨fun ⟨h, h', h'', p, r⟩ => ⟨h, h', h'', p, r⟩, fun ⟨h, h', h'', p, r⟩ => ⟨h, h', h'', p, r⟩⟩

namespace Rows
variable (t : Rows)

/-- `UPDATE permission SET description`, for one row. -/
def describe (id : ℤ) (description : Option String) : Rows :=
  { t with permission := t.permission.map fun r =>
      if r.id = id then ⟨r.id, { r.cols with description }⟩ else r }

/-- The identity column takes what the sequence gives. -/
def insertPermissions (nextId : ℕ → ℤ) (defs : List PermissionDef) : Rows :=
  { t with permission := t.permission ++ defs.mapIdx fun i d => ⟨nextId i, d⟩ }

def deleteMappings (permissionIds : List ℤ) : Rows :=
  { t with rolePermission := t.rolePermission.filter fun m => m.permissionId ∉ permissionIds }

def deletePermissions (ids : List ℤ) : Rows :=
  { t with permission := t.permission.filter fun r => r.id ∉ ids }

def insertMappings (mappings : List RolePermission) : Rows :=
  { t with rolePermission := t.rolePermission ++ mappings }

/-- The mappings of the roles to the permissions of the code, as identity and name. -/
def existingMappings : List (ℤ × String) :=
  t.rolePermission.flatMap fun m =>
    ((t.permission.filter fun p => p.id = m.permissionId).filter fun p =>
      m.roleId ∈ roles.map UserRoleEnum.asId ∧ p.cols.name ∈ PermissionDef.names).map fun p =>
        (m.roleId, p.cols.name)

def permissionsOf (role : UserRoleEnum) : List String :=
  (t.permission.filter fun p => ⟨role.asId, p.id⟩ ∈ t.rolePermission).map fun p => p.cols.name

end Rows

inductive Failure
  | DbErr
  | Custom (message : String)
  | Panic (message : String)
  deriving DecidableEq, Repr

abbrev State := Session Consistent

section Sync
variable (fails : ℕ → Bool) (nextId : ℕ → ℤ)

def expectedByName : String → Option PermissionDef :=
  indexBy PermissionDef.name PermissionDef.all

def updateDescription (model : Row PermissionDef) (expectedDef : PermissionDef) (s : State) :
    Except Failure State :=
  if model.cols.description ≠ expectedDef.description then
    execute .DbErr fails (Rows.describe · model.id expectedDef.description) s
  else .ok s

/-- The loop over the existing permissions, with the names that the code knows and the identities
of the others. -/
def checkExisting : List (Row PermissionDef) → List String → List ℤ → State →
    Except Failure ((List String × List ℤ) × State)
  | [], existingNames, unknownIds, s => .ok ((existingNames, unknownIds), s)
  | model :: existing, existingNames, unknownIds, s =>
    match expectedByName model.cols.name with
    | none => checkExisting existing existingNames (unknownIds ++ [model.id]) s
    | some expectedDef => do
      let s ← updateDescription fails model expectedDef s
      checkExisting existing (existingNames ++ [model.cols.name]) unknownIds s

def insertMissing (missingNames : List String) (s : State) : Except Failure State :=
  if missingNames.isEmpty then .ok s
  else
    let missing := missingNames.filterMap expectedByName
    execute .DbErr fails (Rows.insertPermissions · nextId missing) s

def deleteUnknown (unknownIds : List ℤ) (s : State) : Except Failure State :=
  if unknownIds.isEmpty then .ok s
  else do
    let s ← execute .DbErr fails (Rows.deleteMappings · unknownIds) s
    execute .DbErr fails (Rows.deletePermissions · unknownIds) s

def syncPermissionDefs (s : State) : Except Failure State := do
  let (existing, s) ← query .DbErr fails Rows.permission s
  let ((existingNames, unknownIds), s) ← checkExisting fails existing [] [] s
  let missingNames :=
    (PermissionDef.all.filter fun d => d.name ∉ existingNames).map PermissionDef.name
  let s ← insertMissing fails nextId missingNames s
  deleteUnknown fails unknownIds s

def permissionFetchIdMap (s : State) : Except Failure ((String → Option ℤ) × State) := do
  let (models, s) ← query .DbErr fails
    (fun t => t.permission.filter fun r => r.cols.name ∈ PermissionDef.names) s
  .ok (fun name => (indexBy (fun r => r.cols.name) models name).map Row.id, s)

def existingSet (existing : List (ℤ × String)) (role : UserRoleEnum) : List String :=
  ((existing.filter fun m => m.1 = role.asId).map Prod.snd).dedup

def missingMappings (permissionIds : String → Option ℤ) (existing : List (ℤ × String))
    (role : UserRoleEnum) : List String → Except Failure (List RolePermission)
  | [] => .ok []
  | permissionName :: names =>
    if permissionName ∈ existingSet existing role then
      missingMappings permissionIds existing role names
    else
      match permissionIds permissionName with
      | none => .error (.Custom s!"Permission not found after sync: {permissionName}")
      | some permissionId => do
        let mappings ← missingMappings permissionIds existing role names
        .ok (⟨role.asId, permissionId⟩ :: mappings)

def roleMappings (permissionIds : String → Option ℤ) (existing : List (ℤ × String)) :
    List UserRoleEnum → Except Failure (List RolePermission)
  | [] => .ok []
  | role :: roles =>
    -- A set has no order of its own; the names stand here in the order of the rows.
    let extra := (existingSet existing role).filter (· ∉ defaultPermissions role)
    if extra ≠ [] then
      .error (.Panic ("Role permission mapping conflicts with database records.\n" ++
        s!"Role: '{role.display}'\n" ++ "Unexpected permissions: [" ++ ", ".intercalate extra ++
        "]"))
    else do
      let mappings ← missingMappings permissionIds existing role (defaultPermissions role)
      let others ← roleMappings permissionIds existing roles
      .ok (mappings ++ others)

def syncRolePermissions (s : State) : Except Failure State := do
  let (permissionIds, s) ← permissionFetchIdMap fails s
  let (existing, s) ← query .DbErr fails Rows.existingMappings s
  let mappings ← roleMappings permissionIds existing roles
  if mappings.isEmpty then .ok s
  else execute .DbErr fails (Rows.insertMappings · mappings) s

/-- `BEGIN` and `COMMIT` may be refused too. A panic drops the transaction as an error does. -/
def syncPermissions (tables : {t : Rows // Consistent t}) :
    Except Failure Unit × {t : Rows // Consistent t} :=
  transaction (fun s => do
    let (_, s) ← query .DbErr fails (fun _ => ()) s
    let s ← syncPermissionDefs fails nextId s
    let s ← syncRolePermissions fails s
    let (_, s) ← query .DbErr fails (fun _ => ()) s
    .ok s) tables

end Sync

end Thcdb.Authz
