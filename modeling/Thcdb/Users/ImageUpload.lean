import Mathlib.Data.Finset.Insert
import Mathlib.Logic.Function.Basic
import Thcdb.Interleaving.System
import Thcdb.Users.Tables

namespace Thcdb.Users
open Interleaving

structure User where
  id : ℤ
  columns : UserColumns
  roles : List UserRole
  deriving DecidableEq

/-- The column that an upload is for, `get_field_fn`. -/
inductive ImageField
  | avatarId | profileBannerId
  deriving DecidableEq, Repr

namespace ImageField

def get (c : UserColumns) : ImageField → Option ℤ
  | .avatarId => c.avatarId
  | .profileBannerId => c.profileBannerId

def set (c : UserColumns) (imageId : Option ℤ) : ImageField → UserColumns
  | .avatarId => { c with avatarId := imageId }
  | .profileBannerId => { c with profileBannerId := imageId }

end ImageField

inductive EditableUserRole
  | Moderator
  deriving DecidableEq, Repr

namespace EditableUserRole

def toEnum : EditableUserRole → UserRoleEnum
  | .Moderator => .Moderator

/-- `iter`, in the order of a set of them -/
def all : List EditableUserRole := [.Moderator]

def allRoleIds : List ℤ := all.map fun role => role.toEnum.asId

def roleIds (roles : Finset EditableUserRole) : List ℤ :=
  (all.filter (· ∈ roles)).map fun role => role.toEnum.asId

end EditableUserRole

/-- One version of a row of `user_role`; each insertion makes another. -/
structure RoleVersion where
  version : ℕ
  userId : ℤ
  roleId : ℤ
  deriving DecidableEq, Repr

inductive Lock
  | user (id : ℤ)
  | userRole (userId roleId : ℤ)
  deriving DecidableEq

/-- The committed rows, and the locks of the transactions that are under way. -/
structure World where
  users : ℤ → Option UserColumns
  userRoles : List RoleVersion
  nextVersion : ℕ
  locks : Lock → Option ℕ

/-- A transaction's writes: the user that it updates, the versions that it deletes, and those that
it inserts. -/
structure Tx where
  user : Option (ℤ × UserColumns)
  deleted : List RoleVersion
  inserted : List RoleVersion
  deriving DecidableEq

inductive Error
  | NotFound | Unauthorized | Infra
  deriving DecidableEq, Repr

inductive Outcome
  | unchanged (user : User)
  | uploaded (user : User)
  | rolesSet (roles : List UserRole)
  | passwordSet
  | failed (e : Error)
  deriving DecidableEq

inductive Call
  | idle
  | findUser (field : ImageField) (userId : ℤ)
  | findRoles (field : ImageField) (user : User)
  | createImage (field : ImageField) (user : User)
  | updateUser (field : ImageField) (user : User)
  | deleteRoles (field : ImageField) (user : User) (tx : Tx)
  | awaitRoles (field : ImageField) (user : User) (tx : Tx) (found : List RoleVersion)
  | insertRoles (field : ImageField) (user : User) (tx : Tx)
  | commitUpload (field : ImageField) (user : User) (tx : Tx)
  | findTarget (userId : ℤ) (roles : Finset EditableUserRole)
  | findOldRoles (userId : ℤ) (roles : Finset EditableUserRole)
  | deleteEditable (userId : ℤ) (roles : Finset EditableUserRole)
  | awaitEditable (userId : ℤ) (roles : Finset EditableUserRole) (found : List RoleVersion)
  | insertEditable (userId : ℤ) (roles : Finset EditableUserRole) (tx : Tx)
  | findNewRoles (userId : ℤ) (roles : Finset EditableUserRole) (tx : Tx)
  | commitRoles (userId : ℤ) (roles : Finset EditableUserRole) (tx : Tx)
      (newRoles : List UserRole)
  | findVerified (userId : ℤ) (passwordHash : String)
  | setPassword (userId : ℤ) (passwordHash : String)
  | done (outcome : Outcome)
  deriving DecidableEq

/-- `ok` runs the next statement, `image` is what the image service finds or creates, and `fail` lets
the database refuse a statement; the others begin calls. -/
inductive Input
  | upload (field : ImageField) (userId : ℤ)
  | setUserRoles (userId : ℤ) (roles : Finset EditableUserRole)
  | resetPassword (userId : ℤ) (passwordHash : String)
  | ok
  | image (imageId : ℤ)
  | fail

inductive Event
  | uploaded (userId : ℤ) (field : ImageField) (imageId : Option ℤ)
  | rolesSet (userId : ℤ) (roles : Finset EditableUserRole)
  | passwordSet (userId : ℤ) (passwordHash : String)
  deriving DecidableEq

namespace World

def acquire (w : World) (i : ℕ) (k : Lock) : Option World :=
  if (w.locks k).all (· = i) then some { w with locks := Function.update w.locks k (some i) }
  else none

def acquireAll (w : World) (i : ℕ) (ks : List Lock) : Option World :=
  ks.foldlM (fun w k => w.acquire i k) w

def release (w : World) (i : ℕ) : World :=
  { w with locks := fun k => if w.locks k = some i then none else w.locks k }

def versionsOf (w : World) (userId : ℤ) : List RoleVersion :=
  w.userRoles.filter (·.userId = userId)

/-- The roles of a user as a statement of a transaction sees them. -/
def rolesSeen (w : World) (tx : Tx) (userId : ℤ) : Except String (List UserRole) :=
  ((w.versionsOf userId).filter (· ∉ tx.deleted) ++ tx.inserted).mapM fun r =>
    UserRole.tryFrom r.roleId

/-- `DELETE` of the versions that it found; those that were deleted meanwhile are passed over, and
it waits for those that another transaction is about to delete. -/
def deleteRows (w : World) (i : ℕ) (found : List RoleVersion) :
    Option (World × List RoleVersion) :=
  let present := found.filter (· ∈ w.userRoles)
  (w.acquireAll i (present.map fun r => .userRole r.userId r.roleId)).map fun w => (w, present)

/-- `INSERT`; it waits for transactions that write the same keys, and breaks the primary key when
rows with these keys are left. -/
def insertRows (w : World) (i : ℕ) (tx : Tx) (userId : ℤ) (roleIds : List ℤ) :
    Option (World × Option (List RoleVersion)) :=
  (w.acquireAll i (roleIds.map fun roleId => .userRole userId roleId)).map fun w =>
    if roleIds.Nodup ∧ ∀ r ∈ w.versionsOf userId, r.roleId ∈ roleIds → r ∈ tx.deleted then
      ({ w with nextVersion := w.nextVersion + roleIds.length },
        some (roleIds.mapIdx fun k roleId => ⟨w.nextVersion + k, userId, roleId⟩))
    else (w, none)

def commit (w : World) (tx : Tx) : World :=
  { w with
    users := tx.user.elim w.users fun u => Function.update w.users u.1 (some u.2)
    userRoles := w.userRoles.filter (· ∉ tx.deleted) ++ tx.inserted }

end World

def Tx.empty : Tx := ⟨none, [], []⟩

def rollback (i : ℕ) (w : World) (e : Error) : World × Call × List Event :=
  (w.release i, .done (.failed e), [])

def statement (i : ℕ) (w : World) : Call → Option (World × Call × List Event)
  | .idle | .createImage .. | .done _ => none
  | .findUser field userId =>
    match w.users userId with
    | none => some (rollback i w .Unauthorized)
    | some columns => some (w, .findRoles field ⟨userId, columns, []⟩, [])
  | .findRoles field user =>
    match w.rolesSeen .empty user.id with
    | .error _ => some (rollback i w .Infra)
    | .ok roles =>
      if user.columns.emailVerified then
        some (w, .createImage field { user with roles := roles }, [])
      else some (rollback i w .Unauthorized)
  -- every column is written, from the user that was loaded with the request
  | .updateUser field user =>
    (w.acquire i (.user user.id)).map fun w =>
      if (w.users user.id).isNone then rollback i w .Infra
      else (w, .deleteRoles field user ⟨some (user.id, user.columns), [], []⟩, [])
  | .deleteRoles field user tx => some (w, .awaitRoles field user tx (w.versionsOf user.id), [])
  | .awaitRoles field user tx found =>
    (w.deleteRows i found).map fun (w, deleted) =>
      (w, .insertRoles field user { tx with deleted := deleted }, [])
  | .insertRoles field user tx =>
    -- an insertion of no rows is an error
    if user.roles.isEmpty then some (rollback i w .Infra)
    else
      (w.insertRows i tx user.id (user.roles.map UserRole.id)).map fun
        | (w, none) => rollback i w .Infra
        | (w, some inserted) => (w, .commitUpload field user { tx with inserted := inserted }, [])
  | .commitUpload field user tx =>
    some ((w.commit tx).release i, .done (.uploaded user),
      [.uploaded user.id field (field.get user.columns)])
  -- roles are set in a transaction of their own
  | .findTarget userId roles =>
    match w.users userId with
    | none => some (rollback i w .NotFound)
    | some _ => some (w, .findOldRoles userId roles, [])
  | .findOldRoles userId roles =>
    match w.rolesSeen .empty userId with
    | .error _ => some (rollback i w .Infra)
    | .ok _ => some (w, .deleteEditable userId roles, [])
  | .deleteEditable userId roles =>
    some (w, .awaitEditable userId roles
      ((w.versionsOf userId).filter (·.roleId ∈ EditableUserRole.allRoleIds)), [])
  | .awaitEditable userId roles found =>
    (w.deleteRows i found).map fun (w, deleted) =>
      (w, .insertEditable userId roles ⟨none, deleted, []⟩, [])
  | .insertEditable userId roles tx =>
    if (EditableUserRole.roleIds roles).isEmpty then some (w, .findNewRoles userId roles tx, [])
    else
      (w.insertRows i tx userId (EditableUserRole.roleIds roles)).map fun
        | (w, none) => rollback i w .Infra
        | (w, some inserted) => (w, .findNewRoles userId roles { tx with inserted := inserted }, [])
  | .findNewRoles userId roles tx =>
    match w.rolesSeen tx userId with
    | .error _ => some (rollback i w .Infra)
    | .ok newRoles => some (w, .commitRoles userId roles tx newRoles, [])
  | .commitRoles userId roles tx newRoles =>
    some ((w.commit tx).release i, .done (.rolesSet newRoles), [.rolesSet userId roles])
  -- the end of a password reset
  | .findVerified userId passwordHash =>
    match w.users userId with
    | none => some (rollback i w .Unauthorized)
    | some columns =>
      if columns.emailVerified then some (w, .setPassword userId passwordHash, [])
      else some (rollback i w .Unauthorized)
  -- one column of the row as it is by then, and at once committed
  | .setPassword userId passwordHash =>
    (w.acquire i (.user userId)).map fun w =>
      match w.users userId with
      | none => rollback i w .Infra
      | some columns =>
        (({ w with
          users := Function.update w.users userId
            (some { columns with password := passwordHash }) }).release i, .done .passwordSet,
          [.passwordSet userId passwordHash])

def fails (i : ℕ) (w : World) : Call → Option (World × Call × List Event)
  | .idle | .done _ => none
  | _ => some (rollback i w .Infra)

/-- Any number of calls for any users, each one transaction under `READ COMMITTED`, cut at its
statements. -/
def system : System World Call Input Empty Event where
  exec i a w c :=
    match a with
    | .ok => statement i w c
    | .fail => fails i w c
    | .image imageId =>
      match c with
      | .createImage field user =>
        if field.get user.columns = some imageId then
          some (w.release i, .done (.unchanged user), [])
        else
          some (w, .updateUser field { user with columns := field.set user.columns imageId }, [])
      | _ => none
    | .upload field userId =>
      match c with
      | .idle => some (w, .findUser field userId, [])
      | _ => none
    | .setUserRoles userId roles =>
      match c with
      | .idle => some (w, .findTarget userId roles, [])
      | _ => none
    | .resetPassword userId passwordHash =>
      match c with
      | .idle => some (w, .findVerified userId passwordHash, [])
      | _ => none
  env b _ := b.elim

abbrev Config := Interleaving.Config World Call Event

def initial (w : World) : Config := ⟨w, fun _ => .idle, []⟩

end Thcdb.Users
