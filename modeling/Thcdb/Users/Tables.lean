import Thcdb.Json.Value
import Thcdb.Relational.Join
import Thcdb.Relational.Ordered

namespace Thcdb.Users
open Relational

inductive UserRoleEnum
  | Admin
  | Moderator
  | User
  deriving DecidableEq, Repr

namespace UserRoleEnum

def asId : UserRoleEnum → ℤ
  | .Admin => 1
  | .Moderator => 2
  | .User => 3

def display : UserRoleEnum → String
  | .Admin => "Admin"
  | .Moderator => "Moderator"
  | .User => "User"

def tryFrom (roleId : ℤ) : Except String UserRoleEnum :=
  if roleId = 1 then .ok .Admin
  else if roleId = 2 then .ok .Moderator
  else if roleId = 3 then .ok .User
  else .error "Invalid user role id from database"

def Known (roleId : ℤ) : Prop := roleId = 1 ∨ roleId = 2 ∨ roleId = 3

instance (roleId : ℤ) : Decidable (Known roleId) := inferInstanceAs (Decidable (_ ∨ _ ∨ _))

theorem tryFrom_asId (role : UserRoleEnum) : tryFrom role.asId = .ok role := by
  cases role <;> rfl

theorem asId_of_tryFrom {roleId : ℤ} {role : UserRoleEnum} (h : tryFrom roleId = .ok role) :
    role.asId = roleId := by
  unfold tryFrom at h
  split_ifs at h <;> cases h <;> simp_all [asId]

theorem known_iff {roleId : ℤ} : Known roleId ↔ ∃ role : UserRoleEnum, role.asId = roleId := by
  constructor
  · rintro (rfl | rfl | rfl)
    · exact ⟨.Admin, rfl⟩
    · exact ⟨.Moderator, rfl⟩
    · exact ⟨.User, rfl⟩
  · rintro ⟨role, rfl⟩
    cases role <;> simp [Known, asId]

end UserRoleEnum

structure UserRole where
  id : ℤ
  name : String
  deriving DecidableEq, Repr

namespace UserRole

def ofEnum (role : UserRoleEnum) : UserRole := ⟨role.asId, role.display⟩

def tryFrom (roleId : ℤ) : Except String UserRole := (UserRoleEnum.tryFrom roleId).map ofEnum

end UserRole

/-- The columns of a user besides the identity; instants are nanoseconds. -/
structure UserColumns where
  name : String
  email : String
  emailVerified : Bool
  password : String
  avatarId : Option ℤ
  lastLogin : ℕ
  createdAt : ℕ
  profileBannerId : Option ℤ
  bio : Option String
  settings : Json.Value
  deriving DecidableEq

structure UserRoleRow where
  userId : ℤ
  roleId : ℤ
  deriving DecidableEq, Repr

/-- A role is given to a user once. -/
structure UserTables where
  user : Table UserColumns
  userRole : List UserRoleRow
  nodup : userRole.Nodup

namespace UserTables
variable (db : UserTables)

def rolesOf (userId : ℤ) : List ℤ := (db.userRole.filter (·.userId = userId)).map UserRoleRow.roleId

end UserTables

/-- The order in which one query returns the roles of each user. -/
structure Arrangement (db : UserTables) where
  roles : ℤ → List ℤ
  perm : ∀ userId, (roles userId).Perm (db.rolesOf userId)

def UserTables.plain (db : UserTables) : Arrangement db := ⟨db.rolesOf, fun _ => List.Perm.refl _⟩

end Thcdb.Users
