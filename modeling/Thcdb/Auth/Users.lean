import Mathlib.Data.Int.Notation
import Mathlib.Data.List.Basic

namespace Thcdb.Auth

/-- Instants and durations are nanoseconds; the one clock counts them from the epoch. -/
def seconds (n : ℕ) : ℕ := n * 1000000000

def minutes (n : ℕ) : ℕ := seconds (60 * n)

def hours (n : ℕ) : ℕ := minutes (60 * n)

/-- `i32` keys of the user table. -/
abbrev UserId := ℤ

/-- The columns of a user row that the auth flows read or write. -/
structure UserRow where
  id : UserId
  name : String
  email : String
  emailVerified : Bool
  password : String
  createdAt : ℕ
  deriving DecidableEq, Repr

/-- What the auth code takes from the standard library, from crates and from SQL. -/
structure Crates where
  /-- `str::to_lowercase` -/
  toLowercase : String → String
  /-- garde's `email` rule -/
  validEmail : String → Bool
  /-- SQL `lower` -/
  lower : String → String
  /-- `USER_NAME_REGEX_STR` -/
  userNameRegex : String → Bool
  /-- `USER_PASSWORD_REGEX_STR` -/
  passwordRegex : String → Bool
  isControl : Char → Bool
  isWhitespace : Char → Bool
  /-- the score of `zxcvbn`, 0 to 4 -/
  zxcvbn : String → ℕ
  /-- `secret::hash` under the n-th salt drawn -/
  hash : ℕ → String → String
  /-- `secret::verify`; `none` is its error on a text that is no hash -/
  verify : String → String → Option Bool
  /-- Argon2's text carries the salt, and `SaltString::generate` draws no salt twice. -/
  hash_salt : ∀ {m n s t}, hash m s = hash n t → m = n

/-- Crates that are small enough to run by hand: lower-case addresses, strong passwords, and
hashes that spell out their salt and their text. -/
def Crates.plain : Crates where
  toLowercase := id
  validEmail _ := true
  lower := id
  userNameRegex _ := true
  passwordRegex _ := true
  isControl _ := false
  isWhitespace _ := false
  zxcvbn _ := 4
  hash n s := String.ofList (List.replicate n '0' ++ '$' :: s.toList)
  verify h s := some (decide ((h.toList.dropWhile (· = '0')).drop 1 = s.toList))
  hash_salt := by
    intro m n s t h
    have hsalt : ∀ k l, ((List.replicate k '0' ++ '$' :: l).takeWhile (· = '0')).length = k := by
      intro k l
      rw [List.takeWhile_append_of_pos (by simp), List.takeWhile_cons_of_neg (by decide)]
      simp
    rw [← hsalt m s.toList, String.ofList_injective h, hsalt]

variable (X : Crates)

/-- `Email::parse`: the lower-cased address, if garde accepts it. -/
def Crates.parseEmail (input : String) : Option String :=
  let email := X.toLowercase input
  if X.validEmail email then some email else none

inductive ValidateCredsErrorKind
  | InvalidUserName | PasswordTooShort | PasswordTooLong | PasswordInvalidCharacters
  | PasswordTooWeak
  deriving DecidableEq, Repr

def userPasswordMinLength : ℕ := 8

def userPasswordMaxLength : ℕ := 64

def Crates.validateUsername (username : String) : Except ValidateCredsErrorKind Unit :=
  if X.userNameRegex username &&
      !username.toList.any (fun c => X.isControl c || X.isWhitespace c) then
    .ok ()
  else .error .InvalidUserName

def Crates.validatePassword (password : String) : Except ValidateCredsErrorKind Unit :=
  if password.length < userPasswordMinLength then .error .PasswordTooShort
  else if password.length > userPasswordMaxLength then .error .PasswordTooLong
  else if password.toList.any (fun c => X.isControl c || X.isWhitespace c) then
    .error .PasswordInvalidCharacters
  else if !X.passwordRegex password then .error .PasswordInvalidCharacters
  else if X.zxcvbn password = 3 ∨ X.zxcvbn password = 4 then .ok ()
  else .error .PasswordTooWeak

section Table

variable (users : List UserRow)

def findById (id : UserId) : Option UserRow := users.find? (·.id = id)

def findByName (name : String) : Option UserRow := users.find? (·.name = name)

/-- `SELECT .. WHERE lower(email) = $1` -/
def findByEmail (email : String) : Option UserRow := users.find? (X.lower ·.email = email)

/-- `UPDATE .. WHERE id = $1`; with no such row, SeaORM's `RecordNotUpdated`. -/
def updateById (id : UserId) (f : UserRow → UserRow) : Option (List UserRow) :=
  if (findById users id).isSome then
    some (users.map fun r => if r.id = id then f r else r)
  else none

variable {users}

theorem findById_id {id : UserId} {r : UserRow} (h : findById users id = some r) : r.id = id := by
  simpa using List.find?_some h

theorem findById_mem {id : UserId} {r : UserRow} (h : findById users id = some r) : r ∈ users :=
  List.mem_of_find?_eq_some h

theorem findByEmail_mem {X : Crates} {email : String} {r : UserRow}
    (h : findByEmail X users email = some r) : r ∈ users :=
  List.mem_of_find?_eq_some h

end Table

def setPassword (users : List UserRow) (id : UserId) (passwordHash : String) :
    Option (List UserRow) :=
  updateById users id fun r => { r with password := passwordHash }

end Thcdb.Auth
