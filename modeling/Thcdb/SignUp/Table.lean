import Mathlib.Data.List.Nodup
import Thcdb.Auth.Users

namespace Thcdb.SignUp
open Auth

/-- The user table: ids are unique, and the identity column has handed out every one of them. -/
structure UserTable where
  rows : List UserRow
  nextId : ℤ
  unique : (rows.map (·.id)).Nodup
  below : ∀ r ∈ rows, (r.id : ℤ) < nextId

namespace UserTable

def empty : UserTable := ⟨[], 1, List.nodup_nil, by simp⟩

def find (t : UserTable) (id : UserId) : Option UserRow := findById t.rows id

/-- Rewrites rows under their ids. -/
def map (t : UserTable) (f : UserRow → UserRow) (hf : ∀ r, (f r).id = r.id) : UserTable where
  rows := t.rows.map f
  nextId := t.nextId
  unique := by
    have hids : (t.rows.map f).map (·.id) = t.rows.map (·.id) := by
      rw [List.map_map]
      exact List.map_congr_left fun r _ => hf r
    rw [hids]
    exact t.unique
  below := by
    intro r hr
    obtain ⟨s, hs, rfl⟩ := List.mem_map.mp hr
    rw [hf]
    exact t.below s hs

def filter (t : UserTable) (p : UserRow → Bool) : UserTable where
  rows := t.rows.filter p
  nextId := t.nextId
  unique := t.unique.sublist (List.filter_sublist.map _)
  below r hr := t.below r (List.mem_of_mem_filter hr)

/-- The identity column moves on, also for an `INSERT` that fails. -/
def skip (t : UserTable) : UserTable where
  rows := t.rows
  nextId := t.nextId + 1
  unique := t.unique
  below r hr := Int.lt_trans (t.below r hr) (Int.lt_succ t.nextId)

def insert (t : UserTable) (row : UserRow) : UserTable where
  rows := t.rows ++ [{ row with id := t.nextId }]
  nextId := t.nextId + 1
  unique := by
    rw [List.map_append, List.nodup_append]
    refine ⟨t.unique, List.nodup_singleton _, ?_⟩
    intro a ha b hb
    obtain ⟨r, hr, rfl⟩ := List.mem_map.mp ha
    have hlt := t.below r hr
    have hb' : (b : ℤ) = t.nextId := by simpa using hb
    exact fun h => Int.ne_of_lt hlt (h.trans hb')
  below := by
    intro r hr
    rcases List.mem_append.mp hr with hold | hnew
    · exact Int.lt_trans (t.below r hold) (Int.lt_succ t.nextId)
    · rw [List.mem_singleton.mp hnew]
      exact Int.lt_succ t.nextId

variable {t : UserTable} {u : ℤ} {r : UserRow}

theorem find_id (h : t.find u = some r) : r.id = u := findById_id h

theorem find_mem (h : t.find u = some r) : r ∈ t.rows := findById_mem h

theorem find_lt (h : t.find u = some r) : u < t.nextId := by
  rw [← find_id h]
  exact t.below r (find_mem h)

theorem find_eq_some : t.find u = some r ↔ r ∈ t.rows ∧ r.id = u := by
  constructor
  · exact fun h => ⟨find_mem h, find_id h⟩
  · rintro ⟨hr, rfl⟩
    cases hf : t.find r.id with
    | none =>
      have hno := List.find?_eq_none.mp hf r hr
      simp at hno
    | some s =>
      have heq := List.inj_on_of_nodup_map t.unique (find_mem hf) hr (find_id hf)
      rw [heq]

theorem find_map {f : UserRow → UserRow} {hf : ∀ r, (f r).id = r.id} :
    (t.map f hf).find u = (t.find u).map f := by
  unfold find findById map
  rw [List.find?_map]
  congr 2
  funext r
  simp [hf]

theorem find_filter {p : UserRow → Bool} :
    (t.filter p).find u = some r ↔ t.find u = some r ∧ p r := by
  rw [find_eq_some, find_eq_some]
  simp only [filter, List.mem_filter]
  tauto

theorem find_insert {row : UserRow} (h : u < t.nextId) : (t.insert row).find u = t.find u := by
  have hne : ¬ t.nextId = u := by omega
  unfold find findById insert
  rw [List.find?_append]
  simp [hne]

end UserTable

def verificationCodeExpiresMinutes : ℕ := 10

def verificationCodeResendCooldownSeconds : ℕ := 60

def signupExpiresHours : ℕ := 24

def verificationCodeMaxFailedAttempts : ℕ := 10

/-- A row of `user_email_verification`, whose key is the user's id. -/
structure EmailVerification where
  hash : String
  expiresAt : ℕ
  sentAt : ℕ
  failedAttempts : ℕ
  deriving DecidableEq, Repr

def EmailVerification.inResendCooldown (v : EmailVerification) (now : ℕ) : Bool :=
  now < v.sentAt + seconds verificationCodeResendCooldownSeconds

/-- A user row with the verification that `load_user` has read after it. -/
structure User where
  row : UserRow
  verification : Option EmailVerification
  deriving DecidableEq, Repr

def isUnverifiedSignupExpired (row : UserRow) (now : ℕ) : Bool :=
  !row.emailVerified && row.createdAt + hours signupExpiresHours < now

/-- What `sign_up` has validated and hashed. -/
structure Signup where
  username : String
  email : String
  passwordHash : String
  deriving DecidableEq, Repr

structure Credentials where
  name : String
  password : String
  deriving DecidableEq, Repr

def creds (r : UserRow) : Credentials := ⟨r.name, r.password⟩

namespace UserTable

variable (X : Crates) (t : UserTable)

/-- `repo::create_user`, under the unique name and `lower(email)`. -/
def createUser (s : Signup) (createdAt : ℕ) : Option UserTable :=
  if t.rows.any fun r => r.name = s.username ∨ X.lower r.email = X.lower s.email then none
  else some (t.insert ⟨t.nextId, s.username, s.email, false, s.passwordHash, createdAt⟩)

/-- `UPDATE .. SET name, password WHERE id`, under the unique name; with no such row, SeaORM's
`RecordNotUpdated`. -/
def updateCreds (s : Signup) (userId : UserId) : Option UserTable :=
  if (t.find userId).isNone ∨ t.rows.any fun r => r.id ≠ userId ∧ r.name = s.username then none
  else
    some (t.map (fun r =>
      if r.id = userId then { r with name := s.username, password := s.passwordHash } else r)
      (fun r => by split <;> rfl))

def setEmailVerified (userId : UserId) : UserTable :=
  t.map (fun r => if r.id = userId then { r with emailVerified := true } else r)
    (fun r => by split <;> rfl)

end UserTable

end Thcdb.SignUp
