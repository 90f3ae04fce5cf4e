import Mathlib.Logic.Function.Basic
import Thcdb.Interleaving.System
import Thcdb.SignUp.Table

namespace Thcdb.SignUp
open Auth Interleaving

inductive Error
  | InvalidEmail | UsernameAlreadyInUse | EmailServiceUnavailable | InvalidOrExpiredCode
  | TooManyAttempts | Infra
  | Validate (kind : ValidateCredsErrorKind)
  deriving DecidableEq, Repr

inductive Outcome
  | signedUp
  | resent
  | verified (userId : UserId)
  | cleaned
  | failed (e : Error)
  deriving DecidableEq, Repr

structure World where
  clock : ℕ
  users : UserTable
  verifications : UserId → Option EmailVerification
  /-- salts drawn by `secret::hash` so far -/
  salts : ℕ

/-- Who called `create_and_send_email_verification`: a sign-up that has inserted its row, one that
has overwritten a pending row, or a resend. -/
inductive Sender
  | created | overwritten | resend
  deriving DecidableEq, Repr

inductive VerificationEmailSendFailure
  | Unavailable | InvalidRecipient
  deriving DecidableEq, Repr

def VerificationEmailSendFailure.error : VerificationEmailSendFailure → Error
  | .Unavailable => .EmailServiceUnavailable
  | .InvalidRecipient => .InvalidEmail

/-- How the caller of `delete_user` goes on. -/
inductive AfterDelete
  | signUp (s : Signup)
  | username (s : Signup) (allowUserId : Option UserId)
  | verify
  | resend
  deriving DecidableEq, Repr

/-- Where a call stands, with the locals it still needs. What `load_user` adds to a row is read
where it is used. -/
inductive Call
  | idle
  | findExisting (s : Signup)
  | checkExisting (s : Signup) (existing : UserRow)
  | findName (s : Signup) (allowUserId : Option UserId)
  | checkName (s : Signup) (allowUserId : Option UserId) (existing : UserRow)
  | findDeletable (userId : UserId) (next : AfterDelete)
  | delete (userId : UserId) (next : AfterDelete)
  | updateCreds (s : Signup) (userId : UserId)
  | findUpdated (userId : UserId)
  | loadUpdated (row : UserRow)
  | beginCreate (s : Signup)
  | createUser (s : Signup) (startedAt : ℕ)
  | cooldown (sender : Sender) (user : User)
  | generate (sender : Sender) (row : UserRow)
  | setVerification (sender : Sender) (row : UserRow) (code codeHash : String) (now : ℕ)
  | findStored (sender : Sender) (row : UserRow) (code codeHash : String)
  | send (sender : Sender) (row : UserRow) (code codeHash : String)
  | clear (userId : UserId) (codeHash : String) (failure : VerificationEmailSendFailure)
  | verifyFind (email code : String)
  | verifyLoad (row : UserRow) (code : String)
  | verifySignup (user : User) (code : String)
  | verifyCode (userId : UserId) (verification : EmailVerification) (code : String)
  | increment (userId : UserId) (checked : String)
  | setVerified (userId : UserId) (code checked : String)
  | resendFind (email : String)
  | resendLoad (row : UserRow)
  | resendSignup (user : User)
  | cleanupFind (cutoff : ℕ)
  | cleanupDelete (userIds : List UserId)
  | done (outcome : Outcome)
  deriving DecidableEq

/-- `ok` runs the next statement, `fail` lets it report an error, `unsent` is the mailer's, `code` is
what `VerificationCode::new` draws; the others begin a request or the job. -/
inductive Input
  | signUp (username email password : String)
  | verifyEmail (email code : String)
  | resendVerificationEmail (email : String)
  | cleanup
  | code (code : String)
  | unsent (failure : VerificationEmailSendFailure)
  | ok
  | fail

inductive Env
  | tick (d : ℕ)

inductive Event
  /-- a code was generated while the row held these credentials -/
  | generated (i : ℕ) (userId : UserId) (code codeHash : String) (held : Option Credentials)
  /-- it became the stored one -/
  | stored (i : ℕ) (userId : UserId) (codeHash : String)
  /-- and was mailed while the row held these -/
  | mailed (i : ℕ) (userId : UserId) (code : String) (held : Option Credentials)
  /-- a submission was compared with the code -/
  | evaluated (i : ℕ) (userId : UserId) (checked : String) (accepted : Bool)
  /-- the attempts of the stored code went up for a submission compared with `checked` -/
  | charged (i : ℕ) (userId : UserId) (checked storedHash : String)
  /-- the address was verified by a code compared with `checked` -/
  | verified (i : ℕ) (userId : UserId) (code checked : String) (storedHash : Option String)
      (held : Credentials)
  deriving DecidableEq, Repr

def World.held (w : World) (userId : UserId) : Option Credentials := (w.users.find userId).map creds

section

variable (X : Crates)

def World.putVerification (w : World) (userId : UserId) (v : Option EmailVerification) : World :=
  { w with verifications := Function.update w.verifications userId v }

/-- `DELETE`; the verification rows go with their users. -/
def World.deleteUsers (w : World) (p : UserRow → Bool) : World :=
  { w with
    users := w.users.filter fun r => !p r
    verifications := fun u => if (w.users.find u).any p then none else w.verifications u }

def start (w : World) : Input → Option (World × Call × List Event)
  | .signUp username email password =>
    match X.parseEmail email with
    | none => some (w, .done (.failed .InvalidEmail), [])
    | some email =>
      match X.validateUsername username, X.validatePassword password with
      | .error kind, _ | .ok (), .error kind => some (w, .done (.failed (.Validate kind)), [])
      | .ok (), .ok () =>
        some ({ w with salts := w.salts + 1 },
          .findExisting ⟨username, email, X.hash w.salts password⟩, [])
  | .verifyEmail email code =>
    match X.parseEmail email with
    | none => some (w, .done (.failed .InvalidEmail), [])
    | some email => some (w, .verifyFind email code, [])
  | .resendVerificationEmail email =>
    match X.parseEmail email with
    | none => some (w, .done (.failed .InvalidEmail), [])
    | some email => some (w, .resendFind email, [])
  | .cleanup => some (w, .cleanupFind (w.clock - hours 24), [])
  | .code _ | .unsent _ | .ok | .fail => none

def Sender.done : Sender → Call
  | .created | .overwritten => .done .signedUp
  | .resend => .done .resent

/-- `sign_up` after `ensure_signup_username_available`. -/
def usernameAvailable (s : Signup) : Option UserId → Call
  | none => .beginCreate s
  | some userId => .updateCreds s userId

def AfterDelete.call : AfterDelete → Call
  | .signUp s => .findName s none
  | .username s allowUserId => usernameAvailable s allowUserId
  | .verify => .done (.failed .InvalidOrExpiredCode)
  | .resend => .done .resent

/-- A failed clearing is only logged; any other failure ends the call. -/
def Call.fail : Call → Option Call
  | .clear _ _ failure => some (.done (.failed failure.error))
  | .cleanupFind .. | .cleanupDelete .. => some (.done .cleaned)
  | .idle | .checkExisting .. | .checkName .. | .cooldown .. | .send .. | .verifySignup ..
  | .resendSignup .. | .done _ => none
  | _ => some (.done (.failed .Infra))

/-- The code is drawn, hashed and, in the log, tied to the credentials of the moment. -/
def generate (i : ℕ) (w : World) (sender : Sender) (row : UserRow) (code : String) :
    World × Call × List Event :=
  let codeHash := X.hash w.salts code
  ({ w with salts := w.salts + 1 }, .setVerification sender row code codeHash w.clock,
    [.generated i row.id code codeHash (w.held row.id)])

def statement (i : ℕ) (w : World) : Call → Option (World × Call × List Event)
  | .idle | .generate .. | .done _ => none
  | .findExisting s =>
    match findByEmail X w.users.rows s.email with
    | none => some (w, .findName s none, [])
    | some existing =>
      if existing.emailVerified then some (w, .done .signedUp, [])
      else some (w, .checkExisting s existing, [])
  -- an unverified account of the address is deleted if it has expired, and overwritten else
  | .checkExisting s existing =>
    if isUnverifiedSignupExpired existing w.clock then
      some (w, .findDeletable existing.id (.signUp s), [])
    else some (w, .findName s (some existing.id), [])
  | .findName s allowUserId =>
    match findByName w.users.rows s.username with
    | none => some (w, usernameAvailable s allowUserId, [])
    | some existing =>
      if allowUserId = some existing.id then some (w, usernameAvailable s allowUserId, [])
      else if existing.emailVerified then some (w, .done (.failed .UsernameAlreadyInUse), [])
      else some (w, .checkName s allowUserId existing, [])
  | .checkName s allowUserId existing =>
    if isUnverifiedSignupExpired existing w.clock then
      some (w, .findDeletable existing.id (.username s allowUserId), [])
    else some (w, .done (.failed .UsernameAlreadyInUse), [])
  | .findDeletable userId next =>
    if (w.users.find userId).any (!·.emailVerified) then some (w, .delete userId next, [])
    else some (w, next.call, [])
  -- the condition is part of the statement, so that an account verified meanwhile is kept
  | .delete userId next =>
    some (w.deleteUsers fun r => r.id = userId ∧ !r.emailVerified, next.call, [])
  | .updateCreds s userId =>
    match w.users.updateCreds s userId with
    | none => some (w, .done (.failed .Infra), [])
    | some users => some ({ w with users := users }, .findUpdated userId, [])
  | .findUpdated userId =>
    match w.users.find userId with
    | none => some (w, .done (.failed .Infra), [])
    | some row => some (w, .loadUpdated row, [])
  | .loadUpdated row => some (w, .cooldown .overwritten ⟨row, w.verifications row.id⟩, [])
  | .beginCreate s => some (w, .createUser s w.clock, [])
  | .createUser s startedAt =>
    match w.users.createUser X s startedAt with
    | none => some ({ w with users := w.users.skip }, .done (.failed .UsernameAlreadyInUse), [])
    | some users =>
      let row : UserRow := ⟨w.users.nextId, s.username, s.email, false, s.passwordHash, startedAt⟩
      some ({ w with users := users }, .cooldown .created ⟨row, none⟩, [])
  | .cooldown sender user =>
    if user.verification.any (·.inResendCooldown w.clock) then some (w, sender.done, [])
    else some (w, .generate sender user.row, [])
  | .setVerification sender row code codeHash now =>
    let v : EmailVerification :=
      ⟨codeHash, now + minutes verificationCodeExpiresMinutes, now, 0⟩
    -- the key refers to the user table
    if (w.users.find row.id).isSome then
      some (w.putVerification row.id (some v), .findStored sender row code codeHash,
        [.stored i row.id codeHash])
    else some (w, .done (.failed .Infra), [])
  | .findStored sender row code codeHash =>
    match w.users.find row.id with
    | none => some (w, .done (.failed .Infra), [])
    | some _ => some (w, .send sender row code codeHash, [])
  | .send sender row code _ => some (w, sender.done, [.mailed i row.id code (w.held row.id)])
  -- only the code of this call is taken back
  | .clear userId codeHash failure =>
    if (w.verifications userId).any (·.hash = codeHash) then
      some (w.putVerification userId none, .done (.failed failure.error), [])
    else some (w, .done (.failed failure.error), [])
  | .verifyFind email code =>
    match (findByEmail X w.users.rows email).filter (!·.emailVerified) with
    | none => some (w, .done (.failed .InvalidOrExpiredCode), [])
    | some row => some (w, .verifyLoad row code, [])
  | .verifyLoad row code => some (w, .verifySignup ⟨row, w.verifications row.id⟩ code, [])
  | .verifySignup user code =>
    if isUnverifiedSignupExpired user.row w.clock then
      some (w, .findDeletable user.row.id .verify, [])
    else
      match user.verification with
      | none => some (w, .done (.failed .InvalidOrExpiredCode), [])
      | some v =>
        if v.failedAttempts ≥ verificationCodeMaxFailedAttempts then
          some (w, .done (.failed .TooManyAttempts), [])
        else some (w, .verifyCode user.row.id v code, [])
  | .verifyCode userId v code =>
    if w.clock > v.expiresAt then some (w, .done (.failed .InvalidOrExpiredCode), [])
    else
      match X.verify v.hash code with
      | none => some (w, .done (.failed .Infra), [])
      | some false => some (w, .increment userId v.hash, [.evaluated i userId v.hash false])
      | some true => some (w, .setVerified userId code v.hash, [.evaluated i userId v.hash true])
  -- the counter of whatever code is stored by now
  | .increment userId checked =>
    match w.verifications userId with
    | none => some (w, .done (.failed .Infra), [])
    | some v =>
      let v' := { v with failedAttempts := v.failedAttempts + 1 }
      some (w.putVerification userId (some v'), .done (.failed .InvalidOrExpiredCode),
        [.charged i userId checked v.hash])
  -- the code is not compared again, and whatever code is stored goes
  | .setVerified userId code checked =>
    match w.users.find userId with
    | none => some (w, .done (.failed .Infra), [])
    | some row =>
      let w' := { w with users := w.users.setEmailVerified userId }
      some (w'.putVerification userId none, .done (.verified userId),
        [.verified i userId code checked ((w.verifications userId).map (·.hash)) (creds row)])
  | .resendFind email =>
    match (findByEmail X w.users.rows email).filter (!·.emailVerified) with
    | none => some (w, .done .resent, [])
    | some row => some (w, .resendLoad row, [])
  | .resendLoad row => some (w, .resendSignup ⟨row, w.verifications row.id⟩, [])
  | .resendSignup user =>
    if isUnverifiedSignupExpired user.row w.clock then
      some (w, .findDeletable user.row.id .resend, [])
    else some (w, .cooldown .resend user, [])
  | .cleanupFind cutoff =>
    match (w.users.rows.filter fun r => !r.emailVerified && r.createdAt < cutoff).map (·.id) with
    | [] => some (w, .done .cleaned, [])
    | userIds => some (w, .cleanupDelete userIds, [])
  -- without the condition: an account verified meanwhile is deleted
  | .cleanupDelete userIds =>
    some (w.deleteUsers fun r => userIds.contains r.id, .done .cleaned, [])

def system : System World Call Input Env Event where
  exec i a w c :=
    match a with
    | .ok => statement X i w c
    | .fail => c.fail.map fun c' => (w, c', [])
    | .code code =>
      match c with
      | .generate sender row => some (generate X i w sender row code)
      | _ => none
    | .unsent failure =>
      match c with
      | .send _ row _ codeHash => some (w, .clear row.id codeHash failure, [])
      | _ => none
    | a =>
      match c with
      | .idle => start X w a
      | _ => none
  env b w :=
    match b with
    | .tick d => some { w with clock := w.clock + d }

def Call.user : Call → Option UserId
  | .loadUpdated row | .generate _ row | .setVerification _ row .. | .findStored _ row ..
  | .send _ row .. | .verifyLoad row _ | .resendLoad row => some row.id
  | .cooldown _ user | .verifySignup user _ | .resendSignup user => some user.row.id
  | .clear userId .. | .verifyCode userId .. | .increment userId _ | .setVerified userId .. =>
    some userId
  | _ => none

/-- What one statement can do: write a table, log, or move a call on to an account. -/
inductive Step (i : ℕ) (w : World) : Input → Call → World → Call → List Event → Prop
  | other {a : Input} {c c' : Call} (n : ℕ) (hn : w.salts ≤ n) (h : c'.user = none) :
    Step i w a c { w with salts := n } c' []
  | updateCreds (s : Signup) (u : UserId) (users : UserTable)
      (h : w.users.updateCreds s u = some users) :
    Step i w .ok (.updateCreds s u) { w with users := users } (.findUpdated u) []
  | findUpdated (u : UserId) (row : UserRow) (h : w.users.find u = some row) :
    Step i w .ok (.findUpdated u) w (.loadUpdated row) []
  | loadUpdated (row : UserRow) :
    Step i w .ok (.loadUpdated row) w (.cooldown .overwritten ⟨row, w.verifications row.id⟩) []
  | skip (s : Signup) (t : ℕ) (e : Error) :
    Step i w .ok (.createUser s t) { w with users := w.users.skip } (.done (.failed e)) []
  | createUser (s : Signup) (t : ℕ) (users : UserTable)
      (h : w.users.createUser X s t = some users) :
    Step i w .ok (.createUser s t) { w with users := users }
      (.cooldown .created ⟨⟨w.users.nextId, s.username, s.email, false, s.passwordHash, t⟩, none⟩) []
  | delete (u : UserId) (next : AfterDelete) :
    Step i w .ok (.delete u next) (w.deleteUsers fun r => r.id = u ∧ !r.emailVerified) next.call []
  | cooldown (sender : Sender) (user : User)
      (h : user.verification.any (·.inResendCooldown w.clock) = false) :
    Step i w .ok (.cooldown sender user) w (.generate sender user.row) []
  | generate (sender : Sender) (row : UserRow) (code : String) :
    Step i w (.code code) (.generate sender row) { w with salts := w.salts + 1 }
      (.setVerification sender row code (X.hash w.salts code) w.clock)
      [.generated i row.id code (X.hash w.salts code) (w.held row.id)]
  | setVerification (sender : Sender) (row : UserRow) (code codeHash : String) (now : ℕ)
      (h : (w.users.find row.id).isSome) :
    Step i w .ok (.setVerification sender row code codeHash now)
      (w.putVerification row.id
        (some ⟨codeHash, now + minutes verificationCodeExpiresMinutes, now, 0⟩))
      (.findStored sender row code codeHash) [.stored i row.id codeHash]
  | findStored (sender : Sender) (row : UserRow) (code codeHash : String) :
    Step i w .ok (.findStored sender row code codeHash) w (.send sender row code codeHash) []
  | send (sender : Sender) (row : UserRow) (code codeHash : String) :
    Step i w .ok (.send sender row code codeHash) w sender.done
      [.mailed i row.id code (w.held row.id)]
  | unsent (sender : Sender) (row : UserRow) (code codeHash : String)
      (failure : VerificationEmailSendFailure) :
    Step i w (.unsent failure) (.send sender row code codeHash) w
      (.clear row.id codeHash failure) []
  | clear (u : UserId) (codeHash : String) (failure : VerificationEmailSendFailure) (c' : Call)
      (h : (w.verifications u).any (·.hash = codeHash)) (hc : c'.user = none) :
    Step i w .ok (.clear u codeHash failure) (w.putVerification u none) c' []
  | verifyFind (email code : String) (row : UserRow) (h : row ∈ w.users.rows) :
    Step i w .ok (.verifyFind email code) w (.verifyLoad row code) []
  | verifyLoad (row : UserRow) (code : String) :
    Step i w .ok (.verifyLoad row code) w (.verifySignup ⟨row, w.verifications row.id⟩ code) []
  | verifySignup (row : UserRow) (v : EmailVerification) (code : String)
      (h : v.failedAttempts < verificationCodeMaxFailedAttempts) :
    Step i w .ok (.verifySignup ⟨row, some v⟩ code) w (.verifyCode row.id v code) []
  | rejected (u : UserId) (v : EmailVerification) (code : String) (hexp : w.clock ≤ v.expiresAt)
      (h : X.verify v.hash code = some false) :
    Step i w .ok (.verifyCode u v code) w (.increment u v.hash) [.evaluated i u v.hash false]
  | accepted (u : UserId) (v : EmailVerification) (code : String) (hexp : w.clock ≤ v.expiresAt)
      (h : X.verify v.hash code = some true) :
    Step i w .ok (.verifyCode u v code) w (.setVerified u code v.hash) [.evaluated i u v.hash true]
  | increment (u : UserId) (checked : String) (v : EmailVerification) (c' : Call)
      (h : w.verifications u = some v) (hc : c'.user = none) :
    Step i w .ok (.increment u checked)
      (w.putVerification u (some { v with failedAttempts := v.failedAttempts + 1 })) c'
      [.charged i u checked v.hash]
  | setVerified (u : UserId) (code checked : String) (row : UserRow)
      (h : w.users.find u = some row) :
    Step i w .ok (.setVerified u code checked)
      (World.putVerification { w with users := w.users.setEmailVerified u } u none)
      (.done (.verified u))
      [.verified i u code checked ((w.verifications u).map (·.hash)) (creds row)]
  | resendFind (email : String) (row : UserRow) (h : row ∈ w.users.rows) :
    Step i w .ok (.resendFind email) w (.resendLoad row) []
  | resendLoad (row : UserRow) :
    Step i w .ok (.resendLoad row) w (.resendSignup ⟨row, w.verifications row.id⟩) []
  | resendSignup (user : User) :
    Step i w .ok (.resendSignup user) w (.cooldown .resend user) []
  | cleanupDelete (userIds : List UserId) :
    Step i w .ok (.cleanupDelete userIds) (w.deleteUsers fun r => userIds.contains r.id)
      (.done .cleaned) []

variable {X} {i : ℕ} {a : Input} {w w' : World} {c c' : Call} {es : List Event}

@[simp] theorem Sender.done_user (sender : Sender) : sender.done.user = none := by
  cases sender <;> rfl

@[simp] theorem usernameAvailable_user (s : Signup) (u : Option UserId) :
    (usernameAvailable s u).user = none := by
  cases u <;> rfl

@[simp] theorem AfterDelete.call_user (next : AfterDelete) : next.call.user = none := by
  cases next with
  | signUp | verify | resend => rfl
  | username s u => exact usernameAvailable_user s u

theorem Step.keep {a : Input} {c c' : Call} (h : c'.user = none) : Step X i w a c w c' [] :=
  .other w.salts (Nat.le_refl _) h

theorem Call.fail_user (h : c.fail = some c') : c'.user = none := by
  cases c with
  | idle | checkExisting | checkName | cooldown | send | verifySignup | resendSignup | done => cases h
  | _ =>
    obtain rfl := Option.some.inj h
    rfl

theorem start_step {r : World × Call × List Event} (h : start X w a = some r) :
    Step X i w a c r.1 r.2.1 r.2.2 := by
  cases a with
  | code | unsent | ok | fail => cases h
  | signUp username email password =>
    simp only [start] at h
    repeat' split at h
    all_goals
      obtain rfl := Option.some.inj h
      first | exact .keep rfl | exact .other _ (Nat.le_succ _) rfl
  | _ =>
    simp only [start] at h
    repeat' split at h
    all_goals
      obtain rfl := Option.some.inj h
      exact .keep rfl

theorem statement_step {r : World × Call × List Event} (h : statement X i w c = some r) :
    Step X i w .ok c r.1 r.2.1 r.2.2 := by
  cases c with
  | idle | generate | done => cases h
  | updateCreds s u =>
    simp only [statement] at h
    split at h
    · obtain rfl := Option.some.inj h
      exact .keep rfl
    · next users hu =>
      obtain rfl := Option.some.inj h
      exact .updateCreds s u users hu
  | findUpdated u =>
    simp only [statement] at h
    split at h
    · obtain rfl := Option.some.inj h
      exact .keep rfl
    · next row hrow =>
      obtain rfl := Option.some.inj h
      exact .findUpdated u row hrow
  | loadUpdated row =>
    obtain rfl := Option.some.inj h
    exact .loadUpdated row
  | createUser s t =>
    simp only [statement] at h
    split at h
    · obtain rfl := Option.some.inj h
      exact .skip s t .UsernameAlreadyInUse
    · next users hu =>
      obtain rfl := Option.some.inj h
      exact .createUser s t users hu
  | delete u next =>
    obtain rfl := Option.some.inj h
    simpa using Step.delete u next
  | cooldown sender user =>
    simp only [statement] at h
    split at h
    · obtain rfl := Option.some.inj h
      exact .keep sender.done_user
    · next hv =>
      obtain rfl := Option.some.inj h
      exact .cooldown sender user (by simpa using hv)
  | setVerification sender row code codeHash now =>
    simp only [statement] at h
    split at h
    · next hrow =>
      obtain rfl := Option.some.inj h
      exact .setVerification sender row code codeHash now hrow
    · obtain rfl := Option.some.inj h
      exact .keep rfl
  | findStored sender row code codeHash =>
    simp only [statement] at h
    split at h
    · obtain rfl := Option.some.inj h
      exact .keep rfl
    · obtain rfl := Option.some.inj h
      exact .findStored sender row code codeHash
  | send sender row code codeHash =>
    obtain rfl := Option.some.inj h
    exact .send sender row code codeHash
  | clear u codeHash failure =>
    simp only [statement] at h
    split at h
    · next hv =>
      obtain rfl := Option.some.inj h
      exact .clear u codeHash failure _ hv rfl
    · obtain rfl := Option.some.inj h
      exact .keep rfl
  | verifyFind email code =>
    simp only [statement] at h
    split at h
    · obtain rfl := Option.some.inj h
      exact .keep rfl
    · next row hrow =>
      obtain rfl := Option.some.inj h
      exact .verifyFind email code row (findByEmail_mem (Option.filter_eq_some_iff.mp hrow).1)
  | verifyLoad row code =>
    obtain rfl := Option.some.inj h
    exact .verifyLoad row code
  | verifySignup user code =>
    obtain ⟨row, verification⟩ := user
    simp only [statement] at h
    split at h
    · obtain rfl := Option.some.inj h
      exact .keep rfl
    · cases verification with
      | none =>
        obtain rfl := Option.some.inj h
        exact .keep rfl
      | some v =>
        dsimp only at h
        split at h
        · obtain rfl := Option.some.inj h
          exact .keep rfl
        · next hlt =>
          obtain rfl := Option.some.inj h
          exact .verifySignup row v code (by omega)
  | verifyCode u v code =>
    simp only [statement] at h
    split at h
    · obtain rfl := Option.some.inj h
      exact .keep rfl
    · next hexp =>
      split at h
      · obtain rfl := Option.some.inj h
        exact .keep rfl
      · next hv =>
        obtain rfl := Option.some.inj h
        exact .rejected u v code (by omega) hv
      · next hv =>
        obtain rfl := Option.some.inj h
        exact .accepted u v code (by omega) hv
  | increment u checked =>
    simp only [statement] at h
    split at h
    · obtain rfl := Option.some.inj h
      exact .keep rfl
    · next v hv =>
      obtain rfl := Option.some.inj h
      exact .increment u checked v _ hv rfl
  | setVerified u code checked =>
    simp only [statement] at h
    split at h
    · obtain rfl := Option.some.inj h
      exact .keep rfl
    · next row hrow =>
      obtain rfl := Option.some.inj h
      exact .setVerified u code checked row hrow
  | resendFind email =>
    simp only [statement] at h
    split at h
    · obtain rfl := Option.some.inj h
      exact .keep rfl
    · next row hrow =>
      obtain rfl := Option.some.inj h
      exact .resendFind email row (findByEmail_mem (Option.filter_eq_some_iff.mp hrow).1)
  | resendLoad row =>
    obtain rfl := Option.some.inj h
    exact .resendLoad row
  | resendSignup user =>
    simp only [statement] at h
    split at h
    · obtain rfl := Option.some.inj h
      exact .keep rfl
    · obtain rfl := Option.some.inj h
      exact .resendSignup user
  | cleanupDelete userIds =>
    obtain rfl := Option.some.inj h
    simpa using Step.cleanupDelete userIds
  | findName s u =>
    simp only [statement] at h
    repeat' split at h
    all_goals
      obtain rfl := Option.some.inj h
      first | exact .keep rfl | exact .keep (usernameAvailable_user s u)
  | findDeletable u next =>
    simp only [statement] at h
    split at h
    · obtain rfl := Option.some.inj h
      exact .keep rfl
    · obtain rfl := Option.some.inj h
      exact .keep next.call_user
  | _ =>
    simp only [statement] at h
    repeat' split at h
    all_goals
      obtain rfl := Option.some.inj h
      exact .keep rfl

/-- Every action of a call is one of these steps. -/
theorem exec_step (h : (system X).exec i a w c = some (w', c', es)) : Step X i w a c w' c' es := by
  cases a with
  | ok => exact statement_step h
  | fail =>
    obtain ⟨c₁, hc, heq⟩ := Option.map_eq_some_iff.mp h
    obtain ⟨rfl, rfl, rfl⟩ : _ ∧ _ ∧ _ := by simpa using heq
    exact .keep (Call.fail_user hc)
  | code code =>
    cases c with
    | generate sender row =>
      obtain ⟨rfl, rfl, rfl⟩ : _ ∧ _ ∧ _ := by simpa [system, generate] using h
      exact .generate sender row code
    | _ => cases h
  | unsent failure =>
    cases c with
    | send sender row code codeHash =>
      obtain ⟨rfl, rfl, rfl⟩ : _ ∧ _ ∧ _ := by simpa [system] using h
      exact .unsent sender row code codeHash failure
    | _ => cases h
  | signUp | verifyEmail | resendVerificationEmail | cleanup =>
    cases c with
    | idle => exact start_step (r := (w', c', es)) h
    | _ => cases h

end

abbrev Config := Interleaving.Config World Call Event

def initial (clock : ℕ) (users : UserTable) : Config :=
  ⟨⟨clock, users, fun _ => none, 0⟩, fun _ => .idle, []⟩

end Thcdb.SignUp
