import Thcdb.Interleaving.System
import Thcdb.PasswordReset.State

namespace Thcdb.PasswordReset
open Auth Redis Interleaving

/-- The crates of the auth flows, the payload encoders, and the source of reset keys. -/
structure Platform (P : Type) extends Auth.Crates, PayloadCodec P where
  /-- the n-th `generate_password_reset_token` -/
  resetKey : ℕ → String
  /-- `hash_password_reset_key` -/
  hashKey : String → String
  hashKey_resetKey : ∀ {m n}, hashKey (resetKey m) = hashKey (resetKey n) → m = n

/-- A platform to run by hand: the two encoders differ in a mark, reset keys in their length. -/
def Platform.plain : Platform (Bool × PasswordResetState) where
  toCrates := Crates.plain
  toString s := (false, s)
  encode s := (true, s)
  fromStr p := some p.2
  decode p := some p.2
  fromStr_toString _ := rfl
  fromStr_encode _ := rfl
  decode_of_fromStr h := h
  resetKey n := String.ofList (List.replicate n 'k')
  hashKey := id
  hashKey_resetKey h := by simpa using congrArg String.length h

inductive Error
  | InvalidEmail | Infra | InvalidOrExpiredResetCode | InvalidOrExpiredResetKey
  | Validate (kind : ValidateCredsErrorKind)
  deriving DecidableEq, Repr

/-- `VerificationCode::<6>::parse` -/
def parseVerificationCode (input : String) : Option String :=
  if input.toList.length = 6 ∧ input.toList.all Char.isDigit then some input else none

structure VerifiedResetPasswordSession where
  key : String
  keyExpiresAt : ℕ
  deriving DecidableEq, Repr

structure Stored (P : Type) where
  payload : P
  state : PasswordResetState
  deriving DecidableEq

structure World (P : Type) where
  clock : ℕ
  users : List UserRow
  store : Store P
  /-- salts drawn by `secret::hash` so far -/
  salts : ℕ
  /-- reset keys generated so far -/
  keys : ℕ

inductive Outcome
  | forgot
  | session (s : VerifiedResetPasswordSession)
  | reset
  | failed (e : Error)
  deriving DecidableEq, Repr

/-- The four places that call `save_password_reset_state_if_unmodified`. -/
inductive Caller (P : Type)
  | forgot (user : UserRow) (code codeHash : String) (existing : Option (Stored P)) (now : ℕ)
  | rollback (userId : UserId) (current previous : Stored P)
  | verify (user : UserRow) (submitted : String) (state : Stored P) (codeHash resetKey : String)
      (resetKeyExpiresAt : ℕ)
  | restore (consumed : ConsumedPasswordResetKey) (resetKeyHash : String)
  deriving DecidableEq

/-- Where a call stands, with the locals it still needs. `save` is about to read the clock for the
TTL, `eval` to run the script with the TTL it computed. -/
inductive Call (P : Type)
  | idle
  | forgotFindUser (email code codeHash : String)
  | forgotLoad (user : UserRow) (code codeHash : String)
  | forgotCooldown (user : UserRow) (code codeHash : String) (existing : Option (Stored P))
  | save (caller : Caller P)
  | eval (caller : Caller P) (ttl : ℕ)
  | enqueue (user : UserRow) (code codeHash : String) (existing : Option (Stored P)) (now : ℕ)
  | clear (userId : UserId) (current : Stored P)
  | verifyFindUser (email code : String)
  | verifyLoad (user : UserRow) (submitted : String)
  | verifyCode (user : UserRow) (submitted : String) (state : Stored P)
  | increment (user : UserRow) (submitted : String) (state : Stored P) (codeHash : String)
  | issueKey (user : UserRow) (submitted : String) (state : Stored P) (codeHash : String)
  | consume (resetKeyHash passwordHash : String)
  | findConsumedUser (consumed : ConsumedPasswordResetKey) (resetKeyHash passwordHash : String)
  | setPassword (consumed : ConsumedPasswordResetKey) (resetKeyHash passwordHash : String)
      (user : UserRow)
  | restore (consumed : ConsumedPasswordResetKey) (resetKeyHash : String)
  | done (outcome : Outcome)
  deriving DecidableEq

/-- `ok` runs the next statement, `fail` lets its backend report an error; the others begin a
call. `code` is what `VerificationCode::new` draws. -/
inductive Input
  | forgotPassword (email code : String)
  | verifyResetCode (email code : String)
  | resetPassword (key password : String)
  | ok
  | fail

/-- Time passes, or another part of the program writes the user table. -/
inductive Env
  | tick (d : ℕ)
  | writeUsers (users : List UserRow)

inductive Event
  /-- `forgot_password` stored a new code -/
  | issued (i : ℕ) (userId : UserId) (codeHash : String) (codeSentAt : ℕ)
  /-- its e-mail was queued -/
  | queued (i : ℕ) (userId : UserId) (codeHash : String) (codeSentAt : ℕ)
  /-- a wrong submission was recorded -/
  | recorded (i : ℕ) (userId : UserId) (codeHash : String)
  /-- the code was exchanged for a reset key -/
  | keyIssued (i : ℕ) (userId : UserId) (codeHash resetKeyHash : String) (resetKeyExpiresAt : ℕ)
  /-- `reset_password` took the key out of the store at `now` -/
  | consumed (i : ℕ) (userId : UserId) (resetKeyHash : String) (resetKeyExpiresAt now : ℕ)
  /-- the key changed a password -/
  | passwordSet (i : ℕ) (userId : UserId) (resetKeyHash : String)
  deriving DecidableEq, Repr

section

variable {P : Type} (X : Platform P)

def Stored.fromState (state : PasswordResetState) : Stored P := ⟨X.toString state, state⟩

namespace Caller

def userId : Caller P → UserId
  | .forgot user .. => user.id
  | .rollback userId .. => userId
  | .verify user .. => user.id
  | .restore consumed _ => consumed.userId

def previous : Caller P → Option (Stored P)
  | .forgot _ _ _ existing _ => existing
  | .rollback _ current _ => some current
  | .verify _ _ state .. => some state
  | .restore .. => none

def next : Caller P → PasswordResetState
  | .forgot _ _ codeHash _ now => .awaitingCode codeHash now
  | .rollback _ _ previous => previous.state
  | .verify _ _ _ _ resetKey resetKeyExpiresAt =>
    .AwaitingPassword (X.hashKey resetKey) resetKeyExpiresAt
  | .restore consumed resetKeyHash => .AwaitingPassword resetKeyHash consumed.resetKeyExpiresAt

def saveArgs (k : Caller P) (ttl : ℕ) : SaveArgs P where
  userId := k.userId
  expectedPayload := k.previous.map (·.payload)
  nextPayload := X.toString (k.next X)
  ttlSeconds := ttl
  nextIndexKey := (k.next X).indexKey
  previousIndexKey := k.previous.bind (·.state.indexKey)

/-- How the caller goes on. Both answers to `rollback` and to `restore` end the call with the
error that led there; an unsaved key sends `verify` round its loop. -/
def resume (saved : Bool) : Caller P → Call P
  | .forgot user code codeHash existing now =>
    if saved then .enqueue user code codeHash existing now else .done .forgot
  | .rollback .. => .done (.failed .Infra)
  | .verify user submitted _ _ resetKey resetKeyExpiresAt =>
    if saved then .done (.session ⟨resetKey, resetKeyExpiresAt⟩) else .verifyLoad user submitted
  | .restore .. => .done (.failed .Infra)

def savedEvent (i : ℕ) : Caller P → List Event
  | .forgot user _ codeHash _ now => [.issued i user.id codeHash now]
  | .rollback .. => []
  | .verify user _ _ codeHash resetKey resetKeyExpiresAt =>
    [.keyIssued i user.id codeHash (X.hashKey resetKey) resetKeyExpiresAt]
  | .restore .. => []

end Caller

/-- `load_stored_password_reset_state`; the outer `none` is a payload serde rejects. -/
def loadStored (w : World P) (userId : UserId) : Option (Option (Stored P)) :=
  match w.store.state.get userId with
  | none => some none
  | some payload => (X.fromStr payload).map fun state => some ⟨payload, state⟩

def findVerifiedUserByEmail (w : World P) (email : String) : Option UserRow :=
  (findByEmail X.toCrates w.users email).filter (·.emailVerified)

def findVerifiedUserById (w : World P) (userId : UserId) : Option UserRow :=
  (findById w.users userId).filter (·.emailVerified)

def start (w : World P) : Input → Option (World P × Call P × List Event)
  | .forgotPassword email code =>
    match X.parseEmail email with
    | none => some (w, .done (.failed .InvalidEmail), [])
    | some email =>
      some ({ w with salts := w.salts + 1 },
        .forgotFindUser email code (X.hash w.salts code), [])
  | .verifyResetCode email code =>
    match X.parseEmail email with
    | none => some (w, .done (.failed .InvalidEmail), [])
    | some email => some (w, .verifyFindUser email code, [])
  | .resetPassword key password =>
    if key.utf8ByteSize > passwordResetKeyMaxLen then
      some (w, .done (.failed .InvalidOrExpiredResetKey), [])
    else
      match X.validatePassword password with
      | .error kind => some (w, .done (.failed (.Validate kind)), [])
      | .ok () =>
        some ({ w with salts := w.salts + 1 },
          .consume (X.hashKey key) (X.hash w.salts password), [])
  | .ok | .fail => none

/-- A failed enqueue puts the earlier state back; a failed lookup or update of the user puts the
key back; any other failure ends the call. -/
def Call.fail : Call P → Option (Call P)
  | .enqueue user _ codeHash existing now =>
    let current := Stored.fromState X (.awaitingCode codeHash now)
    match existing with
    | some previous => some (.save (.rollback user.id current previous))
    | none => some (.clear user.id current)
  | .findConsumedUser consumed resetKeyHash _ => some (.restore consumed resetKeyHash)
  | .setPassword consumed resetKeyHash _ _ => some (.restore consumed resetKeyHash)
  | .forgotFindUser .. | .forgotLoad .. | .eval .. | .clear .. | .verifyFindUser ..
  | .verifyLoad .. | .verifyCode .. | .increment .. | .consume .. =>
    some (.done (.failed .Infra))
  | .idle | .forgotCooldown .. | .save .. | .issueKey .. | .restore .. | .done _ => none

variable [DecidableEq P]

def statement (i : ℕ) (w : World P) : Call P → Option (World P × Call P × List Event)
  | .idle | .done _ => none
  | .forgotFindUser email code codeHash =>
    match findVerifiedUserByEmail X w email with
    | none => some (w, .done .forgot, [])
    | some user => some (w, .forgotLoad user code codeHash, [])
  | .forgotLoad user code codeHash =>
    match loadStored X w user.id with
    | none => some (w, .done (.failed .Infra), [])
    | some existing => some (w, .forgotCooldown user code codeHash existing, [])
  | .forgotCooldown user code codeHash existing =>
    if existing.any (·.state.isInCodeResendCooldown w.clock) then some (w, .done .forgot, [])
    else some (w, .save (.forgot user code codeHash existing w.clock), [])
  | .save caller =>
    -- a state without a whole second left is not written
    match (caller.next X).ttlSeconds w.clock with
    | none => some (w, caller.resume false, [])
    | some ttl => some (w, .eval caller ttl, [])
  | .eval caller ttl =>
    let r := savePasswordResetStateIfMatches w.store w.clock (caller.saveArgs X ttl)
    some ({ w with store := r.1 }, caller.resume r.2, if r.2 then caller.savedEvent X i else [])
  | .enqueue user _ codeHash _ now => some (w, .done .forgot, [.queued i user.id codeHash now])
  | .clear userId current =>
    let r := clearPasswordResetStateIfMatches w.store userId current.payload current.state.indexKey
    some ({ w with store := r.1 }, .done (.failed .Infra), [])
  | .verifyFindUser email code =>
    match findVerifiedUserByEmail X w email, parseVerificationCode code with
    | some user, some submitted => some (w, .verifyLoad user submitted, [])
    | _, _ => some (w, .done (.failed .InvalidOrExpiredResetCode), [])
  | .verifyLoad user submitted =>
    match loadStored X w user.id with
    | none => some (w, .done (.failed .Infra), [])
    | some none => some (w, .done (.failed .InvalidOrExpiredResetCode), [])
    | some (some state) => some (w, .verifyCode user submitted state, [])
  | .verifyCode user submitted state =>
    match state.state.verifiableCodeHash w.clock with
    | none => some (w, .done (.failed .InvalidOrExpiredResetCode), [])
    | some codeHash =>
      match X.verify codeHash submitted with
      | none => some (w, .done (.failed .Infra), [])
      | some true => some (w, .issueKey user submitted state codeHash, [])
      | some false => some (w, .increment user submitted state codeHash, [])
  | .increment user submitted state codeHash =>
    let r := incrementFailedAttemptsIfMatches X.toPayloadCodec w.store w.clock user.id state.payload
    match r.2 with
    | none => some ({ w with store := r.1 }, .done (.failed .Infra), [])
    | some true =>
      some ({ w with store := r.1 }, .done (.failed .InvalidOrExpiredResetCode),
        [.recorded i user.id codeHash])
    | some false => some ({ w with store := r.1 }, .verifyLoad user submitted, [])
  | .issueKey user submitted state codeHash =>
    some ({ w with keys := w.keys + 1 },
      .save (.verify user submitted state codeHash (X.resetKey w.keys)
        (w.clock + minutes passwordResetKeyExpiresMinutes)), [])
  | .consume resetKeyHash passwordHash =>
    let r := consumePasswordResetKey X.toPayloadCodec w.store resetKeyHash
    match r.2 with
    | none => some ({ w with store := r.1 }, .done (.failed .InvalidOrExpiredResetKey), [])
    | some consumed =>
      some ({ w with store := r.1 }, .findConsumedUser consumed resetKeyHash passwordHash,
        [.consumed i consumed.userId resetKeyHash consumed.resetKeyExpiresAt w.clock])
  | .findConsumedUser consumed resetKeyHash passwordHash =>
    match findVerifiedUserById w consumed.userId with
    | none => some (w, .done (.failed .InvalidOrExpiredResetKey), [])
    | some user => some (w, .setPassword consumed resetKeyHash passwordHash user, [])
  | .setPassword consumed resetKeyHash passwordHash user =>
    match Auth.setPassword w.users user.id passwordHash with
    | none => some (w, .restore consumed resetKeyHash, [])
    | some users =>
      some ({ w with users := users }, .done .reset, [.passwordSet i user.id resetKeyHash])
  | .restore consumed resetKeyHash =>
    -- an expired key is not put back
    if consumed.resetKeyExpiresAt ≤ w.clock then some (w, .done (.failed .Infra), [])
    else some (w, .save (.restore consumed resetKeyHash), [])

def system : System (World P) (Call P) Input Env Event where
  exec i a w c :=
    match a with
    | .ok => statement X i w c
    | .fail => (c.fail X).map fun c' => (w, c', [])
    | a =>
      match c with
      | .idle => start X w a
      | _ => none
  env b w :=
    match b with
    | .tick d => some { w with clock := w.clock + d, store := w.store.expire (w.clock + d) }
    | .writeUsers users => some { w with users := users }

/-- A statement is the first of its call, the next one, or the next one failing. -/
theorem exec_cases {i : ℕ} {a : Input} {w : World P} {c : Call P}
    {r : World P × Call P × List Event} (h : (system X).exec i a w c = some r) :
    (a = .ok ∧ statement X i w c = some r) ∨
    (a = .fail ∧ ∃ c', c.fail X = some c' ∧ r = (w, c', [])) ∨
    (c = .idle ∧ start X w a = some r) := by
  cases a with
  | ok => exact Or.inl ⟨rfl, h⟩
  | fail =>
    obtain ⟨c', hc, rfl⟩ := Option.map_eq_some_iff.mp h
    exact Or.inr (Or.inl ⟨rfl, c', hc, rfl⟩)
  | forgotPassword | verifyResetCode | resetPassword =>
    cases c with
    | idle => exact Or.inr (Or.inr ⟨rfl, h⟩)
    | _ => cases h

inductive Writes (w : World P) : Call P → Store P → Prop
  | keep (c : Call P) : Writes w c w.store
  | save (k : Caller P) (ttl : ℕ) : Writes w (.eval k ttl)
      (savePasswordResetStateIfMatches w.store w.clock (k.saveArgs X ttl)).1
  | clear (u : UserId) (current : Stored P) : Writes w (.clear u current)
      (clearPasswordResetStateIfMatches w.store u current.payload current.state.indexKey).1
  | increment (user : UserRow) (submitted : String) (state : Stored P) (codeHash : String) :
      Writes w (.increment user submitted state codeHash)
        (incrementFailedAttemptsIfMatches X.toPayloadCodec w.store w.clock user.id state.payload).1
  | consume (resetKeyHash passwordHash : String) : Writes w (.consume resetKeyHash passwordHash)
      (consumePasswordResetKey X.toPayloadCodec w.store resetKeyHash).1

/-- What a statement of call `i` can log, and what it has found in the store when it does. -/
inductive Logs (i : ℕ) (w : World P) : Call P → List Event → Prop
  | nothing (c : Call P) : Logs i w c []
  | queued (user : UserRow) (code codeHash : String) (existing : Option (Stored P)) (now : ℕ) :
      Logs i w (.enqueue user code codeHash existing now) [.queued i user.id codeHash now]
  | saved (k : Caller P) (ttl : ℕ)
      (hg : w.store.state.get k.userId = k.previous.map (·.payload)) :
      Logs i w (.eval k ttl) (k.savedEvent X i)
  | recorded (user : UserRow) (submitted : String) (state : Stored P) (codeHash : String) :
      Logs i w (.increment user submitted state codeHash) [.recorded i user.id codeHash]
  | consumed (resetKeyHash passwordHash : String) (u : UserId) (p : P) (exp : ℕ)
      (hg : w.store.state.get u = some p)
      (hd : X.decode p = some (.AwaitingPassword resetKeyHash exp)) :
      Logs i w (.consume resetKeyHash passwordHash) [.consumed i u resetKeyHash exp w.clock]
  | passwordSet (consumed : ConsumedPasswordResetKey) (resetKeyHash passwordHash : String)
      (user : UserRow) :
      Logs i w (.setPassword consumed resetKeyHash passwordHash user)
        [.passwordSet i user.id resetKeyHash]

variable {X}

omit [DecidableEq P] in
/-- Before its first statement a call draws a salt at most. -/
theorem start_eq {a : Input} {w : World P} {r : World P × Call P × List Event}
    (h : start X w a = some r) : ∃ n c, r = ({ w with salts := n }, c, []) := by
  cases a with
  | ok | fail => cases h
  | _ =>
    simp only [start] at h
    repeat' split at h
    all_goals exact ⟨_, _, (Option.some.inj h).symm⟩

theorem exec_logs {i : ℕ} {a : Input} {w : World P} {c : Call P}
    {r : World P × Call P × List Event} (h : (system X).exec i a w c = some r) :
    Logs X i w c r.2.2 := by
  rcases exec_cases X h with ⟨-, h⟩ | ⟨-, c', -, rfl⟩ | ⟨rfl, hs⟩
  · cases c with
    | idle | done => cases h
    | eval k ttl =>
      obtain rfl := Option.some.inj h
      by_cases hg : w.store.state.get k.userId = k.previous.map (·.payload)
      · rw [save_of_eq (a := k.saveArgs X ttl) hg]
        exact .saved k ttl hg
      · rw [save_of_ne (a := k.saveArgs X ttl) hg]
        exact .nothing _
    | enqueue user code codeHash existing now =>
      obtain rfl := Option.some.inj h
      exact .queued user code codeHash existing now
    | clear | issueKey =>
      obtain rfl := Option.some.inj h
      exact .nothing _
    | increment user submitted state codeHash =>
      simp only [statement] at h
      split at h
      · obtain rfl := Option.some.inj h
        exact .nothing _
      · obtain rfl := Option.some.inj h
        exact .recorded user submitted state codeHash
      · obtain rfl := Option.some.inj h
        exact .nothing _
    | consume resetKeyHash passwordHash =>
      simp only [statement] at h
      rcases consume_cases X.toPayloadCodec with hr | ⟨v, -, -, hr⟩ | ⟨v, p, e, -, hg, hd, hr⟩
      · rw [hr] at h
        obtain rfl := Option.some.inj h
        exact .nothing _
      · rw [hr] at h
        obtain rfl := Option.some.inj h
        exact .nothing _
      · rw [hr] at h
        obtain rfl := Option.some.inj h
        exact .consumed resetKeyHash passwordHash v p e hg hd
    | setPassword consumed resetKeyHash passwordHash user =>
      simp only [statement] at h
      split at h
      · obtain rfl := Option.some.inj h
        exact .nothing _
      · obtain rfl := Option.some.inj h
        exact .passwordSet consumed resetKeyHash passwordHash user
    | _ =>
      simp only [statement] at h
      repeat' split at h
      all_goals
        obtain rfl := Option.some.inj h
        exact .nothing _
  · exact .nothing _
  · obtain ⟨n, c, rfl⟩ := start_eq hs
    exact .nothing _

/-- Only a statement that succeeds writes to the store. -/
theorem ok_or_store {i : ℕ} {a : Input} {w : World P} {c : Call P}
    {r : World P × Call P × List Event} (h : (system X).exec i a w c = some r) :
    a = .ok ∨ r.1.store = w.store := by
  rcases exec_cases X h with ⟨ha, -⟩ | ⟨-, c', -, rfl⟩ | ⟨-, hs⟩
  · exact Or.inl ha
  · exact Or.inr rfl
  · obtain ⟨n, c, rfl⟩ := start_eq hs
    exact Or.inr rfl

theorem exec_writes {i : ℕ} {a : Input} {w : World P} {c : Call P}
    {r : World P × Call P × List Event} (h : (system X).exec i a w c = some r) :
    Writes X w c r.1.store := by
  rcases exec_cases X h with ⟨-, h⟩ | ⟨-, c', -, rfl⟩ | ⟨rfl, hs⟩
  · cases c with
    | idle | done => cases h
    | eval k ttl =>
      obtain rfl := Option.some.inj h
      exact .save k ttl
    | clear u current =>
      obtain rfl := Option.some.inj h
      exact .clear u current
    | increment user submitted state codeHash =>
      simp only [statement] at h
      split at h
      all_goals
        obtain rfl := Option.some.inj h
        exact .increment user submitted state codeHash
    | consume resetKeyHash passwordHash =>
      simp only [statement] at h
      split at h
      all_goals
        obtain rfl := Option.some.inj h
        exact .consume resetKeyHash passwordHash
    | enqueue | issueKey =>
      obtain rfl := Option.some.inj h
      exact .keep _
    | _ =>
      simp only [statement] at h
      repeat' split at h
      all_goals
        obtain rfl := Option.some.inj h
        exact .keep _
  · exact .keep _
  · obtain ⟨n, c, rfl⟩ := start_eq hs
    exact .keep _

end

abbrev Config (P : Type) := Interleaving.Config (World P) (Call P) Event

def initial {P : Type} (clock : ℕ) (users : List UserRow) : Config P :=
  ⟨⟨clock, users, Store.empty, 0, 0⟩, fun _ => .idle, []⟩

end Thcdb.PasswordReset
