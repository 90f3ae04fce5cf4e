import Thcdb.Interleaving.Projection
import Thcdb.PasswordReset.Service

namespace Thcdb.PasswordReset
open Auth Interleaving

structure PasswordResetEmailJob where
  userId : UserId
  email : String
  code : String
  codeHash : String
  codeExpiresAt : ℕ
  deriving DecidableEq, Repr

/-- `M` stands for parsed mailboxes. -/
structure EmailMessage (M : Type) where
  sender : M
  recipient : M
  subject : String
  body : String
  deriving DecidableEq, Repr

structure Mailer (M : Type) where
  /-- `Mailer::from` -/
  sender : M
  /-- `str::parse::<Mailbox>` -/
  parseMailbox : String → Option M
  /-- whether `MessageBuilder::body` returns the message -/
  accepts : EmailMessage M → Bool

section

variable {M : Type} (L : Mailer M)

def buildPasswordResetEmailMessage (sender recipient : M) (code : String) : Option (EmailMessage M) :=
  let message : EmailMessage M :=
    { sender := sender
      recipient := recipient
      subject := "Reset your password"
      body := "Your password reset code is " ++ code ++ ". It expires in " ++
        toString passwordResetCodeExpiresMinutes ++ " minutes." }
  if L.accepts message then some message else none

def PasswordResetEmailJob.message (job : PasswordResetEmailJob) : Option (EmailMessage M) :=
  (L.parseMailbox job.email).bind fun recipient =>
    (parseVerificationCode job.code).bind fun code =>
      buildPasswordResetEmailMessage L L.sender recipient code

end

/-- `jobs` are those that the queue was given so far; it may hand out each of them again. -/
structure EmailWorld (P : Type) where
  reset : World P
  jobs : List PasswordResetEmailJob

/-- A call of the service, or a run of the worker, with the locals it still needs. `comparing` is
about to read the clock for the second time. -/
inductive Task (P M : Type)
  | request (call : Call P)
  | handling (job : PasswordResetEmailJob)
  | loading (job : PasswordResetEmailJob)
  | comparing (job : PasswordResetEmailJob)
  | sending (job : PasswordResetEmailJob) (message : EmailMessage M)
  | rescheduling (job : PasswordResetEmailJob)
  | handled (ok : Bool)

/-- `pushLost` and `sendLost` report an error although the queue has stored the job and the message is
out. `crash` ends a run of the worker anywhere. -/
inductive TaskInput
  | request (a : Input)
  | pushLost
  | deliver (job : PasswordResetEmailJob)
  | ok
  | fail
  | sendLost
  | crash

inductive TaskEvent (M : Type)
  | reset (e : Event)
  | sent (i : ℕ) (job : PasswordResetEmailJob) (message : EmailMessage M)
  deriving DecidableEq

def TaskEvent.reset? {M : Type} : TaskEvent M → Option Event
  | .reset e => some e
  | .sent .. => none

namespace Task

variable {P M : Type}

/-- The job of a call that is about to queue it. -/
def push? : Task P M → Option PasswordResetEmailJob
  | .request (.enqueue user code codeHash _ now) =>
    some
      { userId := user.id
        email := user.email
        code := code
        codeHash := codeHash
        codeExpiresAt := now + minutes passwordResetCodeExpiresMinutes }
  | _ => none

def call : Task P M → Call P
  | .request call => call
  | _ => .idle

end Task

section

variable {P M : Type} (X : Platform P) (L : Mailer M)

/-- The part of `password_reset_email_job_is_current` before it reads the clock. -/
def passwordResetEmailJobMatches (w : World P) (job : PasswordResetEmailJob) : Bool :=
  match (w.store.state.get job.userId).bind X.fromStr with
  | some (.AwaitingCode codeHash codeExpiresAt _ _) =>
    codeHash = job.codeHash && codeExpiresAt = job.codeExpiresAt
  | _ => false

def handle (i : ℕ) (w : EmailWorld P) : Task P M →
    Option (EmailWorld P × Task P M × List (TaskEvent M))
  | .request _ | .handled _ => none
  | .handling job =>
    some (w, if job.codeExpiresAt ≤ w.reset.clock then .handled true else .loading job, [])
  | .loading job =>
    some (w, if passwordResetEmailJobMatches X w.reset job then .comparing job else .handled true,
      [])
  | .comparing job =>
    if w.reset.clock ≤ job.codeExpiresAt then
      match job.message L with
      | none => some (w, .handled true, [])
      | some message => some (w, .sending job message, [])
    else some (w, .handled true, [])
  | .sending job message => some (w, .handled true, [.sent i job message])
  | .rescheduling job => some ({ w with jobs := w.jobs ++ [job] }, .handled true, [])

def Task.fail : Task P M → Option (Task P M)
  | .loading _ => some (.handled true)
  | .sending job _ => some (.rescheduling job)
  | .rescheduling _ => some (.handled false)
  | .request _ | .handling _ | .comparing _ | .handled _ => none

variable [DecidableEq P]

def request (i : ℕ) (w : EmailWorld P) (jobs : List PasswordResetEmailJob) (call : Call P)
    (a : Input) : Option (EmailWorld P × Task P M × List (TaskEvent M)) :=
  ((system X).exec i a w.reset call).map fun r =>
    (⟨r.1, w.jobs ++ jobs⟩, .request r.2.1, r.2.2.map .reset)

def execTask (i : ℕ) (w : EmailWorld P) (t : Task P M) :
    TaskInput → Option (EmailWorld P × Task P M × List (TaskEvent M))
  | .request .ok =>
    match t with
    | .request call => request X i w t.push?.toList call .ok
    | _ => none
  | .request a =>
    match t with
    | .request call => request X i w [] call a
    | _ => none
  | .pushLost =>
    match t with
    | .request call => if t.push?.isSome then request X i w t.push?.toList call .fail else none
    | _ => none
  | .deliver job =>
    match t with
    | .request .idle => if job ∈ w.jobs then some (w, .handling job, []) else none
    | _ => none
  | .ok => handle X L i w t
  | .fail => t.fail.map fun t' => (w, t', [])
  | .sendLost =>
    match t with
    | .sending job message => some (w, .rescheduling job, [.sent i job message])
    | _ => none
  | .crash =>
    match t with
    | .request _ | .handled _ => none
    | _ => some (w, .handled false, [])

def emailSystem : System (EmailWorld P) (Task P M) TaskInput Env (TaskEvent M) where
  exec i a w t := execTask X L i w t a
  env b w := ((system X).env b w.reset).map fun r => { w with reset := r }

end

abbrev EmailConfig (P M : Type) := Interleaving.Config (EmailWorld P) (Task P M) (TaskEvent M)

def emailInitial {P M : Type} (clock : ℕ) (users : List UserRow) : EmailConfig P M :=
  ⟨⟨⟨clock, users, Store.empty, 0, 0⟩, []⟩, fun _ => .request .idle, []⟩

def EmailConfig.service {P M : Type} (c : EmailConfig P M) : Config P :=
  ⟨c.shared.reset, fun i => (c.calls i).call, c.log.filterMap TaskEvent.reset?⟩

def serviceAct : Act TaskInput Env → Option (Act Input Env)
  | .call i (.request a) => some (.call i a)
  | .call i .pushLost => some (.call i .fail)
  | .call _ _ => none
  | .env b => some (.env b)

end Thcdb.PasswordReset
