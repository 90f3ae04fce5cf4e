import Thcdb.Interleaving.History
import Thcdb.PasswordReset.EmailJobs
import Thcdb.PasswordReset.Provenance

namespace Thcdb.PasswordReset
open Auth Interleaving

section Requests

variable {P : Type} [DecidableEq P] {X : Platform P} {c₀ c : Config P}
  {as : List (Act Input Env)} {log : List Event} {i : ℕ}

def Asks (X : Platform P) (as : List (Act Input Env)) (i : ℕ) (address code codeHash : String) :
    Prop :=
  ∃ email n, .call i (.forgotPassword email code) ∈ as ∧ X.parseEmail email = some address ∧
    codeHash = X.hash n code

def Found (X : Platform P) (c₀ : Config P) (as : List (Act Input Env)) (address : String)
    (user : UserRow) : Prop :=
  (system X).Once c₀ (fun _ x => findVerifiedUserByEmail X x.shared address = some user) as

def AsksFor (X : Platform P) (c₀ : Config P) (as : List (Act Input Env)) (i : ℕ) (user : UserRow)
    (code codeHash : String) : Prop :=
  ∃ address, Asks X as i address code codeHash ∧ Found X c₀ as address user

/-- What the locals of `forgot_password` go back to. -/
def Call.Forgets (X : Platform P) (c₀ : Config P) (as : List (Act Input Env)) (log : List Event)
    (i : ℕ) : Call P → Prop
  | .forgotFindUser address code codeHash => Asks X as i address code codeHash
  | .forgotLoad user code codeHash | .forgotCooldown user code codeHash _
  | .save (.forgot user code codeHash _ _) | .eval (.forgot user code codeHash _ _) _ =>
    AsksFor X c₀ as i user code codeHash
  | .enqueue user code codeHash _ now =>
    AsksFor X c₀ as i user code codeHash ∧ .issued i user.id codeHash now ∈ log
  | _ => True

omit [DecidableEq P] in
theorem Asks.append {address code codeHash : String} (h : Asks X as i address code codeHash)
    (bs : List (Act Input Env)) : Asks X (as ++ bs) i address code codeHash := by
  obtain ⟨email, n, hmem, hemail, hhash⟩ := h
  exact ⟨email, n, List.mem_append_left _ hmem, hemail, hhash⟩

theorem AsksFor.append {user : UserRow} {code codeHash : String}
    (h : AsksFor X c₀ as i user code codeHash) (bs : List (Act Input Env)) :
    AsksFor X c₀ (as ++ bs) i user code codeHash := by
  obtain ⟨address, hasks, hfound⟩ := h
  exact ⟨address, hasks.append bs, System.Once.append hfound bs⟩

theorem Call.Forgets.append {call : Call P} (h : call.Forgets X c₀ as log i)
    (bs : List (Act Input Env)) (es : List Event) :
    call.Forgets X c₀ (as ++ bs) (log ++ es) i := by
  unfold Call.Forgets at h ⊢
  split at h
  · exact h.append bs
  · exact h.append bs
  · exact h.append bs
  · exact h.append bs
  · exact h.append bs
  · exact ⟨h.1.append bs, List.mem_append_left _ h.2⟩
  · trivial

theorem forgets_of_resume {k : Caller P} {saved : Bool} (hsaved : saved = true →
      ∀ e ∈ k.savedEvent X i, e ∈ log) (h : Call.Forgets X c₀ as log i (.save k)) :
    Call.Forgets X c₀ as log i (k.resume saved) := by
  cases k with
  | forgot user code codeHash existing now =>
    cases saved with
    | false => trivial
    | true => exact ⟨h, hsaved rfl _ (List.mem_singleton_self _)⟩
  | verify => cases saved <;> trivial
  | rollback | restore => trivial

theorem forgets_of_statement {r : World P × Call P × List Event} {call : Call P}
    (hrun : (system X).run c₀ as = some c) (hcall : c.calls i = call)
    (h : Call.Forgets X c₀ as c.log i call) (hs : statement X i c.shared call = some r) :
    Call.Forgets X c₀ as (c.log ++ r.2.2) i r.2.1 := by
  cases call with
  | idle | done => cases hs
  | forgotFindUser address code codeHash =>
    simp only [statement] at hs
    split at hs
    · obtain rfl := Option.some.inj hs
      trivial
    · next user huser =>
      obtain rfl := Option.some.inj hs
      exact ⟨address, h, System.once_of_run hrun huser⟩
  | forgotLoad user code codeHash =>
    simp only [statement] at hs
    split at hs
    · obtain rfl := Option.some.inj hs
      trivial
    · obtain rfl := Option.some.inj hs
      exact h
  | forgotCooldown user code codeHash existing =>
    simp only [statement] at hs
    split at hs
    · obtain rfl := Option.some.inj hs
      trivial
    · obtain rfl := Option.some.inj hs
      exact h
  | save caller =>
    simp only [statement] at hs
    split at hs
    · obtain rfl := Option.some.inj hs
      exact forgets_of_resume (by simp) (by simpa using h.append [] [])
    · obtain rfl := Option.some.inj hs
      cases caller with
      | forgot => exact h
      | _ => trivial
  | eval caller ttl =>
    obtain rfl := Option.some.inj hs
    apply forgets_of_resume
    · intro hsaved e he
      simp only [hsaved, if_true]
      exact List.mem_append_right _ he
    · cases caller with
      | forgot => exact h
      | _ => trivial
  | enqueue | clear | issueKey =>
    obtain rfl := Option.some.inj hs
    trivial
  | _ =>
    simp only [statement] at hs
    repeat' split at hs
    all_goals
      obtain rfl := Option.some.inj hs
      trivial

theorem forgets_of_fail {call call' : Call P} (h : call.fail X = some call') :
    Call.Forgets X c₀ as log i call' := by
  cases call with
  | idle | done | forgotCooldown | save | issueKey | restore => cases h
  | enqueue user code codeHash existing now =>
    simp only [Call.fail] at h
    split at h <;> cases h <;> trivial
  | _ =>
    cases h
    trivial

theorem forgets_of_start {a : Input} {w : World P} {r : World P × Call P × List Event}
    (h : start X w a = some r) : Call.Forgets X c₀ (as ++ [.call i a]) log i r.2.1 := by
  cases a with
  | forgotPassword email code =>
    simp only [start] at h
    split at h
    · obtain rfl := Option.some.inj h
      trivial
    · next address haddress =>
      obtain rfl := Option.some.inj h
      exact ⟨email, w.salts, by simp, haddress, rfl⟩
  | ok | fail => cases h
  | _ =>
    simp only [start] at h
    repeat' split at h
    all_goals
      obtain rfl := Option.some.inj h
      trivial

/-- The calls of a run, with the run that led to them. -/
structure Forgetting (X : Platform P) (c₀ : Config P) (as : List (Act Input Env)) (c : Config P) :
    Prop where
  run : (system X).run c₀ as = some c
  calls : ∀ i, (c.calls i).Forgets X c₀ as c.log i

theorem Forgetting.next {d : Config P} {a : Act Input Env} (h : Forgetting X c₀ as c)
    (hn : (system X).next c a = some d) : Forgetting X c₀ (as ++ [a]) d := by
  refine ⟨System.run_append_eq_some.mpr ⟨c, h.run, by simp [System.run_cons, hn]⟩, fun i => ?_⟩
  cases a with
  | env b =>
    obtain ⟨s, -, rfl⟩ := System.next_env_eq_some.mp hn
    simpa using (h.calls i).append [.env b] []
  | call j a =>
    obtain ⟨w, l, es, he, rfl⟩ := System.next_call_eq_some.mp hn
    by_cases hi : i = j
    · subst hi
      have hl : Call.Forgets X c₀ (as ++ [.call i a]) (c.log ++ es) i l := by
        rcases exec_cases X he with ⟨-, hs⟩ | ⟨-, l', hl', heq⟩ | ⟨-, hs⟩
        · simpa using (forgets_of_statement h.run rfl (h.calls i) hs).append [.call i a] []
        · obtain ⟨rfl, rfl, rfl⟩ := heq
          exact forgets_of_fail hl'
        · exact forgets_of_start hs
      simpa using hl
    · simpa [Function.update_of_ne hi] using (h.calls i).append [.call j a] es

theorem forgetting_of_run {t : ℕ} {users : List UserRow}
    (h : (system X).run (initial t users) as = some c) : Forgetting X (initial t users) as c :=
  System.run_history (I := Forgetting X (initial t users)) (fun _ _ _ _ hx hn => hx.next hn)
    ⟨rfl, fun _ => trivial⟩ h

end Requests

section Worker

variable {P M : Type} {X : Platform P} {L : Mailer M}

inductive Works (X : Platform P) (L : Mailer M) (i : ℕ) (w : EmailWorld P) :
    Task P M → EmailWorld P → Task P M → List (TaskEvent M) → Prop
  | deliver {job} (hjob : job ∈ w.jobs) : Works X L i w (.request .idle) w (.handling job) []
  | quit {t ok} (ht : t.call = .idle) : Works X L i w t w (.handled ok) []
  | handle {job} : Works X L i w (.handling job) w (.loading job) []
  | load {job} (hjob : passwordResetEmailJobMatches X w.reset job = true) :
      Works X L i w (.loading job) w (.comparing job) []
  | compare {job message} (hclock : w.reset.clock ≤ job.codeExpiresAt)
      (hmessage : job.message L = some message) :
      Works X L i w (.comparing job) w (.sending job message) []
  | send {job message t} (ht : t = .handled true ∨ t = .rescheduling job) :
      Works X L i w (.sending job message) w t [.sent i job message]
  | sendFailed {job message} : Works X L i w (.sending job message) w (.rescheduling job) []
  | reschedule {job} :
      Works X L i w (.rescheduling job) { w with jobs := w.jobs ++ [job] } (.handled true) []

theorem handle_works {i : ℕ} {w : EmailWorld P} {t : Task P M}
    {r : EmailWorld P × Task P M × List (TaskEvent M)} (h : handle X L i w t = some r) :
    Works X L i w t r.1 r.2.1 r.2.2 := by
  cases t with
  | request | handled => cases h
  | handling job =>
    obtain rfl := Option.some.inj h
    dsimp only
    split
    · exact .quit rfl
    · exact .handle
  | loading job =>
    obtain rfl := Option.some.inj h
    dsimp only
    split
    · next hjob => exact .load hjob
    · exact .quit rfl
  | comparing job =>
    simp only [handle] at h
    split at h
    · next hclock =>
      split at h
      · obtain rfl := Option.some.inj h
        exact .quit rfl
      · next message hmessage =>
        obtain rfl := Option.some.inj h
        exact .compare hclock hmessage
    · obtain rfl := Option.some.inj h
      exact .quit rfl
  | sending job message =>
    obtain rfl := Option.some.inj h
    exact .send (.inl rfl)
  | rescheduling job =>
    obtain rfl := Option.some.inj h
    exact .reschedule

theorem fail_works {i : ℕ} {w : EmailWorld P} {t t' : Task P M} (h : t.fail = some t') :
    Works X L i w t w t' [] := by
  cases t with
  | request | handled | handling | comparing => cases h
  | loading job =>
    cases h
    exact .quit rfl
  | sending job message =>
    cases h
    exact .sendFailed
  | rescheduling job =>
    cases h
    exact .quit rfl

variable [DecidableEq P]

/-- A step is one of the service, which may queue the job of its call, or one of the worker. -/
theorem execTask_cases {i : ℕ} {w w' : EmailWorld P} {t t' : Task P M} {a : TaskInput}
    {es : List (TaskEvent M)} (h : execTask X L i w t a = some (w', t', es)) :
    (∃ call b r jobs, t = .request call ∧ serviceAct (.call i a) = some (.call i b) ∧
      (system X).exec i b w.reset call = some r ∧ (∀ job ∈ jobs, t.push? = some job) ∧
      w' = ⟨r.1, w.jobs ++ jobs⟩ ∧ t' = .request r.2.1 ∧ es = r.2.2.map .reset) ∨
    serviceAct (.call i a) = none ∧ Works X L i w t w' t' es := by
  have hrequest : ∀ {call b jobs}, serviceAct (.call i a) = some (.call i b) →
      (∀ job ∈ jobs, t.push? = some job) → t = .request call →
      request X i w jobs call b = some (w', t', es) →
      ∃ call b r jobs, t = .request call ∧ serviceAct (.call i a) = some (.call i b) ∧
        (system X).exec i b w.reset call = some r ∧ (∀ job ∈ jobs, t.push? = some job) ∧
        w' = ⟨r.1, w.jobs ++ jobs⟩ ∧ t' = .request r.2.1 ∧ es = r.2.2.map .reset := by
    intro call b jobs hact hjobs ht hr
    obtain ⟨r, hexec, heq⟩ := Option.map_eq_some_iff.mp hr
    cases heq
    exact ⟨call, b, r, jobs, ht, hact, hexec, hjobs, rfl, rfl, rfl⟩
  cases a with
  | request b =>
    left
    cases t with
    | request call =>
      cases b with
      | ok => exact hrequest rfl (by simp) rfl h
      | _ => exact hrequest rfl (by simp) rfl h
    | _ => cases b <;> cases h
  | pushLost =>
    left
    cases t with
    | request call =>
      simp only [execTask] at h
      split at h
      · exact hrequest rfl (by simp) rfl h
      · cases h
    | _ => cases h
  | deliver job =>
    refine .inr ⟨rfl, ?_⟩
    simp only [execTask] at h
    split at h
    · split at h <;> cases h
      next hjob => exact .deliver hjob
    · cases h
  | ok => exact .inr ⟨rfl, handle_works h⟩
  | fail =>
    obtain ⟨s, hs, heq⟩ := Option.map_eq_some_iff.mp h
    cases heq
    exact .inr ⟨rfl, fail_works hs⟩
  | sendLost =>
    refine .inr ⟨rfl, ?_⟩
    simp only [execTask] at h
    split at h <;> cases h
    exact .send (.inr rfl)
  | crash =>
    refine .inr ⟨rfl, ?_⟩
    cases t with
    | request | handled => cases h
    | _ =>
      cases h
      exact .quit rfl

omit [DecidableEq P] in
theorem service_call {c : EmailConfig P M} {w : EmailWorld P} {i : ℕ} {t : Task P M}
    {es : List (TaskEvent M)} :
    EmailConfig.service ⟨w, Function.update c.calls i t, c.log ++ es⟩ =
      ⟨w.reset, Function.update c.service.calls i t.call,
        c.service.log ++ es.filterMap TaskEvent.reset?⟩ := by
  simp only [EmailConfig.service, List.filterMap_append]
  congr 1
  funext j
  by_cases hj : j = i
  · subst hj
    simp
  · simp [Function.update_of_ne hj]

omit [DecidableEq P] in
theorem Works.quiet {i : ℕ} {w w' : EmailWorld P} {t t' : Task P M} {es : List (TaskEvent M)}
    (h : Works X L i w t w' t' es) :
    w'.reset = w.reset ∧ t.call = .idle ∧ t'.call = .idle ∧
      es.filterMap TaskEvent.reset? = [] := by
  cases h with
  | quit ht => exact ⟨rfl, ht, rfl, rfl⟩
  | send ht => rcases ht with rfl | rfl <;> exact ⟨rfl, rfl, rfl, rfl⟩
  | _ => exact ⟨rfl, rfl, rfl, rfl⟩

def serviceProjection (X : Platform P) (L : Mailer M) :
    Projection (emailSystem X L) (system X) where
  config := EmailConfig.service
  act := serviceAct
  next := by
    intro c a d h
    cases a with
    | env b =>
      obtain ⟨w, hw, rfl⟩ := System.next_env_eq_some.mp h
      obtain ⟨r, hr, rfl⟩ := Option.map_eq_some_iff.mp hw
      exact System.next_env_eq_some.mpr ⟨r, hr, rfl⟩
    | call i a =>
      obtain ⟨w, t, es, he, rfl⟩ := System.next_call_eq_some.mp h
      rcases execTask_cases he with
        ⟨call, b, r, jobs, hcall, hact, hexec, -, rfl, rfl, rfl⟩ | ⟨hact, hworks⟩
      · rw [hact, service_call]
        refine System.next_call_eq_some.mpr ⟨r.1, r.2.1, r.2.2, ?_, ?_⟩
        · simpa [EmailConfig.service, hcall, Task.call] using hexec
        · congr 2
          simp [List.filterMap_map, Function.comp_def, TaskEvent.reset?]
      · obtain ⟨hreset, hidle, hidle', hes⟩ := hworks.quiet
        have hcalls : Function.update (EmailConfig.service c).calls i .idle =
            (EmailConfig.service c).calls := Function.update_eq_self_iff.mpr hidle.symm
        rw [hact, service_call, hreset, hes, hidle', List.append_nil, hcalls]
        rfl

end Worker

section Delivery

variable {P M : Type} [DecidableEq P] {X : Platform P} {L : Mailer M} {c₀ : Config P}
  {e₀ c d : EmailConfig P M} {as : List (Act TaskInput Env)} {job : PasswordResetEmailJob} {i : ℕ}

/-- The request that a job goes back to. -/
def PasswordResetEmailJob.Origin (X : Platform P) (c₀ : Config P) (as : List (Act Input Env))
    (log : List Event) (job : PasswordResetEmailJob) : Prop :=
  ∃ m user codeSentAt, AsksFor X c₀ as m user job.code job.codeHash ∧
    user.id = job.userId ∧ user.email = job.email ∧
    .issued m job.userId job.codeHash codeSentAt ∈ log ∧
    job.codeExpiresAt = codeSentAt + minutes passwordResetCodeExpiresMinutes

def PasswordResetEmailJob.Current (X : Platform P) (job : PasswordResetEmailJob)
    (c : EmailConfig P M) : Prop :=
  ∃ codeSentAt n, c.shared.reset.store.live X.toPayloadCodec job.userId =
    some (.AwaitingCode job.codeHash job.codeExpiresAt codeSentAt n)

/-- The first look that worker `i` takes, at the store. -/
def PasswordResetEmailJob.Seen (X : Platform P) (L : Mailer M) (e₀ : EmailConfig P M) (i : ℕ)
    (job : PasswordResetEmailJob) (as : List (Act TaskInput Env)) : Prop :=
  (emailSystem X L).Once e₀ (fun _ x => x.calls i = .loading job ∧ job.Current X x) as

/-- And the second one, at the clock. -/
def PasswordResetEmailJob.Checked (X : Platform P) (L : Mailer M) (e₀ : EmailConfig P M) (i : ℕ)
    (job : PasswordResetEmailJob) (as : List (Act TaskInput Env)) : Prop :=
  (emailSystem X L).Once e₀ (fun bs y => y.calls i = .comparing job ∧
    y.shared.reset.clock ≤ job.codeExpiresAt ∧ job.Seen X L e₀ i bs) as

def Task.Stands (X : Platform P) (L : Mailer M) (e₀ : EmailConfig P M) (i : ℕ)
    (as : List (Act TaskInput Env)) : Task P M → Prop
  | .comparing job => job.Seen X L e₀ i as
  | .sending job message => job.message L = some message ∧ job.Checked X L e₀ i as
  | _ => True

def Task.job? : Task P M → Option PasswordResetEmailJob
  | .handling job | .loading job | .comparing job | .sending job _ | .rescheduling job => some job
  | .request _ | .handled _ => none

omit [DecidableEq P] in
theorem current_of_matches (h : passwordResetEmailJobMatches X c.shared.reset job = true) :
    job.Current X c := by
  unfold passwordResetEmailJobMatches at h
  split at h
  · next codeHash codeExpiresAt codeSentAt n hlive =>
    simp only [Bool.and_eq_true, decide_eq_true_eq] at h
    obtain ⟨rfl, rfl⟩ := h
    exact ⟨codeSentAt, n, hlive⟩
  · cases h

theorem Task.Stands.append {t : Task P M} (h : t.Stands X L e₀ i as)
    (bs : List (Act TaskInput Env)) : t.Stands X L e₀ i (as ++ bs) := by
  cases t with
  | comparing job => exact System.Once.append h bs
  | sending job message => exact ⟨h.1, System.Once.append h.2 bs⟩
  | _ => trivial

theorem PasswordResetEmailJob.Origin.append {as : List (Act Input Env)} {log : List Event}
    (h : job.Origin X c₀ as log) (bs : List (Act Input Env)) (es : List Event) :
    job.Origin X c₀ (as ++ bs) (log ++ es) := by
  obtain ⟨m, user, codeSentAt, hasks, hid, hemail, hissued, hexp⟩ := h
  exact ⟨m, user, codeSentAt, hasks.append bs, hid, hemail, List.mem_append_left _ hissued, hexp⟩

theorem stands_of_works {w : EmailWorld P} {t' : Task P M} {es : List (TaskEvent M)}
    (hrun : (emailSystem X L).run e₀ as = some c) (h : (c.calls i).Stands X L e₀ i as)
    (hw : Works X L i c.shared (c.calls i) w t' es) : t'.Stands X L e₀ i as := by
  generalize hcall : c.calls i = t at h hw
  cases hw with
  | load hjob => exact System.once_of_run hrun ⟨hcall, current_of_matches hjob⟩
  | compare hclock hmessage => exact ⟨hmessage, System.once_of_run hrun ⟨hcall, hclock, h⟩⟩
  | send ht => rcases ht with rfl | rfl <;> trivial
  | _ => trivial

def Explains (X : Platform P) (e₀ : EmailConfig P M) (as : List (Act TaskInput Env))
    (c : EmailConfig P M) (job : PasswordResetEmailJob) : Prop :=
  job.Origin X e₀.service (as.filterMap serviceAct) c.service.log

structure Delivering (X : Platform P) (L : Mailer M) (e₀ : EmailConfig P M)
    (as : List (Act TaskInput Env)) (c : EmailConfig P M) : Prop where
  run : (emailSystem X L).run e₀ as = some c
  jobs : ∀ job ∈ c.shared.jobs, Explains X e₀ as c job
  tasks : ∀ i job, (c.calls i).job? = some job → Explains X e₀ as c job
  stands : ∀ i, (c.calls i).Stands X L e₀ i as
  sent : ∀ i job message, .sent i job message ∈ c.log → Explains X e₀ as c job ∧
    (emailSystem X L).Once e₀ (fun bs z => z.calls i = .sending job message ∧
      job.message L = some message ∧ job.Checked X L e₀ i bs) as

omit [DecidableEq P] in
theorem Works.queued {w w' : EmailWorld P} {t t' : Task P M} {es : List (TaskEvent M)}
    (h : Works X L i w t w' t' es) (hjob : job ∈ w'.jobs) : job ∈ w.jobs ∨ t.job? = some job := by
  cases h with
  | reschedule =>
    rcases List.mem_append.mp hjob with hjob | hjob
    · exact .inl hjob
    · rw [List.mem_singleton.mp hjob]
      exact .inr rfl
  | _ => exact .inl hjob

omit [DecidableEq P] in
theorem Works.task {w w' : EmailWorld P} {t t' : Task P M} {es : List (TaskEvent M)}
    (h : Works X L i w t w' t' es) (hjob : t'.job? = some job) :
    job ∈ w.jobs ∨ t.job? = some job := by
  cases h with
  | deliver hmem =>
    cases hjob
    exact .inl hmem
  | quit => cases hjob
  | send ht =>
    rcases ht with rfl | rfl
    · cases hjob
    · exact .inr hjob
  | reschedule => cases hjob
  | _ => exact .inr hjob

omit [DecidableEq P] in
theorem Works.sent {w w' : EmailWorld P} {t t' : Task P M} {es : List (TaskEvent M)} {j : ℕ}
    {message : EmailMessage M} (h : Works X L i w t w' t' es)
    (hsent : .sent j job message ∈ es) : j = i ∧ t = .sending job message := by
  cases h with
  | send =>
    obtain ⟨rfl, rfl, rfl⟩ := TaskEvent.sent.inj (List.mem_singleton.mp hsent)
    exact ⟨rfl, rfl⟩
  | _ => cases hsent

theorem Delivering.next {a : Act TaskInput Env} (h : Delivering X L e₀ as c)
    (hpush : ∀ i job, (c.calls i).push? = some job → Explains X e₀ as c job)
    (hn : (emailSystem X L).next c a = some d) : Delivering X L e₀ (as ++ [a]) d := by
  have hrun : (emailSystem X L).run e₀ (as ++ [a]) = some d :=
    System.run_append_eq_some.mpr ⟨c, h.run, by simp [System.run_cons, hn]⟩
  cases a with
  | env b =>
    obtain ⟨w, hw, rfl⟩ := System.next_env_eq_some.mp hn
    obtain ⟨r, -, rfl⟩ := Option.map_eq_some_iff.mp hw
    have hold : ∀ job, Explains X e₀ as c job →
        Explains X e₀ (as ++ [.env b]) { c with shared := { c.shared with reset := r } } job := by
      intro job hjob
      simpa [Explains, EmailConfig.service, List.filterMap_append] using
        PasswordResetEmailJob.Origin.append hjob ([.env b].filterMap serviceAct) []
    refine ⟨hrun, fun job hjob => hold job (h.jobs job hjob),
      fun i job hjob => hold job (h.tasks i job hjob), fun i => (h.stands i).append _, ?_⟩
    intro i job message hsent
    obtain ⟨hjob, honce⟩ := h.sent i job message hsent
    exact ⟨hold job hjob, honce.append _⟩
  | call i a =>
    obtain ⟨w, t, es, he, rfl⟩ := System.next_call_eq_some.mp hn
    have hold : ∀ job, Explains X e₀ as c job → Explains X e₀ (as ++ [.call i a])
        ⟨w, Function.update c.calls i t, c.log ++ es⟩ job := by
      intro job hjob
      rw [Explains, service_call, List.filterMap_append]
      exact PasswordResetEmailJob.Origin.append hjob _ _
    -- what the step brings is explained, whoever takes it
    have hstep : (∀ job ∈ w.jobs, Explains X e₀ as c job) ∧
        (∀ job, t.job? = some job → Explains X e₀ as c job) ∧ t.Stands X L e₀ i as ∧
        ∀ j job message, .sent j job message ∈ es → j = i ∧ c.calls i = .sending job message := by
      rcases execTask_cases he with
        ⟨call, b, r, jobs, -, -, -, hjobs, rfl, rfl, rfl⟩ | ⟨-, hworks⟩
      · refine ⟨?_, by simp [Task.job?], trivial, by simp⟩
        intro job hjob
        rcases List.mem_append.mp hjob with hjob | hjob
        · exact h.jobs job hjob
        · exact hpush i job (hjobs job hjob)
      · refine ⟨?_, ?_, stands_of_works h.run (h.stands i) hworks, fun j job message => hworks.sent⟩
        · exact fun job hjob => (hworks.queued hjob).elim (h.jobs job) (h.tasks i job)
        · exact fun job hjob => (hworks.task hjob).elim (h.jobs job) (h.tasks i job)
    obtain ⟨hjobs, htask, hstands, hsends⟩ := hstep
    refine ⟨hrun, fun job hjob => hold job (hjobs job hjob), ?_, ?_, ?_⟩
    · intro j job hjob
      by_cases hj : j = i
      · subst hj
        exact hold job (htask job (by simpa using hjob))
      · exact hold job (h.tasks j job (by simpa [Function.update_of_ne hj] using hjob))
    · intro j
      by_cases hj : j = i
      · subst hj
        simpa using hstands.append [.call j a]
      · simpa [Function.update_of_ne hj] using (h.stands j).append [.call i a]
    · intro j job message hsent
      rcases List.mem_append.mp hsent with hsent | hsent
      · obtain ⟨hjob, honce⟩ := h.sent j job message hsent
        exact ⟨hold job hjob, honce.append _⟩
      · obtain ⟨rfl, hcall⟩ := hsends j job message hsent
        have hsending := h.stands j
        rw [hcall] at hsending
        refine ⟨hold job (h.tasks j job (by rw [hcall]; rfl)), ?_⟩
        exact System.Once.append (System.once_of_run h.run ⟨hcall, hsending.1, hsending.2⟩) _

end Delivery

section Main

variable {P M : Type} [DecidableEq P] {X : Platform P} {L : Mailer M} {t : ℕ}
  {users : List UserRow} {c : EmailConfig P M} {as : List (Act TaskInput Env)}
  {job : PasswordResetEmailJob}

theorem service_run (h : (emailSystem X L).run (emailInitial t users) as = some c) :
    (system X).run (initial t users) (as.filterMap serviceAct) = some c.service :=
  (serviceProjection X L).run h

/-- A call that is about to queue a job has stored its code. -/
theorem explains_of_push (h : (emailSystem X L).run (emailInitial t users) as = some c) {i : ℕ}
    (hpush : (c.calls i).push? = some job) : Explains X (emailInitial (M := M) t users) as c job := by
  cases hcall : c.calls i with
  | request call =>
    rw [hcall] at hpush
    cases call with
    | enqueue user code codeHash existing now =>
      cases hpush
      have hforgets := (forgetting_of_run (service_run h)).calls i
      have hservice : c.service.calls i = .enqueue user code codeHash existing now := by
        simp [EmailConfig.service, hcall, Task.call]
      rw [hservice] at hforgets
      exact ⟨i, user, now, hforgets.1, rfl, rfl, hforgets.2, rfl⟩
    | _ => cases hpush
  | _ =>
    rw [hcall] at hpush
    cases hpush

theorem delivering_of_run (h : (emailSystem X L).run (emailInitial t users) as = some c) :
    Delivering X L (emailInitial t users) as c := by
  refine System.run_history (I := Delivering X L (emailInitial t users)) ?_ ?_ h
  · intro bs x a y hx hn
    exact hx.next (fun i job => explains_of_push hx.run) hn
  · exact ⟨rfl, by simp [emailInitial], by simp [emailInitial, Task.job?], fun _ => trivial,
      by simp [emailInitial]⟩

omit [DecidableEq P] in
theorem mem_service_log {e : Event} : e ∈ c.service.log ↔ .reset e ∈ c.log := by
  simp only [EmailConfig.service, List.mem_filterMap]
  constructor
  · rintro ⟨x, hx, he⟩
    cases x with
    | reset => cases he; exact hx
    | sent => cases he
  · exact fun h => ⟨_, h, rfl⟩

/-- A code that is awaited was issued, and no key was given for it. -/
theorem issued_of_live (h : (emailSystem X L).run (emailInitial t users) as = some c) {u : UserId}
    {codeHash : String} {codeExpiresAt codeSentAt n : ℕ}
    (hlive : c.shared.reset.store.live X.toPayloadCodec u =
      some (.AwaitingCode codeHash codeExpiresAt codeSentAt n)) :
    (∃ m, .issued m u codeHash codeSentAt ∈ c.service.log) ∧
      ∀ j v k e, .keyIssued j v codeHash k e ∉ c.service.log := by
  have hledger := (refines ⟨_, service_run h⟩).2
  have hheld : (Ledger.of X c.service).live u =
      some (.AwaitingCode codeHash codeExpiresAt codeSentAt n) := hlive
  constructor
  · exact hledger.origins.held u _ (.inl hheld)
  · intro j v k e hmem
    have htoken : (Ledger.of X c.service).tokens (.inl u) = some (.code codeHash) := by
      simp [Ledger.tokens, hheld, PasswordResetState.secret]
    apply hledger.inv.spent.held _ _ htoken
    exact List.mem_filterMap.mpr ⟨_, hmem, rfl⟩

end Main

/-- A message that a worker sends carries the code that one `forgot_password` request had stored,
and goes to the address of the verified user whom that request had found. While the worker had the job
in hand there was a moment at which this code was the user's stored one and no key had been given for
it, and after it one at which it had not expired. Jobs may be delivered again, queue and mail server
may lose their answers, and workers may crash. -/
theorem mailed_codes {P M : Type} [DecidableEq P] (X : Platform P) (L : Mailer M) (t : ℕ)
    (users : List UserRow) (as : List (Act TaskInput Env)) (c : EmailConfig P M)
    (h : (emailSystem X L).run (emailInitial t users) as = some c) (i : ℕ)
    (job : PasswordResetEmailJob) (message : EmailMessage M)
    (hsent : .sent i job message ∈ c.log) :
    job.message L = some message ∧
    ∃ m email address n user codeSentAt,
      .call m (.request (.forgotPassword email job.code)) ∈ as ∧
      X.parseEmail email = some address ∧ job.codeHash = X.hash n job.code ∧
      (emailSystem X L).Once (emailInitial t users)
        (fun _ x => findVerifiedUserByEmail X x.shared.reset address = some user) as ∧
      user.id = job.userId ∧ user.email = job.email ∧
      job.codeExpiresAt = codeSentAt + minutes passwordResetCodeExpiresMinutes ∧
      (emailSystem X L).Once (emailInitial t users) (fun bs z =>
        z.calls i = .sending job message ∧
        (emailSystem X L).Once (emailInitial t users) (fun cs y =>
          y.calls i = .comparing job ∧ y.shared.reset.clock ≤ job.codeExpiresAt ∧
          (emailSystem X L).Once (emailInitial t users) (fun _ x =>
            x.calls i = .loading job ∧ (∃ k, x.shared.reset.store.live X.toPayloadCodec job.userId =
              some (.AwaitingCode job.codeHash job.codeExpiresAt codeSentAt k)) ∧
            .reset (.issued m job.userId job.codeHash codeSentAt) ∈ x.log ∧
            ∀ j v k e, .reset (.keyIssued j v job.codeHash k e) ∉ x.log) cs) bs) as := by
  obtain ⟨hexplains, honce⟩ := (delivering_of_run h).sent i job message hsent
  obtain ⟨m, user, codeSentAt, ⟨address, ⟨email, n, hasked, haddress, hhash⟩, hfound⟩, hid, hemail,
    hissued, hexp⟩ := hexplains
  have hminted := (refines ⟨_, service_run h⟩).2.inv.minted
  have hmessage : job.message L = some message := by
    obtain ⟨_, _, _, _, _, -, hmessage, -⟩ := honce
    exact hmessage
  refine ⟨hmessage, m, email, address, n, user, codeSentAt, ?_, haddress, hhash,
    (serviceProjection X L).once h hfound, hid, hemail, hexp, ?_⟩
  · obtain ⟨a, ha, hact⟩ := List.mem_filterMap.mp hasked
    cases a with
    | env b => cases hact
    | call j a =>
      cases a with
      | request a =>
        cases hact
        exact ha
      | pushLost => cases hact
      | _ => cases hact
  · obtain ⟨bs, cs, z, hsplit, hz, hsending, -, hchecked⟩ := honce
    refine ⟨bs, cs, z, hsplit, hz, hsending, hchecked.imp ?_⟩
    rintro ds y hds - ⟨hcomparing, hclock, hseen⟩
    refine ⟨hcomparing, hclock, hseen.imp ?_⟩
    rintro es x hes hx ⟨hloading, sentAt, k, hlive⟩
    -- the code that is awaited is the one that this request has stored
    obtain ⟨⟨m', hissued'⟩, hunused⟩ := issued_of_live hx hlive
    have hle : es <+: as := hsplit ▸ (hes.trans hds).trans (List.prefix_append ..)
    have hlog : .issued m' job.userId job.codeHash sentAt ∈ c.service.log :=
      mem_service_log.mpr (System.log_subset_of_run hle hx h (mem_service_log.mp hissued'))
    cases hminted.unique hlog hissued rfl rfl
    exact ⟨hloading, ⟨k, hlive⟩, mem_service_log.mp hissued',
      fun j v k' e hmem => hunused j v k' e (mem_service_log.mpr hmem)⟩

def plainMailer : Mailer String where
  sender := "noreply"
  parseMailbox := some
  accepts _ := true

def plainJob : PasswordResetEmailJob where
  userId := 7
  email := "kogasa@example.org"
  code := "135790"
  codeHash := "$135790"
  codeExpiresAt := minutes 10

def plainMessage : EmailMessage String where
  sender := "noreply"
  recipient := "kogasa@example.org"
  subject := "Reset your password"
  body := "Your password reset code is 135790. It expires in 10 minutes."

/-- The mail server loses its answer, and the worker sends the message again. -/
def plainDeliveries : List (Act TaskInput Env) :=
  [.call 0 (.request (.forgotPassword "kogasa@example.org" "135790")), .call 0 (.request .ok),
    .call 0 (.request .ok), .call 0 (.request .ok), .call 0 (.request .ok),
    .call 0 (.request .ok), .call 0 (.request .ok), .call 1 (.deliver plainJob), .call 1 .ok,
    .call 1 .ok, .call 1 .ok, .call 1 .sendLost, .call 1 .ok, .call 2 (.deliver plainJob),
    .call 2 .ok, .call 2 .ok, .call 2 .ok, .call 2 .ok]

theorem plainDeliveries_log :
    ((emailSystem Platform.plain plainMailer).run (emailInitial 0 [plainUser]) plainDeliveries).map
      (·.log) =
      some [.reset (.issued 0 7 "$135790" 0), .reset (.queued 0 7 "$135790" 0),
        .sent 1 plainJob plainMessage, .sent 2 plainJob plainMessage] := by
  decide

theorem mailed_codes_plain : ∃ c,
    (emailSystem Platform.plain plainMailer).run (emailInitial 0 [plainUser]) plainDeliveries =
      some c ∧ .sent 2 plainJob plainMessage ∈ c.log ∧
    (∃ m email, .call m (.request (.forgotPassword email "135790")) ∈ plainDeliveries) ∧
    (emailSystem Platform.plain plainMailer).Once (emailInitial 0 [plainUser])
      (fun _ z => z.calls 2 = .sending plainJob plainMessage) plainDeliveries := by
  obtain ⟨c, hc, hlog⟩ := Option.map_eq_some_iff.mp plainDeliveries_log
  have hmem : .sent 2 plainJob plainMessage ∈ c.log := by simp [hlog]
  obtain ⟨-, m, email, _, _, _, _, hasked, -, -, -, -, -, -, honce⟩ :=
    mailed_codes Platform.plain plainMailer 0 [plainUser] plainDeliveries c hc 2 plainJob _ hmem
  exact ⟨c, hc, hmem, ⟨m, email, hasked⟩, honce.imp fun _ _ _ _ hz => hz.1⟩

end Thcdb.PasswordReset
