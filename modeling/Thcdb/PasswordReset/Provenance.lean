import Thcdb.Interleaving.History
import Thcdb.PasswordReset.SingleUse

namespace Thcdb.PasswordReset
open Auth Interleaving

/-- What an event must follow, of the events before it. -/
def Event.Follows (before : List Event) : Event → Prop
  | .keyIssued _ userId codeHash .. => ∃ j codeSentAt, .issued j userId codeHash codeSentAt ∈ before
  | .consumed _ userId resetKeyHash resetKeyExpiresAt _ =>
    ∃ j codeHash, .keyIssued j userId codeHash resetKeyHash resetKeyExpiresAt ∈ before
  | .passwordSet i userId resetKeyHash =>
    ∃ resetKeyExpiresAt now, .consumed i userId resetKeyHash resetKeyExpiresAt now ∈ before
  | _ => True

def PasswordResetState.StoredBy (userId : UserId) (log : List Event) :
    PasswordResetState → Prop
  | .AwaitingCode codeHash _ codeSentAt _ => ∃ j, .issued j userId codeHash codeSentAt ∈ log
  | .AwaitingPassword resetKeyHash resetKeyExpiresAt =>
    ∃ j codeHash, .keyIssued j userId codeHash resetKeyHash resetKeyExpiresAt ∈ log

theorem PasswordResetState.StoredBy.mono {u : UserId} {log log' : List Event}
    {st : PasswordResetState} (h : st.StoredBy u log) (hle : log <+: log') :
    st.StoredBy u log' := by
  cases st with
  | AwaitingCode =>
    obtain ⟨j, hj⟩ := h
    exact ⟨j, hle.subset hj⟩
  | AwaitingPassword =>
    obtain ⟨j, k, hj⟩ := h
    exact ⟨j, k, hle.subset hj⟩

namespace Ledger

variable {L L' : Ledger}

/-- Every state that is held was stored by a logged event, every key that is in hand was taken by
one, and every event follows the one it rests on. -/
structure Origins (L : Ledger) : Prop where
  held : ∀ u st, L.Holds u st → st.StoredBy u L.log
  taken : ∀ i u k e, L.hand i = some (.consumed u k e) → ∃ now, .consumed i u k e now ∈ L.log
  log : Always Event.Follows L.log

theorem Origins.start (h : Start L) : Origins L where
  held u st hu := by
    rcases hu with hu | ⟨i, a, hi, -⟩
    · simp [h.live] at hu
    · simp [h.hand] at hi
  taken := by simp [h.hand]
  log := by simp [h.log]

theorem Origins.step_held (hs : Step L L') (h : Origins L) {u : UserId} {st : PasswordResetState}
    (hu : L'.Holds u st) : st.StoredBy u L'.log := by
  rcases hs.holds hu with hu | ⟨i, k, now, -, rfl, hl⟩ | ⟨i, k, key, exp, -, rfl, hl⟩ |
    ⟨i, k, e, s, n, hk, rfl, hl⟩
  · exact (h.held u st hu).mono hs.log_le
  · exact ⟨i, by simp [hl]⟩
  · exact ⟨i, k, by simp [hl]⟩
  · -- one more wrong submission is no other code
    exact (h.held u (.AwaitingCode k e s n) (Or.inl hk)).mono hs.log_le

theorem Origins.step_taken (hs : Step L L') (h : Origins L) {i : ℕ} {u : UserId} {k : String}
    {e : ℕ} (hi : L'.hand i = some (.consumed u k e)) :
    ∃ now, .consumed i u k e now ∈ L'.log := by
  have old (hi : L.hand i = some (.consumed u k e)) : ∃ now, .consumed i u k e now ∈ L'.log := by
    obtain ⟨now, hmem⟩ := h.taken i u k e hi
    exact ⟨now, hs.log_le.subset hmem⟩
  cases hs with
  | quiet | waste | lapse | wrong => exact old hi
  | consume j v k' e' now hh hl =>
    rcases hand_setHand hi with ⟨rfl, hx⟩ | hi
    · obtain ⟨rfl, rfl, rfl⟩ := Hand.consumed.inj (Option.some.inj hx)
      exact ⟨now, by simp⟩
    · exact old hi
  | drop j | draw j | issue j | queue j | rollback j | verify j | restore j | setPassword j =>
    rcases hand_setHand hi with ⟨rfl, hx⟩ | hi
    · cases hx
    · exact old hi

theorem Origins.step_log (hs : Step L L') (h : Origins L) : Always Event.Follows L'.log := by
  cases hs with
  | quiet | waste | drop | draw | rollback | restore | lapse => exact h.log
  | issue | queue | wrong => exact h.log.snoc trivial
  | verify i u k e s n key exp hh hl hn he =>
    obtain ⟨j, hj⟩ := h.held u _ (Or.inl hl)
    exact h.log.snoc ⟨j, s, hj⟩
  | consume i u k exp now hh hl => exact h.log.snoc (h.held u _ (Or.inl hl))
  | setPassword i u k exp hh =>
    obtain ⟨now, hnow⟩ := h.taken i u k exp hh
    exact h.log.snoc ⟨exp, now, hnow⟩

theorem Reachable.origins (h : Reachable L) : Origins L := by
  induction h with
  | start h => exact Origins.start h
  | step _ hs ih =>
    exact ⟨fun _ _ => ih.step_held hs, fun _ _ _ _ => ih.step_taken hs, ih.step_log hs⟩

end Ledger

section Inputs

variable {P : Type} (X : Platform P)

/-- The request asks for a code and draws the one with this hash. -/
def Input.Draws (codeHash : String) (a : Input) : Prop :=
  ∃ email code n, a = .forgotPassword email code ∧ codeHash = X.hash n code

/-- The request brings a code that fits this hash. -/
def Input.Knows (codeHash : String) (a : Input) : Prop :=
  ∃ email code, a = .verifyResetCode email code ∧ X.verify codeHash code = some true

def Input.Brings (resetKeyHash : String) (a : Input) : Prop :=
  ∃ key password, a = .resetPassword key password ∧ X.hashKey key = resetKeyHash

def Event.caller : Event → ℕ
  | .issued i .. | .queued i .. | .recorded i .. | .keyIssued i .. | .consumed i ..
  | .passwordSet i .. => i

def Event.AskedBy (a : Input) : Event → Prop
  | .issued _ _ codeHash _ | .queued _ _ codeHash _ => a.Draws X codeHash
  | .keyIssued _ _ codeHash .. => a.Knows X codeHash
  | .consumed _ _ resetKeyHash .. | .passwordSet _ _ resetKeyHash => a.Brings X resetKeyHash
  | .recorded .. => True

def Caller.AskedBy (a : Input) : Caller P → Prop
  | .forgot _ _ codeHash .. => a.Draws X codeHash
  | .verify _ submitted _ codeHash .. =>
    (∃ email, a = .verifyResetCode email submitted) ∧ X.verify codeHash submitted = some true
  | .rollback .. | .restore .. => True

/-- What the locals of a call keep of the request that began it. -/
def Call.AskedBy (a : Input) : Call P → Prop
  | .forgotFindUser _ _ codeHash | .forgotLoad _ _ codeHash | .forgotCooldown _ _ codeHash _
  | .enqueue _ _ codeHash _ _ => a.Draws X codeHash
  | .save caller | .eval caller _ => caller.AskedBy X a
  | .verifyFindUser _ submitted | .verifyLoad _ submitted | .verifyCode _ submitted _
  | .increment _ submitted _ _ => ∃ email, a = .verifyResetCode email submitted
  | .issueKey _ submitted _ codeHash =>
    (∃ email, a = .verifyResetCode email submitted) ∧ X.verify codeHash submitted = some true
  | .consume resetKeyHash passwordHash | .findConsumedUser _ resetKeyHash passwordHash
  | .setPassword _ resetKeyHash passwordHash _ => ∃ key password n,
    a = .resetPassword key password ∧ X.hashKey key = resetKeyHash ∧
      passwordHash = X.hash n password
  | .idle | .clear .. | .restore .. | .done _ => True

variable {X}

theorem parseVerificationCode_eq {input code : String}
    (h : parseVerificationCode input = some code) : code = input := by
  unfold parseVerificationCode at h
  split at h
  · exact (Option.some.inj h).symm
  · cases h

theorem Caller.AskedBy.resume {a : Input} {k : Caller P} (h : k.AskedBy X a) (saved : Bool) :
    (k.resume saved).AskedBy X a := by
  cases k <;> cases saved <;> first | exact h | exact h.1 | trivial

theorem Caller.AskedBy.savedEvent {a : Input} {k : Caller P} (h : k.AskedBy X a) {i : ℕ}
    {e : Event} (he : e ∈ k.savedEvent X i) : e.caller = i ∧ e.AskedBy X a := by
  cases k with
  | rollback | restore => cases he
  | forgot user code codeHash existing now =>
    obtain rfl := List.mem_singleton.mp he
    exact ⟨rfl, h⟩
  | verify user submitted state codeHash resetKey exp =>
    obtain rfl := List.mem_singleton.mp he
    obtain ⟨⟨email, ha⟩, hv⟩ := h
    exact ⟨rfl, email, submitted, ha, hv⟩

variable [DecidableEq P]

/-- A statement goes on with the request of its call, and logs no event of any other. -/
theorem askedBy_of_statement {i : ℕ} {w : World P} {c : Call P} {a : Input}
    {r : World P × Call P × List Event} (h : statement X i w c = some r) (hc : c.AskedBy X a) :
    r.2.1.AskedBy X a ∧ ∀ e ∈ r.2.2, e.caller = i ∧ e.AskedBy X a := by
  have nothing {l : Call P} {w' : World P} (hl : l.AskedBy X a) :
      (w', l, ([] : List Event)).2.1.AskedBy X a ∧
        ∀ e ∈ (w', l, ([] : List Event)).2.2, e.caller = i ∧ e.AskedBy X a :=
    ⟨hl, by simp⟩
  cases c with
  | idle | done => cases h
  | eval k ttl =>
    obtain rfl := Option.some.inj h
    refine ⟨hc.resume _, ?_⟩
    intro e he
    simp only at he
    split at he
    · exact hc.savedEvent he
    · cases he
  | save k =>
    simp only [statement] at h
    split at h
    all_goals obtain rfl := Option.some.inj h
    · exact nothing (hc.resume false)
    · exact nothing hc
  | enqueue user code codeHash existing now =>
    obtain rfl := Option.some.inj h
    refine ⟨trivial, ?_⟩
    intro e he
    obtain rfl := List.mem_singleton.mp he
    exact ⟨rfl, hc⟩
  | verifyFindUser email code =>
    simp only [statement] at h
    split at h
    · rename_i user submitted _ hp
      obtain rfl := Option.some.inj h
      exact nothing (parseVerificationCode_eq hp ▸ hc)
    · obtain rfl := Option.some.inj h
      exact nothing trivial
  | verifyCode user submitted state =>
    simp only [statement] at h
    split at h
    · obtain rfl := Option.some.inj h
      exact nothing trivial
    · split at h
      all_goals obtain rfl := Option.some.inj h
      · exact nothing trivial
      · rename_i hv
        exact nothing ⟨hc, hv⟩
      · exact nothing hc
  | increment user submitted state codeHash =>
    simp only [statement] at h
    split at h
    all_goals obtain rfl := Option.some.inj h
    · exact nothing trivial
    · refine ⟨trivial, ?_⟩
      intro e he
      obtain rfl := List.mem_singleton.mp he
      exact ⟨rfl, trivial⟩
    · exact nothing hc
  | consume resetKeyHash passwordHash =>
    simp only [statement] at h
    split at h
    all_goals obtain rfl := Option.some.inj h
    · exact nothing trivial
    · refine ⟨hc, ?_⟩
      intro e he
      obtain rfl := List.mem_singleton.mp he
      obtain ⟨key, password, n, ha, hk, -⟩ := hc
      exact ⟨rfl, key, password, ha, hk⟩
  | setPassword consumed resetKeyHash passwordHash user =>
    simp only [statement] at h
    split at h
    all_goals obtain rfl := Option.some.inj h
    · exact nothing trivial
    · refine ⟨trivial, ?_⟩
      intro e he
      obtain rfl := List.mem_singleton.mp he
      obtain ⟨key, password, n, ha, hk, -⟩ := hc
      exact ⟨rfl, key, password, ha, hk⟩
  | _ =>
    simp only [statement] at h
    repeat' split at h
    all_goals
      obtain rfl := Option.some.inj h
      first | exact nothing hc | exact nothing trivial

omit [DecidableEq P] in
theorem askedBy_of_start {a : Input} {w : World P} {r : World P × Call P × List Event}
    (h : start X w a = some r) : r.2.1.AskedBy X a ∧ r.2.2 = [] := by
  cases a with
  | ok | fail => cases h
  | forgotPassword email code =>
    simp only [start] at h
    split at h
    all_goals obtain rfl := Option.some.inj h
    · exact ⟨trivial, rfl⟩
    · exact ⟨⟨email, code, w.salts, rfl, rfl⟩, rfl⟩
  | verifyResetCode email code =>
    simp only [start] at h
    split at h
    all_goals obtain rfl := Option.some.inj h
    · exact ⟨trivial, rfl⟩
    · exact ⟨⟨email, rfl⟩, rfl⟩
  | resetPassword key password =>
    simp only [start] at h
    repeat' split at h
    all_goals obtain rfl := Option.some.inj h
    · exact ⟨trivial, rfl⟩
    · exact ⟨trivial, rfl⟩
    · exact ⟨⟨key, password, w.salts, rfl, rfl, rfl⟩, rfl⟩

omit [DecidableEq P] in
theorem askedBy_of_fail {c c' : Call P} {a : Input} (h : c.fail X = some c')
    (hc : c.AskedBy X a) : c'.AskedBy X a := by
  cases c with
  | enqueue user code codeHash existing now =>
    cases existing
    all_goals
      obtain rfl := Option.some.inj h
      trivial
  | idle | forgotCooldown | save | issueKey | restore | done => cases h
  | _ =>
    obtain rfl := Option.some.inj h
    trivial

structure Asked (X : Platform P) (as : List (Act Input Env)) (c : Config P) : Prop where
  calls : ∀ i, c.calls i = .idle ∨ ∃ a, .call i a ∈ as ∧ (c.calls i).AskedBy X a
  log : ∀ e ∈ c.log, ∃ a, .call e.caller a ∈ as ∧ e.AskedBy X a

theorem Asked.next {as : List (Act Input Env)} {c d : Config P} {b : Act Input Env}
    (h : Asked X as c) (hn : (system X).next c b = some d) : Asked X (as ++ [b]) d := by
  have old {e : Event} (he : e ∈ c.log) :
      ∃ a, .call e.caller a ∈ as ++ [b] ∧ e.AskedBy X a := by
    obtain ⟨a, ha, hea⟩ := h.log e he
    exact ⟨a, List.mem_append_left _ ha, hea⟩
  have oldCall (j : ℕ) : c.calls j = .idle ∨
      ∃ a, .call j a ∈ as ++ [b] ∧ (c.calls j).AskedBy X a := by
    refine (h.calls j).imp id ?_
    rintro ⟨a, ha, hja⟩
    exact ⟨a, List.mem_append_left _ ha, hja⟩
  cases b with
  | env x =>
    obtain ⟨s, -, rfl⟩ := System.next_env_eq_some.mp hn
    exact ⟨oldCall, fun e => old⟩
  | call i x =>
    obtain ⟨w, l, es, he, rfl⟩ := System.next_call_eq_some.mp hn
    -- the request that the statement goes on with
    have hl : ∃ a, .call i a ∈ as ++ [.call i x] ∧ l.AskedBy X a ∧
        ∀ e ∈ es, e.caller = i ∧ e.AskedBy X a := by
      rcases exec_cases X he with ⟨-, hs⟩ | ⟨-, l', hl', heq⟩ | ⟨-, hs⟩
      · rcases h.calls i with hidle | ⟨a, ha, hia⟩
        · rw [hidle] at hs
          cases hs
        · exact ⟨a, List.mem_append_left _ ha, askedBy_of_statement hs hia⟩
      · rcases h.calls i with hidle | ⟨a, ha, hia⟩
        · rw [hidle] at hl'
          cases hl'
        · obtain ⟨rfl, rfl, rfl⟩ := heq
          exact ⟨a, List.mem_append_left _ ha, askedBy_of_fail hl' hia, by simp⟩
      · obtain ⟨hla, rfl⟩ := askedBy_of_start hs
        exact ⟨x, by simp, hla, by simp⟩
    obtain ⟨a, ha, hla, hes⟩ := hl
    constructor
    · intro j
      by_cases hj : j = i
      · subst hj
        simp only [Function.update_self]
        exact Or.inr ⟨a, ha, hla⟩
      · simp only [Function.update_of_ne hj]
        exact oldCall j
    · intro e hmem
      rcases List.mem_append.mp hmem with hmem | hmem
      · exact old hmem
      · obtain ⟨hi, hea⟩ := hes e hmem
        exact ⟨a, hi ▸ ha, hea⟩

theorem asked_of_run {as : List (Act Input Env)} {t : ℕ} {users : List UserRow} {c : Config P}
    (h : (system X).run (initial t users) as = some c) : Asked X as c :=
  System.run_history (I := Asked X) (fun _ _ _ _ hx hn => hx.next hn)
    ⟨fun _ => Or.inl rfl, by simp [initial]⟩ h

end Inputs

section Sessions

variable {P : Type} [DecidableEq P] {X : Platform P}

/-- A reset key is shown to the call that was issued it, and to no other. -/
structure Shown (X : Platform P) (c : Config P) : Prop where
  session : ∀ i s, c.calls i = .done (.session s) →
    ∃ u codeHash, .keyIssued i u codeHash (X.hashKey s.key) s.keyExpiresAt ∈ c.log
  issued : ∀ i u codeHash k exp, .keyIssued i u codeHash k exp ∈ c.log →
    ∃ key, c.calls i = .done (.session ⟨key, exp⟩) ∧ X.hashKey key = k

/-- What a call that is about to hand out a key has logged, and the other way round. -/
theorem shown_of_exec {i : ℕ} {a : Input} {w : World P} {c : Call P}
    {r : World P × Call P × List Event} (h : (system X).exec i a w c = some r) :
    (∀ s, r.2.1 = .done (.session s) →
      ∃ u codeHash, .keyIssued i u codeHash (X.hashKey s.key) s.keyExpiresAt ∈ r.2.2) ∧
    ∀ j u codeHash k exp, .keyIssued j u codeHash k exp ∈ r.2.2 →
      j = i ∧ ∃ key, r.2.1 = .done (.session ⟨key, exp⟩) ∧ X.hashKey key = k := by
  have other {w' : World P} {l : Call P} {es : List Event} (hl : ∀ s, l ≠ .done (.session s))
      (hes : ∀ j u codeHash k exp, .keyIssued j u codeHash k exp ∉ es) :
      (∀ s, (w', l, es).2.1 = .done (.session s) →
        ∃ u codeHash, .keyIssued i u codeHash (X.hashKey s.key) s.keyExpiresAt ∈ (w', l, es).2.2) ∧
      ∀ j u codeHash k exp, .keyIssued j u codeHash k exp ∈ (w', l, es).2.2 →
        j = i ∧ ∃ key, (w', l, es).2.1 = .done (.session ⟨key, exp⟩) ∧ X.hashKey key = k :=
    ⟨fun s hs => absurd hs (hl s), fun j u codeHash k exp hm => absurd hm (hes j u codeHash k exp)⟩
  rcases exec_cases X h with ⟨-, h⟩ | ⟨-, c', hc', rfl⟩ | ⟨-, hs⟩
  · cases c with
    | idle | done => cases h
    | eval k ttl =>
      obtain rfl := Option.some.inj h
      -- only `verify` hands out a key, and only one that it has saved
      cases (savePasswordResetStateIfMatches w.store w.clock (k.saveArgs X ttl)).2 with
      | false => cases k <;> exact other (by simp [Caller.resume]) (by simp)
      | true =>
        cases k with
        | verify user submitted state codeHash resetKey exp =>
          constructor
          · intro s hs
            obtain rfl := Outcome.session.inj (Call.done.inj hs)
            exact ⟨user.id, codeHash, List.mem_singleton_self _⟩
          · intro j u codeHash' k' exp' hm
            obtain ⟨rfl, -, -, rfl, rfl⟩ := Event.keyIssued.inj (List.mem_singleton.mp hm)
            exact ⟨rfl, resetKey, rfl, rfl⟩
        | forgot | rollback | restore =>
          exact other (by simp [Caller.resume]) (by simp [Caller.savedEvent])
    | save k =>
      simp only [statement] at h
      split at h
      all_goals obtain rfl := Option.some.inj h
      · cases k <;> exact other (by simp [Caller.resume]) (by simp)
      · exact other (by simp) (by simp)
    | _ =>
      simp only [statement] at h
      repeat' split at h
      all_goals
        obtain rfl := Option.some.inj h
        exact other (by simp) (by simp)
  · cases c with
    | enqueue user code codeHash existing now =>
      cases existing
      all_goals
        obtain rfl := Option.some.inj hc'
        exact other (by simp) (by simp)
    | idle | forgotCooldown | save | issueKey | restore | done => cases hc'
    | _ =>
      obtain rfl := Option.some.inj hc'
      exact other (by simp) (by simp)
  · cases a with
    | ok | fail => cases hs
    | _ =>
      simp only [start] at hs
      repeat' split at hs
      all_goals
        obtain rfl := Option.some.inj hs
        exact other (by simp) (by simp)

theorem exec_of_done {i : ℕ} {a : Input} {w : World P} {o : Outcome}
    {r : World P × Call P × List Event} : (system X).exec i a w (.done o) ≠ some r := by
  intro h
  rcases exec_cases X h with ⟨-, h⟩ | ⟨-, c', hc', -⟩ | ⟨hidle, -⟩
  · cases h
  · cases hc'
  · cases hidle

theorem Shown.next {c d : Config P} {b : Act Input Env} (h : Shown X c)
    (hn : (system X).next c b = some d) : Shown X d := by
  cases b with
  | env x =>
    obtain ⟨s, -, rfl⟩ := System.next_env_eq_some.mp hn
    exact ⟨h.session, h.issued⟩
  | call i x =>
    obtain ⟨w, l, es, he, rfl⟩ := System.next_call_eq_some.mp hn
    obtain ⟨hsession, hissued⟩ := shown_of_exec he
    constructor
    · intro j s hs
      by_cases hj : j = i
      · subst hj
        simp only [Function.update_self] at hs
        obtain ⟨u, codeHash, hm⟩ := hsession s hs
        exact ⟨u, codeHash, List.mem_append_right _ hm⟩
      · simp only [Function.update_of_ne hj] at hs
        obtain ⟨u, codeHash, hm⟩ := h.session j s hs
        exact ⟨u, codeHash, List.mem_append_left _ hm⟩
    · intro j u codeHash k exp hm
      rcases List.mem_append.mp hm with hm | hm
      · obtain ⟨key, hdone, hk⟩ := h.issued j u codeHash k exp hm
        have hj : j ≠ i := by
          rintro rfl
          rw [hdone] at he
          exact exec_of_done he
        exact ⟨key, (Function.update_of_ne hj ..).trans hdone, hk⟩
      · obtain ⟨rfl, key, hdone, hk⟩ := hissued j u codeHash k exp hm
        exact ⟨key, (Function.update_self ..).trans hdone, hk⟩

theorem shown_of_reachable {t : ℕ} {users : List UserRow} {c : Config P}
    (h : (system X).Reachable (initial t users) c) : Shown X c :=
  h.induction (I := Shown X) (fun _ _ _ hx hn => hx.next hn)
    ⟨by simp [initial], by simp [initial]⟩

end Sessions

section Chain
open scoped List

variable {P : Type} [DecidableEq P] {X : Platform P}

theorem sublist_snoc {xs before after : List Event} {e : Event} (h : xs <+ before) :
    xs ++ [e] <+ before ++ e :: after :=
  h.append (List.singleton_sublist.mpr List.mem_cons_self)

theorem setPassword_of_exec {i j : ℕ} {a : Input} {w w' : World P} {c l : Call P}
    {es : List Event} {u : UserId} {k : String} (h : (system X).exec i a w c = some (w', l, es))
    (hm : .passwordSet j u k ∈ es) :
    j = i ∧ a = .ok ∧ ∃ consumed passwordHash user, c = .setPassword consumed k passwordHash user ∧
      setPassword w.users u passwordHash = some w'.users := by
  have hlogs : Logs X i w c es := exec_logs h
  cases hlogs with
  | nothing => cases hm
  | queued | recorded | consumed => simp at hm
  | saved caller => cases caller <;> simp [Caller.savedEvent] at hm
  | passwordSet consumed k' passwordHash user =>
    obtain ⟨rfl, rfl, rfl⟩ := Event.passwordSet.inj (List.mem_singleton.mp hm)
    rcases exec_cases X h with ⟨rfl, hs⟩ | ⟨-, c', -, heq⟩ | ⟨hidle, -⟩
    · refine ⟨rfl, rfl, consumed, passwordHash, user, rfl, ?_⟩
      simp only [statement] at hs
      split at hs
      · simp at hs
      · rename_i users husers
        obtain ⟨rfl, -, -⟩ := Option.some.inj hs
        exact husers
    · simp at heq
    · cases hidle

/-- The statement that set a password wrote the hash of the one its own request had brought. -/
theorem written_of_log {as : List (Act Input Env)} {t : ℕ} {users : List UserRow} {c : Config P}
    (h : (system X).run (initial t users) as = some c) {i : ℕ} {u : UserId} {k : String}
    (hset : .passwordSet i u k ∈ c.log) :
    ∃ as₁ as₂ x y key password n, as = as₁ ++ .call i .ok :: as₂ ∧
      (system X).run (initial t users) as₁ = some x ∧ (system X).next x (.call i .ok) = some y ∧
      .call i (.resetPassword key password) ∈ as₁ ∧ X.hashKey key = k ∧
      setPassword x.shared.users u (X.hash n password) = some y.shared.users := by
  obtain ⟨as₁, b, as₂, x, y, rfl, hx, hy, -, hold, hnew⟩ :=
    System.exists_step_of_log h (by simp [initial]) hset
  cases b with
  | env b =>
    obtain ⟨s, -, rfl⟩ := System.next_env_eq_some.mp hy
    exact absurd hnew hold
  | call j a =>
    obtain ⟨w, l, es, he, rfl⟩ := System.next_call_eq_some.mp hy
    have hmem : .passwordSet i u k ∈ es := (List.mem_append.mp hnew).resolve_left hold
    obtain ⟨rfl, rfl, consumed, passwordHash, user, hcall, hwrite⟩ := setPassword_of_exec he hmem
    rcases (asked_of_run hx).calls i with hidle | ⟨a, ha, hia⟩
    · rw [hidle] at hcall
      cases hcall
    · rw [hcall] at hia
      obtain ⟨key, password, n, rfl, hk, rfl⟩ := hia
      exact ⟨as₁, as₂, x, _, key, password, n, rfl, hx, hy, ha, hk, hwrite⟩

/-- However the calls are interleaved, a password is set only at the end of one chain: a code was
drawn for that user by `forgot_password`, one request brought a text that fits the code and was
alone shown the key, and the request that set the password brought that key and the password. -/
theorem password_set_by_code (X : Platform P) (t : ℕ) (users : List UserRow)
    (as : List (Act Input Env)) (c : Config P)
    (h : (system X).run (initial t users) as = some c) (i : ℕ) (u : UserId) (resetKeyHash : String)
    (hset : .passwordSet i u resetKeyHash ∈ c.log) :
    ∃ m j codeHash codeSentAt resetKeyExpiresAt now resetKey,
      [.issued m u codeHash codeSentAt, .keyIssued j u codeHash resetKeyHash resetKeyExpiresAt,
        .consumed i u resetKeyHash resetKeyExpiresAt now, .passwordSet i u resetKeyHash] <+ c.log ∧
      (∃ a, .call m a ∈ as ∧ a.Draws X codeHash) ∧
      (∃ a, .call j a ∈ as ∧ a.Knows X codeHash) ∧
      c.calls j = .done (.session ⟨resetKey, resetKeyExpiresAt⟩) ∧
      X.hashKey resetKey = resetKeyHash ∧
      (∀ n s, c.calls n = .done (.session s) → X.hashKey s.key = resetKeyHash → n = j) ∧
      ∃ as₁ as₂ x y key password n, as = as₁ ++ .call i .ok :: as₂ ∧
        (system X).run (initial t users) as₁ = some x ∧ (system X).next x (.call i .ok) = some y ∧
        .call i (.resetPassword key password) ∈ as₁ ∧ X.hashKey key = resetKeyHash ∧
        setPassword x.shared.users u (X.hash n password) = some y.shared.users := by
  have hreach : (system X).Reachable (initial t users) c := ⟨as, h⟩
  have hledger := (refines hreach).2
  have horigins : Always Event.Follows c.log := hledger.origins.log
  have hasked := asked_of_run h
  -- the chain, from its end
  obtain ⟨log₃, after₃, h₃⟩ := List.append_of_mem hset
  obtain ⟨exp, now, hconsumed⟩ := horigins log₃ _ after₃ h₃
  obtain ⟨log₂, after₂, rfl⟩ := List.append_of_mem hconsumed
  rw [List.append_assoc, List.cons_append] at h₃
  obtain ⟨j, codeHash, hkey⟩ := horigins log₂ _ _ h₃
  obtain ⟨log₁, after₁, rfl⟩ := List.append_of_mem hkey
  rw [List.append_assoc, List.cons_append] at h₃
  obtain ⟨m, codeSentAt, hissued⟩ := horigins log₁ _ _ h₃
  have hsub : [.issued m u codeHash codeSentAt, .keyIssued j u codeHash resetKeyHash exp,
      .consumed i u resetKeyHash exp now, .passwordSet i u resetKeyHash] <+ c.log := by
    rw [h₃]
    simpa using sublist_snoc (sublist_snoc (sublist_snoc (List.singleton_sublist.mpr hissued)))
  obtain ⟨a, ha, hdraws⟩ := hasked.log _ (hsub.subset 
    (by simp : Event.issued m u codeHash codeSentAt ∈ _))
  have hkeyMem : .keyIssued j u codeHash resetKeyHash exp ∈ c.log := hsub.subset (by simp)
  obtain ⟨b, hb, hknows⟩ := hasked.log _ hkeyMem
  obtain ⟨resetKey, hdone, hhash⟩ := (shown_of_reachable hreach).issued _ _ _ _ _ hkeyMem
  refine ⟨m, j, codeHash, codeSentAt, exp, now, resetKey, hsub, ⟨a, ha, hdraws⟩, ⟨b, hb, hknows⟩,
    hdone, hhash, ?_, written_of_log h hset⟩
  intro n s hs hk
  obtain ⟨v, codeHash', hmem⟩ := (shown_of_reachable hreach).session n s hs
  rw [hk] at hmem
  have heq := hledger.inv.minted.unique hmem hkeyMem rfl rfl
  exact (Event.keyIssued.inj heq).1

theorem password_set_by_code_plain : ∃ c,
    (system Platform.plain).run (initial 0 [plainUser]) plainReset = some c ∧
    .passwordSet 3 7 "" ∈ c.log ∧
    ∃ m j codeHash codeSentAt, .issued m 7 codeHash codeSentAt ∈ c.log ∧
      ∃ a, .call j a ∈ plainReset ∧ a.Knows Platform.plain codeHash := by
  obtain ⟨c, hc, hlog⟩ := Option.map_eq_some_iff.mp plainReset_log
  have hmem : .passwordSet 3 7 "" ∈ c.log :=
    List.mem_of_mem_drop (i := 4) (by simp [(Prod.mk.inj hlog).1])
  obtain ⟨m, j, codeHash, codeSentAt, _, _, _, hsub, -, hknows, -⟩ :=
    password_set_by_code Platform.plain 0 [plainUser] plainReset c hc 3 7 "" hmem
  exact ⟨c, hc, hmem, m, j, codeHash, codeSentAt, hsub.subset (by simp), hknows⟩

end Chain

end Thcdb.PasswordReset
