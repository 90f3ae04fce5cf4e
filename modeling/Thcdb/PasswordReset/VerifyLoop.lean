import Thcdb.Interleaving.Potential
import Thcdb.PasswordReset.GuessBudget

namespace Thcdb.PasswordReset
open Auth Redis Interleaving

variable {P : Type}

namespace Call

/-- The loop for one user, or its end. -/
def InLoop (u : UserId) : Call P → Prop
  | .verifyLoad user _ | .verifyCode user .. | .increment user .. | .issueKey user ..
  | .save (.verify user ..) | .eval (.verify user ..) _ => user.id = u
  | .done _ => True
  | _ => False

def isLoad : Call P → Bool
  | .verifyLoad .. => true
  | _ => false

def expected : Call P → Option P
  | .verifyCode _ _ state | .increment _ _ state _ | .issueKey _ _ state _
  | .save (.verify _ _ state ..) | .eval (.verify _ _ state ..) _ => some state.payload
  | _ => none

/-- A whole second of the new key's life is left when its TTL is computed. -/
def KeyInTime (now : ℕ) : Call P → Prop
  | .save (.verify _ _ _ _ _ resetKeyExpiresAt) => now + seconds 1 ≤ resetKeyExpiresAt
  | _ => True

instance (now : ℕ) : DecidablePred (KeyInTime (P := P) now) := fun c => by
  cases c with
  | save k => cases k <;> unfold KeyInTime <;> infer_instance
  | _ => unfold KeyInTime; infer_instance

variable [DecidableEq P]

/-- The iterations that are still ahead or under way, over those that changes have paid for: one
for what has been loaded while it is there, one for finding nothing. -/
def slack (stored : Option P) : Call P → ℕ
  | .done _ => 2
  | .verifyLoad .. => if stored.isSome then 0 else 1
  | c => if stored = none ∨ stored = c.expected then 1 else 0

def rank : Call P → ℕ
  | .verifyLoad .. | .done _ => 4
  | .eval .. => 3
  | .save _ => 2
  | .increment .. | .issueKey .. => 1
  | _ => 0

variable (X : Platform P)

def changes (w : World P) (u : UserId) : Call P → Bool
  | .eval k ttl =>
    k.userId = u ∧ (savePasswordResetStateIfMatches w.store w.clock (k.saveArgs X ttl)).2
  | .clear userId current => userId = u ∧
    (clearPasswordResetStateIfMatches w.store userId current.payload current.state.indexKey).2
  | .increment user _ state _ => user.id = u ∧
    (incrementFailedAttemptsIfMatches X.toPayloadCodec w.store w.clock user.id
      state.payload).2 = some true
  | .consume resetKeyHash _ =>
    (consumePasswordResetKey X.toPayloadCodec w.store resetKeyHash).2.any (·.userId = u)
  | _ => false

end Call

def iterations (i : ℕ) (c : Config P) : Act Input Env → ℕ
  | .call j _ => if j = i ∧ (c.calls i).isLoad then 1 else 0
  | .env _ => 0

def statements (i : ℕ) (_ : Config P) : Act Input Env → ℕ
  | .call j _ => if j = i then 1 else 0
  | .env _ => 0

def changesByOthers [DecidableEq P] (X : Platform P) (i : ℕ) (u : UserId) (c : Config P) :
    Act Input Env → ℕ
  | .call j .ok => if j ≠ i ∧ (c.calls j).changes X c.shared u then 1 else 0
  | _ => 0

def KeyInTime (i : ℕ) (c : Config P) : Act Input Env → Prop
  | .call j .ok => j = i → (c.calls i).KeyInTime c.shared.clock
  | _ => True

instance (i : ℕ) (c : Config P) : DecidablePred (KeyInTime i c)
  | .call j .ok => inferInstanceAs (Decidable (j = i → (c.calls i).KeyInTime c.shared.clock))
  | .call _ (.forgotPassword ..) | .call _ (.verifyResetCode ..) | .call _ (.resetPassword ..)
  | .call _ .fail | .env _ => .isTrue trivial

section
variable [DecidableEq P] {X : Platform P} {u : UserId} {stored stored' : Option P} {c : Call P}

theorem Call.slack_le_two : c.slack stored ≤ 2 := by
  cases c with
  | done => exact le_rfl
  | _ =>
    simp only [Call.slack]
    split <;> omega

/-- What is removed takes no slack away. -/
theorem Call.slack_le_of_removed (h : stored' = stored ∨ stored' = none) :
    c.slack stored ≤ c.slack stored' := by
  rcases h with rfl | rfl
  · exact le_rfl
  · cases c with
    | done => exact le_rfl
    | _ =>
      simp only [Call.slack]
      split <;> simp

/-- No change takes away more than one. -/
theorem Call.slack_le_succ : c.slack stored ≤ c.slack stored' + 1 := by
  cases c with
  | done => exact Nat.le_succ 2
  | _ =>
    simp only [Call.slack]
    split <;> omega

theorem ttlSeconds_of_keyInTime {now : ℕ} (resetKeyHash : String) {resetKeyExpiresAt : ℕ}
    (h : now + seconds 1 ≤ resetKeyExpiresAt) : ∃ ttl,
    (PasswordResetState.AwaitingPassword resetKeyHash resetKeyExpiresAt).ttlSeconds now =
      some ttl := by
  have hpos : 0 < (resetKeyExpiresAt - now) / seconds 1 := by
    apply Nat.div_pos
    · omega
    · decide
  simp [PasswordResetState.ttlSeconds, PasswordResetState.expiresAt, hpos]

/-- A statement of the loop stays in it or ends it; it uses up no more slack than it begins
iterations, and gets on in its iteration. -/
structure GoesOn (u : UserId) (w w' : World P) (c c' : Call P) : Prop where
  inLoop : c'.InLoop u
  slack : c.slack (w.store.state.get u) + (if c.isLoad then 1 else 0) ≤
    c'.slack (w'.store.state.get u)
  rank : c.rank + 1 ≤ c'.rank + 5 * (if c.isLoad then 1 else 0)

variable {i : ℕ} {w : World P} {r : World P × Call P × List Event}

theorem goesOn_done {w' : World P} {o : Outcome} (hc : c.InLoop u) (hopen : ∀ o, c ≠ .done o) :
    GoesOn u w w' c (.done o) where
  inLoop := trivial
  slack := by
    cases c with
    | done o => exact absurd rfl (hopen o)
    | _ =>
      simp only [Call.slack, Call.isLoad]
      split <;> simp
  rank := by
    cases c with
    | done o => exact absurd rfl (hopen o)
    | idle | forgotFindUser | forgotLoad | forgotCooldown | enqueue | clear | verifyFindUser
    | consume | findConsumedUser | setPassword | restore => exact hc.elim
    | _ => simp [Call.rank, Call.isLoad]

/-- A script that does not find what was loaded leaves the slack as it is. -/
theorem slack_retry {p : P} {user : UserRow} {submitted : String} (hg : stored ≠ some p)
    (hslack : c.slack stored = if stored = none ∨ stored = some p then 1 else 0) :
    c.slack stored + 0 ≤ (Call.verifyLoad user submitted).slack stored := by
  rw [hslack]
  cases stored with
  | none => simp [Call.slack]
  | some q => simp [Call.slack, hg]

theorem goesOn_of_statement (hc : c.InLoop u) (hw : c.Wf X w.clock) (hkey : c.KeyInTime w.clock)
    (h : statement X i w c = some r) : GoesOn u w r.1 c r.2.1 := by
  cases c with
  | verifyLoad user submitted =>
    cases hc
    have hdone (o : Outcome) : GoesOn user.id w w (.verifyLoad user submitted) (.done o) :=
      goesOn_done rfl fun _ h => by cases h
    cases hg : w.store.state.get user.id with
    | none =>
      simp only [statement, loadStored, hg] at h
      cases h
      exact hdone _
    | some p =>
      simp only [statement, loadStored, hg] at h
      cases hp : X.fromStr p with
      | none =>
        simp only [hp, Option.map_none] at h
        cases h
        exact hdone _
      | some st =>
        simp only [hp, Option.map_some] at h
        cases h
        exact ⟨rfl, by simp [Call.slack, Call.isLoad, Call.expected, hg],
          by simp [Call.rank, Call.isLoad]⟩
  | verifyCode user submitted state =>
    have hdone (o : Outcome) : GoesOn u w w (.verifyCode user submitted state) (.done o) :=
      goesOn_done hc fun _ h => by cases h
    simp only [statement] at h
    split at h
    · cases h
      exact hdone _
    · split at h
      · cases h
        exact hdone _
      · cases h
        exact ⟨hc, le_rfl, le_rfl⟩
      · cases h
        exact ⟨hc, le_rfl, le_rfl⟩
  | increment user submitted state codeHash =>
    cases hc
    obtain ⟨hwf, e, t, n, hst, -⟩ := hw
    have hdone (w' : World P) (o : Outcome) :
        GoesOn user.id w w' (.increment user submitted state codeHash) (.done o) :=
      goesOn_done rfl fun _ h => by cases h
    by_cases hg : w.store.state.get user.id = some state.payload
    · by_cases ht : w.store.state.ttl w.clock user.id ≤ 0
      · -- the key is about to go, and the script drops it
        simp only [statement, increment_of_get X.toPayloadCodec hg (hst ▸ hwf.decodes),
          if_pos ht] at h
        cases h
        have hdel : (w.store.state.del user.id).get user.id = none := by simp [Keyspace.get]
        refine ⟨rfl, ?_, by simp [Call.rank, Call.isLoad]⟩
        show Call.slack _ _ + 0 ≤ Call.slack ((w.store.state.del user.id).get user.id) _
        rw [hdel, hg]
        simp [Call.slack, Call.expected]
      · simp only [statement, increment_of_get X.toPayloadCodec hg (hst ▸ hwf.decodes),
          if_neg ht] at h
        cases h
        exact hdone _ _
    · simp only [statement, increment_of_ne X.toPayloadCodec hg] at h
      cases h
      exact ⟨rfl, slack_retry hg rfl, by simp [Call.rank, Call.isLoad]⟩
  | issueKey user submitted state codeHash =>
    cases h
    exact ⟨hc, le_rfl, le_rfl⟩
  | save k =>
    cases k with
    | verify user submitted state codeHash resetKey resetKeyExpiresAt =>
      obtain ⟨ttl, httl⟩ := ttlSeconds_of_keyInTime (X.hashKey resetKey) hkey
      simp only [statement, Caller.next, httl] at h
      cases h
      exact ⟨hc, le_rfl, le_rfl⟩
    | _ => exact hc.elim
  | eval k ttl =>
    cases k with
    | verify user submitted state codeHash resetKey resetKeyExpiresAt =>
      cases hc
      by_cases hg : w.store.state.get user.id = some state.payload
      · obtain rfl := Option.some.inj h
        rw [save_of_eq (a := (Caller.verify user submitted state codeHash resetKey
          resetKeyExpiresAt).saveArgs X ttl) hg]
        exact goesOn_done rfl fun _ h => by cases h
      · obtain rfl := Option.some.inj h
        rw [save_of_ne (a := (Caller.verify user submitted state codeHash resetKey
          resetKeyExpiresAt).saveArgs X ttl) hg]
        exact ⟨rfl, slack_retry hg rfl, by simp [Call.rank, Call.isLoad, Caller.resume]⟩
    | _ => exact hc.elim
  | done => cases h
  | _ => exact hc.elim

theorem goesOn_of_exec {a : Input} (hc : c.InLoop u) (hw : c.Wf X w.clock)
    (hkey : a = .ok → c.KeyInTime w.clock) (h : (system X).exec i a w c = some r) :
    GoesOn u w r.1 c r.2.1 := by
  rcases exec_cases X h with ⟨ha, h⟩ | ⟨-, c', hfail, rfl⟩ | ⟨rfl, -⟩
  · exact goesOn_of_statement hc hw (hkey ha) h
  · -- a failing statement ends the call
    have hopen : ∀ o, c ≠ .done o := by
      rintro o rfl
      cases hfail
    cases c with
    | verifyLoad | verifyCode | increment | eval =>
      cases hfail
      exact goesOn_done hc hopen
    | done | save | issueKey => cases hfail
    | _ => exact hc.elim
  · exact hc.elim

/-- What a script of another call leaves of the user's state, unless it reports a change. -/
theorem get_of_exec {a : Input} (hw : c.Wf X w.clock) (h : (system X).exec i a w c = some r)
    (hquiet : ¬(a = .ok ∧ c.changes X w u)) :
    r.1.store.state.get u = w.store.state.get u ∨ r.1.store.state.get u = none := by
  have hdel : ∀ v, (w.store.state.del v).get u = w.store.state.get u ∨
      (w.store.state.del v).get u = none := by
    intro v
    by_cases hv : u = v
    · subst hv
      right
      simp [Keyspace.get]
    · left
      simp [Keyspace.get, Keyspace.del_of_ne hv]
  have hset : ∀ {v} (p : P) (ttl : ℕ), v ≠ u →
      (w.store.state.setEx w.clock v p ttl).get u = w.store.state.get u := by
    intro v p ttl hv
    simp [Keyspace.get, Keyspace.setEx_of_ne hv.symm]
  -- only scripts write the store
  rcases ok_or_store h with rfl | hstore
  · have hunchanged : ¬c.changes X w u := fun hchange => hquiet ⟨rfl, hchange⟩
    have hwrites := exec_writes h
    generalize r.1.store = s at hwrites
    cases hwrites with
    | keep => exact .inl rfl
    | save k ttl =>
      by_cases hg : w.store.state.get k.userId = k.previous.map (·.payload)
      · have hne : k.userId ≠ u := by
          intro hu
          apply hunchanged
          simp [Call.changes, hu, save_of_eq (a := k.saveArgs X ttl) hg]
        rw [save_of_eq (a := k.saveArgs X ttl) hg]
        exact .inl (hset _ _ hne)
      · rw [save_of_ne (a := k.saveArgs X ttl) hg]
        exact .inl rfl
    | clear v current =>
      by_cases hg : w.store.state.get v = some current.payload
      · rw [clear_of_eq hg]
        exact hdel v
      · rw [clear_of_ne hg]
        exact .inl rfl
    | increment user submitted state codeHash =>
      obtain ⟨hwf, e, t, n, hst, -⟩ := hw
      rcases increment_cases X.toPayloadCodec (hst ▸ hwf.decodes) with hr | ⟨-, hr⟩ | ⟨-, -, hr⟩
      · rw [hr]
        exact .inl rfl
      · rw [hr]
        exact hdel user.id
      · have hne : user.id ≠ u := by
          intro hu
          apply hunchanged
          simp [Call.changes, hu, hu ▸ hr]
        rw [hr]
        exact .inl (hset _ _ hne)
    | consume resetKeyHash passwordHash =>
      rcases consume_cases X.toPayloadCodec with hr | ⟨v, -, -, hr⟩ | ⟨v, p, e, -, -, -, hr⟩
      · rw [hr]
        exact .inl rfl
      · rw [hr]
        exact .inl rfl
      · rw [hr]
        exact hdel v
  · rw [hstore]
    exact .inl rfl

/-- A script that finds what was loaded, under a key with time left, ends the loop. -/
theorem isLoad_of_statement (hc : c.InLoop u) (hw : c.Wf X w.clock) (hkey : c.KeyInTime w.clock)
    (hfound : c.isLoad = false → w.store.state.get u = c.expected)
    (hlive : 0 < w.store.state.ttl w.clock u) (h : statement X i w c = some r) :
    r.2.1.isLoad = false := by
  cases c with
  | verifyLoad | verifyCode =>
    simp only [statement] at h
    repeat' split at h
    all_goals
      cases h
      rfl
  | increment user submitted state codeHash =>
    cases hc
    obtain ⟨hwf, e, t, n, hst, -⟩ := hw
    simp only [statement, increment_of_get X.toPayloadCodec (hfound rfl) (hst ▸ hwf.decodes),
      if_neg (Int.not_le.mpr hlive)] at h
    cases h
    rfl
  | issueKey =>
    cases h
    rfl
  | save k =>
    cases k with
    | verify user submitted state codeHash resetKey resetKeyExpiresAt =>
      obtain ⟨ttl, httl⟩ := ttlSeconds_of_keyInTime (X.hashKey resetKey) hkey
      simp only [statement, Caller.next, httl] at h
      cases h
      rfl
    | _ => exact hc.elim
  | eval k ttl =>
    cases k with
    | verify user submitted state codeHash resetKey resetKeyExpiresAt =>
      cases hc
      obtain rfl := Option.some.inj h
      rw [save_of_eq (a := (Caller.verify user submitted state codeHash resetKey
        resetKeyExpiresAt).saveArgs X ttl) (hfound rfl)]
      rfl
    | _ => exact hc.elim
  | done => cases h
  | _ => exact hc.elim

/-- The loop is never stuck. -/
theorem statement_of_inLoop (hc : c.InLoop u) (hopen : ∀ o, c ≠ .done o) :
    ∃ r, statement X i w c = some r := by
  apply Option.isSome_iff_exists.mp
  cases c with
  | verifyLoad | verifyCode | increment =>
    simp only [statement]
    repeat' split
    all_goals rfl
  | issueKey | eval => rfl
  | save =>
    simp only [statement]
    split <;> rfl
  | done o => exact absurd rfl (hopen o)
  | _ => exact hc.elim

end

section
variable [DecidableEq P] {X : Platform P} {i : ℕ} {u : UserId} {c d : Config P}
  {a : Act Input Env} {as : List (Act Input Env)}

structure Advances (X : Platform P) (i : ℕ) (u : UserId) (c d : Config P) (a : Act Input Env) :
    Prop where
  inLoop : (d.calls i).InLoop u
  slack : (c.calls i).slack (c.shared.store.state.get u) + iterations i c a ≤
    (d.calls i).slack (d.shared.store.state.get u) + changesByOthers X i u c a
  rank : (c.calls i).rank + statements i c a ≤ (d.calls i).rank + 5 * iterations i c a

theorem advances_of_next (hc : Wf X c) (hi : (c.calls i).InLoop u) (hkey : KeyInTime i c a)
    (hn : (system X).next c a = some d) : Advances X i u c d a := by
  cases a with
  | call j x =>
    obtain ⟨w, l, es, he, rfl⟩ := System.next_call_eq_some.mp hn
    by_cases hj : j = i
    · subst hj
      have hkey' : x = .ok → (c.calls j).KeyInTime c.shared.clock := by
        rintro rfl
        exact hkey rfl
      have h := goesOn_of_exec hi (hc.calls j) hkey' he
      refine ⟨?_, ?_, ?_⟩
      · simpa using h.inLoop
      · simp only [iterations, Function.update_self, true_and]
        exact Nat.le_add_right_of_le h.slack
      · simpa [iterations, statements] using h.rank
    · have hcalls : Function.update c.calls j l i = c.calls i :=
        Function.update_of_ne (Ne.symm hj) ..
      refine ⟨?_, ?_, ?_⟩
      · simpa only [hcalls] using hi
      · simp only [iterations, hj, false_and, if_false, hcalls, Nat.add_zero]
        by_cases hchange : x = .ok ∧ (c.calls j).changes X c.shared u
        · obtain ⟨rfl, hchange⟩ := hchange
          -- a change by another call pays for the slack it takes
          simpa only [changesByOthers, if_pos (And.intro hj hchange)] using Call.slack_le_succ
        · have hget := get_of_exec (hc.calls j) he hchange
          exact Nat.le_add_right_of_le (Call.slack_le_of_removed hget)
      · simp [iterations, statements, hj, hcalls]
  | env b =>
    obtain ⟨w, hw, rfl⟩ := System.next_env_eq_some.mp hn
    refine ⟨hi, ?_, Nat.le_refl _⟩
    apply Nat.add_le_add_right
    apply Call.slack_le_of_removed
    -- time only removes states
    cases b with
    | tick n =>
      cases hw
      simp only [Store.expire, Keyspace.get, Keyspace.expire]
      cases c.shared.store.state u with
      | none => exact .inl rfl
      | some e =>
        by_cases he : millis (c.shared.clock + n) ≤ e.expireAt
        · simp [Option.filter, he]
        · simp [Option.filter, he]
    | writeUsers users =>
      cases hw
      exact .inl rfl

theorem inLoop_of_run (hc : Wf X c) (hi : (c.calls i).InLoop u)
    (hg : (system X).Meets (KeyInTime i) c as) (hr : (system X).run c as = some d) :
    Wf X d ∧ (d.calls i).InLoop u :=
  System.run_induction (I := fun x => Wf X x ∧ (x.calls i).InLoop u)
    (fun _ _ _ h hkey hn => ⟨(h.1.next hn).1, (advances_of_next h.1 h.2 hkey hn).inLoop⟩)
    ⟨hc, hi⟩ hg hr

theorem iterations_le (hc : Wf X c) (hi : (c.calls i).InLoop u)
    (hg : (system X).Meets (KeyInTime i) c as) (hr : (system X).run c as = some d) :
    (c.calls i).slack (c.shared.store.state.get u) + (system X).total (iterations i) c as ≤
      (d.calls i).slack (d.shared.store.state.get u) +
        (system X).total (changesByOthers X i u) c as := by
  apply System.total_le (I := fun x => Wf X x ∧ (x.calls i).InLoop u)
    (p := fun x => (x.calls i).slack (x.shared.store.state.get u)) ?_ ⟨hc, hi⟩ hg hr
  intro x a y hx hkey hn
  have h := advances_of_next hx.1 hx.2 hkey hn
  exact ⟨⟨(hx.1.next hn).1, h.inLoop⟩, h.slack⟩

theorem statements_le (hc : Wf X c) (hi : (c.calls i).InLoop u)
    (hg : (system X).Meets (KeyInTime i) c as) (hr : (system X).run c as = some d) :
    (c.calls i).rank + (system X).total (statements i) c as ≤
      (d.calls i).rank + 5 * (system X).total (iterations i) c as := by
  rw [← System.total_mul]
  apply System.total_le (I := fun x => Wf X x ∧ (x.calls i).InLoop u)
    (p := fun x => (x.calls i).rank) ?_ ⟨hc, hi⟩ hg hr
  intro x a y hx hkey hn
  have h := advances_of_next hx.1 hx.2 hkey hn
  exact ⟨⟨(hx.1.next hn).1, h.inLoop⟩, h.rank⟩

theorem slack_of_open {l : Call P} (hl : ∀ o, l ≠ .done o) (stored : Option P) :
    l.slack stored ≤ 1 ∧
      (l.slack stored = 1 → l.isLoad = false → stored = none ∨ stored = l.expected) := by
  cases l with
  | done o => exact absurd rfl (hl o)
  | verifyLoad =>
    refine ⟨?_, fun _ hload => by cases hload⟩
    simp only [Call.slack]
    split <;> omega
  | _ =>
    simp only [Call.slack]
    split <;> simp_all

/-- An iteration is repeated only after another call has changed the state, or when its key has run
out of time. -/
theorem cause_of_retry {e f : Config P} {user user' : UserRow} {submitted submitted' : String}
    (hc : Wf X c) (hload : c.calls i = .verifyLoad user submitted)
    (hg : (system X).Meets (KeyInTime i) c (as ++ [.call i .ok]))
    (hr : (system X).run c as = some e) (hn : (system X).next e (.call i .ok) = some f)
    (hretry : f.calls i = .verifyLoad user' submitted')
    (honce : (system X).total (iterations i) c as = 1) :
    0 < (system X).total (changesByOthers X i user.id) c as ∨
      e.shared.store.state.ttl e.shared.clock user.id ≤ 0 := by
  by_contra hquiet
  rw [not_or, Nat.pos_iff_ne_zero, not_not, Int.not_le] at hquiet
  obtain ⟨hchanges, hlive⟩ := hquiet
  have hi : (c.calls i).InLoop user.id := by
    rw [hload]
    rfl
  obtain ⟨hg, hkey⟩ := (System.meets_append hr).mp hg
  have hkey : (e.calls i).KeyInTime e.shared.clock := hkey.1 rfl
  obtain ⟨he, hei⟩ := inLoop_of_run hc hi hg hr
  have hslack := iterations_le hc hi hg hr
  obtain ⟨w, l, es, hexec, rfl⟩ := System.next_call_eq_some.mp hn
  have hopen : ∀ o, e.calls i ≠ .done o := by
    intro o ho
    rw [ho] at hexec
    cases hexec
  obtain ⟨hle, hfound⟩ := slack_of_open hopen (e.shared.store.state.get user.id)
  -- one iteration is begun and no change is made, so no slack is left for another
  have hone : (e.calls i).slack (e.shared.store.state.get user.id) = 1 := by omega
  have hpresent : e.shared.store.state.get user.id ≠ none := by
    intro hnone
    have hstate : e.shared.store.state user.id = none := by simpa [Keyspace.get] using hnone
    simp [Keyspace.ttl, hstate] at hlive
  have hfinal := isLoad_of_statement hei (he.calls i) hkey
    (fun hl => (hfound hone hl).resolve_left hpresent) hlive hexec
  have hlast : l = .verifyLoad user' submitted' := by simpa using hretry
  rw [hlast] at hfinal
  cases hfinal

/-- Where the changes by others cease, so do the statements of the loop. -/
theorem loop_ends (E : (system X).Execution) (hc : Wf X (E.state 0))
    (hi : ((E.state 0).calls i).InLoop u) (hkey : ∀ n, KeyInTime i (E.state n) (E.act n))
    (hfinite : {n | changesByOthers X i u (E.state n) (E.act n) ≠ 0}.Finite)
    (hfair : ∀ n, (∃ o, (E.state n).calls i = .done o) ∨ ∃ m ≥ n, ∃ x, E.act m = .call i x) :
    ∃ n o, (E.state n).calls i = .done o := by
  have hle : ∀ n, (system X).total (statements i) (E.state 0) (E.acts n) ≤
      5 * (system X).total (changesByOthers X i u) (E.state 0) (E.acts n) + 14 := by
    intro n
    have hg := E.meets_acts hkey n
    have hstatements := statements_le hc hi hg (E.run_acts n)
    have hiterations := iterations_le hc hi hg (E.run_acts n)
    have hrank : ((E.state n).calls i).rank ≤ 4 := by
      cases (E.state n).calls i <;> simp [Call.rank]
    have hslack : ((E.state n).calls i).slack ((E.state n).shared.store.state.get u) ≤ 2 :=
      Call.slack_le_two
    omega
  obtain ⟨n, hn⟩ := E.costs_cease hle hfinite
  rcases hfair n with ⟨o, ho⟩ | ⟨m, hm, x, hx⟩
  · exact ⟨n, o, ho⟩
  · have hcost := hn m hm
    simp [hx, statements] at hcost

/-- What a call of `verify_reset_code` does from any entry of its loop on, while every new key has a
whole second left when its TTL is computed: it repeats an iteration only after another call has
changed the user's state or when the state's key has run out of time, it begins at most two more
iterations than there are changes by others, of five statements at most, it is never stuck, and it
ends if those changes do. -/
theorem verify_progress (X : Platform P) (t : ℕ) (users : List UserRow) (c : Config P)
    (h : (system X).Reachable (initial t users) c) (i : ℕ) (user : UserRow) (submitted : String)
    (hload : c.calls i = .verifyLoad user submitted) :
    (∀ between e f user' submitted',
      (system X).Meets (KeyInTime i) c (.call i .ok :: between ++ [.call i .ok]) →
      (system X).run c (.call i .ok :: between) = some e →
      (system X).next e (.call i .ok) = some f → f.calls i = .verifyLoad user' submitted' →
      (system X).total (iterations i) c (.call i .ok :: between) = 1 →
      0 < (system X).total (changesByOthers X i user.id) c (.call i .ok :: between) ∨
        e.shared.store.state.ttl e.shared.clock user.id ≤ 0) ∧
    (∀ as d, (system X).Meets (KeyInTime i) c as → (system X).run c as = some d →
      (system X).total (iterations i) c as ≤
        (system X).total (changesByOthers X i user.id) c as + 2 ∧
      (system X).total (statements i) c as ≤ 5 * (system X).total (iterations i) c as ∧
      ((∃ o, d.calls i = .done o) ∨ ∃ e, (system X).next d (.call i .ok) = some e)) ∧
    ∀ E : (system X).Execution, E.state 0 = c → (∀ n, KeyInTime i (E.state n) (E.act n)) →
      {n | changesByOthers X i user.id (E.state n) (E.act n) ≠ 0}.Finite →
      (∀ n, (∃ o, (E.state n).calls i = .done o) ∨ ∃ m ≥ n, ∃ x, E.act m = .call i x) →
      ∃ n o, (E.state n).calls i = .done o := by
  have hc : Wf X c := (refines h).1
  have hi : (c.calls i).InLoop user.id := by
    rw [hload]
    rfl
  refine ⟨?_, ?_, ?_⟩
  · intro between e f user' submitted' hg hr hn hretry honce
    exact cause_of_retry hc hload hg hr hn hretry honce
  · intro as d hg hr
    have hslack : (d.calls i).slack (d.shared.store.state.get user.id) ≤ 2 := Call.slack_le_two
    have hrank : (c.calls i).rank = 4 := by
      rw [hload]
      rfl
    have hrank' : (d.calls i).rank ≤ 4 := by
      cases d.calls i <;> simp [Call.rank]
    have hiterations := iterations_le hc hi hg hr
    have hstatements := statements_le hc hi hg hr
    refine ⟨by omega, by omega, ?_⟩
    by_cases hopen : ∃ o, d.calls i = .done o
    · exact .inl hopen
    · obtain ⟨r, hr⟩ := statement_of_inLoop (i := i) (w := d.shared) (X := X)
        (inLoop_of_run hc hi hg hr).2 (fun o ho => hopen ⟨o, ho⟩)
      exact .inr ⟨_, System.next_call_eq_some.mpr ⟨_, _, _, hr, rfl⟩⟩
  · rintro E rfl hkey hfinite hfair
    exact loop_ends E hc hi hkey hfinite hfair

end

/-- A code has been mailed, and a submission of it is about to enter the loop. -/
def plainSubmitted : List (Act Input Env) :=
  [.call 0 (.forgotPassword "kogasa@example.org" "135790"), .call 0 .ok, .call 0 .ok, .call 0 .ok,
    .call 0 .ok, .call 0 .ok, .call 0 .ok,
    .call 1 (.verifyResetCode "kogasa@example.org" "135790"), .call 1 .ok]

/-- A wrong submission is recorded between the load and the script of the right one. -/
def plainDisturbed : List (Act Input Env) :=
  List.replicate 4 (.call 1 .ok) ++ [.call 2 (.verifyResetCode "kogasa@example.org" "000000")] ++
    List.replicate 4 (.call 2 .ok) ++ List.replicate 6 (.call 1 .ok)

def plainEntered : Config (Bool × PasswordResetState) :=
  (system Platform.plain).after (initial 0 [plainUser]) plainSubmitted

theorem plainEntered_eq :
    (system Platform.plain).run (initial 0 [plainUser]) plainSubmitted = some plainEntered ∧
      plainEntered.calls 1 = .verifyLoad plainUser "135790" :=
  ⟨System.run_after (by decide), by decide⟩

theorem plainDisturbed_run :
    (system Platform.plain).Meets (KeyInTime 1) plainEntered plainDisturbed ∧
    ((system Platform.plain).run plainEntered plainDisturbed).map (fun c => c.calls 1) =
      some (.done (.session ⟨"k", minutes 5⟩)) ∧
    (system Platform.plain).total (iterations 1) plainEntered plainDisturbed = 2 ∧
    (system Platform.plain).total (changesByOthers Platform.plain 1 7) plainEntered
      plainDisturbed = 1 := by
  decide

theorem verify_progress_plain : ∃ d,
    (system Platform.plain).run plainEntered plainDisturbed = some d ∧
    (system Platform.plain).total (changesByOthers Platform.plain 1 7) plainEntered
      plainDisturbed = 1 ∧
    (system Platform.plain).total (iterations 1) plainEntered plainDisturbed ≤ 1 + 2 := by
  obtain ⟨hg, hend, -, hchanges⟩ := plainDisturbed_run
  obtain ⟨d, hd, -⟩ := Option.map_eq_some_iff.mp hend
  have h := (verify_progress Platform.plain 0 [plainUser] plainEntered ⟨_, plainEntered_eq.1⟩ 1
    plainUser "135790" plainEntered_eq.2).2.1 plainDisturbed d hg hd
  refine ⟨d, hd, hchanges, ?_⟩
  rw [← hchanges]
  exact h.1

/-- From the load on: half a second less than the key's life passes between its making and its
TTL. -/
def plainHalted : List (Act Input Env) :=
  [.call 1 .ok, .call 1 .ok, .env (.tick (minutes 5 - seconds 1 / 2))]

theorem plainHalted_retries :
    ((system Platform.plain).run plainEntered
        (.call 1 .ok :: plainHalted ++ [.call 1 .ok])).map
        (fun f => (f.calls 1, f.shared.clock)) =
      some (.verifyLoad plainUser "135790", minutes 5 - seconds 1 / 2) ∧
    ((system Platform.plain).run plainEntered (.call 1 .ok :: plainHalted)).map
        (fun e => e.shared.store.state.ttl e.shared.clock 7) = some 301 ∧
    (system Platform.plain).total (iterations 1) plainEntered (.call 1 .ok :: plainHalted) = 1 ∧
    (system Platform.plain).total (changesByOthers Platform.plain 1 7) plainEntered
      (.call 1 .ok :: plainHalted) = 0 := by
  decide

/-- An iteration can be shorter than a key's life and yet leave no whole second of it; it is then
repeated with nothing changed. -/
theorem retry_in_last_second : ¬∀ c between e f i user submitted,
    (system Platform.plain).Reachable (initial 0 [plainUser]) c →
    c.calls i = .verifyLoad user submitted →
    (system Platform.plain).run c (.call i .ok :: between) = some e →
    (system Platform.plain).next e (.call i .ok) = some f →
    f.shared.clock < c.shared.clock + minutes passwordResetKeyExpiresMinutes →
    f.calls i = .verifyLoad user submitted →
    (system Platform.plain).total (iterations i) c (.call i .ok :: between) = 1 →
    0 < (system Platform.plain).total (changesByOthers Platform.plain i user.id) c
        (.call i .ok :: between) ∨
      e.shared.store.state.ttl e.shared.clock user.id ≤ 0 := by
  intro h
  obtain ⟨hretry, hlive, honce, hquiet⟩ := plainHalted_retries
  obtain ⟨f, hf, heq⟩ := Option.map_eq_some_iff.mp hretry
  obtain ⟨hcall, hclock⟩ := Prod.mk.inj heq
  obtain ⟨e, he, httl⟩ := Option.map_eq_some_iff.mp hlive
  obtain ⟨x, hx, hlast⟩ := System.run_append_eq_some.mp hf
  obtain rfl : e = x := Option.some.inj (he.symm.trans hx)
  obtain ⟨y, hn, hend⟩ := System.run_cons_eq_some.mp hlast
  obtain rfl : y = f := Option.some.inj hend
  have hshort : y.shared.clock <
      plainEntered.shared.clock + minutes passwordResetKeyExpiresMinutes := by
    rw [hclock]
    decide
  rcases h plainEntered plainHalted e y 1 plainUser "135790" ⟨_, plainEntered_eq.1⟩
    plainEntered_eq.2 he hn hshort hcall honce with hchange | hout
  · exact absurd hchange (by rw [show plainUser.id = 7 from rfl, hquiet]; decide)
  · exact absurd hout (by rw [show plainUser.id = 7 from rfl, httl]; decide)

end Thcdb.PasswordReset
