import Thcdb.PasswordReset.Index

namespace Thcdb.PasswordReset
open Auth Redis Interleaving

/-- The user whose state an event overwrote or took out. -/
def Event.takes : Event → Option UserId
  | .issued _ userId _ _ | .consumed _ userId _ _ _ => some userId
  | _ => none

namespace Hand

def owner : Hand → Option UserId
  | .fresh _ => none
  | .displaced userId .. | .consumed userId .. => some userId

def left : Hand → Option PasswordResetState
  | .displaced _ written _ => some written
  | .fresh _ | .consumed .. => none

def earlier : Hand → Option PasswordResetState
  | .fresh _ => none
  | .displaced _ _ previous => previous
  | .consumed _ resetKeyHash resetKeyExpiresAt =>
    some (.AwaitingPassword resetKeyHash resetKeyExpiresAt)

end Hand

variable {P : Type} {X : Platform P}

/-- What a call finds when nobody else has touched the user's state since it displaced it: what it
left, or nothing once that has expired, and the earlier state with it. -/
def Undisturbed (X : Platform P) (w : World P) (u : UserId) (h : Hand) : Prop :=
  (∃ st expireAt, h.left = some st ∧ w.store.state u = some ⟨X.toString st, expireAt⟩ ∧
    ∀ t, expireAt < millis t → ∀ st', h.earlier = some st' → st'.expiresAt ≤ t) ∨
  (w.store.state u = none ∧
    ∀ st st', h.left = some st → h.earlier = some st' → st'.expiresAt ≤ w.clock)

/-- By the time Redis drops a code, the state it replaced has expired. -/
theorem expired_of_lapsed {k : String} {now read written ttl t clock : ℕ}
    {st : PasswordResetState} (hread : read ≤ written)
    (httl : (PasswordResetState.awaitingCode k now).ttlSeconds read = some ttl)
    (hlapse : millis written + ttl * 1000 < millis t) (hm : MayReplace now st)
    (hw : st.WrittenBy clock) : st.expiresAt ≤ t := by
  obtain ⟨-, -, hlt⟩ := PasswordResetState.ttlSeconds_eq_some.mp httl
  have hcode : now + minutes passwordResetCodeExpiresMinutes < read + seconds (ttl + 1) := hlt
  have ht : written + seconds ttl < t := by
    unfold millis seconds at *
    omega
  cases st with
  | AwaitingCode k' e s n =>
    have he : e = s + minutes passwordResetCodeExpiresMinutes := hw.2
    have hs : s + seconds passwordResetCodeResendCooldownSeconds ≤ now := hm
    show e ≤ t
    simp only [minutes, seconds, passwordResetCodeExpiresMinutes,
      passwordResetCodeResendCooldownSeconds] at *
    omega
  | AwaitingPassword k' e =>
    have he : e ≤ now + minutes passwordResetKeyExpiresMinutes := hm
    show e ≤ t
    simp only [minutes, seconds, passwordResetCodeExpiresMinutes,
      passwordResetKeyExpiresMinutes] at *
    omega

variable [DecidableEq P] {i : ℕ} {u : UserId}

/-- The statement that takes a state has the earlier one in hand afterwards and touches no other
user. -/
theorem taken_of_statement {w : World P} {c : Call P} {r : World P × Call P × List Event}
    {e : Event} (hw : w.Wf X) (hc : c.Wf X w.clock) (h : statement X i w c = some r)
    (he : e ∈ r.2.2) (hu : e.takes = some u) :
    ∃ hd, r.2.1.hand X = some hd ∧ hd.owner = some u ∧
      w.store.live X.toPayloadCodec u = hd.earlier ∧ Undisturbed X r.1 u hd ∧
      ∀ v, v ≠ u → r.1.store.state v = w.store.state v := by
  have hexec : (system X).exec i .ok w c = some r := h
  have hlogs := exec_logs hexec
  generalize hes : r.2.2 = es at hlogs he
  -- only a save by `forgot_password` and a consumption take a state
  cases hlogs with
  | nothing => cases he
  | queued | recorded | passwordSet =>
    obtain rfl := List.mem_singleton.mp he
    cases hu
  | saved k ttl hg =>
    cases k with
    | rollback | restore => cases he
    | verify =>
      obtain rfl := List.mem_singleton.mp he
      cases hu
    | forgot user code codeHash existing now =>
      obtain rfl := List.mem_singleton.mp he
      obtain rfl := Option.some.inj hu
      obtain ⟨hk, read, hread, httl⟩ := hc
      have hlive := live_of_matches hk hg
      obtain rfl := Option.some.inj h
      rw [save_of_eq (a := (Caller.forgot user code codeHash existing now).saveArgs X ttl) hg]
      refine ⟨_, rfl, rfl, hlive, Or.inl ⟨_, _, rfl, Keyspace.setEx_self, ?_⟩, ?_⟩
      · intro t hlapse st hst
        obtain ⟨s, hs, rfl⟩ := Option.map_eq_some_iff.mp hst
        obtain ⟨hwf, hm⟩ := hk.2 s hs
        exact expired_of_lapsed hread httl hlapse hm hwf.written
      · exact fun v hv => Keyspace.setEx_of_ne hv
  | consumed resetKeyHash passwordHash v p exp hg hd =>
    obtain rfl := List.mem_singleton.mp he
    obtain rfl := Option.some.inj hu
    simp only [statement] at h
    rcases consume_cases X.toPayloadCodec with hr | ⟨v', -, -, hr⟩ | ⟨v', p', e', -, hg', hd', hr⟩
    · rw [hr] at h
      obtain rfl := Option.some.inj h
      cases hes
    · rw [hr] at h
      obtain rfl := Option.some.inj h
      cases hes
    · rw [hr] at h
      obtain rfl := Option.some.inj h
      obtain ⟨-, rfl, -, rfl, -⟩ := Event.consumed.inj (List.singleton_inj.mp hes)
      obtain ⟨entry, hv, rfl⟩ := Keyspace.get_eq_some.mp hg'
      obtain ⟨st, hst, -⟩ := hw.stored v' entry hv
      obtain rfl := Option.some.inj ((X.decode_of_fromStr hst).symm.trans hd')
      refine ⟨_, rfl, rfl, Store.live_of_get hg' hst, Or.inr ⟨Keyspace.del_self, ?_⟩, ?_⟩
      · intro st st' hleft
        cases hleft
      · exact fun v hv => Keyspace.del_of_ne hv

omit [DecidableEq P] in
theorem Caller.resume_of_owner {k : Caller P} {u : UserId} (h : (k.hand X).owner = some u)
    (saved : Bool) : k.resume saved = .done (.failed .Infra) := by
  cases k with
  | forgot | verify => cases h
  | rollback | restore => rfl

/-- A call that has displaced a state keeps it in hand and leaves the store alone until it is
over. -/
theorem exec_of_owner {a : Input} {w : World P} {c : Call P} {r : World P × Call P × List Event}
    {h : Hand} (hc : c.hand X = some h) (hu : h.owner = some u)
    (he : (system X).exec i a w c = some r) :
    (r.2.1.hand X = some h ∧ r.1.store = w.store) ∨ ∃ o, r.2.1 = .done o := by
  rcases exec_cases X he with ⟨-, hs⟩ | ⟨-, c', hf, rfl⟩ | ⟨rfl, -⟩
  · cases c with
    | idle | verifyFindUser | verifyLoad | verifyCode | increment | issueKey | consume | done =>
      cases hc
    | forgotFindUser | forgotLoad | forgotCooldown =>
      obtain rfl := Option.some.inj hc
      cases hu
    -- the write of the undo itself: it is skipped, or comes next
    | save k =>
      obtain rfl := Option.some.inj hc
      simp only [statement] at hs
      split at hs
      · obtain rfl := Option.some.inj hs
        exact Or.inr ⟨_, k.resume_of_owner hu false⟩
      · obtain rfl := Option.some.inj hs
        exact Or.inl ⟨rfl, rfl⟩
    | eval k ttl =>
      obtain rfl := Option.some.inj hc
      obtain rfl := Option.some.inj hs
      exact Or.inr ⟨_, k.resume_of_owner hu _⟩
    | enqueue | clear =>
      obtain rfl := Option.some.inj hs
      exact Or.inr ⟨_, rfl⟩
    | findConsumedUser | setPassword | restore =>
      simp only [statement] at hs
      split at hs
      all_goals
        obtain rfl := Option.some.inj hs
        first
          | exact Or.inr ⟨_, rfl⟩
          | exact Or.inl ⟨hc, rfl⟩
  · cases c with
    | idle | verifyFindUser | verifyLoad | verifyCode | increment | issueKey | consume | done =>
      cases hc
    | forgotFindUser | forgotLoad | forgotCooldown =>
      obtain rfl := Option.some.inj hc
      cases hu
    -- a failing statement begins the undo, which has the state in hand
    | enqueue user code codeHash existing now =>
      left
      cases existing with
      | none =>
        obtain rfl := Option.some.inj hf
        exact ⟨hc, rfl⟩
      | some previous =>
        obtain rfl := Option.some.inj hf
        exact ⟨hc, rfl⟩
    | findConsumedUser | setPassword =>
      obtain rfl := Option.some.inj hf
      exact Or.inl ⟨hc, rfl⟩
    | save | restore => cases hf
    | eval | clear =>
      obtain rfl := Option.some.inj hf
      exact Or.inr ⟨_, rfl⟩
  · cases hc

/-- The steps of other calls leave the stored state of `u` as it is. -/
def Untouched (X : Platform P) (i : ℕ) (u : UserId) : Config P → List (Act Input Env) → Prop :=
  (system X).Meets fun x a => ∀ j b y, a = .call j b → j ≠ i → (system X).next x a = some y →
    y.shared.store.state u = x.shared.store.state u

def LeavesStore (X : Platform P) (i : ℕ) : Config P → List (Act Input Env) → Prop :=
  (system X).Meets fun x a => ∀ b y, a = .call i b → (system X).next x a = some y →
    y.shared.store = x.shared.store

theorem done_of_run {x c : Config P} {bs : List (Act Input Env)} {o : Outcome}
    (hx : x.calls i = .done o) (hrun : (system X).run x bs = some c) : c.calls i = .done o := by
  refine System.Reachable.induction (I := fun y => y.calls i = .done o) ?_ hx ⟨bs, hrun⟩
  intro y a z hy hn
  cases a with
  | env b =>
    obtain ⟨s, -, rfl⟩ := System.next_env_eq_some.mp hn
    exact hy
  | call j b =>
    obtain ⟨w, l, es, he, rfl⟩ := System.next_call_eq_some.mp hn
    by_cases hj : i = j
    · subst hj
      rw [hy] at he
      cases b <;> cases he
    · exact (Function.update_of_ne hj ..).trans hy

theorem undisturbed_of_env {x y : Config P} {b : Env} {h : Hand}
    (hn : (system X).next x (.env b) = some y) (hx : Undisturbed X x.shared u h) :
    Undisturbed X y.shared u h := by
  obtain ⟨s, hs, rfl⟩ := System.next_env_eq_some.mp hn
  cases b with
  | writeUsers users =>
    obtain rfl := Option.some.inj hs
    exact hx
  | tick n =>
    obtain rfl := Option.some.inj hs
    rcases hx with ⟨st, expireAt, hleft, hstate, hexp⟩ | ⟨hstate, hexp⟩
    · by_cases hlapse : millis (x.shared.clock + n) ≤ expireAt
      · exact Or.inl ⟨st, expireAt, hleft, Keyspace.expire_eq_some.mpr ⟨hstate, hlapse⟩, hexp⟩
      · -- Redis has dropped what the call left
        refine Or.inr ⟨?_, fun _ st' _ hst' => hexp _ (Nat.lt_of_not_le hlapse) st' hst'⟩
        show x.shared.store.state.expire _ u = none
        simpa [Keyspace.expire, hstate] using hlapse
    · refine Or.inr ⟨?_, fun st st' hst hst' => Nat.le_trans (hexp st st' hst hst') ?_⟩
      · show x.shared.store.state.expire _ u = none
        simp [Keyspace.expire, hstate]
      · exact Nat.le_add_right ..

omit [DecidableEq P] in
theorem Undisturbed.of_eq {w w' : World P} {h : Hand} (hw : Undisturbed X w u h)
    (hclock : w'.clock = w.clock) (hstate : w'.store.state u = w.store.state u) :
    Undisturbed X w' u h := by
  unfold Undisturbed
  rw [hclock, hstate]
  exact hw

/-- Until its undo the call keeps the state in hand and leaves the store alone, and if nobody else
touches the user's state either, the undo finds what the call left. -/
theorem between_of_run {x c : Config P} {bs : List (Act Input Env)} {h : Hand}
    (hwf : Wf X x) (hx : (x.calls i).hand X = some h) (hu : h.owner = some u)
    (hrun : (system X).run x bs = some c) (hc : ∀ o, c.calls i ≠ .done o) :
    (c.calls i).hand X = some h ∧ LeavesStore X i x bs ∧
      (Untouched X i u x bs → Undisturbed X x.shared u h → Undisturbed X c.shared u h) := by
  induction bs generalizing x with
  | nil =>
    obtain rfl : x = c := by simpa using hrun
    exact ⟨hx, trivial, fun _ hd => hd⟩
  | cons a bs ih =>
    obtain ⟨y, hn, hrest⟩ := System.run_cons_eq_some.mp hrun
    have hwfy := (hwf.next hn).1
    -- what holds from the next state on
    have tail {Q : Config P → List (Act Input Env) → Prop} (hy : Q y bs) :
        ∀ z, (system X).next x a = some z → Q z bs := by
      intro z hz
      obtain rfl := Option.some.inj (hn.symm.trans hz)
      exact hy
    cases a with
    | env b =>
      obtain ⟨hhand, hstore, hund⟩ := ih hwfy (by
        obtain ⟨s, -, rfl⟩ := System.next_env_eq_some.mp hn
        exact hx) hrest
      refine ⟨hhand, ⟨?_, tail hstore⟩, fun ht hd => hund (ht.2 y hn) (undisturbed_of_env hn hd)⟩
      intro b y hb
      cases hb
    | call j b =>
      obtain ⟨w, l, es, he, rfl⟩ := System.next_call_eq_some.mp hn
      have hclock := (simulates_exec hwf.world (hwf.calls j) he).clock
      by_cases hj : j = i
      · subst hj
        rcases exec_of_owner hx hu he with ⟨hl, hs⟩ | ⟨o, ho⟩
        · obtain ⟨hhand, hstore, hund⟩ := ih hwfy (by simpa using hl) hrest
          refine ⟨hhand, ⟨?_, tail hstore⟩, fun ht hd => hund (ht.2 _ hn) ?_⟩
          · intro b' z hb hz
            obtain rfl := Option.some.inj (hn.symm.trans hz)
            exact hs
          · exact hd.of_eq hclock (by rw [show w.store = x.shared.store from hs])
        · exact absurd (done_of_run (by simpa using ho) hrest) (hc o)
      · obtain ⟨hhand, hstore, hund⟩ := ih hwfy
          (by simpa [Function.update_of_ne (Ne.symm hj)] using hx) hrest
        refine ⟨hhand, ⟨?_, tail hstore⟩, fun ht hd => hund (ht.2 _ hn) ?_⟩
        · intro b' z hb
          cases hb
          exact absurd rfl hj
        · exact hd.of_eq hclock (ht.1 j b _ rfl hj hn)

/-- Call `i` displaces the state of `u` in the step from `c₀` to `c₁` and fails; `c` is what the last
statement of its undo finds, and `d` what that statement leaves. -/
structure Failure (X : Platform P) (i : ℕ) (u : UserId) (c₀ c₁ : Config P)
    (bs : List (Act Input Env)) (c d : Config P) : Prop where
  write : (system X).next c₀ (.call i .ok) = some c₁
  takes : ∃ e, c₁.log = c₀.log ++ [e] ∧ e.takes = some u
  run : (system X).run c₁ bs = some c
  undo : (system X).next c (.call i .ok) = some d
  failed : d.calls i = .done (.failed .Infra)

def OthersKept (u : UserId) (s s' : Store P) : Prop :=
  (∀ v, v ≠ u → s'.state v = s.state v) ∧
  ∀ k e, e.value ≠ u → (s'.index k = some e ↔ s.index k = some e)

/-- The user's state and index key are those from before, or absent if that state has expired. -/
def Restored (X : Platform P) (u : UserId) (w₀ w : World P) : Prop :=
  (w.store.live X.toPayloadCodec u = w₀.store.live X.toPayloadCodec u ∧
    ∀ k, w.store.index.get k = some u ↔ w₀.store.index.get k = some u) ∨
  (w.store.live X.toPayloadCodec u = none ∧ (∀ k, w.store.index.get k ≠ some u) ∧
    ∃ st, w₀.store.live X.toPayloadCodec u = some st ∧ st.expiresAt ≤ w.clock)

structure Restores (X : Platform P) (i : ℕ) (u : UserId) (c₀ c₁ : Config P)
    (bs : List (Act Input Env)) (c d : Config P) : Prop where
  undisturbed : Untouched X i u c₁ bs → Restored X u c₀.shared d.shared
  disturbed : ¬ Untouched X i u c₁ bs → d.shared.store = c.shared.store
  write : OthersKept u c₀.shared.store c₁.shared.store
  between : LeavesStore X i c₁ bs
  undo : OthersKept u c.shared.store d.shared.store

/-- What the last statement of the undo needs. Where nobody has touched the user's state, and what
the call left is still there, the earlier state has a whole second left (or, for a key, none at
all); where somebody has, something else than what the call left is there. -/
def CanUndo (X : Platform P) (w : World P) (touched : Prop) : Call P → Prop
  | .save k =>
    touched ∨ w.store.state.get k.userId ≠ k.previous.map (·.payload) ∨
    (w.store.state.get k.userId = none ∧ (k.next X).expiresAt ≤ w.clock) ∨
    (k.next X).ttlSeconds w.clock ≠ none
  | .eval k _ => touched → w.store.state.get k.userId ≠ k.previous.map (·.payload)
  | .clear u current => touched → w.store.state.get u ≠ some current.payload
  | _ => True

omit [DecidableEq P] in
theorem othersKept_of_coherent {s s' : Store P} (hs : Coherent X s) (hs' : Coherent X s')
    (h : ∀ v, v ≠ u → s'.state v = s.state v) : OthersKept u s s' := by
  refine ⟨h, ?_⟩
  rintro k ⟨v, t⟩ hv
  rw [hs k v t, hs' k v t, h v hv]

omit [DecidableEq P] in
/-- With a coherent index only the states matter. -/
theorem restored_iff {w₀ w : World P} (h₀ : Coherent X w₀.store) (h : Coherent X w.store) :
    Restored X u w₀ w ↔
      w.store.live X.toPayloadCodec u = w₀.store.live X.toPayloadCodec u ∨
      (w.store.live X.toPayloadCodec u = none ∧
        ∃ st, w₀.store.live X.toPayloadCodec u = some st ∧ st.expiresAt ≤ w.clock) := by
  have hget : ∀ {s : Store P}, Coherent X s → ∀ k, s.index.get k = some u ↔
      (s.live X.toPayloadCodec u).bind (·.indexKey) = some k := by
    intro s hs k
    rw [Keyspace.IndexedBy.get_iff hs, nameAt_listing]
  unfold Restored
  constructor
  · rintro (⟨hl, -⟩ | ⟨hl, -, hst⟩)
    · exact Or.inl hl
    · exact Or.inr ⟨hl, hst⟩
  · rintro (hl | ⟨hl, hst⟩)
    · refine Or.inl ⟨hl, fun k => ?_⟩
      rw [hget h, hget h₀, hl]
    · refine Or.inr ⟨hl, fun k => ?_, hst⟩
      rw [Ne, hget h, hl]
      simp

omit [DecidableEq P] in
/-- A caller that undoes expects what the call left and writes the earlier state. -/
theorem Caller.of_owner {k : Caller P} {now : ℕ} (hk : k.Wf X now)
    (hu : (k.hand X).owner = some u) :
    k.userId = u ∧ (k.hand X).earlier = some (k.next X) ∧
      k.previous.map (·.payload) = (k.hand X).left.map X.toString := by
  cases k with
  | forgot | verify => cases hu
  | rollback v current previous =>
    obtain rfl := Option.some.inj hu
    exact ⟨rfl, rfl, congrArg some hk.1.payload_eq⟩
  | restore consumed key =>
    obtain rfl := Option.some.inj hu
    exact ⟨rfl, rfl, rfl⟩

/-- The last statement of an undo that has no time left to put a state back, finds a key expired,
or asks the store to swap what the call left for the earlier state. -/
inductive UndoEnds (X : Platform P) (u : UserId) (h : Hand) (w w' : World P) (c : Call P) : Prop
  | tooLate (st : PasswordResetState) (hst : h.earlier = some st) (hs : w'.store = w.store)
      (hcan : ∀ touched, CanUndo X w touched c ↔ touched ∨
        w.store.state.get u ≠ h.left.map X.toString ∨
        (w.store.state.get u = none ∧ st.expiresAt ≤ w.clock))
  | expired (st : PasswordResetState) (hst : h.earlier = some st) (hleft : h.left = none)
      (hexp : st.expiresAt ≤ w.clock) (hs : w'.store = w.store)
      (hcan : ∀ touched, CanUndo X w touched c)
  | swap
      (hswap : w.store.state.get u = h.left.map X.toString →
        w'.store.live X.toPayloadCodec u = h.earlier)
      (hkeep : w.store.state.get u ≠ h.left.map X.toString → w'.store = w.store)
      (hcan : ∀ touched, CanUndo X w touched c ↔
        (touched → w.store.state.get u ≠ h.left.map X.toString))

theorem undo_of_statement {w : World P} {c : Call P} {r : World P × Call P × List Event}
    {h : Hand} (hc : c.Wf X w.clock) (hh : c.hand X = some h) (hu : h.owner = some u)
    (hs : statement X i w c = some r) (hfail : r.2.1 = .done (.failed .Infra)) :
    UndoEnds X u h w r.1 c ∧ ∀ v, v ≠ u → r.1.store.state v = w.store.state v := by
  cases c with
  | idle | verifyFindUser | verifyLoad | verifyCode | increment | issueKey | consume | done =>
    cases hh
  | forgotFindUser | forgotLoad | forgotCooldown =>
    obtain rfl := Option.some.inj hh
    cases hu
  | enqueue =>
    obtain rfl := Option.some.inj hs
    cases hfail
  | findConsumedUser =>
    simp only [statement] at hs
    split at hs
    all_goals
      obtain rfl := Option.some.inj hs
      cases hfail
  | setPassword =>
    simp only [statement] at hs
    split at hs
    all_goals
      obtain rfl := Option.some.inj hs
      cases hfail
  | save k =>
    -- the call ends here only for want of a TTL
    obtain rfl := Option.some.inj hh
    obtain ⟨hid, hearlier, hleft⟩ := Caller.of_owner hc hu
    simp only [statement] at hs
    split at hs
    · rename_i httl
      obtain rfl := Option.some.inj hs
      refine ⟨.tooLate _ hearlier rfl fun touched => ?_, fun v hv => rfl⟩
      simp only [CanUndo, httl, hid, hleft, ne_eq, not_true_eq_false, or_false]
    · obtain rfl := Option.some.inj hs
      cases hfail
  | restore consumed key =>
    obtain rfl := Option.some.inj hh
    simp only [statement] at hs
    split at hs
    · rename_i hexp
      obtain rfl := Option.some.inj hs
      exact ⟨.expired _ rfl rfl hexp rfl fun _ => trivial, fun v hv => rfl⟩
    · obtain rfl := Option.some.inj hs
      cases hfail
  | eval k ttl =>
    obtain rfl := Option.some.inj hh
    obtain ⟨hid, hearlier, hleft⟩ := Caller.of_owner hc.1 hu
    obtain rfl := Option.some.inj hs
    have hcan : ∀ touched, CanUndo X w touched (.eval k ttl) ↔
        (touched → w.store.state.get u ≠ (k.hand X).left.map X.toString) := by
      intro touched
      simp only [CanUndo, hid, hleft]
    by_cases hg : w.store.state.get k.userId = k.previous.map (·.payload)
    · rw [save_of_eq (a := k.saveArgs X ttl) hg]
      refine ⟨.swap (fun _ => ?_) (fun hne => ?_) hcan, fun v hv => ?_⟩
      · rw [hearlier, ← hid]
        show Store.live X.toPayloadCodec ⟨_, _⟩ k.userId = _
        exact (congrFun (Store.live_setEx (X.fromStr_toString (k.next X))) k.userId).trans
          (Function.update_self ..)
      · rw [← hid, ← hleft] at hne
        exact absurd hg hne
      · have hne : v ≠ k.userId := hid ▸ hv
        exact Keyspace.setEx_of_ne hne
    · rw [save_of_ne (a := k.saveArgs X ttl) hg]
      refine ⟨.swap (fun heq => ?_) (fun _ => rfl) hcan, fun v hv => rfl⟩
      rw [← hid, ← hleft] at heq
      exact absurd heq hg
  | clear v current =>
    obtain rfl := Option.some.inj hh
    obtain rfl := Option.some.inj hu
    obtain rfl := Option.some.inj hs
    have hpayload : some current.payload =
        (Hand.displaced v current.state none).left.map X.toString :=
      congrArg some hc.payload_eq
    have hcan : ∀ touched, CanUndo X w touched (.clear v current) ↔
        (touched → w.store.state.get v ≠
          (Hand.displaced v current.state none).left.map X.toString) := by
      intro touched
      simp only [CanUndo, hpayload]
    by_cases hg : w.store.state.get v = some current.payload
    · rw [clear_of_eq hg]
      refine ⟨.swap (fun _ => ?_) (fun hne => ?_) hcan, fun v' hv => ?_⟩
      · exact (congrFun Store.live_del v).trans (Function.update_self ..)
      · exact absurd (hg.trans hpayload) hne
      · exact Keyspace.del_of_ne hv
    · rw [clear_of_ne hg]
      refine ⟨.swap (fun heq => ?_) (fun _ => rfl) hcan, fun v' hv => rfl⟩
      exact absurd (heq.trans hpayload.symm) hg

omit [DecidableEq P] in
/-- What the call left is not what it displaced: the earlier state is in its hand, and no secret is
in two places. -/
theorem live_ne_earlier {c : Config P} (ht : (Ledger.of X c).Tokens) {h : Hand}
    (hh : (c.calls i).hand X = some h) (hu : h.owner = some u) {st : PasswordResetState}
    (hst : h.earlier = some st) : c.shared.store.live X.toPayloadCodec u ≠ some st := by
  intro hlive
  have hsecret : h.secret = some st.secret := by
    cases h with
    | fresh => cases hu
    | displaced v written previous =>
      obtain rfl : previous = some st := hst
      rfl
    | consumed v key exp =>
      obtain rfl := Option.some.inj hst
      rfl
  have hleft : (Ledger.of X c).tokens (.inl u) = some st.secret := by
    show (c.shared.store.live X.toPayloadCodec u).map (·.secret) = _
    rw [hlive, Option.map_some]
  have hright : (Ledger.of X c).tokens (.inr i) = some st.secret := by
    show ((c.calls i).hand X).bind (·.secret) = _
    rw [hh]
    exact hsecret
  exact absurd (ht.linear _ _ _ hleft hright) Sum.inl_ne_inr

omit [DecidableEq P] in
theorem Undisturbed.cases {w : World P} {h : Hand} (hd : Undisturbed X w u h) :
    (∃ st, h.left = some st ∧ w.store.state.get u = h.left.map X.toString ∧
      w.store.live X.toPayloadCodec u = some st) ∨
    (w.store.state.get u = none ∧ w.store.live X.toPayloadCodec u = none ∧
      ∀ st st', h.left = some st → h.earlier = some st' → st'.expiresAt ≤ w.clock) := by
  rcases hd with ⟨st, e, hleft, hstate, -⟩ | ⟨hstate, hexp⟩
  · refine Or.inl ⟨st, hleft, ?_, ?_⟩
    · rw [hleft]
      simp [Keyspace.get, hstate]
    · exact Store.live_eq_some.mpr ⟨_, hstate, X.fromStr_toString st⟩
  · refine Or.inr ⟨?_, ?_, hexp⟩
    · simp [Keyspace.get, hstate]
    · simp [Store.live, Keyspace.get, hstate]

omit [DecidableEq P] in
/-- Nobody has touched the user's state: the undo has put it back, or left nothing of an expired
one, exactly if it was not too late. -/
theorem UndoEnds.undisturbed {w₀ w w' : World P} {c : Call P} {h : Hand}
    (hend : UndoEnds X u h w w' c) (hd : Undisturbed X w u h)
    (h₀ : w₀.store.live X.toPayloadCodec u = h.earlier) (hclock : w'.clock = w.clock)
    (hne : ∀ st, h.earlier = some st → w.store.live X.toPayloadCodec u ≠ some st) :
    (w'.store.live X.toPayloadCodec u = w₀.store.live X.toPayloadCodec u ∨
      (w'.store.live X.toPayloadCodec u = none ∧
        ∃ st, w₀.store.live X.toPayloadCodec u = some st ∧ st.expiresAt ≤ w'.clock)) ↔
    CanUndo X w False c := by
  rw [h₀, hclock]
  cases hend with
  | expired st hst hleft hexp hs hcan =>
    -- the key has expired, and its place is still empty
    refine iff_of_true (Or.inr ⟨?_, st, hst, hexp⟩) (hcan False)
    rcases hd.cases with ⟨st', hst', -⟩ | ⟨-, hlive, -⟩
    · rw [hleft] at hst'
      cases hst'
    · rw [hs, hlive]
  | tooLate st hst hs hcan =>
    rw [hcan, hs]
    rcases hd.cases with ⟨st', hst', hget, hlive⟩ | ⟨hget, hlive, hexp⟩
    · -- what the call left is still there, and stays
      refine iff_of_false ?_ ?_
      · rintro (heq | ⟨heq, -⟩)
        · exact hne st hst (heq.trans hst)
        · rw [hlive] at heq
          cases heq
      · rintro (hf | hf | ⟨hf, -⟩)
        · exact hf
        · exact hf hget
        · rw [hget, hst'] at hf
          cases hf
    · constructor
      · rintro (heq | ⟨-, st', hst', hexp'⟩)
        · rw [hlive, hst] at heq
          cases heq
        · obtain rfl := Option.some.inj (hst.symm.trans hst')
          exact Or.inr (Or.inr ⟨hget, hexp'⟩)
      · rintro (hf | hf | ⟨-, hexp'⟩)
        · exact hf.elim
        · cases hleft : h.left with
          | none =>
            rw [hget, hleft] at hf
            exact absurd rfl hf
          | some st' => exact Or.inr ⟨hlive, st, hst, hexp st' st hleft hst⟩
        · exact Or.inr ⟨hlive, st, hst, hexp'⟩
  | swap hswap hkeep hcan =>
    refine iff_of_true ?_ ((hcan False).mpr False.elim)
    by_cases hget : w.store.state.get u = h.left.map X.toString
    · exact Or.inl (hswap hget)
    · rw [hkeep hget]
      rcases hd.cases with ⟨st', -, hget', -⟩ | ⟨hget', hlive, hexp⟩
      · exact absurd hget' hget
      · cases hleft : h.left with
        | none =>
          rw [hget', hleft] at hget
          exact absurd rfl hget
        | some st' =>
          cases hearlier : h.earlier with
          | none => exact Or.inl hlive
          | some st => exact Or.inr ⟨hlive, st, rfl, hexp st' st hleft hearlier⟩

omit [DecidableEq P] in
/-- Somebody has: the undo leaves everything alone exactly if it does not mistake what it finds for
what the call left. -/
theorem UndoEnds.disturbed {w w' : World P} {c : Call P} {h : Hand}
    (hend : UndoEnds X u h w w' c) (hu : h.owner = some u)
    (hne : ∀ st, h.earlier = some st → w.store.live X.toPayloadCodec u ≠ some st) :
    w'.store = w.store ↔ CanUndo X w True c := by
  cases hend with
  | expired st hst hleft hexp hs hcan => exact iff_of_true hs (hcan True)
  | tooLate st hst hs hcan => exact iff_of_true hs ((hcan True).mpr (Or.inl trivial))
  | swap hswap hkeep hcan =>
    rw [hcan]
    constructor
    · -- a swap would put back the earlier state, which is not what is live
      intro hs _ hget
      have hlive := hswap hget
      rw [hs] at hlive
      cases hearlier : h.earlier with
      | some st => exact hne st hearlier (hlive.trans hearlier)
      | none =>
        cases h with
        | fresh => cases hu
        | consumed => cases hearlier
        | displaced v written previous =>
          obtain ⟨e, he, hp⟩ := Keyspace.get_eq_some.mp
            (hget : w.store.state.get u = some (X.toString written))
          have hsome := Store.live_eq_some.mpr ⟨e, he, hp ▸ X.fromStr_toString written⟩
          rw [hsome, hearlier] at hlive
          cases hlive
    · exact fun hf => hkeep (hf trivial)

/-- A failing call restores the state it displaced exactly if its undo is neither too late for a
whole second of it nor deceived by what it finds. -/
theorem restores_iff (X : Platform P) (t : ℕ) (users : List UserRow) (i : ℕ) (u : UserId)
    (c₀ c₁ c d : Config P) (bs : List (Act Input Env))
    (h₀ : (system X).Reachable (initial t users) c₀) (hf : Failure X i u c₀ c₁ bs c d) :
    Restores X i u c₀ c₁ bs c d ↔
      CanUndo X c.shared (¬ Untouched X i u c₁ bs) (c.calls i) := by
  have h₁ := h₀.next hf.write
  have hc := h₁.trans ⟨bs, hf.run⟩
  have hwf₀ := (refines h₀).1
  have hwf := (refines hc).1
  obtain ⟨e, hlog, htakes⟩ := hf.takes
  obtain ⟨w, l, es, he, hc₁⟩ := System.next_call_eq_some.mp hf.write
  obtain ⟨w', l', es', he', hd⟩ := System.next_call_eq_some.mp hf.undo
  have hes : e ∈ es := by
    have heq : [e] = es := List.append_cancel_left (hlog.symm.trans (congrArg (·.log) hc₁))
    exact heq ▸ List.mem_singleton_self e
  -- what the write leaves
  obtain ⟨h, hhand, howner, hlive, hund, hothers⟩ :=
    taken_of_statement hwf₀.world (hwf₀.calls i) he hes htakes
  -- what the undo finds
  have hcalls : c₁.calls i = l := by simp [hc₁]
  have hnotdone : ∀ o, c.calls i ≠ .done o := by
    intro o ho
    rw [ho] at he'
    cases he'
  obtain ⟨hhand', hstore, hund'⟩ := between_of_run (refines h₁).1 (hcalls ▸ hhand) howner hf.run
    hnotdone
  have hne : ∀ st, h.earlier = some st → c.shared.store.live X.toPayloadCodec u ≠ some st :=
    fun st => live_ne_earlier (refines hc).2.inv.tokens hhand' howner
  obtain ⟨hend, hothers'⟩ := undo_of_statement (hwf.calls i) hhand' howner he'
    (by simpa [hd] using hf.failed)
  have hclock := (simulates_exec hwf.world (hwf.calls i) he').clock
  have hshared : c₁.shared = w := congrArg (·.shared) hc₁
  have hshared' : d.shared = w' := congrArg (·.shared) hd
  have hwrite : OthersKept u c₀.shared.store c₁.shared.store :=
    othersKept_of_coherent (coherent_of_reachable h₀) (coherent_of_reachable h₁)
      (hshared ▸ hothers)
  have hundo : OthersKept u c.shared.store d.shared.store :=
    othersKept_of_coherent (coherent_of_reachable hc) (coherent_of_reachable (hc.next hf.undo))
      (hshared' ▸ hothers')
  by_cases ht : Untouched X i u c₁ bs
  · have hiff := hend.undisturbed (hund' ht (hshared ▸ hund)) hlive hclock hne
    rw [← hshared', ← restored_iff (coherent_of_reachable h₀)
      (coherent_of_reachable (hc.next hf.undo))] at hiff
    rw [show (¬ Untouched X i u c₁ bs) = False from eq_false (not_not.mpr ht), ← hiff]
    exact ⟨fun hr => hr.undisturbed ht,
      fun hr => ⟨fun _ => hr, fun hn => absurd ht hn, hwrite, hstore, hundo⟩⟩
  · have hiff := hend.disturbed howner hne
    rw [← hshared'] at hiff
    rw [show (¬ Untouched X i u c₁ bs) = True from eq_true ht, ← hiff]
    exact ⟨fun hr => hr.disturbed ht,
      fun hs => ⟨fun hn => absurd hn ht, fun _ => hs, hwrite, hstore, hundo⟩⟩

theorem untouched_of_own {c : Config P} {bs : List (Act Input Env)}
    (h : ∀ j b, .call j b ∈ bs → j = i) : Untouched X i u c bs := by
  refine System.meets_of_forall fun x a ha j b y hab hj => ?_
  subst hab
  exact absurd (h j b ha) hj

/-- A run of one call that takes a state and undoes it is a failure. -/
theorem failure_after (X : Platform P) (i : ℕ) (u : UserId) (c : Config P)
    (as bs : List (Act Input Env))
    (hgo : ((system X).run c (as ++ [.call i .ok] ++ bs ++ [.call i .ok])).isSome)
    (htakes : ∃ e, ((system X).after c (as ++ [.call i .ok])).log =
      ((system X).after c as).log ++ [e] ∧ e.takes = some u)
    (hfail : ((system X).after c (as ++ [.call i .ok] ++ bs ++ [.call i .ok])).calls i =
      .done (.failed .Infra)) :
    (system X).run c as = some ((system X).after c as) ∧
    Failure X i u ((system X).after c as) ((system X).after c (as ++ [.call i .ok])) bs
      ((system X).after c (as ++ [.call i .ok] ++ bs))
      ((system X).after c (as ++ [.call i .ok] ++ bs ++ [.call i .ok])) := by
  obtain ⟨hbs, hundo⟩ := System.run_after_append hgo
  obtain ⟨hwrite, hbs⟩ := System.run_after_append (Option.isSome_of_eq_some hbs)
  obtain ⟨has, hwrite⟩ := System.run_after_append (Option.isSome_of_eq_some hwrite)
  refine ⟨has, ?_, htakes, hbs, ?_, hfail⟩
  · simpa [System.run_cons] using hwrite
  · simpa [System.run_cons] using hundo

/-- A first forgotten password, up to the script that stores its code. -/
def plainForgot : List (Act Input Env) :=
  [.call 0 (.forgotPassword "kogasa@example.org" "135790"), .call 0 .ok, .call 0 .ok, .call 0 .ok,
    .call 0 .ok]

def plainForgotAgain : List (Act Input Env) :=
  plainForgot ++ [.call 0 .ok, .call 0 .ok, .env (.tick 599500000000),
    .call 1 (.forgotPassword "kogasa@example.org" "246800"), .call 1 .ok, .call 1 .ok, .call 1 .ok,
    .call 1 .ok]

theorem restores_iff_plain :
    Failure Platform.plain 0 7 ((system Platform.plain).after (initial 0 [plainUser]) plainForgot)
      ((system Platform.plain).after (initial 0 [plainUser]) (plainForgot ++ [.call 0 .ok]))
      [.call 0 .fail]
      ((system Platform.plain).after (initial 0 [plainUser])
        (plainForgot ++ [.call 0 .ok] ++ [.call 0 .fail]))
      ((system Platform.plain).after (initial 0 [plainUser])
        (plainForgot ++ [.call 0 .ok] ++ [.call 0 .fail] ++ [.call 0 .ok])) ∧
    Restores Platform.plain 0 7
      ((system Platform.plain).after (initial 0 [plainUser]) plainForgot)
      ((system Platform.plain).after (initial 0 [plainUser]) (plainForgot ++ [.call 0 .ok]))
      [.call 0 .fail]
      ((system Platform.plain).after (initial 0 [plainUser])
        (plainForgot ++ [.call 0 .ok] ++ [.call 0 .fail]))
      ((system Platform.plain).after (initial 0 [plainUser])
        (plainForgot ++ [.call 0 .ok] ++ [.call 0 .fail] ++ [.call 0 .ok])) := by
  obtain ⟨hreach, hf⟩ := failure_after Platform.plain 0 7 (initial 0 [plainUser]) plainForgot
    [.call 0 .fail] (by decide)
    ⟨.issued 0 7 "$135790" 0, by decide, rfl⟩ (by decide)
  have hun : Untouched Platform.plain 0 7
      ((system Platform.plain).after (initial 0 [plainUser]) (plainForgot ++ [.call 0 .ok]))
      [.call 0 .fail] := untouched_of_own (by simp)
  have hcall : ((system Platform.plain).after (initial 0 [plainUser])
      (plainForgot ++ [.call 0 .ok] ++ [.call 0 .fail])).calls 0 =
      .clear 7 (Stored.fromState Platform.plain (.awaitingCode "$135790" 0)) := by decide
  refine ⟨hf, (restores_iff Platform.plain 0 [plainUser] 0 7 _ _ _ _ _ ⟨_, hreach⟩ hf).mpr ?_⟩
  rw [hcall]
  exact fun hn => absurd hun hn

/-- The mail of the second code fails to be queued and the first one is gone when the undo reads
the clock: the second code, which nobody was sent, stays in place. -/
theorem undo_keeps_unsent_code : ¬ ∀ (i : ℕ) (u : UserId) c₀ c₁ bs c d,
    (system Platform.plain).Reachable (initial 0 [plainUser]) c₀ →
    Failure Platform.plain i u c₀ c₁ bs c d → Restores Platform.plain i u c₀ c₁ bs c d := by
  intro hall
  obtain ⟨hreach, hf⟩ := failure_after Platform.plain 1 7 (initial 0 [plainUser]) plainForgotAgain
    [.call 1 .fail, .env (.tick (seconds 1))] (by decide)
    ⟨.issued 1 7 "0$246800" 599500000000, by decide, rfl⟩ (by decide)
  have hr := hall 1 7 _ _ _ _ _ ⟨_, hreach⟩ hf
  rcases hr.undisturbed (untouched_of_own (by simp)) with ⟨hlive, -⟩ | ⟨hlive, -⟩
  · exact absurd hlive (by decide)
  · exact absurd hlive (by decide)

end Thcdb.PasswordReset
