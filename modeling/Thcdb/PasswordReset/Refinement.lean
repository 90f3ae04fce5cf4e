import Thcdb.PasswordReset.LedgerInvariants

namespace Thcdb.PasswordReset
open Auth Redis Interleaving

variable {P : Type} (X : Platform P)

def Caller.hand : Caller P → Hand
  | .forgot _ _ codeHash _ _ => .fresh (.code codeHash)
  | .rollback userId current previous => .displaced userId current.state (some previous.state)
  | .verify _ _ _ _ resetKey _ => .fresh (.key (X.hashKey resetKey))
  | .restore consumed resetKeyHash =>
    .consumed consumed.userId resetKeyHash consumed.resetKeyExpiresAt

def Call.hand : Call P → Option Hand
  | .forgotFindUser _ _ codeHash | .forgotLoad _ _ codeHash | .forgotCooldown _ _ codeHash _ =>
    some (.fresh (.code codeHash))
  | .save caller | .eval caller _ => some (caller.hand X)
  | .enqueue user _ codeHash existing now =>
    some (.displaced user.id (.awaitingCode codeHash now) (existing.map (·.state)))
  | .clear userId current => some (.displaced userId current.state none)
  | .findConsumedUser consumed resetKeyHash _ | .setPassword consumed resetKeyHash _ _
  | .restore consumed resetKeyHash =>
    some (.consumed consumed.userId resetKeyHash consumed.resetKeyExpiresAt)
  | .idle | .verifyFindUser .. | .verifyLoad .. | .verifyCode .. | .increment .. | .issueKey ..
  | .consume .. | .done _ => none

def World.drawn (w : World P) : Secret → Prop
  | .code codeHash => ∃ n < w.salts, ∃ text, X.hash n text = codeHash
  | .key resetKeyHash => ∃ n < w.keys, X.hashKey (X.resetKey n) = resetKeyHash

def World.ledger (w : World P) (hand : ℕ → Option Hand) (log : List Event) : Ledger :=
  ⟨w.store.live X.toPayloadCodec, hand, w.drawn X, log⟩

/-- The ledger that a configuration of the service stands for. -/
def Ledger.of (c : Config P) : Ledger := c.shared.ledger X (Call.hand X ∘ c.calls) c.log

def PasswordResetState.WrittenBy (now : ℕ) : PasswordResetState → Prop
  | .AwaitingCode _ codeExpiresAt codeSentAt _ =>
    codeSentAt ≤ now ∧ codeExpiresAt = codeSentAt + minutes passwordResetCodeExpiresMinutes
  | .AwaitingPassword _ resetKeyExpiresAt =>
    resetKeyExpiresAt ≤ now + minutes passwordResetKeyExpiresMinutes

structure Stored.Wf (now : ℕ) (s : Stored P) : Prop where
  decodes : X.fromStr s.payload = some s.state
  written : s.state.WrittenBy now

/-- A state the call wrote itself, with the payload it wrote. -/
structure Stored.Own (now : ℕ) (s : Stored P) : Prop extends s.Wf X now where
  payload_eq : s.payload = X.toString s.state

/-- A state whose code has just been found to be worth a comparison. -/
def PasswordResetState.Verifiable (codeHash : String) (st : PasswordResetState) : Prop :=
  ∃ e s n, st = .AwaitingCode codeHash e s n ∧ n < passwordResetCodeMaxFailedAttempts

def Caller.Wf (now : ℕ) : Caller P → Prop
  | .forgot _ _ _ existing sentAt =>
    sentAt ≤ now ∧ ∀ s ∈ existing, s.Wf X now ∧ MayReplace sentAt s.state
  | .rollback _ current previous => current.Own X now ∧ previous.Wf X now
  | .verify _ _ state codeHash _ resetKeyExpiresAt =>
    state.Wf X now ∧ resetKeyExpiresAt ≤ now + minutes passwordResetKeyExpiresMinutes ∧
    ∃ e s n, state.state = .AwaitingCode codeHash e s n ∧ n < passwordResetCodeMaxFailedAttempts ∧
      s + minutes passwordResetKeyExpiresMinutes ≤ resetKeyExpiresAt
  | .restore consumed _ =>
    consumed.resetKeyExpiresAt ≤ now + minutes passwordResetKeyExpiresMinutes

def Call.Wf (now : ℕ) : Call P → Prop
  | .forgotCooldown _ _ _ existing => ∀ s ∈ existing, s.Wf X now
  | .save caller => caller.Wf X now
  | .eval caller ttl =>
    caller.Wf X now ∧ ∃ read ≤ now, (caller.next X).ttlSeconds read = some ttl
  | .enqueue _ _ _ existing sentAt =>
    sentAt ≤ now ∧ ∀ s ∈ existing, s.Wf X now ∧ MayReplace sentAt s.state
  | .clear _ current => current.Own X now
  | .verifyCode _ _ state => state.Wf X now
  | .increment _ _ state codeHash | .issueKey _ _ state codeHash =>
    state.Wf X now ∧ state.state.Verifiable codeHash
  | .findConsumedUser consumed _ _ | .restore consumed _ =>
    consumed.resetKeyExpiresAt ≤ now + minutes passwordResetKeyExpiresMinutes
  | .setPassword consumed _ _ user =>
    consumed.resetKeyExpiresAt ≤ now + minutes passwordResetKeyExpiresMinutes ∧
    user.id = consumed.userId
  | .idle | .forgotFindUser .. | .forgotLoad .. | .verifyFindUser .. | .verifyLoad ..
  | .consume .. | .done _ => True

/-- Every stored payload decodes to a state written by now, and no key has outlived its expiry. -/
structure World.Wf (w : World P) : Prop where
  stored : ∀ u e, w.store.state u = some e →
    ∃ st, X.fromStr e.value = some st ∧ st.WrittenBy w.clock
  live : w.store.state.Live w.clock

structure Wf (c : Config P) : Prop where
  world : c.shared.Wf X
  calls : ∀ i, (c.calls i).Wf X c.shared.clock

section Mono

variable {X} {now now' : ℕ}

theorem PasswordResetState.WrittenBy.mono {st : PasswordResetState} (h : st.WrittenBy now)
    (hle : now ≤ now') : st.WrittenBy now' := by
  cases st with
  | AwaitingCode k e s n => exact ⟨Nat.le_trans h.1 hle, h.2⟩
  | AwaitingPassword k e => exact Nat.le_trans h (Nat.add_le_add_right hle _)

theorem Stored.Wf.mono {s : Stored P} (h : s.Wf X now) (hle : now ≤ now') : s.Wf X now' :=
  ⟨h.decodes, h.written.mono hle⟩

theorem Caller.Wf.mono {k : Caller P} (h : k.Wf X now) (hle : now ≤ now') : k.Wf X now' := by
  cases k with
  | forgot => exact ⟨Nat.le_trans h.1 hle, fun s hs => ⟨(h.2 s hs).1.mono hle, (h.2 s hs).2⟩⟩
  | rollback => exact ⟨⟨h.1.toWf.mono hle, h.1.payload_eq⟩, h.2.mono hle⟩
  | verify => exact ⟨h.1.mono hle, Nat.le_trans h.2.1 (Nat.add_le_add_right hle _), h.2.2⟩
  | restore => exact Nat.le_trans h (Nat.add_le_add_right hle _)

theorem Call.Wf.mono {c : Call P} (h : c.Wf X now) (hle : now ≤ now') : c.Wf X now' := by
  cases c with
  | forgotCooldown => exact fun s hs => (h s hs).mono hle
  | save => exact Caller.Wf.mono h hle
  | eval =>
    obtain ⟨hk, read, hread, httl⟩ := h
    exact ⟨hk.mono hle, read, Nat.le_trans hread hle, httl⟩
  | enqueue =>
    exact ⟨Nat.le_trans h.1 hle, fun s hs => ⟨(h.2 s hs).1.mono hle, (h.2 s hs).2⟩⟩
  | clear => exact ⟨h.toWf.mono hle, h.payload_eq⟩
  | verifyCode => exact Stored.Wf.mono h hle
  | increment | issueKey => exact ⟨h.1.mono hle, h.2⟩
  | findConsumedUser | restore => exact Nat.le_trans h (Nat.add_le_add_right hle _)
  | setPassword => exact ⟨Nat.le_trans h.1 (Nat.add_le_add_right hle _), h.2⟩
  | _ => trivial

theorem Stored.own_fromState {st : PasswordResetState} (h : st.WrittenBy now) :
    (Stored.fromState X st).Own X now := ⟨⟨X.fromStr_toString st, h⟩, rfl⟩

theorem awaitingCode_writtenBy {codeHash : String} {sentAt : ℕ} (h : sentAt ≤ now) :
    (PasswordResetState.awaitingCode codeHash sentAt).WrittenBy now := ⟨h, rfl⟩

/-- What `verifiable_code_hash` returns belongs to a code with attempts left. -/
theorem verifiable_of_verifiableCodeHash {st : PasswordResetState} {codeHash : String}
    (h : st.verifiableCodeHash now = some codeHash) : st.Verifiable codeHash := by
  cases st with
  | AwaitingCode k e s n =>
    simp only [PasswordResetState.verifiableCodeHash] at h
    split at h
    · cases h
    · split at h
      · obtain rfl := Option.some.inj h
        exact ⟨e, s, n, rfl, by omega⟩
      · cases h
  | AwaitingPassword k e => cases h

/-- A state that is not in its cooldown may be replaced. -/
theorem mayReplace_of_cooldown {st : PasswordResetState} (hw : st.WrittenBy now)
    (h : st.isInCodeResendCooldown now = false) : MayReplace now st := by
  cases st with
  | AwaitingCode k e s n =>
    simp only [PasswordResetState.isInCodeResendCooldown, decide_eq_false_iff_not] at h
    have := hw.1
    show s + _ ≤ now
    omega
  | AwaitingPassword k e => exact hw

theorem Caller.Wf.next_writtenBy {k : Caller P} (h : k.Wf X now) : (k.next X).WrittenBy now := by
  cases k with
  | forgot => exact awaitingCode_writtenBy h.1
  | rollback => exact h.2.written
  | verify => exact h.2.1
  | restore => exact h

theorem Caller.Wf.previous {k : Caller P} (h : k.Wf X now) {s : Stored P}
    (hs : k.previous = some s) : s.Wf X now := by
  cases k with
  | forgot => exact (h.2 s hs).1
  | rollback =>
    obtain rfl := Option.some.inj hs
    exact h.1.toWf
  | verify =>
    obtain rfl := Option.some.inj hs
    exact h.1
  | restore => cases hs

end Mono

section World

variable {X} {w : World P} {u : UserId} {p : P} {ttl : ℕ} {index : Keyspace String UserId}

theorem World.Wf.setEx (h : w.Wf X) {st : PasswordResetState} (hp : X.fromStr p = some st)
    (hst : st.WrittenBy w.clock) :
    World.Wf X { w with store := ⟨w.store.state.setEx w.clock u p ttl, index⟩ } where
  stored v e he := by
    rcases Keyspace.setEx_eq_some.mp he with ⟨-, rfl⟩ | ⟨-, hold⟩
    · exact ⟨st, hp, hst⟩
    · exact h.stored v e hold
  live := h.live.setEx

theorem World.Wf.del (h : w.Wf X) :
    World.Wf X { w with store := ⟨w.store.state.del u, index⟩ } where
  stored v e he := h.stored v e (Keyspace.del_eq_some.mp he).2
  live := h.live.del

/-- What a call loads is well formed and is the live state. -/
theorem World.Wf.load (h : w.Wf X) : ∃ existing : Option (Stored P),
    loadStored X w u = some existing ∧ (∀ s ∈ existing, s.Wf X w.clock) ∧
    w.store.state.get u = existing.map (·.payload) := by
  cases hu : w.store.state u with
  | none => exact ⟨none, by simp [loadStored, Keyspace.get, hu]⟩
  | some e =>
    obtain ⟨st, hst, hw⟩ := h.stored u e hu
    refine ⟨some ⟨e.value, st⟩, ?_, ?_, ?_⟩
    · simp [loadStored, Keyspace.get, hu, hst]
    · rintro s ⟨⟩
      exact ⟨hst, hw⟩
    · simp [Keyspace.get, hu]

/-- What the save script compares with, when it finds it, is the live state. -/
theorem live_of_matches {k : Caller P} {now : ℕ} (hk : k.Wf X now)
    (h : w.store.state.get k.userId = k.previous.map (·.payload)) :
    w.store.live X.toPayloadCodec k.userId = k.previous.map (·.state) := by
  cases hp : k.previous with
  | none => simp [Store.live, h, hp]
  | some s => exact Store.live_of_get (h.trans (by simp [hp])) (hk.previous hp).decodes

end World

section Simulation

variable {i : ℕ} {w : World P} {c c' : Call P}

/-- A statement of call `i` keeps what later statements rely on and is a step of the ledger. -/
structure Simulates (i : ℕ) (w : World P) (c : Call P) (r : World P × Call P × List Event) :
    Prop where
  clock : r.1.clock = w.clock
  world : r.1.Wf X
  call : r.2.1.Wf X w.clock
  step : ∀ hand log, hand i = c.hand X → Ledger.Step (w.ledger X hand log)
    (r.1.ledger X (Function.update hand i (r.2.1.hand X)) (log ++ r.2.2))

variable {X}

theorem update_hand {hand : ℕ → Option Hand} {h : Option Hand} (hi : hand i = h) :
    Function.update hand i h = hand := by
  rw [← hi, Function.update_eq_self]

/-- The call goes on with what it has in hand. -/
theorem Simulates.stay (hw : w.Wf X) (hc : c'.Wf X w.clock) (hh : c'.hand X = c.hand X) :
    Simulates X i w c (w, c', []) where
  clock := rfl
  world := hw
  call := hc
  step hand log hi := by
    show Ledger.Step _ (w.ledger X (Function.update hand i (c'.hand X)) (log ++ []))
    rw [hh, update_hand hi, List.append_nil]
    exact Ledger.Step.quiet

/-- The call drops what it has in hand. -/
theorem Simulates.leave (hw : w.Wf X) (hc : c'.Wf X w.clock) (hh : c'.hand X = none) :
    Simulates X i w c (w, c', []) where
  clock := rfl
  world := hw
  call := hc
  step hand log hi := by
    show Ledger.Step _ (w.ledger X (Function.update hand i (c'.hand X)) (log ++ []))
    rw [hh, List.append_nil]
    exact Ledger.Step.drop i

theorem Caller.resume_false_hand (k : Caller P) : (k.resume false).hand X = none := by
  cases k <;> rfl

theorem Caller.resume_false_wf (k : Caller P) (now : ℕ) : (k.resume false).Wf X now := by
  cases k <;> trivial

variable [DecidableEq P]

/-- A save that finds what it expects writes the caller's next state. -/
theorem simulates_saved {k : Caller P} {ttl : ℕ} (hw : w.Wf X) (hk : k.Wf X w.clock)
    (hg : w.store.state.get k.userId = k.previous.map (·.payload)) :
    Simulates X i w (.eval k ttl)
      ({ w with store := (savePasswordResetStateIfMatches w.store w.clock (k.saveArgs X ttl)).1 },
        k.resume true, k.savedEvent X i) := by
  have hlive := live_of_matches hk hg
  have hnext : X.fromStr (X.toString (k.next X)) = some (k.next X) := X.fromStr_toString _
  rw [save_of_eq (a := k.saveArgs X ttl) hg]
  refine ⟨rfl, hw.setEx hnext hk.next_writtenBy, ?_, ?_⟩
  · cases k with
    | forgot => exact hk
    | rollback | verify | restore => trivial
  · intro hand log hi
    have hstore : ∀ index, Store.live X.toPayloadCodec
        ⟨w.store.state.setEx w.clock k.userId (X.toString (k.next X)) ttl, index⟩ =
        Function.update (w.store.live X.toPayloadCodec) k.userId (some (k.next X)) :=
      fun index => Store.live_setEx hnext
    simp only [World.ledger, Caller.saveArgs]
    rw [hstore]
    cases k with
    | forgot user code codeHash existing now =>
      -- what it replaces is what it has loaded, and that was out of its cooldown
      have hc : ∀ st, w.store.live X.toPayloadCodec user.id = some st → MayReplace now st := by
        intro st hst
        obtain ⟨s, hs, rfl⟩ := Option.map_eq_some_iff.mp (hlive.symm.trans hst)
        exact (hk.2 s hs).2
      have hs := Ledger.Step.issue (L := w.ledger X hand log) i user.id codeHash now hi hc
      rw [show (w.ledger X hand log).live user.id = existing.map (·.state) from hlive] at hs
      exact hs
    | rollback userId current previous =>
      have hs := Ledger.Step.rollback (L := w.ledger X hand log) i userId current.state
        (some previous.state) hi hlive
      rw [show log ++ (Caller.rollback userId current previous).savedEvent X i = log
        from List.append_nil log]
      exact hs
    | verify user submitted state codeHash resetKey exp =>
      -- the code that was compared is still the live one, with the attempts it had
      obtain ⟨-, -, e, s, n, hst, hn, he⟩ := hk
      have hl : w.store.live X.toPayloadCodec user.id = some (.AwaitingCode codeHash e s n) :=
        hst ▸ hlive
      exact Ledger.Step.verify (L := w.ledger X hand log) i user.id codeHash e s n
        (X.hashKey resetKey) exp hi hl hn he
    | restore consumed resetKeyHash =>
      have hs := Ledger.Step.restore (L := w.ledger X hand log) i consumed.userId resetKeyHash
        consumed.resetKeyExpiresAt hi hlive
      rw [show log ++ (Caller.restore consumed resetKeyHash).savedEvent X i = log
        from List.append_nil log]
      exact hs

theorem simulates_eval {k : Caller P} {ttl : ℕ} {r : World P × Call P × List Event}
    (hw : w.Wf X) (hk : k.Wf X w.clock) (h : statement X i w (.eval k ttl) = some r) :
    Simulates X i w (.eval k ttl) r := by
  obtain rfl := Option.some.inj h
  by_cases hg : w.store.state.get k.userId = k.previous.map (·.payload)
  · have hs : Simulates X i w (.eval k ttl) _ := simulates_saved hw hk hg
    rw [save_of_eq (a := k.saveArgs X ttl) hg] at hs ⊢
    exact hs
  · rw [save_of_ne (a := k.saveArgs X ttl) hg]
    exact Simulates.leave hw (k.resume_false_wf _) k.resume_false_hand

theorem simulates_clear {u : UserId} {current : Stored P} {r : World P × Call P × List Event}
    (hw : w.Wf X) (hc : current.Own X w.clock) (h : statement X i w (.clear u current) = some r) :
    Simulates X i w (.clear u current) r := by
  obtain rfl := Option.some.inj h
  by_cases hg : w.store.state.get u = some current.payload
  · -- clearing is a rollback to no state
    rw [clear_of_eq hg]
    refine ⟨rfl, hw.del, trivial, ?_⟩
    intro hand log hi
    have hlive : w.store.live X.toPayloadCodec u = some current.state :=
      Store.live_of_get hg hc.decodes
    have hs := Ledger.Step.rollback (L := w.ledger X hand log) i u current.state none hi hlive
    simp only [World.ledger, List.append_nil]
    rw [Store.live_del]
    exact hs
  · rw [clear_of_ne hg]
    exact Simulates.leave hw trivial rfl

theorem simulates_increment {user : UserRow} {submitted codeHash : String} {state : Stored P}
    {r : World P × Call P × List Event} (hw : w.Wf X) (hc : state.Wf X w.clock)
    (hv : state.state.Verifiable codeHash)
    (h : statement X i w (.increment user submitted state codeHash) = some r) :
    Simulates X i w (.increment user submitted state codeHash) r := by
  obtain ⟨e, s, n, hst, hn⟩ := hv
  have hp : X.fromStr state.payload = some (.AwaitingCode codeHash e s n) := hst ▸ hc.decodes
  have hwritten := hst ▸ hc.written
  simp only [statement] at h
  rcases increment_cases X.toPayloadCodec hp with hr | ⟨hg, hr⟩ | ⟨hg, -, hr⟩
  · rw [hr] at h
    obtain rfl := Option.some.inj h
    exact Simulates.stay hw trivial rfl
  · -- the key was about to expire and the script drops it
    rw [hr] at h
    obtain rfl := Option.some.inj h
    refine ⟨rfl, hw.del, trivial, ?_⟩
    intro hand log hi
    have hl : ∀ v, Function.update (w.store.live X.toPayloadCodec) user.id none v =
        w.store.live X.toPayloadCodec v ∨
        Function.update (w.store.live X.toPayloadCodec) user.id none v = none := by
      intro v
      by_cases hv : v = user.id
      · exact Or.inr (by rw [hv, Function.update_self])
      · exact Or.inl (Function.update_of_ne hv ..)
    have hs := Ledger.Step.lapse (L := w.ledger X hand log) hl
    simp only [World.ledger, Call.hand, List.append_nil] at hi ⊢
    rw [Store.live_del, update_hand hi]
    exact hs
  · rw [hr] at h
    obtain rfl := Option.some.inj h
    refine ⟨rfl, hw.setEx (X.fromStr_encode _) hwritten, trivial, ?_⟩
    intro hand log hi
    have hlive : w.store.live X.toPayloadCodec user.id = some (.AwaitingCode codeHash e s n) :=
      Store.live_of_get hg hp
    have hs := Ledger.Step.wrong (L := w.ledger X hand log) i user.id codeHash e s n hlive hn
    simp only [World.ledger, Call.hand] at hi ⊢
    rw [Store.live_setEx (X.fromStr_encode _), update_hand hi]
    exact hs

theorem simulates_consume {resetKeyHash passwordHash : String} {r : World P × Call P × List Event}
    (hw : w.Wf X) (h : statement X i w (.consume resetKeyHash passwordHash) = some r) :
    Simulates X i w (.consume resetKeyHash passwordHash) r := by
  simp only [statement] at h
  rcases consume_cases X.toPayloadCodec with hr | ⟨u, -, -, hr⟩ | ⟨u, p, e, -, hg, hd, hr⟩
  · rw [hr] at h
    obtain rfl := Option.some.inj h
    exact Simulates.stay hw trivial rfl
  · rw [hr] at h
    obtain rfl := Option.some.inj h
    -- only an index key goes, and the ledger does not see those
    have hs : Simulates X i w (.consume resetKeyHash passwordHash)
        (w, .done (.failed .InvalidOrExpiredResetKey), []) := Simulates.stay hw trivial rfl
    exact ⟨rfl, ⟨hw.stored, hw.live⟩, trivial, hs.step⟩
  · rw [hr] at h
    obtain rfl := Option.some.inj h
    obtain ⟨entry, hu, rfl⟩ := Keyspace.get_eq_some.mp hg
    obtain ⟨st, hst, hwritten⟩ := hw.stored u entry hu
    obtain rfl := Option.some.inj ((X.decode_of_fromStr hst).symm.trans hd)
    refine ⟨rfl, hw.del, hwritten, ?_⟩
    intro hand log hi
    have hlive : w.store.live X.toPayloadCodec u = some (.AwaitingPassword resetKeyHash e) :=
      Store.live_of_get hg hst
    have hs := Ledger.Step.consume (L := w.ledger X hand log) i u resetKeyHash e w.clock hi hlive
    simp only [World.ledger]
    rw [Store.live_del]
    exact hs

theorem simulates_issueKey {user : UserRow} {submitted codeHash : String} {state : Stored P}
    {r : World P × Call P × List Event} (hw : w.Wf X) (hc : state.Wf X w.clock)
    (hv : state.state.Verifiable codeHash)
    (h : statement X i w (.issueKey user submitted state codeHash) = some r) :
    Simulates X i w (.issueKey user submitted state codeHash) r := by
  obtain rfl := Option.some.inj h
  obtain ⟨e, s, n, hst, hn⟩ := hv
  have hwritten : (PasswordResetState.AwaitingCode codeHash e s n).WrittenBy w.clock :=
    hst ▸ hc.written
  refine ⟨rfl, ⟨hw.stored, hw.live⟩, ⟨hc, Nat.le_refl _, e, s, n, hst, hn, ?_⟩, ?_⟩
  · exact Nat.add_le_add_right hwritten.1 _
  · intro hand log hi
    -- keys with one hash are one key, and this one is the next
    have hnew : ¬ w.drawn X (.key (X.hashKey (X.resetKey w.keys))) := by
      rintro ⟨n, hlt, heq⟩
      exact absurd (X.hashKey_resetKey heq) (Nat.ne_of_lt hlt)
    have hold : ∀ x, w.drawn X x → World.drawn X { w with keys := w.keys + 1 } x := by
      intro x hx
      cases x with
      | code k => exact hx
      | key k =>
        obtain ⟨n, hlt, heq⟩ := hx
        exact ⟨n, Nat.lt_succ_of_lt hlt, heq⟩
    have hs := Ledger.Step.draw (L := w.ledger X hand log) i
      (.key (X.hashKey (X.resetKey w.keys))) hi hnew hold ⟨w.keys, Nat.lt_succ_self _, rfl⟩
    simp only [List.append_nil]
    exact hs

theorem simulates_setPassword {consumed : ConsumedPasswordResetKey}
    {resetKeyHash passwordHash : String} {user : UserRow} {r : World P × Call P × List Event}
    (hw : w.Wf X)
    (hc : consumed.resetKeyExpiresAt ≤ w.clock + minutes passwordResetKeyExpiresMinutes)
    (hu : user.id = consumed.userId)
    (h : statement X i w (.setPassword consumed resetKeyHash passwordHash user) = some r) :
    Simulates X i w (.setPassword consumed resetKeyHash passwordHash user) r := by
  simp only [statement] at h
  split at h
  · obtain rfl := Option.some.inj h
    exact Simulates.stay hw hc rfl
  · obtain rfl := Option.some.inj h
    refine ⟨rfl, ⟨hw.stored, hw.live⟩, trivial, ?_⟩
    intro hand log hi
    rw [hu]
    exact Ledger.Step.setPassword (L := w.ledger X hand log) i consumed.userId resetKeyHash
      consumed.resetKeyExpiresAt hi

theorem simulates_statement {r : World P × Call P × List Event} (hw : w.Wf X)
    (hc : c.Wf X w.clock) (h : statement X i w c = some r) : Simulates X i w c r := by
  cases c with
  | idle | done => cases h
  | forgotFindUser email code codeHash =>
    simp only [statement] at h
    split at h
    · obtain rfl := Option.some.inj h
      exact Simulates.leave hw trivial rfl
    · obtain rfl := Option.some.inj h
      exact Simulates.stay hw trivial rfl
  | forgotLoad user code codeHash =>
    obtain ⟨existing, he, hwf, -⟩ := hw.load (u := user.id)
    simp only [statement, he] at h
    obtain rfl := Option.some.inj h
    exact Simulates.stay hw hwf rfl
  | forgotCooldown user code codeHash existing =>
    simp only [statement] at h
    split at h
    · obtain rfl := Option.some.inj h
      exact Simulates.leave hw trivial rfl
    · rename_i hcool
      obtain rfl := Option.some.inj h
      refine Simulates.stay hw ⟨Nat.le_refl _, fun s hs => ⟨hc s hs, ?_⟩⟩ rfl
      -- the state that was read is past its cooldown, which the ledger asks of an issue
      obtain rfl := hs
      exact mayReplace_of_cooldown (hc s rfl).written (by simpa using hcool)
  | save k =>
    simp only [statement] at h
    split at h
    · obtain rfl := Option.some.inj h
      exact Simulates.leave hw (k.resume_false_wf _) k.resume_false_hand
    · rename_i httl
      obtain rfl := Option.some.inj h
      exact Simulates.stay hw ⟨hc, w.clock, Nat.le_refl _, httl⟩ rfl
  | eval k ttl => exact simulates_eval hw hc.1 h
  | enqueue user code codeHash existing now =>
    obtain rfl := Option.some.inj h
    exact ⟨rfl, hw, trivial, fun hand log hi =>
      Ledger.Step.queue (L := w.ledger X hand log) i user.id codeHash now _ hi⟩
  | clear u current => exact simulates_clear hw hc h
  | verifyFindUser email code =>
    simp only [statement] at h
    split at h
    · obtain rfl := Option.some.inj h
      exact Simulates.stay hw trivial rfl
    · obtain rfl := Option.some.inj h
      exact Simulates.stay hw trivial rfl
  | verifyLoad user submitted =>
    obtain ⟨existing, he, hwf, -⟩ := hw.load (u := user.id)
    simp only [statement, he] at h
    cases existing with
    | none =>
      obtain rfl := Option.some.inj h
      exact Simulates.stay hw trivial rfl
    | some state =>
      obtain rfl := Option.some.inj h
      exact Simulates.stay hw (hwf state rfl) rfl
  | verifyCode user submitted state =>
    simp only [statement] at h
    split at h
    · obtain rfl := Option.some.inj h
      exact Simulates.stay hw trivial rfl
    · rename_i codeHash hcode
      have hv := verifiable_of_verifiableCodeHash hcode
      split at h
      · obtain rfl := Option.some.inj h
        exact Simulates.stay hw trivial rfl
      · obtain rfl := Option.some.inj h
        exact Simulates.stay hw ⟨hc, hv⟩ rfl
      · obtain rfl := Option.some.inj h
        exact Simulates.stay hw ⟨hc, hv⟩ rfl
  | increment user submitted state codeHash => exact simulates_increment hw hc.1 hc.2 h
  | issueKey user submitted state codeHash => exact simulates_issueKey hw hc.1 hc.2 h
  | consume resetKeyHash passwordHash => exact simulates_consume hw h
  | findConsumedUser consumed resetKeyHash passwordHash =>
    simp only [statement] at h
    split at h
    · obtain rfl := Option.some.inj h
      exact Simulates.leave hw trivial rfl
    · rename_i user huser
      obtain rfl := Option.some.inj h
      have hu : user.id = consumed.userId :=
        findById_id (Option.filter_eq_some_iff.mp huser).1
      exact Simulates.stay hw ⟨hc, hu⟩ rfl
  | setPassword consumed resetKeyHash passwordHash user =>
    exact simulates_setPassword hw hc.1 hc.2 h
  | restore consumed resetKeyHash =>
    simp only [statement] at h
    split at h
    · obtain rfl := Option.some.inj h
      exact Simulates.leave hw trivial rfl
    · obtain rfl := Option.some.inj h
      exact Simulates.stay hw hc rfl

omit [DecidableEq P] in
theorem simulates_fail (hw : w.Wf X) (hc : c.Wf X w.clock) (h : c.fail X = some c') :
    Simulates X i w c (w, c', []) := by
  cases c with
  | enqueue user code codeHash existing now =>
    cases existing with
    | none =>
      obtain rfl := Option.some.inj h
      exact Simulates.stay hw (Stored.own_fromState (awaitingCode_writtenBy hc.1)) rfl
    | some previous =>
      obtain rfl := Option.some.inj h
      exact Simulates.stay hw
        ⟨Stored.own_fromState (awaitingCode_writtenBy hc.1), (hc.2 previous rfl).1⟩ rfl
  | findConsumedUser =>
    obtain rfl := Option.some.inj h
    exact Simulates.stay hw hc rfl
  | setPassword =>
    obtain rfl := Option.some.inj h
    exact Simulates.stay hw hc.1 rfl
  | idle | forgotCooldown | save | issueKey | restore | done => cases h
  | _ =>
    obtain rfl := Option.some.inj h
    exact Simulates.leave hw trivial rfl

omit [DecidableEq P] in
/-- Drawing a salt for a code draws a code hash that no call and no store has. -/
theorem simulates_start {a : Input} {r : World P × Call P × List Event} (hw : w.Wf X)
    (h : start X w a = some r) : Simulates X i w .idle r := by
  have hold : ∀ x, w.drawn X x → World.drawn X { w with salts := w.salts + 1 } x := by
    intro x hx
    cases x with
    | code k =>
      obtain ⟨n, hlt, heq⟩ := hx
      exact ⟨n, Nat.lt_succ_of_lt hlt, heq⟩
    | key k => exact hx
  cases a with
  | forgotPassword email code =>
    simp only [start] at h
    split at h
    · obtain rfl := Option.some.inj h
      exact Simulates.stay hw trivial rfl
    · obtain rfl := Option.some.inj h
      refine ⟨rfl, ⟨hw.stored, hw.live⟩, trivial, ?_⟩
      intro hand log hi
      have hnew : ¬ w.drawn X (.code (X.hash w.salts code)) := by
        rintro ⟨n, hlt, text, heq⟩
        exact absurd (X.hash_salt heq) (Nat.ne_of_lt hlt)
      simp only [List.append_nil]
      exact Ledger.Step.draw (L := w.ledger X hand log) i (.code (X.hash w.salts code)) hi hnew
        hold ⟨w.salts, Nat.lt_succ_self _, code, rfl⟩
  | verifyResetCode email code =>
    simp only [start] at h
    split at h
    · obtain rfl := Option.some.inj h
      exact Simulates.stay hw trivial rfl
    · obtain rfl := Option.some.inj h
      exact Simulates.stay hw trivial rfl
  | resetPassword key password =>
    simp only [start] at h
    split at h
    · obtain rfl := Option.some.inj h
      exact Simulates.stay hw trivial rfl
    · split at h
      · obtain rfl := Option.some.inj h
        exact Simulates.stay hw trivial rfl
      · obtain rfl := Option.some.inj h
        refine ⟨rfl, ⟨hw.stored, hw.live⟩, trivial, ?_⟩
        intro hand log hi
        simp only [List.append_nil, Call.hand] at hi ⊢
        rw [update_hand hi]
        exact Ledger.Step.waste (L := w.ledger X hand log) hold
  | ok | fail => cases h

theorem simulates_exec {a : Input} {r : World P × Call P × List Event} (hw : w.Wf X)
    (hc : c.Wf X w.clock) (h : (system X).exec i a w c = some r) : Simulates X i w c r := by
  rcases exec_cases X h with ⟨-, hs⟩ | ⟨-, c', hc', rfl⟩ | ⟨rfl, hs⟩
  · exact simulates_statement hw hc hs
  · exact simulates_fail hw hc hc'
  · exact simulates_start hw hs

end Simulation

section Runs

variable {X} [DecidableEq P] {c d : Config P} {a : Act Input Env}

/-- Every step of the service keeps what the calls rely on and is a step of the ledger. -/
theorem Wf.next (hc : Wf X c) (h : (system X).next c a = some d) :
    Wf X d ∧ Ledger.Step (Ledger.of X c) (Ledger.of X d) := by
  cases a with
  | call i x =>
    obtain ⟨w', c', es, he, rfl⟩ := System.next_call_eq_some.mp h
    have hs := simulates_exec hc.world (hc.calls i) he
    have hcalls : ∀ j, (Function.update c.calls i c' j).Wf X w'.clock := by
      rw [hs.clock]
      exact (Function.forall_update_iff c.calls fun _ l => l.Wf X c.shared.clock).mpr
        ⟨hs.call, fun j _ => hc.calls j⟩
    refine ⟨⟨hs.world, hcalls⟩, ?_⟩
    · have hstep := hs.step (Call.hand X ∘ c.calls) c.log rfl
      rw [← Function.comp_update] at hstep
      exact hstep
  | env b =>
    obtain ⟨s, hs, rfl⟩ := System.next_env_eq_some.mp h
    cases b with
    | tick n =>
      obtain rfl := Option.some.inj hs
      -- Redis drops what has expired
      refine ⟨⟨⟨?_, Keyspace.expire_live⟩,
        fun j => (hc.calls j).mono (Nat.le_add_right c.shared.clock n)⟩, ?_⟩
      · intro u e he
        obtain ⟨st, hst, hwritten⟩ := hc.world.stored u e (Keyspace.expire_eq_some.mp he).1
        exact ⟨st, hst, hwritten.mono (Nat.le_add_right c.shared.clock n)⟩
      · exact Ledger.Step.lapse (L := Ledger.of X c) fun u => Store.live_expire u
    | writeUsers users =>
      obtain rfl := Option.some.inj hs
      exact ⟨⟨⟨hc.world.stored, hc.world.live⟩, hc.calls⟩, Ledger.Step.quiet⟩

omit [DecidableEq P] in
theorem initial_wf (t : ℕ) (users : List UserRow) : Wf X (initial (P := P) t users) where
  world :=
    { stored := fun _ _ h => by cases h
      live := fun _ _ h => by cases h }
  calls _ := trivial

omit [DecidableEq P] in
theorem initial_start (t : ℕ) (users : List UserRow) :
    Ledger.Start (Ledger.of X (initial (P := P) t users)) := ⟨rfl, rfl, rfl⟩

/-- Every reachable configuration stands for a reachable ledger. -/
theorem refines {t : ℕ} {users : List UserRow} (h : (system X).Reachable (initial t users) c) :
    Wf X c ∧ Ledger.Reachable (Ledger.of X c) :=
  h.induction (I := fun x => Wf X x ∧ Ledger.Reachable (Ledger.of X x))
    (fun _ _ _ hx hn => ⟨(hx.1.next hn).1, hx.2.step (hx.1.next hn).2⟩)
    ⟨initial_wf t users, .start (initial_start t users)⟩

end Runs

end Thcdb.PasswordReset
