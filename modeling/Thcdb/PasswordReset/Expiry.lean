import Thcdb.PasswordReset.GuessBudget

namespace Thcdb.PasswordReset
open Auth Redis Interleaving

variable {P : Type} [DecidableEq P] (X : Platform P)

/-- A script that stores a reset key runs so early that Redis drops the key by its expiry. -/
def runsInTime (c : Config P) : Act Input Env → Bool
  | .call i .ok =>
    match c.calls i with
    | .eval k ttl =>
      match k.next X with
      | .AwaitingPassword _ resetKeyExpiresAt =>
        c.shared.store.state.get k.userId ≠ k.previous.map (·.payload) ||
          lastServed c.shared.clock ttl ≤ resetKeyExpiresAt
      | .AwaitingCode .. => true
    | _ => true
  | _ => true

/-- Redis serves no reset key after its expiry, and none has been consumed after it. -/
structure Punctual (c : Config P) : Prop where
  served : ∀ u e k exp, c.shared.store.state u = some e →
    X.fromStr e.value = some (.AwaitingPassword k exp) → ∀ t, millis t ≤ e.expireAt → t ≤ exp
  consumed : ∀ i u k exp now, .consumed i u k exp now ∈ c.log → now ≤ exp

variable {X}

/-- The statement behind every `consumed`. -/
theorem consumed_of_exec {i j : ℕ} {a : Input} {w : World P} {c : Call P}
    {r : World P × Call P × List Event} {u : UserId} {k : String} {exp now : ℕ}
    (h : (system X).exec i a w c = some r) (he : .consumed j u k exp now ∈ r.2.2) :
    now = w.clock ∧ ∃ p, w.store.state.get u = some p ∧
      X.decode p = some (.AwaitingPassword k exp) := by
  have hlogs := exec_logs h
  generalize r.2.2 = es at hlogs he
  cases hlogs with
  | consumed resetKeyHash passwordHash v p e hg hd =>
    obtain ⟨-, rfl, rfl, rfl, rfl⟩ := Event.consumed.inj (List.mem_singleton.mp he)
    exact ⟨rfl, p, hg, hd⟩
  | saved caller ttl hg => cases caller <;> simp [Caller.savedEvent] at he
  | _ => simp at he

theorem Punctual.save {c : Config P} (h : Punctual X c) {i : ℕ} {k : Caller P} {ttl : ℕ}
    (hk : c.calls i = .eval k ttl) (hg : runsInTime X c (.call i .ok)) {u : UserId}
    {e : Entry P} {key : String} {exp : ℕ}
    (hu : (savePasswordResetStateIfMatches c.shared.store c.shared.clock
      (k.saveArgs X ttl)).1.state u = some e)
    (hst : X.fromStr e.value = some (.AwaitingPassword key exp)) (t : ℕ)
    (ht : millis t ≤ e.expireAt) : t ≤ exp := by
  by_cases hget : c.shared.store.state.get k.userId = k.previous.map (·.payload)
  · rw [save_of_eq (a := k.saveArgs X ttl) hget] at hu
    rcases Keyspace.setEx_eq_some.mp hu with ⟨-, rfl⟩ | ⟨-, hold⟩
    · -- the key is the one being stored, and the guard bounds its life
      have hnext : k.next X = .AwaitingPassword key exp :=
        Option.some.inj ((X.fromStr_toString _).symm.trans hst)
      have hin : lastServed c.shared.clock ttl ≤ exp := by
        simpa [runsInTime, hk, hnext, hget] using hg
      exact Nat.le_trans (served_iff.mp ht) hin
    · exact h.served u e key exp hold hst t ht
  · rw [save_of_ne (a := k.saveArgs X ttl) hget] at hu
    exact h.served u e key exp hu hst t ht

/-- A key that is still stored was stored before, unless it is the one being written. -/
theorem Punctual.served_of_writes {c : Config P} (h : Punctual X c) (hc : Wf X c) {i : ℕ}
    (hg : runsInTime X c (.call i .ok)) {s : Store P} (hw : Writes X c.shared (c.calls i) s)
    {u : UserId} {e : Entry P} {key : String} {exp : ℕ} (hu : s.state u = some e)
    (hst : X.fromStr e.value = some (.AwaitingPassword key exp)) (t : ℕ)
    (ht : millis t ≤ e.expireAt) : t ≤ exp := by
  have hcall := hc.calls i
  have del {v : UserId} (hd : (c.shared.store.state.del v) u = some e) : t ≤ exp :=
    h.served u e key exp (Keyspace.del_eq_some.mp hd).2 hst t ht
  generalize hl : c.calls i = l at hw hcall
  cases hw with
  | keep => exact h.served u e key exp hu hst t ht
  | save k ttl => exact h.save hl hg hu hst t ht
  | clear v current =>
    by_cases hget : c.shared.store.state.get v = some current.payload
    · rw [clear_of_eq hget] at hu
      exact del hu
    · rw [clear_of_ne hget] at hu
      exact h.served u e key exp hu hst t ht
  | increment user submitted state codeHash =>
    obtain ⟨hwf, e', s', n, hstate, -⟩ := hcall
    rcases increment_cases X.toPayloadCodec (hstate ▸ hwf.decodes) with
      hr | ⟨-, hr⟩ | ⟨-, -, hr⟩
    · rw [hr] at hu
      exact h.served u e key exp hu hst t ht
    · rw [hr] at hu
      exact del hu
    · rw [hr] at hu
      rcases Keyspace.setEx_eq_some.mp hu with ⟨-, rfl⟩ | ⟨-, hold⟩
      · -- a code, not a key
        cases (X.fromStr_encode _).symm.trans hst
      · exact h.served u e key exp hold hst t ht
  | consume k p =>
    rcases consume_cases X.toPayloadCodec with hr | ⟨v, -, -, hr⟩ | ⟨v, p, e', -, -, -, hr⟩
    · rw [hr] at hu
      exact h.served u e key exp hu hst t ht
    · rw [hr] at hu
      exact h.served u e key exp hu hst t ht
    · rw [hr] at hu
      exact del hu

theorem Punctual.next {c d : Config P} {a : Act Input Env} (h : Punctual X c) (hc : Wf X c)
    (hg : runsInTime X c a) (hn : (system X).next c a = some d) : Punctual X d := by
  cases a with
  | call i a =>
    obtain ⟨w, l, es, he, rfl⟩ := System.next_call_eq_some.mp hn
    have hserved : ∀ u e k exp, w.store.state u = some e →
        X.fromStr e.value = some (.AwaitingPassword k exp) →
        ∀ t, millis t ≤ e.expireAt → t ≤ exp := by
      rcases ok_or_store he with rfl | hstore
      · exact fun u e k exp => h.served_of_writes hc hg (exec_writes he)
      · rw [show w.store = c.shared.store from hstore]
        exact h.served
    refine ⟨hserved, ?_⟩
    intro j u k exp now hmem
    rcases List.mem_append.mp hmem with hold | hnew
    · exact h.consumed j u k exp now hold
    · -- what is consumed now is still served now
      obtain ⟨rfl, p, hp, hd⟩ := consumed_of_exec he hnew
      obtain ⟨entry, hu, rfl⟩ := Keyspace.get_eq_some.mp hp
      obtain ⟨st, hst, -⟩ := hc.world.stored u entry hu
      obtain rfl := Option.some.inj ((X.decode_of_fromStr hst).symm.trans hd)
      exact h.served u entry k exp hu hst _ (hc.world.live u entry hu)
  | env b =>
    obtain ⟨s, hs, rfl⟩ := System.next_env_eq_some.mp hn
    cases b with
    | tick n =>
      obtain rfl := Option.some.inj hs
      refine ⟨fun u e k exp hu => ?_, h.consumed⟩
      exact h.served u e k exp (Keyspace.expire_eq_some.mp hu).1
    | writeUsers users =>
      obtain rfl := Option.some.inj hs
      exact ⟨h.served, h.consumed⟩

/-- In every run whose scripts run in time, no reset key is consumed after its expiry. -/
theorem consumed_by_expiry (X : Platform P) (t : ℕ) (users : List UserRow)
    (as : List (Act Input Env)) (c : Config P)
    (hg : (system X).Meets (fun c a => runsInTime X c a) (initial t users) as)
    (h : (system X).run (initial t users) as = some c) :
    ∀ i u resetKeyHash resetKeyExpiresAt now,
      .consumed i u resetKeyHash resetKeyExpiresAt now ∈ c.log → now ≤ resetKeyExpiresAt := by
  have hinv := System.run_induction (I := fun x => Wf X x ∧ Punctual X x)
    (fun x a y hx hga hn => ⟨(hx.1.next hn).1, hx.2.next hx.1 hga hn⟩)
    ⟨initial_wf t users, fun _ _ _ _ hu => (by cases hu), fun _ _ _ _ _ hmem => (by cases hmem)⟩
    hg h
  exact hinv.2.consumed

/-- A forgotten password whose code is exchanged: `read` nanoseconds go by before the clock is read
for the TTL of the key, `delay` before its script runs and `wait` before the key is used. -/
def plainKey (read delay wait : ℕ) : List (Act Input Env) :=
  [.call 0 (.forgotPassword "kogasa@example.org" "135790"), .call 0 .ok, .call 0 .ok, .call 0 .ok,
    .call 0 .ok, .call 0 .ok, .call 0 .ok,
    .call 2 (.verifyResetCode "kogasa@example.org" "135790"), .call 2 .ok, .call 2 .ok, .call 2 .ok,
    .call 2 .ok, .env (.tick read), .call 2 .ok, .env (.tick delay), .call 2 .ok,
    .env (.tick wait), .call 3 (.resetPassword "" "new password"), .call 3 .ok]

theorem plainKey_in_time : (system Platform.plain).Meets (fun c a => runsInTime Platform.plain c a)
    (initial 0 [plainUser]) (plainKey 1500000000 0 (seconds 10)) := by
  decide

theorem plainKey_in_time_log :
    ((system Platform.plain).run (initial 0 [plainUser])
      (plainKey 1500000000 0 (seconds 10))).map (fun c => c.log.drop 3) =
      some [.consumed 3 7 "" (minutes 5) 11500000000] := by
  decide

theorem consumed_by_expiry_plain : ∃ c,
    (system Platform.plain).run (initial 0 [plainUser]) (plainKey 1500000000 0 (seconds 10)) =
      some c ∧
    .consumed 3 7 "" (minutes 5) 11500000000 ∈ c.log ∧ 11500000000 ≤ minutes 5 := by
  obtain ⟨c, hc, hlog⟩ := Option.map_eq_some_iff.mp plainKey_in_time_log
  have hmem : .consumed 3 7 "" (minutes 5) 11500000000 ∈ c.log :=
    List.mem_of_mem_drop (i := 3) (by simp [hlog])
  exact ⟨c, hc, hmem, consumed_by_expiry Platform.plain 0 [plainUser] _ c plainKey_in_time hc
    3 7 "" (minutes 5) 11500000000 hmem⟩

theorem plainKey_late_log :
    ((system Platform.plain).run (initial 0 [plainUser])
      (plainKey 0 (seconds 5) (seconds 299))).map (fun c => c.log.drop 3) =
      some [.consumed 3 7 "" (minutes 5) (seconds 304)] := by
  decide

/-- With five seconds between the clock and the script a key is consumed four seconds late. -/
theorem consumed_after_expiry : ¬ ∀ c,
    (system Platform.plain).Reachable (initial 0 [plainUser]) c →
    ∀ i u resetKeyHash resetKeyExpiresAt now,
      .consumed i u resetKeyHash resetKeyExpiresAt now ∈ c.log → now ≤ resetKeyExpiresAt := by
  intro hall
  obtain ⟨c, hc, hlog⟩ := Option.map_eq_some_iff.mp plainKey_late_log
  have hmem : .consumed 3 7 "" (minutes 5) (seconds 304) ∈ c.log :=
    List.mem_of_mem_drop (i := 3) (by simp [hlog])
  have hle := hall c ⟨_, hc⟩ 3 7 "" (minutes 5) (seconds 304) hmem
  exact absurd hle (by decide)

end Thcdb.PasswordReset
