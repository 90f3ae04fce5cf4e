import Thcdb.PasswordReset.Refinement

namespace Thcdb.PasswordReset
open Auth Interleaving

def Event.issues (codeHash : String) : Event → Bool
  | .issued _ _ h _ => h = codeHash
  | _ => false

theorem count_minted_code (codeHash : String) (log : List Event) :
    (minted log).count (.code codeHash) = log.countP (·.issues codeHash) := by
  rw [minted, List.count_filterMap]
  apply List.countP_congr
  intro e he
  cases e <;> simp [Event.mints, Event.issues]

variable {P : Type} [DecidableEq P]

/-- Whatever the order of the calls, a code is issued once, no more than the limit of wrong
submissions are recorded for it, its counter has lost none of them, and no key is issued for it
once the limit is reached. -/
theorem guess_budget (X : Platform P) (t : ℕ) (users : List UserRow) (c : Config P)
    (h : (system X).Reachable (initial t users) c) (codeHash : String) :
    c.log.countP (·.issues codeHash) ≤ 1 ∧
    recordedCount codeHash c.log ≤ passwordResetCodeMaxFailedAttempts ∧
    (∀ u codeExpiresAt codeSentAt failedAttempts,
      c.shared.store.live X.toPayloadCodec u =
        some (.AwaitingCode codeHash codeExpiresAt codeSentAt failedAttempts) →
      failedAttempts = recordedCount codeHash c.log) ∧
    ∀ pre post i u resetKeyHash exp,
      c.log = pre ++ .keyIssued i u codeHash resetKeyHash exp :: post →
      recordedCount codeHash pre < passwordResetCodeMaxFailedAttempts := by
  have hinv := (refines h).2.inv
  refine ⟨?_, hinv.counts.le codeHash, ?_, ?_⟩
  · have hnodup : (minted c.log).Nodup := hinv.minted.nodup
    rw [← count_minted_code]
    exact List.nodup_iff_count_le_one.mp hnodup _
  · intro u e s n hu
    exact hinv.counts.held u codeHash e s n (Or.inl hu)
  · intro pre post i u k exp hlog
    exact hinv.sound.log pre _ post hlog

def plainGuesses : List (Act Input Env) :=
  [.call 0 (.forgotPassword "kogasa@example.org" "135790"), .call 0 .ok, .call 0 .ok, .call 0 .ok,
    .call 0 .ok, .call 0 .ok, .call 0 .ok,
    .call 1 (.verifyResetCode "kogasa@example.org" "000000"), .call 1 .ok, .call 1 .ok, .call 1 .ok,
    .call 1 .ok,
    .call 2 (.verifyResetCode "kogasa@example.org" "135790"), .call 2 .ok, .call 2 .ok, .call 2 .ok,
    .call 2 .ok, .call 2 .ok, .call 2 .ok]

def plainUser : UserRow :=
  ⟨7, "kogasa", "kogasa@example.org", true, "old", 0⟩

theorem plainGuesses_log :
    ((system Platform.plain).run (initial 0 [plainUser]) plainGuesses).map (·.log) =
      some [.issued 0 7 "$135790" 0, .queued 0 7 "$135790" 0, .recorded 1 7 "$135790",
        .keyIssued 2 7 "$135790" "" (minutes 5)] := by
  decide

theorem guess_budget_plain : ∃ c,
    (system Platform.plain).Reachable (initial 0 [plainUser]) c ∧
    recordedCount "$135790" c.log = 1 ∧
    c.log.countP (·.issues "$135790") ≤ 1 ∧
    recordedCount "$135790" c.log ≤ passwordResetCodeMaxFailedAttempts := by
  obtain ⟨c, hc, hlog⟩ := Option.map_eq_some_iff.mp plainGuesses_log
  have hb := guess_budget Platform.plain 0 [plainUser] c ⟨_, hc⟩ "$135790"
  refine ⟨c, ⟨_, hc⟩, ?_, hb.1, hb.2.1⟩
  rw [hlog]
  decide

end Thcdb.PasswordReset
