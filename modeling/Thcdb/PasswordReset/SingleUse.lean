import Thcdb.PasswordReset.GuessBudget

namespace Thcdb.PasswordReset
open Auth Interleaving

def Event.exchanges (codeHash : String) : Event → Bool
  | .keyIssued _ _ h _ _ => h = codeHash
  | _ => false

def Event.uses (resetKeyHash : String) : Event → Bool
  | .passwordSet _ _ h => h = resetKeyHash
  | _ => false

theorem count_spent_code (codeHash : String) (log : List Event) :
    (spent log).count (.code codeHash) = log.countP (·.exchanges codeHash) := by
  rw [spent, List.count_filterMap]
  apply List.countP_congr
  intro e he
  cases e <;> simp [Event.spends, Event.exchanges]

theorem count_spent_key (resetKeyHash : String) (log : List Event) :
    (spent log).count (.key resetKeyHash) = log.countP (·.uses resetKeyHash) := by
  rw [spent, List.count_filterMap]
  apply List.countP_congr
  intro e he
  cases e <;> simp [Event.spends, Event.uses]

/-- Only `issued` and `keyIssued` store a secret for the first time. -/
theorem keyIssued_of_mints {e : Event} {u : UserId} {k : String}
    (h : e.mints = some (u, .key k)) : ∃ i codeHash exp, e = .keyIssued i u codeHash k exp := by
  cases e with
  | keyIssued i v codeHash k' exp =>
    simp only [Event.mints, Option.some.injEq, Prod.mk.injEq, Secret.key.injEq] at h
    obtain ⟨rfl, rfl⟩ := h
    exact ⟨i, codeHash, exp, rfl⟩
  | issued => simp [Event.mints] at h
  | queued | recorded | consumed | passwordSet => cases h

variable {P : Type} [DecidableEq P] {X : Platform P}

/-- The only statement that writes the user table is the update that a key pays for. -/
theorem users_of_statement {i : ℕ} {w : World P} {c : Call P}
    {r : World P × Call P × List Event} (h : statement X i w c = some r) :
    r.1.users = w.users ∨ ∃ consumed resetKeyHash passwordHash user,
      c = .setPassword consumed resetKeyHash passwordHash user ∧
      setPassword w.users user.id passwordHash = some r.1.users ∧
      r.2.2 = [.passwordSet i user.id resetKeyHash] := by
  cases c with
  | setPassword consumed resetKeyHash passwordHash user =>
    simp only [statement] at h
    split at h
    · obtain rfl := Option.some.inj h
      exact Or.inl rfl
    · rename_i users husers
      obtain rfl := Option.some.inj h
      exact Or.inr ⟨consumed, resetKeyHash, passwordHash, user, rfl, husers, rfl⟩
  | idle | done => cases h
  | eval | clear | enqueue | issueKey =>
    obtain rfl := Option.some.inj h
    exact Or.inl rfl
  | _ =>
    left
    simp only [statement] at h
    repeat' split at h
    all_goals
      obtain rfl := Option.some.inj h
      rfl

theorem users_of_next {i : ℕ} {a : Input} {c d : Config P}
    (h : (system X).next c (.call i a) = some d) (hne : d.shared.users ≠ c.shared.users) :
    ∃ u resetKeyHash passwordHash, d.log = c.log ++ [.passwordSet i u resetKeyHash] ∧
      setPassword c.shared.users u passwordHash = some d.shared.users := by
  obtain ⟨w, l, es, he, rfl⟩ := System.next_call_eq_some.mp h
  rcases exec_cases X he with ⟨-, hs⟩ | ⟨-, l', -, heq⟩ | ⟨-, hs⟩
  · rcases users_of_statement hs with hu | ⟨consumed, k, hash, user, -, hset, hes⟩
    · exact absurd hu hne
    · exact ⟨user.id, k, hash, by rw [show es = _ from hes], hset⟩
  · obtain ⟨rfl, -, -⟩ := heq
    exact absurd rfl hne
  · obtain ⟨n, c, heq⟩ := start_eq hs
    obtain ⟨rfl, -, -⟩ := heq
    exact absurd rfl hne

/-- Whatever the order of the calls, a code is exchanged for one key, a key changes a password
once, that password is the one of the user it was issued to, and no call changes a password
without a key. -/
theorem single_use (X : Platform P) (t : ℕ) (users : List UserRow) (c : Config P)
    (h : (system X).Reachable (initial t users) c) :
    (∀ codeHash, c.log.countP (·.exchanges codeHash) ≤ 1) ∧
    (∀ resetKeyHash, c.log.countP (·.uses resetKeyHash) ≤ 1) ∧
    (∀ i u resetKeyHash, .passwordSet i u resetKeyHash ∈ c.log →
      (∃ j codeHash exp, .keyIssued j u codeHash resetKeyHash exp ∈ c.log) ∧
      ∀ j v codeHash exp, .keyIssued j v codeHash resetKeyHash exp ∈ c.log → v = u) ∧
    ∀ i a d, (system X).next c (.call i a) = some d → d.shared.users ≠ c.shared.users →
      ∃ u resetKeyHash passwordHash, d.log = c.log ++ [.passwordSet i u resetKeyHash] ∧
        setPassword c.shared.users u passwordHash = some d.shared.users := by
  have hinv := (refines h).2.inv
  have hspent : (spent c.log).Nodup := hinv.spent.nodup
  refine ⟨?_, ?_, ?_, fun i a d => users_of_next⟩
  · intro codeHash
    rw [← count_spent_code]
    exact List.nodup_iff_count_le_one.mp hspent _
  · intro k
    rw [← count_spent_key]
    exact List.nodup_iff_count_le_one.mp hspent _
  · intro i u k hset
    obtain ⟨pre, post, hlog⟩ := List.append_of_mem hset
    obtain ⟨e, he, hm⟩ := hinv.sound.log pre _ post hlog
    have hmem : e ∈ c.log := hlog ▸ List.mem_append_left _ he
    obtain ⟨j, codeHash, exp, rfl⟩ := keyIssued_of_mints hm
    refine ⟨⟨j, codeHash, exp, hmem⟩, ?_⟩
    intro j' v codeHash' exp' he'
    have heq := hinv.minted.unique hmem he' hm rfl
    injection heq with _ hu
    exact hu.symm

/-- The reset that follows `plainGuesses`. -/
def plainReset : List (Act Input Env) :=
  plainGuesses ++ [.call 3 (.resetPassword "" "new password"), .call 3 .ok, .call 3 .ok, .call 3 .ok]

theorem plainReset_log :
    ((system Platform.plain).run (initial 0 [plainUser]) plainReset).map
      (fun c => (c.log.drop 4, c.shared.users.map (·.password))) =
      some ([.consumed 3 7 "" (minutes 5) 0, .passwordSet 3 7 ""], ["0$new password"]) := by
  decide

theorem single_use_plain : ∃ c,
    (system Platform.plain).Reachable (initial 0 [plainUser]) c ∧
    .passwordSet 3 7 "" ∈ c.log ∧ c.log.countP (·.uses "") ≤ 1 ∧
    ∃ j codeHash exp, .keyIssued j 7 codeHash "" exp ∈ c.log := by
  obtain ⟨c, hc, hlog⟩ := Option.map_eq_some_iff.mp plainReset_log
  have hs := single_use Platform.plain 0 [plainUser] c ⟨_, hc⟩
  have hmem : .passwordSet 3 7 "" ∈ c.log :=
    List.mem_of_mem_drop (i := 4) (by simp [(Prod.mk.inj hlog).1])
  exact ⟨c, ⟨_, hc⟩, hmem, hs.2.1 "", (hs.2.2.1 3 7 "" hmem).1⟩

end Thcdb.PasswordReset
