import Thcdb.Interleaving.Trace
import Thcdb.SignUp.VerifiedRows

namespace Thcdb.SignUp
open Auth Interleaving

variable {X : Crates} {i : ℕ} {a : Input} {w w' : World} {c c' : Call} {es : List Event}

theorem createUser_nextId {t t' : UserTable} {s : Signup} {now : ℕ}
    (h : t.createUser X s now = some t') : t'.nextId = t.nextId + 1 := by
  rw [createUser_some h]
  rfl

theorem updateCreds_isSome {t t' : UserTable} {s : Signup} {u v : UserId}
    (h : t.updateCreds s u = some t') (hv : (t.find v).isSome) : (t'.find v).isSome := by
  rw [(updateCreds_some h).2 v, Option.isSome_map]
  exact hv

theorem putVerification_eq_some {u x : UserId} {v : EmailVerification}
    {o : Option EmailVerification} : (w.putVerification x o).verifications u = some v ↔
      u = x ∧ o = some v ∨ u ≠ x ∧ w.verifications u = some v := by
  unfold World.putVerification
  by_cases hux : u = x
  · subst hux
    simp
  · simp [hux]

/-- A deleted user loses its code. -/
theorem deleteUsers_verifications {p : UserRow → Bool} {u : UserId} {v : EmailVerification} :
    (w.deleteUsers p).verifications u = some v ↔
      w.verifications u = some v ∧ ∀ r, w.users.find u = some r → p r = false := by
  unfold World.deleteUsers
  cases hf : w.users.find u with
  | none => simp [hf]
  | some r => cases hp : p r <;> simp [hf, hp]

theorem Step.clock_eq (h : Step X i w a c w' c' es) : w'.clock = w.clock := by
  cases h <;> rfl

theorem Step.nextId_le (h : Step X i w a c w' c' es) : w.users.nextId ≤ w'.users.nextId := by
  cases h with
  | updateCreds s u users hu => exact Int.le_of_eq (updateCreds_some hu).1.symm
  | createUser s t users hu =>
    have hnext := createUser_nextId hu
    change w.users.nextId ≤ users.nextId
    omega
  | skip =>
    change w.users.nextId ≤ w.users.nextId + 1
    omega
  | _ => exact Int.le_refl _

/-- A call works on an account that has been created. -/
theorem Step.known (h : Step X i w a c w' c' es)
    (hc : ∀ u, c.user = some u → (u : ℤ) < w.users.nextId) {u : ℤ} (hu : c'.user = some u) :
    u < w'.users.nextId := by
  have hle := h.nextId_le
  have hold : c.user = some u → u < w'.users.nextId := fun hcu => Int.lt_of_lt_of_le (hc u hcu) hle
  cases h with
  | other n hn hnone =>
    rw [hnone] at hu
    cases hu
  | findUpdated v row hrow =>
    obtain rfl := Option.some.inj hu
    exact w.users.below row (UserTable.find_mem hrow)
  | createUser s t users hcreate =>
    have hnext := createUser_nextId hcreate
    obtain rfl := Option.some.inj hu
    change w.users.nextId < users.nextId
    omega
  | verifyFind email code row hrow =>
    obtain rfl := Option.some.inj hu
    exact w.users.below row hrow
  | resendFind email row hrow =>
    obtain rfl := Option.some.inj hu
    exact w.users.below row hrow
  | delete v next =>
    rw [next.call_user] at hu
    cases hu
  | send sender =>
    rw [sender.done_user] at hu
    cases hu
  | clear v codeHash failure c' hv hnone =>
    rw [hnone] at hu
    cases hu
  | increment v checked x c' hv hnone =>
    rw [hnone] at hu
    cases hu
  | updateCreds | skip | setVerified | cleanupDelete => cases hu
  | _ => exact hold hu

/-- Users that lose no row keep the codes they own; a deleted user loses its code too. -/
theorem Step.owned (h : Step X i w a c w' c' es)
    (hw : ∀ u v, w.verifications u = some v → (w.users.find u).isSome) (u : UserId)
    (v : EmailVerification) (hv : w'.verifications u = some v) : (w'.users.find u).isSome := by
  have put {x : UserId} {o : Option EmailVerification} (hx : o.isSome → (w.users.find x).isSome)
      (hput : (w.putVerification x o).verifications u = some v) : (w.users.find u).isSome := by
    rcases putVerification_eq_some.mp hput with ⟨rfl, ho⟩ | ⟨-, hold⟩
    · exact hx (by simp [ho])
    · exact hw u v hold
  -- a deletion takes the codes with the accounts
  have del {p : UserRow → Bool} (hdel : (w.deleteUsers p).verifications u = some v) :
      ((w.deleteUsers p).users.find u).isSome := by
    obtain ⟨hold, hkeep⟩ := deleteUsers_verifications.mp hdel
    obtain ⟨r, hr⟩ := Option.isSome_iff_exists.mp (hw u v hold)
    exact Option.isSome_iff_exists.mpr ⟨r, deleteUsers_find.mpr ⟨hr, hkeep r hr⟩⟩
  cases h with
  | updateCreds s x users hu => exact updateCreds_isSome hu (hw u v hv)
  | createUser s t users hu =>
    obtain ⟨r, hr⟩ := Option.isSome_iff_exists.mp (hw u v hv)
    have hfind := createUser_find hu (UserTable.find_lt hr)
    change (users.find u).isSome
    rw [hfind, hr, Option.isSome_some]
  | delete | cleanupDelete => exact del hv
  | setVerification sender row code codeHash now hrow => exact put (fun _ => hrow) hv
  | clear x codeHash failure c' hx => exact put (fun ho => by cases ho) hv
  | increment x checked y c' hx => exact put (fun _ => hw x y hx) hv
  | setVerified x code checked row hrow =>
    have hfind : (w.users.find u).isSome := put (x := x) (o := none) (fun ho => by cases ho) hv
    change ((w.users.setEmailVerified x).find u).isSome
    rw [setEmailVerified_find]
    simpa using hfind
  | _ => exact hw u v hv

/-- Every call works on a created account, and every code belongs to an account. -/
structure Accounts (c : Config) : Prop where
  known : ∀ i u, (c.calls i).user = some u → (u : ℤ) < c.shared.users.nextId
  owned : ∀ u v, c.shared.verifications u = some v → (c.shared.users.find u).isSome

theorem Accounts.next {c d : Config} {a : Act Input Env} (h : Accounts c)
    (hn : (system X).next c a = some d) : Accounts d := by
  cases a with
  | env b =>
    obtain ⟨s, hs, rfl⟩ := System.next_env_eq_some.mp hn
    obtain rfl := Option.some.inj hs
    exact ⟨h.known, h.owned⟩
  | call i x =>
    obtain ⟨w, l, es, he, rfl⟩ := System.next_call_eq_some.mp hn
    have hstep := exec_step he
    refine ⟨fun j u hj => ?_, hstep.owned h.owned⟩
    change (Function.update c.calls i l j).user = some u at hj
    by_cases hji : j = i
    · subst hji
      rw [Function.update_self] at hj
      exact hstep.known (fun v hv => h.known j v hv) hj
    · rw [Function.update_of_ne hji] at hj
      exact Int.lt_of_lt_of_le (h.known j u hj) hstep.nextId_le

theorem initial_accounts (clock : ℕ) (users : UserTable) : Accounts (initial clock users) where
  known _ _ h := by cases h
  owned _ _ h := by cases h

/-- The credentials of an account change only when a sign-up overwrites them. -/
theorem Step.held (h : Step X i w a c w' c' es) {u : ℤ} (hlt : u < w.users.nextId) :
    (∃ s users, a = .ok ∧ c = .updateCreds s u ∧ c' = .findUpdated u ∧
      w.users.updateCreds s u = some users) ∨
    ∀ cr, w'.held u = some cr → w.held u = some cr := by
  have del {p : UserRow → Bool} :
      ∀ cr, (w.deleteUsers p).held u = some cr → w.held u = some cr := by
    intro cr hcr
    obtain ⟨r, hr, rfl⟩ := Option.map_eq_some_iff.mp hcr
    exact Option.map_eq_some_iff.mpr ⟨r, (deleteUsers_find.mp hr).1, rfl⟩
  cases h with
  | updateCreds s x users hu =>
    by_cases hux : u = x
    · subst hux
      exact Or.inl ⟨s, users, rfl, rfl, rfl, hu⟩
    · refine Or.inr fun cr hcr => ?_
      unfold World.held at *
      rw [← updateCreds_find hu hux]
      exact hcr
  | createUser s t users hu =>
    refine Or.inr fun cr hcr => ?_
    unfold World.held at *
    rw [← createUser_find hu hlt]
    exact hcr
  | delete | cleanupDelete => exact Or.inr del
  | setVerified x code checked row hrow =>
    refine Or.inr fun cr hcr => ?_
    unfold World.held at *
    change ((w.users.setEmailVerified x).find u).map creds = some cr at hcr
    rw [setEmailVerified_find, Option.map_map] at hcr
    have hcreds : (creds ∘ fun r : UserRow =>
        if r.id = x then { r with emailVerified := true } else r) = creds := by
      funext r
      simp only [Function.comp_apply]
      split <;> rfl
    rwa [hcreds] at hcr
  | _ => exact Or.inr fun cr hcr => hcr

/-- A stored code is the one that was stored before, with as many attempts or more, or the one that
its call brings along. -/
theorem Step.stored (h : Step X i w a c w' c' es) {u : UserId} {v : EmailVerification}
    (hv : w'.verifications u = some v) :
    (∃ v₀, w.verifications u = some v₀ ∧ v.hash = v₀.hash ∧ v.sentAt = v₀.sentAt ∧
      v.expiresAt = v₀.expiresAt ∧ v₀.failedAttempts ≤ v.failedAttempts) ∨
    ∃ sender row code now, a = .ok ∧ c = .setVerification sender row code v.hash now ∧
      row.id = u ∧ (w.users.find u).isSome := by
  have keep (hold : w.verifications u = some v) :
      ∃ v₀, w.verifications u = some v₀ ∧ v.hash = v₀.hash ∧ v.sentAt = v₀.sentAt ∧
        v.expiresAt = v₀.expiresAt ∧ v₀.failedAttempts ≤ v.failedAttempts :=
    ⟨v, hold, rfl, rfl, rfl, Nat.le_refl _⟩
  cases h with
  | delete | cleanupDelete => exact Or.inl (keep (deleteUsers_verifications.mp hv).1)
  | clear x | setVerified x =>
    rcases putVerification_eq_some.mp hv with ⟨-, ho⟩ | ⟨-, hold⟩
    · cases ho
    · exact Or.inl (keep hold)
  | setVerification sender row code codeHash now hrow =>
    rcases putVerification_eq_some.mp hv with ⟨rfl, ho⟩ | ⟨-, hold⟩
    · rw [← Option.some.inj ho]
      exact Or.inr ⟨sender, row, code, now, rfl, rfl, rfl, hrow⟩
    · exact Or.inl (keep hold)
  | increment x checked y c' hx =>
    rcases putVerification_eq_some.mp hv with ⟨rfl, ho⟩ | ⟨-, hold⟩
    · rw [← Option.some.inj ho]
      exact Or.inl ⟨y, hx, rfl, rfl, rfl, Nat.le_succ _⟩
    · exact Or.inl (keep hold)
  | _ => exact Or.inl (keep hv)

/-- A code is drawn where its credentials are read, and mailed by the call that stored it. -/
theorem Step.generated (h : Step X i w a c w' c' es) {j : ℕ} {u : UserId} {code codeHash : String}
    {held : Option Credentials} (he : .generated j u code codeHash held ∈ es) :
    a = .code code ∧ held = w.held u := by
  cases h with
  | generate sender row k =>
    obtain ⟨-, rfl, rfl, -, rfl⟩ := Event.generated.inj (List.mem_singleton.mp he)
    exact ⟨rfl, rfl⟩
  | _ => simp at he

theorem Step.mailed (h : Step X i w a c w' c' es) {j : ℕ} {u : UserId} {code : String}
    {held : Option Credentials} (he : .mailed j u code held ∈ es) :
    held = w.held u ∧ ∃ sender row codeHash, c = .send sender row code codeHash ∧ row.id = u := by
  cases h with
  | send sender row k codeHash =>
    obtain ⟨-, rfl, rfl, rfl⟩ := Event.mailed.inj (List.mem_singleton.mp he)
    exact ⟨rfl, sender, row, codeHash, rfl, rfl⟩
  | _ => simp at he

end Thcdb.SignUp
