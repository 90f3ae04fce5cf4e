import Thcdb.SignUp.Service

namespace Thcdb.SignUp
open Auth Interleaving

variable {X : Crates}

/-- A repeated sign-up overwrites an unverified row, and the clean-up job deletes unverified rows. -/
def sparesVerified (c : Config) : Act Input Env → Bool
  | .call i .ok =>
    match c.calls i with
    | .updateCreds s u =>
      (c.shared.users.updateCreds s u).isNone || (c.shared.users.find u).all (!·.emailVerified)
    | .cleanupDelete userIds =>
      c.shared.users.rows.all fun r => !r.emailVerified || !userIds.contains r.id
    | _ => true
  | _ => true

theorem updateCreds_some {t t' : UserTable} {s : Signup} {u : UserId}
    (h : t.updateCreds s u = some t') : t'.nextId = t.nextId ∧ ∀ v, t'.find v = (t.find v).map
      fun r => if r.id = u then { r with name := s.username, password := s.passwordHash } else r := by
  unfold UserTable.updateCreds at h
  split at h
  · cases h
  · rw [← Option.some.inj h]
    exact ⟨rfl, fun v => UserTable.find_map⟩

theorem updateCreds_find {t t' : UserTable} {s : Signup} {u v : UserId}
    (h : t.updateCreds s u = some t') (hne : v ≠ u) : t'.find v = t.find v := by
  rw [(updateCreds_some h).2 v]
  cases hf : t.find v with
  | none => rfl
  | some r =>
    have hid := UserTable.find_id hf
    simp [hid, hne]

theorem setEmailVerified_find {t : UserTable} {u v : UserId} :
    (t.setEmailVerified u).find v =
      (t.find v).map fun r => if r.id = u then { r with emailVerified := true } else r :=
  UserTable.find_map

/-- Verifying an account again changes nothing. -/
theorem setEmailVerified_find_verified {t : UserTable} {u v : UserId} {r : UserRow}
    (h : t.find v = some r) (hv : r.emailVerified) : (t.setEmailVerified u).find v = some r := by
  rw [setEmailVerified_find, h, Option.map_some]
  congr 1
  split
  · rw [← hv]
  · rfl

theorem createUser_some {t t' : UserTable} {s : Signup} {now : ℕ}
    (h : t.createUser X s now = some t') :
    t' = t.insert ⟨t.nextId, s.username, s.email, false, s.passwordHash, now⟩ := by
  unfold UserTable.createUser at h
  split at h
  · cases h
  · exact (Option.some.inj h).symm

theorem createUser_find {t t' : UserTable} {s : Signup} {now : ℕ} {v : ℤ}
    (h : t.createUser X s now = some t') (hlt : v < t.nextId) : t'.find v = t.find v := by
  rw [createUser_some h]
  exact UserTable.find_insert hlt

theorem deleteUsers_find {w : World} {p : UserRow → Bool} {u : UserId} {r : UserRow} :
    (w.deleteUsers p).users.find u = some r ↔ w.users.find u = some r ∧ p r = false := by
  unfold World.deleteUsers
  rw [UserTable.find_filter]
  simp

/-- What one step leaves of a verified row. -/
theorem verified_kept_of_next {c d : Config} {a : Act Input Env} (hg : sparesVerified c a)
    (hn : (system X).next c a = some d) {u : UserId} {r : UserRow}
    (hr : c.shared.users.find u = some r) (hv : r.emailVerified) :
    d.shared.users.find u = some r := by
  cases a with
  | env b =>
    obtain ⟨s, hs, rfl⟩ := System.next_env_eq_some.mp hn
    obtain rfl := Option.some.inj hs
    exact hr
  | call i x =>
    obtain ⟨w, l, es, he, rfl⟩ := System.next_call_eq_some.mp hn
    have hstep := exec_step he
    have hlt := UserTable.find_lt hr
    generalize hl : c.calls i = l₀ at hstep
    cases hstep with
    | updateCreds s v users hu =>
      -- the guard says that the row is not the one overwritten
      have hspare : (c.shared.users.find v).all (!·.emailVerified) := by
        simpa [sparesVerified, hl, hu] using hg
      have hne : u ≠ v := by
        intro heq
        rw [← heq, hr] at hspare
        simp [hv] at hspare
      exact (updateCreds_find hu hne).trans hr
    | createUser s t users hu => exact (createUser_find hu hlt).trans hr
    | skip => exact hr
    | delete v next => exact deleteUsers_find.mpr ⟨hr, by simp [hv]⟩
    | setVerified v code checked row hrow => exact setEmailVerified_find_verified hr hv
    | cleanupDelete userIds =>
      have hspare : ∀ s ∈ c.shared.users.rows, s.emailVerified = false ∨ ¬ s.id ∈ userIds := by
        simpa [sparesVerified, hl] using hg
      have hkeep := (hspare r (UserTable.find_mem hr)).resolve_left (by simp [hv])
      exact deleteUsers_find.mpr ⟨hr, by simpa using hkeep⟩
    | _ => exact hr

/-- In every run whose updates and clean-ups meet unverified rows, a row that is verified keeps its
name, its password and its place in the table. -/
theorem verified_rows_kept (X : Crates) (w : World) (as bs : List (Act Input Env)) (c d : Config)
    (hg : (system X).Meets (fun c a => sparesVerified c a) ⟨w, fun _ => .idle, []⟩ (as ++ bs))
    (hc : (system X).run ⟨w, fun _ => .idle, []⟩ as = some c) (hd : (system X).run c bs = some d)
    (u : UserId) (r : UserRow) (hr : c.shared.users.find u = some r) (hv : r.emailVerified) :
    d.shared.users.find u = some r := by
  have hmeets := (System.meets_append hc).mp hg
  exact System.run_induction (I := fun x : Config => x.shared.users.find u = some r)
    (fun x a y hx hga hn => verified_kept_of_next hga hn hx hv) hr hmeets.2 hd

def plainRow : UserRow := ⟨1, "kogasa", "kogasa@example.org", false, "0$umbrella", 0⟩

def plainWorld (now : ℕ) : World where
  clock := now
  users := UserTable.empty.insert plainRow
  verifications u := if u = 1 then some ⟨"00$135790", now + minutes 10, now, 0⟩ else none
  salts := 3

def plainVerify : List (Act Input Env) :=
  [.call 0 (.verifyEmail "kogasa@example.org" "135790"), .call 0 .ok, .call 0 .ok, .call 0 .ok,
    .call 0 .ok, .call 0 .ok]

/-- Somebody signs up for the same address, up to the update of the row if it is pending. -/
def plainSignup : List (Act Input Env) :=
  [.call 1 (.signUp "nue" "kogasa@example.org" "a better password"), .call 1 .ok, .call 1 .ok,
    .call 1 .ok]

def plainCleanup : List (Act Input Env) :=
  [.env (.tick (hours 25)), .call 2 .cleanup, .call 2 .ok]

theorem plainVerify_guarded : (system Crates.plain).Meets (fun c a => sparesVerified c a)
    ⟨plainWorld 0, fun _ => .idle, []⟩ (plainVerify ++ (plainSignup.take 2 ++ plainCleanup)) := by
  decide

theorem verified_rows_kept_plain :
    ((system Crates.plain).after ⟨plainWorld 0, fun _ => .idle, []⟩
      (plainVerify ++ (plainSignup.take 2 ++ plainCleanup))).shared.users.find 1 =
      some { plainRow with emailVerified := true } := by
  have hruns : ((system Crates.plain).run ⟨plainWorld 0, fun _ => .idle, []⟩
    (plainVerify ++ (plainSignup.take 2 ++ plainCleanup))).isSome := by decide
  have hcut := System.run_after_append hruns
  exact verified_rows_kept Crates.plain (plainWorld 0) _ _ _ _ plainVerify_guarded hcut.1 hcut.2 1
    { plainRow with emailVerified := true } (by decide) rfl

/-- A sign-up has looked at the pending row; the owner verifies it; the sign-up overwrites it. -/
theorem overwritten_row :
    ((system Crates.plain).after ⟨plainWorld 0, fun _ => .idle, []⟩
      (plainSignup ++ plainVerify ++ [.call 1 .ok])).shared.users.find 1 =
      some ⟨1, "nue", "kogasa@example.org", true, "000$a better password", 0⟩ := by
  decide

/-- The owner has submitted the code a second before the day is over; the job lists the account;
the owner is verified; the job deletes the account. -/
def plainLate : List (Act Input Env) :=
  plainVerify.take 4 ++ [.env (.tick (seconds 2)), .call 2 .cleanup, .call 2 .ok] ++
    plainVerify.drop 4

/-- A verified row can be overwritten by a sign-up and deleted by the job. -/
theorem verified_rows_lost :
    (¬ ∀ as bs c d, (system Crates.plain).run ⟨plainWorld 0, fun _ => .idle, []⟩ as = some c →
      (system Crates.plain).run c bs = some d → ∀ u r, c.shared.users.find u = some r →
        r.emailVerified → d.shared.users.find u = some r) ∧
    ¬ ∀ as bs c d,
      (system Crates.plain).run ⟨plainWorld (hours 24 - seconds 1), fun _ => .idle, []⟩ as = some c →
      (system Crates.plain).run c bs = some d → ∀ u r, c.shared.users.find u = some r →
        r.emailVerified → (d.shared.users.find u).isSome := by
  constructor
  · intro hall
    have hruns : ((system Crates.plain).run ⟨plainWorld 0, fun _ => .idle, []⟩
      (plainSignup ++ plainVerify ++ [.call 1 .ok])).isSome := by decide
    have hcut := System.run_after_append hruns
    have hkept := hall _ _ _ _ hcut.1 hcut.2 1 { plainRow with emailVerified := true } (by decide) rfl
    rw [overwritten_row] at hkept
    exact absurd hkept (by decide)
  · intro hall
    have hruns : ((system Crates.plain).run
      ⟨plainWorld (hours 24 - seconds 1), fun _ => .idle, []⟩
      (plainLate ++ [.call 2 .ok])).isSome := by decide
    have hcut := System.run_after_append hruns
    have hkept := hall _ _ _ _ hcut.1 hcut.2 1 { plainRow with emailVerified := true } (by decide) rfl
    exact absurd hkept (by decide)

end Thcdb.SignUp
