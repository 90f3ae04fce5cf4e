import Mathlib.Data.Finset.Card
import Thcdb.SignUp.Vouching

namespace Thcdb.SignUp
open Auth Interleaving

variable {X : Crates}

/-- A wrong submission for the account has been found and is not yet counted. -/
def Call.awaits (u : UserId) : Call → Bool
  | .increment userId _ => userId = u
  | _ => false

/-- A right submission for the account has been found and is not yet acted on. -/
def Call.verifies (u : UserId) : Call → Bool
  | .setVerified userId .. => userId = u
  | _ => false

/-- What a step asks, as far as the calls `J` are concerned. A submission is compared with the code
that is still stored, with attempts left for the wrong ones that are not yet counted; a code is
neither stored, cleared nor used up while a submission that was compared is to be counted or acted
on; and counting does not fail. -/
def chargesInTime (c : Config) (a : Act Input Env) (J : List ℕ) : Bool :=
  match a with
  | .call i .ok =>
    match c.calls i with
    | .verifyCode u v _ =>
      c.shared.clock > v.expiresAt || (c.shared.verifications u).any fun v' =>
        v'.hash = v.hash && v'.failedAttempts + J.countP (fun j => (c.calls j).awaits u) <
          verificationCodeMaxFailedAttempts
    | .setVerification _ row .. =>
      (c.shared.users.find row.id).isNone ||
        J.all fun j => !(c.calls j).awaits row.id && !(c.calls j).verifies row.id
    | .clear u codeHash _ =>
      !(c.shared.verifications u).any (·.hash = codeHash) || J.all fun j => !(c.calls j).verifies u
    | .setVerified u .. =>
      (c.shared.users.find u).isNone || J.all fun j => j = i || !(c.calls j).verifies u
    | _ => true
  | .call i .fail =>
    match c.calls i with
    | .increment u _ => (c.shared.verifications u).isNone
    | _ => true
  | _ => true

def Event.rejects (u : UserId) (codeHash : String) : Event → Bool
  | .evaluated _ userId checked accepted => userId = u && checked = codeHash && !accepted
  | _ => false

def wrong (u : UserId) (codeHash : String) (log : List Event) : ℕ :=
  log.countP (Event.rejects u codeHash)

/-- A submission is compared with a code that has attempts left, an attempt is charged to the code it
was compared with, and that is still the stored one when the account is verified. -/
def InBudget (before : List Event) : Event → Prop
  | .evaluated _ u checked _ => wrong u checked before < verificationCodeMaxFailedAttempts
  | .charged _ _ checked storedHash => storedHash = checked
  | .verified _ _ _ checked storedHash _ => storedHash = some checked
  | _ => True

def Issued (c : Config) (codeHash : String) : Prop := ∃ j u, .stored j u codeHash ∈ c.log

def Call.draft : Call → Option String
  | .setVerification _ _ _ codeHash _ => some codeHash
  | _ => none

/-- No two codes share a hash; a call that has compared a submission finds the code it was compared
with; and the wrong submissions are in the counter or on their way to it. -/
structure Budget (X : Crates) (c : Config) : Prop where
  minted : ∀ h, Issued c h → ∃ n, n < c.shared.salts ∧ ∃ code, h = X.hash n code
  drafted : ∀ i h, (c.calls i).draft = some h →
    (∃ n, n < c.shared.salts ∧ ∃ code, h = X.hash n code) ∧ ¬ Issued c h
  distinct : ∀ i j h, (c.calls i).draft = some h → (c.calls j).draft = some h → i = j
  evaluated : ∀ j u h b, .evaluated j u h b ∈ c.log → Issued c h
  awaiting : ∀ j u h, c.calls j = .increment u h →
    Issued c h ∧ ∀ v, c.shared.verifications u = some v → v.hash = h
  verifying : ∀ j u code h, c.calls j = .setVerified u code h →
    c.shared.users.find u = none ∨ ∃ v, c.shared.verifications u = some v ∧ v.hash = h
  stored : ∀ u v, c.shared.verifications u = some v → Issued c v.hash ∧
    ∃ S : Finset ℕ, (∀ j, j ∈ S ↔ c.calls j = .increment u v.hash) ∧
      wrong u v.hash c.log ≤ v.failedAttempts + S.card

section Steps

variable {i : ℕ} {a : Input} {w w' : World} {c c' : Call} {es : List Event}

theorem Step.salts_le (h : Step X i w a c w' c' es) : w.salts ≤ w'.salts := by
  cases h with
  | other n hn => exact hn
  | generate => exact Nat.le_succ _
  | _ => exact Nat.le_refl _

theorem draft_of_user {l : Call} (h : l.user = none) : l.draft = none := by
  cases l with
  | setVerification => cases h
  | _ => rfl

theorem Step.draft (h : Step X i w a c w' c' es) {codeHash : String}
    (hd : c'.draft = some codeHash) :
    (∃ code, codeHash = X.hash w.salts code) ∧ w'.salts = w.salts + 1 ∧ es.all fun
      | .stored .. => false
      | _ => true := by
  have off (hnone : c'.user = none) : False := by
    rw [draft_of_user hnone] at hd
    cases hd
  cases h with
  | generate sender row code =>
    obtain rfl := Option.some.inj hd
    exact ⟨⟨code, rfl⟩, rfl, rfl⟩
  | other n hn hnone => exact (off hnone).elim
  | delete u next => exact (off next.call_user).elim
  | send sender => exact (off sender.done_user).elim
  | clear u k f c' hv hnone => exact (off hnone).elim
  | increment u k v c' hv hnone => exact (off hnone).elim
  | _ => cases hd

theorem Step.logsStored (h : Step X i w a c w' c' es) {j : ℕ} {u : UserId} {codeHash : String}
    (he : .stored j u codeHash ∈ es) : c.draft = some codeHash := by
  cases h with
  | setVerification sender row code h now hrow =>
    obtain ⟨-, -, rfl⟩ := Event.stored.inj (List.mem_singleton.mp he)
    rfl
  | _ => simp at he

theorem Step.logsEvaluated (h : Step X i w a c w' c' es) {j : ℕ} {u : UserId} {checked : String}
    {b : Bool} (he : .evaluated j u checked b ∈ es) :
    ∃ v code, a = .ok ∧ c = .verifyCode u v code ∧ checked = v.hash ∧ w.clock ≤ v.expiresAt := by
  cases h with
  | rejected x v code hexp =>
    obtain ⟨-, rfl, rfl, -⟩ := Event.evaluated.inj (List.mem_singleton.mp he)
    exact ⟨v, code, rfl, rfl, rfl, hexp⟩
  | accepted x v code hexp =>
    obtain ⟨-, rfl, rfl, -⟩ := Event.evaluated.inj (List.mem_singleton.mp he)
    exact ⟨v, code, rfl, rfl, rfl, hexp⟩
  | _ => simp at he

/-- The account and the code of a submission that was compared and is to be counted or acted on. -/
def Call.compared : Call → Option (UserId × String)
  | .increment userId checked | .setVerified userId _ checked => some (userId, checked)
  | _ => none

theorem compared_of_user {l : Call} (h : l.user = none) : l.compared = none := by
  cases l with
  | increment | setVerified => cases h
  | _ => rfl

/-- How a call comes to count a submission or to act on it. -/
theorem Step.compared (h : Step X i w a c w' c' es) {u : UserId} {checked : String}
    (hc : c'.compared = some (u, checked)) :
    w' = w ∧
      ∃ v code, a = .ok ∧ c = .verifyCode u v code ∧ checked = v.hash ∧ w.clock ≤ v.expiresAt := by
  have off (hnone : c'.user = none) : False := by
    rw [compared_of_user hnone] at hc
    cases hc
  cases h with
  | rejected x v code hexp | accepted x v code hexp =>
    obtain ⟨rfl, rfl⟩ := Prod.mk.inj (Option.some.inj hc)
    exact ⟨rfl, v, code, rfl, rfl, rfl, hexp⟩
  | other n hn hnone => exact (off hnone).elim
  | delete y next => exact (off next.call_user).elim
  | send sender => exact (off sender.done_user).elim
  | clear y k f c' hv hnone => exact (off hnone).elim
  | increment y k v c' hv hnone => exact (off hnone).elim
  | _ => cases hc

theorem Step.wrong_eq (h : Step X i w a c w' c' es) (u : UserId) (codeHash : String) :
    wrong u codeHash es = 0 ∨ wrong u codeHash es = 1 ∧ c' = .increment u codeHash := by
  cases h with
  | rejected x v code hexp =>
    by_cases hx : x = u ∧ v.hash = codeHash
    · obtain ⟨rfl, rfl⟩ := hx
      exact Or.inr ⟨by simp [wrong, Event.rejects], rfl⟩
    · refine Or.inl ?_
      simp only [wrong, List.countP_singleton, Event.rejects]
      simp only [not_and] at hx
      simpa using hx
  | accepted => exact Or.inl (by simp [wrong, Event.rejects])
  | _ => exact Or.inl rfl

/-- A deleted account does not come back under its id. -/
theorem Step.find_none (h : Step X i w a c w' c' es) {u : ℤ} (hlt : u < w.users.nextId)
    (hu : w.users.find u = none) : w'.users.find u = none := by
  have del {p : UserRow → Bool} : (w.deleteUsers p).users.find u = none := by
    cases hf : (w.deleteUsers p).users.find u with
    | none => rfl
    | some r => cases hu.symm.trans (deleteUsers_find.mp hf).1
  cases h with
  | updateCreds s x users hup =>
    change users.find u = none
    rw [(updateCreds_some hup).2 u, hu, Option.map_none]
  | createUser s t users hcr => exact (createUser_find hcr hlt).trans hu
  | delete | cleanupDelete => exact del
  | setVerified x code checked row hrow =>
    change (w.users.setEmailVerified x).find u = none
    rw [setEmailVerified_find, hu, Option.map_none]
  | _ => exact hu

/-- How a stored code can go. -/
theorem Step.kept (h : Step X i w a c w' c' es) {u : UserId} {v : EmailVerification}
    (hv : w.verifications u = some v) :
    (∃ v', w'.verifications u = some v' ∧ v'.hash = v.hash) ∨ w'.users.find u = none ∨
    a = .ok ∧ ((∃ sender row code codeHash now, c = .setVerification sender row code codeHash now ∧
        row.id = u ∧ (w.users.find u).isSome) ∨
      (∃ codeHash failure, c = .clear u codeHash failure ∧
        (w.verifications u).any (·.hash = codeHash)) ∨
      ∃ code checked, c = .setVerified u code checked ∧ (w.users.find u).isSome) := by
  have other {x : UserId} (hux : u ≠ x) (o : Option EmailVerification) :
      (w.putVerification x o).verifications u = some v :=
    putVerification_eq_some.mpr (Or.inr ⟨hux, hv⟩)
  -- an account that is left has its code left
  have del {p : UserRow → Bool} : (∃ v', (w.deleteUsers p).verifications u = some v' ∧
      v'.hash = v.hash) ∨ (w.deleteUsers p).users.find u = none := by
    cases hf : (w.deleteUsers p).users.find u with
    | none => exact Or.inr rfl
    | some r =>
      obtain ⟨hr, hno⟩ := deleteUsers_find.mp hf
      refine Or.inl ⟨v, deleteUsers_verifications.mpr ⟨hv, fun s hs => ?_⟩, rfl⟩
      rwa [← Option.some.inj (hr.symm.trans hs)]
  cases h with
  | delete | cleanupDelete => exact del.imp id Or.inl
  | setVerification sender row code codeHash now hrow =>
    by_cases hux : u = row.id
    · subst hux
      exact Or.inr (Or.inr ⟨rfl, Or.inl ⟨sender, row, code, codeHash, now, rfl, rfl, hrow⟩⟩)
    · exact Or.inl ⟨v, other hux _, rfl⟩
  | clear x codeHash failure c' hx =>
    by_cases hux : u = x
    · subst hux
      exact Or.inr (Or.inr ⟨rfl, Or.inr (Or.inl ⟨codeHash, failure, rfl, hx⟩)⟩)
    · exact Or.inl ⟨v, other hux _, rfl⟩
  | increment x checked y c' hx =>
    by_cases hux : u = x
    · subst hux
      obtain rfl := Option.some.inj (hx.symm.trans hv)
      exact Or.inl ⟨_, putVerification_eq_some.mpr (Or.inl ⟨rfl, rfl⟩), rfl⟩
    · exact Or.inl ⟨v, other hux _, rfl⟩
  | setVerified x code checked row hrow =>
    by_cases hux : u = x
    · subst hux
      exact Or.inr (Or.inr ⟨rfl, Or.inr (Or.inr ⟨code, checked, rfl, by rw [hrow]; rfl⟩)⟩)
    · exact Or.inl ⟨v, other hux _, rfl⟩
  | _ => exact Or.inl ⟨v, hv, rfl⟩

/-- How a call stops waiting for its count. -/
theorem increment_next (he : (system X).exec i a w c = some (w', c', es)) {u : UserId}
    {checked : String} (hc : c = .increment u checked) {v : EmailVerification}
    (hv : w.verifications u = some v) :
    a = .fail ∨ es = [.charged i u checked v.hash] ∧
      w'.verifications u = some { v with failedAttempts := v.failedAttempts + 1 } := by
  subst hc
  cases a with
  | fail => exact Or.inl rfl
  | ok =>
    obtain ⟨rfl, rfl, rfl⟩ : _ ∧ _ ∧ _ := by simpa [system, statement, hv] using he
    exact Or.inr ⟨rfl, Function.update_self ..⟩
  | _ => cases he

end Steps

section Next

variable {c : Config} {i : ℕ} {x : Input} {w : World} {l : Call} {es : List Event} {u : ℤ}

/-- What the guard says where a submission is compared. -/
theorem stored_of_compare {v : EmailVerification} {code : String}
    (hc : c.calls i = .verifyCode u v code) (hexp : c.shared.clock ≤ v.expiresAt)
    (hg : ∀ J : List ℕ, J.Nodup → chargesInTime c (.call i .ok) J) :
    ∃ v', c.shared.verifications u = some v' ∧ v'.hash = v.hash ∧
      ∀ J : List ℕ, J.Nodup → v'.failedAttempts + J.countP (fun j => (c.calls j).awaits u) <
        verificationCodeMaxFailedAttempts := by
  have hno : ¬ c.shared.clock > v.expiresAt := by omega
  have hJ : ∀ J : List ℕ, J.Nodup → ∃ v', c.shared.verifications u = some v' ∧
      v'.hash = v.hash ∧ v'.failedAttempts + J.countP (fun j => (c.calls j).awaits u) <
        verificationCodeMaxFailedAttempts := by
    intro J hnodup
    have hj := hg J hnodup
    simpa [chargesInTime, hc, hno, Option.any_eq_true] using hj
  obtain ⟨v', hv', hhash, -⟩ := hJ [] List.nodup_nil
  refine ⟨v', hv', hhash, fun J hnodup => ?_⟩
  obtain ⟨v'', hv'', -, hlt⟩ := hJ J hnodup
  obtain rfl := Option.some.inj (hv'.symm.trans hv'')
  exact hlt

/-- What the guard says where a code is stored. -/
theorem none_pending_of_store {sender : Sender} {row : UserRow} {code codeHash : String} {now : ℕ}
    (hc : c.calls i = .setVerification sender row code codeHash now)
    (hrow : (c.shared.users.find row.id).isSome)
    (hg : ∀ J : List ℕ, J.Nodup → chargesInTime c (.call i .ok) J) (j : ℕ) :
    (c.calls j).awaits row.id = false ∧ (c.calls j).verifies row.id = false := by
  have hj := hg [j] (List.nodup_singleton j)
  have hsome : (c.shared.users.find row.id).isNone = false := Option.isNone_eq_false_iff.mpr hrow
  simpa [chargesInTime, hc, hsome] using hj

theorem issued_mono {h : String} (hi : Issued c h) (d : Config) (hlog : c.log ⊆ d.log) :
    Issued d h := by
  obtain ⟨j, u, hmem⟩ := hi
  exact ⟨j, u, hlog hmem⟩

theorem issued_next (hstep : Step X i c.shared x (c.calls i) w l es)
    {codeHash : String}
    (hi : Issued ⟨w, Function.update c.calls i l, c.log ++ es⟩ codeHash) :
    Issued c codeHash ∨ (c.calls i).draft = some codeHash := by
  obtain ⟨j, v, hmem⟩ := hi
  rcases List.mem_append.mp hmem with hold | hnew
  · exact Or.inl ⟨j, v, hold⟩
  · exact Or.inr (hstep.logsStored hnew)

/-- A hash that was drawn is under a salt that was drawn. -/
theorem Budget.minted_next (h : Budget X c) (hstep : Step X i c.shared x (c.calls i) w l es)
    {codeHash : String}
    (hi : Issued ⟨w, Function.update c.calls i l, c.log ++ es⟩ codeHash) :
    ∃ n, n < w.salts ∧ ∃ code, codeHash = X.hash n code := by
  have hold : ∃ n, n < c.shared.salts ∧ ∃ code, codeHash = X.hash n code := by
    rcases issued_next hstep hi with hi | hd
    · exact h.minted codeHash hi
    · exact (h.drafted i codeHash hd).1
  obtain ⟨n, hn, hcode⟩ := hold
  exact ⟨n, Nat.lt_of_lt_of_le hn hstep.salts_le, hcode⟩

theorem Budget.drafted_next (h : Budget X c) (hstep : Step X i c.shared x (c.calls i) w l es)
    {j : ℕ} {codeHash : String} (hd : (Function.update c.calls i l j).draft = some codeHash) :
    (∃ n, n < w.salts ∧ ∃ code, codeHash = X.hash n code) ∧
      ¬ Issued ⟨w, Function.update c.calls i l, c.log ++ es⟩ codeHash := by
  by_cases hji : j = i
  · subst hji
    rw [Function.update_self] at hd
    obtain ⟨⟨code, rfl⟩, hsalts, hes⟩ := hstep.draft hd
    refine ⟨⟨c.shared.salts, by omega, code, rfl⟩, ?_⟩
    -- every hash so far is under another salt
    rintro ⟨k, v, hmem⟩
    rcases List.mem_append.mp hmem with hold | hnew
    · obtain ⟨n, hn, code', heq⟩ := h.minted _ ⟨k, v, hold⟩
      have hsame := X.hash_salt heq
      omega
    · have hno := List.all_eq_true.mp hes _ hnew
      simp at hno
  · rw [Function.update_of_ne hji] at hd
    obtain ⟨⟨n, hn, hcode⟩, hno⟩ := h.drafted j codeHash hd
    refine ⟨⟨n, Nat.lt_of_lt_of_le hn hstep.salts_le, hcode⟩, fun hi => ?_⟩
    rcases issued_next hstep hi with hi | hdi
    · exact hno hi
    · exact hji (h.distinct j i codeHash hd hdi)

theorem Budget.distinct_next (h : Budget X c) (hstep : Step X i c.shared x (c.calls i) w l es)
    {j k : ℕ} {codeHash : String} (hj : (Function.update c.calls i l j).draft = some codeHash)
    (hk : (Function.update c.calls i l k).draft = some codeHash) : j = k := by
  have hnew (m : ℕ) (hl : l.draft = some codeHash) : (c.calls m).draft ≠ some codeHash := by
    intro hm
    obtain ⟨⟨code, rfl⟩, -, -⟩ := hstep.draft hl
    obtain ⟨⟨n, hn, code', heq⟩, -⟩ := h.drafted m _ hm
    have hsame := X.hash_salt heq
    omega
  by_cases hji : j = i
  · subst hji
    rw [Function.update_self] at hj
    by_cases hkj : k = j
    · exact hkj.symm
    · rw [Function.update_of_ne hkj] at hk
      exact absurd hk (hnew k hj)
  · rw [Function.update_of_ne hji] at hj
    by_cases hki : k = i
    · subst hki
      rw [Function.update_self] at hk
      exact absurd hj (hnew j hk)
    · rw [Function.update_of_ne hki] at hk
      exact h.distinct j k codeHash hj hk

theorem Budget.awaiting_next (h : Budget X c)
    (hstep : Step X i c.shared x (c.calls i) w l es)
    (hg : ∀ J : List ℕ, J.Nodup → chargesInTime c (.call i x) J) {j : ℕ} {checked : String}
    (hj : Function.update c.calls i l j = .increment u checked) :
    Issued ⟨w, Function.update c.calls i l, c.log ++ es⟩ checked ∧
      ∀ v, w.verifications u = some v → v.hash = checked := by
  by_cases hji : j = i
  · subst hji
    rw [Function.update_self] at hj
    -- it has just compared the submission, with the stored code by the guard
    obtain ⟨rfl, v, code, rfl, hc, rfl, hexp⟩ := hstep.compared (congrArg Call.compared hj)
    obtain ⟨v', hv', hhash, -⟩ := stored_of_compare hc hexp hg
    refine ⟨?_, fun v'' hv'' => ?_⟩
    · rw [← hhash]
      exact issued_mono (h.stored u v' hv').1 _ (List.subset_append_left ..)
    · obtain rfl := Option.some.inj (hv'.symm.trans hv'')
      exact hhash
  · rw [Function.update_of_ne hji] at hj
    obtain ⟨hissued, hstored⟩ := h.awaiting j u checked hj
    refine ⟨issued_mono hissued _ (List.subset_append_left ..), fun v hv => ?_⟩
    rcases hstep.stored hv with ⟨v₀, hv₀, hhash, -⟩ | ⟨sender, row, code, now, hset⟩
    · rw [hhash]
      exact hstored v₀ hv₀
    · -- the guard lets no code be stored meanwhile
      obtain ⟨rfl, hc, rfl, hrow⟩ := hset
      have hno := (none_pending_of_store hc hrow hg j).1
      rw [hj] at hno
      simp [Call.awaits] at hno

theorem Budget.verifying_next (h : Budget X c) (hacc : Accounts c)
    (hstep : Step X i c.shared x (c.calls i) w l es)
    (hg : ∀ J : List ℕ, J.Nodup → chargesInTime c (.call i x) J) {j : ℕ} {code checked : String}
    (hj : Function.update c.calls i l j = .setVerified u code checked) :
    w.users.find u = none ∨ ∃ v, w.verifications u = some v ∧ v.hash = checked := by
  by_cases hji : j = i
  · subst hji
    rw [Function.update_self] at hj
    obtain ⟨rfl, v, k, rfl, hc, rfl, hexp⟩ := hstep.compared (congrArg Call.compared hj)
    obtain ⟨v', hv', hhash, -⟩ := stored_of_compare hc hexp hg
    exact Or.inr ⟨v', hv', hhash⟩
  · rw [Function.update_of_ne hji] at hj
    have hlt : u < c.shared.users.nextId := hacc.known j u (by rw [hj]; rfl)
    have hverifies : (c.calls j).verifies u := by simp [hj, Call.verifies]
    rcases h.verifying j u code checked hj with hgone | ⟨v, hv, rfl⟩
    · exact Or.inl (hstep.find_none hlt hgone)
    rcases hstep.kept hv with hkept | hgone | ⟨rfl, hwrite⟩
    · exact Or.inr hkept
    · exact Or.inl hgone
    -- the guard lets no code be replaced, cleared or used up meanwhile
    rcases hwrite with ⟨sender, row, k, codeHash, now, hc, rfl, hrow⟩ |
      ⟨codeHash, failure, hc, hhash⟩ | ⟨k, codeHash, hc, hrow⟩
    · have hno := (none_pending_of_store hc hrow hg j).2
      rw [hverifies] at hno
      cases hno
    · have hno := hg [j] (List.nodup_singleton j)
      simp [chargesInTime, hc, hhash, hverifies] at hno
    · have hno := hg [j] (List.nodup_singleton j)
      have hsome : (c.shared.users.find u).isNone = false := Option.isNone_eq_false_iff.mpr hrow
      simp [chargesInTime, hc, hsome, hverifies, hji] at hno

theorem wrong_append (v : UserId) (codeHash : String) (log es : List Event) :
    wrong v codeHash (log ++ es) = wrong v codeHash log + wrong v codeHash es :=
  List.countP_append ..

/-- A code that was never compared with has no wrong submissions. -/
theorem wrong_eq_zero {log : List Event} {v : UserId} {codeHash : String}
    (h : ∀ j b, .evaluated j v codeHash b ∉ log) : wrong v codeHash log = 0 := by
  unfold wrong
  rw [List.countP_eq_zero]
  intro e he
  cases e with
  | evaluated j y checked b =>
    simp only [Event.rejects, Bool.and_eq_true, decide_eq_true_eq]
    rintro ⟨⟨rfl, rfl⟩, -⟩
    exact h j b he
  | _ => simp [Event.rejects]

/-- The wrong submissions stay in the counter or on their way to it. -/
theorem Budget.stored_next (h : Budget X c)
    (he : (system X).exec i x c.shared (c.calls i) = some (w, l, es))
    (hg : ∀ J : List ℕ, J.Nodup → chargesInTime c (.call i x) J) {v : EmailVerification}
    (hv : w.verifications u = some v) :
    Issued ⟨w, Function.update c.calls i l, c.log ++ es⟩ v.hash ∧
      ∃ S : Finset ℕ, (∀ j, j ∈ S ↔ Function.update c.calls i l j = .increment u v.hash) ∧
        wrong u v.hash (c.log ++ es) ≤ v.failedAttempts + S.card := by
  have hstep := exec_step he
  rcases hstep.stored hv with
    ⟨v₀, hv₀, hhash, -, -, hle⟩ | ⟨sender, row, code, now, rfl, hc, rfl, hrow⟩
  · obtain ⟨hissued, S, hS, hcount⟩ := h.stored u v₀ hv₀
    rw [hhash]
    refine ⟨issued_mono hissued _ (List.subset_append_left ..), ?_⟩
    rw [wrong_append]
    by_cases hin : l = .increment u v₀.hash
    · -- found wrong: on its way to the counter
      obtain ⟨rfl, v₁, code, rfl, hc, -, -⟩ := hstep.compared (congrArg Call.compared hin)
      obtain rfl := Option.some.inj (hv₀.symm.trans hv)
      have hi : i ∉ S := by
        rw [hS i, hc]
        exact fun heq => by cases heq
      refine ⟨insert i S, fun j => ?_, ?_⟩
      · rw [Finset.mem_insert]
        by_cases hji : j = i
        · subst hji
          rw [Function.update_self]
          exact ⟨fun _ => hin, fun _ => Or.inl rfl⟩
        · rw [Function.update_of_ne hji, hS j]
          exact ⟨fun hor => hor.resolve_left hji, Or.inr⟩
      · rw [Finset.card_insert_of_notMem hi]
        have hone : wrong u v₀.hash es ≤ 1 := by
          rcases hstep.wrong_eq u v₀.hash with h0 | ⟨h1, -⟩ <;> omega
        omega
    · have hzero : wrong u v₀.hash es = 0 := by
        rcases hstep.wrong_eq u v₀.hash with h0 | ⟨-, hl⟩
        · exact h0
        · exact absurd hl hin
      by_cases hout : c.calls i = .increment u v₀.hash
      · -- counted
        -- it is counted on the code that it was compared with, unless the guard is broken
        rcases increment_next he hout hv₀ with rfl | ⟨-, hput⟩
        · have hno := hg [] List.nodup_nil
          simp [chargesInTime, hout, hv₀] at hno
        · have hattempts : v.failedAttempts = v₀.failedAttempts + 1 := by
            rw [Option.some.inj (hv.symm.trans hput)]
          have hi : i ∈ S := (hS i).mpr hout
          refine ⟨S.erase i, fun j => ?_, ?_⟩
          · rw [Finset.mem_erase]
            by_cases hji : j = i
            · subst hji
              rw [Function.update_self]
              exact ⟨fun hne => absurd rfl hne.1, fun heq => absurd heq hin⟩
            · rw [Function.update_of_ne hji, hS j]
              exact ⟨fun hand => hand.2, fun heq => ⟨hji, heq⟩⟩
          · have hcard := Finset.card_erase_add_one hi
            omega
      · refine ⟨S, fun j => ?_, by omega⟩
        by_cases hji : j = i
        · subst hji
          rw [Function.update_self, hS j]
          exact ⟨fun heq => absurd heq hout, fun heq => absurd heq hin⟩
        · rw [Function.update_of_ne hji]
          exact hS j
  · -- a new code: nothing was compared with it
    have hdraft : (c.calls i).draft = some v.hash := by
      rw [hc]
      rfl
    have hfresh := (h.drafted i v.hash hdraft).2
    rw [hc] at he
    obtain ⟨rfl, rfl, rfl⟩ : _ ∧ _ ∧ _ := by simpa [system, statement, hrow] using he
    refine ⟨⟨i, row.id, List.mem_append_right _ (List.mem_singleton_self _)⟩, ∅, fun j => ?_, ?_⟩
    · refine ⟨fun hmem => absurd hmem (Finset.notMem_empty j), fun heq => ?_⟩
      by_cases hji : j = i
      · subst hji
        rw [Function.update_self] at heq
        cases heq
      · rw [Function.update_of_ne hji] at heq
        exact absurd (h.awaiting j row.id v.hash heq).1 hfresh
    · have hold : wrong row.id v.hash c.log = 0 :=
        wrong_eq_zero fun j b hmem => hfresh (h.evaluated j row.id v.hash b hmem)
      have hnew : wrong row.id v.hash [.stored i row.id v.hash] = 0 := rfl
      rw [wrong_append, hold, hnew]
      exact Nat.zero_le _

theorem Budget.next {c d : Config} {a : Act Input Env} (h : Budget X c) (hacc : Accounts c)
    (hg : ∀ J : List ℕ, J.Nodup → chargesInTime c a J) (hn : (system X).next c a = some d) :
    Budget X d := by
  cases a with
  | env b =>
    obtain ⟨s, hs, rfl⟩ := System.next_env_eq_some.mp hn
    obtain rfl := Option.some.inj hs
    exact ⟨h.minted, h.drafted, h.distinct, h.evaluated, h.awaiting, h.verifying, h.stored⟩
  | call i x =>
    obtain ⟨w, l, es, he, rfl⟩ := System.next_call_eq_some.mp hn
    have hstep := exec_step he
    refine
      { minted := fun _ => h.minted_next hstep
        drafted := fun _ _ => h.drafted_next hstep
        distinct := fun _ _ _ => h.distinct_next hstep
        evaluated := ?_
        awaiting := fun _ _ _ => h.awaiting_next hstep hg
        verifying := fun _ _ _ _ => h.verifying_next hacc hstep hg
        stored := fun _ _ => h.stored_next he hg }
    intro j u checked b hmem
    rcases List.mem_append.mp hmem with hold | hnew
    · exact issued_mono (h.evaluated j u checked b hold) _ (List.subset_append_left ..)
    · obtain ⟨v, code, rfl, hc, rfl, hexp⟩ := hstep.logsEvaluated hnew
      obtain ⟨v', hv', hhash, -⟩ := stored_of_compare hc hexp hg
      rw [← hhash]
      exact issued_mono (h.stored u v' hv').1 _ (List.subset_append_left ..)

/-- What a step logs is in budget. -/
theorem inBudget_of_exec (h : Budget X c)
    (he : (system X).exec i x c.shared (c.calls i) = some (w, l, es))
    (hg : ∀ J : List ℕ, J.Nodup → chargesInTime c (.call i x) J) :
    es = [] ∨ ∃ e, es = [e] ∧ InBudget c.log e := by
  have hstep := exec_step he
  have compared (v : ℤ) (y : EmailVerification) (code : String)
      (hc : c.calls i = .verifyCode v y code) (hexp : c.shared.clock ≤ y.expiresAt) (hx : x = .ok) :
      wrong v y.hash c.log < verificationCodeMaxFailedAttempts := by
    subst hx
    obtain ⟨v', hv', hhash, hlt⟩ := stored_of_compare hc hexp hg
    obtain ⟨-, S, hS, hcount⟩ := h.stored v v' hv'
    -- the guard for the calls that wait bounds the counter and what is on its way to it
    have hall : S.toList.countP (fun j => (c.calls j).awaits v) = S.card := by
      rw [← Finset.length_toList S, List.countP_eq_length]
      intro j hj
      simp [(hS j).mp (Finset.mem_toList.mp hj), Call.awaits]
    have hbound := hlt S.toList S.nodup_toList
    rw [hall] at hbound
    rw [← hhash]
    omega
  have charged (v : ℤ) (checked : String) (y : EmailVerification)
      (hc : c.calls i = .increment v checked) (hv : c.shared.verifications v = some y) :
      y.hash = checked := (h.awaiting i v checked hc).2 y hv
  have verified (v : ℤ) (code checked : String) (row : UserRow)
      (hc : c.calls i = .setVerified v code checked) (hrow : c.shared.users.find v = some row) :
      (c.shared.verifications v).map (·.hash) = some checked := by
    rcases h.verifying i v code checked hc with hgone | ⟨y, hv, hhash⟩
    · cases hgone.symm.trans hrow
    · rw [hv, Option.map_some, hhash]
  generalize hc : c.calls i = l₀ at hstep compared charged verified
  cases hstep with
  | rejected v y code hexp => exact Or.inr ⟨_, rfl, compared v y code rfl hexp rfl⟩
  | accepted v y code hexp => exact Or.inr ⟨_, rfl, compared v y code rfl hexp rfl⟩
  | increment v checked y c' hv => exact Or.inr ⟨_, rfl, charged v checked y rfl hv⟩
  | setVerified v code checked row hrow =>
    exact Or.inr ⟨_, rfl, verified v code checked row rfl hrow⟩
  | generate | setVerification | send => exact Or.inr ⟨_, rfl, trivial⟩
  | _ => exact Or.inl rfl

end Next

/-- If every comparison comes within the budget, the budget is kept. -/
theorem wrong_le_of_always {log : List Event} (h : Always InBudget log) (u : UserId)
    (codeHash : String) : wrong u codeHash log ≤ verificationCodeMaxFailedAttempts := by
  induction log using List.reverseRecOn with
  | nil => exact Nat.zero_le _
  | append_singleton log e ih =>
    have hprefix : Always InBudget log :=
      fun before x after heq => h before x (after ++ [e]) (by rw [heq]; simp)
    have hle := ih hprefix
    have hlast := h log e [] rfl
    rw [wrong_append]
    cases e with
    | evaluated j v checked b =>
      by_cases hmatch : Event.rejects u codeHash (.evaluated j v checked b)
      · -- the last wrong submission was compared while attempts were left
        have hsame : v = u ∧ checked = codeHash := by
          simp only [Event.rejects, Bool.and_eq_true, decide_eq_true_eq] at hmatch
          exact hmatch.1
        obtain ⟨rfl, rfl⟩ := hsame
        have hone : wrong v checked [.evaluated j v checked b] ≤ 1 := List.countP_le_length
        have hlt : wrong v checked log < verificationCodeMaxFailedAttempts := hlast
        omega
      · have hzero : wrong u codeHash [.evaluated j v checked b] = 0 := by
          rw [wrong, List.countP_singleton, if_neg hmatch]
        omega
    | _ => exact hle

/-- In every run whose comparisons, counts and codes meet in time, at most
`VERIFICATION_CODE_MAX_FAILED_ATTEMPTS` wrong submissions are compared with a code before it stops
being accepted, each is charged to the code it was compared with, and an account is verified by the
code that is stored. -/
theorem verify_budget (X : Crates) (clock : ℕ) (users : UserTable) (as : List (Act Input Env))
    (c : Config)
    (hg : (system X).Meets (fun c a => ∀ J : List ℕ, J.Nodup → chargesInTime c a J)
      (initial clock users) as)
    (h : (system X).run (initial clock users) as = some c) :
    Always InBudget c.log ∧
      ∀ u codeHash, wrong u codeHash c.log ≤ verificationCodeMaxFailedAttempts := by
  have hinv := System.run_induction
    (I := fun x : Config => Accounts x ∧ Budget X x ∧ Always InBudget x.log) ?_ ?_ hg h
  · exact ⟨hinv.2.2, wrong_le_of_always hinv.2.2⟩
  · rintro x a y ⟨hacc, hb, hlog⟩ hg hn
    refine ⟨hacc.next hn, hb.next hacc hg hn, hlog.next hn ?_⟩
    rintro i k w l es rfl he
    exact inBudget_of_exec hb he hg
  · refine ⟨initial_accounts clock users, ?_, Always.nil⟩
    exact
      { minted := fun h ⟨_, _, hmem⟩ => by cases hmem
        drafted := fun _ _ hd => by cases hd
        distinct := fun _ _ _ hd => by cases hd
        evaluated := fun _ _ _ _ hmem => by cases hmem
        awaiting := fun _ _ _ hc => by cases hc
        verifying := fun _ _ _ _ hc => by cases hc
        stored := fun _ _ hv => by cases hv }

section Plain

/-- The guard for the calls that act is the guard for all, if the rest are idle. -/
theorem chargesInTime_of_within {c : Config} {a : Act Input Env} {L J : List ℕ}
    (hidle : ∀ j, j ∉ L → c.calls j = .idle) (h : chargesInTime c a L) (hJ : J.Nodup) :
    chargesInTime c a J := by
  -- idle calls wait for no count
  have hcount (u : UserId) :
      J.countP (fun j => (c.calls j).awaits u) ≤ L.countP (fun j => (c.calls j).awaits u) := by
    rw [List.countP_eq_length_filter, List.countP_eq_length_filter]
    apply List.Subperm.length_le
    apply (hJ.filter _).subperm
    intro j hj
    obtain ⟨-, hawaits⟩ := List.mem_filter.mp hj
    refine List.mem_filter.mpr ⟨?_, hawaits⟩
    by_contra hno
    rw [hidle j hno] at hawaits
    cases hawaits
  have hall {p : ℕ → Bool} (hp : ∀ j, c.calls j = .idle → p j) (hL : L.all p) : J.all p := by
    rw [List.all_eq_true] at *
    intro j _
    by_cases hj : j ∈ L
    · exact hL j hj
    · exact hp j (hidle j hj)
  unfold chargesInTime at *
  split
  · next i =>
    simp only at h
    generalize c.calls i = l at h
    cases l with
    | verifyCode u v code =>
      simp only [Bool.or_eq_true, Option.any_eq_true, Bool.and_eq_true, decide_eq_true_eq] at *
      refine h.imp id ?_
      rintro ⟨v', hv', hhash, hlt⟩
      exact ⟨v', hv', hhash, Nat.lt_of_le_of_lt (Nat.add_le_add_left (hcount u) _) hlt⟩
    | setVerification sender row code codeHash now =>
      simp only [Bool.or_eq_true] at *
      exact h.imp id (hall fun j hj => by simp [hj, Call.awaits, Call.verifies])
    | clear u codeHash failure =>
      simp only [Bool.or_eq_true] at *
      exact h.imp id (hall fun j hj => by simp [hj, Call.verifies])
    | setVerified u code checked =>
      simp only [Bool.or_eq_true] at *
      exact h.imp id (hall fun j hj => by simp [hj, Call.verifies])
    | _ => rfl
  · exact h
  · rfl

theorem meets_chargesInTime {c : Config} {as : List (Act Input Env)} {L : List ℕ}
    (hc : ∀ j, j ∉ L → c.calls j = .idle) (has : ∀ a ∈ as, a.Within L)
    (h : (system X).Meets (fun c a => chargesInTime c a L) c as) :
    (system X).Meets (fun c a => ∀ J : List ℕ, J.Nodup → chargesInTime c a J) c as :=
  System.meets_of_within (fun _ _ hidle hL _ hJ => chargesInTime_of_within hidle hL hJ) hc has h

def plainIssue : List (Act Input Env) :=
  [.call 0 (.signUp "kogasa" "kogasa@example.org" "umbrella"), .call 0 .ok, .call 0 .ok, .call 0 .ok,
    .call 0 .ok, .call 0 .ok, .call 0 (.code "135790"), .call 0 .ok, .call 0 .ok, .call 0 .ok]

/-- A submission, up to and with the reading of the stored code. -/
def plainSubmit (i : ℕ) (code : String) : List (Act Input Env) :=
  [.call i (.verifyEmail "kogasa@example.org" code), .call i .ok, .call i .ok, .call i .ok]

def plainGuesses : List (Act Input Env) :=
  plainIssue ++ plainSubmit 1 "000000" ++ plainSubmit 2 "111111" ++
    [.call 1 .ok, .call 2 .ok, .call 2 .ok, .call 1 .ok] ++
    plainSubmit 3 "135790" ++ [.call 3 .ok, .call 3 .ok]

theorem plainGuesses_guarded : (system Crates.plain).Meets
    (fun c a => ∀ J : List ℕ, J.Nodup → chargesInTime c a J) (initial 0 .empty) plainGuesses := by
  have hwithin : ∀ a ∈ plainGuesses, a.Within [0, 1, 2, 3] := by decide
  exact meets_chargesInTime (fun _ _ => rfl) hwithin (by decide)

theorem plainGuesses_log : ((system Crates.plain).run (initial 0 .empty) plainGuesses).map
    (fun c => c.log.drop 3) = some
      [.evaluated 1 1 "0$135790" false, .evaluated 2 1 "0$135790" false,
        .charged 2 1 "0$135790" "0$135790", .charged 1 1 "0$135790" "0$135790",
        .evaluated 3 1 "0$135790" true,
        .verified 3 1 "135790" "0$135790" (some "0$135790") ⟨"kogasa", "$umbrella"⟩] := by
  decide

theorem verify_budget_plain : ∃ c,
    (system Crates.plain).run (initial 0 .empty) plainGuesses = some c ∧
    .evaluated 1 1 "0$135790" false ∈ c.log ∧ Always InBudget c.log ∧
    wrong 1 "0$135790" c.log ≤ verificationCodeMaxFailedAttempts := by
  obtain ⟨c, hc, hlog⟩ := Option.map_eq_some_iff.mp plainGuesses_log
  have hmem : .evaluated 1 1 "0$135790" false ∈ c.log :=
    List.mem_of_mem_drop (i := 3) (by simp [hlog])
  have h := verify_budget Crates.plain 0 .empty plainGuesses c plainGuesses_guarded hc
  exact ⟨c, hc, hmem, h.1, h.2 1 "0$135790"⟩

/-- Eleven wrong submissions read the code before the first of them is counted. -/
def plainParallel : List (Act Input Env) :=
  plainIssue ++ (List.range 11).flatMap (fun i => plainSubmit (i + 1) "000000") ++
    (List.range 11).map fun i => .call (i + 1) .ok

/-- A wrong and a right submission have been compared with the first code when a second one is
stored. -/
def plainReissued : List (Act Input Env) :=
  plainIssue ++ plainSubmit 1 "000000" ++ plainSubmit 2 "135790" ++ [.call 1 .ok, .call 2 .ok] ++
    [.env (.tick (seconds 61)), .call 3 (.resendVerificationEmail "kogasa@example.org"), .call 3 .ok,
      .call 3 .ok, .call 3 .ok, .call 3 .ok, .call 3 (.code "246801"), .call 3 .ok] ++
    [.call 1 .ok, .call 2 .ok]

theorem plainParallel_wrong :
    ((system Crates.plain).run (initial 0 .empty) plainParallel).map
      (fun c => wrong 1 "0$135790" c.log) = some 11 := by
  decide

theorem plainReissued_log :
    ((system Crates.plain).run (initial 0 .empty) plainReissued).map (fun c => c.log.drop 7) = some
      [.charged 1 1 "0$135790" "00$246801",
        .verified 2 1 "135790" "0$135790" (some "00$246801") ⟨"kogasa", "$umbrella"⟩] := by
  decide

/-- Eleven wrong submissions are compared with one code; an attempt is charged to a code that was
stored after the comparison; and an account is verified by a code that is no longer stored. -/
theorem budget_exceeded :
    (¬ ∀ as c, (system Crates.plain).run (initial 0 .empty) as = some c →
      ∀ u codeHash, wrong u codeHash c.log ≤ verificationCodeMaxFailedAttempts) ∧
    (¬ ∀ as c, (system Crates.plain).run (initial 0 .empty) as = some c →
      ∀ i u checked storedHash, .charged i u checked storedHash ∈ c.log → storedHash = checked) ∧
    ¬ ∀ as c, (system Crates.plain).run (initial 0 .empty) as = some c →
      ∀ i u code checked storedHash held, .verified i u code checked storedHash held ∈ c.log →
        storedHash = some checked := by
  refine ⟨fun hall => ?_, fun hall => ?_, fun hall => ?_⟩
  · obtain ⟨c, hc, hwrong⟩ := Option.map_eq_some_iff.mp plainParallel_wrong
    have hle := hall plainParallel c hc 1 "0$135790"
    rw [hwrong] at hle
    exact absurd hle (by decide)
  · obtain ⟨c, hc, hlog⟩ := Option.map_eq_some_iff.mp plainReissued_log
    have heq := hall plainReissued c hc 1 1 "0$135790" "00$246801"
      (List.mem_of_mem_drop (i := 7) (by simp [hlog]))
    exact absurd heq (by decide)
  · obtain ⟨c, hc, hlog⟩ := Option.map_eq_some_iff.mp plainReissued_log
    have heq := hall plainReissued c hc 2 1 "135790" "0$135790" (some "00$246801")
      ⟨"kogasa", "$umbrella"⟩ (List.mem_of_mem_drop (i := 7) (by simp [hlog]))
    exact absurd heq (by decide)

end Plain

end Thcdb.SignUp
