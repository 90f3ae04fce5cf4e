import Thcdb.SignUp.Accounts

namespace Thcdb.SignUp
open Auth Interleaving

variable {X : Crates}

def EmailVerification.usable (v : EmailVerification) (now : ℕ) : Bool :=
  v.failedAttempts < verificationCodeMaxFailedAttempts && now ≤ v.expiresAt

/-- `verify_email` with this row and this submission succeeds. -/
def EmailVerification.accepts (v : EmailVerification) (X : Crates) (code : String) (now : ℕ) :
    Bool :=
  v.usable now && X.verify v.hash code = some true

/-- The row whose credentials a sign-up has overwritten, up to the storing of its own code. -/
def Call.overwrites : Call → Option UserId
  | .findUpdated userId => some userId
  | .loadUpdated row | .generate .overwritten row | .setVerification .overwritten row .. =>
    some row.id
  | .cooldown .overwritten user => some user.row.id
  | _ => none

/-- The call may yet store or accept a code of the account that exists by now. -/
def Call.carries (X : Crates) (now : ℕ) (u : UserId) : Call → Bool
  | .setVerification _ row .. => row.id = u
  | .verifySignup user code =>
    user.row.id = u && user.verification.any (·.accepts X code now)
  | .verifyCode userId v code => userId = u && v.accepts X code now
  | .setVerified userId .. => userId = u
  | _ => false

/-- What a step asks of call `j`. A sign-up overwrites credentials while the stored code is of no
use or out of its resend cooldown, and `j` carries no code of the account; from there up to the
storing of its own code it does not fail, and no `verify_email` reads a code that it accepts. -/
def renewsCode (X : Crates) (c : Config) (a : Act Input Env) (j : ℕ) : Bool :=
  match a with
  | .call i .ok =>
    match c.calls i with
    | .updateCreds s u =>
      (c.shared.users.updateCreds s u).isNone ||
        (c.shared.verifications u).all (fun v =>
          !v.usable c.shared.clock || !v.inResendCooldown c.shared.clock) &&
        !(c.calls j).carries X c.shared.clock u
    | .verifyLoad row code =>
      (c.calls j).overwrites ≠ some row.id ||
        (c.shared.verifications row.id).all fun v => !v.accepts X code c.shared.clock
    | _ => true
  | .call i .fail =>
    (c.calls i).overwrites.all fun u =>
      (c.shared.verifications u).all fun v => !v.usable c.shared.clock
  | _ => true

def drawsNew (c : Config) : Act Input Env → Bool
  | .call _ (.code code) => c.log.all fun
    | .generated _ _ drawn .. => drawn ≠ code
    | _ => true
  | _ => true

def Generated (c : Config) (u : UserId) (code : String) : Prop :=
  ∃ j codeHash held, .generated j u code codeHash held ∈ c.log

/-- The account holds what it held whenever this code was generated or mailed. -/
structure Vouched (c : Config) (u : UserId) (code : String) : Prop where
  exists_generated : Generated c u code
  generated : ∀ cr, c.shared.held u = some cr →
    ∀ j codeHash held, .generated j u code codeHash held ∈ c.log → held = some cr
  mailed : ∀ cr, c.shared.held u = some cr →
    ∀ j held, .mailed j u code held ∈ c.log → held = some cr

def CallVouches (X : Crates) (c : Config) : Call → Prop
  | .setVerification _ row code codeHash _ =>
    (∃ n, codeHash = X.hash n code) ∧ Vouched c row.id code
  | .findStored _ row code _ | .send _ row code _ => Generated c row.id code
  | .verifySignup user code => ∀ v, user.verification = some v →
    v.accepts X code c.shared.clock → Vouched c user.row.id code
  | .verifyCode u v code => v.failedAttempts < verificationCodeMaxFailedAttempts ∧
    (v.accepts X code c.shared.clock → Vouched c u code)
  | .setVerified u code _ => Vouched c u code
  | _ => True

/-- A sign-up that has overwritten the row and is bound to replace its code. -/
def Call.replaces (now : ℕ) (u : UserId) (l : Call) : Prop :=
  l.overwrites = some u ∧
    ∀ sender user, l = .cooldown sender user → user.verification.any (·.inResendCooldown now) = false

/-- A code that can be used vouches for its account, or it is about to be replaced. -/
structure Vouching (X : Crates) (c : Config) : Prop where
  calls : ∀ i, CallVouches X c (c.calls i)
  mailed : ∀ j u code held, .mailed j u code held ∈ c.log → Generated c u code
  stored : ∀ u v, c.shared.verifications u = some v → ∃ n code, v.hash = X.hash n code ∧
    (Vouched c u code ∨ v.usable c.shared.clock = false ∨
      v.inResendCooldown c.shared.clock = false ∧ ∃ k, (c.calls k).replaces c.shared.clock u)

section Time

variable {v : EmailVerification} {code : String} {now later : ℕ}

theorem EmailVerification.usable_of_le (h : now ≤ later) (hv : v.usable later) : v.usable now := by
  simp only [usable, Bool.and_eq_true, decide_eq_true_eq] at *
  omega

theorem EmailVerification.accepts_of_le (h : now ≤ later) (hv : v.accepts X code later) :
    v.accepts X code now := by
  simp only [accepts, Bool.and_eq_true] at *
  exact ⟨usable_of_le h hv.1, hv.2⟩

theorem EmailVerification.cooldown_of_le (h : now ≤ later) (hv : v.inResendCooldown now = false) :
    v.inResendCooldown later = false := by
  unfold inResendCooldown at *
  generalize seconds verificationCodeResendCooldownSeconds = cooldown at *
  have hnow := of_decide_eq_false hv
  exact decide_eq_false (by omega)

theorem Call.replaces_of_le {u : UserId} {l : Call} (h : now ≤ later)
    (hl : l.replaces now u) : l.replaces later u := by
  refine ⟨hl.1, fun sender user hc => ?_⟩
  have hnow := hl.2 sender user hc
  cases hv : user.verification with
  | none => rfl
  | some v =>
    rw [hv, Option.any_some] at hnow
    rw [Option.any_some]
    exact EmailVerification.cooldown_of_le h hnow

end Time

theorem callVouches_of_user {c : Config} {l : Call} (h : l.user = none) : CallVouches X c l := by
  cases l with
  | setVerification | findStored | send | verifySignup | verifyCode | setVerified => cases h
  | _ => trivial

theorem Generated.mono {c d : Config} (h : c.log ⊆ d.log) {u : UserId} {code : String}
    (hg : Generated c u code) : Generated d u code := by
  obtain ⟨j, codeHash, held, hmem⟩ := hg
  exact ⟨j, codeHash, held, h hmem⟩

/-- What a call knows of its code outlasts every step that keeps the codes it carries vouched for. -/
theorem CallVouches.mono {c d : Config} {l : Call} (h : CallVouches X c l)
    (hclock : c.shared.clock ≤ d.shared.clock) (hlog : c.log ⊆ d.log)
    (hv : ∀ u code, l.user = some u → l.carries X c.shared.clock u → Vouched c u code →
      Vouched d u code) : CallVouches X d l := by
  cases l with
  | setVerification sender row code codeHash now =>
    exact ⟨h.1, hv row.id code rfl (by simp [Call.carries]) h.2⟩
  | findStored | send => exact Generated.mono hlog h
  | verifySignup user code =>
    intro v huser hacc
    have hacc' := EmailVerification.accepts_of_le hclock hacc
    apply hv user.row.id code rfl ?_ (h v huser hacc')
    simp [Call.carries, huser, hacc']
  | verifyCode u v code =>
    refine ⟨h.1, fun hacc => ?_⟩
    have hacc' := EmailVerification.accepts_of_le hclock hacc
    exact hv u code rfl (by simp [Call.carries, hacc']) (h.2 hacc')
  | setVerified u code checked => exact hv u code rfl (by simp [Call.carries]) h
  | _ => trivial

/-- The next statement of a sign-up that is bound to replace a stale code. -/
theorem replaces_next {i : ℕ} {x : Input} {w w' : World} {l l' : Call} {es : List Event}
    {u : UserId} {v : EmailVerification} (he : (system X).exec i x w l = some (w', l', es))
    (hl : l.replaces w.clock u) (hv : w.verifications u = some v)
    (hown : (w.users.find u).isSome) (hcool : v.inResendCooldown w.clock = false) :
    x = .fail ∨ l'.replaces w'.clock u ∨
      ∃ row code codeHash now, l = .setVerification .overwritten row code codeHash now ∧
        row.id = u ∧ ∀ v', w'.verifications u = some v' → v'.hash = codeHash := by
  have hu := hl.1
  cases x with
  | fail => exact Or.inl rfl
  | signUp | verifyEmail | resendVerificationEmail | cleanup =>
    cases l with
    | idle => cases hu
    | _ => cases he
  | unsent =>
    cases l with
    | send => cases hu
    | _ => cases he
  | code k =>
    cases l with
    | generate sender row =>
      obtain ⟨rfl, rfl, rfl⟩ : _ ∧ _ ∧ _ := by simpa [system, generate] using he
      refine Or.inr (Or.inl ⟨?_, fun _ _ h => by cases h⟩)
      cases sender with
      | overwritten => exact hu
      | created | resend => cases hu
    | _ => cases he
  | ok =>
    cases l with
    | findUpdated y =>
      obtain rfl := Option.some.inj hu
      obtain ⟨row, hrow⟩ := Option.isSome_iff_exists.mp hown
      obtain ⟨rfl, rfl, rfl⟩ : _ ∧ _ ∧ _ := by simpa [system, statement, hrow] using he
      have hid : row.id = y := UserTable.find_id hrow
      exact Or.inr (Or.inl ⟨congrArg some hid, fun _ _ h => by cases h⟩)
    | loadUpdated row =>
      obtain ⟨rfl, rfl, rfl⟩ : _ ∧ _ ∧ _ := by simpa [system, statement] using he
      refine Or.inr (Or.inl ⟨hu, fun sender user h => ?_⟩)
      -- what it has loaded is the stale code, and that is out of its cooldown
      obtain ⟨-, rfl⟩ := Call.cooldown.inj h
      obtain rfl := Option.some.inj hu
      rw [hv, Option.any_some]
      exact hcool
    | cooldown sender user =>
      have hgo := hl.2 sender user rfl
      obtain ⟨rfl, rfl, rfl⟩ : _ ∧ _ ∧ _ := by simpa [system, statement, hgo] using he
      refine Or.inr (Or.inl ⟨?_, fun _ _ h => by cases h⟩)
      cases sender with
      | overwritten => exact hu
      | created | resend => cases hu
    | setVerification sender row code codeHash now =>
      cases sender with
      | created | resend => cases hu
      | overwritten =>
        obtain rfl := Option.some.inj hu
        obtain ⟨rfl, rfl, rfl⟩ : _ ∧ _ ∧ _ := by simpa [system, statement, hown] using he
        refine Or.inr (Or.inr ⟨row, code, codeHash, now, rfl, rfl, fun v' hv' => ?_⟩)
        have hput := (Function.update_self row.id _ w.verifications).symm.trans hv'
        rw [← Option.some.inj hput]
    | generate => cases he
    | _ => cases hu

section Step

variable {c : Config} {i : ℕ} {x : Input} {w : World} {l : Call} {es : List Event} {u : ℤ}
  {code : String}

/-- What the guard says when credentials are overwritten. -/
theorem renews_of_update {s : Signup} {users : UserTable} (hc : c.calls i = .updateCreds s u)
    (hu : c.shared.users.updateCreds s u = some users)
    (hg : ∀ j, renewsCode X c (.call i .ok) j) :
    (∀ v, c.shared.verifications u = some v →
      v.usable c.shared.clock = false ∨ v.inResendCooldown c.shared.clock = false) ∧
    ∀ j, (c.calls j).carries X c.shared.clock u = false := by
  have hboth : ∀ j, (c.shared.verifications u).all (fun v =>
      !v.usable c.shared.clock || !v.inResendCooldown c.shared.clock) ∧
      (c.calls j).carries X c.shared.clock u = false := by
    intro j
    have hj := hg j
    simpa [renewsCode, hc, hu] using hj
  refine ⟨fun v hv => ?_, fun j => (hboth j).2⟩
  have hall := (hboth 0).1
  rw [hv, Option.all_some] at hall
  simpa using hall

theorem Vouched.next (h : Vouched c u code) (hstep : Step X i c.shared x (c.calls i) w l es)
    (hnew : drawsNew c (.call i x)) (hlt : u < c.shared.users.nextId)
    (hkeep : ∀ s users, x = .ok → c.calls i = .updateCreds s u →
      c.shared.users.updateCreds s u ≠ some users) :
    Vouched ⟨w, Function.update c.calls i l, c.log ++ es⟩ u code := by
  have hheld : ∀ cr, w.held u = some cr → c.shared.held u = some cr := by
    rcases hstep.held hlt with ⟨s, users, hx, hc, -, hu⟩ | hheld
    · exact absurd hu (hkeep s users hx hc)
    · exact hheld
  refine ⟨Generated.mono (List.subset_append_left ..) h.exists_generated, ?_, ?_⟩
  · intro cr hcr j codeHash held hmem
    rcases List.mem_append.mp hmem with hold | hnow
    · exact h.generated cr (hheld cr hcr) j codeHash held hold
    · -- the same code would have been drawn twice
      obtain ⟨rfl, -⟩ := hstep.generated hnow
      obtain ⟨j', codeHash', held', hdrawn⟩ := h.exists_generated
      have hne := List.all_eq_true.mp hnew _ hdrawn
      simp at hne
  · intro cr hcr j held hmem
    rcases List.mem_append.mp hmem with hold | hnow
    · exact h.mailed cr (hheld cr hcr) j held hold
    · exact (hstep.mailed hnow).1.trans (hheld cr hcr)

/-- A call that carries a code keeps it vouched for, whoever takes the step. -/
theorem Vouched.next_of_carries (h : Vouched c u code) {j : ℕ}
    (hj : (c.calls j).carries X c.shared.clock u)
    (hstep : Step X i c.shared x (c.calls i) w l es) (hlt : u < c.shared.users.nextId)
    (hg : ∀ j, renewsCode X c (.call i x) j) (hnew : drawsNew c (.call i x)) :
    Vouched ⟨w, Function.update c.calls i l, c.log ++ es⟩ u code := by
  apply h.next hstep hnew hlt
  rintro s users rfl hc hu
  have hno := (renews_of_update hc hu hg).2 j
  rw [hj] at hno
  cases hno

/-- The acting call after its step. -/
theorem CallVouches.next (h : Vouching X c) (hacc : Accounts c)
    (hverify : ∀ n s t, X.verify (X.hash n s) t = some (decide (s = t)))
    (hstep : Step X i c.shared x (c.calls i) w l es)
    (hg : ∀ j, renewsCode X c (.call i x) j) (hnew : drawsNew c (.call i x)) :
    CallVouches X ⟨w, Function.update c.calls i l, c.log ++ es⟩ l := by
  have hi := h.calls i
  have hclock := hstep.clock_eq
  have hlog : c.log ⊆ c.log ++ es := List.subset_append_left ..
  have hknown := hacc.known i
  have hcarry (v : ℤ) (k : String) (hv : Vouched c v k)
      (hl : (c.calls i).carries X c.shared.clock v) (hlt : v < c.shared.users.nextId) :=
    hv.next_of_carries hl hstep hlt hg hnew
  have hkeep (v : ℤ) (k : String) (hv : Vouched c v k) (hlt : v < c.shared.users.nextId)
      (hne : ∀ s, c.calls i ≠ .updateCreds s v) :=
    hv.next hstep hnew hlt fun s _ _ hs => absurd hs (hne s)
  generalize hc : c.calls i = l₀ at hstep hi hknown hcarry
  cases hstep with
  -- a code is drawn that was never drawn, for the credentials of the moment
  | generate sender row k =>
    refine ⟨⟨_, rfl⟩, ?_⟩
    have hmem : .generated i row.id k (X.hash c.shared.salts k) (c.shared.held row.id) ∈
        c.log ++ [.generated i row.id k (X.hash c.shared.salts k) (c.shared.held row.id)] :=
      List.mem_append_right _ (List.mem_singleton_self _)
    have hfirst : ∀ j v codeHash held, .generated j v k codeHash held ∉ c.log := by
      intro j v codeHash held hold
      have hne := List.all_eq_true.mp hnew _ hold
      simp at hne
    refine ⟨⟨i, _, _, hmem⟩, ?_, ?_⟩
    · intro cr hcr j codeHash held hgen
      rcases List.mem_append.mp hgen with hold | hnow
      · exact absurd hold (hfirst j row.id codeHash held)
      · obtain ⟨-, -, -, -, rfl⟩ := Event.generated.inj (List.mem_singleton.mp hnow)
        exact hcr
    · intro cr hcr j held hmail
      rcases List.mem_append.mp hmail with hold | hnow
      · obtain ⟨j', codeHash, held', hgen⟩ := h.mailed j row.id k held hold
        exact absurd hgen (hfirst j' row.id codeHash held')
      · simp at hnow
  | setVerification sender row k codeHash now hrow => exact hi.2.exists_generated.mono hlog
  | findStored => exact Generated.mono hlog hi
  | verifyLoad row k =>
    intro v hv hacc'
    obtain ⟨n, k', hhash, hcase⟩ := h.stored row.id v hv
    -- a hash accepts the code it was made of and no other
    have heq : k' = k := by
      have haccept : X.verify v.hash k = some true := by
        simp only [EmailVerification.accepts, Bool.and_eq_true, decide_eq_true_eq] at hacc'
        exact hacc'.2
      rw [hhash, hverify] at haccept
      simpa using haccept
    subst heq
    rcases hcase with hvouched | hno | ⟨-, j, hj⟩
    · obtain ⟨r, hr⟩ := Option.isSome_iff_exists.mp (hacc.owned row.id v hv)
      exact hkeep row.id k' hvouched (UserTable.find_lt hr) (fun s heq => by cases hc.symm.trans heq)
    · simp only [EmailVerification.accepts, Bool.and_eq_true] at hacc'
      exact absurd hacc'.1 (by simp [hno])
    · -- a stale code is read while a sign-up is about to replace it
      have hread := hg j
      simp only [renewsCode, hc, hj.1, ne_eq, not_true_eq_false, decide_false, Bool.false_or] at hread
      have hv' : c.shared.verifications row.id = some v := hv
      have hacc'' : v.accepts X k' c.shared.clock = true := hacc'
      rw [hv', Option.all_some, hacc''] at hread
      cases hread
  | verifySignup row v k hlt =>
    refine ⟨hlt, fun hacc' => ?_⟩
    have hv := hi v rfl hacc'
    exact hcarry row.id k hv (by simp [Call.carries, hacc']) (hknown row.id rfl)
  | accepted y v k hexp hok =>
    have hacc' : v.accepts X k c.shared.clock := by
      simp [EmailVerification.accepts, EmailVerification.usable, hi.1, hexp, hok]
    exact hcarry y k (hi.2 hacc') (by simp [Call.carries, hacc']) (hknown y rfl)
  | other n hn hnone => exact callVouches_of_user hnone
  | clear y codeHash failure c' hv hnone => exact callVouches_of_user hnone
  | increment y checked v c' hv hnone => exact callVouches_of_user hnone
  | delete y next => exact callVouches_of_user next.call_user
  | send sender => exact callVouches_of_user sender.done_user
  | _ => trivial

/-- The stored codes after a step of a call. -/
theorem Vouching.stored_next (h : Vouching X c) (hacc : Accounts c)
    (he : (system X).exec i x c.shared (c.calls i) = some (w, l, es))
    (hg : ∀ j, renewsCode X c (.call i x) j) (hnew : drawsNew c (.call i x)) {v : EmailVerification}
    (hv : w.verifications u = some v) :
    ∃ n code, v.hash = X.hash n code ∧
      (Vouched ⟨w, Function.update c.calls i l, c.log ++ es⟩ u code ∨ v.usable w.clock = false ∨
        v.inResendCooldown w.clock = false ∧
          ∃ k, (Function.update c.calls i l k).replaces w.clock u) := by
  have hstep := exec_step he
  have hclock := hstep.clock_eq
  -- a code that a call has drawn and now stores
  have fresh {sender : Sender} {row : UserRow} {code codeHash : String} {now : ℕ}
      (hc : c.calls i = .setVerification sender row code codeHash now) (hrow : row.id = u) :
      (∃ n, codeHash = X.hash n code) ∧
        Vouched ⟨w, Function.update c.calls i l, c.log ++ es⟩ u code := by
    have hi := h.calls i
    have hknown := hacc.known i u
    rw [hc] at hi hknown
    subst hrow
    exact ⟨hi.1, hi.2.next hstep hnew (hknown rfl) fun s _ _ hs => by cases hc.symm.trans hs⟩
  rcases hstep.stored hv with
    ⟨v₀, hv₀, hhash, hsent, hexp, hle⟩ | ⟨sender, row, code, now, -, hc, hrow, -⟩
  · obtain ⟨n, code, hcode, hcase⟩ := h.stored u v₀ hv₀
    have hown := hacc.owned u v₀ hv₀
    obtain ⟨r, hr⟩ := Option.isSome_iff_exists.mp hown
    have husable : v₀.usable c.shared.clock = false → v.usable w.clock = false := by
      intro hno
      simp only [EmailVerification.usable, Bool.and_eq_false_iff, decide_eq_false_iff_not] at *
      rw [hclock, hexp]
      omega
    have hcooldown : v₀.inResendCooldown c.shared.clock = false →
        v.inResendCooldown w.clock = false := by
      intro hno
      unfold EmailVerification.inResendCooldown at *
      rw [hclock, hsent]
      exact hno
    rcases hcase with hvouched | hno | ⟨hcool, k, hk⟩
    · by_cases hup : ∃ s users, x = .ok ∧ c.calls i = .updateCreds s u ∧
        c.shared.users.updateCreds s u = some users
      · -- the row is overwritten: its code is of no use, or this call is going to replace it
        obtain ⟨s, users, rfl, hc, hu⟩ := hup
        refine ⟨n, code, hhash.trans hcode, Or.inr ?_⟩
        rcases (renews_of_update hc hu hg).1 v₀ hv₀ with hno | hcool
        · exact Or.inl (husable hno)
        · refine Or.inr ⟨hcooldown hcool, i, ?_⟩
          rw [hc] at he
          obtain ⟨-, rfl, -⟩ : _ ∧ _ ∧ _ := by simpa [system, statement, hu] using he
          rw [Function.update_self]
          exact ⟨rfl, fun _ _ heq => by cases heq⟩
      · refine ⟨n, code, hhash.trans hcode, Or.inl ?_⟩
        apply hvouched.next hstep hnew (UserTable.find_lt hr)
        exact fun s users hx hc hu => hup ⟨s, users, hx, hc, hu⟩
    · exact ⟨n, code, hhash.trans hcode, Or.inr (Or.inl (husable hno))⟩
    · by_cases hki : k = i
      · subst hki
        rcases replaces_next he hk hv₀ hown hcool with
          rfl | hstill | ⟨row, code', codeHash, now, hc, hrow, hput⟩
        · -- a failure on the way, which the guard allows if the stale code is of no use
          have hfail := hg 0
          simp only [renewsCode, hk.1, Option.all_some, hv₀, Bool.not_eq_true'] at hfail
          exact ⟨n, code, hhash.trans hcode, Or.inr (Or.inl (husable hfail))⟩
        · refine ⟨n, code, hhash.trans hcode, Or.inr (Or.inr ⟨hcooldown hcool, k, ?_⟩)⟩
          rw [Function.update_self]
          exact hstill
        · obtain ⟨⟨m, hm⟩, hfresh⟩ := fresh hc hrow
          exact ⟨m, code', (hput v hv).trans hm, Or.inl hfresh⟩
      · refine ⟨n, code, hhash.trans hcode, Or.inr (Or.inr ⟨hcooldown hcool, k, ?_⟩)⟩
        rw [Function.update_of_ne hki, hclock]
        exact hk
  · obtain ⟨⟨m, hm⟩, hfresh⟩ := fresh hc hrow
    exact ⟨m, code, hm, Or.inl hfresh⟩

theorem Vouching.next {c d : Config} {a : Act Input Env} (h : Vouching X c) (hacc : Accounts c)
    (hverify : ∀ n s t, X.verify (X.hash n s) t = some (decide (s = t)))
    (hg : ∀ j, renewsCode X c a j) (hnew : drawsNew c a) (hn : (system X).next c a = some d) :
    Vouching X d := by
  cases a with
  | env b =>
    obtain ⟨s, hs, rfl⟩ := System.next_env_eq_some.mp hn
    cases b with
    | tick t =>
      obtain rfl := Option.some.inj hs
      have hle : c.shared.clock ≤ c.shared.clock + t := Nat.le_add_right _ t
      have hkeep : ∀ u code, Vouched c u code →
          Vouched { c with shared := { c.shared with clock := c.shared.clock + t } } u code :=
        fun u code hv => ⟨hv.exists_generated, hv.generated, hv.mailed⟩
      refine ⟨fun i => (h.calls i).mono hle (List.Subset.refl _) fun u code _ _ => hkeep u code,
        h.mailed, fun u v hv => ?_⟩
      obtain ⟨n, code, hhash, hcase⟩ := h.stored u v hv
      refine ⟨n, code, hhash, ?_⟩
      rcases hcase with hvouched | hno | ⟨hcool, k, hk⟩
      · exact Or.inl (hkeep u code hvouched)
      · refine Or.inr (Or.inl ?_)
        rw [Bool.eq_false_iff] at *
        exact fun hyes => hno (EmailVerification.usable_of_le hle hyes)
      · exact Or.inr (Or.inr
          ⟨EmailVerification.cooldown_of_le hle hcool, k, Call.replaces_of_le hle hk⟩)
  | call i x =>
    obtain ⟨w, l, es, he, rfl⟩ := System.next_call_eq_some.mp hn
    have hstep := exec_step he
    refine ⟨fun j => ?_, fun j u code held hmem => ?_, fun u v => h.stored_next hacc he hg hnew⟩
    · change CallVouches X _ (Function.update c.calls i l j)
      by_cases hji : j = i
      · subst hji
        rw [Function.update_self]
        exact CallVouches.next h hacc hverify hstep hg hnew
      · rw [Function.update_of_ne hji]
        apply (h.calls j).mono (Nat.le_of_eq hstep.clock_eq.symm) (List.subset_append_left ..)
        intro u code hu hcarries hvouched
        exact hvouched.next_of_carries hcarries hstep (hacc.known j u hu) hg hnew
    · apply Generated.mono (c := c) (List.subset_append_left ..)
      rcases List.mem_append.mp hmem with hold | hnow
      · exact h.mailed j u code held hold
      · obtain ⟨-, sender, row, codeHash, hc, rfl⟩ := hstep.mailed hnow
        have hi := h.calls i
        rw [hc] at hi
        exact hi

end Step

/-- What a verification says of the events before it: the account holds what it held whenever the
submitted code was generated, and whenever it was mailed. -/
def Vouches (before : List Event) : Event → Prop
  | .verified _ u code _ _ held =>
    (∃ j codeHash, .generated j u code codeHash (some held) ∈ before) ∧
    (∀ j codeHash held', .generated j u code codeHash held' ∈ before → held' = some held) ∧
    ∀ j held', .mailed j u code held' ∈ before → held' = some held
  | _ => True

theorem vouches_of_step {c : Config} {i : ℕ} {x : Input} {w : World} {l : Call} {es : List Event}
    (h : Vouching X c) (hstep : Step X i c.shared x (c.calls i) w l es) :
    es = [] ∨ ∃ e, es = [e] ∧ Vouches c.log e := by
  have hi := h.calls i
  generalize c.calls i = l₀ at hstep hi
  cases hstep with
  | setVerified u code checked row hrow =>
    refine Or.inr ⟨_, rfl, ?_⟩
    have hheld : c.shared.held u = some (creds row) := by
      unfold World.held
      rw [hrow, Option.map_some]
    have hall := hi.generated _ hheld
    obtain ⟨j, codeHash, held, hmem⟩ := hi.exists_generated
    have heq := hall j codeHash held hmem
    rw [heq] at hmem
    exact ⟨⟨j, codeHash, hmem⟩, hall, hi.mailed _ hheld⟩
  | generate | setVerification | send | rejected | accepted | increment =>
    exact Or.inr ⟨_, rfl, trivial⟩
  | _ => exact Or.inl rfl

/-- In every run whose repeated sign-ups renew the code in time, an account is verified with the
credentials that it held when the submitted code was generated and mailed. -/
theorem code_vouches (X : Crates)
    (hverify : ∀ n s t, X.verify (X.hash n s) t = some (decide (s = t))) (clock : ℕ)
    (users : UserTable) (as : List (Act Input Env)) (c : Config)
    (hnew : (system X).Meets (fun c a => drawsNew c a) (initial clock users) as)
    (hg : (system X).Meets (fun c a => ∀ j, renewsCode X c a j) (initial clock users) as)
    (h : (system X).run (initial clock users) as = some c) : Always Vouches c.log := by
  have hinv := System.run_induction
    (I := fun x : Config => Accounts x ∧ Vouching X x ∧ Always Vouches x.log) ?_ ?_
    (System.meets_and hnew hg) h
  · exact hinv.2.2
  · rintro x a y ⟨hacc, hv, hlog⟩ ⟨hnew, hg⟩ hn
    refine ⟨hacc.next hn, hv.next hacc hverify hg hnew hn, hlog.next hn ?_⟩
    intro i k w l es _ he
    exact vouches_of_step hv (exec_step he)
  · refine ⟨initial_accounts clock users, ⟨fun i => trivial, ?_, ?_⟩, Always.nil⟩
    · exact fun j u code held hmem => by cases hmem
    · exact fun u v hv => by cases hv

section Plain

theorem plain_verify (n : ℕ) (s t : String) :
    Crates.plain.verify (Crates.plain.hash n s) t = some (decide (s = t)) := by
  have hdrop : (List.replicate n '0' ++ '$' :: s.toList).dropWhile (· = '0') = '$' :: s.toList := by
    rw [List.dropWhile_append_of_pos (by simp), List.dropWhile_cons_of_neg (by decide)]
  simp only [Crates.plain, String.toList_ofList, hdrop, List.drop_one, List.tail_cons,
    String.toList_inj]

/-- A call that has not begun asks for nothing. -/
theorem renewsCode_idle {c : Config} {a : Act Input Env} {j k : ℕ} (hj : c.calls j = .idle)
    (h : renewsCode X c a k) : renewsCode X c a j := by
  unfold renewsCode at *
  split
  · next i =>
    simp only at h
    generalize c.calls i = l at h
    cases l with
    | updateCreds s u =>
      simp only [hj, Call.carries, Bool.or_eq_true, Bool.and_eq_true] at *
      exact h.imp id fun hb => ⟨hb.1, rfl⟩
    | verifyLoad row code => simp [hj, Call.overwrites]
    | _ => rfl
  · exact h
  · rfl

theorem meets_renewsCode {c : Config} {as : List (Act Input Env)} {L : List ℕ} (h0 : 0 ∈ L)
    (hc : ∀ j, j ∉ L → c.calls j = .idle) (has : ∀ a ∈ as, a.Within L)
    (h : (system X).Meets (fun c a => ∀ j ∈ L, renewsCode X c a j) c as) :
    (system X).Meets (fun c a => ∀ j, renewsCode X c a j) c as := by
  apply System.meets_of_within ?_ hc has h
  intro c a hidle hL j
  by_cases hj : j ∈ L
  · exact hL j hj
  · exact renewsCode_idle (hidle j hj) (hL 0 h0)

/-- A sign-up, a second one for the same address `wait` nanoseconds later, as far as it gets, and a
verification. -/
def plainResign (wait : ℕ) (second : List (Act Input Env)) (code : String) :
    List (Act Input Env) :=
  [.call 0 (.signUp "kogasa" "kogasa@example.org" "umbrella"), .call 0 .ok, .call 0 .ok, .call 0 .ok,
    .call 0 .ok, .call 0 .ok, .call 0 (.code "135790"), .call 0 .ok, .call 0 .ok, .call 0 .ok,
    .env (.tick wait), .call 1 (.signUp "nue" "kogasa@example.org" "a better password"),
    .call 1 .ok, .call 1 .ok, .call 1 .ok, .call 1 .ok, .call 1 .ok, .call 1 .ok, .call 1 .ok] ++
  second ++
  [.call 2 (.verifyEmail "kogasa@example.org" code), .call 2 .ok, .call 2 .ok, .call 2 .ok,
    .call 2 .ok, .call 2 .ok]

/-- After the cooldown the second sign-up mails a code of its own. -/
def plainRenewed : List (Act Input Env) :=
  plainResign (seconds 61)
    [.call 1 (.code "246801"), .call 1 .ok, .call 1 .ok, .call 1 .ok] "246801"

theorem plainRenewed_guarded : (system Crates.plain).Meets
    (fun c a => ∀ j, renewsCode Crates.plain c a j) (initial 0 .empty) plainRenewed := by
  have hwithin : ∀ a ∈ plainRenewed, a.Within [0, 1, 2] := by decide
  exact meets_renewsCode (by decide) (fun _ _ => rfl) hwithin (by decide)

theorem plainRenewed_log : ((system Crates.plain).run (initial 0 .empty) plainRenewed).map
    (fun c => c.log.drop 7) = some
      [.verified 2 1 "246801" "000$246801" (some "000$246801") ⟨"nue", "00$a better password"⟩] := by
  decide

theorem code_vouches_plain : ∃ c,
    (system Crates.plain).run (initial 0 .empty) plainRenewed = some c ∧
    .verified 2 1 "246801" "000$246801" (some "000$246801") ⟨"nue", "00$a better password"⟩ ∈ c.log ∧
    Always Vouches c.log := by
  obtain ⟨c, hc, hlog⟩ := Option.map_eq_some_iff.mp plainRenewed_log
  have hmem : .verified 2 1 "246801" "000$246801" (some "000$246801")
      ⟨"nue", "00$a better password"⟩ ∈ c.log := List.mem_of_mem_drop (i := 7) (by simp [hlog])
  exact ⟨c, hc, hmem, code_vouches Crates.plain plain_verify 0 .empty plainRenewed c (by decide)
    plainRenewed_guarded hc⟩

/-- Within the cooldown the second sign-up mails nothing, and the first code verifies its
credentials. -/
def plainUnrenewed : List (Act Input Env) := plainResign (seconds 10) [] "135790"

theorem plainUnrenewed_log :
    ((system Crates.plain).run (initial 0 .empty) plainUnrenewed).map (·.log) = some
      [.generated 0 1 "135790" "0$135790" (some ⟨"kogasa", "$umbrella"⟩), .stored 0 1 "0$135790",
        .mailed 0 1 "135790" (some ⟨"kogasa", "$umbrella"⟩), .evaluated 2 1 "0$135790" true,
        .verified 2 1 "135790" "0$135790" (some "0$135790") ⟨"nue", "00$a better password"⟩] := by
  decide

/-- A code that was mailed to one owner verifies the credentials of another. -/
theorem vouches_for_others : ¬ ∀ as c,
    (system Crates.plain).Meets (fun c a => drawsNew c a) (initial 0 .empty) as →
    (system Crates.plain).run (initial 0 .empty) as = some c → Always Vouches c.log := by
  intro hall
  obtain ⟨c, hc, hlog⟩ := Option.map_eq_some_iff.mp plainUnrenewed_log
  have hlast := hall plainUnrenewed c (by decide) hc (c.log.take 4) _ [] (by rw [hlog]; rfl)
  rw [hlog] at hlast
  have hheld := hlast.2.2 0 (some ⟨"kogasa", "$umbrella"⟩) (by decide)
  exact absurd hheld (by decide)

end Plain

end Thcdb.SignUp
