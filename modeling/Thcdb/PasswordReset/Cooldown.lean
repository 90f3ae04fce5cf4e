import Thcdb.PasswordReset.SingleUse

namespace Thcdb.PasswordReset
open Auth Interleaving

/-- The code `a`, sent at `sentAt`, or one sent after its cooldown; none of the `old` ones. -/
def Later (a : String) (sentAt : ℕ) (old : Secret → Prop) (st : PasswordResetState) : Prop :=
  ∃ h e s n, st = .AwaitingCode h e s n ∧ ¬ old (.code h) ∧
    (s = sentAt ∧ h = a ∨ sentAt + seconds passwordResetCodeResendCooldownSeconds ≤ s)

namespace Ledger

def AwaitsCode (L : Ledger) (u : UserId) : Prop :=
  ∃ h e s n, L.live u = some (.AwaitingCode h e s n)

/-- After call `i` stored code `a` for `u`: only later codes are live or may be rolled back to,
except where the code that would be rolled back is old or is `a` itself, not yet announced. -/
structure Cooled (i : ℕ) (u : UserId) (a : String) (sentAt : ℕ) (old : Secret → Prop)
    (L : Ledger) : Prop where
  live : ∀ st, L.live u = some st → Later a sentAt old st
  displaced : ∀ j written previous, L.hand j = some (.displaced u written previous) →
    (j = i ∧ written = .awaitingCode a sentAt) ∨ old written.secret ∨
    ∀ st, previous = some st → Later a sentAt old st
  old_minted : ∀ x, old x → x ∈ minted L.log
  minted : .code a ∈ PasswordReset.minted L.log
  unqueued : ∀ previous, L.hand i = some (.displaced u (.awaitingCode a sentAt) previous) →
    .queued i u a sentAt ∉ L.log

/-- Call `i` has given up announcing code `a`. -/
structure Silent (i : ℕ) (u : UserId) (a : String) (sentAt : ℕ) (L : Ledger) : Prop where
  minted : .code a ∈ PasswordReset.minted L.log
  hand : ∀ previous, L.hand i ≠ some (.displaced u (.awaitingCode a sentAt) previous)
  log : .queued i u a sentAt ∉ L.log

variable {L L' : Ledger} {i : ℕ} {u : UserId} {a : String} {sentAt : ℕ} {old : Secret → Prop}

theorem minted_mono (hs : Step L L') {x : Secret} (hx : x ∈ PasswordReset.minted L.log) :
    x ∈ PasswordReset.minted L'.log := by
  rcases hs.minted with hm | ⟨-, y, -, -, hm⟩
  · exact hm ▸ hx
  · exact hm ▸ List.mem_append_left _ hx

/-- No step puts a code that was stored before into a hand once more. -/
theorem displaced_of_minted (hs : Step L L') (hm : Minted L)
    (ha : .code a ∈ PasswordReset.minted L.log) {previous : Option PasswordResetState}
    (h : L'.hand i = some (.displaced u (.awaitingCode a sentAt) previous)) :
    L.hand i = some (.displaced u (.awaitingCode a sentAt) previous) := by
  cases hs with
  | quiet | waste | lapse | wrong => exact h
  | issue j v k now hh hl =>
    rcases hand_setHand h with ⟨rfl, hx⟩ | h
    · obtain ⟨-, hst, -⟩ := Hand.displaced.inj (Option.some.inj hx)
      obtain ⟨rfl, -⟩ := PasswordResetState.AwaitingCode.inj hst
      exact absurd ha (hm.fresh i _ hh)
    · exact h
  | drop j | draw j | queue j | rollback j | verify j | consume j | restore j | setPassword j =>
    rcases hand_setHand h with ⟨rfl, hx⟩ | h
    · cases hx
    · exact h

/-- Only the call that stored a code announces it. -/
theorem queued_of_step (hs : Step L L') (h : .queued i u a sentAt ∈ L'.log) :
    .queued i u a sentAt ∈ L.log ∨ ((∃ previous,
      L.hand i = some (.displaced u (.awaitingCode a sentAt) previous)) ∧ L'.hand i = none) := by
  cases hs with
  | queue j v k now previous hh =>
    rw [record_log, List.mem_append, List.mem_singleton] at h
    rcases h with h | h
    · exact Or.inl h
    · obtain ⟨rfl, rfl, rfl, rfl⟩ := Event.queued.inj h
      exact Or.inr ⟨⟨previous, hh⟩, by simp⟩
  | _ => left; simpa using h

theorem Silent.step (hs : Step L L') (hm : Minted L) (h : Silent i u a sentAt L) :
    Silent i u a sentAt L' where
  minted := minted_mono hs h.minted
  hand previous hp := h.hand previous (displaced_of_minted hs hm h.minted hp)
  log hq := by
    rcases queued_of_step hs hq with hq | ⟨⟨previous, hp⟩, -⟩
    · exact h.log hq
    · exact h.hand previous hp

/-- Where the live state of a user comes from. -/
theorem live_of_step (hs : Step L L') {st : PasswordResetState} (h : L'.live u = some st) :
    L.live u = some st ∨
    (∃ j k now, L.hand j = some (.fresh (.code k)) ∧ st = .awaitingCode k now ∧
      ∀ st', L.live u = some st' → MayReplace now st') ∨
    (∃ j written, L.hand j = some (.displaced u written (some st)) ∧ L.live u = some written ∧
      L'.hand j = none ∧ L'.log = L.log) ∨
    (∃ k e s n, L.live u = some (.AwaitingCode k e s n) ∧ st = .AwaitingCode k e s (n + 1)) ∨
    ∃ k e, st = .AwaitingPassword k e := by
  cases hs with
  | quiet | drop | waste | draw | queue | setPassword => exact Or.inl h
  | issue j v k now hh hl =>
    rcases live_setLive h with ⟨rfl, hx⟩ | h
    · exact Or.inr (Or.inl ⟨j, k, now, hh, (Option.some.inj hx).symm, hl⟩)
    · exact Or.inl h
  | rollback j v written previous hh hl =>
    rcases live_setLive h with ⟨rfl, rfl⟩ | h
    · exact Or.inr (Or.inr (Or.inl ⟨j, written, hh, hl, by simp, rfl⟩))
    · exact Or.inl h
  | wrong j v k e s n hl hn =>
    rcases live_setLive h with ⟨rfl, hx⟩ | h
    · exact Or.inr (Or.inr (Or.inr (Or.inl ⟨k, e, s, n, hl, (Option.some.inj hx).symm⟩)))
    · exact Or.inl h
  | verify j v k e s n key exp hh hl hn he =>
    rcases live_setLive h with ⟨rfl, hx⟩ | h
    · exact Or.inr (Or.inr (Or.inr (Or.inr ⟨key, exp, (Option.some.inj hx).symm⟩)))
    · exact Or.inl h
  | consume j v k exp now hh hl =>
    rcases live_setLive h with ⟨-, hx⟩ | h
    · cases hx
    · exact Or.inl h
  | restore j v k exp hh hl =>
    rcases live_setLive h with ⟨rfl, hx⟩ | h
    · exact Or.inr (Or.inr (Or.inr (Or.inr ⟨k, exp, (Option.some.inj hx).symm⟩)))
    · exact Or.inl h
  | lapse hl =>
    rcases hl u with hu | hu
    · exact Or.inl (hu ▸ h)
    · cases hu.symm.trans h

/-- What a call has displaced it had displaced before, or it is what was live. -/
theorem displaced_of_step (hs : Step L L') {j : ℕ} {written : PasswordResetState}
    {previous : Option PasswordResetState}
    (h : L'.hand j = some (.displaced u written previous)) :
    L.hand j = some (.displaced u written previous) ∨ previous = L.live u := by
  cases hs with
  | quiet | waste | lapse | wrong => exact Or.inl h
  | issue k v code now hh hl =>
    rcases hand_setHand h with ⟨rfl, hx⟩ | h
    · obtain ⟨rfl, -, rfl⟩ := Hand.displaced.inj (Option.some.inj hx)
      exact Or.inr rfl
    · exact Or.inl h
  | drop k | draw k | queue k | rollback k | verify k | consume k | restore k | setPassword k =>
    rcases hand_setHand h with ⟨rfl, hx⟩ | h
    · cases hx
    · exact Or.inl h

/-- A step that keeps the user's state awaiting a code keeps it cooled, unless call `i` rolls its
own code back. -/
theorem Cooled.step (hs : Step L L') (hm : Minted L) (h : Cooled i u a sentAt old L)
    (hu : L.AwaitsCode u) (hu' : L'.AwaitsCode u) :
    Cooled i u a sentAt old L' ∨ Silent i u a sentAt L' := by
  -- what a call has displaced, and what it has sent, stays as it should whatever is live
  have cooled (hlive : ∀ st, L'.live u = some st → Later a sentAt old st) :
      Cooled i u a sentAt old L' := by
    refine ⟨hlive, ?_, fun x hx => minted_mono hs (h.old_minted x hx), minted_mono hs h.minted, ?_⟩
    · intro j written previous hj
      rcases displaced_of_step hs hj with hj | rfl
      · exact h.displaced j written previous hj
      · exact Or.inr (Or.inr h.live)
    · intro previous hi hq
      have hi' := displaced_of_minted hs hm h.minted hi
      rcases queued_of_step hs hq with hq | ⟨-, hnone⟩
      · exact h.unqueued previous hi' hq
      · rw [hnone] at hi
        cases hi
  obtain ⟨k, e, s, n, hst⟩ := hu'
  rcases live_of_step hs hst with hold | ⟨j, k', now, hj, heq, hmay⟩ |
    ⟨j, written, hj, hl, hnone, hlog⟩ | ⟨k', e', s', n', hl, heq⟩ | ⟨k', e', heq⟩
  · refine Or.inl (cooled fun st hst' => h.live st ?_)
    rw [hold, ← hst, hst']
  · -- a new code replaces a live one whose cooldown is over
    refine Or.inl (cooled fun st hst' => ?_)
    obtain rfl := Option.some.inj (hst.symm.trans hst')
    obtain ⟨k₀, e₀, s₀, n₀, h₀⟩ := hu
    have hs₀ : s₀ + seconds passwordResetCodeResendCooldownSeconds ≤ now := hmay _ h₀
    obtain ⟨_, _, s₁, _, heq₁, -, hs₁⟩ := h.live _ h₀
    obtain ⟨-, -, rfl, -⟩ := PasswordResetState.AwaitingCode.inj heq₁
    obtain ⟨rfl, -, rfl, -⟩ := PasswordResetState.AwaitingCode.inj heq
    refine ⟨_, _, _, _, rfl, fun hk => hm.fresh j _ hj (h.old_minted _ hk), Or.inr ?_⟩
    omega
  · rcases h.displaced j written _ hj with ⟨rfl, rfl⟩ | hwritten | hprevious
    · -- call `i` takes its own code back, and will not announce it
      refine Or.inr ⟨minted_mono hs h.minted, ?_, ?_⟩
      · intro previous hi
        rw [hnone] at hi
        cases hi
      · rw [hlog]
        exact h.unqueued _ hj
    · obtain ⟨k₁, e₁, s₁, n₁, rfl, hold, -⟩ := h.live _ hl
      exact absurd hwritten hold
    · refine Or.inl (cooled fun st hst' => ?_)
      obtain rfl := Option.some.inj (hst.symm.trans hst')
      exact hprevious _ rfl
  · refine Or.inl (cooled fun st hst' => ?_)
    obtain rfl := Option.some.inj (hst.symm.trans hst')
    obtain ⟨k₁, e₁, s₁, n₁, heq₁, hold, hs₁⟩ := h.live _ hl
    obtain ⟨rfl, rfl, rfl, rfl⟩ := PasswordResetState.AwaitingCode.inj heq₁
    exact ⟨_, _, _, _, heq, hold, hs₁⟩
  · cases heq

/-- The step that stores a code is an `issue`. -/
theorem issue_of_log (hs : Step L L') (h : L'.log = L.log ++ [.issued i u a sentAt]) :
    L.hand i = some (.fresh (.code a)) ∧ (∀ st, L.live u = some st → MayReplace sentAt st) ∧
    L'.live u = some (.awaitingCode a sentAt) ∧ ∀ j, j ≠ i → L'.hand j = L.hand j := by
  cases hs with
  | issue j v k now hh hl =>
    obtain ⟨rfl, rfl, rfl, rfl⟩ := Event.issued.inj (List.singleton_inj.mp (List.append_cancel_left h))
    refine ⟨hh, hl, by simp, fun j hj => ?_⟩
    simp [hj]
  | _ => simp at h

theorem Cooled.start (hs : Step L L') (hinv : Inv L)
    (h : L'.log = L.log ++ [.issued i u a sentAt]) :
    Cooled i u a sentAt (· ∈ PasswordReset.minted L.log) L' := by
  obtain ⟨hfresh, -, hlive, hhands⟩ := issue_of_log hs h
  have hnew := hinv.minted.fresh i _ hfresh
  have hmem : .code a ∈ PasswordReset.minted L'.log := by
    rw [h]
    simp [Event.mints]
  refine ⟨?_, ?_, fun x hx => minted_mono hs hx, hmem, ?_⟩
  · intro st hst
    obtain rfl := Option.some.inj (hlive.symm.trans hst)
    exact ⟨a, _, sentAt, 0, rfl, hnew, Or.inl ⟨rfl, rfl⟩⟩
  · intro j written previous hj
    -- whatever other calls have displaced was displaced by an older code
    by_cases hji : j = i
    · subst hji
      obtain ⟨k, now, rfl, hmint⟩ := (hinv.step hs).sound.displaced j u written previous hj
      rw [h, List.mem_append, List.mem_singleton] at hmint
      rcases hmint with hmint | hmint
      · exact Or.inr (Or.inl (List.mem_filterMap.mpr ⟨_, hmint, rfl⟩))
      · obtain ⟨-, -, rfl, rfl⟩ := Event.issued.inj hmint
        exact Or.inl ⟨rfl, rfl⟩
    · obtain ⟨k, now, rfl, hmint⟩ := hinv.sound.displaced j u written previous (hhands j hji ▸ hj)
      exact Or.inr (Or.inl (List.mem_filterMap.mpr ⟨_, hmint, rfl⟩))
  · intro previous hi hq
    rw [h, List.mem_append, List.mem_singleton] at hq
    rcases hq with hq | hq
    · obtain ⟨pre, post, hlog⟩ := List.append_of_mem hq
      have hissued : .issued i u a sentAt ∈ pre := hinv.sound.log pre _ post hlog
      refine hnew (List.mem_filterMap.mpr ⟨.issued i u a sentAt, ?_, rfl⟩)
      rw [hlog]
      exact List.mem_append_left _ hissued
    · cases hq

end Ledger

variable {P : Type} [DecidableEq P] {X : Platform P} {i j : ℕ} {u : UserId} {a b : String}
  {sentAt sentAt' : ℕ}

def AwaitsCode (X : Platform P) (u : UserId) (c : Config P) : Prop :=
  ∃ codeHash e s n, c.shared.store.live X.toPayloadCodec u = some (.AwaitingCode codeHash e s n)

theorem cooled_of_run {c d : Config P} {bs : List (Act Input Env)} {old : Secret → Prop}
    (hc : Wf X c) (hinv : (Ledger.of X c).Inv) (hrun : (system X).run c bs = some d)
    (hall : ∀ bs₁ bs₂ x, bs = bs₁ ++ bs₂ → (system X).run c bs₁ = some x → AwaitsCode X u x)
    (h : (Ledger.of X c).Cooled i u a sentAt old ∨ (Ledger.of X c).Silent i u a sentAt) :
    (Ledger.of X d).Cooled i u a sentAt old ∨ (Ledger.of X d).Silent i u a sentAt := by
  induction bs generalizing c with
  | nil =>
    obtain rfl : c = d := by simpa using hrun
    exact h
  | cons x bs ih =>
    obtain ⟨y, hn, hrest⟩ := System.run_cons_eq_some.mp hrun
    obtain ⟨hy, hstep⟩ := hc.next hn
    have hall' : ∀ bs₁ bs₂ z, bs = bs₁ ++ bs₂ → (system X).run y bs₁ = some z →
        AwaitsCode X u z := by
      intro bs₁ bs₂ z hbs hz
      exact hall (x :: bs₁) bs₂ z (by simp [hbs]) (System.run_cons_eq_some.mpr ⟨y, hn, hz⟩)
    refine ih hy (hinv.step hstep) hrest hall' ?_
    rcases h with h | h
    · exact h.step hstep hinv.minted (hall [] _ c rfl rfl) (hall' [] _ y rfl rfl)
    · exact Or.inr (h.step hstep hinv.minted)

theorem silent_of_run {c d : Config P} {bs : List (Act Input Env)}
    (hc : Wf X c) (hinv : (Ledger.of X c).Inv) (hrun : (system X).run c bs = some d)
    (h : (Ledger.of X c).Silent i u a sentAt) : (Ledger.of X d).Silent i u a sentAt := by
  refine (System.Reachable.induction
    (I := fun x => Wf X x ∧ (Ledger.of X x).Inv ∧ (Ledger.of X x).Silent i u a sentAt)
    ?_ ⟨hc, hinv, h⟩ ⟨bs, hrun⟩).2.2
  rintro x act y ⟨hx, hi, hs⟩ hn
  obtain ⟨hy, hstep⟩ := hx.next hn
  exact ⟨hy, hi.step hstep, hs.step hstep hi.minted⟩

/-- The step that logs a code for the first time logs nothing else. -/
theorem log_of_issued {x y : Config P} {act : Act Input Env} {e : Event} (hx : Wf X x)
    (hinv : (Ledger.of X x).Inv) (hn : (system X).next x act = some y) (he : e ∉ x.log)
    (he' : e ∈ y.log) : y.log = x.log ++ [e] := by
  have hstep := (hx.next hn).2
  rcases hstep.sound hinv.minted hinv.counts hinv.sound with heq | ⟨e', heq, -⟩
  · have hlog : y.log = x.log := heq
    exact absurd (hlog ▸ he') he
  · have hlog : y.log = x.log ++ [e'] := heq
    rw [hlog, List.mem_append, List.mem_singleton] at he'
    rcases he' with he' | rfl
    · exact absurd he' he
    · exact hlog

/-- At some moment of the run between the two mails' codes being stored, the user's state awaits
no code. -/
def Broken (X : Platform P) (u : UserId) (c : Config P) (as : List (Act Input Env))
    (first second : Event) : Prop :=
  ∃ as₁ as₂ x, as = as₁ ++ as₂ ∧ (system X).run c as₁ = some x ∧ first ∈ x.log ∧
    second ∉ x.log ∧ ¬ AwaitsCode X u x

theorem sentAt_of_order {c x y d : Config P} {as₁ as₂ : List (Act Input Env)}
    {act : Act Input Env} {t : ℕ} {users : List UserRow} (hc : c = initial t users)
    (hx : (system X).run c as₁ = some x) (hn : (system X).next x act = some y)
    (hd : (system X).run y as₂ = some d) (ha : .issued i u a sentAt ∉ x.log)
    (ha' : .issued i u a sentAt ∈ y.log) (hb : .issued j u b sentAt' ∉ y.log)
    (hb' : .issued j u b sentAt' ∈ d.log) (hq : .queued i u a sentAt ∈ d.log) :
    sentAt + seconds passwordResetCodeResendCooldownSeconds ≤ sentAt' ∨
    Broken X u c (as₁ ++ act :: as₂) (.issued i u a sentAt) (.issued j u b sentAt') := by
  subst hc
  have hreach : (system X).Reachable (initial t users) x := ⟨_, hx⟩
  have hwfx := (refines hreach).1
  have hinvx := (refines hreach).2.inv
  have hwfy := (refines (hreach.next hn)).1
  have hinvy := (refines (hreach.next hn)).2.inv
  -- from the first code on the state is cooled
  have hstart := Ledger.Cooled.start (hwfx.next hn).2 hinvx (log_of_issued hwfx hinvx hn ha ha')
  obtain ⟨bs, act', cs, e, f, rfl, he, hf, hd', hbe, hbf⟩ := System.exists_step_of_log hd hb hb'
  by_cases hall : ∀ bs₁ bs₂ z, bs = bs₁ ++ bs₂ → (system X).run y bs₁ = some z → AwaitsCode X u z
  · left
    have hreach' := (hreach.next hn).trans ⟨_, he⟩
    have hwfe := (refines hreach').1
    have hinve := (refines hreach').2.inv
    obtain ⟨-, hmay, -⟩ := Ledger.issue_of_log (hwfe.next hf).2
      (log_of_issued hwfe hinve hf hbe hbf)
    rcases cooled_of_run hwfy hinvy he hall (Or.inl hstart) with hcool | hsilent
    · obtain ⟨k, ex, s, n, hlive⟩ := hall bs [] e (by simp) he
      obtain ⟨_, _, s', _, heq, -, hs⟩ := hcool.live _ hlive
      obtain ⟨-, -, rfl, -⟩ := PasswordResetState.AwaitingCode.inj heq
      have hle : s + seconds passwordResetCodeResendCooldownSeconds ≤ sentAt' := hmay _ hlive
      omega
    · -- a code that was rolled back is never announced
      have hend := silent_of_run hwfe hinve
        (System.run_cons_eq_some.mpr ⟨f, hf, hd'⟩) hsilent
      exact absurd hq hend.log
  · right
    push Not at hall
    obtain ⟨bs₁, bs₂, z, rfl, hz, hnot⟩ := hall
    obtain ⟨z', hz', hrest⟩ := System.run_append_eq_some.mp he
    obtain rfl := Option.some.inj (hz.symm.trans hz')
    refine ⟨as₁ ++ act :: bs₁, bs₂ ++ act' :: cs, z, by simp, ?_, ?_, ?_, hnot⟩
    · exact System.run_append_eq_some.mpr ⟨x, hx, System.run_cons_eq_some.mpr ⟨y, hn, hz⟩⟩
    · exact (System.run_log_le hz).subset ha'
    · exact fun hmem => hbe ((System.run_log_le hrest).subset hmem)

omit [DecidableEq P] in
theorem issued_of_queued {c : Config P} (hinv : (Ledger.of X c).Inv)
    (h : .queued i u a sentAt ∈ c.log) : .issued i u a sentAt ∈ c.log := by
  obtain ⟨pre, post, hlog⟩ := List.append_of_mem h
  have hissued : .issued i u a sentAt ∈ pre := hinv.sound.log pre _ post hlog
  rw [hlog]
  exact List.mem_append_left _ hissued

/-- Two reset mails of a user are sent a cooldown apart, unless between the storing of their codes
there was a moment when the user's state awaited no code. -/
theorem mail_cooldown (X : Platform P) (t : ℕ) (users : List UserRow)
    (as : List (Act Input Env)) (d : Config P) (h : (system X).run (initial t users) as = some d)
    (i j : ℕ) (u : UserId) (a b : String) (sentAt sentAt' : ℕ) (hij : i ≠ j)
    (ha : .queued i u a sentAt ∈ d.log) (hb : .queued j u b sentAt' ∈ d.log) :
    sentAt + seconds passwordResetCodeResendCooldownSeconds ≤ sentAt' ∨
    sentAt' + seconds passwordResetCodeResendCooldownSeconds ≤ sentAt ∨
    Broken X u (initial t users) as (.issued i u a sentAt) (.issued j u b sentAt') ∨
    Broken X u (initial t users) as (.issued j u b sentAt') (.issued i u a sentAt) := by
  have hinv := (refines ⟨as, h⟩).2.inv
  have ha' := issued_of_queued hinv ha
  have hb' := issued_of_queued hinv hb
  obtain ⟨as₁, act, as₂, x, y, rfl, hx, hn, hd, hax, hay⟩ :=
    System.exists_step_of_log h (by simp [initial]) ha'
  by_cases hby : .issued j u b sentAt' ∈ y.log
  · have hbx : .issued j u b sentAt' ∈ x.log := by
      have hreach : (system X).Reachable (initial t users) x := ⟨_, hx⟩
      rw [log_of_issued (refines hreach).1 (refines hreach).2.inv hn hax hay,
        List.mem_append, List.mem_singleton] at hby
      rcases hby with hby | hby
      · exact hby
      · exact absurd (Event.issued.inj hby).1.symm hij
    -- the other code was stored first
    obtain ⟨bs₁, act', bs₂, z, w, rfl, hz, hw, hrest, hbz, hbw⟩ :=
      System.exists_step_of_log hx (by simp [initial]) hbx
    have haw : .issued i u a sentAt ∉ w.log :=
      fun hmem => hax ((System.run_log_le hrest).subset hmem)
    have hrun : (system X).run w (bs₂ ++ act :: as₂) = some d :=
      System.run_append_eq_some.mpr ⟨x, hrest, System.run_cons_eq_some.mpr ⟨y, hn, hd⟩⟩
    rcases sentAt_of_order rfl hz hw hrun hbz hbw haw ha' hb with hle | hbroken
    · exact Or.inr (Or.inl hle)
    · refine Or.inr (Or.inr (Or.inr ?_))
      simpa using hbroken
  · rcases sentAt_of_order rfl hx hn hd hax hay hby hb' ha with hle | hbroken
    · exact Or.inl hle
    · exact Or.inr (Or.inr (Or.inl hbroken))

/-- Two mails, the second asked for when the cooldown of the first is just over. -/
def plainMails : List (Act Input Env) :=
  [.call 0 (.forgotPassword "kogasa@example.org" "135790"), .call 0 .ok, .call 0 .ok, .call 0 .ok,
    .call 0 .ok, .call 0 .ok, .call 0 .ok, .env (.tick (seconds 60)),
    .call 1 (.forgotPassword "kogasa@example.org" "246800"), .call 1 .ok, .call 1 .ok, .call 1 .ok,
    .call 1 .ok, .call 1 .ok, .call 1 .ok]

theorem plainMails_log : ((system Platform.plain).run (initial 0 [plainUser]) plainMails).map (·.log) =
    some [.issued 0 7 "$135790" 0, .queued 0 7 "$135790" 0,
      .issued 1 7 "0$246800" (seconds 60), .queued 1 7 "0$246800" (seconds 60)] := by
  decide

theorem mail_cooldown_plain : ∃ d,
    (system Platform.plain).run (initial 0 [plainUser]) plainMails = some d ∧
    (0 + seconds passwordResetCodeResendCooldownSeconds ≤ seconds 60 ∨
      seconds 60 + seconds passwordResetCodeResendCooldownSeconds ≤ 0 ∨
      Broken Platform.plain 7 (initial 0 [plainUser]) plainMails (.issued 0 7 "$135790" 0)
        (.issued 1 7 "0$246800" (seconds 60)) ∨
      Broken Platform.plain 7 (initial 0 [plainUser]) plainMails
        (.issued 1 7 "0$246800" (seconds 60)) (.issued 0 7 "$135790" 0)) := by
  obtain ⟨d, hd, hlog⟩ := Option.map_eq_some_iff.mp plainMails_log
  exact ⟨d, hd, mail_cooldown Platform.plain 0 [plainUser] plainMails d hd 0 1 7 "$135790"
    "0$246800" 0 (seconds 60) (by decide) (by simp [hlog]) (by simp [hlog])⟩

def keepsCode (X : Platform P) (u : UserId) (a : String) (c : Config P) (act : Act Input Env) :
    Bool :=
  match (system X).next c act with
  | none => true
  | some d =>
    match c.shared.store.live X.toPayloadCodec u with
    | some (.AwaitingCode h _ _ _) => h ≠ a || (d.shared.store.live X.toPayloadCodec u).isSome
    | _ => true

/-- A first call reads the clock and stalls; meanwhile code `a` is mailed, replaced after its
cooldown, and the replacing code is used up, so that the stalled call finds the store as it was. -/
def plainStalled : List (Act Input Env) :=
  [.call 0 (.forgotPassword "kogasa@example.org" "135790"), .call 0 .ok, .call 0 .ok, .call 0 .ok,
    .env (.tick (seconds 1)),
    .call 1 (.forgotPassword "kogasa@example.org" "246800"), .call 1 .ok, .call 1 .ok, .call 1 .ok,
    .call 1 .ok, .call 1 .ok, .call 1 .ok, .env (.tick (seconds 60)),
    .call 2 (.forgotPassword "kogasa@example.org" "864200"), .call 2 .ok, .call 2 .ok, .call 2 .ok,
    .call 2 .ok, .call 2 .ok, .call 2 .ok,
    .call 3 (.verifyResetCode "kogasa@example.org" "864200"), .call 3 .ok, .call 3 .ok, .call 3 .ok,
    .call 3 .ok, .call 3 .ok, .call 3 .ok,
    .call 4 (.resetPassword "" "new password"), .call 4 .ok, .call 4 .ok, .call 4 .ok,
    .call 0 .ok, .call 0 .ok, .call 0 .ok]

theorem plainStalled_log :
    ((system Platform.plain).run (initial 0 [plainUser]) plainStalled).map (·.log) =
      some [.issued 1 7 "0$246800" (seconds 1), .queued 1 7 "0$246800" (seconds 1),
        .issued 2 7 "00$864200" (seconds 61), .queued 2 7 "00$864200" (seconds 61),
        .keyIssued 3 7 "00$864200" "" (seconds 361), .consumed 4 7 "" (seconds 361) (seconds 61),
        .passwordSet 4 7 "", .issued 0 7 "$135790" 0, .queued 0 7 "$135790" 0] := by
  decide

theorem plainStalled_keeps : ∀ a ∈ ["0$246800", "$135790"], (system Platform.plain).Meets
    (fun c act => keepsCode Platform.plain 7 a c act) (initial 0 [plainUser]) plainStalled := by
  decide

/-- Two mails one second apart, though neither code was verified and the state of neither expired or
was removed. -/
theorem mails_within_cooldown : ¬ ∀ as d,
    (system Platform.plain).run (initial 0 [plainUser]) as = some d →
    ∀ (i j : ℕ) (u : UserId) (a b : String) (sentAt sentAt' : ℕ), i ≠ j →
    .queued i u a sentAt ∈ d.log → .queued j u b sentAt' ∈ d.log →
    sentAt + seconds passwordResetCodeResendCooldownSeconds ≤ sentAt' ∨
    sentAt' + seconds passwordResetCodeResendCooldownSeconds ≤ sentAt ∨
    ∃ h ∈ [a, b], (∃ k resetKeyHash exp, .keyIssued k u h resetKeyHash exp ∈ d.log) ∨
      ¬ (system Platform.plain).Meets (fun c act => keepsCode Platform.plain u h c act)
        (initial 0 [plainUser]) as := by
  intro hall
  obtain ⟨d, hd, hlog⟩ := Option.map_eq_some_iff.mp plainStalled_log
  have h := hall _ d hd 1 0 7 "0$246800" "$135790" (seconds 1) 0 (by decide) (by simp [hlog])
    (by simp [hlog])
  rcases h with h | h | ⟨code, hcode, ⟨k, key, exp, hmem⟩ | hnot⟩
  · exact absurd h (by decide)
  · exact absurd h (by decide)
  · rw [hlog] at hmem
    simp at hcode hmem
    obtain ⟨-, rfl, -⟩ := hmem
    simp at hcode
  · exact hnot (plainStalled_keeps code hcode)

end Thcdb.PasswordReset
