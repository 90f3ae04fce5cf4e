import Mathlib.Data.List.Nodup
import Mathlib.Data.List.Pairwise
import Thcdb.Interleaving.Trace
import Thcdb.PasswordReset.Ledger

namespace Thcdb.PasswordReset
open Auth Interleaving

/-- The secret an event stores for the first time, and for whom. -/
def Event.mints : Event → Option (UserId × Secret)
  | .issued _ userId codeHash _ => some (userId, .code codeHash)
  | .keyIssued _ userId _ resetKeyHash _ => some (userId, .key resetKeyHash)
  | _ => none

def Event.spends : Event → Option Secret
  | .keyIssued _ _ codeHash _ _ => some (.code codeHash)
  | .passwordSet _ _ resetKeyHash => some (.key resetKeyHash)
  | _ => none

def Event.records (codeHash : String) : Event → Bool
  | .recorded _ _ h => h = codeHash
  | _ => false

def recordedCount (codeHash : String) (log : List Event) : ℕ := log.countP (·.records codeHash)

def minted (log : List Event) : List Secret := log.filterMap fun e => e.mints.map (·.2)

def spent (log : List Event) : List Secret := log.filterMap (·.spends)

namespace Ledger

variable {L L' : Ledger} {u v : UserId} {i : ℕ} {st : PasswordResetState}

def Puts (L : Ledger) (u : UserId) (st : PasswordResetState) : Prop :=
  ∃ i h, L.hand i = some h ∧ h.puts = some (u, st)

/-- `st` is the live state of `u`, or some call may put it back. -/
def Holds (L : Ledger) (u : UserId) (st : PasswordResetState) : Prop :=
  L.live u = some st ∨ L.Puts u st

theorem puts_secret {h : Hand} (hp : h.puts = some (u, st)) : h.secret = some st.secret := by
  cases h with
  | fresh x => cases hp
  | displaced w written previous =>
    simp only [Hand.puts, Option.map_eq_some_iff, Prod.mk.injEq] at hp
    obtain ⟨s, rfl, -, rfl⟩ := hp
    rfl
  | consumed w k e =>
    simp only [Hand.puts, Option.some.injEq, Prod.mk.injEq] at hp
    rw [← hp.2]
    rfl

theorem puts_setHand {h : Option Hand} (hp : (L.setHand i h).Puts u st) :
    (∃ x, h = some x ∧ x.puts = some (u, st)) ∨ L.Puts u st := by
  obtain ⟨j, x, hj, hx⟩ := hp
  rcases hand_setHand hj with ⟨-, hput⟩ | hold
  · exact Or.inl ⟨x, hput, hx⟩
  · exact Or.inr ⟨j, x, hold, hx⟩

theorem holds_setLive {s : Option PasswordResetState} (h : (L.setLive v s).Holds u st) :
    (u = v ∧ s = some st) ∨ L.Holds u st := by
  rcases h with h | h
  · exact (live_setLive h).imp id Or.inl
  · exact Or.inr (Or.inr h)

/-- Every secret is in one place, and was drawn before it got there. -/
structure Tokens (L : Ledger) : Prop where
  linear : Linear L.tokens
  drawn : ∀ p x, L.tokens p = some x → L.drawn x

theorem Tokens.start (h : Start L) : Tokens L := by
  have ht : L.tokens = fun _ => none := by
    funext p
    rcases p with u | i
    · simp [h.live]
    · simp [h.hand]
  constructor
  · rw [ht]
    exact Linear.empty
  · intro p x hp
    rw [ht] at hp
    cases hp

theorem inl_ne_inr : (Sum.inl u : UserId ⊕ ℕ) ≠ .inr i := Sum.inl_ne_inr

theorem Tokens.step_linear (hs : Step L L') (h : Tokens L) : Linear L'.tokens := by
  cases hs with
  | quiet => exact h.linear
  | drop i =>
    rw [setHand_tokens]
    exact h.linear.clear _
  | waste hd => exact h.linear
  | draw i x hh hx hd hx' =>
    rw [setHand_tokens]
    exact h.linear.update _ fun p hp => hx (h.drawn p x hp)
  | issue i u k now hh hc =>
    -- the code goes live, and what was live goes into the hand
    rw [record_tokens, setHand_tokens, setLive_tokens]
    exact h.linear.exchange inl_ne_inr (fun t ht => by simpa [hh, Hand.secret] using ht)
      (fun t ht => by simpa [Hand.secret] using ht)
  | queue i u k now previous hh =>
    rw [record_tokens, setHand_tokens]
    exact h.linear.clear _
  | rollback i u written previous hh hl =>
    rw [setHand_tokens, setLive_tokens]
    exact h.linear.exchange inl_ne_inr (fun t ht => by simpa [hh, Hand.secret] using ht)
      (fun t ht => by simp at ht)
  | wrong i u k e s n hl hn =>
    rw [record_tokens, setLive_tokens, Function.update_eq_self_iff.mpr]
    · exact h.linear
    · simp [hl, PasswordResetState.secret]
  | verify i u k e s n key exp hh hl hn he =>
    -- the key goes live, and the code is gone
    rw [record_tokens, setHand_tokens, setLive_tokens]
    exact h.linear.exchange inl_ne_inr
      (fun t ht => by simpa [hh, Hand.secret, PasswordResetState.secret] using ht)
      (fun t ht => by simp at ht)
  | consume i u k exp now hh hl =>
    rw [record_tokens, setHand_tokens, setLive_tokens]
    exact h.linear.exchange inl_ne_inr (fun t ht => by simp at ht)
      (fun t ht => by simpa [hl, Hand.secret, PasswordResetState.secret] using ht)
  | restore i u k exp hh hl =>
    rw [setHand_tokens, setLive_tokens]
    exact h.linear.exchange inl_ne_inr
      (fun t ht => by simpa [hh, Hand.secret, PasswordResetState.secret] using ht)
      (fun t ht => by simp at ht)
  | setPassword i u k exp hh =>
    rw [record_tokens, setHand_tokens]
    exact h.linear.clear _
  | lapse hl =>
    apply h.linear.of_le
    intro p x hp
    rcases p with w | j
    · rcases hl w with hw | hw
      · simpa [hw] using hp
      · simp [hw] at hp
    · exact hp

theorem token_setLive {s : Option PasswordResetState} {p : UserId ⊕ ℕ} {x : Secret}
    (h : (L.setLive u s).tokens p = some x) : s.map (·.secret) = some x ∨ L.tokens p = some x := by
  rw [setLive_tokens] at h
  by_cases hp : p = .inl u
  · subst hp
    rw [Function.update_self] at h
    exact Or.inl h
  · rw [Function.update_of_ne hp] at h
    exact Or.inr h

theorem token_setHand {s : Option Hand} {p : UserId ⊕ ℕ} {x : Secret}
    (h : (L.setHand i s).tokens p = some x) : s.bind (·.secret) = some x ∨ L.tokens p = some x := by
  rw [setHand_tokens] at h
  by_cases hp : p = .inr i
  · subst hp
    rw [Function.update_self] at h
    exact Or.inl h
  · rw [Function.update_of_ne hp] at h
    exact Or.inr h

theorem token_move {s : Option PasswordResetState} {a : Option Hand} {p : UserId ⊕ ℕ} {x : Secret}
    (h : ((L.setLive u s).setHand i a).tokens p = some x) :
    s.map (·.secret) = some x ∨ a.bind (·.secret) = some x ∨ L.tokens p = some x := by
  rcases token_setHand h with h | h
  · exact Or.inr (Or.inl h)
  · rcases token_setLive h with h | h
    · exact Or.inl h
    · exact Or.inr (Or.inr h)

/-- A step finds its secrets where they were, or draws one that was never drawn. -/
theorem Step.token (hs : Step L L') {p : UserId ⊕ ℕ} {x : Secret} (h : L'.tokens p = some x) :
    (∃ q, L.tokens q = some x) ∨ (¬ L.drawn x ∧ L'.drawn x) := by
  have live {w : UserId} {s : PasswordResetState} (hl : L.live w = some s)
      (hx : s.secret = x) : ∃ q, L.tokens q = some x := ⟨.inl w, by simp [hl, hx]⟩
  have hand {j : ℕ} {a : Hand} (hj : L.hand j = some a) (hx : a.secret = some x) :
      ∃ q, L.tokens q = some x := ⟨.inr j, by simp [hj, hx]⟩
  cases hs with
  | quiet | waste => exact Or.inl ⟨p, h⟩
  | drop i =>
    rcases token_setHand h with h | h
    · simp at h
    · exact Or.inl ⟨p, h⟩
  | draw i y hh hy hd hy' =>
    rcases token_setHand h with h | h
    · obtain rfl : y = x := by simpa [Hand.secret] using h
      exact Or.inr ⟨hy, hy'⟩
    · exact Or.inl ⟨p, h⟩
  | issue i u k now hh hc =>
    rw [record_tokens] at h
    rcases token_move h with h | h | h
    · exact Or.inl (hand hh (by simpa [Hand.secret] using h))
    · exact Or.inl ⟨.inl u, by simpa [Hand.secret] using h⟩
    · exact Or.inl ⟨p, h⟩
  | queue i u k now previous hh =>
    rw [record_tokens] at h
    rcases token_setHand h with h | h
    · simp at h
    · exact Or.inl ⟨p, h⟩
  | rollback i u written previous hh hl =>
    rcases token_move h with h | h | h
    · exact Or.inl (hand hh (by simpa [Hand.secret] using h))
    · simp at h
    · exact Or.inl ⟨p, h⟩
  | wrong i u k e s n hl hn =>
    rw [record_tokens] at h
    rcases token_setLive h with h | h
    · exact Or.inl (live hl (by simpa [PasswordResetState.secret] using h))
    · exact Or.inl ⟨p, h⟩
  | verify i u k e s n key exp hh hl hn he =>
    rw [record_tokens] at h
    rcases token_move h with h | h | h
    · exact Or.inl (hand hh (by simpa [Hand.secret, PasswordResetState.secret] using h))
    · simp at h
    · exact Or.inl ⟨p, h⟩
  | consume i u k exp now hh hl =>
    rw [record_tokens] at h
    rcases token_move h with h | h | h
    · simp at h
    · exact Or.inl (live hl (by simpa [Hand.secret, PasswordResetState.secret] using h))
    · exact Or.inl ⟨p, h⟩
  | restore i u k exp hh hl =>
    rcases token_move h with h | h | h
    · exact Or.inl (hand hh (by simpa [Hand.secret, PasswordResetState.secret] using h))
    · simp at h
    · exact Or.inl ⟨p, h⟩
  | setPassword i u k exp hh =>
    rw [record_tokens] at h
    rcases token_setHand h with h | h
    · simp at h
    · exact Or.inl ⟨p, h⟩
  | lapse hl =>
    rcases p with w | j
    · rcases hl w with hw | hw
      · exact Or.inl ⟨.inl w, by simpa [hw] using h⟩
      · simp [hw] at h
    · exact Or.inl ⟨.inr j, h⟩

theorem Step.drawn_mono (hs : Step L L') {x : Secret} (hx : L.drawn x) : L'.drawn x := by
  cases hs with
  | waste hd => exact hd x hx
  | draw i y hh hy hd hy' => exact hd x hx
  | _ => exact hx

theorem Tokens.step (hs : Step L L') (h : Tokens L) : Tokens L' where
  linear := h.step_linear hs
  drawn p x hp := by
    rcases hs.token hp with ⟨q, hq⟩ | ⟨-, hx⟩
    · exact hs.drawn_mono (h.drawn q x hq)
    · exact hx

/-- A secret that is fresh after a step was fresh before, or was never drawn before. -/
theorem Step.fresh (hs : Step L L') {x : Secret} (h : L'.hand i = some (.fresh x)) :
    L.hand i = some (.fresh x) ∨ ¬ L.drawn x := by
  cases hs with
  | quiet | waste | lapse | wrong => exact Or.inl h
  | draw j y hh hy hd hy' =>
    rcases hand_setHand h with ⟨rfl, hx⟩ | h
    · obtain rfl := Hand.fresh.inj (Option.some.inj hx)
      exact Or.inr hy
    · exact Or.inl h
  | drop j | issue j | queue j | rollback j | verify j | consume j | restore j | setPassword j =>
    rcases hand_setHand h with ⟨rfl, hx⟩ | h
    · cases hx
    · exact Or.inl h

/-- What a step makes of the states that are held: a new code, a new key, a code with one more
wrong submission, or nothing new. -/
theorem Step.holds (hs : Step L L') (h : L'.Holds u st) :
    L.Holds u st ∨
    (∃ i k now, L.hand i = some (.fresh (.code k)) ∧ st = .awaitingCode k now ∧
      L'.log = L.log ++ [.issued i u k now]) ∨
    (∃ i k key exp, L.hand i = some (.fresh (.key key)) ∧ st = .AwaitingPassword key exp ∧
      L'.log = L.log ++ [.keyIssued i u k key exp]) ∨
    (∃ i k e s n, L.live u = some (.AwaitingCode k e s n) ∧ st = .AwaitingCode k e s (n + 1) ∧
      L'.log = L.log ++ [.recorded i u k]) := by
  -- a step that writes a state and a hand at once
  have move {j : ℕ} {w : UserId} {s : Option PasswordResetState} {a : Option Hand}
      (hm : ((L.setLive w s).setHand j a).Holds u st) :
      (u = w ∧ s = some st) ∨ (∃ x, a = some x ∧ x.puts = some (u, st)) ∨ L.Holds u st := by
    rcases hm with hm | hm
    · exact (holds_setLive (Or.inl hm)).imp id Or.inr
    · rcases puts_setHand hm with hm | hm
      · exact Or.inr (Or.inl hm)
      · exact Or.inr (Or.inr (Or.inr hm))
  -- a step that writes a hand which would put nothing back
  have put {j : ℕ} {a : Option Hand} (hm : (L.setHand j a).Holds u st)
      (ha : ∀ x, a = some x → x.puts = none) : L.Holds u st := by
    rcases hm with hm | hm
    · exact Or.inl hm
    · rcases puts_setHand hm with ⟨x, hx, hp⟩ | hm
      · rw [ha x hx] at hp
        cases hp
      · exact Or.inr hm
  cases hs with
  | quiet | waste => exact Or.inl h
  | drop j => exact Or.inl (put h (by simp))
  | draw j x hh hx hd hx' => exact Or.inl (put h (by rintro _ ⟨⟩; rfl))
  | issue j w k now hh hc =>
    rcases move h with ⟨rfl, hm⟩ | ⟨x, hx, hp⟩ | hm
    · exact Or.inr (Or.inl ⟨j, k, now, hh, by simpa using hm.symm, rfl⟩)
    · obtain rfl := Option.some.inj hx
      simp only [Hand.puts, Option.map_eq_some_iff, Prod.mk.injEq] at hp
      obtain ⟨s, hs, rfl, rfl⟩ := hp
      exact Or.inl (Or.inl hs)
    · exact Or.inl hm
  | queue j w k now previous hh => exact Or.inl (put (j := j) (a := none) h (by simp))
  | rollback j w written previous hh hl =>
    rcases move h with ⟨rfl, hm⟩ | ⟨x, hx, hp⟩ | hm
    · exact Or.inl (Or.inr ⟨j, _, hh, by simp [Hand.puts, hm]⟩)
    · cases hx
    · exact Or.inl hm
  | wrong j w k e s n hl hn =>
    rcases holds_setLive h with ⟨rfl, hm⟩ | hm
    · exact Or.inr (Or.inr (Or.inr ⟨j, k, e, s, n, hl, by simpa using hm.symm, rfl⟩))
    · exact Or.inl hm
  | verify j w k e s n key exp hh hl hn he =>
    rcases move h with ⟨rfl, hm⟩ | ⟨x, hx, hp⟩ | hm
    · exact Or.inr (Or.inr (Or.inl ⟨j, k, key, exp, hh, by simpa using hm.symm, rfl⟩))
    · cases hx
    · exact Or.inl hm
  | consume j w k exp now hh hl =>
    rcases move h with ⟨rfl, hm⟩ | ⟨x, hx, hp⟩ | hm
    · cases hm
    · obtain rfl := Option.some.inj hx
      simp only [Hand.puts, Option.some.injEq, Prod.mk.injEq] at hp
      obtain ⟨rfl, rfl⟩ := hp
      exact Or.inl (Or.inl hl)
    · exact Or.inl hm
  | restore j w k exp hh hl =>
    rcases move h with ⟨rfl, hm⟩ | ⟨x, hx, hp⟩ | hm
    · exact Or.inl (Or.inr ⟨j, _, hh, by simpa [Hand.puts] using hm⟩)
    · cases hx
    · exact Or.inl hm
  | setPassword j w k exp hh => exact Or.inl (put (j := j) (a := none) h (by simp))
  | lapse hl =>
    rcases h with h | h
    · rcases hl u with hu | hu
      · exact Or.inl (Or.inl (hu ▸ h))
      · cases hu.symm.trans h
    · exact Or.inl (Or.inr h)

/-- A secret determines the state that is about it, and whose state it is. -/
theorem Tokens.holds_unique (ht : Tokens L) {st' : PasswordResetState} (h : L.Holds u st)
    (h' : L.Holds v st') (hx : st.secret = st'.secret) : u = v ∧ st = st' := by
  rcases h with h | ⟨i, a, hi, ha⟩ <;> rcases h' with h' | ⟨j, b, hj, hb⟩
  · obtain rfl : u = v := Sum.inl.inj (ht.linear (.inl u) (.inl v) st.secret
      (by simp [h]) (by simp [h', hx]))
    exact ⟨rfl, Option.some.inj (h.symm.trans h')⟩
  · exact absurd (ht.linear (.inl u) (.inr j) st.secret (by simp [h])
      (by simp [hj, puts_secret hb, hx])) Sum.inl_ne_inr
  · exact absurd (ht.linear (.inr i) (.inl v) st.secret (by simp [hi, puts_secret ha])
      (by simp [h', hx])) Sum.inr_ne_inl
  · obtain rfl : i = j := Sum.inr.inj (ht.linear (.inr i) (.inr j) st.secret
      (by simp [hi, puts_secret ha]) (by simp [hj, puts_secret hb, hx]))
    obtain rfl := Option.some.inj (hi.symm.trans hj)
    rw [ha, Option.some.injEq, Prod.mk.injEq] at hb
    exact hb

@[simp] theorem minted_append (log : List Event) (e : Event) :
    minted (log ++ [e]) = minted log ++ (e.mints.map (·.2)).toList := by
  cases h : e.mints <;> simp [minted, h]

@[simp] theorem spent_append (log : List Event) (e : Event) :
    spent (log ++ [e]) = spent log ++ e.spends.toList := by
  cases h : e.spends <;> simp [spent, h]

@[simp] theorem recordedCount_append (k : String) (log : List Event) (e : Event) :
    recordedCount k (log ++ [e]) = recordedCount k log + if e.records k then 1 else 0 := by
  simp [recordedCount, List.countP_append, List.countP_singleton]

/-- A step stores at most one secret for the first time, and that one was fresh. -/
theorem Step.minted (hs : Step L L') : minted L'.log = minted L.log ∨
    ∃ i x, L.hand i = some (.fresh x) ∧ L'.hand i ≠ some (.fresh x) ∧
      minted L'.log = minted L.log ++ [x] := by
  cases hs with
  | issue i u k now hh hc => exact Or.inr ⟨i, .code k, hh, by simp, by simp [Event.mints]⟩
  | verify i u k e s n key exp hh hl hn he =>
    exact Or.inr ⟨i, .key key, hh, by simp, by simp [Event.mints]⟩
  | _ => left; simp [Event.mints]

/-- A step uses up at most one secret, and that one is nowhere afterwards. -/
theorem Step.spent (hs : Step L L') (ht : Tokens L) : spent L'.log = spent L.log ∨
    ∃ x, (∃ p, L.tokens p = some x) ∧ (∀ p, L'.tokens p ≠ some x) ∧
      spent L'.log = spent L.log ++ [x] := by
  cases hs with
  | verify i u k e s n key exp hh hl hn he =>
    have hu : L.tokens (.inl u) = some (.code k) := by simp [hl, PasswordResetState.secret]
    refine Or.inr ⟨.code k, ⟨_, hu⟩, ?_, by simp [Event.spends]⟩
    intro p hp
    rw [record_tokens, setHand_tokens, setLive_tokens] at hp
    by_cases hi : p = .inr i
    · simp [hi] at hp
    · rw [Function.update_of_ne hi] at hp
      by_cases hw : p = .inl u
      · simp [hw, PasswordResetState.secret] at hp
      · rw [Function.update_of_ne hw] at hp
        exact ht.linear.ne_of_ne hu hw hp
  | setPassword i u k exp hh =>
    have hi : L.tokens (.inr i) = some (.key k) := by simp [hh, Hand.secret]
    refine Or.inr ⟨.key k, ⟨_, hi⟩, ?_, by simp [Event.spends]⟩
    intro p hp
    rw [record_tokens, setHand_tokens] at hp
    by_cases hj : p = .inr i
    · simp [hj] at hp
    · rw [Function.update_of_ne hj] at hp
      exact ht.linear.ne_of_ne hi hj hp
  | _ => left; simp [Event.spends]

/-- Every secret is stored for the first time at most once, by the call that drew it, and what is
held for a user was stored for that user. -/
structure Minted (L : Ledger) : Prop where
  nodup : (minted L.log).Nodup
  drawn : ∀ x ∈ minted L.log, L.drawn x
  fresh : ∀ i x, L.hand i = some (.fresh x) → x ∉ minted L.log
  held : ∀ u st, L.Holds u st → ∃ e ∈ L.log, e.mints = some (u, st.secret)

theorem Minted.start (h : Start L) : Minted L where
  nodup := by simp [h.log, PasswordReset.minted]
  drawn := by simp [h.log, PasswordReset.minted]
  fresh := by simp [h.hand]
  held u st hu := by
    rcases hu with hu | ⟨i, a, hi, -⟩
    · simp [h.live] at hu
    · simp [h.hand] at hi

theorem Step.log_le (hs : Step L L') : L.log <+: L'.log := by
  cases hs <;> simp

theorem Minted.step (hs : Step L L') (ht : Tokens L) (h : Minted L) : Minted L' where
  nodup := by
    rcases hs.minted with hm | ⟨i, x, hi, -, hm⟩
    · rw [hm]
      exact h.nodup
    · rw [hm]
      exact List.nodup_append.mpr ⟨h.nodup, List.nodup_singleton x, by
        rintro y hy z hz rfl
        exact h.fresh i x hi (List.mem_singleton.mp hz ▸ hy)⟩
  drawn x hx := by
    rcases hs.minted with hm | ⟨i, y, hi, -, hm⟩
    · exact hs.drawn_mono (h.drawn x (hm ▸ hx))
    · rw [hm, List.mem_append, List.mem_singleton] at hx
      rcases hx with hx | rfl
      · exact hs.drawn_mono (h.drawn x hx)
      · exact hs.drawn_mono (ht.drawn (.inr i) x (by simp [hi, Hand.secret]))
  fresh j x hj hx := by
    rcases hs.minted with hm | ⟨i, y, hi, hi', hm⟩
    · rcases hs.fresh hj with hf | hf
      · exact h.fresh j x hf (hm ▸ hx)
      · exact hf (h.drawn x (hm ▸ hx))
    · rw [hm, List.mem_append, List.mem_singleton] at hx
      rcases hs.fresh hj with hf | hf
      · rcases hx with hx | rfl
        · exact h.fresh j x hf hx
        · obtain rfl : j = i := Sum.inr.inj (ht.linear (.inr j) (.inr i) x
            (by simp [hf, Hand.secret]) (by simp [hi, Hand.secret]))
          exact hi' hj
      · rcases hx with hx | rfl
        · exact hf (h.drawn x hx)
        · exact hf (ht.drawn (.inr i) x (by simp [hi, Hand.secret]))
  held u st hu := by
    have old {st' : PasswordResetState} (hst : L.Holds u st') (hx : st'.secret = st.secret) :
        ∃ e ∈ L'.log, e.mints = some (u, st.secret) := by
      obtain ⟨e, he, hm⟩ := h.held u st' hst
      exact ⟨e, hs.log_le.subset he, hx ▸ hm⟩
    rcases hs.holds hu with hu | ⟨i, k, now, hi, rfl, hl⟩ | ⟨i, k, key, exp, hi, rfl, hl⟩ |
      ⟨i, k, e, s, n, hk, rfl, hl⟩
    · exact old hu rfl
    · exact ⟨.issued i u k now, by simp [hl], rfl⟩
    · exact ⟨.keyIssued i u k key exp, by simp [hl], rfl⟩
    · exact old (Or.inl hk) rfl

/-- The event that stored a secret for the first time is the only one that did. -/
theorem Minted.unique (h : Minted L) {e e' : Event} {x : Secret} (he : e ∈ L.log)
    (he' : e' ∈ L.log) (hx : e.mints = some (u, x)) (hx' : e'.mints = some (v, x)) : e = e' := by
  have hpair : L.log.Pairwise fun a b => ∀ x, a.mints.map (·.2) = some x →
      ∀ y, b.mints.map (·.2) = some y → x ≠ y := List.pairwise_filterMap.mp h.nodup
  have hsymm : Std.Symm fun a b : Event => ∀ x, a.mints.map (·.2) = some x →
      ∀ y, b.mints.map (·.2) = some y → x ≠ y := ⟨fun a b hab y hy z hz => (hab z hz y hy).symm⟩
  by_contra hne
  exact hpair.forall he he' hne x (by simp [hx]) x (by simp [hx']) rfl

/-- A secret that has been used up is in no place, and is not used up again. -/
structure Spent (L : Ledger) : Prop where
  nodup : (spent L.log).Nodup
  drawn : ∀ x ∈ spent L.log, L.drawn x
  held : ∀ p x, L.tokens p = some x → x ∉ spent L.log

theorem Spent.start (h : Start L) : Spent L where
  nodup := by simp [h.log, PasswordReset.spent]
  drawn := by simp [h.log, PasswordReset.spent]
  held := by simp [h.log, PasswordReset.spent]

theorem Spent.step (hs : Step L L') (ht : Tokens L) (h : Spent L) : Spent L' where
  nodup := by
    rcases hs.spent ht with hm | ⟨x, ⟨p, hp⟩, -, hm⟩
    · rw [hm]
      exact h.nodup
    · rw [hm]
      exact List.nodup_append.mpr ⟨h.nodup, List.nodup_singleton x, by
        rintro y hy z hz rfl
        exact h.held p x hp (List.mem_singleton.mp hz ▸ hy)⟩
  drawn x hx := by
    rcases hs.spent ht with hm | ⟨y, ⟨p, hp⟩, -, hm⟩
    · exact hs.drawn_mono (h.drawn x (hm ▸ hx))
    · rw [hm, List.mem_append, List.mem_singleton] at hx
      rcases hx with hx | rfl
      · exact hs.drawn_mono (h.drawn x hx)
      · exact hs.drawn_mono (ht.drawn p x hp)
  held p x hp hx := by
    have old : x ∉ PasswordReset.spent L.log := by
      rcases hs.token hp with ⟨q, hq⟩ | ⟨hd, -⟩
      · exact h.held q x hq
      · exact fun hx => hd (h.drawn x hx)
    rcases hs.spent ht with hm | ⟨y, -, hy, hm⟩
    · exact old (hm ▸ hx)
    · rw [hm, List.mem_append, List.mem_singleton] at hx
      rcases hx with hx | rfl
      · exact old hx
      · exact hy p hp

/-- The counter of a code that is held counts its recorded submissions, which never exceed the
limit. -/
structure Counts (L : Ledger) : Prop where
  held : ∀ u k e s n, L.Holds u (.AwaitingCode k e s n) → n = recordedCount k L.log
  fresh : ∀ i k, L.hand i = some (.fresh (.code k)) → recordedCount k L.log = 0
  le : ∀ k, recordedCount k L.log ≤ passwordResetCodeMaxFailedAttempts
  drawn : ∀ k, recordedCount k L.log ≠ 0 → L.drawn (.code k)

theorem Counts.start (h : Start L) : Counts L where
  held u k e s n hu := by
    rcases hu with hu | ⟨i, a, hi, -⟩
    · simp [h.live] at hu
    · simp [h.hand] at hi
  fresh := by simp [h.hand]
  le := by simp [h.log, recordedCount]
  drawn := by simp [h.log, recordedCount]

/-- Only a wrong submission of the live code moves a count. -/
theorem Step.recorded (hs : Step L L') :
    (∀ k, recordedCount k L'.log = recordedCount k L.log) ∨
    ∃ i u k e s n, L.live u = some (.AwaitingCode k e s n) ∧
      n < passwordResetCodeMaxFailedAttempts ∧
      L' = (L.setLive u (some (.AwaitingCode k e s (n + 1)))).record (.recorded i u k) := by
  cases hs with
  | wrong i u k e s n hl hn => exact Or.inr ⟨i, u, k, e, s, n, hl, hn, rfl⟩
  | _ => left; simp [Event.records]

theorem Counts.step (hs : Step L L') (ht : Tokens L) (h : Counts L) : Counts L' := by
  have ht' := ht.step hs
  rcases hs.recorded with hr | ⟨i, u, k, e, s, n, hl, hn, rfl⟩
  · -- no count moves: a state that is held now was held before, or its code is new
    constructor
    · intro v k e s n hv
      rw [hr]
      rcases hs.holds hv with hv | ⟨i, k', now, hi, heq, -⟩ | ⟨_, _, _, _, _, heq, -⟩ |
        ⟨i, k', e', s', n', hk, heq, hlog⟩
      · exact h.held v k e s n hv
      · obtain ⟨rfl, -, -, rfl⟩ := PasswordResetState.AwaitingCode.inj heq
        exact (h.fresh i k hi).symm
      · cases heq
      · have := hr k'
        simp [hlog, Event.records] at this
    · intro j k hj
      rw [hr]
      rcases hs.fresh hj with hf | hf
      · exact h.fresh j k hf
      · by_contra hk
        exact hf (h.drawn k hk)
    · exact fun k => hr k ▸ h.le k
    · exact fun k hk => hs.drawn_mono (h.drawn k (hr k ▸ hk))
  · -- the counter of the live code goes up with its count, and no other count moves
    have hcount := h.held u k e s n (Or.inl hl)
    have hnew : ((L.setLive u (some (.AwaitingCode k e s (n + 1)))).record
        (.recorded i u k)).Holds u (.AwaitingCode k e s (n + 1)) := Or.inl (by simp)
    have hne : ∀ k', k' ≠ k → recordedCount k' (L.log ++ [.recorded i u k]) =
        recordedCount k' L.log := by
      intro k' hk
      simp [Event.records, hk.symm]
    constructor
    · intro v k' e' s' n' hv
      by_cases hk : k' = k
      · subst hk
        obtain ⟨-, heq⟩ := ht'.holds_unique hv hnew rfl
        obtain ⟨-, -, -, rfl⟩ := PasswordResetState.AwaitingCode.inj heq
        simp [Event.records, ← hcount]
      · show n' = recordedCount k' (L.log ++ [.recorded i u k])
        rw [hne k' hk]
        rcases hs.holds hv with hv | ⟨_, _, _, _, -, hlog⟩ | ⟨_, _, _, _, _, -, hlog⟩ |
          ⟨_, _, _, _, _, -, heq, hlog⟩
        · exact h.held v k' e' s' n' hv
        · simp at hlog
        · simp at hlog
        · have := PasswordResetState.AwaitingCode.inj heq
          simp at hlog
          exact absurd (this.1.trans hlog.2.2.symm) hk
    · intro j k' hj
      show recordedCount k' (L.log ++ [.recorded i u k]) = 0
      have hf : L.hand j = some (.fresh (.code k')) := hj
      have hk : k' ≠ k := by
        -- a fresh code is not live as well
        rintro rfl
        exact absurd (ht.linear (.inr j) (.inl u) (.code k') (by simp [hf, Hand.secret])
          (by simp [hl, PasswordResetState.secret])) Sum.inr_ne_inl
      rw [hne k' hk]
      exact h.fresh j k' hf
    · intro k'
      show recordedCount k' (L.log ++ [.recorded i u k]) ≤ _
      by_cases hk : k' = k
      · subst hk
        simp only [recordedCount_append, ← hcount, Event.records, decide_true, if_true]
        exact hn
      · rw [hne k' hk]
        exact h.le k'
    · intro k' hk'
      show L.drawn (.code k')
      by_cases hk : k' = k
      · subst hk
        exact ht.drawn (.inl u) _ (by simp [hl, PasswordResetState.secret])
      · exact h.drawn k' (hne k' hk ▸ hk')

def Event.Sound (pre : List Event) : Event → Prop
  | .keyIssued _ _ codeHash _ _ => recordedCount codeHash pre < passwordResetCodeMaxFailedAttempts
  | .passwordSet _ userId resetKeyHash =>
    ∃ e ∈ pre, e.mints = some (userId, .key resetKeyHash)
  | .queued i userId codeHash codeSentAt => .issued i userId codeHash codeSentAt ∈ pre
  | _ => True

/-- The written states that are about to be announced were stored, and every event was in order
when it was logged. -/
structure Sound (L : Ledger) : Prop where
  displaced : ∀ i u written previous, L.hand i = some (.displaced u written previous) →
    ∃ k now, written = .awaitingCode k now ∧ .issued i u k now ∈ L.log
  log : ∀ pre e post, L.log = pre ++ e :: post → Event.Sound pre e

theorem Sound.start (h : Start L) : Sound L where
  displaced := by simp [h.hand]
  log := by simp [h.log]

/-- A step logs at most one event, and that one is in order. -/
theorem Step.sound (hs : Step L L') (hm : Minted L) (hc : Counts L) (h : Sound L) :
    L'.log = L.log ∨ ∃ e, L'.log = L.log ++ [e] ∧ Event.Sound L.log e := by
  cases hs with
  | issue | wrong | consume => exact Or.inr ⟨_, rfl, trivial⟩
  | queue i u k now previous hh =>
    -- only a state that was stored is announced
    obtain ⟨k', now', heq, hmem⟩ := h.displaced i u _ previous hh
    obtain ⟨rfl, -, rfl, -⟩ := PasswordResetState.AwaitingCode.inj heq
    exact Or.inr ⟨_, rfl, hmem⟩
  | verify i u k e s n key exp hh hl hn he =>
    have hcount := hc.held u k e s n (Or.inl hl)
    exact Or.inr ⟨_, rfl, show recordedCount k L.log < _ from hcount ▸ hn⟩
  | setPassword i u k exp hh =>
    have hp : L.Holds u (.AwaitingPassword k exp) := Or.inr ⟨i, _, hh, rfl⟩
    exact Or.inr ⟨_, rfl, hm.held u _ hp⟩
  | _ => exact Or.inl rfl

theorem Sound.step (hs : Step L L') (hm : Minted L) (hc : Counts L) (h : Sound L) :
    Sound L' where
  displaced i u written previous hi := by
    have old (hi : L.hand i = some (.displaced u written previous)) :
        ∃ k now, written = .awaitingCode k now ∧ .issued i u k now ∈ L'.log := by
      obtain ⟨k, now, hw, hmem⟩ := h.displaced i u written previous hi
      exact ⟨k, now, hw, hs.log_le.subset hmem⟩
    cases hs with
    | quiet | waste | lapse | wrong => exact old hi
    | issue j v k' now' hh hl =>
      rcases hand_setHand hi with ⟨rfl, hx⟩ | hi
      · obtain ⟨rfl, rfl, -⟩ := Hand.displaced.inj (Option.some.inj hx)
        exact ⟨k', now', rfl, by simp⟩
      · exact old hi
    | drop j | draw j | queue j | rollback j | verify j | consume j | restore j | setPassword j =>
      rcases hand_setHand hi with ⟨rfl, hx⟩ | hi
      · cases hx
      · exact old hi
  log := by
    have hall : Always Event.Sound L.log := h.log
    rcases hs.sound hm hc h with heq | ⟨x, heq, hx⟩
    · rw [heq]
      exact h.log
    · rw [heq]
      exact hall.snoc hx

structure Inv (L : Ledger) : Prop where
  tokens : Tokens L
  minted : Minted L
  spent : Spent L
  counts : Counts L
  sound : Sound L

theorem Inv.step (hs : Step L L') (h : Inv L) : Inv L' :=
  ⟨h.tokens.step hs, h.minted.step hs h.tokens, h.spent.step hs h.tokens,
    h.counts.step hs h.tokens, h.sound.step hs h.minted h.counts⟩

theorem Reachable.inv (h : Reachable L) : Inv L := by
  induction h with
  | start h =>
    exact ⟨Tokens.start h, Minted.start h, Spent.start h, Counts.start h, Sound.start h⟩
  | step _ hs ih => exact ih.step hs

end Ledger

end Thcdb.PasswordReset
