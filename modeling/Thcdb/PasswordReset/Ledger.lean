import Thcdb.Interleaving.Linear
import Thcdb.PasswordReset.Service

namespace Thcdb.PasswordReset
open Auth Interleaving

/-- What a state is about: the code it awaits, or the key that may be used. -/
inductive Secret
  | code (codeHash : String)
  | key (resetKeyHash : String)
  deriving DecidableEq

def PasswordResetState.secret : PasswordResetState → Secret
  | .AwaitingCode codeHash .. => .code codeHash
  | .AwaitingPassword resetKeyHash _ => .key resetKeyHash

/-- What a call has in hand: a secret it has not stored yet, the state it stored over and may put
back, or the key it took out. -/
inductive Hand
  | fresh (x : Secret)
  | displaced (userId : UserId) (written : PasswordResetState)
      (previous : Option PasswordResetState)
  | consumed (userId : UserId) (resetKeyHash : String) (resetKeyExpiresAt : ℕ)

namespace Hand

def secret : Hand → Option Secret
  | .fresh x => some x
  | .displaced _ _ previous => previous.map (·.secret)
  | .consumed _ resetKeyHash _ => some (.key resetKeyHash)

/-- The state the call may put back, and for whom. -/
def puts : Hand → Option (UserId × PasswordResetState)
  | .fresh _ => none
  | .displaced userId _ previous => previous.map fun st => (userId, st)
  | .consumed userId resetKeyHash resetKeyExpiresAt =>
    some (userId, .AwaitingPassword resetKeyHash resetKeyExpiresAt)

end Hand

structure Ledger where
  live : UserId → Option PasswordResetState
  hand : ℕ → Option Hand
  /-- every salted hash and every key hash drawn so far -/
  drawn : Secret → Prop
  log : List Event

/-- A code sent at `now` may replace `st`: the cooldown of a code is over, and a key was issued
by then. -/
def MayReplace (now : ℕ) : PasswordResetState → Prop
  | .AwaitingCode _ _ codeSentAt _ =>
    codeSentAt + seconds passwordResetCodeResendCooldownSeconds ≤ now
  | .AwaitingPassword _ resetKeyExpiresAt =>
    resetKeyExpiresAt ≤ now + minutes passwordResetKeyExpiresMinutes

namespace Ledger

def setLive (L : Ledger) (u : UserId) (st : Option PasswordResetState) : Ledger :=
  { L with live := Function.update L.live u st }

def setHand (L : Ledger) (i : ℕ) (h : Option Hand) : Ledger :=
  { L with hand := Function.update L.hand i h }

def record (L : Ledger) (e : Event) : Ledger := { L with log := L.log ++ [e] }

inductive Step : Ledger → Ledger → Prop
  -- a step that only reads, and a call that loses what it has in hand
  | quiet {L} : Step L L
  | drop {L} (i : ℕ) : Step L (L.setHand i none)
  -- a salt that no call keeps, and one that a call does
  | waste {L drawn'} (hd : ∀ x, L.drawn x → drawn' x) : Step L { L with drawn := drawn' }
  | draw {L drawn'} (i : ℕ) (x : Secret) (hh : L.hand i = none) (hx : ¬ L.drawn x)
      (hd : ∀ y, L.drawn y → drawn' y) (hx' : drawn' x) :
      Step L ({ L with drawn := drawn' }.setHand i (some (.fresh x)))
  -- a new code displaces what was live, and is announced or taken back
  | issue {L} (i : ℕ) (u : UserId) (h : String) (now : ℕ)
      (hh : L.hand i = some (.fresh (.code h))) (hc : ∀ st, L.live u = some st → MayReplace now st) :
      Step L (((L.setLive u (some (.awaitingCode h now))).setHand i
        (some (.displaced u (.awaitingCode h now) (L.live u)))).record (.issued i u h now))
  | queue {L} (i : ℕ) (u : UserId) (h : String) (now : ℕ) (previous : Option PasswordResetState)
      (hh : L.hand i = some (.displaced u (.awaitingCode h now) previous)) :
      Step L ((L.setHand i none).record (.queued i u h now))
  | rollback {L} (i : ℕ) (u : UserId) (written : PasswordResetState)
      (previous : Option PasswordResetState)
      (hh : L.hand i = some (.displaced u written previous)) (hl : L.live u = some written) :
      Step L ((L.setLive u previous).setHand i none)
  -- what a submission of a code does: it is counted, or exchanged for a key
  | wrong {L} (i : ℕ) (u : UserId) (h : String) (expiresAt sentAt n : ℕ)
      (hl : L.live u = some (.AwaitingCode h expiresAt sentAt n))
      (hn : n < passwordResetCodeMaxFailedAttempts) :
      Step L ((L.setLive u (some (.AwaitingCode h expiresAt sentAt (n + 1)))).record
        (.recorded i u h))
  | verify {L} (i : ℕ) (u : UserId) (h : String) (expiresAt sentAt n : ℕ) (k : String)
      (keyExpiresAt : ℕ) (hh : L.hand i = some (.fresh (.key k)))
      (hl : L.live u = some (.AwaitingCode h expiresAt sentAt n))
      (hn : n < passwordResetCodeMaxFailedAttempts)
      (he : sentAt + minutes passwordResetKeyExpiresMinutes ≤ keyExpiresAt) :
      Step L (((L.setLive u (some (.AwaitingPassword k keyExpiresAt))).setHand i none).record
        (.keyIssued i u h k keyExpiresAt))
  -- a key is taken, and put back if the password could not be set
  | consume {L} (i : ℕ) (u : UserId) (k : String) (keyExpiresAt now : ℕ)
      (hh : L.hand i = none) (hl : L.live u = some (.AwaitingPassword k keyExpiresAt)) :
      Step L (((L.setLive u none).setHand i (some (.consumed u k keyExpiresAt))).record
        (.consumed i u k keyExpiresAt now))
  | restore {L} (i : ℕ) (u : UserId) (k : String) (keyExpiresAt : ℕ)
      (hh : L.hand i = some (.consumed u k keyExpiresAt)) (hl : L.live u = none) :
      Step L ((L.setLive u (some (.AwaitingPassword k keyExpiresAt))).setHand i none)
  | setPassword {L} (i : ℕ) (u : UserId) (k : String) (keyExpiresAt : ℕ)
      (hh : L.hand i = some (.consumed u k keyExpiresAt)) :
      Step L ((L.setHand i none).record (.passwordSet i u k))
  -- time runs out for some of the states
  | lapse {L live'} (hl : ∀ u, live' u = L.live u ∨ live' u = none) : Step L { L with live := live' }

structure Start (L : Ledger) : Prop where
  live : L.live = fun _ => none
  hand : L.hand = fun _ => none
  log : L.log = []

inductive Reachable : Ledger → Prop
  | start {L} (h : Start L) : Reachable L
  | step {L L'} (h : Reachable L) (hs : Step L L') : Reachable L'

/-- The secret at each place: the live state of a user, the hand of a call. -/
def tokens (L : Ledger) : UserId ⊕ ℕ → Option Secret
  | .inl u => (L.live u).map (·.secret)
  | .inr i => (L.hand i).bind (·.secret)

section Simp

variable (L : Ledger) (u v : UserId) (i j : ℕ) (st : Option PasswordResetState) (h : Option Hand)
  (e : Event)

@[simp] theorem setLive_live : (L.setLive u st).live = Function.update L.live u st := rfl
@[simp] theorem setLive_hand : (L.setLive u st).hand = L.hand := rfl
@[simp] theorem setLive_log : (L.setLive u st).log = L.log := rfl
@[simp] theorem setHand_live : (L.setHand i h).live = L.live := rfl
@[simp] theorem setHand_hand : (L.setHand i h).hand = Function.update L.hand i h := rfl
@[simp] theorem setHand_log : (L.setHand i h).log = L.log := rfl
@[simp] theorem record_live : (L.record e).live = L.live := rfl
@[simp] theorem record_hand : (L.record e).hand = L.hand := rfl
@[simp] theorem record_log : (L.record e).log = L.log ++ [e] := rfl
@[simp] theorem record_tokens : (L.record e).tokens = L.tokens := rfl
@[simp] theorem tokens_inl : L.tokens (.inl u) = (L.live u).map (·.secret) := rfl
@[simp] theorem tokens_inr : L.tokens (.inr i) = (L.hand i).bind (·.secret) := rfl

theorem setLive_tokens : (L.setLive u st).tokens =
    Function.update L.tokens (.inl u) (st.map (·.secret)) := by
  funext p
  rcases p with v | j
  · by_cases hv : v = u
    · subst hv; simp
    · simp [hv, Function.update_of_ne]
  · simp

theorem setHand_tokens : (L.setHand i h).tokens =
    Function.update L.tokens (.inr i) (h.bind (·.secret)) := by
  funext p
  rcases p with v | j
  · simp
  · by_cases hj : j = i
    · subst hj; simp
    · simp [hj, Function.update_of_ne]

end Simp

variable {L : Ledger} {u v : UserId} {i j : ℕ}

/-- What is live after a write was written, or was live before. -/
theorem live_setLive {st : Option PasswordResetState} {x : PasswordResetState}
    (hx : (L.setLive v st).live u = some x) : u = v ∧ st = some x ∨ L.live u = some x := by
  by_cases hu : u = v
  · subst hu
    rw [setLive_live, Function.update_self] at hx
    exact Or.inl ⟨rfl, hx⟩
  · rw [setLive_live, Function.update_of_ne hu] at hx
    exact Or.inr hx

theorem hand_setHand {h : Option Hand} {x : Hand} (hx : (L.setHand j h).hand i = some x) :
    i = j ∧ h = some x ∨ L.hand i = some x := by
  by_cases hi : i = j
  · subst hi
    rw [setHand_hand, Function.update_self] at hx
    exact Or.inl ⟨rfl, hx⟩
  · rw [setHand_hand, Function.update_of_ne hi] at hx
    exact Or.inr hx

@[simp] theorem awaitingCode_secret (h : String) (now : ℕ) :
    (PasswordResetState.awaitingCode h now).secret = .code h := rfl

end Ledger

end Thcdb.PasswordReset
