import Thcdb.Auth.Users
import Thcdb.Redis.Keyspace

namespace Thcdb.PasswordReset
open Auth Redis

def passwordResetCodeMaxFailedAttempts : ℕ := 10

def passwordResetCodeExpiresMinutes : ℕ := 10

def passwordResetCodeResendCooldownSeconds : ℕ := 60

def passwordResetKeyMaxLen : ℕ := 64

def passwordResetKeyExpiresMinutes : ℕ := 5

inductive PasswordResetState
  | AwaitingCode (codeHash : String) (codeExpiresAt codeSentAt : ℕ) (failedAttempts : ℕ)
  | AwaitingPassword (resetKeyHash : String) (resetKeyExpiresAt : ℕ)
  deriving DecidableEq, Repr

namespace PasswordResetState

def awaitingCode (codeHash : String) (codeSentAt : ℕ) : PasswordResetState :=
  .AwaitingCode codeHash (codeSentAt + minutes passwordResetCodeExpiresMinutes) codeSentAt 0

def isInCodeResendCooldown (now : ℕ) : PasswordResetState → Bool
  | .AwaitingCode _ _ codeSentAt _ =>
    now - codeSentAt < seconds passwordResetCodeResendCooldownSeconds
  | .AwaitingPassword .. => false

/-- The stored hash, while the state awaits a code that has neither expired nor used up its
attempts. -/
def verifiableCodeHash (now : ℕ) : PasswordResetState → Option String
  | .AwaitingCode codeHash codeExpiresAt _ failedAttempts =>
    if failedAttempts ≥ passwordResetCodeMaxFailedAttempts then none
    else if now ≤ codeExpiresAt then some codeHash else none
  | .AwaitingPassword .. => none

def indexKey : PasswordResetState → Option String
  | .AwaitingCode .. => none
  | .AwaitingPassword resetKeyHash _ => some resetKeyHash

def expiresAt : PasswordResetState → ℕ
  | .AwaitingCode _ codeExpiresAt _ _ => codeExpiresAt
  | .AwaitingPassword _ resetKeyExpiresAt => resetKeyExpiresAt

/-- `num_seconds` drops the fraction; what is left must be positive. -/
def ttlSeconds (now : ℕ) (s : PasswordResetState) : Option ℕ :=
  if 0 < (s.expiresAt - now) / seconds 1 then some ((s.expiresAt - now) / seconds 1) else none

theorem ttlSeconds_eq_some {now ttl : ℕ} {s : PasswordResetState} :
    s.ttlSeconds now = some ttl ↔
      0 < ttl ∧ now + seconds ttl ≤ s.expiresAt ∧ s.expiresAt < now + seconds (ttl + 1) := by
  unfold ttlSeconds seconds
  split <;> simp <;> omega

end PasswordResetState

structure ConsumedPasswordResetKey where
  userId : UserId
  resetKeyExpiresAt : ℕ
  deriving DecidableEq, Repr

/-- `P` stands for the texts Redis stores. `toString` and `fromStr` are serde_json, `decode` and
`encode` are Lua's cjson, which writes the same fields in an order and with escapes of its own. -/
structure PayloadCodec (P : Type) where
  toString : PasswordResetState → P
  fromStr : P → Option PasswordResetState
  decode : P → Option PasswordResetState
  encode : PasswordResetState → P
  fromStr_toString : ∀ s, fromStr (toString s) = some s
  fromStr_encode : ∀ s, fromStr (encode s) = some s
  decode_of_fromStr : ∀ {p s}, fromStr p = some s → decode p = some s

/-- The keys of one reset: `auth:password-reset:user:{user_id}` and
`auth:password-reset:key:{reset_key_hash}`. -/
structure Store (P : Type) where
  state : Keyspace UserId P
  index : Keyspace String UserId

namespace Store

variable {P : Type}

def empty : Store P := ⟨fun _ => none, fun _ => none⟩

/-- What is left of the store at `now`. -/
def expire (s : Store P) (now : ℕ) : Store P := ⟨s.state.expire now, s.index.expire now⟩

def live (C : PayloadCodec P) (s : Store P) (u : UserId) : Option PasswordResetState :=
  (s.state.get u).bind C.fromStr

variable {C : PayloadCodec P} {s : Store P} {index : Keyspace String UserId} {now ttl : ℕ}
  {u : UserId}

theorem live_eq_some {st : PasswordResetState} :
    s.live C u = some st ↔ ∃ e, s.state u = some e ∧ C.fromStr e.value = some st := by
  simp only [live, Keyspace.get, Option.bind_map, Option.bind_eq_some_iff, Function.comp_apply]

theorem live_of_get {p : P} {st : PasswordResetState} (h : s.state.get u = some p)
    (hp : C.fromStr p = some st) : s.live C u = some st := by
  simp [live, h, hp]

theorem live_setEx {p : P} {st : PasswordResetState} (h : C.fromStr p = some st) :
    live C ⟨s.state.setEx now u p ttl, index⟩ = Function.update (s.live C) u (some st) := by
  funext v
  by_cases hv : v = u
  · subst hv
    simp [live, Keyspace.get, h]
  · simp [live, Keyspace.get, hv, Function.update_of_ne]

theorem live_del : live C ⟨s.state.del u, index⟩ = Function.update (s.live C) u none := by
  funext v
  by_cases hv : v = u
  · subst hv
    simp [live, Keyspace.get]
  · simp [live, Keyspace.get, hv, Function.update_of_ne]

theorem live_expire (u : UserId) :
    (s.expire now).live C u = s.live C u ∨ (s.expire now).live C u = none := by
  cases h : (s.expire now).state u with
  | none => right; simp [live, Keyspace.get, h]
  | some e =>
    left
    have he : s.state u = some e := (Keyspace.expire_eq_some.mp h).1
    simp [live, Keyspace.get, h, he]

end Store

section Scripts

variable {P : Type} [DecidableEq P]

/-- The arguments of `save_password_reset_state_if_matches.lua`; an absent expected payload is
`ARGV[1] = '0'`, an absent index key the empty string. -/
structure SaveArgs (P : Type) where
  userId : UserId
  expectedPayload : Option P
  nextPayload : P
  ttlSeconds : ℕ
  nextIndexKey : Option String
  previousIndexKey : Option String

/-- `DEL`s the previous index key unless it is the next one. -/
def delPreviousIndex (index : Keyspace String UserId) (previous next : Option String) :
    Keyspace String UserId :=
  match previous with
  | some h => if previous = next then index else index.del h
  | none => index

def setNextIndex (index : Keyspace String UserId) (now : ℕ) (next : Option String)
    (userId : UserId) (ttl : ℕ) : Keyspace String UserId :=
  match next with
  | some h => index.setEx now h userId ttl
  | none => index

def savePasswordResetStateIfMatches (s : Store P) (now : ℕ) (a : SaveArgs P) :
    Store P × Bool :=
  if s.state.get a.userId ≠ a.expectedPayload then (s, false)
  else
    let index := delPreviousIndex s.index a.previousIndexKey a.nextIndexKey
    (⟨s.state.setEx now a.userId a.nextPayload a.ttlSeconds,
      setNextIndex index now a.nextIndexKey a.userId a.ttlSeconds⟩, true)

def clearPasswordResetStateIfMatches (s : Store P) (userId : UserId) (expectedPayload : P)
    (indexKey : Option String) : Store P × Bool :=
  if s.state.get userId ≠ some expectedPayload then (s, false)
  else
    (⟨s.state.del userId, match indexKey with | some h => s.index.del h | none => s.index⟩, true)

/-- Increments the counter of an awaited code; `none` is the script's error reply. -/
def incrementFailedAttemptsIfMatches (C : PayloadCodec P) (s : Store P) (now : ℕ)
    (userId : UserId) (expectedPayload : P) : Store P × Option Bool :=
  if s.state.get userId ≠ some expectedPayload then (s, some false)
  else
    let ttl := s.state.ttl now userId
    if ttl ≤ 0 then ({ s with state := s.state.del userId }, some false)
    else
      match C.decode expectedPayload with
      | none => (s, none)
      | some (.AwaitingPassword ..) => (s, some false)
      | some (.AwaitingCode codeHash codeExpiresAt codeSentAt failedAttempts) =>
        let next := C.encode (.AwaitingCode codeHash codeExpiresAt codeSentAt (failedAttempts + 1))
        ({ s with state := s.state.setEx now userId next ttl.toNat }, some true)

/-- Takes the key out of the store; `none` is the empty reply. -/
def consumePasswordResetKey (C : PayloadCodec P) (s : Store P) (resetKeyHash : String) :
    Store P × Option ConsumedPasswordResetKey :=
  match s.index.get resetKeyHash with
  | none => (s, none)
  | some userId =>
    let dropped : Store P := { s with index := s.index.del resetKeyHash }
    match s.state.get userId with
    | none => (dropped, none)
    | some payload =>
      match C.decode payload with
      | none => (dropped, none)
      | some (.AwaitingCode ..) => (dropped, none)
      | some (.AwaitingPassword h resetKeyExpiresAt) =>
        if h ≠ resetKeyHash then (dropped, none)
        else
          (⟨s.state.del userId, s.index.del resetKeyHash⟩, some ⟨userId, resetKeyExpiresAt⟩)

variable {s : Store P} {now : ℕ} {a : SaveArgs P} {u : UserId} {p : P} {k : String}

theorem save_of_ne (h : s.state.get a.userId ≠ a.expectedPayload) :
    savePasswordResetStateIfMatches s now a = (s, false) := if_pos h

theorem save_of_eq (h : s.state.get a.userId = a.expectedPayload) :
    savePasswordResetStateIfMatches s now a =
      (⟨s.state.setEx now a.userId a.nextPayload a.ttlSeconds,
        setNextIndex (delPreviousIndex s.index a.previousIndexKey a.nextIndexKey) now a.nextIndexKey
          a.userId a.ttlSeconds⟩, true) := if_neg (not_not.mpr h)

theorem clear_of_ne {index : Option String} (h : s.state.get u ≠ some p) :
    clearPasswordResetStateIfMatches s u p index = (s, false) := if_pos h

theorem clear_of_eq {index : Option String} (h : s.state.get u = some p) :
    clearPasswordResetStateIfMatches s u p index =
      (⟨s.state.del u, match index with | some h => s.index.del h | none => s.index⟩, true) :=
  if_neg (not_not.mpr h)

/-- What the increment script does on the code that it expects: count, or drop a key that is about
to go. -/
theorem increment_of_get (C : PayloadCodec P) {codeHash : String} {e t n : ℕ}
    (hg : s.state.get u = some p) (hp : C.fromStr p = some (.AwaitingCode codeHash e t n)) :
    incrementFailedAttemptsIfMatches C s now u p =
      if s.state.ttl now u ≤ 0 then ({ s with state := s.state.del u }, some false)
      else
        (⟨s.state.setEx now u (C.encode (.AwaitingCode codeHash e t (n + 1)))
          (s.state.ttl now u).toNat, s.index⟩, some true) := by
  simp [incrementFailedAttemptsIfMatches, hg, C.decode_of_fromStr hp]

theorem increment_of_ne (C : PayloadCodec P) (hg : s.state.get u ≠ some p) :
    incrementFailedAttemptsIfMatches C s now u p = (s, some false) := if_pos hg

/-- What the increment script does on a code: nothing, drop a key that is about to go, or count. -/
theorem increment_cases (C : PayloadCodec P) {codeHash : String} {e t n : ℕ}
    (hp : C.fromStr p = some (.AwaitingCode codeHash e t n)) :
    incrementFailedAttemptsIfMatches C s now u p = (s, some false) ∨
    (s.state.get u = some p ∧
      incrementFailedAttemptsIfMatches C s now u p =
        ({ s with state := s.state.del u }, some false)) ∨
    (s.state.get u = some p ∧ 0 < s.state.ttl now u ∧
      incrementFailedAttemptsIfMatches C s now u p =
        (⟨s.state.setEx now u (C.encode (.AwaitingCode codeHash e t (n + 1)))
          (s.state.ttl now u).toNat, s.index⟩, some true)) := by
  by_cases hg : s.state.get u = some p
  · have hr : incrementFailedAttemptsIfMatches C s now u p = _ := increment_of_get C hg hp
    by_cases ht : s.state.ttl now u ≤ 0
    · rw [if_pos ht] at hr
      exact Or.inr (Or.inl ⟨hg, hr⟩)
    · rw [if_neg ht] at hr
      exact Or.inr (Or.inr ⟨hg, Int.not_le.mp ht, hr⟩)
  · exact Or.inl (increment_of_ne C hg)

omit [DecidableEq P] in
/-- What the consume script does: nothing, drop an index key without its state, or take the key. -/
theorem consume_cases (C : PayloadCodec P) :
    consumePasswordResetKey C s k = (s, none) ∨
    (∃ u, s.index.get k = some u ∧
      (∀ p e, s.state.get u = some p → C.decode p ≠ some (.AwaitingPassword k e)) ∧
      consumePasswordResetKey C s k = ({ s with index := s.index.del k }, none)) ∨
    (∃ u p e, s.index.get k = some u ∧ s.state.get u = some p ∧
      C.decode p = some (.AwaitingPassword k e) ∧
      consumePasswordResetKey C s k = (⟨s.state.del u, s.index.del k⟩, some ⟨u, e⟩)) := by
  cases hi : s.index.get k with
  | none => left; simp [consumePasswordResetKey, hi]
  | some u =>
    right
    cases hg : s.state.get u with
    | none =>
      refine Or.inl ⟨u, rfl, ?_, ?_⟩
      · simp [hg]
      · simp [consumePasswordResetKey, hi, hg]
    | some p =>
      have miss (hd : ∀ e, C.decode p ≠ some (.AwaitingPassword k e)) :
          ∀ q e, some p = some q → C.decode q ≠ some (.AwaitingPassword k e) := by
        rintro q e ⟨⟩
        exact hd e
      cases hd : C.decode p with
      | none =>
        refine Or.inl ⟨u, rfl, hg ▸ miss (by simp [hd]), ?_⟩
        simp [consumePasswordResetKey, hi, hg, hd]
      | some st =>
        cases st with
        | AwaitingCode h e t n =>
          refine Or.inl ⟨u, rfl, hg ▸ miss (by simp [hd]), ?_⟩
          simp [consumePasswordResetKey, hi, hg, hd]
        | AwaitingPassword h e =>
          by_cases hk : h = k
          · subst hk
            refine Or.inr ⟨u, p, e, rfl, hg, hd, ?_⟩
            simp [consumePasswordResetKey, hi, hg, hd]
          · refine Or.inl ⟨u, rfl, hg ▸ miss (by simp [hd, hk]), ?_⟩
            simp [consumePasswordResetKey, hi, hg, hd, hk]

end Scripts

end Thcdb.PasswordReset
