import Mathlib.Data.Int.Notation
import Mathlib.Data.Nat.Notation
import Mathlib.Logic.Function.Basic

namespace Redis

variable {κ β : Type*}

/-- The server's clock, in milliseconds. -/
def millis (now : ℕ) : ℕ := now / 1000000

/-- A value and the last millisecond in which it is served. -/
structure Entry (β : Type*) where
  value : β
  expireAt : ℕ

/-- Instants come in nanoseconds, the server counts milliseconds, and `EX` counts seconds. -/
abbrev Keyspace (κ β : Type*) := κ → Option (Entry β)

/-- The last nanosecond at which a key set now with this TTL is served. -/
def lastServed (now ttl : ℕ) : ℕ := (millis now + ttl * 1000 + 1) * 1000000 - 1

theorem served_iff {t now ttl : ℕ} : millis t ≤ millis now + ttl * 1000 ↔ t ≤ lastServed now ttl := by
  unfold lastServed millis
  omega

namespace Keyspace

variable (s : Keyspace κ β)

def get (k : κ) : Option β := (s k).map (·.value)

/-- The keys that are left when the clock shows `now`. -/
def expire (now : ℕ) : Keyspace κ β := fun k => (s k).filter (millis now ≤ ·.expireAt)

/-- `TTL`, in seconds rounded to the nearest. -/
def ttl (now : ℕ) (k : κ) : ℤ :=
  match s k with
  | none => -2
  | some e => ((e.expireAt - millis now + 500) / 1000 : ℕ)

/-- No key has outlived its expiry. -/
def Live (now : ℕ) : Prop := ∀ k e, s k = some e → millis now ≤ e.expireAt

variable [DecidableEq κ]

def setEx (now : ℕ) (k : κ) (v : β) (ttl : ℕ) : Keyspace κ β :=
  Function.update s k (some ⟨v, millis now + ttl * 1000⟩)

def del (k : κ) : Keyspace κ β := Function.update s k none

variable {s} {now now' ttl : ℕ} {k l : κ} {v : β} {e : Entry β}

@[simp] theorem setEx_self : s.setEx now k v ttl k = some ⟨v, millis now + ttl * 1000⟩ := by
  simp [setEx]

@[simp] theorem setEx_of_ne (h : l ≠ k) : s.setEx now k v ttl l = s l := by
  simp [setEx, h]

@[simp] theorem del_self : s.del k k = none := by simp [del]

@[simp] theorem del_of_ne (h : l ≠ k) : s.del k l = s l := by simp [del, h]

omit [DecidableEq κ] in
theorem get_eq_some : s.get k = some v ↔ ∃ e, s k = some e ∧ e.value = v := by
  simp [get]

omit [DecidableEq κ] in
theorem expire_eq_some : s.expire now k = some e ↔ s k = some e ∧ millis now ≤ e.expireAt := by
  simp only [expire, Option.filter_eq_some_iff, decide_eq_true_eq]

omit [DecidableEq κ] in
theorem expire_live : (s.expire now).Live now := fun _ _ h => (expire_eq_some.mp h).2

theorem setEx_eq_some : s.setEx now k v ttl l = some e ↔
    l = k ∧ e = ⟨v, millis now + ttl * 1000⟩ ∨ l ≠ k ∧ s l = some e := by
  by_cases hl : l = k
  · subst hl
    simp [eq_comm]
  · simp [hl]

theorem del_eq_some : s.del k l = some e ↔ l ≠ k ∧ s l = some e := by
  by_cases hl : l = k
  · subst hl
    simp
  · simp [hl]

theorem Live.setEx (h : s.Live now) : (s.setEx now k v ttl).Live now := by
  intro l e he
  rcases setEx_eq_some.mp he with ⟨-, rfl⟩ | ⟨-, hold⟩
  · exact Nat.le_add_right ..
  · exact h l e hold

theorem Live.del (h : s.Live now) : (s.del k).Live now :=
  fun l e he => h l e (del_eq_some.mp he).2

end Keyspace

end Redis
