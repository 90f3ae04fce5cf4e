import Mathlib.Logic.Equiv.Basic
import Mathlib.Logic.Function.Basic

namespace Interleaving

variable {ω κ : Type*}

/-- No token is held at two places. -/
def Linear (f : ω → Option κ) : Prop := ∀ p q x, f p = some x → f q = some x → p = q

namespace Linear

variable {f g : ω → Option κ}

theorem empty : Linear (fun _ : ω => (none : Option κ)) := by
  intro p q x h
  cases h

/-- Dropping tokens keeps the rest linear. -/
theorem of_le (hf : Linear f) (h : ∀ p x, g p = some x → f p = some x) : Linear g :=
  fun p q x hp hq => hf p q x (h p x hp) (h q x hq)

/-- Passing tokens between two places, and dropping any, keeps them linear. -/
theorem exchange [DecidableEq ω] (hf : Linear f) {a b : ω} (hab : a ≠ b) {x y : Option κ}
    (hx : ∀ t, x = some t → f b = some t) (hy : ∀ t, y = some t → f a = some t) :
    Linear (Function.update (Function.update f a x) b y) := by
  have hswap : ∀ p t, Function.update (Function.update f a x) b y p = some t →
      f (Equiv.swap a b p) = some t := by
    intro p t hp
    by_cases hb : p = b
    · subst hb
      rw [Function.update_self] at hp
      rw [Equiv.swap_apply_right]
      exact hy t hp
    · rw [Function.update_of_ne hb] at hp
      by_cases ha : p = a
      · subst ha
        rw [Function.update_self] at hp
        rw [Equiv.swap_apply_left]
        exact hx t hp
      · rw [Function.update_of_ne ha] at hp
        rw [Equiv.swap_apply_of_ne_of_ne ha hb]
        exact hp
  intro p q t hp hq
  exact (Equiv.swap a b).injective (hf _ _ t (hswap p t hp) (hswap q t hq))

/-- Emptying a place keeps the rest linear. -/
theorem clear [DecidableEq ω] (hf : Linear f) (a : ω) : Linear (Function.update f a none) := by
  apply hf.of_le
  intro p x hp
  by_cases ha : p = a
  · subst ha
    rw [Function.update_self] at hp
    cases hp
  · rwa [Function.update_of_ne ha] at hp

/-- A token that nobody holds may be put into a place. -/
theorem update [DecidableEq ω] (hf : Linear f) (a : ω) {x : κ} (hx : ∀ p, f p ≠ some x) :
    Linear (Function.update f a (some x)) := by
  intro p q y hp hq
  by_cases ha : p = a <;> by_cases hb : q = a
  · rw [ha, hb]
  · subst ha
    rw [Function.update_self, Option.some.injEq] at hp
    rw [Function.update_of_ne hb, ← hp] at hq
    exact absurd hq (hx q)
  · subst hb
    rw [Function.update_self, Option.some.injEq] at hq
    rw [Function.update_of_ne ha, ← hq] at hp
    exact absurd hp (hx p)
  · rw [Function.update_of_ne ha] at hp
    rw [Function.update_of_ne hb] at hq
    exact hf p q y hp hq

/-- Once taken out of its place, a token is held nowhere. -/
theorem ne_of_ne (hf : Linear f) {p q : ω} {x : κ} (hp : f p = some x) (h : q ≠ p) :
    f q ≠ some x := fun hq => h (hf q p x hq hp)

end Linear

end Interleaving
