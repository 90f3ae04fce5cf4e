import Mathlib.Data.List.Forall2

namespace Fallible

universe u
variable {ε : Type*} {α β γ : Type u}

theorem bind_eq_ok {x : Except ε α} {f : α → Except ε β} {b : β} :
    (x >>= f) = .ok b ↔ ∃ a, x = .ok a ∧ f a = .ok b := by
  cases x with
  | error e => exact ⟨fun h => (nomatch h), fun ⟨_, h, _⟩ => (nomatch h)⟩
  | ok a => exact ⟨fun h => ⟨a, rfl, h⟩, fun ⟨_, h, hf⟩ => by rwa [Except.ok.inj h]⟩

theorem map_eq_ok {x : Except ε α} {f : α → β} {b : β} :
    x.map f = .ok b ↔ ∃ a, x = .ok a ∧ f a = b := by
  cases x with
  | error e => exact ⟨fun h => (nomatch h), fun ⟨_, h, _⟩ => (nomatch h)⟩
  | ok a => exact ⟨fun h => ⟨a, rfl, Except.ok.inj h⟩, fun ⟨_, h, hf⟩ => by cases h; exact hf ▸ rfl⟩

/-- A list of results, each of one element. -/
theorem mapM_eq_ok_iff {f : α → Except ε β} {xs : List α} {ys : List β} :
    xs.mapM f = .ok ys ↔ List.Forall₂ (fun x y => f x = .ok y) xs ys := by
  induction xs generalizing ys with
  | nil =>
    rw [List.mapM_nil, List.forall₂_nil_left_iff]
    exact ⟨fun h => (Except.ok.inj h).symm, fun h => by rw [h]; rfl⟩
  | cons x xs ih =>
    simp only [List.mapM_cons, bind_eq_ok, ih, List.forall₂_cons_left_iff]
    constructor
    · rintro ⟨y, hy, zs, hzs, h⟩
      exact ⟨y, zs, hy, hzs, (Except.ok.inj h).symm⟩
    · rintro ⟨y, zs, hy, hzs, rfl⟩
      exact ⟨y, hy, zs, hzs, rfl⟩

variable {f g : β → γ → Except ε β} {b b' : β} {x : γ} {xs : List γ}

theorem foldlM_cons_eq_ok :
    (x :: xs).foldlM f b = .ok b' ↔ ∃ c, f b x = .ok c ∧ xs.foldlM f c = .ok b' := by
  rw [List.foldlM_cons, bind_eq_ok]

/-- What every turn keeps holds after the loop. -/
theorem foldlM_keeps {P : β → Prop} (hf : ∀ b x b', x ∈ xs → P b → f b x = .ok b' → P b')
    (hb : P b) (hrun : xs.foldlM f b = .ok b') : P b' := by
  induction xs generalizing b with
  | nil => exact Except.ok.inj hrun ▸ hb
  | cons x xs ih =>
    obtain ⟨c, hc, hrest⟩ := foldlM_cons_eq_ok.mp hrun
    exact ih (fun b y b' hy => hf b y b' (List.mem_cons_of_mem x hy))
      (hf b x c List.mem_cons_self hb hc) hrest

theorem foldlM_mono (hfg : ∀ b x b', f b x = .ok b' → g b x = .ok b')
    (hrun : xs.foldlM f b = .ok b') : xs.foldlM g b = .ok b' := by
  induction xs generalizing b with
  | nil => exact hrun
  | cons x xs ih =>
    obtain ⟨c, hc, hrest⟩ := foldlM_cons_eq_ok.mp hrun
    exact foldlM_cons_eq_ok.mpr ⟨c, hfg b x c hc, ih hrest⟩

end Fallible
