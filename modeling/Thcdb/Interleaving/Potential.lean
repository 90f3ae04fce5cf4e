import Mathlib.Algebra.Order.BigOperators.Group.Finset
import Mathlib.Data.Set.Finite.Basic
import Thcdb.Interleaving.System

namespace Interleaving

variable {σ τ α β ε : Type*}

namespace System

variable (M : System σ τ α β ε)

def total (f : Config σ τ ε → Act α β → ℕ) : Config σ τ ε → List (Act α β) → ℕ
  | _, [] => 0
  | c, a :: as => f c a + ((M.next c a).map fun d => total f d as).getD 0

variable {M} {f g : Config σ τ ε → Act α β → ℕ} {c d : Config σ τ ε} {a : Act α β}
  {as bs : List (Act α β)}

theorem total_cons (h : M.next c a = some d) :
    M.total f c (a :: as) = f c a + M.total f d as := by
  simp only [total, h, Option.map_some, Option.getD_some]

theorem total_append (h : M.run c as = some d) :
    M.total f c (as ++ bs) = M.total f c as + M.total f d bs := by
  induction as generalizing c with
  | nil =>
    obtain rfl : c = d := by simpa using h
    simp [total]
  | cons a as ih =>
    obtain ⟨x, hx, hr⟩ := run_cons_eq_some.mp h
    rw [List.cons_append, total_cons hx, total_cons hx, ih hr, Nat.add_assoc]

theorem total_mul (m : ℕ) : M.total (fun c a => m * f c a) c as = m * M.total f c as := by
  induction as generalizing c with
  | nil => rfl
  | cons a as ih =>
    simp only [total, Nat.mul_add]
    cases M.next c a with
    | none => rfl
    | some d => simp [ih]

/-- The potential rule: where no step costs more than it is paid and gains in potential, neither
does a run. -/
theorem total_le {I : Config σ τ ε → Prop} {G : Config σ τ ε → Act α β → Prop}
    {p : Config σ τ ε → ℕ}
    (step : ∀ c a d, I c → G c a → M.next c a = some d → I d ∧ p c + f c a ≤ p d + g c a)
    (h0 : I c) (hg : M.Meets G c as) (hr : M.run c as = some d) :
    p c + M.total f c as ≤ p d + M.total g c as := by
  induction as generalizing c with
  | nil =>
    obtain rfl : c = d := by simpa using hr
    rfl
  | cons a as ih =>
    obtain ⟨x, hx, hr⟩ := run_cons_eq_some.mp hr
    obtain ⟨hI, hstep⟩ := step c a x h0 hg.1 hx
    have hrest := ih hI (hg.2 x hx) hr
    rw [total_cons hx, total_cons hx]
    omega

/-- A run without end. -/
structure Execution (M : System σ τ α β ε) where
  state : ℕ → Config σ τ ε
  act : ℕ → Act α β
  step : ∀ n, M.next (state n) (act n) = some (state (n + 1))

namespace Execution

variable (E : M.Execution)

def acts (n : ℕ) : List (Act α β) := (List.range n).map E.act

theorem acts_succ (n : ℕ) : E.acts (n + 1) = E.acts n ++ [E.act n] := by
  rw [acts, List.range_succ, List.map_append]
  rfl

theorem run_acts (n : ℕ) : M.run (E.state 0) (E.acts n) = some (E.state n) := by
  induction n with
  | zero => rfl
  | succ n ih =>
    rw [acts_succ]
    exact run_append_eq_some.mpr ⟨E.state n, ih, run_cons_eq_some.mpr ⟨_, E.step n, rfl⟩⟩

theorem meets_acts {G : Config σ τ ε → Act α β → Prop} (h : ∀ n, G (E.state n) (E.act n)) (n : ℕ) :
    M.Meets G (E.state 0) (E.acts n) := by
  induction n with
  | zero => trivial
  | succ n ih =>
    rw [acts_succ, meets_append (E.run_acts n)]
    exact ⟨ih, h n, fun _ _ => trivial⟩

theorem total_acts (n : ℕ) :
    M.total f (E.state 0) (E.acts n) = ∑ k ∈ Finset.range n, f (E.state k) (E.act k) := by
  induction n with
  | zero => rfl
  | succ n ih =>
    rw [acts_succ, total_append (E.run_acts n), total_cons (E.step n), ih, Finset.sum_range_succ]
    rfl

/-- Costs that are bounded by finitely many payments cease. -/
theorem costs_cease {m b : ℕ}
    (hle : ∀ n, M.total f (E.state 0) (E.acts n) ≤ m * M.total g (E.state 0) (E.acts n) + b)
    (hg : {n | g (E.state n) (E.act n) ≠ 0}.Finite) :
    ∃ n, ∀ k, n ≤ k → f (E.state k) (E.act k) = 0 := by
  by_contra hnever
  push Not at hnever
  -- the payments of a prefix are payments of the finite set
  have hpaid : ∀ n, M.total g (E.state 0) (E.acts n) ≤
      ∑ k ∈ hg.toFinset, g (E.state k) (E.act k) := by
    intro n
    rw [total_acts]
    apply Finset.sum_le_sum_of_ne_zero
    intro k _ hk
    exact hg.mem_toFinset.mpr hk
  -- and the costs grow beyond every bound
  have hgrow : ∀ x, ∃ n, x ≤ M.total f (E.state 0) (E.acts n) := by
    intro x
    induction x with
    | zero => exact ⟨0, Nat.zero_le _⟩
    | succ x ih =>
      obtain ⟨n, hn⟩ := ih
      obtain ⟨k, hk, hcost⟩ := hnever n
      refine ⟨k + 1, ?_⟩
      have hmono : M.total f (E.state 0) (E.acts n) ≤ M.total f (E.state 0) (E.acts k) := by
        rw [total_acts, total_acts]
        exact Finset.sum_le_sum_of_subset (Finset.range_mono hk)
      have hsucc : M.total f (E.state 0) (E.acts (k + 1)) =
          M.total f (E.state 0) (E.acts k) + f (E.state k) (E.act k) := by
        rw [total_acts, total_acts, Finset.sum_range_succ]
      omega
  obtain ⟨n, hn⟩ := hgrow (m * (∑ k ∈ hg.toFinset, g (E.state k) (E.act k)) + b + 1)
  have hmul := Nat.mul_le_mul_left m (hpaid n)
  have hbound := hle n
  omega

end Execution

end System

end Interleaving
