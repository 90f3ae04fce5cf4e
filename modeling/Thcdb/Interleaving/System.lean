import Mathlib.Logic.Function.Basic
import Mathlib.Data.List.Basic

namespace Interleaving

variable {σ τ α β ε : Type*}

/-- `exec i a s l` is the next statement of call `i` in local state `l`; `a` is what the statement
takes from outside. `env` is what may happen to the shared state between two statements. -/
structure System (σ τ α β ε : Type*) where
  exec : ℕ → α → σ → τ → Option (σ × τ × List ε)
  env : β → σ → Option σ

/-- The shared state, the local state of every call and the events so far, oldest first.
The log is history only: no statement reads it. -/
structure Config (σ τ ε : Type*) where
  shared : σ
  calls : ℕ → τ
  log : List ε

inductive Act (α β : Type*)
  | call (i : ℕ) (a : α)
  | env (b : β)

namespace System

variable (M : System σ τ α β ε)

def next (c : Config σ τ ε) : Act α β → Option (Config σ τ ε)
  | .call i a => (M.exec i a c.shared (c.calls i)).map fun r =>
      ⟨r.1, Function.update c.calls i r.2.1, c.log ++ r.2.2⟩
  | .env b => (M.env b c.shared).map fun s => { c with shared := s }

def run : Config σ τ ε → List (Act α β) → Option (Config σ τ ε)
  | c, [] => some c
  | c, a :: as => (M.next c a).bind fun d => run d as

def after (c : Config σ τ ε) (as : List (Act α β)) : Config σ τ ε := (M.run c as).getD c

def Reachable (c d : Config σ τ ε) : Prop := ∃ as, M.run c as = some d

/-- Every step of the run is taken from a configuration that satisfies `G`. -/
def Meets (G : Config σ τ ε → Act α β → Prop) : Config σ τ ε → List (Act α β) → Prop
  | _, [] => True
  | c, a :: as => G c a ∧ ∀ d, M.next c a = some d → Meets G d as

variable {M} {c d e : Config σ τ ε} {a : Act α β} {as bs : List (Act α β)}

@[simp] theorem run_nil : M.run c [] = some c := rfl

theorem run_cons : M.run c (a :: as) = (M.next c a).bind fun d => M.run d as := rfl

theorem run_cons_eq_some :
    M.run c (a :: as) = some e ↔ ∃ d, M.next c a = some d ∧ M.run d as = some e := by
  simp [run_cons, Option.bind_eq_some_iff]

theorem run_append : M.run c (as ++ bs) = (M.run c as).bind fun d => M.run d bs := by
  induction as generalizing c with
  | nil => rfl
  | cons a as ih =>
    rw [List.cons_append, run_cons, run_cons, Option.bind_assoc]
    congr 1
    funext d
    exact ih

theorem run_append_eq_some :
    M.run c (as ++ bs) = some e ↔ ∃ d, M.run c as = some d ∧ M.run d bs = some e := by
  simp [run_append, Option.bind_eq_some_iff]

theorem run_after (h : (M.run c as).isSome) : M.run c as = some (M.after c as) := by
  obtain ⟨d, hd⟩ := Option.isSome_iff_exists.mp h
  simp [after, hd]

/-- A run that goes through can be cut anywhere. -/
theorem run_after_append (h : (M.run c (as ++ bs)).isSome) :
    M.run c as = some (M.after c as) ∧ M.run (M.after c as) bs = some (M.after c (as ++ bs)) := by
  obtain ⟨d, has, hbs⟩ := run_append_eq_some.mp (run_after h)
  have hd : M.after c as = d := by simp [after, has]
  rw [hd]
  exact ⟨has, hbs⟩

theorem next_call_eq_some {i : ℕ} {x : α} :
    M.next c (.call i x) = some d ↔ ∃ s l es, M.exec i x c.shared (c.calls i) = some (s, l, es) ∧
      d = ⟨s, Function.update c.calls i l, c.log ++ es⟩ := by
  simp only [next, Option.map_eq_some_iff, Prod.exists]
  constructor
  · rintro ⟨s, l, es, h, rfl⟩
    exact ⟨s, l, es, h, rfl⟩
  · rintro ⟨s, l, es, h, rfl⟩
    exact ⟨s, l, es, h, rfl⟩

theorem next_env_eq_some {b : β} :
    M.next c (.env b) = some d ↔ ∃ s, M.env b c.shared = some s ∧ d = { c with shared := s } := by
  simp only [next, Option.map_eq_some_iff]
  exact exists_congr fun s => and_congr_right fun _ => eq_comm

theorem Reachable.trans (h : M.Reachable c d) (h' : M.Reachable d e) : M.Reachable c e := by
  obtain ⟨as, has⟩ := h
  obtain ⟨bs, hbs⟩ := h'
  exact ⟨as ++ bs, run_append_eq_some.mpr ⟨d, has, hbs⟩⟩

theorem Reachable.next (h : M.Reachable c d) (hn : M.next d a = some e) : M.Reachable c e :=
  h.trans ⟨[a], run_cons_eq_some.mpr ⟨e, hn, rfl⟩⟩

theorem meets_of_forall {G : Config σ τ ε → Act α β → Prop} (h : ∀ c, ∀ a ∈ as, G c a) :
    M.Meets G c as := by
  induction as generalizing c with
  | nil => trivial
  | cons a as ih =>
    exact ⟨h c a List.mem_cons_self, fun d _ => ih fun e b hb => h e b (List.mem_cons_of_mem a hb)⟩

theorem meets_append {G : Config σ τ ε → Act α β → Prop} (hr : M.run c as = some d) :
    M.Meets G c (as ++ bs) ↔ M.Meets G c as ∧ M.Meets G d bs := by
  induction as generalizing c with
  | nil =>
    obtain rfl : c = d := by simpa using hr
    simp [Meets]
  | cons a as ih =>
    obtain ⟨x, hx, hr⟩ := run_cons_eq_some.mp hr
    simp only [List.cons_append, Meets, hx, Option.some.injEq, forall_eq', ih hr, and_assoc]

instance decidableMeets (M : System σ τ α β ε) (G : Config σ τ ε → Act α β → Prop)
    [∀ c a, Decidable (G c a)] : ∀ c as, Decidable (M.Meets G c as)
  | _, [] => .isTrue trivial
  | c, a :: as =>
    match h : M.next c a with
    | none => decidable_of_iff (G c a) (by simp [Meets, h])
    | some d =>
      have := decidableMeets M G d as
      decidable_of_iff (G c a ∧ M.Meets G d as) (by simp [Meets, h])

/-- The run rule: what every step of the guarded kind preserves holds in the state a guarded
run ends in, and so in every state it reaches. -/
theorem run_induction {I : Config σ τ ε → Prop} {G : Config σ τ ε → Act α β → Prop}
    (step : ∀ c a d, I c → G c a → M.next c a = some d → I d)
    (h0 : I c) (hg : M.Meets G c as) (hr : M.run c as = some d) : I d := by
  induction as generalizing c with
  | nil =>
    obtain rfl : c = d := by simpa using hr
    exact h0
  | cons a as ih =>
    obtain ⟨x, hx, hr⟩ := run_cons_eq_some.mp hr
    exact ih (step c a x h0 hg.1 hx) (hg.2 x hx) hr

/-- The invariant rule: what holds at the start and survives every step always holds. -/
theorem Reachable.induction {I : Config σ τ ε → Prop}
    (step : ∀ c a d, I c → M.next c a = some d → I d) (h0 : I c) (h : M.Reachable c d) : I d := by
  obtain ⟨as, hr⟩ := h
  have hg : M.Meets (fun _ _ => True) c as := meets_of_forall fun _ _ _ => trivial
  exact run_induction (fun x a y hx _ hn => step x a y hx hn) h0 hg hr

/-- A step appends to the log and never rewrites it. -/
theorem next_log_le (h : M.next c a = some d) : c.log <+: d.log := by
  cases a with
  | call i x =>
    obtain ⟨s, l, es, -, rfl⟩ := next_call_eq_some.mp h
    exact List.prefix_append ..
  | env b =>
    obtain ⟨s, -, rfl⟩ := next_env_eq_some.mp h
    exact List.prefix_rfl

theorem Reachable.log_le (h : M.Reachable c d) : c.log <+: d.log :=
  h.induction (I := fun x => c.log <+: x.log)
    (fun _ _ _ hx hn => hx.trans (next_log_le hn)) List.prefix_rfl

theorem run_log_le (h : M.run c as = some d) : c.log <+: d.log := Reachable.log_le ⟨as, h⟩

/-- An event that a run has logged was logged by one of its steps. -/
theorem exists_step_of_log {x : ε} (h : M.run c as = some d) (hc : x ∉ c.log) (hd : x ∈ d.log) :
    ∃ as₁ a as₂ e f, as = as₁ ++ a :: as₂ ∧ M.run c as₁ = some e ∧ M.next e a = some f ∧
      M.run f as₂ = some d ∧ x ∉ e.log ∧ x ∈ f.log := by
  induction as generalizing c with
  | nil =>
    obtain rfl : c = d := by simpa using h
    exact absurd hd hc
  | cons a as ih =>
    obtain ⟨f, hn, hr⟩ := run_cons_eq_some.mp h
    by_cases hf : x ∈ f.log
    · exact ⟨[], a, as, c, f, rfl, rfl, hn, hr, hc, hf⟩
    · obtain ⟨as₁, b, as₂, e, g, rfl, he, hg, hd, hx, hy⟩ := ih hr hf
      exact ⟨a :: as₁, b, as₂, e, g, rfl, run_cons_eq_some.mpr ⟨f, hn, he⟩, hg, hd, hx, hy⟩

end System

end Interleaving
