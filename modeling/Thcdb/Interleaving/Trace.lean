import Thcdb.Interleaving.System

namespace Interleaving

variable {σ τ α β ε : Type*}

/-- `P` holds of every event of the log and the events before it. -/
def Always (P : List ε → ε → Prop) (log : List ε) : Prop :=
  ∀ before e after, log = before ++ e :: after → P before e

namespace Always

variable {P : List ε → ε → Prop} {log es : List ε} {e : ε}

@[simp] theorem nil : Always P [] := by
  intro before e after h
  simp at h

theorem snoc (h : Always P log) (he : P log e) : Always P (log ++ [e]) := by
  intro before x after heq
  rcases List.eq_nil_or_concat after with rfl | ⟨after, y, rfl⟩
  · obtain ⟨rfl, hx⟩ := List.append_inj' heq rfl
    rw [← List.singleton_inj.mp hx]
    exact he
  · have hcons : before ++ x :: after.concat y = (before ++ x :: after) ++ [y] := by simp
    rw [hcons] at heq
    exact h before x after (List.append_inj_left' heq rfl)

/-- A step that logs at most one event. -/
theorem append (h : Always P log) (hes : es = [] ∨ ∃ e, es = [e] ∧ P log e) :
    Always P (log ++ es) := by
  rcases hes with rfl | ⟨e, rfl, he⟩
  · rwa [List.append_nil]
  · exact h.snoc he

variable {M : System σ τ α β ε} {c d : Config σ τ ε} {a : Act α β}

/-- A step keeps `P` of every event if the statement it runs logs in accordance with `P`. -/
theorem next (h : Always P c.log) (hn : M.next c a = some d)
    (step : ∀ i x s l es, a = .call i x → M.exec i x c.shared (c.calls i) = some (s, l, es) →
      es = [] ∨ ∃ e, es = [e] ∧ P c.log e) : Always P d.log := by
  cases a with
  | call i x =>
    obtain ⟨s, l, es, he, rfl⟩ := System.next_call_eq_some.mp hn
    exact h.append (step i x s l es rfl he)
  | env b =>
    obtain ⟨s, -, rfl⟩ := System.next_env_eq_some.mp hn
    exact h

end Always

def Act.Within (L : List ℕ) : Act α β → Prop
  | .call i _ => i ∈ L
  | .env _ => True

instance (L : List ℕ) : DecidablePred (Act.Within (α := α) (β := β) L)
  | .call i _ => inferInstanceAs (Decidable (i ∈ L))
  | .env _ => inferInstanceAs (Decidable True)

namespace System

variable {M : System σ τ α β ε} {G H : Config σ τ ε → Act α β → Prop} {c d : Config σ τ ε}
  {a : Act α β} {as : List (Act α β)}

theorem meets_and (hG : M.Meets G c as) (hH : M.Meets H c as) :
    M.Meets (fun c a => G c a ∧ H c a) c as := by
  induction as generalizing c with
  | nil => trivial
  | cons a as ih => exact ⟨⟨hG.1, hH.1⟩, fun d hd => ih (hG.2 d hd) (hH.2 d hd)⟩

/-- A guard that an invariant enforces holds along every run on which the invariant survives. -/
theorem meets_of_invariant {I : Config σ τ ε → Prop}
    (step : ∀ c a d, I c → G c a → M.next c a = some d → I d)
    (hH : ∀ c a, I c → G c a → H c a) (h0 : I c) (h : M.Meets G c as) : M.Meets H c as := by
  induction as generalizing c with
  | nil => trivial
  | cons a as ih => exact ⟨hH c a h0 h.1, fun d hd => ih (step c a d h0 h.1 hd) (h.2 d hd)⟩

/-- A call that does not act stays where it is. -/
theorem next_calls {L : List ℕ} {j : ℕ} (ha : a.Within L) (hj : j ∉ L) (hn : M.next c a = some d) :
    d.calls j = c.calls j := by
  cases a with
  | call i x =>
    obtain ⟨s, l, es, -, rfl⟩ := next_call_eq_some.mp hn
    have hne : j ≠ i := fun h => hj (h ▸ ha)
    exact Function.update_of_ne hne ..
  | env b =>
    obtain ⟨s, -, rfl⟩ := next_env_eq_some.mp hn
    rfl

theorem run_calls {L : List ℕ} {j : ℕ} (has : ∀ a ∈ as, a.Within L) (hj : j ∉ L)
    (hr : M.run c as = some d) : d.calls j = c.calls j := by
  induction as generalizing c with
  | nil =>
    obtain rfl : c = d := by simpa using hr
    rfl
  | cons a as ih =>
    obtain ⟨x, hx, hr⟩ := run_cons_eq_some.mp hr
    rw [ih (fun b hb => has b (List.mem_cons_of_mem a hb)) hr]
    exact next_calls (has a List.mem_cons_self) hj hx

/-- A guard over all calls follows from one over the calls that act, if the rest are idle. -/
theorem meets_of_within {L : List ℕ} {l : τ}
    (hGH : ∀ c a, (∀ j, j ∉ L → c.calls j = l) → G c a → H c a)
    (hc : ∀ j, j ∉ L → c.calls j = l) (has : ∀ a ∈ as, a.Within L) (h : M.Meets G c as) :
    M.Meets H c as := by
  induction as generalizing c with
  | nil => trivial
  | cons a as ih =>
    refine ⟨hGH c a hc h.1, fun d hd => ?_⟩
    have hd' : ∀ j, j ∉ L → d.calls j = l := by
      intro j hj
      rw [next_calls (has a List.mem_cons_self) hj hd]
      exact hc j hj
    exact ih hd' (fun b hb => has b (List.mem_cons_of_mem a hb)) (h.2 d hd)

end System

end Interleaving
