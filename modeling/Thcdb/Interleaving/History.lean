import Mathlib.Data.List.Induction
import Thcdb.Interleaving.System

namespace Interleaving

variable {σ τ α β ε : Type*}

namespace System

variable {M : System σ τ α β ε} {c d : Config σ τ ε} {as : List (Act α β)}

/-- The history rule: what holds before the first step and survives every step, whatever was
done before it, holds of the steps of every run and the state they lead to. -/
theorem run_history {I : List (Act α β) → Config σ τ ε → Prop}
    (step : ∀ bs x a y, I bs x → M.next x a = some y → I (bs ++ [a]) y)
    (h0 : I [] c) (h : M.run c as = some d) : I as d := by
  induction as using List.reverseRecOn generalizing d with
  | nil =>
    obtain rfl : c = d := by simpa using h
    exact h0
  | append_singleton as a ih =>
    obtain ⟨x, hx, ha⟩ := run_append_eq_some.mp h
    obtain ⟨y, hy, hd⟩ := run_cons_eq_some.mp ha
    obtain rfl : y = d := by simpa using hd
    exact step as x a y (ih hx) hy

section Once

variable {Q R : List (Act α β) → Config σ τ ε → Prop}

/-- At some moment of a run that began at `c`, `Q` held of the steps until then and of the state they
had led to. -/
def Once (M : System σ τ α β ε) (c : Config σ τ ε) (Q : List (Act α β) → Config σ τ ε → Prop)
    (as : List (Act α β)) : Prop :=
  ∃ bs cs d, as = bs ++ cs ∧ M.run c bs = some d ∧ Q bs d

theorem once_of_run (h : M.run c as = some d) (hQ : Q as d) : M.Once c Q as :=
  ⟨as, [], d, by simp, h, hQ⟩

/-- What was, was also in the view of later moments. -/
theorem Once.append (h : M.Once c Q as) (bs : List (Act α β)) : M.Once c Q (as ++ bs) := by
  obtain ⟨cs, ds, d, rfl, hr, hQ⟩ := h
  exact ⟨cs, ds ++ bs, d, List.append_assoc .., hr, hQ⟩

theorem Once.imp (h : M.Once c Q as)
    (hQR : ∀ bs d, bs <+: as → M.run c bs = some d → Q bs d → R bs d) : M.Once c R as := by
  obtain ⟨bs, cs, d, rfl, hr, hQ⟩ := h
  exact ⟨bs, cs, d, rfl, hr, hQR bs d (List.prefix_append ..) hr hQ⟩

/-- Nothing that was logged at an earlier moment is lost. -/
theorem log_subset_of_run {bs : List (Act α β)} (hle : bs <+: as) (hb : M.run c bs = some d)
    {e : Config σ τ ε} (ha : M.run c as = some e) : d.log ⊆ e.log := by
  obtain ⟨cs, rfl⟩ := hle
  obtain ⟨x, hx, hr⟩ := run_append_eq_some.mp ha
  obtain rfl : x = d := Option.some.inj (hx.symm.trans hb)
  exact (run_log_le hr).subset

end Once

end System

end Interleaving
