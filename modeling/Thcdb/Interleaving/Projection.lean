import Thcdb.Interleaving.History

namespace Interleaving

variable {σ τ α β ε σ' τ' α' β' ε' : Type*}

/-- A step of `N` is a step of its part `M`, or `M` does not notice it. -/
structure Projection (N : System σ' τ' α' β' ε') (M : System σ τ α β ε) where
  config : Config σ' τ' ε' → Config σ τ ε
  act : Act α' β' → Option (Act α β)
  next : ∀ {c a d}, N.next c a = some d →
    (match act a with
      | none => some (config c)
      | some b => M.next (config c) b) = some (config d)

namespace Projection

variable {N : System σ' τ' α' β' ε'} {M : System σ τ α β ε} (p : Projection N M)
  {c d : Config σ' τ' ε'} {as : List (Act α' β')}

/-- The part of a run is a run of the part. -/
theorem run (h : N.run c as = some d) :
    M.run (p.config c) (as.filterMap p.act) = some (p.config d) := by
  induction as generalizing c with
  | nil =>
    obtain rfl : c = d := by simpa using h
    rfl
  | cons a as ih =>
    obtain ⟨x, hx, hr⟩ := System.run_cons_eq_some.mp h
    have hnext := p.next hx
    cases ha : p.act a with
    | none =>
      rw [ha, Option.some.injEq] at hnext
      rw [List.filterMap_cons_none ha, hnext]
      exact ih hr
    | some b =>
      rw [ha] at hnext
      rw [List.filterMap_cons_some ha]
      exact System.run_cons_eq_some.mpr ⟨_, hnext, ih hr⟩

/-- What once held of the part held at a moment of the whole. -/
theorem once {Q : List (Act α β) → Config σ τ ε → Prop} (h : N.run c as = some d)
    (hQ : M.Once (p.config c) Q (as.filterMap p.act)) :
    N.Once c (fun bs x => Q (bs.filterMap p.act) (p.config x)) as := by
  obtain ⟨bs, cs, y, hsplit, hy, hq⟩ := hQ
  obtain ⟨as₁, as₂, rfl, rfl, -⟩ := List.filterMap_eq_append_iff.mp hsplit
  obtain ⟨x, hx, -⟩ := System.run_append_eq_some.mp h
  obtain rfl : p.config x = y := Option.some.inj ((p.run hx).symm.trans hy)
  exact ⟨as₁, as₂, x, rfl, hx, hq⟩

end Projection

end Interleaving
