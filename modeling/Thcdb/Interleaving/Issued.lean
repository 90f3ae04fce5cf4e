import Mathlib.Data.Int.Order.Basic
import Thcdb.Interleaving.System

namespace Interleaving

variable {σ τ α β ε R T P : Type*}

section Rows

variable (kind : R → T) (key : R → ℤ) (part : R → P)

/-- Two versions of one row: they differ in columns that may change. -/
def SameRow (r s : R) : Prop := kind r = kind s ∧ key r = key s ∧ part r = part s

/-- Every key is behind its sequence, and rows of one key agree on `part`. -/
structure Issued (rows : Set R) (seq : T → ℤ) : Prop where
  lt : ∀ r ∈ rows, key r < seq (kind r)
  eq : ∀ r ∈ rows, ∀ s ∈ rows, kind r = kind s → key r = key s → part r = part s

/-- Rows are kept, changed, moved or dropped, or the next key is drawn for one more. -/
def Draws [DecidableEq T] (before after : Set R) (seq seq' : T → ℤ) : Prop :=
  (∀ r ∈ after, ∃ s ∈ before, SameRow kind key part r s) ∧ seq' = seq ∨
  ∃ t x, (∀ r ∈ after, (∃ s ∈ before, SameRow kind key part r s) ∨
      kind r = t ∧ key r = seq t ∧ part r = x) ∧
    seq' = Function.update seq t (seq t + 1)

variable {kind key part} {rows rows' : Set R} {seq seq' : T → ℤ}

theorem SameRow.refl (r : R) : SameRow kind key part r r := ⟨rfl, rfl, rfl⟩

theorem Issued.of_same (h : Issued kind key part rows seq)
    (hrows : ∀ r ∈ rows', ∃ s ∈ rows, SameRow kind key part r s) :
    Issued kind key part rows' seq where
  lt r hr := by
    obtain ⟨s, hs, hkind, hkey, -⟩ := hrows r hr
    rw [hkind, hkey]
    exact h.lt s hs
  eq r hr s hs hkinds hkeys := by
    obtain ⟨r', hr', hkind, hkey, hpart⟩ := hrows r hr
    obtain ⟨s', hs', hkind', hkey', hpart'⟩ := hrows s hs
    rw [hpart, hpart']
    apply h.eq r' hr' s' hs'
    · rw [← hkind, hkinds, hkind']
    · rw [← hkey, hkeys, hkey']

variable [DecidableEq T]

theorem le_draw (seq : T → ℤ) (t u : T) : seq u ≤ Function.update seq t (seq t + 1) u := by
  by_cases hu : u = t
  · subst hu
    rw [Function.update_self]
    exact le_of_lt (Int.lt_succ _)
  · rw [Function.update_of_ne hu]

/-- The key drawn is no other row's. -/
theorem Issued.draws (h : Issued kind key part rows seq)
    (hd : Draws kind key part rows rows' seq seq') : Issued kind key part rows' seq' := by
  rcases hd with ⟨hrows, rfl⟩ | ⟨t, x, hrows, rfl⟩
  · exact h.of_same hrows
  · have hold : ∀ r ∈ rows', (∃ s ∈ rows, SameRow kind key part r s) → key r < seq (kind r) := by
      rintro r - ⟨s, hs, hkind, hkey, -⟩
      rw [hkind, hkey]
      exact h.lt s hs
    have hne : ∀ r ∈ rows', (∃ s ∈ rows, SameRow kind key part r s) → ∀ s : R, kind s = t →
        key s = seq t → kind r = kind s → key r ≠ key s := by
      intro r hr hsame s hkind hkey hkinds hkeys
      have hlt := hold r hr hsame
      rw [hkinds, hkind, hkeys, hkey] at hlt
      exact lt_irrefl _ hlt
    refine ⟨?_, ?_⟩
    · intro r hr
      rcases hrows r hr with hsame | ⟨hkind, hkey, -⟩
      · exact lt_of_lt_of_le (hold r hr hsame) (le_draw ..)
      · rw [hkind, hkey, Function.update_self]
        exact Int.lt_succ _
    · intro r hr s hs hkinds hkeys
      rcases hrows r hr with hr' | ⟨hkind, hkey, hpart⟩
      · rcases hrows s hs with hs' | ⟨hkind, hkey, -⟩
        · obtain ⟨r₀, hr₀, hkind, hkey, hpart⟩ := hr'
          obtain ⟨s₀, hs₀, hkind', hkey', hpart'⟩ := hs'
          rw [hpart, hpart']
          apply h.eq r₀ hr₀ s₀ hs₀
          · rw [← hkind, hkinds, hkind']
          · rw [← hkey, hkeys, hkey']
        · exact absurd hkeys (hne r hr hr' s hkind hkey hkinds)
      · rcases hrows s hs with hs' | ⟨-, -, hpart'⟩
        · exact absurd hkeys.symm (hne s hs hs' r hkind hkey hkinds.symm)
        · rw [hpart, hpart']

theorem Draws.union {before after : Set R} (h : Draws kind key part before after seq seq')
    (rest : Set R) : Draws kind key part (before ∪ rest) (after ∪ rest) seq seq' := by
  have hrest : ∀ r ∈ rest, ∃ s ∈ before ∪ rest, SameRow kind key part r s :=
    fun r hr => ⟨r, Or.inr hr, .refl r⟩
  have hbefore : ∀ r, (∃ s ∈ before, SameRow kind key part r s) →
      ∃ s ∈ before ∪ rest, SameRow kind key part r s :=
    fun r ⟨s, hs, hsame⟩ => ⟨s, Or.inl hs, hsame⟩
  rcases h with ⟨hrows, hseq⟩ | ⟨t, x, hrows, hseq⟩
  · refine Or.inl ⟨?_, hseq⟩
    rintro r (hr | hr)
    · exact hbefore r (hrows r hr)
    · exact hrest r hr
  · refine Or.inr ⟨t, x, ?_, hseq⟩
    rintro r (hr | hr)
    · exact (hrows r hr).imp_left (hbefore r)
    · exact Or.inl (hrest r hr)

/-- A table that changes its rows, beside a call that may add a row under the next key. -/
theorem Draws.of_table {own own' : Set R}
    (hrows : ∀ r ∈ rows', ∃ s ∈ rows ∪ own, SameRow kind key part r s)
    (hown : own' ⊆ own ∧ seq' = seq ∨ ∃ x, (∀ r ∈ own', r ∈ own ∨ r = x) ∧
      key x = seq (kind x) ∧ seq' = Function.update seq (kind x) (seq (kind x) + 1)) :
    Draws kind key part (rows ∪ own) (rows' ∪ own') seq seq' := by
  have hkept : ∀ r ∈ own, ∃ s ∈ rows ∪ own, SameRow kind key part r s :=
    fun r hr => ⟨r, Or.inr hr, .refl r⟩
  rcases hown with ⟨hown, hseq⟩ | ⟨x, hown, hkey, hseq⟩
  · refine Or.inl ⟨?_, hseq⟩
    rintro r (hr | hr)
    · exact hrows r hr
    · exact hkept r (hown hr)
  · refine Or.inr ⟨kind x, part x, ?_, hseq⟩
    rintro r (hr | hr)
    · exact Or.inl (hrows r hr)
    · rcases hown r hr with hr | rfl
      · exact Or.inl (hkept r hr)
      · exact Or.inr ⟨rfl, hkey, rfl⟩

end Rows

section Runs

variable [DecidableEq T] {kind : R → T} {key : R → ℤ} {part : R → P}
  {M : System σ τ α β ε} {table : σ → Set R} {own : τ → Set R} {seq : σ → T → ℤ}
  {c d : Config σ τ ε} {a : Act α β}

/-- The rows of the table, and those that some call is about to add to it. -/
def everywhere (table : σ → Set R) (own : τ → Set R) (c : Config σ τ ε) : Set R :=
  {r | r ∈ table c.shared ∨ ∃ i, r ∈ own (c.calls i)}

/-- The rows that other calls are about to add. -/
def elsewhere (own : τ → Set R) (c : Config σ τ ε) (i : ℕ) : Set R :=
  {r | ∃ j, j ≠ i ∧ r ∈ own (c.calls j)}

theorem everywhere_update (table : σ → Set R) (own : τ → Set R) (c : Config σ τ ε) (i : ℕ) (s : σ)
    (l : τ) (log : List ε) :
    everywhere table own ⟨s, Function.update c.calls i l, log⟩ =
      table s ∪ own l ∪ elsewhere own c i := by
  ext r
  constructor
  · rintro (hr | ⟨j, hr⟩)
    · exact Or.inl (Or.inl hr)
    · by_cases hj : j = i
      · subst hj
        exact Or.inl (Or.inr (by simpa using hr))
      · exact Or.inr ⟨j, hj, by simpa [hj] using hr⟩
  · rintro ((hr | hr) | ⟨j, hj, hr⟩)
    · exact Or.inl hr
    · exact Or.inr ⟨i, by simpa using hr⟩
    · exact Or.inr ⟨j, by simpa [hj] using hr⟩

variable (seq) in
/-- Keys tell rows apart through any interleaving of statements that draw a fresh one for each row
they add. -/
theorem Issued.next (h : Issued kind key part (everywhere table own c) (seq c.shared))
    (hexec : ∀ i x w l s l' es, M.exec i x w l = some (s, l', es) →
      Draws kind key part (table w ∪ own l) (table s ∪ own l') (seq w) (seq s))
    (henv : ∀ b w s, M.env b w = some s → table s = table w ∧ seq s = seq w)
    (hn : M.next c a = some d) :
    Issued kind key part (everywhere table own d) (seq d.shared) := by
  cases a with
  | env b =>
    obtain ⟨s, hs, rfl⟩ := System.next_env_eq_some.mp hn
    obtain ⟨htable, hseq⟩ := henv b _ _ hs
    have hrows : everywhere table own { c with shared := s } = everywhere table own c := by
      simp only [everywhere, htable]
    rw [hrows, hseq]
    exact h
  | call i x =>
    obtain ⟨s, l, es, he, rfl⟩ := System.next_call_eq_some.mp hn
    have hbefore := everywhere_update table own c i c.shared (c.calls i) c.log
    rw [Function.update_eq_self] at hbefore
    rw [everywhere_update]
    apply h.draws
    rw [hbefore]
    exact (hexec i x _ _ _ _ _ he).union _

end Runs

end Interleaving
