import Mathlib.Data.Nat.Notation
import Mathlib.Data.Subtype
import Mathlib.Tactic.SplitIfs
import Thcdb.Fallible.Except

namespace Relational

open Fallible (bind_eq_ok)

universe u
variable {ε : Type*} {S α β : Type u}

section Statements
variable {P : S → Prop}

/-- The tables as the transaction has them, and how many statements it has sent. -/
structure Session (P : S → Prop) where
  tables : {t : S // P t}
  sent : ℕ

variable (refused : ε) (fails : ℕ → Bool)

def query (f : S → α) (s : Session P) : Except ε (α × Session P) :=
  if fails s.sent then .error refused else .ok (f s.tables, ⟨s.tables, s.sent + 1⟩)

/-- The constraints are checked when a statement ends. -/
def execute [DecidablePred P] (f : S → S) (s : Session P) : Except ε (Session P) :=
  if fails s.sent then .error refused
  else if h : P (f s.tables) then .ok ⟨⟨f s.tables, h⟩, s.sent + 1⟩
  else .error refused

def transaction (body : Session P → Except ε (Session P)) (tables : {t : S // P t}) :
    Except ε Unit × {t : S // P t} :=
  match body ⟨tables, 0⟩ with
  | .ok s => (.ok (), s.tables)
  | .error e => (.error e, tables)

end Statements

section Lemmas
variable {P : S → Prop} {refused e : ε} {fails : ℕ → Bool} {s s' : Session P} {x : Except ε α}

theorem query_eq_ok {f : S → α} {r : α × Session P} (h : query refused fails f s = .ok r) :
    r.1 = f s.tables ∧ r.2.tables = s.tables := by
  unfold query at h
  split_ifs at h
  rw [← Except.ok.inj h]
  exact ⟨rfl, rfl⟩

theorem query_of_ready {f : S → α} (h : fails s.sent = false) :
    query refused fails f s = .ok (f s.tables, ⟨s.tables, s.sent + 1⟩) := by
  rw [query, if_neg (by simp [h])]

theorem execute_eq_ok [DecidablePred P] {f : S → S} (h : execute refused fails f s = .ok s') :
    s'.tables.val = f s.tables := by
  unfold execute at h
  split_ifs at h
  rw [← Except.ok.inj h]

theorem transaction_of_ok {body : Session P → Except ε (Session P)} {tables : {t : S // P t}}
    (h : (transaction body tables).1 = .ok ()) :
    ∃ s, body ⟨tables, 0⟩ = .ok s ∧ (transaction body tables).2 = s.tables := by
  unfold transaction at h ⊢
  cases hbody : body ⟨tables, 0⟩ with
  | ok s => exact ⟨s, rfl, rfl⟩
  | error e =>
    rw [hbody] at h
    cases h

/-- A transaction that fails is rolled back. -/
theorem transaction_of_error {body : Session P → Except ε (Session P)} {tables : {t : S // P t}}
    (h : (transaction body tables).1 = .error e) : (transaction body tables).2 = tables := by
  unfold transaction at h ⊢
  cases hbody : body ⟨tables, 0⟩ with
  | ok s =>
    rw [hbody] at h
    cases h
  | error e => rfl

end Lemmas

section Reading
variable {P : S → Prop} {refused : ε} {fails : ℕ → Bool} {s : Session P}
  {x : Except ε (Session P)}

/-- A part of a transaction that changes nothing, and that only a refused statement stops. -/
structure ReadsOnly (fails : ℕ → Bool) (s : Session P) (x : Except ε (Session P)) : Prop where
  tables : ∀ s', x = .ok s' → s'.tables = s.tables
  succeeds : (∀ n, fails n = false) → ∃ s', x = .ok s'

theorem ReadsOnly.ok : ReadsOnly fails s (.ok s : Except ε (Session P)) :=
  ⟨fun _ h => by rw [Except.ok.inj h], fun _ => ⟨s, rfl⟩⟩

theorem ReadsOnly.query {f : S → α} {k : α × Session P → Except ε (Session P)}
    (hk : ∀ s' : Session P, s'.tables = s.tables → ReadsOnly fails s' (k (f s.tables, s'))) :
    ReadsOnly fails s (Relational.query refused fails f s >>= k) := by
  constructor
  · intro s' h
    obtain ⟨⟨a, s₁⟩, hquery, h⟩ := bind_eq_ok.mp h
    obtain ⟨rfl, htables⟩ := query_eq_ok hquery
    rw [(hk s₁ htables).tables s' h, htables]
  · intro hfails
    rw [query_of_ready (hfails s.sent)]
    exact (hk ⟨s.tables, s.sent + 1⟩ rfl).succeeds hfails

theorem ReadsOnly.bind {k : Session P → Except ε (Session P)} (hx : ReadsOnly fails s x)
    (hk : ∀ s' : Session P, s'.tables = s.tables → ReadsOnly fails s' (k s')) :
    ReadsOnly fails s (x >>= k) := by
  constructor
  · intro s' h
    obtain ⟨s₁, hx₁, h⟩ := bind_eq_ok.mp h
    have htables := hx.tables s₁ hx₁
    rw [(hk s₁ htables).tables s' h, htables]
  · intro hfails
    obtain ⟨s₁, hx₁⟩ := hx.succeeds hfails
    rw [hx₁]
    exact (hk s₁ (hx.tables s₁ hx₁)).succeeds hfails

theorem ReadsOnly.transaction {body : Session P → Except ε (Session P)} {tables : {t : S // P t}}
    (h : ReadsOnly fails ⟨tables, 0⟩ (body ⟨tables, 0⟩)) :
    (Relational.transaction body tables).2 = tables ∧
      ((∀ n, fails n = false) → (Relational.transaction body tables).1 = .ok ()) := by
  unfold Relational.transaction
  cases hbody : body ⟨tables, 0⟩ with
  | ok s => exact ⟨h.tables s hbody, fun _ => rfl⟩
  | error e =>
    refine ⟨rfl, fun hfails => ?_⟩
    obtain ⟨s, hs⟩ := h.succeeds hfails
    rw [hbody] at hs
    cases hs

end Reading

end Relational
