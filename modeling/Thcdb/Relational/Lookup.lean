import Mathlib.Data.List.Basic
import Mathlib.Logic.Function.Basic

namespace Relational

section Index
variable {K R : Type*} [DecidableEq K] {key : R → K} {rows : List R} {k : K} {r : R}

/-- The rows by their keys; of rows with the same key the last one stays. -/
def indexBy (key : R → K) (rows : List R) : K → Option R :=
  rows.foldl (fun acc r => Function.update acc (key r) (some r)) fun _ => none

theorem foldl_update_eq (h : ∀ r ∈ rows, ∀ s ∈ rows, key r = key s → r = s) (acc : K → Option R) :
    rows.foldl (fun acc r => Function.update acc (key r) (some r)) acc k = some r ↔
      (r ∈ rows ∧ key r = k) ∨ ((∀ s ∈ rows, key s ≠ k) ∧ acc k = some r) := by
  induction rows generalizing acc with
  | nil => simp
  | cons s rows ih =>
    have hrest : ∀ r ∈ rows, ∀ s ∈ rows, key r = key s → r = s := fun r hr s hs =>
      h r (List.mem_cons_of_mem _ hr) s (List.mem_cons_of_mem _ hs)
    rw [List.foldl_cons, ih hrest]
    by_cases hk : key s = k
    · subst hk
      have hsame : ∀ r ∈ rows, key r = key s → r = s := fun r hr =>
        h r (List.mem_cons_of_mem _ hr) s List.mem_cons_self
      simp only [Function.update_self, Option.some.injEq, List.mem_cons]
      constructor
      · rintro (⟨hr, hkey⟩ | ⟨-, rfl⟩)
        · exact .inl ⟨.inr hr, hkey⟩
        · exact .inl ⟨.inl rfl, rfl⟩
      · rintro (⟨rfl | hr, hkey⟩ | ⟨hne, -⟩)
        · by_cases hmem : r ∈ rows
          · exact .inl ⟨hmem, rfl⟩
          · exact .inr ⟨fun t ht heq => hmem (hsame t ht heq ▸ ht), rfl⟩
        · exact .inl ⟨hr, hkey⟩
        · exact absurd rfl (hne s (.inl rfl))
    · rw [Function.update_of_ne (Ne.symm hk)]
      simp only [List.mem_cons]
      constructor
      · rintro (⟨hr, hkey⟩ | ⟨hne, hacc⟩)
        · exact .inl ⟨.inr hr, hkey⟩
        · exact .inr ⟨fun t ht => ht.elim (fun heq => heq ▸ hk) (hne t), hacc⟩
      · rintro (⟨rfl | hr, hkey⟩ | ⟨hne, hacc⟩)
        · exact absurd hkey hk
        · exact .inl ⟨hr, hkey⟩
        · exact .inr ⟨fun t ht => hne t (.inr ht), hacc⟩

/-- Where the keys tell the rows apart, each row is found. -/
theorem indexBy_eq_some_iff (h : ∀ r ∈ rows, ∀ s ∈ rows, key r = key s → r = s) :
    indexBy key rows k = some r ↔ r ∈ rows ∧ key r = k := by
  simp [indexBy, foldl_update_eq h]

end Index

section Tuples
variable {V : Type*} [DecidableEq V] {as bs : List (Option V)}

/-- The comparison of row values, which is true only where nothing is `NULL`. -/
def tupleEq : List (Option V) → List (Option V) → Bool
  | [], [] => true
  | some a :: as, some b :: bs => a = b && tupleEq as bs
  | _, _ => false

theorem tupleEq_iff : tupleEq as bs ↔ as = bs ∧ none ∉ as := by
  induction as generalizing bs with
  | nil => cases bs <;> simp [tupleEq]
  | cons a as ih =>
    cases bs with
    | nil => cases a <;> simp [tupleEq]
    | cons b bs =>
      cases a with
      | none => simp [tupleEq]
      | some a => cases b <;> simp [tupleEq, ih, and_assoc]

end Tuples

end Relational
