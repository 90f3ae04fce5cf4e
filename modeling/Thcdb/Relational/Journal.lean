import Mathlib.Data.List.Induction
import Thcdb.Relational.Table

namespace Relational

variable {ε C : Type*}

/-- What a statement does to a table: what it makes of a row that is there, nothing where it deletes
the row, and the rows that it adds. -/
structure Journal (ε C : Type*) where
  keeps : ε → Row C → Option (Row C)
  adds : ε → List (Row C)

namespace Journal

variable (J : Journal ε C)

def apply (e : ε) (rows : List (Row C)) : List (Row C) := rows.filterMap (J.keeps e) ++ J.adds e

def rows (log : List ε) : List (Row C) := log.foldl (fun rows e => J.apply e rows) []

/-- What the statements of a log, the first one first, have made of a row. -/
def fate (log : List ε) (r : Row C) : Option (Row C) := log.foldlM (fun r e => J.keeps e r) r

variable {J} {log before after : List ε} {e : ε} {r made : Row C}

@[simp] theorem rows_nil : J.rows [] = [] := rfl

@[simp] theorem rows_snoc : J.rows (log ++ [e]) = J.apply e (J.rows log) := by
  simp [rows]

@[simp] theorem fate_nil : J.fate [] r = some r := rfl

theorem fate_cons : J.fate (e :: log) r = (J.keeps e r).bind (J.fate log) := rfl

theorem fate_snoc : J.fate (log ++ [e]) r = (J.fate log r).bind (J.keeps e) := by
  simp [fate, List.foldlM_append]

/-- The rows of the table are what has become of the rows that were ever added. -/
theorem mem_rows : r ∈ J.rows log ↔ ∃ before e after made, log = before ++ e :: after ∧
    made ∈ J.adds e ∧ J.fate after made = some r := by
  induction log using List.reverseRecOn generalizing r with
  | nil => simp
  | append_singleton log e ih =>
    rw [rows_snoc, apply, List.mem_append, List.mem_filterMap]
    constructor
    · rintro (⟨q, hq, hr⟩ | hr)
      · obtain ⟨before, x, after, made, rfl, hmade, hfate⟩ := ih.mp hq
        refine ⟨before, x, after ++ [e], made, by simp, hmade, ?_⟩
        rw [fate_snoc, hfate]
        exact hr
      · exact ⟨log, e, [], r, rfl, hr, rfl⟩
    · rintro ⟨before, x, after, made, hlog, hmade, hfate⟩
      rcases List.eq_nil_or_concat after with rfl | ⟨after, y, rfl⟩
      · -- the row was added last
        obtain ⟨-, hx⟩ := List.append_inj' hlog rfl
        obtain rfl : made = r := by simpa using hfate
        rw [List.singleton_inj.mp hx]
        exact .inr hmade
      · have hsplit : log ++ [e] = (before ++ x :: after) ++ [y] := by simpa using hlog
        obtain ⟨rfl, hy⟩ := List.append_inj' hsplit rfl
        rw [← List.singleton_inj.mp hy, List.concat_eq_append, fate_snoc] at hfate
        obtain ⟨q, hq, hr⟩ := Option.bind_eq_some_iff.mp hfate
        exact .inl ⟨q, ih.mpr ⟨before, x, after, made, rfl, hmade, hq⟩, hr⟩

end Journal

end Relational
