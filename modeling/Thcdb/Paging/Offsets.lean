import Thcdb.Paging.Cursors

namespace Paging

variable {α : Type*}

/-- The page after so many rows; the next one starts behind it, when more rows follow. -/
def offsetPage (rows : List α) (limit : ℕ) (cursor : ℤ) : List α × Option ℤ :=
  let found := rows.drop cursor.toNat
  (found.take limit, if limit < found.length then some (cursor + limit) else none)

variable {rows : List α} {limit : ℕ}

theorem offsetPage_last {n : ℕ} (h : rows.length ≤ n + limit) :
    offsetPage rows limit n = (rows.drop n, none) := by
  have hlength : (rows.drop n).length ≤ limit := by
    rw [List.length_drop]
    omega
  rw [offsetPage, Int.toNat_natCast, List.take_of_length_le hlength, if_neg (by omega)]

theorem offsetPage_next {n : ℕ} (h : n + limit < rows.length) :
    offsetPage rows limit n = ((rows.drop n).take limit, some ((n + limit : ℕ) : ℤ)) := by
  have hlength : limit < (rows.drop n).length := by
    rw [List.length_drop]
    omega
  rw [offsetPage, Int.toNat_natCast, if_pos hlength, Int.natCast_add]

/-- What answers with these pages as long as there are rows lists every row once. -/
theorem exists_follows_offset {find : ℤ → Option (List α × Option ℤ)} (hlimit : 0 < limit)
    (hfind : ∀ n : ℕ, n ≤ rows.length → find n = some (offsetPage rows limit n))
    {n : ℕ} (hn : n ≤ rows.length) :
    ∃ pages, Follows find n pages ∧ pages.flatten = rows.drop n := by
  induction hk : rows.length - n using Nat.strong_induction_on generalizing n with
  | _ k ih =>
    have hpage := hfind n hn
    by_cases hmore : n + limit < rows.length
    · rw [offsetPage_next hmore] at hpage
      obtain ⟨pages, hpages, hflat⟩ :=
        ih (rows.length - (n + limit)) (by omega) hmore.le rfl
      refine ⟨(rows.drop n).take limit :: pages, .next hpage hpages, ?_⟩
      rw [List.flatten_cons, hflat, ← List.drop_drop, List.take_append_drop]
    · rw [offsetPage_last (by omega)] at hpage
      exact ⟨[rows.drop n], .last hpage, List.flatten_singleton⟩

end Paging
