import Mathlib.Data.List.Sort
import Thcdb.Paging.Cursors

namespace Paging

variable {α β γ : Type*}

/-- The pages of a listing: the first has no cursor, and each of the others that of the page before
it, up to one that has none for a next. -/
inductive Walks (find : Option ℤ → List β × Option ℤ) : Option ℤ → List (List β) → Prop
  | last {cursor : Option ℤ} {page : List β} :
      find cursor = (page, none) → Walks find cursor [page]
  | next {cursor : Option ℤ} {following : ℤ} {page : List β} {pages : List (List β)} :
      find cursor = (page, some following) → Walks find (some following) pages →
        Walks find cursor (page :: pages)

section Seek
variable (before : ℤ → ℤ → Prop) [DecidableRel before] (key : α → ℤ) (rows : List α) (limit : ℕ)

def behind (cursor : Option ℤ) : List α :=
  rows.filter fun x => cursor.all fun c => before c (key x)

/-- The rows behind a cursor, up to the limit, and if there are more, the last key. -/
def seekPage (cursor : Option ℤ) : List α × Option ℤ :=
  let found := behind before key rows cursor
  (found.take limit, if limit < found.length then (found.take limit).getLast?.map key else none)

end Seek

section Rows
variable {before : ℤ → ℤ → Prop} [DecidableRel before] {key : α → ℤ} {rows : List α} {limit k : ℕ}
  {x : α} {cursor : Option ℤ}

@[simp] theorem behind_none : behind before key rows none = rows := by
  simp [behind]

theorem mem_behind : x ∈ behind before key rows cursor ↔
    x ∈ rows ∧ ∀ c ∈ cursor, before c (key x) := by
  cases cursor <;> simp [behind]

theorem pairwise_behind (hsorted : rows.Pairwise fun x y => before (key x) (key y)) :
    (behind before key rows cursor).Pairwise fun x y => before (key x) (key y) :=
  hsorted.filter _

variable [Std.Asymm before]

/-- Behind the key of a row are the rows that follow it. -/
theorem behind_key (hsorted : rows.Pairwise fun x y => before (key x) (key y))
    (hx : rows[k]? = some x) : behind before key rows (some (key x)) = rows.drop (k + 1) := by
  induction rows generalizing k with
  | nil => cases hx
  | cons y rows ih =>
    obtain ⟨hy, hrows⟩ := List.pairwise_cons.mp hsorted
    rw [List.drop_succ_cons]
    cases k with
    | zero =>
      obtain rfl := Option.some.inj hx
      have hself : ¬before (key y) (key y) := fun h => Std.Asymm.asymm _ _ h h
      rw [behind, List.filter_cons_of_neg (by simpa using hself), List.drop_zero]
      exact List.filter_eq_self.mpr fun z hz => by simpa using hy z hz
    | succ k =>
      have hback : ¬before (key x) (key y) := Std.Asymm.asymm _ _ (hy x (List.mem_of_getElem? hx))
      rw [behind, List.filter_cons_of_neg (by simpa using hback)]
      exact ih hrows hx

/-- A sorted list with the rows behind the cursor is the list of the rows behind it. -/
theorem eq_behind {found : List α} (hsorted : rows.Pairwise fun x y => before (key x) (key y))
    (hfound : found.Pairwise fun x y => before (key x) (key y))
    (hmem : ∀ x, x ∈ found ↔ x ∈ rows ∧ ∀ c ∈ cursor, before c (key x)) :
    found = behind before key rows cursor := by
  have hasymm : Std.Antisymm fun x y => before (key x) (key y) :=
    ⟨fun _ _ h h' => absurd h' (Std.Asymm.asymm _ _ h)⟩
  have hirrefl : Std.Irrefl fun x y => before (key x) (key y) :=
    ⟨fun _ h => Std.Asymm.asymm _ _ h h⟩
  exact List.Pairwise.eq_of_mem_iff hfound (pairwise_behind hsorted) fun x => by
    rw [hmem, mem_behind]

/-- The pages show the rows behind a cursor, and all but the last are full. -/
theorem exists_walks_seek (hlimit : 0 < limit)
    (hsorted : rows.Pairwise fun x y => before (key x) (key y))
    (hcursor : behind before key rows cursor = rows.drop k) :
    ∃ pages, Walks (seekPage before key rows limit) cursor pages ∧ pages.flatten = rows.drop k ∧
      ∀ page ∈ pages.dropLast, page.length = limit := by
  induction hn : (rows.drop k).length using Nat.strong_induction_on generalizing k cursor with
  | _ n ih =>
    by_cases hmore : limit < (rows.drop k).length
    · have hlength := hmore
      rw [List.length_drop] at hlength hn
      obtain ⟨x, hx⟩ : ∃ x, rows[k + (limit - 1)]? = some x :=
        ⟨_, List.getElem?_eq_getElem (by omega)⟩
      have hlast : ((rows.drop k).take limit).getLast? = some x := by
        rw [List.getLast?_eq_getElem?, List.length_take, Nat.min_eq_left hmore.le,
          List.getElem?_take_of_lt (by omega), List.getElem?_drop, hx]
      have hpage : seekPage before key rows limit cursor =
          ((rows.drop k).take limit, some (key x)) := by
        rw [seekPage, hcursor, if_pos hmore, hlast]
        rfl
      have hsucc : k + (limit - 1) + 1 = k + limit := by omega
      have hnext := behind_key hsorted hx
      rw [hsucc] at hnext
      obtain ⟨pages, hpages, hflat, hfull⟩ :=
        ih (rows.drop (k + limit)).length (by rw [List.length_drop]; omega) hnext rfl
      refine ⟨(rows.drop k).take limit :: pages, .next hpage hpages, ?_, ?_⟩
      · rw [List.flatten_cons, hflat, ← List.drop_drop, List.take_append_drop]
      · have hne : pages ≠ [] := by cases hpages <;> simp
        rw [List.dropLast_cons_of_ne_nil hne]
        refine List.forall_mem_cons.mpr ⟨?_, hfull⟩
        rw [List.length_take, Nat.min_eq_left hmore.le]
    · have hpage : seekPage before key rows limit cursor = (rows.drop k, none) := by
        rw [seekPage, hcursor, if_neg hmore, List.take_of_length_le (by omega)]
      exact ⟨[rows.drop k], .last hpage, List.flatten_singleton, by simp⟩

end Rows

/-- What answers with the same cursors and shows the same on its pages can be walked as well. -/
theorem Walks.transfer {find : Option ℤ → List α × Option ℤ} {find' : Option ℤ → List β × Option ℤ}
    {item : α → γ} {view : β → γ}
    (hfind : ∀ c, (find' c).1.map view = (find c).1.map item ∧ (find' c).2 = (find c).2)
    {cursor : Option ℤ} {pages : List (List α)} (h : Walks find cursor pages) :
    ∃ shown, Walks find' cursor shown ∧ shown.map (List.map view) = pages.map (List.map item) := by
  induction h with
  | @last cursor page hpage =>
    obtain ⟨hitems, hnext⟩ := hfind cursor
    rw [hpage] at hitems hnext
    exact ⟨[(find' cursor).1], .last (Prod.ext rfl hnext), by simp [hitems]⟩
  | @next cursor following page pages hpage _ ih =>
    obtain ⟨hitems, hnext⟩ := hfind cursor
    rw [hpage] at hitems hnext
    obtain ⟨shown, hshown, hmap⟩ := ih
    exact ⟨(find' cursor).1 :: shown, .next (Prod.ext rfl hnext) hshown, by simp [hitems, hmap]⟩

end Paging
