import Mathlib.Data.List.Basic
import Mathlib.Data.List.Infix
import Mathlib.Order.Basic
import Mathlib.Algebra.Order.Ring.Nat

namespace Paging

variable {α β : Type*}

/-- The pages from a cursor on, up to one without a cursor. -/
inductive Follows (find : ℤ → Option (List β × Option ℤ)) : ℤ → List (List β) → Prop
  | last {cursor : ℤ} {page : List β} :
      find cursor = some (page, none) → Follows find cursor [page]
  | next {cursor following : ℤ} {page : List β} {pages : List (List β)} :
      find cursor = some (page, some following) → Follows find following pages →
        Follows find cursor (page :: pages)

/-- The page after a cursor; the key of its last row is the next cursor, when more rows follow. -/
def cursorPage (key : α → ℤ) (rows : List α) (limit : ℕ) (cursor : ℤ) : List α × Option ℤ :=
  let found := rows.filter fun r => cursor < key r
  (found.take limit, if limit < found.length then (found.take limit).getLast?.map key else none)

def repeated (w : α → ℕ) (xs : List α) : List α := xs.flatMap fun x => List.replicate (w x) x

section Repeated
variable {w : α → ℕ} {x : α} {xs : List α} {n : ℕ} {key : α → ℤ}

@[simp] theorem repeated_nil : repeated w [] = [] := rfl

theorem repeated_cons : repeated w (x :: xs) = List.replicate (w x) x ++ repeated w xs :=
  List.flatMap_cons

theorem mem_of_mem_repeated (h : x ∈ repeated w xs) : x ∈ xs := by
  obtain ⟨y, hy, hx⟩ := List.mem_flatMap.mp h
  rwa [List.eq_of_mem_replicate hx]

theorem mem_repeated (h : x ∈ xs) (hw : 0 < w x) : x ∈ repeated w xs :=
  List.mem_flatMap.mpr ⟨x, h, List.mem_replicate.mpr ⟨hw.ne', rfl⟩⟩

theorem length_le_repeated (hw : ∀ x ∈ xs, 0 < w x) : xs.length ≤ (repeated w xs).length := by
  induction xs with
  | nil => exact le_rfl
  | cons x xs ih =>
    obtain ⟨hx, hxs⟩ := List.forall_mem_cons.mp hw
    have hrest := ih hxs
    rw [repeated_cons, List.length_append, List.length_replicate, List.length_cons]
    omega

/-- What has no weight does not count. -/
theorem repeated_filter_pos : repeated w (xs.filter fun x => 0 < w x) = repeated w xs := by
  induction xs with
  | nil => rfl
  | cons x xs ih =>
    rw [repeated_cons, List.filter_cons]
    split
    · rw [repeated_cons, ih]
    · next hzero =>
      have hw : w x = 0 := by simpa using hzero
      rw [ih, hw, List.replicate_zero, List.nil_append]

theorem filter_eq_repeated {p : α → Prop} [DecidablePred p] :
    xs.filter p = repeated (fun x => if p x then 1 else 0) xs := by
  induction xs with
  | nil => rfl
  | cons x xs ih =>
    rw [repeated_cons, List.filter_cons, ih]
    by_cases h : p x <;> simp [h]

theorem repeated_perm {ys : List α} (h : xs.Perm ys) : (repeated w xs).Perm (repeated w ys) :=
  h.flatMap_right _

theorem pairwise_repeated (h : xs.Pairwise fun x y => key x < key y) :
    (repeated w xs).Pairwise fun x y => key x ≤ key y := by
  induction xs with
  | nil => exact List.Pairwise.nil
  | cons x xs ih =>
    obtain ⟨hx, hxs⟩ := List.pairwise_cons.mp h
    rw [repeated_cons, List.pairwise_append]
    refine ⟨List.pairwise_replicate.mpr (Or.inr le_rfl), ih hxs, ?_⟩
    intro y hy z hz
    rw [List.eq_of_mem_replicate hy]
    exact (hx z (mem_of_mem_repeated hz)).le

/-- The last of the rows that are taken may be repeated behind them. -/
theorem take_repeated (hw : ∀ x ∈ xs, 0 < w x)
    (hone : ∀ i x, i + 1 < n → xs[i]? = some x → w x = 1) :
    (repeated w xs).take n = xs.take n := by
  induction xs generalizing n with
  | nil => rfl
  | cons x xs ih =>
    obtain ⟨hx, hxs⟩ := List.forall_mem_cons.mp hw
    match n with
    | 0 => rfl
    | 1 =>
      obtain ⟨k, hk⟩ := Nat.exists_eq_succ_of_ne_zero hx.ne'
      rw [repeated_cons, hk, List.replicate_succ]
      rfl
    | n + 2 =>
      have hfirst : w x = 1 := hone 0 x (by omega) rfl
      have hrest := ih (n := n + 1) hxs fun i y hi hy => hone (i + 1) y (by omega) hy
      rw [repeated_cons, hfirst, List.replicate_one, List.singleton_append, List.take_succ_cons,
        List.take_succ_cons, hrest]

/-- Rows that begin a list without repetitions are not repeated before the last of them. -/
theorem weight_eq_one_of_begins (hnodup : xs.Nodup) (hw : ∀ x ∈ xs, 0 < w x)
    (hbegins : (repeated w xs).take n <+: xs) {i : ℕ} (hi : i + 1 < n) (hx : xs[i]? = some x) :
    w x = 1 := by
  induction xs generalizing n i with
  | nil => cases hx
  | cons y xs ih =>
    obtain ⟨hy, hxs⟩ := List.forall_mem_cons.mp hw
    obtain ⟨hout, hnodup⟩ := List.nodup_cons.mp hnodup
    obtain ⟨m, rfl⟩ : ∃ m, n = m + 2 := ⟨n - 2, by omega⟩
    have hone : w y = 1 := by
      by_contra hne
      obtain ⟨k, hk⟩ : ∃ k, w y = k + 2 := ⟨w y - 2, by omega⟩
      rw [repeated_cons, hk, List.replicate_succ, List.replicate_succ, List.cons_append,
        List.cons_append, List.take_succ_cons, List.take_succ_cons, List.cons_prefix_cons]
        at hbegins
      exact hout (hbegins.2.subset List.mem_cons_self)
    cases i with
    | zero =>
      obtain rfl := Option.some.inj hx
      exact hone
    | succ i =>
      rw [repeated_cons, hone, List.replicate_one, List.singleton_append, List.take_succ_cons,
        List.cons_prefix_cons] at hbegins
      exact ih hnodup hxs hbegins.2 (by omega) hx

/-- What comes after the key of an element are the elements behind it. -/
theorem filter_repeated (hsorted : xs.Pairwise fun x y => key x < key y) {k : ℕ}
    (hx : xs[k]? = some x) :
    (repeated w xs).filter (fun y => key x < key y) = repeated w (xs.drop (k + 1)) := by
  induction xs generalizing k with
  | nil => cases hx
  | cons y xs ih =>
    obtain ⟨hy, hxs⟩ := List.pairwise_cons.mp hsorted
    rw [repeated_cons, List.filter_append, List.drop_succ_cons]
    cases k with
    | zero =>
      obtain rfl := Option.some.inj hx
      have hown : (List.replicate (w y) y).filter (fun z => key y < key z) = [] := by
        rw [List.filter_replicate_of_neg (by simp)]
      have hlater : (repeated w xs).filter (fun z => key y < key z) = repeated w xs :=
        List.filter_eq_self.mpr fun z hz => by simpa using hy z (mem_of_mem_repeated hz)
      rw [hown, hlater, List.nil_append, List.drop_zero]
    | succ k =>
      have hbefore : key y < key x := hy x (List.mem_of_getElem? hx)
      have hown : (List.replicate (w y) y).filter (fun z => key x < key z) = [] := by
        rw [List.filter_replicate_of_neg (by simpa using hbefore.le)]
      rw [hown, List.nil_append]
      exact ih hxs hx

end Repeated

section Probe
variable {rows : List α} {limit : ℕ}

/-- Reading one row beyond the limit shows whether there are more. -/
theorem lt_length_probe : limit < (rows.take (limit + 1)).length ↔ limit < rows.length := by
  rw [List.length_take]
  omega

theorem drop_probe : (if limit < rows.length then (rows.take (limit + 1)).dropLast
    else rows.take (limit + 1)) = rows.take limit := by
  split
  · next hlt =>
    have hlength : (rows.take (limit + 1)).length = limit + 1 := by
      rw [List.length_take]
      omega
    rw [List.dropLast_eq_take, hlength, List.take_take]
    congr 1
    omega
  · next hle =>
    rw [List.take_of_length_le (by omega), List.take_of_length_le (by omega)]

theorem getLast?_take_ne_none (hlimit : 0 < limit) (hmore : limit < rows.length) :
    (rows.take limit).getLast? ≠ none := by
  rw [Ne, List.getLast?_eq_none_iff]
  intro hnil
  have hlength := congrArg List.length hnil
  rw [List.length_take, List.length_nil] at hlength
  omega

end Probe

theorem eq_of_map_eq {f : α → β} {l m : List α} (h : l.map f = m.map f)
    (hf : ∀ x ∈ l, ∀ y ∈ m, f x = f y → x = y) : l = m := by
  have hlength : l.length = m.length := by simpa using congrArg List.length h
  refine List.ext_getElem hlength fun i hl hm => hf _ (List.getElem_mem hl) _ (List.getElem_mem hm) ?_
  have hget : (l.map f)[i]? = (m.map f)[i]? := by rw [h]
  simpa [hl, hm] using hget

section Following
variable {w : α → ℕ} {xs rows : List α} {key : α → ℤ} {limit : ℕ} {cursor : ℤ}
  {pages : List (List α)}

section Page
variable {page : List α} {following : Option ℤ}

theorem length_page_le (h : cursorPage key rows limit cursor = (page, following)) :
    page.length ≤ limit := by
  obtain ⟨rfl, -⟩ := Prod.mk.inj h
  exact List.length_take_le _ _

theorem of_mem_page (h : cursorPage key rows limit cursor = (page, following)) {x : α}
    (hx : x ∈ page) : cursor < key x ∧ x ∈ rows := by
  obtain ⟨rfl, -⟩ := Prod.mk.inj h
  obtain ⟨hmem, hlt⟩ := List.mem_filter.mp (List.mem_of_mem_take hx)
  exact ⟨of_decide_eq_true hlt, hmem⟩

/-- The next cursor is the key of the last row of a full page. -/
theorem cursorPage_eq_some {next : ℤ} : cursorPage key rows limit cursor = (page, some next) ↔
    page = (rows.filter fun r => cursor < key r).take limit ∧
      limit < (rows.filter fun r => cursor < key r).length ∧
        ∃ x, page.getLast? = some x ∧ key x = next := by
  rw [cursorPage, Prod.mk.injEq, eq_comm]
  refine and_congr_right ?_
  rintro rfl
  split
  · next hmore => simp [hmore]
  · next hmore => simp [hmore]

/-- Without a next cursor the rows fit on the page. -/
theorem cursorPage_eq_none (hlimit : 0 < limit) :
    cursorPage key rows limit cursor = (page, none) ↔
      page = (rows.filter fun r => cursor < key r) ∧
        (rows.filter fun r => cursor < key r).length ≤ limit := by
  rw [cursorPage, Prod.mk.injEq, eq_comm]
  constructor
  · rintro ⟨rfl, hnext⟩
    split at hnext
    · next hmore =>
      exact absurd (Option.map_eq_none_iff.mp hnext) (getLast?_take_ne_none hlimit hmore)
    · next hfits => exact ⟨List.take_of_length_le (by omega), by omega⟩
  · rintro ⟨rfl, hfits⟩
    exact ⟨(List.take_of_length_le hfits).symm, if_neg (by omega)⟩

end Page

theorem Follows.page_length_le
    (h : Follows (fun c => some (cursorPage key rows limit c)) cursor pages) :
    ∀ page ∈ pages, page.length ≤ limit := by
  induction h with
  | last hfind => simpa using length_page_le (Option.some.inj hfind)
  | next hfind _ ih => exact List.forall_mem_cons.mpr ⟨length_page_le (Option.some.inj hfind), ih⟩

/-- Only rows after the cursor are ever shown. -/
theorem Follows.of_mem (h : Follows (fun c => some (cursorPage key rows limit c)) cursor pages) :
    ∀ x ∈ pages.flatten, cursor < key x ∧ x ∈ rows := by
  induction h with
  | last hfind =>
    intro x hx
    rw [List.flatten_singleton] at hx
    exact of_mem_page (Option.some.inj hfind) hx
  | next hfind _ ih =>
    obtain ⟨-, -, last, hlast, rfl⟩ := cursorPage_eq_some.mp (Option.some.inj hfind)
    intro x hx
    rw [List.flatten_cons, List.mem_append] at hx
    rcases hx with hx | hx
    · exact of_mem_page (Option.some.inj hfind) hx
    · have hcursor := (of_mem_page (Option.some.inj hfind) (List.mem_of_getLast? hlast)).1
      exact ⟨hcursor.trans (ih x hx).1, (ih x hx).2⟩

/-- The cursors leave no choice. -/
theorem Follows.unique {find : ℤ → Option (List α × Option ℤ)} {others : List (List α)}
    (h : Follows find cursor pages) (hothers : Follows find cursor others) : pages = others := by
  induction h generalizing others with
  | last hfind =>
    cases hothers with
    | last hfind' =>
      rw [hfind, Option.some.injEq, Prod.mk.injEq] at hfind'
      rw [hfind'.1]
    | next hfind' _ =>
      rw [hfind, Option.some.injEq, Prod.mk.injEq] at hfind'
      exact absurd hfind'.2 (by simp)
  | next hfind _ ih =>
    cases hothers with
    | last hfind' =>
      rw [hfind, Option.some.injEq, Prod.mk.injEq] at hfind'
      exact absurd hfind'.2 (by simp)
    | next hfind' hrest' =>
      rw [hfind, Option.some.injEq, Prod.mk.injEq, Option.some.injEq] at hfind'
      obtain ⟨rfl, rfl⟩ := hfind'
      rw [ih hrest']

theorem Follows.map {f : α → β} {find : ℤ → Option (List α × Option ℤ)}
    (h : Follows find cursor pages) :
    Follows (fun c => (find c).map fun p => (p.1.map f, p.2)) cursor (pages.map (List.map f)) := by
  induction h with
  | last hfind => exact .last (by rw [hfind]; rfl)
  | next hfind _ ih => exact .next (by rw [hfind]; rfl) ih

theorem Follows.of_map {f : α → β} {find : ℤ → Option (List α × Option ℤ)} {shown : List (List β)}
    (h : Follows (fun c => (find c).map fun p => (p.1.map f, p.2)) cursor shown) :
    ∃ pages, Follows find cursor pages ∧ shown = pages.map (List.map f) := by
  induction h with
  | last hfind =>
    obtain ⟨⟨page, _⟩, hpage, heq⟩ := Option.map_eq_some_iff.mp hfind
    obtain ⟨rfl, rfl⟩ := Prod.mk.inj heq
    exact ⟨[page], .last hpage, rfl⟩
  | next hfind _ ih =>
    obtain ⟨⟨page, _⟩, hpage, heq⟩ := Option.map_eq_some_iff.mp hfind
    obtain ⟨rfl, rfl⟩ := Prod.mk.inj heq
    obtain ⟨pages, hpages, rfl⟩ := ih
    exact ⟨page :: pages, .next hpage hpages, rfl⟩

/-- Rows after the key of an element are those of the elements behind it. -/
theorem filter_after {k : ℕ} {x : α} (hsorted : xs.Pairwise fun x y => key x < key y)
    (hw : ∀ x ∈ xs, 0 < w x) (hrows : rows.filter (fun r => cursor < key r) = repeated w xs)
    (hx : xs[k]? = some x) :
    rows.filter (fun r => key x < key r) = repeated w (xs.drop (k + 1)) := by
  have hmem := List.mem_of_getElem? hx
  have hcursor : cursor < key x := by
    have hin := mem_repeated hmem (hw x hmem)
    rw [← hrows] at hin
    exact of_decide_eq_true (List.mem_filter.mp hin).2
  rw [← filter_repeated hsorted hx, ← hrows, List.filter_filter]
  refine List.filter_congr fun r _ => ?_
  by_cases h : key x < key r
  · simp [h, hcursor.trans h]
  · simp [h]

/-- Rows are shown once each where those that are repeated end a page. -/
theorem exists_follows (hlimit : 0 < limit) (hsorted : xs.Pairwise fun x y => key x < key y)
    (hw : ∀ x ∈ xs, 0 < w x) (hrows : rows.filter (fun r => cursor < key r) = repeated w xs)
    (hends : ∀ i x, xs[i]? = some x → w x ≠ 1 → limit ∣ i + 1) :
    ∃ pages, Follows (fun c => some (cursorPage key rows limit c)) cursor pages ∧
      pages.flatten = xs := by
  induction hn : xs.length using Nat.strong_induction_on generalizing xs cursor with
  | _ n ih =>
    -- no row that is repeated stands before the end of the first page
    have hone : ∀ i x, i + 1 < limit → xs[i]? = some x → w x = 1 := by
      intro i x hi hx
      by_contra hne
      have hle := Nat.le_of_dvd (Nat.succ_pos i) (hends i x hx hne)
      omega
    have htake : (repeated w xs).take limit = xs.take limit := take_repeated hw hone
    have hlength : xs.length ≤ (repeated w xs).length := length_le_repeated hw
    by_cases hfits : (repeated w xs).length ≤ limit
    · -- everything is on one page, and so each row is there once
      refine ⟨[repeated w xs], .last (congrArg some ((cursorPage_eq_none hlimit).mpr ?_)), ?_⟩
      · exact ⟨hrows.symm, hrows ▸ hfits⟩
      · rw [List.take_of_length_le hfits, List.take_of_length_le (hlength.trans hfits)] at htake
        rw [List.flatten_singleton, htake]
    · -- a full page, the rest of the rows behind it, and the induction on their number
      have hlong : limit ≤ xs.length := by
        by_contra hshort
        have hall := congrArg List.length htake
        rw [List.length_take, List.length_take] at hall
        omega
      have hlt : limit - 1 < xs.length := by omega
      have hlast : xs[limit - 1]? = some xs[limit - 1] := List.getElem?_eq_getElem hlt
      have hrest := filter_after hsorted hw hrows hlast
      have hsucc : limit - 1 + 1 = limit := by omega
      rw [hsucc] at hrest
      obtain ⟨pages, hpages, hflat⟩ := ih (xs.drop limit).length (by rw [List.length_drop]; omega)
        (hsorted.drop) (fun x hx => hw x (List.mem_of_mem_drop hx)) hrest (by
          intro i x hx hne
          rw [List.getElem?_drop] at hx
          have hdvd := hends (limit + i) x hx hne
          exact (Nat.dvd_add_right (dvd_refl limit)).mp (by rwa [← Nat.add_assoc])) rfl
      refine ⟨xs.take limit :: pages, .next (congrArg some (cursorPage_eq_some.mpr ?_)) hpages, ?_⟩
      · refine ⟨by rw [hrows, htake], by rw [hrows]; omega, _, ?_, rfl⟩
        rw [List.getLast?_eq_getElem?, List.length_take, Nat.min_eq_left hlong,
          List.getElem?_take_of_lt (by omega), hlast]
      · rw [List.flatten_cons, hflat, List.take_append_drop]

/-- Rows that are shown once each are repeated at the end of pages only. -/
theorem dvd_of_follows (hlimit : 0 < limit) (hsorted : xs.Pairwise fun x y => key x < key y)
    (hw : ∀ x ∈ xs, 0 < w x) (hrows : rows.filter (fun r => cursor < key r) = repeated w xs)
    (h : Follows (fun c => some (cursorPage key rows limit c)) cursor pages)
    (hshown : pages.flatten = xs) : ∀ i x, xs[i]? = some x → w x ≠ 1 → limit ∣ i + 1 := by
  have hnodup : xs.Nodup := hsorted.imp fun hlt => ne_of_apply_ne key hlt.ne
  induction h generalizing xs with
  | last hfind =>
    obtain ⟨rfl, -⟩ := (cursorPage_eq_none hlimit).mp (Option.some.inj hfind)
    rw [List.flatten_singleton, hrows] at hshown
    intro i x hx hne
    refine absurd (weight_eq_one_of_begins (n := i + 2) hnodup hw ?_ (by omega) hx) hne
    rw [hshown]
    exact List.take_prefix _ _
  | next hfind hrest ih =>
    obtain ⟨rfl, hmore, last, hlast, rfl⟩ := cursorPage_eq_some.mp (Option.some.inj hfind)
    rw [hrows] at hshown hmore hlast
    rw [List.flatten_cons] at hshown
    -- what is shown once begins with each row once
    have hone : ∀ i x, i + 1 < limit → xs[i]? = some x → w x = 1 := by
      intro i x hi hx
      exact weight_eq_one_of_begins hnodup hw ⟨_, hshown⟩ hi hx
    rw [take_repeated hw hone] at hshown hlast
    have hdrop := List.append_cancel_left (hshown.trans (List.take_append_drop limit xs).symm)
    have hlong : limit ≤ xs.length := by
      have hall := congrArg List.length (take_repeated hw hone)
      rw [List.length_take, List.length_take] at hall
      omega
    have hlastIs : xs[limit - 1]? = some last := by
      rw [List.getLast?_eq_getElem?, List.length_take, Nat.min_eq_left hlong,
        List.getElem?_take_of_lt (by omega)] at hlast
      exact hlast
    have hfollowing := filter_after hsorted hw hrows hlastIs
    have hsucc : limit - 1 + 1 = limit := by omega
    rw [hsucc] at hfollowing
    have hends := ih hsorted.drop (fun x hx => hw x (List.mem_of_mem_drop hx)) hfollowing hdrop
      (hnodup.sublist (List.drop_sublist _ _))
    intro i x hx hne
    rcases Nat.lt_trichotomy (i + 1) limit with hlt | heq | hgt
    · exact absurd (hone i x hlt hx) hne
    · rw [heq]
    · obtain ⟨j, rfl⟩ : ∃ j, i = limit + j := ⟨i - limit, by omega⟩
      have hdvd := hends j x (by rwa [List.getElem?_drop]) hne
      rw [Nat.add_assoc]
      exact (Nat.dvd_add_right (dvd_refl limit)).mpr hdvd

end Following

end Paging
