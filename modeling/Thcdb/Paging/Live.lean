import Thcdb.Paging.Seek

namespace Paging

variable {σ α β : Type*}

/-- A request for a page, in the state that it was served in, and its answer. -/
structure Served (σ β : Type*) where
  state : σ
  page : List β
  nextCursor : Option ℤ

def Served.map (f : α → β) (p : Served σ α) : Served σ β := ⟨p.state, p.page.map f, p.nextCursor⟩

/-- The requests of a reader who follows the cursors to their end. The states need not have anything
to do with each other; only the cursor is carried from one page to the next. -/
inductive LiveWalks (find : σ → Option ℤ → List β × Option ℤ) :
    Option ℤ → List (Served σ β) → Prop
  | last {s : σ} {cursor : Option ℤ} {page : List β} :
      find s cursor = (page, none) → LiveWalks find cursor [⟨s, page, none⟩]
  | next {s : σ} {cursor : Option ℤ} {following : ℤ} {page : List β} {steps : List (Served σ β)} :
      find s cursor = (page, some following) → LiveWalks find (some following) steps →
        LiveWalks find cursor (⟨s, page, some following⟩ :: steps)

def shownIn (steps : List (Served σ β)) : List β := steps.flatMap (·.page)

/-- The request that decides whether an identity is shown: the first one whose next cursor does not
stand before it. The last request has no next cursor. -/
def deciding (before : ℤ → ℤ → Prop) [DecidableRel before] (k : ℤ) (steps : List (Served σ β)) :
    Option (Served σ β) :=
  steps.find? fun p => p.nextCursor.all fun c => ¬before c k

@[simp] theorem shownIn_cons (p : Served σ β) (steps : List (Served σ β)) :
    shownIn (p :: steps) = p.page ++ shownIn steps := List.flatMap_cons

@[simp] theorem shownIn_nil : shownIn ([] : List (Served σ β)) = [] := rfl

theorem shownIn_map (f : α → β) (steps : List (Served σ α)) :
    shownIn (steps.map (Served.map f)) = (shownIn steps).map f := by
  induction steps with
  | nil => rfl
  | cons p steps ih => simp [ih, Served.map]

theorem deciding_map {before : ℤ → ℤ → Prop} [DecidableRel before] {k : ℤ} (f : α → β)
    (steps : List (Served σ α)) :
    deciding before k (steps.map (Served.map f)) =
      (deciding before k steps).map (Served.map f) := List.find?_map

theorem LiveWalks.map {find : σ → Option ℤ → List α × Option ℤ} (f : α → β) {cursor : Option ℤ}
    {steps : List (Served σ α)} (h : LiveWalks find cursor steps) :
    LiveWalks (fun s c => ((find s c).1.map f, (find s c).2)) cursor
      (steps.map (Served.map f)) := by
  induction h with
  | last hfind => exact .last (by simp [hfind])
  | next hfind _ ih => exact .next (by simp only [hfind]) ih

section Seek

variable {before : ℤ → ℤ → Prop} [DecidableRel before] {key : α → ℤ} {rows : List α} {limit : ℕ}
  {cursor : Option ℤ} {page : List α} {following : ℤ}

theorem seekPage_eq_none (hlimit : 0 < limit)
    (h : seekPage before key rows limit cursor = (page, none)) :
    page = behind before key rows cursor := by
  rw [seekPage, Prod.mk.injEq] at h
  obtain ⟨rfl, hnext⟩ := h
  split at hnext
  · rename_i hmore
    exact absurd (Option.map_eq_none_iff.mp hnext) (getLast?_take_ne_none hlimit hmore)
  · rename_i hfits
    exact List.take_of_length_le (by omega)

/-- A page with a next cursor is full, and the cursor is the key of its last row. -/
theorem seekPage_eq_some (h : seekPage before key rows limit cursor = (page, some following)) :
    page = (behind before key rows cursor).take limit ∧ page.length = limit ∧
      ∃ x, page.getLast? = some x ∧ key x = following := by
  rw [seekPage, Prod.mk.injEq] at h
  obtain ⟨rfl, hnext⟩ := h
  split at hnext
  · rename_i hmore
    refine ⟨rfl, ?_, Option.map_eq_some_iff.mp hnext⟩
    rw [List.length_take]
    omega
  · cases hnext

omit [DecidableRel before] in
/-- Behind the last row of a page is what the page leaves out, and nothing that it shows. -/
theorem before_last_iff [Std.Asymm before]
    (hsorted : rows.Pairwise fun x y => before (key x) (key y)) {n : ℕ} {x y : α}
    (hx : (rows.take n).getLast? = some x) (hy : y ∈ rows) :
    before (key x) (key y) ↔ y ∉ rows.take n := by
  have hdrop : rows = rows.take n ++ rows.drop n := (List.take_append_drop n rows).symm
  have hxmem := List.mem_of_getLast? hx
  constructor
  · intro hlt hmem
    -- a row of the page is the last one or stands before it
    obtain ⟨init, hinit⟩ := List.getLast?_eq_some_iff.mp hx
    rw [hinit] at hmem
    have hpage : (rows.take n).Pairwise fun x y => before (key x) (key y) := hsorted.take
    rw [hinit, List.pairwise_append] at hpage
    rcases List.mem_append.mp hmem with hin | hlast
    · exact Std.Asymm.asymm _ _ hlt (hpage.2.2 y hin x (List.mem_singleton_self x))
    · obtain rfl := List.mem_singleton.mp hlast
      exact Std.Asymm.asymm _ _ hlt hlt
  · intro hnot
    rw [hdrop] at hsorted hy
    have hrest : y ∈ rows.drop n := (List.mem_append.mp hy).resolve_left hnot
    exact (List.pairwise_append.mp hsorted).2.2 x hxmem y hrest

end Seek

section Live

variable {before : ℤ → ℤ → Prop} [DecidableRel before] [IsTrans ℤ before]
  {key : α → ℤ} {rows : σ → List α} {limit : ℕ} {cursor : Option ℤ} {steps : List (Served σ α)}

/-- Only rows behind the cursor are shown, and each from the state its page was read in. -/
theorem LiveWalks.mem (hlimit : 0 < limit)
    (h : LiveWalks (fun s => seekPage before key (rows s) limit) cursor steps) :
    ∀ p ∈ steps, ∀ x ∈ p.page, x ∈ rows p.state ∧ ∀ c ∈ cursor, before c (key x) := by
  induction h with
  | last hfind =>
    rw [seekPage_eq_none hlimit hfind]
    simp only [List.forall_mem_singleton]
    exact fun x hx => mem_behind.mp hx
  | @next s cursor following page steps hfind _ ih =>
    obtain ⟨hpage, -, last, hlast, rfl⟩ := seekPage_eq_some hfind
    have hin {x : α} (hx : x ∈ page) : x ∈ rows s ∧ ∀ c ∈ cursor, before c (key x) := by
      rw [hpage] at hx
      exact mem_behind.mp (List.mem_of_mem_take hx)
    refine List.forall_mem_cons.mpr ⟨fun x hx => hin hx, fun p hp x hx => ?_⟩
    obtain ⟨hrow, hbehind⟩ := ih p hp x hx
    refine ⟨hrow, fun c hc => ?_⟩
    exact IsTrans.trans c _ _ ((hin (List.mem_of_getLast? hlast)).2 c hc)
      (hbehind _ rfl)

theorem LiveWalks.mem_shownIn (hlimit : 0 < limit)
    (h : LiveWalks (fun s => seekPage before key (rows s) limit) cursor steps) :
    ∀ x ∈ shownIn steps, ∀ c ∈ cursor, before c (key x) := by
  intro x hx
  obtain ⟨p, hp, hxp⟩ := List.mem_flatMap.mp hx
  exact (h.mem hlimit p hp x hxp).2

variable [Std.Asymm before] (hsorted : ∀ s, (rows s).Pairwise fun x y => before (key x) (key y))
include hsorted

omit [Std.Asymm before] in
/-- What is shown stands in one order throughout, so that no key comes twice. -/
theorem LiveWalks.pairwise (hlimit : 0 < limit)
    (h : LiveWalks (fun s => seekPage before key (rows s) limit) cursor steps) :
    (shownIn steps).Pairwise fun x y => before (key x) (key y) := by
  induction h with
  | @last s cursor page hfind =>
    rw [seekPage_eq_none hlimit hfind]
    simpa using pairwise_behind (hsorted s)
  | @next s cursor following page steps hfind hrest ih =>
    obtain ⟨hpage, -, last, hlast, rfl⟩ := seekPage_eq_some hfind
    have hbehind : (behind before key (rows s) cursor).Pairwise fun x y =>
        before (key x) (key y) := pairwise_behind (hsorted s)
    rw [shownIn_cons, List.pairwise_append]
    refine ⟨hpage ▸ hbehind.take, ih, fun x hx y hy => ?_⟩
    have hy' := hrest.mem_shownIn hlimit y hy _ rfl
    by_cases hxl : x = last
    · exact hxl ▸ hy'
    · -- every other row of the page stands before the last
      obtain ⟨init, hinit⟩ := List.getLast?_eq_some_iff.mp hlast
      have hsortedPage : page.Pairwise fun x y => before (key x) (key y) := hpage ▸ hbehind.take
      rw [hinit, List.pairwise_append] at hsortedPage
      rw [hinit] at hx
      have hin := (List.mem_append.mp hx).resolve_right fun hl => hxl (List.mem_singleton.mp hl)
      exact IsTrans.trans _ _ _ (hsortedPage.2.2 x hin last (List.mem_singleton_self last)) hy'

/-- A key behind the cursor is shown if and only if it was there when the request that decides on it
was served. -/
theorem LiveWalks.exists_deciding (hlimit : 0 < limit)
    (h : LiveWalks (fun s => seekPage before key (rows s) limit) cursor steps) (k : ℤ)
    (hk : ∀ c ∈ cursor, before c k) :
    ∃ p, deciding before k steps = some p ∧
      (k ∈ (shownIn steps).map key ↔ k ∈ (rows p.state).map key) := by
  induction h with
  | @last s cursor page hfind =>
    refine ⟨⟨s, page, none⟩, List.find?_cons_of_pos rfl, ?_⟩
    rw [seekPage_eq_none hlimit hfind, shownIn_cons, shownIn_nil, List.append_nil]
    simp only [List.mem_map, mem_behind]
    constructor
    · rintro ⟨x, hx, rfl⟩
      exact ⟨x, hx.1, rfl⟩
    · rintro ⟨x, hx, rfl⟩
      exact ⟨x, ⟨hx, hk⟩, rfl⟩
  | @next s cursor following page steps hfind hrest ih =>
    obtain ⟨hpage, -, last, hlast, rfl⟩ := seekPage_eq_some hfind
    have hbehind : (behind before key (rows s) cursor).Pairwise fun x y =>
        before (key x) (key y) := pairwise_behind (hsorted s)
    have hlast' := hpage ▸ hlast
    by_cases hafter : before (key last) k
    · -- a later request decides, and this page does not show the key
      obtain ⟨p, hp, hiff⟩ := ih (by simpa using hafter)
      refine ⟨p, ?_, ?_⟩
      · rw [← hp]
        exact List.find?_cons_of_neg (by simpa using hafter)
      rw [shownIn_cons, List.map_append, List.mem_append, ← hiff, or_iff_right]
      rintro hmem
      obtain ⟨x, hx, rfl⟩ := List.mem_map.mp hmem
      have hx' := hpage ▸ hx
      exact (before_last_iff hbehind hlast' (List.mem_of_mem_take hx')).mp hafter hx'
    · -- this request decides, for the later pages start behind its last row
      refine ⟨⟨s, page, some (key last)⟩, List.find?_cons_of_pos (by simpa using hafter), ?_⟩
      have hlater : k ∉ (shownIn steps).map key := by
        intro hmem
        obtain ⟨x, hx, rfl⟩ := List.mem_map.mp hmem
        exact hafter (hrest.mem_shownIn hlimit x hx _ rfl)
      rw [shownIn_cons, List.map_append, List.mem_append, or_iff_left hlater]
      simp only [List.mem_map]
      constructor
      · rintro ⟨x, hx, rfl⟩
        exact ⟨x, (mem_behind.mp (List.mem_of_mem_take (hpage ▸ hx))).1, rfl⟩
      · rintro ⟨x, hx, rfl⟩
        refine ⟨x, ?_, rfl⟩
        by_contra hnot
        exact hafter ((before_last_iff hbehind hlast' (mem_behind.mpr ⟨hx, hk⟩)).mpr (hpage ▸ hnot))

omit hsorted [Std.Asymm before] [IsTrans ℤ before] in
/-- Every page but the last is full, and its next cursor is the key of its last row. -/
theorem LiveWalks.full
    (h : LiveWalks (fun s => seekPage before key (rows s) limit) cursor steps) :
    ∀ p ∈ steps.dropLast, p.page.length = limit ∧ p.nextCursor = p.page.getLast?.map key := by
  induction h with
  | last => simp
  | next hfind hrest ih =>
    obtain ⟨-, hlength, last, hlast, rfl⟩ := seekPage_eq_some hfind
    rw [List.dropLast_cons_of_ne_nil (by cases hrest <;> simp)]
    exact List.forall_mem_cons.mpr ⟨⟨hlength, by simp [hlast]⟩, ih⟩

omit hsorted [Std.Asymm before] [IsTrans ℤ before] in
theorem LiveWalks.getLast
    (h : LiveWalks (fun s => seekPage before key (rows s) limit) cursor steps) :
    ∃ p, steps.getLast? = some p ∧ p.nextCursor = none := by
  induction h with
  | last => exact ⟨_, rfl, rfl⟩
  | next hfind hrest ih =>
    obtain ⟨p, hp, hnone⟩ := ih
    exact ⟨p, by simp [List.getLast?_cons, hp], hnone⟩

end Live

end Paging
