import Mathlib.Data.List.Nodup
import Mathlib.Logic.Function.Basic

namespace Relational

variable {R K : Type*} [DecidableEq K] (key : R → K)

def lookupBy (rows : List R) (k : K) : Option R := rows.find? (key · = k)

/-- The row, or what the update makes of the one that has its key. -/
def upsert (r : R) (update : R → R) (rows : List R) : List R :=
  if rows.any (key · = key r) then rows.map fun s => if key s = key r then update s else s
  else rows ++ [r]

def eraseBy (k : K) (rows : List R) : List R := rows.filter (key · ≠ k)

variable {key} {rows : List R} {r : R} {k : K} {update : R → R}

theorem lookupBy_eq_none : lookupBy key rows k = none ↔ ∀ r ∈ rows, key r ≠ k := by
  simp [lookupBy]

theorem key_of_lookupBy (h : lookupBy key rows k = some r) : key r = k := by
  simpa using List.find?_some h

theorem mem_of_lookupBy (h : lookupBy key rows k = some r) : r ∈ rows := List.mem_of_find?_eq_some h

theorem lookupBy_of_mem (hnodup : (rows.map key).Nodup) (hr : r ∈ rows) :
    lookupBy key rows (key r) = some r := by
  cases hfound : lookupBy key rows (key r) with
  | none => exact absurd rfl (lookupBy_eq_none.mp hfound r hr)
  | some s =>
    rw [List.inj_on_of_nodup_map hnodup (mem_of_lookupBy hfound) hr (key_of_lookupBy hfound)]

theorem lookupBy_append : lookupBy key (rows ++ [r]) k =
    (lookupBy key rows k).or (if key r = k then some r else none) := by
  rw [lookupBy, List.find?_append, List.find?_singleton]
  simp [lookupBy]

theorem lookupBy_map_of_key {f : R → R} (hf : ∀ r ∈ rows, key (f r) = key r) :
    lookupBy key (rows.map f) k = (lookupBy key rows k).map f := by
  induction rows with
  | nil => rfl
  | cons r rows ih =>
    simp only [lookupBy, List.map_cons, List.find?_cons, hf r List.mem_cons_self] at ih ⊢
    split
    · rfl
    · exact ih fun s hs => hf s (List.mem_cons_of_mem r hs)

/-- An update in place is seen at its key only. -/
theorem lookupBy_map (hkey : ∀ s, key (update s) = key s) :
    lookupBy key (rows.map fun s => if key s = key r then update s else s) k =
      if k = key r then (lookupBy key rows k).map update else lookupBy key rows k := by
  induction rows with
  | nil => simp [lookupBy]
  | cons s rows ih =>
    have hsame : key (if key s = key r then update s else s) = key s := by
      split_ifs with hs
      · exact hkey s
      · rfl
    simp only [lookupBy, List.map_cons, List.find?_cons, hsame] at ih ⊢
    by_cases hs : key s = k
    · subst hs
      split_ifs with hr <;> simp [hr]
    · simpa [hs] using ih

theorem lookupBy_upsert (hkey : ∀ s, key (update s) = key s) :
    lookupBy key (upsert key r update rows) =
      Function.update (lookupBy key rows) (key r)
        (some (((lookupBy key rows (key r)).map update).getD r)) := by
  funext k
  unfold upsert
  split_ifs with hany
  · rw [lookupBy_map hkey]
    by_cases hk : k = key r
    · subst hk
      obtain ⟨s, hs, hsame⟩ : ∃ s ∈ rows, key s = key r := by simpa using hany
      obtain ⟨t, ht⟩ : ∃ t, lookupBy key rows (key r) = some t := by
        rw [← Option.ne_none_iff_exists']
        exact fun hnone => lookupBy_eq_none.mp hnone s hs hsame
      simp [ht]
    · simp [hk, Function.update_of_ne]
  · have hnone : lookupBy key rows (key r) = none := by
      rw [lookupBy_eq_none]
      simpa using hany
    rw [lookupBy_append]
    by_cases hk : k = key r
    · subst hk
      simp [hnone]
    · simp [Ne.symm hk, Function.update_of_ne hk]

theorem lookupBy_eraseBy : lookupBy key (eraseBy key k rows) =
    Function.update (lookupBy key rows) k none := by
  funext l
  by_cases hl : l = k
  · subst hl
    rw [Function.update_self, lookupBy_eq_none]
    intro r hr
    simpa using (List.mem_filter.mp hr).2
  · rw [Function.update_of_ne hl, lookupBy, lookupBy, eraseBy, List.find?_filter]
    congr 1
    funext r
    by_cases hr : key r = l
    · simp [hr, hl]
    · simp [hr]

theorem nodup_upsert (hkey : ∀ s, key (update s) = key s) (h : (rows.map key).Nodup) :
    ((upsert key r update rows).map key).Nodup := by
  unfold upsert
  split_ifs with hany
  · have hkeys : (rows.map fun s => if key s = key r then update s else s).map key =
        rows.map key := by
      rw [List.map_map]
      apply List.map_congr_left
      intro s _
      simp only [Function.comp_apply]
      split_ifs
      · exact hkey s
      · rfl
    rwa [hkeys]
  · rw [List.map_append, List.nodup_append]
    refine ⟨h, List.nodup_singleton _, ?_⟩
    rintro a ha b hb rfl
    obtain ⟨s, hs, hsame⟩ := List.mem_map.mp ha
    simp only [List.map_cons, List.map_nil, List.mem_singleton] at hb
    exact hany (List.any_eq_true.mpr ⟨s, hs, by simp [hsame, hb]⟩)

theorem nodup_eraseBy (h : (rows.map key).Nodup) : ((eraseBy key k rows).map key).Nodup :=
  h.sublist (List.filter_sublist.map key)

/-- What holds of the row and outlives the update holds of every row. -/
theorem forall_upsert {p : R → Prop} (hr : p r) (hupdate : ∀ s, p s → p (update s))
    (h : ∀ s ∈ rows, p s) : ∀ s ∈ upsert key r update rows, p s := by
  unfold upsert
  split_ifs with hany
  · intro s hs
    obtain ⟨t, ht, rfl⟩ := List.mem_map.mp hs
    split_ifs
    · exact hupdate t (h t ht)
    · exact h t ht
  · intro s hs
    rcases List.mem_append.mp hs with hs | hs
    · exact h s hs
    · rwa [List.mem_singleton.mp hs]

end Relational
