import Mathlib.Data.List.Nodup
import Thcdb.Relational.Lookup

namespace Relational

variable {K C : Type*} [DecidableEq K] {key : C → K} {wanted rows : List C} {c d : C} {k : K}

theorem indexBy_of_nodup (h : (rows.map key).Nodup) :
    indexBy key rows k = some c ↔ c ∈ rows ∧ key c = k :=
  indexBy_eq_some_iff fun _ hr _ hs heq => List.inj_on_of_nodup_map h hr hs heq

theorem indexBy_eq_none_iff (h : (rows.map key).Nodup) :
    indexBy key rows k = none ↔ k ∉ rows.map key := by
  rw [Option.eq_none_iff_forall_ne_some, List.mem_map, not_exists]
  simp only [ne_eq, indexBy_of_nodup h]

theorem filterMap_indexBy (h : (wanted.map key).Nodup) (hrows : ∀ c ∈ rows, c ∈ wanted) :
    (rows.map key).filterMap (indexBy key wanted) = rows := by
  have hfound : ∀ c ∈ rows, (indexBy key wanted ∘ key) c = some c := fun c hc =>
    (indexBy_of_nodup h).mpr ⟨hrows c hc, rfl⟩
  rw [List.filterMap_map, List.filterMap_congr hfound, List.filterMap_some]

/-- Which of the wanted rows are missing does not depend on the rows that are not wanted. -/
theorem filter_missing {R : Type*} {keyOf : R → K} {rows : List R} :
    (wanted.filter fun d => key d ∉
      (rows.filter fun r => keyOf r ∈ wanted.map key).map keyOf) =
        wanted.filter fun d => key d ∉ rows.map keyOf := by
  refine List.filter_congr fun d hd => ?_
  rw [decide_eq_decide, not_iff_not]
  simp only [List.mem_map, List.mem_filter, decide_eq_true_eq]
  constructor
  · rintro ⟨r, ⟨hr, -⟩, heq⟩
    exact ⟨r, hr, heq⟩
  · rintro ⟨r, hr, heq⟩
    exact ⟨r, ⟨hr, d, hd, heq.symm⟩, heq⟩

/-- A row as it is wanted; a row that is not wanted stays. -/
def corrected (key : C → K) (wanted : List C) (c : C) : C := (indexBy key wanted (key c)).getD c

theorem corrected_eq_of_mem (h : (wanted.map key).Nodup) (hd : d ∈ wanted) (hkey : key d = key c) :
    corrected key wanted c = d := by
  have hfound : indexBy key wanted (key c) = some d := (indexBy_of_nodup h).mpr ⟨hd, hkey⟩
  rw [corrected, hfound, Option.getD_some]

theorem corrected_eq_of_notMem (h : (wanted.map key).Nodup) (hc : key c ∉ wanted.map key) :
    corrected key wanted c = c := by
  rw [corrected, (indexBy_eq_none_iff h).mpr hc, Option.getD_none]

theorem key_corrected (h : (wanted.map key).Nodup) : key (corrected key wanted c) = key c := by
  by_cases hc : key c ∈ wanted.map key
  · obtain ⟨d, hd, hkey⟩ := List.mem_map.mp hc
    rw [corrected_eq_of_mem h hd hkey, hkey]
  · rw [corrected_eq_of_notMem h hc]

/-- The rows that stay, as they are wanted, and the wanted ones among which no row is. -/
def reconciled (key : C → K) (wanted rows : List C) : List C :=
  (rows.filter fun c => key c ∈ wanted.map key).map (corrected key wanted) ++
    wanted.filter fun d => key d ∉ rows.map key

theorem mem_reconciled (hwanted : (wanted.map key).Nodup) :
    d ∈ reconciled key wanted rows ↔ d ∈ wanted := by
  simp only [reconciled, List.mem_append, List.mem_map, List.mem_filter, decide_eq_true_eq]
  constructor
  · rintro (⟨c, ⟨-, e, he, hkey⟩, rfl⟩ | ⟨hd, -⟩)
    · rwa [corrected_eq_of_mem hwanted he hkey]
    · exact hd
  · intro hd
    by_cases hkey : ∃ c ∈ rows, key c = key d
    · obtain ⟨c, hc, hcd⟩ := hkey
      exact .inl ⟨c, ⟨hc, d, hd, hcd.symm⟩, corrected_eq_of_mem hwanted hd hcd.symm⟩
    · exact .inr ⟨hd, hkey⟩

theorem keys_reconciled_nodup (hwanted : (wanted.map key).Nodup) (hrows : (rows.map key).Nodup) :
    ((reconciled key wanted rows).map key).Nodup := by
  have hkept : ((rows.filter fun c => key c ∈ wanted.map key).map (corrected key wanted)).map key =
      (rows.filter fun c => key c ∈ wanted.map key).map key := by
    rw [List.map_map]
    exact List.map_congr_left fun c _ => key_corrected hwanted
  rw [reconciled, List.map_append, hkept]
  refine List.Nodup.append (hrows.sublist (List.filter_sublist.map key))
    (hwanted.sublist (List.filter_sublist.map key)) ?_
  intro k hkept hmissing
  obtain ⟨c, hc, rfl⟩ := List.mem_map.mp hkept
  obtain ⟨d, hd, hkey⟩ := List.mem_map.mp hmissing
  have hnot : key d ∉ rows.map key := by simpa using (List.mem_filter.mp hd).2
  exact hnot (hkey ▸ List.mem_map_of_mem (List.mem_of_mem_filter hc))

theorem reconciled_perm (hwanted : (wanted.map key).Nodup) (hrows : (rows.map key).Nodup) :
    (reconciled key wanted rows).Perm wanted :=
  (List.perm_ext_iff_of_nodup (keys_reconciled_nodup hwanted hrows).of_map hwanted.of_map).mpr
    fun _ => mem_reconciled hwanted

end Relational
