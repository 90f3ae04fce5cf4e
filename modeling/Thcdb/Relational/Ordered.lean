import Thcdb.Relational.Children

namespace Relational

variable {I : Type*}

def sortById (rows : List (Row I)) : List (Row I) := rows.mergeSort fun r s => r.id ≤ s.id

def orderById (rows : List (Row I)) : List I := (sortById rows).map Row.cols

/-- Rows with the same key stay in the order in which the database happens to return them. -/
def orderBy (key : I → ℤ) (rows : List (Row I)) : List I :=
  (rows.mergeSort fun r s => key r.cols ≤ key s.cols).map Row.cols

/-- The key tells different columns apart. -/
def TieFree (key : I → ℤ) (is : List I) : Prop := ∀ i ∈ is, ∀ j ∈ is, key i = key j → i = j

instance [DecidableEq I] (key : I → ℤ) (is : List I) : Decidable (TieFree key is) :=
  inferInstanceAs (Decidable (∀ i ∈ is, ∀ j ∈ is, _))

variable {rows rows' : List (Row I)} {is : List I} {n : ℤ} {key : I → ℤ}

theorem pairwise_key (f : Row I → ℤ) :
    (rows.mergeSort fun r s => f r ≤ f s).Pairwise fun r s => f r ≤ f s := by
  have h : (rows.mergeSort fun r s => f r ≤ f s).Pairwise fun r s => decide (f r ≤ f s) = true := by
    apply List.pairwise_mergeSort
    · intro a b c hab hbc
      simp only [decide_eq_true_eq] at hab hbc ⊢
      omega
    · intro a b
      simp only [Bool.or_eq_true, decide_eq_true_eq]
      omega
  exact h.imp fun hab => of_decide_eq_true hab

theorem sortById_perm : (sortById rows).Perm rows := List.mergeSort_perm _ _

@[simp] theorem sortById_eq_nil : sortById rows = [] ↔ rows = [] := by
  rw [← List.length_eq_zero_iff, sortById_perm.length_eq, List.length_eq_zero_iff]

theorem orderById_perm : (orderById rows).Perm (rows.map Row.cols) := sortById_perm.map _

theorem orderBy_perm : (orderBy key rows).Perm (rows.map Row.cols) :=
  (List.mergeSort_perm _ _).map _

/-- Rows that were inserted in one statement come back as they were given. -/
theorem orderById_numbered (h : rows.Perm (numbered n is)) : orderById rows = is := by
  have hsorted : (numbered n is).Pairwise fun r s => r.id ≤ s.id :=
    numbered_sorted.imp fun hlt => le_of_lt hlt
  have heq : sortById rows = numbered n is := by
    refine List.Perm.eq_of_pairwise ?_ (pairwise_key Row.id) hsorted
      ((List.mergeSort_perm _ _).trans h)
    intro a b ha hb hab hba
    have ha' : a ∈ numbered n is := h.subset (List.mem_mergeSort.mp ha)
    exact List.inj_on_of_nodup_map numbered_nodup ha' hb (le_antisymm hab hba)
  rw [orderById, heq, numbered_cols]

theorem map_key_pairwise : (orderBy key rows).Pairwise fun i j => key i ≤ key j :=
  List.pairwise_map.mpr (pairwise_key fun r => key r.cols)

/-- Without ties the order is settled. -/
theorem orderBy_eq (h : (rows.map Row.cols).Perm is) (h' : (rows'.map Row.cols).Perm is)
    (htie : TieFree key is) : orderBy key rows = orderBy key rows' := by
  have hl : (orderBy key rows).Perm is := orderBy_perm.trans h
  have hr : (orderBy key rows').Perm is := orderBy_perm.trans h'
  refine List.Perm.eq_of_pairwise ?_ map_key_pairwise map_key_pairwise (hl.trans hr.symm)
  intro i j hi hj hij hji
  exact htie i (hl.subset hi) j (hr.subset hj) (le_antisymm hij hji)

/-- The rows of one key are returned in their own order. -/
theorem orderBy_filter (key : I → ℤ) (rows : List (Row I)) (x : ℤ) :
    (orderBy key rows).filter (fun i => key i = x) =
      (rows.map Row.cols).filter fun i => key i = x := by
  have hsub : (rows.filter fun r => key r.cols = x).Sublist
      (rows.mergeSort fun r s => key r.cols ≤ key s.cols) := by
    refine List.sublist_mergeSort ?_ ?_ ?_ List.filter_sublist
    · intro a b c hab hbc
      simp only [decide_eq_true_eq] at hab hbc ⊢
      omega
    · intro a b
      simp only [Bool.or_eq_true, decide_eq_true_eq]
      omega
    · rw [List.pairwise_filter]
      refine List.pairwise_of_forall fun a b ha hb => ?_
      simp only [decide_eq_true_eq] at ha hb ⊢
      omega
  have hfilter := hsub.filter fun r => key r.cols = x
  have hlen : (rows.filter fun r => key r.cols = x).length =
      ((rows.mergeSort fun r s => key r.cols ≤ key s.cols).filter
        fun r => key r.cols = x).length :=
    ((List.mergeSort_perm _ _).filter _).length_eq.symm
  rw [List.filter_filter] at hfilter
  simp only [Bool.and_self] at hfilter
  rw [orderBy, List.filter_map, List.filter_map]
  exact congrArg _ (hfilter.eq_of_length hlen).symm

/-- With a tie, no answer is settled. -/
theorem exists_orderBy_ne (h : ¬TieFree key (rows.map Row.cols)) (is : List I) :
    ∃ rows', rows'.Perm rows ∧ orderBy key rows' ≠ is := by
  simp only [TieFree, not_forall] at h
  obtain ⟨i, hi, j, hj, hkey, hne⟩ := h
  obtain ⟨r, hr, rfl⟩ := List.mem_map.mp hi
  obtain ⟨s, hs, rfl⟩ := List.mem_map.mp hj
  have hrs : r ≠ s := fun heq => hne (congrArg Row.cols heq)
  obtain ⟨u, t, rfl⟩ := List.append_of_mem hr
  have hs' : s ∈ u ++ t := by
    rcases List.mem_cons.mp (List.perm_middle.subset hs) with heq | hmem
    · exact absurd heq.symm hrs
    · exact hmem
  obtain ⟨v, w, hvw⟩ := List.append_of_mem hs'
  have hperm : (r :: s :: (v ++ w)).Perm (u ++ r :: t) := by
    refine (List.Perm.cons r ?_).trans List.perm_middle.symm
    rw [hvw]
    exact List.perm_middle.symm
  by_cases hfirst : orderBy key (r :: s :: (v ++ w)) = is
  · refine ⟨s :: r :: (v ++ w), (List.Perm.swap r s _).trans hperm, ?_⟩
    intro hsecond
    have hleft := orderBy_filter key (r :: s :: (v ++ w)) (key r.cols)
    have hright := orderBy_filter key (s :: r :: (v ++ w)) (key r.cols)
    rw [hfirst] at hleft
    rw [hsecond, hleft] at hright
    simp only [List.map_cons, List.filter_cons, decide_true, if_true, hkey] at hright
    exact hne (List.cons.inj hright).1
  · exact ⟨_, hperm, hfirst⟩

/-- A table may return the rows of one owner in any order. -/
theorem exists_reorder {t : Table (Owned I)} {owner : ℤ} (h : rows.Perm (t.itemRows owner)) :
    ∃ t', t.Reorders t' ∧ t'.itemRows owner = rows := by
  have hmine : (rows.map fun r => (⟨r.id, owner, r.cols⟩ : Row (Owned I))).Perm
      (t.rows.filter fun r => r.cols.owner = owner) := by
    refine (h.map _).trans ?_
    have heq : (t.itemRows owner).map (fun r => (⟨r.id, owner, r.cols⟩ : Row (Owned I))) =
        t.rows.filter fun r => r.cols.owner = owner := by
      rw [Table.itemRows, List.map_map]
      conv_rhs => rw [← List.map_id (t.rows.filter fun r => r.cols.owner = owner)]
      apply List.map_congr_left
      intro r hr
      have howner : r.cols.owner = owner := of_decide_eq_true (List.mem_filter.mp hr).2
      subst howner
      rfl
    rw [heq]
  have hperm : ((rows.map fun r => (⟨r.id, owner, r.cols⟩ : Row (Owned I))) ++
      t.rows.filter fun r => !decide (r.cols.owner = owner)).Perm t.rows :=
    (hmine.append_right _).trans (List.filter_append_perm _ _)
  refine ⟨⟨_, t.next, fun r hr => t.lt_next r (hperm.subset hr),
    (hperm.map Row.id).nodup_iff.mpr t.nodup⟩, ⟨hperm, rfl⟩, ?_⟩
  simp [Table.itemRows, List.filter_append, List.filter_filter, List.filter_map, Function.comp_def]

section Wrote

variable {t t' : Table (Owned I)} {owner owner' : ℤ}

def Table.Wrote (t : Table (Owned I)) (owner : ℤ) (is : List I) : Prop :=
  ∃ n, (t.itemRows owner).Perm (numbered n is)

theorem wrote_adopt (h : t.items owner = []) : (t.adopt owner is).Wrote owner is := by
  exact ⟨t.next, by rw [itemRows_adopt, itemRows_eq_nil h, List.nil_append]⟩

theorem Table.Wrote.perm (h : t.Wrote owner is)
    (hperm : (t'.itemRows owner).Perm (t.itemRows owner)) : t'.Wrote owner is := by
  obtain ⟨n, hn⟩ := h
  exact ⟨n, hperm.trans hn⟩

theorem Table.Wrote.cols (h : t.Wrote owner is) :
    ((t.itemRows owner).map Row.cols).Perm is := by
  obtain ⟨n, hn⟩ := h
  have hcols := hn.map Row.cols
  rwa [numbered_cols] at hcols

theorem Table.Wrote.eq_nil_iff (h : t.Wrote owner is) : t.itemRows owner = [] ↔ is = [] := by
  rw [← List.map_eq_nil_iff (f := Row.cols), ← List.length_eq_zero_iff, h.cols.length_eq,
    List.length_eq_zero_iff]

theorem Table.Wrote.orderById (h : t.Wrote owner is) : orderById (t.itemRows owner) = is := by
  obtain ⟨n, hn⟩ := h
  exact orderById_numbered hn

theorem Table.Wrote.orderBy (h : t.Wrote owner is) (h' : t'.Wrote owner' is)
    (htie : TieFree key is) :
    orderBy key (t.itemRows owner) = orderBy key (t'.itemRows owner') :=
  orderBy_eq h.cols h'.cols htie

/-- With a tie, the rows may be returned in an order that differs from any other. -/
theorem Table.Wrote.exists_ne (h : t.Wrote owner is) (htie : ¬TieFree key is) (l : List I) :
    ∃ t', t.Reorders t' ∧ (t'.itemRows owner).Perm (t.itemRows owner) ∧
      Relational.orderBy key (t'.itemRows owner) ≠ l := by
  have hrows : ¬TieFree key ((t.itemRows owner).map Row.cols) := by
    intro hfree
    exact htie fun i hi j hj => hfree i (h.cols.symm.subset hi) j (h.cols.symm.subset hj)
  obtain ⟨rows, hperm, hne⟩ := exists_orderBy_ne hrows l
  obtain ⟨t', ht', rfl⟩ := exists_reorder hperm
  exact ⟨t', ht', hperm, hne⟩

/-- The rows of two owners are read in one order, however each database returns them, exactly when
they have no ties. -/
theorem forall_orderBy_eq_iff {Db : Type*} (table : Db → Table (Owned I)) {P P' : Db → Prop}
    {db : Db} (hP : ∀ q, P q → (table q).Wrote owner is)
    (hP' : ∀ q, P' q → (table q).Wrote owner' is) (hdb : P db) (hdb' : P' db)
    (hreturn : ∀ t : Table (Owned I), (t.itemRows owner).Perm ((table db).itemRows owner) →
      ∃ q, P q ∧ table q = t) :
    (∀ q q', P q → P' q' → orderBy key ((table q).itemRows owner) =
      orderBy key ((table q').itemRows owner')) ↔ TieFree key is := by
  constructor
  · intro hall
    by_contra htie
    obtain ⟨t, -, hperm, hne⟩ := (hP db hdb).exists_ne htie
      (orderBy key ((table db).itemRows owner'))
    obtain ⟨q, hq, rfl⟩ := hreturn t hperm
    exact hne (hall q db hq hdb')
  · intro htie q q' hq hq'
    exact (hP q hq).orderBy (hP' q' hq') htie

theorem tieFree_id {is : List ℤ} : TieFree (fun i => i) is := fun _ _ _ _ h => h

theorem coe_items (h : (t'.itemRows owner).Perm (t.itemRows owner)) :
    (t'.items owner : Multiset I) = t.items owner := by
  rw [← itemRows_cols, ← itemRows_cols]
  exact Multiset.coe_eq_coe.mpr (h.map _)

/-- The rows of two owners have no identity in common. -/
theorem itemRows_disjoint (hne : owner ≠ owner') {r s : Row I} (hr : r ∈ t.itemRows owner)
    (hs : s ∈ t.itemRows owner') : r.id ≠ s.id := by
  intro hid
  have hrow := Table.eq_of_id (mem_itemRows.mp hr) (mem_itemRows.mp hs) hid
  exact hne (congrArg (fun r => r.cols.owner) hrow)

/-- What a query returns, up to order. -/
theorem coe_orderBy (key : I → ℤ) (h : (t'.itemRows owner).Perm (t.itemRows owner)) :
    (Relational.orderBy key (t'.itemRows owner) : Multiset I) = t.items owner := by
  rw [← itemRows_cols]
  exact Multiset.coe_eq_coe.mpr (orderBy_perm.trans (h.map _))

theorem coe_orderById (h : (t'.itemRows owner).Perm (t.itemRows owner)) :
    (Relational.orderById (t'.itemRows owner) : Multiset I) = t.items owner := by
  rw [← itemRows_cols]
  exact Multiset.coe_eq_coe.mpr (orderById_perm.trans (h.map _))

end Wrote

end Relational
