import Mathlib.Data.Multiset.Filter
import Mathlib.Data.Multiset.MapFold
import Thcdb.Relational.Table

namespace Relational

variable {I : Type*}

structure Owned (I : Type*) where
  owner : ℤ
  item : I
  deriving DecidableEq, Repr

/-- What the database asks of a child row: that its owner exists, its other foreign keys and
checks, and, if `unique`, that no other row has the same columns. -/
structure ChildSchema (I : Type*) where
  owner : ℤ → Bool
  item : ℤ → I → Bool
  unique : Bool

def ChildSchema.check (S : ChildSchema I) (owner : ℤ) (i : I) : Bool :=
  S.owner owner && S.item owner i

def ChildSchema.constraints [DecidableEq I] (S : ChildSchema I) : Constraints (Owned I) where
  check c := S.check c.owner c.item
  conflict c d := S.unique && c = d

/-- The rows of one owner, in the order of the table. -/
def Table.items (t : Table (Owned I)) (owner : ℤ) : List I :=
  (t.rows.filter fun r => r.cols.owner = owner).map fun r => r.cols.item

def Table.itemRows (t : Table (Owned I)) (owner : ℤ) : List (Row I) :=
  (t.rows.filter fun r => r.cols.owner = owner).map fun r => ⟨r.id, r.cols.item⟩

def Table.disown (t : Table (Owned I)) (owner : ℤ) : Table (Owned I) :=
  t.deleteWhere fun c => c.owner = owner

def Table.adopt (t : Table (Owned I)) (owner : ℤ) (items : List I) : Table (Owned I) :=
  t.insertAll (items.map (Owned.mk owner))

variable [DecidableEq I]

/-- The rows of a new owner; the list may be empty. -/
def createChildren (S : ChildSchema I) (t : Table (Owned I)) (owner : ℤ) (items : List I) :
    Option (Table (Owned I)) :=
  if items.isEmpty then some t else t.insertMany S.constraints (items.map (Owned.mk owner))

/-- The rows of a new owner, if any are given. -/
def createGiven (S : ChildSchema I) (t : Table (Owned I)) (owner : ℤ) (items : Option (List I)) :
    Option (Table (Owned I)) :=
  items.elim (some t) (createChildren S t owner)

/-- The rows of the owner are deleted and those of the history put in their place. -/
def updateChildren (S : ChildSchema I) (live history : Table (Owned I)) (owner historyId : ℤ) :
    Option (Table (Owned I)) :=
  createChildren S (live.disown owner) owner (history.items historyId)

section Items

variable {t t' : Table (Owned I)} {owner other : ℤ} {items : List I} {S : ChildSchema I}

omit [DecidableEq I]

theorem items_eq_cols :
    t.items owner = (t.cols.filter fun c => c.owner = owner).map Owned.item := by
  simp [Table.items, Table.cols, List.filter_map, Function.comp_def]

theorem mem_cols_adopt {c : Owned I} :
    c ∈ (t.adopt owner items).cols ↔ c ∈ t.cols ∨ ∃ i ∈ items, c = ⟨owner, i⟩ := by
  simp [Table.adopt, eq_comm]

@[simp] theorem items_adopt :
    (t.adopt owner items).items owner = t.items owner ++ items := by
  simp [items_eq_cols, Table.adopt, List.filter_map, Function.comp_def]

@[simp] theorem items_adopt_of_ne (h : other ≠ owner) :
    (t.adopt owner items).items other = t.items other := by
  simp [items_eq_cols, Table.adopt, List.filter_map, Function.comp_def, h.symm]

@[simp] theorem items_disown : (t.disown owner).items owner = [] := by
  simp [items_eq_cols, Table.disown, List.filter_filter]

@[simp] theorem items_disown_of_ne (h : other ≠ owner) :
    (t.disown owner).items other = t.items other := by
  have hfilter : ∀ c : Owned I, (decide (c.owner = other) && !decide (c.owner = owner)) =
      decide (c.owner = other) := by
    intro c
    by_cases hc : c.owner = other
    · simp [hc, h]
    · simp [hc]
  simp [items_eq_cols, Table.disown, List.filter_filter, hfilter]

@[simp] theorem itemRows_cols : (t.itemRows owner).map Row.cols = t.items owner := by
  simp [Table.itemRows, Table.items, Function.comp_def]

theorem itemRows_eq_nil (h : t.items owner = []) : t.itemRows owner = [] := by
  rwa [← itemRows_cols, List.map_eq_nil_iff] at h

theorem itemRows_nodup : ((t.itemRows owner).map Row.id).Nodup := by
  have hids : (t.itemRows owner).map Row.id =
      (t.rows.filter fun r => r.cols.owner = owner).map Row.id := by
    simp [Table.itemRows, Function.comp_def]
  rw [hids]
  exact t.nodup.sublist (List.filter_sublist.map _)

theorem mem_itemRows {r : Row I} : r ∈ t.itemRows owner ↔ ⟨r.id, owner, r.cols⟩ ∈ t.rows := by
  constructor
  · intro h
    obtain ⟨q, hq, rfl⟩ := List.mem_map.mp h
    obtain ⟨hmem, hown⟩ := List.mem_filter.mp hq
    rw [← of_decide_eq_true hown]
    exact hmem
  · intro h
    exact List.mem_map.mpr ⟨_, List.mem_filter.mpr ⟨h, by simp⟩, rfl⟩

theorem numbered_map {n : ℤ} {C : Type*} {f : I → C} :
    numbered n (items.map f) = (numbered n items).map fun r => ⟨r.id, f r.cols⟩ := by
  induction items generalizing n with
  | nil => rfl
  | cons i items ih => simp [numbered, ih]

@[simp] theorem itemRows_adopt :
    (t.adopt owner items).itemRows owner = t.itemRows owner ++ numbered t.next items := by
  simp [Table.itemRows, Table.adopt, Table.insertAll, numbered_map, List.filter_map,
    Function.comp_def]

@[simp] theorem itemRows_adopt_of_ne (h : other ≠ owner) :
    (t.adopt owner items).itemRows other = t.itemRows other := by
  simp [Table.itemRows, Table.adopt, Table.insertAll, numbered_map, List.filter_map,
    Function.comp_def, h.symm]

@[simp] theorem next_disown : (t.disown owner).next = t.next := rfl

@[simp] theorem itemRows_disown : (t.disown owner).itemRows owner = [] := by
  simp [Table.itemRows, Table.disown, Table.deleteWhere, List.filter_filter]

theorem items_eq_nil_of_lt {n : ℤ} (h : ∀ c ∈ t.cols, c.owner < n) : t.items n = [] := by
  rw [items_eq_cols, List.map_eq_nil_iff, List.filter_eq_nil_iff]
  intro c hc
  have hlt := h c hc
  simp only [decide_eq_true_eq]
  omega

theorem mem_items {i : I} : i ∈ t.items owner ↔ ⟨owner, i⟩ ∈ t.cols := by
  rw [items_eq_cols]
  constructor
  · intro h
    obtain ⟨c, hc, rfl⟩ := List.mem_map.mp h
    obtain ⟨hmem, hown⟩ := List.mem_filter.mp hc
    rw [← of_decide_eq_true hown]
    exact hmem
  · intro h
    exact List.mem_map.mpr ⟨⟨owner, i⟩, List.mem_filter.mpr ⟨h, by simp⟩, rfl⟩

end Items

section Satisfies

variable {t t' live history : Table (Owned I)} {owner historyId : ℤ} {items : List I}
  {S T : ChildSchema I}

omit [DecidableEq I] in
theorem ChildSchema.check_iff {i : I} : S.check owner i ↔ S.owner owner ∧ S.item owner i := by
  simp [ChildSchema.check]

theorem check_of_satisfies (h : t.Satisfies S.constraints) {i : I} (hi : i ∈ t.items owner) :
    S.owner owner ∧ S.item owner i :=
  ChildSchema.check_iff.mp (h.1 _ (mem_items.mp hi))

theorem Table.Satisfies.of_check (h : t.Satisfies S.constraints) (hunique : T.unique = S.unique)
    (howner : ∀ o, S.owner o → T.owner o) (hitem : ∀ o i, S.item o i → T.item o i) :
    t.Satisfies T.constraints := by
  refine h.mono ?_ ?_
  · intro c hc
    obtain ⟨ho, hi⟩ := ChildSchema.check_iff.mp hc
    exact ChildSchema.check_iff.mpr ⟨howner _ ho, hitem _ _ hi⟩
  · simp only [ChildSchema.constraints, hunique]

/-- No rows hang on an owner that does not exist. -/
theorem items_eq_nil (h : t.Satisfies S.constraints) (hn : S.owner owner = false) :
    t.items owner = [] := by
  rw [List.eq_nil_iff_forall_not_mem]
  intro i hi
  have howner := (check_of_satisfies h hi).1
  rw [hn] at howner
  cases howner

/-- An owner that did not exist has only the rows it is given. -/
theorem items_adopt_of_fresh (h : t.Satisfies S.constraints) (hn : S.owner owner = false)
    (items : List I) :
    (t.adopt owner items).items owner = items := by
  rw [items_adopt, items_eq_nil h hn, List.nil_append]

theorem nodup_of_satisfies (h : t.Satisfies S.constraints) (hu : S.unique) :
    (t.items owner).Nodup := by
  have hcols : t.cols.Nodup := h.2.imp (by simp [ChildSchema.constraints, hu])
  rw [items_eq_cols]
  refine List.Nodup.map_on ?_ (hcols.filter _)
  intro c hc d hd hitem
  obtain ⟨-, hco⟩ := List.mem_filter.mp hc
  obtain ⟨-, hdo⟩ := List.mem_filter.mp hd
  have howner : c.owner = d.owner := (of_decide_eq_true hco).trans (of_decide_eq_true hdo).symm
  cases c
  cases d
  simp only at howner hitem
  rw [howner, hitem]

theorem constraints_pairwise : (items.map (Owned.mk owner)).Pairwise
    (fun c d => !S.constraints.conflict c d) ↔ (S.unique → items.Nodup) := by
  rw [List.pairwise_map]
  cases hu : S.unique with
  | false => simp [ChildSchema.constraints, hu, List.pairwise_of_forall]
  | true => simp [ChildSchema.constraints, hu, List.Nodup]

theorem createChildren_eq_some (h : createChildren S t owner items = some t') :
    (∀ i ∈ items, S.check owner i) ∧ t' = t.adopt owner items := by
  unfold createChildren at h
  split at h
  · next hnil =>
    rw [List.isEmpty_iff.mp hnil, Table.adopt, List.map_nil, Table.insertAll_nil]
    exact ⟨by simp, (Option.some.inj h).symm⟩
  · obtain ⟨-, hcheck, -, rfl⟩ := Table.insertMany_eq_some h
    exact ⟨fun i hi => hcheck _ (List.mem_map_of_mem hi), rfl⟩

theorem getD_map {α β : Type*} {f : α → β} {o : Option (List α)} :
    (o.map (List.map f)).getD [] = (o.getD []).map f := by
  cases o <;> rfl

theorem createGiven_eq {items : Option (List I)} :
    createGiven S t owner items = createChildren S t owner (items.getD []) := by
  cases items <;> rfl

theorem Table.Satisfies.createChildren (h : t.Satisfies S.constraints)
    (hc : createChildren S t owner items = some t') : t'.Satisfies S.constraints := by
  unfold Relational.createChildren at hc
  split at hc
  · obtain rfl := Option.some.inj hc
    exact h
  · exact h.insertMany hc

/-- What it takes to give an owner without rows its rows. -/
theorem createChildren_eq (h : t.Satisfies S.constraints) (hnone : t.items owner = []) :
    createChildren S t owner items =
      if (∀ i ∈ items, S.check owner i) ∧ (S.unique → items.Nodup) then
        some (t.adopt owner items)
      else none := by
  cases hitems : items with
  | nil => simp [createChildren, Table.adopt]
  | cons i is =>
    rw [← hitems]
    have hne : items ≠ [] := by simp [hitems]
    have hcheck : (items.map (Owned.mk owner)).all S.constraints.check ↔
        ∀ i ∈ items, S.check owner i := by
      simp [ChildSchema.constraints]
    have hpairs : ((t.cols ++ items.map (Owned.mk owner)).Pairwise
        fun c d => !S.constraints.conflict c d) ↔ (S.unique → items.Nodup) := by
      rw [List.pairwise_append, constraints_pairwise]
      refine ⟨fun hp => hp.2.1, fun hn => ⟨h.2, hn, ?_⟩⟩
      intro c hc d hd
      obtain ⟨i, -, rfl⟩ := List.mem_map.mp hd
      have hcd : c ≠ ⟨owner, i⟩ := by
        intro heq
        have hmem := mem_items.mpr (heq ▸ hc)
        rw [hnone] at hmem
        cases hmem
      simp [ChildSchema.constraints, hcd]
    unfold createChildren Table.insertMany Table.adopt
    rw [if_neg (by simpa using hne), if_neg (by simpa using hne)]
    simp only [hcheck, hpairs]

/-- An owner without rows gets rows that may be there. -/
theorem createChildren_eq_adopt (h : t.Satisfies S.constraints) (hnone : t.items owner = [])
    (howner : S.owner owner) (hitem : ∀ i ∈ items, S.item owner i)
    (hnodup : S.unique → items.Nodup) :
    createChildren S t owner items = some (t.adopt owner items) := by
  rw [createChildren_eq h hnone]
  exact if_pos ⟨fun i hi => ChildSchema.check_iff.mpr ⟨howner, hitem i hi⟩, hnodup⟩

/-- The children of an owner become those of the history. -/
theorem updateChildren_eq (h : live.Satisfies S.constraints)
    (hh : history.Satisfies T.constraints) (hu : S.unique → T.unique) (howner : S.owner owner) :
    updateChildren S live history owner historyId =
      if ∀ i ∈ history.items historyId, S.item owner i then
        some ((live.disown owner).adopt owner (history.items historyId))
      else none := by
  have hnodup : S.unique → (history.items historyId).Nodup :=
    fun hS => nodup_of_satisfies hh (hu hS)
  have hlive : (live.disown owner).Satisfies S.constraints := h.deleteWhere
  unfold updateChildren
  rw [createChildren_eq hlive items_disown]
  simp only [ChildSchema.check_iff, howner, true_and]
  exact if_congr (and_iff_left hnodup) rfl rfl

/-- Where the foreign keys of the history are those of the live table, nothing can go wrong. -/
theorem updateChildren_eq_some (historyId : ℤ) (h : live.Satisfies S.constraints)
    (hh : history.Satisfies T.constraints) (hu : S.unique → T.unique) (howner : S.owner owner)
    (hitem : ∀ i, T.item historyId i → S.item owner i) :
    updateChildren S live history owner historyId =
      some ((live.disown owner).adopt owner (history.items historyId)) := by
  rw [updateChildren_eq h hh hu howner]
  exact if_pos fun i hi => hitem i (check_of_satisfies hh hi).2

end Satisfies

end Relational
