import Mathlib.Data.Int.Order.Basic
import Mathlib.Data.List.Nodup
import Mathlib.Data.List.Pairwise

namespace Relational

variable {C : Type*}

structure Row (C : Type*) where
  id : ℤ
  cols : C
  deriving DecidableEq, Repr

/-- The rows in the order in which the database happens to return them, and the identity
sequence. -/
structure Table (C : Type*) where
  rows : List (Row C)
  next : ℤ
  lt_next : ∀ r ∈ rows, r.id < next
  nodup : (rows.map Row.id).Nodup

/-- The checks on a row, foreign keys included, and the pairs of rows that a unique index keeps
apart. -/
structure Constraints (C : Type*) where
  check : C → Bool
  conflict : C → C → Bool

def Constraints.free : Constraints C := ⟨fun _ => true, fun _ _ => false⟩

def numbered : ℤ → List C → List (Row C)
  | _, [] => []
  | n, c :: cs => ⟨n, c⟩ :: numbered (n + 1) cs

section Numbered

variable {n : ℤ} {cs : List C} {r : Row C}

@[simp] theorem numbered_cols : (numbered n cs).map Row.cols = cs := by
  induction cs generalizing n with
  | nil => rfl
  | cons c cs ih => simp [numbered, ih]

@[simp] theorem numbered_length : (numbered n cs).length = cs.length := by
  rw [← List.length_map (f := Row.cols), numbered_cols]

theorem numbered_bounds (h : r ∈ numbered n cs) : n ≤ r.id ∧ r.id < n + cs.length := by
  induction cs generalizing n with
  | nil => cases h
  | cons c cs ih =>
    rcases List.mem_cons.mp h with rfl | h
    · simp only [List.length_cons]
      omega
    · have hbounds := ih h
      simp only [List.length_cons]
      omega

theorem numbered_sorted : (numbered n cs).Pairwise fun r s => r.id < s.id := by
  induction cs generalizing n with
  | nil => exact List.Pairwise.nil
  | cons c cs ih =>
    refine List.Pairwise.cons ?_ ih
    intro s hs
    have hbounds := (numbered_bounds hs).1
    show n < s.id
    omega

theorem numbered_nodup : ((numbered n cs).map Row.id).Nodup := by
  rw [List.Nodup, List.pairwise_map]
  exact numbered_sorted.imp fun h => ne_of_lt h

end Numbered

namespace Table

def empty : Table C := ⟨[], 1, by simp, List.nodup_nil⟩

instance : Inhabited (Table C) := ⟨empty⟩

variable (t : Table C)

def cols : List C := t.rows.map Row.cols

def findById (id : ℤ) : Option C := (t.rows.find? (·.id = id)).map Row.cols

def has (id : ℤ) : Bool := t.rows.any (·.id = id)

def deleteWhere (p : C → Bool) : Table C where
  rows := t.rows.filter fun r => !p r.cols
  next := t.next
  lt_next r hr := t.lt_next r (List.mem_filter.mp hr).1
  nodup := t.nodup.sublist (List.filter_sublist.map _)

/-- `UPDATE` of every row, by its identity. -/
def update (f : Row C → C) : Table C where
  rows := t.rows.map fun r => ⟨r.id, f r⟩
  next := t.next
  lt_next r hr := by
    obtain ⟨s, hs, rfl⟩ := List.mem_map.mp hr
    exact t.lt_next s hs
  nodup := by
    have hids : (t.rows.map fun r => (⟨r.id, f r⟩ : Row C)).map Row.id = t.rows.map Row.id := by
      rw [List.map_map]
      rfl
    rw [hids]
    exact t.nodup

def set (id : ℤ) (c : C) : Table C := t.update fun r => if r.id = id then c else r.cols

def insertAll (cs : List C) : Table C where
  rows := t.rows ++ numbered t.next cs
  next := t.next + cs.length
  lt_next r hr := by
    rcases List.mem_append.mp hr with hr | hr
    · have hlt := t.lt_next r hr
      omega
    · exact (numbered_bounds hr).2
  nodup := by
    rw [List.map_append, List.nodup_append]
    refine ⟨t.nodup, numbered_nodup, ?_⟩
    intro a ha b hb
    obtain ⟨r, hr, rfl⟩ := List.mem_map.mp ha
    obtain ⟨s, hs, rfl⟩ := List.mem_map.mp hb
    have hlt := t.lt_next r hr
    have hle := (numbered_bounds hs).1
    omega

def Satisfies (k : Constraints C) : Prop :=
  (∀ c ∈ t.cols, k.check c) ∧ t.cols.Pairwise fun c d => !k.conflict c d

instance (k : Constraints C) : Decidable (t.Satisfies k) :=
  inferInstanceAs (Decidable ((∀ c ∈ t.cols, k.check c) ∧ t.cols.Pairwise _))

/-- `insert_many`: an error without rows, and where a row breaks a constraint. -/
def insertMany (k : Constraints C) (cs : List C) : Option (Table C) :=
  if cs.isEmpty then none
  else if cs.all k.check ∧ (t.cols ++ cs).Pairwise fun c d => !k.conflict c d then
    some (t.insertAll cs)
  else none

/-- `insert`: the table with the row, and the identity the row was given. -/
def insert (k : Constraints C) (c : C) : Option (Table C × ℤ) :=
  (t.insertMany k [c]).map fun t' => (t', t.next)

/-- `insert_many` with the rows as they were stored, in the order in which they were given. -/
def insertManyReturning (k : Constraints C) (cs : List C) : Option (Table C × List (Row C)) :=
  (t.insertMany k cs).map fun t' => (t', numbered t.next cs)

/-- The update of one row; an error without the row, and where it breaks a constraint. -/
def updateById (k : Constraints C) (id : ℤ) (c : C) : Option (Table C) :=
  if t.has id ∧ (t.set id c).Satisfies k then some (t.set id c) else none

def Reorders (t t' : Table C) : Prop := t'.rows.Perm t.rows ∧ t'.next = t.next

variable {t} {t' : Table C} {k : Constraints C} {cs : List C} {c : C} {id : ℤ} {p : C → Bool}

@[ext] theorem ext (hrows : t.rows = t'.rows) (hnext : t.next = t'.next) : t = t' := by
  cases t
  cases t'
  simp only at hrows hnext
  subst hrows hnext
  rfl

@[simp] theorem insertAll_nil : t.insertAll [] = t := by
  apply Table.ext
  · simp [insertAll, numbered]
  · simp [insertAll]

theorem rows_insertAll : (t.insertAll cs).rows = t.rows ++ numbered t.next cs := rfl

@[simp] theorem cols_insertAll : (t.insertAll cs).cols = t.cols ++ cs := by
  simp [cols, insertAll]

@[simp] theorem cols_deleteWhere : (t.deleteWhere p).cols = t.cols.filter fun c => !p c := by
  simp [cols, deleteWhere, List.filter_map, Function.comp_def]

theorem Satisfies.deleteWhere (h : t.Satisfies k) : (t.deleteWhere p).Satisfies k := by
  refine ⟨?_, ?_⟩
  · intro c hc
    rw [cols_deleteWhere] at hc
    exact h.1 c (List.mem_filter.mp hc).1
  · rw [cols_deleteWhere]
    exact h.2.sublist List.filter_sublist

/-- Two rows of one table do not conflict. -/
theorem Satisfies.conflict_eq_false (h : t.Satisfies k)
    (hsymm : ∀ c d, k.conflict c d = k.conflict d c) {r s : Row C} (hr : r ∈ t.rows)
    (hs : s ∈ t.rows) (hne : r.id ≠ s.id) : k.conflict r.cols s.cols = false := by
  have hpairs : t.rows.Pairwise fun r s => !k.conflict r.cols s.cols := List.pairwise_map.mp h.2
  have : Std.Symm fun r s : Row C => !k.conflict r.cols s.cols :=
    ⟨fun r s hrs => by rwa [hsymm]⟩
  have hrs := hpairs.forall hr hs fun heq => hne (congrArg Row.id heq)
  simpa using hrs

/-- Constraints may be loosened, as by new rows that foreign keys refer to. -/
theorem Satisfies.mono {l : Constraints C} (h : t.Satisfies k)
    (hcheck : ∀ c, k.check c → l.check c) (hconflict : l.conflict = k.conflict) :
    t.Satisfies l := by
  refine ⟨fun c hc => hcheck c (h.1 c hc), ?_⟩
  rw [hconflict]
  exact h.2

theorem insertMany_eq_some (h : t.insertMany k cs = some t') :
    cs ≠ [] ∧ (∀ c ∈ cs, k.check c) ∧ (t.cols ++ cs).Pairwise (fun c d => !k.conflict c d) ∧
      t' = t.insertAll cs := by
  unfold insertMany at h
  split at h
  · cases h
  · next hne =>
    split at h
    · next hk =>
      refine ⟨by simpa using hne, by simpa using hk.1, hk.2, (Option.some.inj h).symm⟩
    · cases h

/-- Where no rows can conflict, the new rows are checked one by one. -/
theorem insertMany_eq (hconflict : ∀ c d, k.conflict c d = false) :
    t.insertMany k cs =
      if cs ≠ [] ∧ ∀ c ∈ cs, k.check c then some (t.insertAll cs) else none := by
  have hpairs : (t.cols ++ cs).Pairwise fun c d => k.conflict c d = false :=
    List.pairwise_of_forall hconflict
  unfold insertMany
  by_cases hnil : cs = []
  · simp [hnil]
  · simp [hnil, hpairs]

theorem insertManyReturning_eq (hconflict : ∀ c d, k.conflict c d = false) :
    t.insertManyReturning k cs =
      if cs ≠ [] ∧ ∀ c ∈ cs, k.check c then some (t.insertAll cs, numbered t.next cs) else none := by
  rw [insertManyReturning, insertMany_eq hconflict]
  split <;> rfl

theorem Satisfies.insertMany (h : t.Satisfies k) (hi : t.insertMany k cs = some t') :
    t'.Satisfies k := by
  obtain ⟨-, hcheck, hpairs, rfl⟩ := insertMany_eq_some hi
  refine ⟨?_, by rwa [cols_insertAll]⟩
  intro c hc
  rw [cols_insertAll] at hc
  rcases List.mem_append.mp hc with hc | hc
  · exact h.1 c hc
  · exact hcheck c hc

theorem has_iff : t.has id ↔ ∃ r ∈ t.rows, r.id = id := by
  simp [has]

theorem has_lt (h : t.has id) : id < t.next := by
  obtain ⟨r, hr, rfl⟩ := has_iff.mp h
  exact t.lt_next r hr

theorem has_eq_false (hid : t.next ≤ id) : t.has id = false := by
  rw [Bool.eq_false_iff]
  intro h
  exact absurd (has_lt h) (not_lt.mpr hid)

theorem has_next : t.has t.next = false := has_eq_false le_rfl

theorem has_insertAll (h : t.has id) : (t.insertAll cs).has id := by
  obtain ⟨r, hr, hid⟩ := has_iff.mp h
  exact has_iff.mpr ⟨r, List.mem_append_left _ hr, hid⟩

theorem eq_of_id {r s : Row C} (hr : r ∈ t.rows) (hs : s ∈ t.rows) (h : r.id = s.id) : r = s :=
  List.inj_on_of_nodup_map t.nodup hr hs h

theorem findById_of_mem {r : Row C} (hr : r ∈ t.rows) : t.findById r.id = some r.cols := by
  unfold findById
  cases hf : t.rows.find? (·.id = r.id) with
  | none =>
    have hnone := List.find?_eq_none.mp hf r hr
    simp at hnone
  | some s =>
    have hid : s.id = r.id := by simpa using List.find?_some hf
    rw [eq_of_id (List.mem_of_find?_eq_some hf) hr hid]
    rfl

theorem findById_eq_some : t.findById id = some c ↔ ⟨id, c⟩ ∈ t.rows := by
  constructor
  · intro h
    obtain ⟨r, hr, rfl⟩ := Option.map_eq_some_iff.mp h
    have hid : r.id = id := by simpa using List.find?_some hr
    rw [← hid]
    exact List.mem_of_find?_eq_some hr
  · intro h
    exact findById_of_mem h

theorem has_iff_findById : t.has id ↔ ∃ c, t.findById id = some c := by
  rw [has_iff]
  constructor
  · rintro ⟨r, hr, rfl⟩
    exact ⟨r.cols, findById_of_mem hr⟩
  · rintro ⟨c, hc⟩
    exact ⟨⟨id, c⟩, findById_eq_some.mp hc, rfl⟩

@[simp] theorem has_update {f : Row C → C} : (t.update f).has id = t.has id := by
  simp [has, update, List.any_map, Function.comp_def]

@[simp] theorem has_set {i : ℤ} : (t.set i c).has id = t.has id := has_update

theorem findById_update {f : Row C → C} (h : t.findById id = some c) :
    (t.update f).findById id = some (f ⟨id, c⟩) := by
  rw [findById_eq_some] at h ⊢
  exact List.mem_map.mpr ⟨⟨id, c⟩, h, rfl⟩

theorem findById_update_eq_none {f : Row C → C} (h : t.findById id = none) :
    (t.update f).findById id = none := by
  have hhas : ¬t.has id := by
    rw [has_iff_findById, h]
    simp
  rw [← has_update (f := f), has_iff_findById] at hhas
  simpa [Option.eq_none_iff_forall_ne_some] using hhas

theorem findById_set (h : t.has id) : (t.set id c).findById id = some c := by
  obtain ⟨d, hd⟩ := has_iff_findById.mp h
  rw [set, findById_update hd]
  simp

theorem findById_set_of_ne {i : ℤ} (h : id ≠ i) : (t.set i c).findById id = t.findById id := by
  cases hf : t.findById id with
  | none => exact findById_update_eq_none hf
  | some d =>
    rw [set, findById_update hf]
    simp [h]

theorem findById_insertAll {d : C} (h : t.findById id = some d) :
    (t.insertAll cs).findById id = some d := by
  rw [findById_eq_some] at h ⊢
  exact List.mem_append_left _ h

theorem findById_insertAll_next : (t.insertAll [c]).findById t.next = some c := by
  rw [findById_eq_some]
  exact List.mem_append_right _ List.mem_cons_self

theorem findById_insertAll_of_ne (h : id ≠ t.next) :
    (t.insertAll [c]).findById id = t.findById id := by
  simp [findById, rows_insertAll, numbered, List.find?_append, h.symm]

theorem insert_eq_some (h : t.insert k c = some (t', id)) :
    k.check c ∧ t' = t.insertAll [c] ∧ id = t.next := by
  obtain ⟨s, hs, heq⟩ := Option.map_eq_some_iff.mp h
  obtain ⟨rfl, rfl⟩ := Prod.mk.inj heq
  obtain ⟨-, hcheck, -, rfl⟩ := insertMany_eq_some hs
  exact ⟨hcheck c List.mem_cons_self, rfl, rfl⟩

theorem Satisfies.insert (h : t.Satisfies k) (hi : t.insert k c = some (t', id)) :
    t'.Satisfies k := by
  obtain ⟨s, hs, heq⟩ := Option.map_eq_some_iff.mp hi
  obtain ⟨rfl, rfl⟩ := Prod.mk.inj heq
  exact h.insertMany hs

theorem updateById_eq_some (h : t.updateById k id c = some t') :
    t.has id ∧ t'.Satisfies k ∧ t' = t.set id c := by
  unfold updateById at h
  split at h
  · next hk =>
    obtain rfl := Option.some.inj h
    exact ⟨hk.1, hk.2, rfl⟩
  · cases h

@[simp] theorem satisfies_empty : (empty : Table C).Satisfies k := by
  refine ⟨?_, List.Pairwise.nil⟩
  intro c hc
  cases hc

@[simp] theorem satisfies_free : t.Satisfies Constraints.free := by
  simp [Satisfies, Constraints.free, List.pairwise_of_forall]

/-- Where no rows can conflict, an update is checked on the new columns only. -/
theorem Satisfies.updateById_eq (h : t.Satisfies k) (hid : t.has id) (hcheck : k.check c)
    (hconflict : ∀ c d, k.conflict c d = false) : t.updateById k id c = some (t.set id c) := by
  have hset : (t.set id c).Satisfies k := by
    refine ⟨?_, ?_⟩
    · intro d hd
      obtain ⟨r, hr, rfl⟩ := List.mem_map.mp hd
      obtain ⟨q, hq, rfl⟩ := List.mem_map.mp hr
      by_cases hqid : q.id = id
      · simpa [hqid] using hcheck
      · simpa [hqid] using h.1 _ (List.mem_map_of_mem hq)
    · exact List.pairwise_of_forall fun d e => by simp [hconflict]
  rw [updateById, if_pos ⟨hid, hset⟩]

theorem insert_free : t.insert .free c = some (t.insertAll [c], t.next) := by
  unfold insert
  rw [insertMany_eq fun _ _ => rfl, if_pos ⟨List.cons_ne_nil _ _, fun _ _ => rfl⟩]
  rfl

theorem updateById_free (h : t.has id) : t.updateById .free id c = some (t.set id c) := by
  simp [updateById, h]

end Table

end Relational
