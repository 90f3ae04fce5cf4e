import Mathlib.Data.List.Dedup
import Mathlib.Data.List.Sort
import Mathlib.Data.String.Basic

namespace Json

def numeric (c : Char) : Bool := c.isDigit || c == '-' || c == '.' || c == 'e'

/-- A finite double by the shortest decimal text that reads back as it. The two zeros, which
compare as equal, are the one with the text 0.0. -/
@[ext]
structure Double where
  text : String
  isNumeric : ∀ c ∈ text.toList, numeric c
  pointed : ∃ c ∈ text.toList, c = '.' ∨ c = 'e'
  deriving DecidableEq

/-- Numbers are integers or doubles; a date is printed as text of its own. -/
inductive Value
  | null
  | bool (b : Bool)
  | num (n : ℤ)
  | float (x : Double)
  | str (s : String)
  | date (day : ℤ)
  | arr (vs : List Value)
  | obj (fields : List (String × Value))

namespace Value

section Equality

mutual

def beq : Value → Value → Bool
  | .null, .null => true
  | .bool a, .bool b => a == b
  | .num a, .num b => a == b
  | .float a, .float b => a == b
  | .str a, .str b => a == b
  | .date a, .date b => a == b
  | .arr xs, .arr ys => beqList xs ys
  | .obj xs, .obj ys => beqFields xs ys
  | _, _ => false

def beqList : List Value → List Value → Bool
  | [], [] => true
  | x :: xs, y :: ys => beq x y && beqList xs ys
  | _, _ => false

def beqFields : List (String × Value) → List (String × Value) → Bool
  | [], [] => true
  | (k, x) :: xs, (l, y) :: ys => k == l && beq x y && beqFields xs ys
  | _, _ => false

end

mutual

theorem beq_iff : ∀ {a b : Value}, beq a b ↔ a = b
  | .null, b => by cases b <;> simp [beq]
  | .bool _, b => by cases b <;> simp [beq]
  | .num _, b => by cases b <;> simp [beq]
  | .float _, b => by cases b <;> simp [beq]
  | .str _, b => by cases b <;> simp [beq]
  | .date _, b => by cases b <;> simp [beq]
  | .arr xs, b => by
    cases b with
    | arr ys => simpa [beq] using beqList_iff
    | _ => simp [beq]
  | .obj xs, b => by
    cases b with
    | obj ys => simpa [beq] using beqFields_iff
    | _ => simp [beq]

theorem beqList_iff : ∀ {xs ys : List Value}, beqList xs ys ↔ xs = ys
  | [], ys => by cases ys <;> simp [beqList]
  | x :: xs, ys => by
    cases ys with
    | nil => simp [beqList]
    | cons y ys => simp [beqList, beq_iff, beqList_iff]

theorem beqFields_iff : ∀ {xs ys : List (String × Value)}, beqFields xs ys ↔ xs = ys
  | [], ys => by cases ys <;> simp [beqFields]
  | (k, x) :: xs, ys => by
    cases ys with
    | nil => simp [beqFields]
    | cons y ys => simp [beqFields, beq_iff, beqFields_iff, Prod.ext_iff, and_assoc]

end

instance : DecidableEq Value := fun _ _ => decidable_of_iff _ beq_iff

end Equality

end Value

abbrev Fields := List (String × Value)

namespace Fields

/-- Insertion into a map; a key that is there gets the new value. -/
def insert (key : String) (v : Value) : Fields → Fields
  | [] => [(key, v)]
  | p :: m =>
    if key < p.1 then (key, v) :: p :: m
    else if key = p.1 then (key, v) :: m
    else p :: insert key v m

def get (key : String) : Fields → Option Value
  | [] => none
  | p :: m => if key = p.1 then some p.2 else get key m

def keys (m : Fields) : List String := m.map Prod.fst

def collect (fields : Fields) : Fields := fields.foldl (fun m p => insert p.1 p.2 m) []

def Ascending (m : Fields) : Prop := m.Pairwise fun p q => p.1 < q.1

end Fields

def object (fields : Fields) : Value := .obj fields.collect

/-- Every object that is reached through objects is a map. -/
inductive Canonical : Value → Prop
  | obj {m : Fields} : m.Ascending → (∀ p ∈ m, Canonical p.2) → Canonical (.obj m)
  | leaf {v : Value} : (∀ m, v ≠ .obj m) → Canonical v

theorem Canonical.map {m : Fields} (h : Canonical (.obj m)) :
    m.Ascending ∧ ∀ p ∈ m, Canonical p.2 := by
  cases h with
  | obj hm hv => exact ⟨hm, hv⟩
  | leaf hleaf => exact absurd rfl (hleaf m)

namespace Fields

variable {m m' fields fields' : Fields} {key k : String} {v : Value} {p : String × Value}

theorem mem_insert (h : p ∈ insert key v m) : p = (key, v) ∨ p ∈ m := by
  induction m with
  | nil => exact Or.inl (List.mem_singleton.mp h)
  | cons q m ih =>
    unfold insert at h
    split at h
    · exact List.mem_cons.mp h
    · split at h
      · rcases List.mem_cons.mp h with h | h
        · exact Or.inl h
        · exact Or.inr (List.mem_cons_of_mem _ h)
      · rcases List.mem_cons.mp h with rfl | h
        · exact Or.inr List.mem_cons_self
        · exact (ih h).imp_right (List.mem_cons_of_mem _)

theorem Ascending.insert (h : m.Ascending) : (m.insert key v).Ascending := by
  induction m with
  | nil => exact List.pairwise_singleton _ _
  | cons q m ih =>
    obtain ⟨hq, hm⟩ := List.pairwise_cons.mp h
    unfold Fields.insert
    split
    · next hlt =>
      refine List.pairwise_cons.mpr ⟨?_, h⟩
      intro p hp
      rcases List.mem_cons.mp hp with rfl | hp
      · exact hlt
      · exact hlt.trans (hq p hp)
    · next hlt =>
      split
      · next heq =>
        refine List.pairwise_cons.mpr ⟨?_, hm⟩
        intro p hp
        rw [heq]
        exact hq p hp
      · next hne =>
        refine List.pairwise_cons.mpr ⟨?_, ih hm⟩
        intro p hp
        rcases mem_insert hp with rfl | hp
        · exact lt_of_le_of_ne (not_lt.mp hlt) (Ne.symm hne)
        · exact hq p hp

theorem get_insert : get k (insert key v m) = if k = key then some v else get k m := by
  induction m with
  | nil => rfl
  | cons q m ih =>
    unfold insert
    split
    · rfl
    · split
      · next heq => by_cases hk : k = key <;> simp [get, hk, ← heq]
      · next hne =>
        by_cases hkq : k = q.1
        · simp [get, hkq, Ne.symm hne]
        · simp [get, hkq, ih]

theorem get_eq_none (h : key ∉ m.keys) : get key m = none := by
  induction m with
  | nil => rfl
  | cons q m ih =>
    have hne : key ≠ q.1 := fun heq => h (heq ▸ List.mem_cons_self)
    rw [get, if_neg hne, ih fun hmem => h (List.mem_cons_of_mem _ hmem)]

theorem mem_of_get (h : get key m = some v) : (key, v) ∈ m := by
  induction m with
  | nil => cases h
  | cons q m ih =>
    unfold get at h
    split at h
    · next heq =>
      obtain rfl := Option.some.inj h
      rw [heq]
      exact List.mem_cons_self
    · exact List.mem_cons_of_mem _ (ih h)

/-- Maps with the same entries are equal. -/
theorem Ascending.ext (h : m.Ascending) (h' : m'.Ascending) (hget : ∀ k, get k m = get k m') :
    m = m' := by
  induction m generalizing m' with
  | nil =>
    cases m' with
    | nil => rfl
    | cons q m' =>
      have hq := hget q.1
      simp [get] at hq
  | cons p m ih =>
    cases m' with
    | nil =>
      have hp := hget p.1
      simp [get] at hp
    | cons q m' =>
      obtain ⟨hp, hm⟩ := List.pairwise_cons.mp h
      obtain ⟨hq, hm'⟩ := List.pairwise_cons.mp h'
      -- the smaller of two first keys would be missing from the other map
      have hfirst : p.1 = q.1 := by
        rcases lt_trichotomy p.1 q.1 with hlt | heq | hlt
        · have hnone : get p.1 m' = none := get_eq_none fun hmem => by
            obtain ⟨r, hr, hrp⟩ := List.mem_map.mp hmem
            exact absurd (hrp ▸ hq r hr) (not_lt.mpr hlt.le)
          have hp' := hget p.1
          simp [get, hlt.ne, hnone] at hp'
        · exact heq
        · have hnone : get q.1 m = none := get_eq_none fun hmem => by
            obtain ⟨r, hr, hrq⟩ := List.mem_map.mp hmem
            exact absurd (hrq ▸ hp r hr) (not_lt.mpr hlt.le)
          have hq' := hget q.1
          simp [get, hlt.ne, hnone] at hq'
      have hsecond : p.2 = q.2 := by
        have hp' := hget p.1
        simpa [get, hfirst] using hp'
      have hrest : m = m' := by
        refine ih hm hm' fun k => ?_
        by_cases hk : k = p.1
        · rw [hk, get_eq_none, hfirst, get_eq_none]
          · intro hmem
            obtain ⟨r, hr, hrq⟩ := List.mem_map.mp hmem
            exact absurd (hq r hr) (hrq ▸ lt_irrefl _)
          · intro hmem
            obtain ⟨r, hr, hrp⟩ := List.mem_map.mp hmem
            exact absurd (hp r hr) (hrp ▸ lt_irrefl _)
        · have hk' := hget k
          simpa [get, hk, ← hfirst] using hk'
      rw [Prod.ext hfirst hsecond, hrest]

theorem ascending_foldl (h : m.Ascending) :
    Ascending (fields.foldl (fun m p => insert p.1 p.2 m) m) := by
  induction fields generalizing m with
  | nil => exact h
  | cons p fields ih => exact ih h.insert

theorem ascending_collect : fields.collect.Ascending := ascending_foldl List.Pairwise.nil

theorem mem_foldl (h : p ∈ fields.foldl (fun m p => insert p.1 p.2 m) m) :
    p ∈ fields ∨ p ∈ m := by
  induction fields generalizing m with
  | nil => exact Or.inr h
  | cons q fields ih =>
    rcases ih h with h | h
    · exact Or.inl (List.mem_cons_of_mem _ h)
    · rcases mem_insert h with rfl | h
      · exact Or.inl List.mem_cons_self
      · exact Or.inr h

theorem mem_of_mem_collect (h : p ∈ fields.collect) : p ∈ fields :=
  (mem_foldl h).resolve_right List.not_mem_nil

theorem get_foldl (hnodup : fields.keys.Nodup) :
    get k (fields.foldl (fun m p => insert p.1 p.2 m) m) = (get k fields).or (get k m) := by
  induction fields generalizing m with
  | nil => rfl
  | cons p fields ih =>
    obtain ⟨hp, hrest⟩ := List.nodup_cons.mp hnodup
    rw [List.foldl_cons, ih hrest, get_insert]
    by_cases hk : k = p.1
    · have hnone : get k fields = none := get_eq_none (hk ▸ hp)
      simp [get, hnone, ← hk]
    · simp [get, hk]

theorem get_collect (hnodup : fields.keys.Nodup) : get k fields.collect = get k fields := by
  have h := get_foldl (k := k) (m := []) hnodup
  rw [collect, h]
  simp [get]

theorem eq_of_get (hkeys : m.keys = m'.keys) (hnodup : m.keys.Nodup)
    (hget : ∀ k ∈ m.keys, get k m = get k m') : m = m' := by
  induction m generalizing m' with
  | nil => exact (List.map_eq_nil_iff.mp hkeys.symm).symm
  | cons p m ih =>
    cases m' with
    | nil => cases hkeys
    | cons q m' =>
      obtain ⟨hfirst, hrest⟩ := List.cons.inj hkeys
      obtain ⟨hp, hm⟩ := List.nodup_cons.mp hnodup
      have hsecond := hget p.1 List.mem_cons_self
      have htail : m = m' := by
        refine ih hrest hm fun k hk => ?_
        have hne : k ≠ p.1 := fun heq => hp (heq ▸ hk)
        have hk' := hget k (List.mem_cons_of_mem _ hk)
        simpa [get, hne, ← hfirst] using hk'
      simp only [get, if_true, if_pos hfirst] at hsecond
      rw [Prod.ext hfirst (Option.some.inj hsecond), htail]

end Fields

/-- Literals with the same keys are equal in each of their values only. -/
theorem object_inj {fields fields' : Fields} (hkeys : fields.keys = fields'.keys)
    (hnodup : fields.keys.Nodup) : object fields = object fields' ↔ fields = fields' := by
  constructor
  · intro h
    have hmaps : fields.collect = fields'.collect := Value.obj.inj h
    refine Fields.eq_of_get hkeys hnodup fun k _ => ?_
    rw [← Fields.get_collect hnodup, hmaps, Fields.get_collect (hkeys ▸ hnodup)]
  · rintro rfl
    rfl

theorem canonical_object {fields : Fields} (h : ∀ p ∈ fields, Canonical p.2) :
    Canonical (object fields) :=
  .obj Fields.ascending_collect fun p hp => h p (Fields.mem_of_mem_collect hp)

end Json
