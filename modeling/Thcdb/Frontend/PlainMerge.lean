import Thcdb.Frontend.DeepMerge

namespace Thcdb.Frontend.DeepMerge

open Objects

variable {κ : Type}

/-- A value as what its paths end in. -/
abbrev View (κ : Type) := List κ → Option (Shape Leaf)

def View.sub (T : View κ) (k : κ) : View κ := fun p => T (k :: p)

/-- Every place on the path is a plain object, the last one included. -/
def Plain (T : View κ) (p : List κ) : Prop := ∀ q, q <+: p → T q = some .object

/-- The merge of two plain objects: under each key the recursive merge when both values are plain
objects, the left value when the right side lacks the key or holds `undefined` under a key of the
left side, and the right value otherwise. -/
def merge : View κ → View κ → View κ
  | T, _, [] => T []
  | T, S, k :: p =>
    if T [k] = some .object ∧ S [k] = some .object then merge (T.sub k) (S.sub k) p
    else if S [k] = none ∨ (S [k] = some (.leaf .undefined) ∧ T [k] ≠ none) then T (k :: p)
    else S (k :: p)

/-- The values under one key that the merge in place handles as promised: nothing, or `undefined`,
is on the left of `undefined`, and a plain object, `undefined`, `null` or nothing is on the left of
a plain object, and then nothing is inherited under the key. -/
def Compatible (R : Realm κ) (k : κ) (t s : Option (Shape Leaf)) : Prop :=
  (s = some (.leaf .undefined) → t = none ∨ t = some (.leaf .undefined)) ∧
    (s = some .object → t = none ∧ (R.object k).isNullish = true ∨
      t = some .object ∨ t = some (.leaf .undefined) ∨ t = some (.leaf .null))

instance (R : Realm κ) (k : κ) (t s : Option (Shape Leaf)) : Decidable (Compatible R k t s) :=
  inferInstanceAs (Decidable ((_ → _) ∧ (_ → _)))

/-- No key of a plain object on the right clashes with what is on the left. -/
def NoClash (R : Realm κ) (T S : View κ) : Prop :=
  ∀ p k, Plain S p → Compatible R k (T (p ++ [k])) (S (p ++ [k]))

def NoClashAt (R : Realm κ) (T S : View κ) (k : κ) : Prop :=
  Compatible R k (T [k]) (S [k]) ∧
    (S [k] = some .object → NoClash R (T.sub k) (S.sub k))

/-- No source clashes with the merge of the target and the sources before it. -/
def NoClashes (R : Realm κ) : View κ → List (View κ) → Prop
  | _, [] => True
  | T, S :: sources => NoClash R T S ∧ NoClashes R (merge T S) sources

variable {T T' S : View κ} {k : κ} {p q : List κ}

theorem Plain.of_isPrefix (h : Plain T p) (hq : q <+: p) : Plain T q :=
  fun t ht => h t (ht.trans hq)

theorem Plain.apply (h : Plain T p) : T p = some .object := h p (List.prefix_refl p)

theorem plain_nil : Plain T [] ↔ T [] = some .object := by
  constructor
  · exact fun h => h.apply
  · intro h q hq
    rw [List.prefix_nil.mp hq]
    exact h

theorem plain_cons : Plain T (k :: p) ↔ T [] = some .object ∧ Plain (T.sub k) p := by
  constructor
  · intro h
    exact ⟨h [] List.nil_prefix, fun q hq => h (k :: q) (List.cons_prefix_cons.mpr ⟨rfl, hq⟩)⟩
  · rintro ⟨hnil, h⟩ q hq
    obtain rfl | ⟨t, rfl, ht⟩ := List.prefix_cons_iff.mp hq
    · exact hnil
    · exact h t ht

theorem plain_snoc : Plain T (p ++ [k]) ↔ Plain T p ∧ T (p ++ [k]) = some .object := by
  constructor
  · exact fun h => ⟨h.of_isPrefix (List.prefix_append p [k]), h.apply⟩
  · rintro ⟨h, hk⟩ q hq
    obtain rfl | hq := List.prefix_concat_iff.mp hq
    · exact hk
    · exact h q hq

theorem merge_nil (T S : View κ) : merge T S [] = T [] := rfl

theorem merge_both (ht : T [k] = some .object) (hs : S [k] = some .object) (p : List κ) :
    merge T S (k :: p) = merge (T.sub k) (S.sub k) p := by
  rw [merge, if_pos ⟨ht, hs⟩]

theorem merge_left (hs : S [k] = none) (p : List κ) : merge T S (k :: p) = T (k :: p) := by
  rw [merge, if_neg (fun h => by rw [hs] at h; cases h.2), if_pos (.inl hs)]

theorem merge_undefined (hs : S [k] = some (.leaf .undefined)) (ht : T [k] ≠ none) (p : List κ) :
    merge T S (k :: p) = T (k :: p) := by
  rw [merge, if_neg (fun h => by rw [hs] at h; cases h.2), if_pos (.inr ⟨hs, ht⟩)]

theorem merge_right (hboth : ¬ (T [k] = some .object ∧ S [k] = some .object))
    (hs : S [k] ≠ none) (hu : S [k] = some (.leaf .undefined) → T [k] = none) (p : List κ) :
    merge T S (k :: p) = S (k :: p) := by
  rw [merge, if_neg hboth, if_neg]
  rintro (h | ⟨h, ht⟩)
  · exact hs h
  · exact ht (hu h)

/-- A plain object replaces what is none. -/
theorem merge_object_right (hs : S [k] = some .object) (ht : T [k] ≠ some .object) (p : List κ) :
    merge T S (k :: p) = S (k :: p) := by
  refine merge_right (fun h => ht h.1) ?_ (fun hu => ?_) p
  · rw [hs]
    exact Option.some_ne_none _
  · rw [hs] at hu
    cases hu

/-- The merge under a key depends on what the left side has under the key. -/
theorem merge_congr (h : ∀ p, T (k :: p) = T' (k :: p)) (p : List κ) :
    merge T S (k :: p) = merge T' S (k :: p) := by
  have hsub : T.sub k = T'.sub k := funext h
  rw [merge, merge, h [], h p, hsub]

/-- Merging into nothing gives the right side. -/
theorem merge_empty (hT : ∀ k p, T (k :: p) = none) (hnil : T [] = S [])
    (hS : ∀ k p, S [k] = none → S (k :: p) = none) (p : List κ) : merge T S p = S p := by
  cases p with
  | nil => exact hnil
  | cons k p =>
    have hboth : ¬ (T [k] = some .object ∧ S [k] = some .object) := by
      rw [hT k []]
      exact fun h => by cases h.1
    by_cases hs : S [k] = none
    · rw [merge_left hs, hT, hS k p hs]
    · exact merge_right hboth hs (fun _ => hT k []) p

variable {R : Realm κ}

theorem noClash_iff (hS : S [] = some .object) :
    NoClash R T S ↔ ∀ k, NoClashAt R T S k := by
  constructor
  · intro h k
    exact ⟨h [] k (plain_nil.mpr hS), fun hk p j hp => h (k :: p) j (plain_cons.mpr ⟨hS, hp⟩)⟩
  · intro h p
    cases p with
    | nil => exact fun k _ => (h k).1
    | cons k p =>
      intro j hp
      have hsub := (plain_cons.mp hp).2
      exact (h k).2 (hsub [] List.nil_prefix) p j hsub

theorem noClashAt_of_none (hs : S [k] = none) : NoClashAt R T S k := by
  refine ⟨⟨fun h => ?_, fun h => ?_⟩, fun h => ?_⟩ <;>
    · rw [hs] at h
      cases h

theorem noClashAt_congr (h : ∀ p, T (k :: p) = T' (k :: p)) :
    NoClashAt R T S k ↔ NoClashAt R T' S k := by
  have hsub : T.sub k = T'.sub k := funext h
  rw [NoClashAt, NoClashAt, h [], hsub]

theorem noClash_congr (h : ∀ k p, T (k :: p) = T' (k :: p)) : NoClash R T S ↔ NoClash R T' S := by
  have hsnoc (p : List κ) (k : κ) : T (p ++ [k]) = T' (p ++ [k]) := by
    cases p with
    | nil => exact h k []
    | cons j p => exact h j (p ++ [k])
  simp only [NoClash, hsnoc]

theorem NoClashes.of_append {A B : List (View κ)} (h : NoClashes R T (A ++ B)) :
    NoClashes R T A := by
  induction A generalizing T with
  | nil => trivial
  | cons S A ih => exact ⟨h.1, ih h.2⟩

end Thcdb.Frontend.DeepMerge
