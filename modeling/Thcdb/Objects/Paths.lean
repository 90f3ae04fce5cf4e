import Mathlib.Data.Fintype.Pigeonhole
import Mathlib.Data.List.Induction
import Mathlib.Data.Set.Basic
import Mathlib.Tactic.Choose
import Mathlib.Tactic.WLOG
import Thcdb.Objects.Heap

namespace Thcdb.Objects

variable {κ α : Type*}

inductive Shape (α : Type*) where
  | leaf (a : α)
  | array
  | object
  deriving DecidableEq

namespace Heap

/-- The value at the end of a path. -/
def walk (h : Heap κ α) : Value α → List κ → Option (Value α)
  | v, [] => some v
  | .ref l, k :: p => (h.own l k).bind fun v => h.walk v p
  | .leaf _, _ :: _ => none

def shape (h : Heap κ α) : Value α → Shape α
  | .leaf a => .leaf a
  | .ref l => if h.isArray l then .array else .object

def view (h : Heap κ α) (v : Value α) (p : List κ) : Option (Shape α) := (h.walk v p).map h.shape

/-- No object of the set refers to one outside. -/
def Closed (h : Heap κ α) (Z : Set ℕ) : Prop := ∀ l ∈ Z, ∀ k m, h.own l k = some (.ref m) → m ∈ Z

/-- Only this path leads to the object at its end. -/
def Sole (h : Heap κ α) (r : ℕ) (p : List κ) : Prop :=
  ∀ m, h.walk (.ref r) p = some (.ref m) → ∀ q, h.walk (.ref r) q = some (.ref m) → q = p

end Heap

def Value.In (Z : Set ℕ) : Value α → Prop
  | .leaf _ => True
  | .ref l => l ∈ Z

namespace Heap

variable {h h' : Heap κ α} {v w : Value α} {l m r : ℕ} {k : κ} {p q : List κ} {Z : Set ℕ}

@[simp] theorem walk_nil (h : Heap κ α) (v : Value α) : h.walk v [] = some v := by
  cases v <;> rfl

@[simp] theorem walk_ref_cons (h : Heap κ α) (l : ℕ) (k : κ) (p : List κ) :
    h.walk (.ref l) (k :: p) = (h.own l k).bind fun v => h.walk v p := rfl

@[simp] theorem walk_leaf_cons (h : Heap κ α) (a : α) (k : κ) (p : List κ) :
    h.walk (.leaf a) (k :: p) = none := rfl

theorem walk_append (h : Heap κ α) (v : Value α) (p q : List κ) :
    h.walk v (p ++ q) = (h.walk v p).bind fun w => h.walk w q := by
  induction p generalizing v with
  | nil => simp
  | cons k p ih =>
    cases v with
    | leaf a => rfl
    | ref l =>
      simp only [List.cons_append, walk_ref_cons, Option.bind_assoc]
      exact congrArg _ (funext fun w => ih w)

theorem walk_append_of_walk (hp : h.walk v p = some w) (q : List κ) :
    h.walk v (p ++ q) = h.walk w q := by
  rw [walk_append, hp, Option.bind_some]

theorem view_append_of_walk (hp : h.walk v p = some w) (q : List κ) :
    h.view v (p ++ q) = h.view w q := by
  rw [view, walk_append_of_walk hp, view]

theorem walk_ref_inj (hl : h.walk v p = some (.ref l)) (hm : h.walk v p = some (.ref m)) : l = m :=
  Value.ref.inj (Option.some.inj (hl.symm.trans hm))

/-- A path ends where its last step starts from. -/
theorem walk_of_append (hp : h.walk v (p ++ k :: q) = some w) :
    ∃ l x, h.walk v p = some (.ref l) ∧ h.own l k = some x ∧ h.walk x q = some w := by
  rw [walk_append, Option.bind_eq_some_iff] at hp
  obtain ⟨u, hu, hq⟩ := hp
  cases u with
  | leaf a => cases hq
  | ref l =>
    obtain ⟨x, hx, hw⟩ := Option.bind_eq_some_iff.mp hq
    exact ⟨l, x, hu, hx, hw⟩

theorem walk_congr (hown : ∀ q k l, q ++ [k] <+: p → h.walk v q = some (.ref l) →
    h'.own l k = h.own l k) : h'.walk v p = h.walk v p := by
  induction p generalizing v with
  | nil => simp
  | cons k p ih =>
    cases v with
    | leaf a => rfl
    | ref l =>
      have hl : h'.own l k = h.own l k := hown [] k l (by simp) (by simp)
      rw [walk_ref_cons, walk_ref_cons, hl]
      cases hw : h.own l k with
      | none => rfl
      | some w =>
        refine ih fun q j m hq hm => hown (k :: q) j m (by simpa using hq) ?_
        rw [walk_ref_cons, hw]
        exact hm

/-- No path goes on from an object without properties. -/
theorem walk_of_empty (ho : h.obj l = Obj.empty) (hw : h.walk (.ref l) p = some v) :
    p = [] ∧ v = .ref l := by
  cases p with
  | nil => exact ⟨rfl, (Option.some.inj hw).symm⟩
  | cons k p =>
    rw [walk_ref_cons, own, ho] at hw
    cases hw

theorem view_nil (h : Heap κ α) (v : Value α) : h.view v [] = some (h.shape v) := by
  rw [view, walk_nil, Option.map_some]

theorem view_cons (ho : h.own l k = some v) (p : List κ) :
    h.view (.ref l) (k :: p) = h.view v p := by
  rw [view, walk_ref_cons, ho, Option.bind_some, view]

theorem view_cons_of_none (ho : h.own l k = none) (p : List κ) :
    h.view (.ref l) (k :: p) = none := by
  rw [view, walk_ref_cons, ho, Option.bind_none, Option.map_none]

theorem view_singleton (h : Heap κ α) (l : ℕ) (k : κ) :
    h.view (.ref l) [k] = (h.own l k).map h.shape := by
  cases ho : h.own l k with
  | none => exact view_cons_of_none ho []
  | some v => rw [view_cons ho, view_nil, Option.map_some]

theorem view_of_nothing (hn : h.view v p = none) (q : List κ) : h.view v (p ++ q) = none := by
  rw [view, Option.map_eq_none_iff] at hn
  rw [view, walk_append, hn, Option.bind_none, Option.map_none]

/-- A leaf looks the same on every heap. -/
theorem view_leaf (h h' : Heap κ α) (a : α) (p : List κ) :
    h'.view (.leaf a) p = h.view (.leaf a) p := by
  cases p <;> rfl

theorem shape_eq_object : h.shape v = .object ↔ ∃ l, v = .ref l ∧ h.isArray l = false := by
  cases v with
  | leaf a => simp [shape]
  | ref l => cases ho : h.isArray l <;> simp [shape, ho]

theorem shape_eq_leaf {a : α} : h.shape v = .leaf a ↔ v = .leaf a := by
  cases v with
  | leaf b => simp [shape]
  | ref l => cases ho : h.isArray l <;> simp [shape, ho]

theorem view_eq_object :
    h.view v p = some .object ↔ ∃ l, h.walk v p = some (.ref l) ∧ h.isArray l = false := by
  rw [view, Option.map_eq_some_iff]
  constructor
  · rintro ⟨w, hw, hs⟩
    obtain ⟨l, rfl, hl⟩ := shape_eq_object.mp hs
    exact ⟨l, hw, hl⟩
  · rintro ⟨l, hw, hl⟩
    exact ⟨_, hw, shape_eq_object.mpr ⟨l, rfl, hl⟩⟩

theorem view_object_of_own (hm : h.own l k = some (.ref m)) (ha : h.isArray m = false) :
    h.view (.ref l) [k] = some .object := by
  rw [view_singleton, hm, Option.map_some, shape_eq_object.mpr ⟨m, rfl, ha⟩]

/-- What only differs in places that are not on the path is the same at its end. -/
theorem view_of_walk (ha : ∀ l, h'.isArray l = h.isArray l) (hw : h'.walk v p = h.walk v p) :
    h'.view v p = h.view v p := by
  rw [view, view, hw]
  refine Option.map_congr fun w _ => ?_
  cases w with
  | leaf a => rfl
  | ref l => rw [shape, shape, ha]

theorem walk_in (hZ : h.Closed Z) (hv : v.In Z) (hw : h.walk v p = some w) : w.In Z := by
  induction p generalizing v with
  | nil =>
    rw [walk_nil] at hw
    exact Option.some.inj hw ▸ hv
  | cons k p ih =>
    cases v with
    | leaf a => cases hw
    | ref l =>
      obtain ⟨x, hx, hp⟩ := Option.bind_eq_some_iff.mp hw
      refine ih ?_ hp
      cases x with
      | leaf a => trivial
      | ref m => exact hZ l hv k m hx

theorem walk_eq_of_closed (hZ : h.Closed Z) (hobj : ∀ l ∈ Z, h'.obj l = h.obj l) (hv : v.In Z)
    (p : List κ) : h'.walk v p = h.walk v p :=
  walk_congr fun _ k l _ hl => congrArg (·.own k) (hobj l (walk_in hZ hv hl))

theorem shape_eq_of_in (hobj : ∀ l ∈ Z, h'.obj l = h.obj l) (hv : v.In Z) :
    h'.shape v = h.shape v := by
  cases v with
  | leaf a => rfl
  | ref l => rw [shape, shape, isArray, isArray, hobj l hv]

theorem view_eq_of_closed (hZ : h.Closed Z) (hobj : ∀ l ∈ Z, h'.obj l = h.obj l) (hv : v.In Z)
    (p : List κ) : h'.view v p = h.view v p := by
  rw [view, view, walk_eq_of_closed hZ hobj hv]
  exact Option.map_congr fun w hw => shape_eq_of_in hobj (walk_in hZ hv hw)

theorem walk_lt_size (hv : h.Valid) (hl : l < h.size) (hw : h.walk (.ref l) p = some (.ref m)) :
    m < h.size :=
  walk_in (Z := {l | l < h.size}) (fun l _ k m hm => hv l k m hm) (v := .ref l) hl hw

/-- In a tree, where nothing refers to the root and to each object one property at most, only one
path leads to each object. -/
theorem sole_of_tree (hroot : ∀ l k, (∃ q, h.walk (.ref r) q = some (.ref l)) →
      h.own l k ≠ some (.ref r))
    (htree : ∀ l l' k k' m, (∃ q, h.walk (.ref r) q = some (.ref l)) →
      (∃ q, h.walk (.ref r) q = some (.ref l')) → h.own l k = some (.ref m) →
      h.own l' k' = some (.ref m) → l = l' ∧ k = k') (p : List κ) : h.Sole r p := by
  have hlast {p : List κ} {k : κ} {m : ℕ} (hp : h.walk (.ref r) (p ++ [k]) = some (.ref m)) :
      ∃ l, h.walk (.ref r) p = some (.ref l) ∧ h.own l k = some (.ref m) := by
    obtain ⟨l, x, hl, hx, hxm⟩ := walk_of_append hp
    rw [walk_nil] at hxm
    exact ⟨l, hl, hx.trans hxm⟩
  induction p using List.reverseRecOn with
  | nil =>
    intro m hm q hq
    rw [walk_nil] at hm
    obtain rfl := Value.ref.inj (Option.some.inj hm)
    obtain rfl | ⟨q, k, rfl⟩ := List.eq_nil_or_concat' q
    · rfl
    · obtain ⟨l, hl, hk⟩ := hlast hq
      exact absurd hk (hroot l k ⟨q, hl⟩)
  | append_singleton p j ih =>
    intro m hm q hq
    obtain ⟨l, hl, hj⟩ := hlast hm
    obtain rfl | ⟨q, k, rfl⟩ := List.eq_nil_or_concat' q
    · rw [walk_nil] at hq
      obtain rfl := Value.ref.inj (Option.some.inj hq)
      exact absurd hj (hroot l j ⟨p, hl⟩)
    · obtain ⟨l', hl', hk⟩ := hlast hq
      obtain ⟨rfl, rfl⟩ := htree l l' j k m ⟨p, hl⟩ ⟨q, hl'⟩ hj hk
      rw [ih l hl q hl']

/-- A path that is longer than the heap passes an object twice, and what is between is left out. -/
theorem exists_short_walk (hv : h.Valid) (hl : l < h.size) :
    ∀ n p, p.length = n → h.walk (.ref l) p = some v →
      ∃ q, q.length ≤ h.size ∧ h.walk (.ref l) q = some v := by
  intro n
  induction n using Nat.strong_induction_on with
  | _ n ih =>
    intro p hn hp
    obtain hle | hlt := le_or_gt p.length h.size
    · exact ⟨p, hle, hp⟩
    have hpass : ∀ i : Fin (h.size + 1), ∃ m : Fin h.size,
        h.walk (.ref l) (p.take i) = some (.ref m) := by
      intro i
      have hi : i.val < p.length := Nat.lt_of_lt_of_le i.isLt hlt
      rw [← List.take_append_drop i p, List.drop_eq_getElem_cons hi] at hp
      obtain ⟨m, x, hm, -⟩ := walk_of_append hp
      exact ⟨⟨m, walk_lt_size hv hl hm⟩, hm⟩
    choose f hf using hpass
    obtain ⟨i, j, hij, hfij⟩ := Fintype.exists_ne_map_eq_of_card_lt f (by simp)
    wlog hlt' : i < j generalizing i j
    · exact this j i hij.symm hfij.symm (lt_of_le_of_ne (not_lt.mp hlt') hij.symm)
    have hj : j.val < p.length := Nat.lt_of_lt_of_le j.isLt hlt
    refine ih _ ?_ (p.take i ++ p.drop j) rfl ?_
    · have hval : i.val < j.val := hlt'
      simp only [List.length_append, List.length_take, List.length_drop]
      omega
    · rw [walk_append_of_walk (hf i), hfij, ← walk_append_of_walk (hf j), List.take_append_drop]
      exact hp

/-- A path to an object outside a closed set never enters the set. -/
theorem walk_back (hZ : h'.Closed Z)
    (hown : ∀ l ∉ Z, ∀ k v, h'.own l k = some v → v.In Z ∨ h.own l k = some v)
    (hm : m ∉ Z) (hp : h'.walk v p = some (.ref m)) : h.walk v p = some (.ref m) := by
  induction p generalizing v with
  | nil => simpa using hp
  | cons k p ih =>
    cases v with
    | leaf a => cases hp
    | ref l =>
      have hl : l ∉ Z := fun hl => hm (walk_in (v := .ref l) hZ hl hp)
      obtain ⟨x, hx, hxp⟩ := Option.bind_eq_some_iff.mp hp
      obtain hin | hsame := hown l hl k x hx
      · exact absurd (walk_in hZ hin hxp) hm
      · rw [walk_ref_cons, hsame]
        exact ih hxp

theorem shape_alloc (h : Heap κ α) (v : Value α) : h.alloc.shape v = h.shape v := by
  cases v with
  | leaf a => rfl
  | ref m => rw [shape, shape, isArray_alloc]

theorem walk_alloc (h : Heap κ α) (v : Value α) (p : List κ) : h.alloc.walk v p = h.walk v p :=
  walk_congr fun _ k l _ _ => own_alloc h l k

theorem view_alloc (h : Heap κ α) (v : Value α) (p : List κ) : h.alloc.view v p = h.view v p := by
  rw [view, view, walk_alloc]
  exact Option.map_congr fun w _ => shape_alloc h w

theorem not_isPrefix_snoc (p : List κ) (k : κ) : ¬ p ++ [k] <+: p := by
  intro h
  have hlen := h.length_le
  rw [List.length_append, List.length_singleton] at hlen
  omega

section

variable [DecidableEq κ]

theorem shape_put (h : Heap κ α) (l : ℕ) (k : κ) (w v : Value α) :
    (h.put l k w).shape v = h.shape v := by
  cases v with
  | leaf a => rfl
  | ref m => rw [shape, shape, isArray_put]

/-- Paths that do not pass the property keep their values. -/
theorem walk_put_off (hl : l < h.size) (hp : h.walk (.ref r) p = some (.ref l))
    (hs : h.Sole r p) (hq : ¬ p ++ [k] <+: q) :
    (h.put l k w).walk (.ref r) q = h.walk (.ref r) q := by
  refine walk_congr fun t j m ht hm => own_put_of_ne hl w ?_
  rintro ⟨rfl, rfl⟩
  exact hq (hs m hp t hm ▸ ht)

theorem view_put_off (hl : l < h.size) (hp : h.walk (.ref r) p = some (.ref l))
    (hs : h.Sole r p) (hq : ¬ p ++ [k] <+: q) :
    (h.put l k w).view (.ref r) q = h.view (.ref r) q := by
  rw [view, view, walk_put_off hl hp hs hq]
  exact Option.map_congr fun v _ => shape_put h l k w v

/-- Paths that pass it go on from the value that was written. -/
theorem walk_put_on (hl : l < h.size) (hp : h.walk (.ref r) p = some (.ref l))
    (hs : h.Sole r p) (q : List κ) :
    (h.put l k w).walk (.ref r) (p ++ k :: q) = (h.put l k w).walk w q := by
  rw [walk_append_of_walk ((walk_put_off hl hp hs (not_isPrefix_snoc p k)).trans hp),
    walk_ref_cons, own_put_self hl, Option.bind_some]

/-- A path that does not pass the property stays the only one to its end, unless what is written
leads there. -/
theorem sole_put (hl : l < h.size) (hp : h.walk (.ref r) p = some (.ref l)) (hs : h.Sole r p)
    (hoff : ¬ p ++ [k] <+: q) (hq : h.Sole r q)
    (hw : ∀ m, h.walk (.ref r) q = some (.ref m) → ∀ t, (h.put l k w).walk w t ≠ some (.ref m)) :
    (h.put l k w).Sole r q := by
  intro m hm t ht
  rw [walk_put_off hl hp hs hoff] at hm
  by_cases hon : p ++ [k] <+: t
  · obtain ⟨u, rfl⟩ := hon
    rw [List.append_assoc, List.singleton_append, walk_put_on hl hp hs] at ht
    exact absurd ht (hw m hm u)
  · rw [walk_put_off hl hp hs hon] at ht
    exact hq m hm t ht

end

end Heap

end Thcdb.Objects
