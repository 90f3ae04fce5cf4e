import Mathlib.Data.List.GetD
import Mathlib.Data.List.Nodup
import Mathlib.Logic.Function.Basic

namespace Thcdb.Objects

variable {κ α : Type*}

inductive Value (α : Type*) where
  | leaf (a : α)
  | ref (l : ℕ)
  deriving DecidableEq

/-- An object or an array, with its own properties in the order of their enumeration. -/
structure Obj (κ α : Type*) where
  isArray : Bool
  keys : List κ
  own : κ → Option (Value α)
  nodup : keys.Nodup
  mem_keys : ∀ k, k ∈ keys ↔ (own k).isSome = true

namespace Obj

def empty : Obj κ α where
  isArray := false
  keys := []
  own _ := none
  nodup := List.nodup_nil
  mem_keys _ := iff_of_false List.not_mem_nil Bool.false_ne_true

theorem mem_keys_of_own {o : Obj κ α} {k : κ} {v : Value α} (h : o.own k = some v) :
    k ∈ o.keys :=
  (o.mem_keys k).mpr (h ▸ rfl)

theorem exists_own_of_mem {o : Obj κ α} {k : κ} (h : k ∈ o.keys) : ∃ v, o.own k = some v :=
  Option.isSome_iff_exists.mp ((o.mem_keys k).mp h)

theorem own_of_notMem {o : Obj κ α} {k : κ} (h : k ∉ o.keys) : o.own k = none := by
  rw [o.mem_keys, Bool.not_eq_true, Option.isSome_eq_false_iff, Option.isNone_iff_eq_none] at h
  exact h

variable [DecidableEq κ]

/-- A key that is new comes last. -/
def setKeys (keys : List κ) (k : κ) : List κ := if k ∈ keys then keys else keys ++ [k]

theorem nodup_setKeys {keys : List κ} (h : keys.Nodup) (k : κ) : (setKeys keys k).Nodup := by
  unfold setKeys
  split_ifs with hk
  · exact h
  · exact List.nodup_append.mpr
      ⟨h, List.nodup_singleton k, fun a ha b hb => by rintro rfl; simp_all⟩

theorem mem_setKeys {keys : List κ} {k j : κ} : j ∈ setKeys keys k ↔ j = k ∨ j ∈ keys := by
  unfold setKeys
  split_ifs with hk
  · exact ⟨.inr, fun h => h.elim (fun h => h ▸ hk) id⟩
  · rw [List.mem_append, List.mem_singleton, or_comm]

theorem setKeys_spec (o : Obj κ α) (k j : κ) (v : Value α) :
    j ∈ setKeys o.keys k ↔ (Function.update o.own k (some v) j).isSome = true := by
  rw [mem_setKeys, o.mem_keys]
  by_cases h : j = k
  · subst h
    rw [Function.update_self]
    exact iff_of_true (.inl rfl) rfl
  · rw [Function.update_of_ne h, or_iff_right h]

def set (o : Obj κ α) (k : κ) (v : Value α) : Obj κ α where
  isArray := o.isArray
  keys := setKeys o.keys k
  own := Function.update o.own k (some v)
  nodup := nodup_setKeys o.nodup k
  mem_keys j := setKeys_spec o k j v

theorem own_set (o : Obj κ α) (k : κ) (v : Value α) (j : κ) :
    (o.set k v).own j = if j = k then some v else o.own j := by
  by_cases h : j = k
  · rw [if_pos h, h]
    exact Function.update_self ..
  · rw [if_neg h]
    exact Function.update_of_ne h ..

end Obj

structure Heap (κ α : Type*) where
  cells : List (Obj κ α)

namespace Heap

def size (h : Heap κ α) : ℕ := h.cells.length

def obj (h : Heap κ α) (l : ℕ) : Obj κ α := h.cells.getD l Obj.empty

def own (h : Heap κ α) (l : ℕ) (k : κ) : Option (Value α) := (h.obj l).own k

def isArray (h : Heap κ α) (l : ℕ) : Bool := (h.obj l).isArray

/-- The heap with a new `{}`; its place is the old size. -/
def alloc (h : Heap κ α) : Heap κ α := ⟨h.cells ++ [Obj.empty]⟩

def write (h : Heap κ α) (l : ℕ) (o : Obj κ α) : Heap κ α := ⟨h.cells.set l o⟩

def Valid (h : Heap κ α) : Prop := ∀ l k m, h.own l k = some (.ref m) → m < h.size

variable {h : Heap κ α} {v w : Value α} {l m : ℕ} {k : κ}

theorem obj_of_size_le (hl : h.size ≤ l) : h.obj l = Obj.empty :=
  List.getD_eq_default _ _ hl

@[simp] theorem size_alloc (h : Heap κ α) : h.alloc.size = h.size + 1 := by
  simp [alloc, size]

@[simp] theorem obj_alloc (h : Heap κ α) (l : ℕ) : h.alloc.obj l = h.obj l := by
  obtain hl | hl := Nat.lt_or_ge l h.size
  · exact List.getD_append _ _ _ _ hl
  · rw [obj_of_size_le hl, obj, alloc, List.getD_append_right _ _ _ _ hl]
    cases l - h.cells.length <;> rfl

@[simp] theorem own_alloc (h : Heap κ α) (l : ℕ) (k : κ) : h.alloc.own l k = h.own l k := by
  rw [own, obj_alloc, own]

@[simp] theorem isArray_alloc (h : Heap κ α) (l : ℕ) : h.alloc.isArray l = h.isArray l := by
  rw [isArray, obj_alloc, isArray]

@[simp] theorem size_write (h : Heap κ α) (l : ℕ) (o : Obj κ α) : (h.write l o).size = h.size :=
  List.length_set ..

theorem obj_write (hl : l < h.size) (o : Obj κ α) (m : ℕ) :
    (h.write l o).obj m = if m = l then o else h.obj m := by
  unfold obj write
  split_ifs with hm
  · subst hm
    rw [List.getD_eq_getElem?_getD, List.getElem?_set_self hl]
    rfl
  · rw [List.getD_eq_getElem?_getD, List.getElem?_set_ne (Ne.symm hm), List.getD_eq_getElem?_getD]

theorem write_of_size_le (hl : h.size ≤ l) (o : Obj κ α) : h.write l o = h := by
  rw [write, List.set_eq_of_length_le hl]

/-- What is written to one place is all that a write changes. -/
theorem obj_write_of_ne (o : Obj κ α) (hm : m ≠ l) : (h.write l o).obj m = h.obj m := by
  obtain hl | hl := Nat.lt_or_ge l h.size
  · rw [obj_write hl, if_neg hm]
  · rw [write_of_size_le hl]

theorem isArray_write {o : Obj κ α} (ho : o.isArray = h.isArray l) (m : ℕ) :
    (h.write l o).isArray m = h.isArray m := by
  obtain hl | hl := Nat.lt_or_ge l h.size
  · rw [isArray, obj_write hl]
    split_ifs with hm
    · rw [ho, hm]
    · rfl
  · rw [write_of_size_le hl]

theorem Valid.alloc (hv : h.Valid) : h.alloc.Valid := by
  intro l k m hm
  rw [own_alloc] at hm
  rw [size_alloc]
  exact Nat.lt_succ_of_lt (hv l k m hm)

section

variable [DecidableEq κ]

def put (h : Heap κ α) (l : ℕ) (k : κ) (w : Value α) : Heap κ α := h.write l ((h.obj l).set k w)

@[simp] theorem size_put (h : Heap κ α) (l : ℕ) (k : κ) (w : Value α) :
    (h.put l k w).size = h.size :=
  size_write ..

@[simp] theorem isArray_put (h : Heap κ α) (l : ℕ) (k : κ) (w : Value α) (m : ℕ) :
    (h.put l k w).isArray m = h.isArray m :=
  isArray_write (show ((h.obj l).set k w).isArray = h.isArray l from rfl) m

theorem obj_put_of_ne (k : κ) (w : Value α) (hm : m ≠ l) : (h.put l k w).obj m = h.obj m :=
  obj_write_of_ne _ hm

theorem own_put (hl : l < h.size) (k : κ) (w : Value α) (m : ℕ) (j : κ) :
    (h.put l k w).own m j = if m = l ∧ j = k then some w else h.own m j := by
  by_cases hm : m = l
  · rw [own, put, obj_write hl, if_pos hm, Obj.own_set, hm]
    simp only [true_and, own]
  · rw [own, obj_put_of_ne k w hm, if_neg fun h => hm h.1, own]

theorem own_put_self (hl : l < h.size) (k : κ) (w : Value α) : (h.put l k w).own l k = some w := by
  rw [own_put hl, if_pos ⟨rfl, rfl⟩]

theorem own_put_of_ne (hl : l < h.size) (w : Value α) {j : κ} (hne : ¬ (m = l ∧ j = k)) :
    (h.put l k w).own m j = h.own m j := by
  rw [own_put hl, if_neg hne]

theorem Valid.put (hv : h.Valid) (hl : l < h.size) (hw : ∀ m, w = .ref m → m < h.size) :
    (h.put l k w).Valid := by
  intro m j x hx
  rw [own_put hl] at hx
  rw [size_put]
  split_ifs at hx with hm
  · exact hw x (Option.some.inj hx)
  · exact hv m j x hx

end

end Heap

end Thcdb.Objects
