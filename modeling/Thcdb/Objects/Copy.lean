import Thcdb.Objects.Paths

namespace Thcdb.Objects

variable {κ α : Type*}

def Value.shift (n : ℕ) : Value α → Value α
  | .leaf a => .leaf a
  | .ref l => .ref (l + n)

theorem Obj.shift_keys (o : Obj κ α) (n : ℕ) (k : κ) :
    k ∈ o.keys ↔ ((o.own k).map (Value.shift n)).isSome = true := by
  rw [Option.isSome_map]
  exact o.mem_keys k

def Obj.shift (n : ℕ) (o : Obj κ α) : Obj κ α where
  isArray := o.isArray
  keys := o.keys
  own k := (o.own k).map (Value.shift n)
  nodup := o.nodup
  mem_keys := Obj.shift_keys o n

namespace Heap

/-- The heap with the copies behind it; the copy of `l` is at `l + h.size`. -/
def copy (h : Heap κ α) : Heap κ α := ⟨h.cells ++ h.cells.map (Obj.shift h.size)⟩

variable {h : Heap κ α} {v w : Value α} {l m : ℕ} {k : κ} {p : List κ}

theorem size_copy (h : Heap κ α) : h.copy.size = h.size + h.size := by
  simp [copy, size]

theorem obj_copy_of_lt (hl : l < h.size) : h.copy.obj l = h.obj l :=
  List.getD_append _ _ _ _ hl

theorem obj_copy_add (h : Heap κ α) (l : ℕ) : h.copy.obj (l + h.size) = (h.obj l).shift h.size := by
  have hle : h.cells.length ≤ l + h.size := Nat.le_add_left ..
  rw [obj, copy, List.getD_append_right _ _ _ _ hle]
  change (h.cells.map (Obj.shift h.size)).getD (l + h.size - h.size) Obj.empty = _
  rw [Nat.add_sub_cancel]
  exact List.getD_map h.cells Obj.empty (Obj.shift h.size)

theorem own_copy_add (h : Heap κ α) (l : ℕ) (k : κ) :
    h.copy.own (l + h.size) k = (h.own l k).map (Value.shift h.size) := by
  rw [own, obj_copy_add]
  rfl

theorem isArray_copy_add (h : Heap κ α) (l : ℕ) : h.copy.isArray (l + h.size) = h.isArray l := by
  rw [isArray, obj_copy_add]
  rfl

/-- The copy is walked as what it is a copy of. -/
theorem walk_copy (h : Heap κ α) (v : Value α) (p : List κ) :
    h.copy.walk (v.shift h.size) p = (h.walk v p).map (Value.shift h.size) := by
  induction p generalizing v with
  | nil => simp
  | cons k p ih =>
    cases v with
    | leaf a => rfl
    | ref l =>
      rw [Value.shift, walk_ref_cons, own_copy_add, walk_ref_cons]
      cases h.own l k with
      | none => rfl
      | some w => exact ih w

theorem shape_copy (h : Heap κ α) (v : Value α) : h.copy.shape (v.shift h.size) = h.shape v := by
  cases v with
  | leaf a => rfl
  | ref l => rw [Value.shift, shape, isArray_copy_add, shape]

theorem view_copy (h : Heap κ α) (v : Value α) (p : List κ) :
    h.copy.view (v.shift h.size) p = h.view v p := by
  rw [view, walk_copy, Option.map_map, view]
  exact Option.map_congr fun w _ => shape_copy h w

theorem shift_eq_ref {n : ℕ} (hv : v.shift n = .ref m) : ∃ l, v = .ref l ∧ m = l + n := by
  cases v with
  | leaf a => cases hv
  | ref l => exact ⟨l, rfl, (Value.ref.inj hv).symm⟩

/-- A copy refers to copies. -/
theorem own_copy_ref (hm : h.copy.own (l + h.size) k = some (.ref m)) :
    ∃ n, h.own l k = some (.ref n) ∧ m = n + h.size := by
  rw [own_copy_add, Option.map_eq_some_iff] at hm
  obtain ⟨v, hv, hs⟩ := hm
  obtain ⟨n, rfl, hn⟩ := shift_eq_ref hs
  exact ⟨n, hv, hn⟩

theorem Valid.copy (hv : h.Valid) : h.copy.Valid := by
  intro l k m hm
  rw [size_copy]
  obtain hl | hl := Nat.lt_or_ge l h.size
  · rw [own, obj_copy_of_lt hl] at hm
    exact Nat.lt_add_right _ (hv l k m hm)
  · obtain ⟨i, rfl⟩ := Nat.exists_eq_add_of_le' hl
    obtain ⟨n, hn, rfl⟩ := own_copy_ref hm
    exact Nat.add_lt_add_right (hv i k n hn) _

theorem sole_copy (hs : h.Sole l p) : h.copy.Sole (l + h.size) p := by
  intro m hm q hq
  obtain ⟨v, hv, hsv⟩ := Option.map_eq_some_iff.mp ((walk_copy h (.ref l) p).symm.trans hm)
  obtain ⟨w, hw, hsw⟩ := Option.map_eq_some_iff.mp ((walk_copy h (.ref l) q).symm.trans hq)
  obtain ⟨x, rfl, hx⟩ := shift_eq_ref hsv
  obtain ⟨y, rfl, hy⟩ := shift_eq_ref hsw
  obtain rfl : x = y := Nat.add_right_cancel (hx.symm.trans hy)
  exact hs x hv q hw

end Heap

end Thcdb.Objects
