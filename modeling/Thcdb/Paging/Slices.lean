import Mathlib.Data.List.Basic
import Mathlib.Order.Basic
import Mathlib.Algebra.Order.Ring.Nat

namespace Paging

variable {α : Type*} {l : List α} {size i n : ℕ}

def slice (size i : ℕ) (l : List α) : List α := (l.drop (i * size)).take size

/-- The number of slices, the last one being cut short. -/
def sliceCount (size length : ℕ) : ℕ := (length + size - 1) / size

theorem length_slice : (slice size i l).length = min size (l.length - i * size) := by
  simp [slice]

theorem slice_eq_nil (h : l.length ≤ i * size) : slice size i l = [] := by
  rw [slice, List.drop_eq_nil_of_le h, List.take_nil]

/-- Consecutive slices make up the front of the list. -/
theorem flatMap_slice : (List.range n).flatMap (fun i => slice size i l) = l.take (n * size) := by
  induction n with
  | zero => simp
  | succ n ih =>
    rw [List.range_succ, List.flatMap_append, ih, Nat.succ_mul, List.take_add]
    simp [slice]

theorem le_sliceCount_mul (hsize : 0 < size) : n ≤ sliceCount size n * size := by
  have hdiv := Nat.div_add_mod (n + size - 1) size
  have hmod := Nat.mod_lt (n + size - 1) hsize
  rw [sliceCount, Nat.mul_comm]
  omega

theorem sliceCount_le_iff (hsize : 0 < size) {k : ℕ} : sliceCount size n ≤ k ↔ n ≤ k * size := by
  constructor
  · intro h
    exact (le_sliceCount_mul hsize).trans (Nat.mul_le_mul_right size h)
  · intro h
    rw [sliceCount, Nat.div_le_iff_le_mul_add_pred hsize, Nat.mul_comm]
    omega

theorem lt_sliceCount_iff (hsize : 0 < size) {k : ℕ} : k < sliceCount size n ↔ k * size < n := by
  rw [← not_le, sliceCount_le_iff hsize, not_le]

theorem sliceCount_pos_iff (hsize : 0 < size) : 0 < sliceCount size n ↔ 0 < n := by
  rw [lt_sliceCount_iff hsize, Nat.zero_mul]

theorem sliceCount_zero (hsize : 0 < size) : sliceCount size 0 = 0 :=
  Nat.div_eq_of_lt (by omega)

/-- Every slice but the last is full. -/
theorem length_slice_of_lt (hsize : 0 < size) (h : i + 1 < sliceCount size l.length) :
    (slice size i l).length = size := by
  have hfull : (i + 1) * size < l.length := (lt_sliceCount_iff hsize).mp h
  rw [Nat.succ_mul] at hfull
  rw [length_slice]
  omega

theorem length_flatMap_range {f : ℕ → List α} (h : ∀ i < n, (f i).length = size) :
    ((List.range n).flatMap f).length = n * size := by
  induction n with
  | zero => simp
  | succ n ih =>
    have hinit := ih fun i hi => h i (by omega)
    have hlast := h n (by omega)
    rw [List.range_succ, List.flatMap_append, List.length_append, hinit, Nat.succ_mul]
    simpa using hlast

/-- Positive weights whose sum is at most their number are all one. -/
theorem eq_one_of_sum_le {W : α → ℕ} (hpos : ∀ x ∈ l, 1 ≤ W x)
    (hsum : (l.map W).sum ≤ l.length) : ∀ x ∈ l, W x = 1 := by
  have hlength : ∀ {l : List α}, (∀ x ∈ l, 1 ≤ W x) → l.length ≤ (l.map W).sum := by
    intro l hpos
    induction l with
    | nil => exact le_rfl
    | cons x l ih =>
      obtain ⟨hx, hl⟩ := List.forall_mem_cons.mp hpos
      have hrest := ih hl
      rw [List.length_cons, List.map_cons, List.sum_cons]
      omega
  induction l with
  | nil => simp
  | cons x l ih =>
    obtain ⟨hx, hl⟩ := List.forall_mem_cons.mp hpos
    have hrest := hlength hl
    rw [List.length_cons, List.map_cons, List.sum_cons] at hsum
    exact List.forall_mem_cons.mpr ⟨by omega, ih hl (by omega)⟩

end Paging
