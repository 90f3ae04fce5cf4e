import Mathlib.Data.List.Nodup
import Mathlib.Data.List.Sort
import Mathlib.Logic.Equiv.Basic
import Thcdb.Paging.Slices

namespace Paging

variable {α : Type*} (r : α → α → Prop)

structure Arranged (S G : List α) : Prop where
  perm : G.Perm S
  sorted : G.Pairwise r

/-- Every page is cut out of an arrangement of its own. -/
def concatPages (size n : ℕ) (G : ℕ → List α) : List α :=
  (List.range n).flatMap fun i => slice size i (G i)

section Counts
variable [DecidableRel r]

def ahead (S : List α) (x : α) : ℕ := S.countP fun y => ¬r x y

def within (S : List α) (x : α) : ℕ := S.countP fun y => r y x

/-- No page ends between two elements that are tied. -/
def Uncut (size : ℕ) (S : List α) : Prop :=
  ∀ x ∈ S, ahead r S x / size = (within r S x - 1) / size

instance [DecidableEq α] (size : ℕ) (S : List α) : Decidable (Uncut r size S) :=
  inferInstanceAs (Decidable (∀ x ∈ S, _))

end Counts

variable {r} {S G : List α} {x y u v : α} {size i j n : ℕ}

theorem mem_slice_iff (hsize : 0 < size) :
    x ∈ slice size i G ↔ ∃ j, G[j]? = some x ∧ j / size = i := by
  rw [slice, List.mem_iff_getElem?]
  constructor
  · rintro ⟨k, hk⟩
    rw [List.getElem?_take] at hk
    split_ifs at hk with hlt
    rw [List.getElem?_drop] at hk
    refine ⟨_, hk, ?_⟩
    rw [Nat.mul_comm, Nat.mul_add_div hsize, Nat.div_eq_of_lt hlt, Nat.add_zero]
  · rintro ⟨j, hj, rfl⟩
    have hdiv := Nat.div_add_mod' j size
    refine ⟨j % size, ?_⟩
    rw [List.getElem?_take, if_pos (Nat.mod_lt j hsize), List.getElem?_drop, hdiv, hj]

theorem nodup_slice (h : G.Nodup) : (slice size i G).Nodup :=
  h.sublist ((List.take_sublist _ _).trans (List.drop_sublist _ _))

theorem concatPages_congr {G H : ℕ → List α} (h : ∀ i < n, G i = H i) :
    concatPages size n G = concatPages size n H :=
  List.flatMap_congr fun i hi => by rw [h i (List.mem_range.mp hi)]

section Counting
variable [DecidableRel r]

theorem ahead_eq (h : G.Perm S) (x : α) : ahead r S x = ahead r G x := (h.countP_eq _).symm

theorem within_eq (h : G.Perm S) (x : α) : within r S x = within r G x := (h.countP_eq _).symm

theorem countP_take_add_drop (p : α → Bool) (G : List α) (i : ℕ) :
    G.countP p = (G.take i).countP p + (G.drop i).countP p := by
  rw [← List.countP_append, List.take_append_drop]

/-- An element on an earlier page stands before those on a later one. -/
theorem rel_of_page_lt [IsTrans α r] (huncut : Uncut r size S) (hy : y ∈ S)
    (hlt : ahead r S x / size < ahead r S y / size) : r x y := by
  by_contra hno
  have hle : within r S y ≤ ahead r S x := by
    refine List.countP_mono_left fun z _ hz => ?_
    simpa using fun hxz => hno (IsTrans.trans _ _ _ hxz (of_decide_eq_true hz))
  have hpage : (within r S y - 1) / size ≤ ahead r S x / size :=
    Nat.div_le_div_right ((Nat.sub_le _ _).trans hle)
  rw [← huncut y hy] at hpage
  omega

end Counting

section Order
variable [Std.Total r]

theorem rel_self (x : α) : r x x := (Std.Total.total x x).elim id id

/-- What stands at an index, and before and behind it. -/
theorem Arranged.rel_drop (h : Arranged r S G) (hx : G[i]? = some x) (hy : y ∈ G.drop i) :
    r x y := by
  obtain ⟨k, hk⟩ := List.mem_iff_getElem?.mp hy
  rw [List.getElem?_drop] at hk
  obtain ⟨hi, rfl⟩ := List.getElem?_eq_some_iff.mp hx
  obtain ⟨hk', rfl⟩ := List.getElem?_eq_some_iff.mp hk
  rcases Nat.eq_zero_or_pos k with rfl | hpos
  · exact rel_self _
  · exact List.pairwise_iff_getElem.mp h.sorted _ _ hi hk' (by omega)

theorem Arranged.rel_take (h : Arranged r S G) (hx : G[i]? = some x) (hy : y ∈ G.take (i + 1)) :
    r y x := by
  obtain ⟨k, hk⟩ := List.mem_iff_getElem?.mp hy
  rw [List.getElem?_take] at hk
  split_ifs at hk with hlt
  obtain ⟨hi, rfl⟩ := List.getElem?_eq_some_iff.mp hx
  obtain ⟨hk', rfl⟩ := List.getElem?_eq_some_iff.mp hk
  rcases Nat.eq_or_lt_of_le (Nat.le_of_lt_succ hlt) with rfl | hlt'
  · exact rel_self _
  · exact List.pairwise_iff_getElem.mp h.sorted _ _ hk' hi hlt'

/-- Elements that are tied may change places. -/
theorem Arranged.swap [IsTrans α r] [DecidableEq α] (h : Arranged r S G) (hS : S.Nodup)
    (hu : u ∈ G) (hv : v ∈ G) (huv : r u v) (hvu : r v u) :
    Arranged r S (G.map (Equiv.swap u v)) := by
  have hG : G.Nodup := h.perm.nodup_iff.mpr hS
  have hmem : ∀ {x}, x ∈ G → Equiv.swap u v x ∈ G := by
    intro x hx
    rw [Equiv.swap_apply_def]
    split_ifs
    · exact hv
    · exact hu
    · exact hx
  have htied : ∀ x, r (Equiv.swap u v x) x ∧ r x (Equiv.swap u v x) := by
    intro x
    rw [Equiv.swap_apply_def]
    split_ifs with hxu hxv
    · exact hxu ▸ ⟨hvu, huv⟩
    · exact hxv ▸ ⟨huv, hvu⟩
    · exact ⟨rel_self x, rel_self x⟩
  constructor
  · refine List.Perm.trans ?_ h.perm
    refine (List.perm_ext_iff_of_nodup (hG.map (Equiv.swap u v).injective) hG).mpr fun x => ?_
    rw [List.mem_map]
    constructor
    · rintro ⟨y, hy, rfl⟩
      exact hmem hy
    · intro hx
      exact ⟨_, hmem hx, Equiv.swap_apply_self u v x⟩
  · refine List.pairwise_map.mpr (h.sorted.imp fun {x y} hxy => ?_)
    exact IsTrans.trans _ _ _ (htied x).1 (IsTrans.trans _ _ _ hxy (htied y).2)

variable [DecidableRel r]

theorem Arranged.ahead_le (h : Arranged r S G) (hx : G[i]? = some x) : ahead r S x ≤ i := by
  have hdrop : (G.drop i).countP (fun y => ¬r x y) = 0 := by
    rw [List.countP_eq_zero]
    intro y hy
    simpa using h.rel_drop hx hy
  rw [ahead_eq h.perm, ahead, countP_take_add_drop _ G i, hdrop, Nat.add_zero]
  exact List.countP_le_length.trans (List.length_take_le _ _)

theorem Arranged.lt_within (h : Arranged r S G) (hx : G[i]? = some x) : i < within r S x := by
  obtain ⟨hi, -⟩ := List.getElem?_eq_some_iff.mp hx
  have htake : (G.take (i + 1)).countP (fun y => r y x) = i + 1 := by
    rw [List.countP_eq_length.mpr fun y hy => decide_eq_true (h.rel_take hx hy), List.length_take]
    omega
  rw [within_eq h.perm, within, countP_take_add_drop _ G (i + 1), htake]
  omega

theorem page_eq (huncut : Uncut r size S) (h : Arranged r S G) (hx : G[j]? = some x) :
    j / size = ahead r S x / size := by
  have hle := h.ahead_le hx
  have hlt := h.lt_within hx
  have hmem : x ∈ S := h.perm.subset (List.mem_of_getElem? hx)
  apply le_antisymm
  · rw [huncut x hmem]
    exact Nat.div_le_div_right (by omega)
  · exact Nat.div_le_div_right hle

/-- The page of an element is the same in every arrangement. -/
theorem mem_slice_iff_page (hsize : 0 < size) (huncut : Uncut r size S) (h : Arranged r S G) :
    x ∈ slice size i G ↔ x ∈ S ∧ ahead r S x / size = i := by
  rw [mem_slice_iff hsize]
  constructor
  · rintro ⟨j, hj, rfl⟩
    exact ⟨h.perm.subset (List.mem_of_getElem? hj), (page_eq huncut h hj).symm⟩
  · rintro ⟨hx, rfl⟩
    obtain ⟨j, hj⟩ := List.mem_iff_getElem?.mp (h.perm.symm.subset hx)
    exact ⟨j, hj, page_eq huncut h hj⟩

theorem page_lt (hx : x ∈ S) (hn : S.length ≤ n * size) : ahead r S x / size < n := by
  have hlt : ahead r S x < S.length := by
    refine lt_of_le_of_ne List.countP_le_length fun heq => ?_
    have hself := List.countP_eq_length.mp heq x hx
    simp [rel_self x] at hself
  exact Nat.div_lt_of_lt_mul (by rw [Nat.mul_comm]; omega)

variable [IsTrans α r]

/-- The indices of an element's ties. -/
theorem Arranged.tied (h : Arranged r S G) (hu : G[i]? = some u) (hle : ahead r S x ≤ i)
    (hlt : i < within r S x) : r u x ∧ r x u := by
  obtain ⟨hi, -⟩ := List.getElem?_eq_some_iff.mp hu
  constructor
  · by_contra hno
    have hdrop : (G.drop i).countP (fun y => r y x) = 0 := by
      rw [List.countP_eq_zero]
      intro y hy hyx
      exact hno (IsTrans.trans _ _ _ (h.rel_drop hu hy) (of_decide_eq_true hyx))
    rw [within_eq h.perm, within, countP_take_add_drop _ G i, hdrop, Nat.add_zero] at hlt
    have hlen := (List.countP_le_length (p := fun y => decide (r y x)) (l := G.take i)).trans
      (List.length_take_le _ _)
    omega
  · by_contra hno
    have htake : (G.take (i + 1)).countP (fun y => ¬r x y) = i + 1 := by
      rw [List.countP_eq_length.mpr, List.length_take]
      · omega
      · intro y hy
        simpa using fun hxy => hno (IsTrans.trans _ _ _ hxy (h.rel_take hu hy))
    rw [ahead_eq h.perm, ahead, countP_take_add_drop _ G (i + 1), htake] at hle
    omega

theorem arranged_concatPages (hsize : 0 < size) (hS : S.Nodup) (huncut : Uncut r size S)
    (hn : S.length ≤ n * size) {G : ℕ → List α} (h : ∀ i, Arranged r S (G i)) :
    Arranged r S (concatPages size n G) := by
  have hpage : ∀ {i x}, x ∈ slice size i (G i) ↔ x ∈ S ∧ ahead r S x / size = i := fun {i x} =>
    mem_slice_iff_page hsize huncut (h i)
  constructor
  · refine (List.perm_ext_iff_of_nodup (List.nodup_flatMap.mpr ⟨?_, ?_⟩) hS).mpr ?_
    · exact fun i _ => nodup_slice ((h i).perm.nodup_iff.mpr hS)
    · refine (List.pairwise_lt_range).imp fun {i j} hlt x hi hj => ?_
      have hi' := (hpage.mp hi).2
      have hj' := (hpage.mp hj).2
      omega
    · intro x
      refine List.mem_flatMap.trans ?_
      constructor
      · rintro ⟨i, -, hi⟩
        exact (hpage.mp hi).1
      · intro hx
        exact ⟨_, List.mem_range.mpr (page_lt hx hn), hpage.mpr ⟨hx, rfl⟩⟩
  · refine List.pairwise_flatMap.mpr ⟨?_, ?_⟩
    · intro i _
      exact (h i).sorted.sublist ((List.take_sublist _ _).trans (List.drop_sublist _ _))
    · refine (List.pairwise_lt_range).imp fun {i j} hlt x hi y hj => ?_
      obtain ⟨-, rfl⟩ := hpage.mp hi
      obtain ⟨hy, rfl⟩ := hpage.mp hj
      exact rel_of_page_lt huncut hy hlt

theorem arranged_insertionSort (S : List α) : Arranged r S (S.insertionSort r) :=
  ⟨List.perm_insertionSort r S, List.pairwise_insertionSort r S⟩

/-- Where ties stand on both sides of a page's end, one of them may be shown twice. -/
theorem uncut_of_nodup [DecidableEq α] (hsize : 0 < size) (hS : S.Nodup)
    (hn : S.length ≤ n * size)
    (h : ∀ G : ℕ → List α, (∀ i, Arranged r S (G i)) → (concatPages size n G).Nodup) :
    Uncut r size S := by
  intro x hx
  by_contra hcut
  have hG := arranged_insertionSort (r := r) S
  generalize S.insertionSort r = G at hG
  obtain ⟨j, hj⟩ := List.mem_iff_getElem?.mp (hG.perm.symm.subset hx)
  have hle := hG.ahead_le hj
  have hlt := hG.lt_within hj
  have hbound : within r S x ≤ G.length := by
    rw [hG.perm.length_eq]
    exact List.countP_le_length
  -- the first and the last one of the ties
  obtain ⟨u, hu⟩ : ∃ u, G[ahead r S x]? = some u := by
    rw [List.getElem?_eq_getElem (by omega)]
    exact ⟨_, rfl⟩
  obtain ⟨v, hv⟩ : ∃ v, G[within r S x - 1]? = some v := by
    rw [List.getElem?_eq_getElem (by omega)]
    exact ⟨_, rfl⟩
  obtain ⟨hux, hxu⟩ := hG.tied hu le_rfl (by omega)
  obtain ⟨hvx, hxv⟩ := hG.tied hv (x := x) (by omega) (by omega)
  have hH : Arranged r S (G.map (Equiv.swap u v)) :=
    hG.swap hS (List.mem_of_getElem? hu) (List.mem_of_getElem? hv)
      (IsTrans.trans _ _ _ hux hxv) (IsTrans.trans _ _ _ hvx hxu)
  have hshown := h (fun k => if k = ahead r S x / size then G else G.map (Equiv.swap u v)) (by
    intro k
    split_ifs
    · exact hG
    · exact hH)
  have hfirst : u ∈ slice size (ahead r S x / size) G := (mem_slice_iff hsize).mpr ⟨_, hu, rfl⟩
  have hlast : u ∈ slice size ((within r S x - 1) / size) (G.map (Equiv.swap u v)) := by
    refine (mem_slice_iff hsize).mpr ⟨_, ?_, rfl⟩
    rw [List.getElem?_map, hv, Option.map_some, Equiv.swap_apply_right]
  have hpages : ahead r S x / size < (within r S x - 1) / size :=
    lt_of_le_of_ne (Nat.div_le_div_right (by omega)) hcut
  have hrange : (within r S x - 1) / size < (List.range n).length := by
    have hlen := hG.perm.length_eq
    rw [List.length_range]
    exact Nat.div_lt_of_lt_mul (by rw [Nat.mul_comm]; omega)
  have hdisjoint := List.pairwise_iff_getElem.mp (List.nodup_flatMap.mp hshown).2 _ _
    (hpages.trans hrange) hrange hpages
  simp only [List.getElem_range, Function.onFun, if_true, if_neg (Ne.symm hcut)] at hdisjoint
  exact hdisjoint hfirst hlast

end Order

end Paging
