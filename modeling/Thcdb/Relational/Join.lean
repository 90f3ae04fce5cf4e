import Mathlib.Algebra.BigOperators.Group.List.Lemmas
import Mathlib.Algebra.GroupWithZero.Nat
import Mathlib.Algebra.Order.Group.Nat
import Mathlib.Algebra.Order.BigOperators.Group.List
import Mathlib.Data.List.Dedup
import Mathlib.Data.List.Nodup

namespace Relational

variable {α β : Type*}

section Join
variable (children : α → List β)

/-- A row without children stands once. -/
def joined (a : α) : List (α × Option β) :=
  match children a with
  | [] => [(a, none)]
  | bs => bs.map fun b => (a, some b)

def leftJoin (xs : List α) : List (α × Option β) := xs.flatMap (joined children)

def weight (a : α) : ℕ := max 1 (children a).length

variable {children} {a : α} {xs : List α} {j : ℕ}

theorem length_joined : (joined children a).length = weight children a := by
  unfold joined weight
  cases children a with
  | nil => rfl
  | cons b bs =>
    rw [List.length_map, List.length_cons]
    omega

theorem joined_ne_nil : joined children a ≠ [] := by
  intro h
  have hlength : (joined children a).length = weight children a := length_joined
  rw [h, weight, List.length_nil] at hlength
  omega

theorem fst_of_mem_joined {r : α × Option β} (h : r ∈ joined children a) : r.1 = a := by
  unfold joined at h
  split at h
  · rw [List.mem_singleton.mp h]
  · obtain ⟨b, _, rfl⟩ := List.mem_map.mp h
    rfl

@[simp] theorem leftJoin_nil : leftJoin children [] = [] := rfl

@[simp] theorem leftJoin_cons :
    leftJoin children (a :: xs) = joined children a ++ leftJoin children xs := List.flatMap_cons

theorem length_leftJoin : (leftJoin children xs).length = (xs.map (weight children)).sum := by
  induction xs with
  | nil => rfl
  | cons a xs ih => rw [leftJoin_cons, List.length_append, length_joined, ih, List.map_cons,
      List.sum_cons]

theorem fst_of_mem_leftJoin {r : α × Option β} (h : r ∈ leftJoin children xs) : r.1 ∈ xs := by
  obtain ⟨a, ha, hr⟩ := List.mem_flatMap.mp h
  rwa [fst_of_mem_joined hr]

theorem length_le_sum_weight : xs.length ≤ (xs.map (weight children)).sum := by
  induction xs with
  | nil => exact le_rfl
  | cons a xs ih =>
    have hpos : 1 ≤ weight children a := le_max_left _ _
    rw [List.length_cons, List.map_cons, List.sum_cons]
    omega

/-- Where every row stands once, the rows of the join are counted as the rows are. -/
theorem drop_leftJoin (h : ∀ a ∈ xs.take j, weight children a = 1) :
    (leftJoin children xs).drop j = leftJoin children (xs.drop j) := by
  induction j generalizing xs with
  | zero => rfl
  | succ j ih =>
    cases xs with
    | nil => rfl
    | cons a xs =>
      rw [List.take_succ_cons, List.forall_mem_cons] at h
      have hone : (joined children a).length = 1 := length_joined.trans h.1
      rw [leftJoin_cons, List.drop_succ_cons, ← ih h.2, Nat.add_comm, ← List.drop_drop]
      rw [← hone, List.drop_left]

theorem take_leftJoin (h : ∀ a ∈ xs.take j, weight children a = 1) :
    (leftJoin children xs).take j = leftJoin children (xs.take j) := by
  induction j generalizing xs with
  | zero => rfl
  | succ j ih =>
    cases xs with
    | nil => rfl
    | cons a xs =>
      rw [List.take_succ_cons, List.forall_mem_cons] at h
      have hone : (joined children a).length = 1 := length_joined.trans h.1
      rw [leftJoin_cons, List.take_succ_cons, leftJoin_cons, ← ih h.2, Nat.add_comm, List.take_add]
      rw [← hone, List.take_left, List.drop_left]

end Join

section Grouping
variable [DecidableEq α]

/-- The different elements in the order of their first occurrence. -/
def firsts : List α → List α
  | [] => []
  | a :: l => a :: (firsts l).filter (· ≠ a)

/-- The left sides of a join, each one with the right sides of all of its rows. -/
def consolidate (rows : List (α × Option β)) : List (α × List β) :=
  (firsts (rows.map Prod.fst)).map fun a =>
    (a, rows.filterMap fun r => if r.1 = a then r.2 else none)

variable {a : α} {l m : List α} {rows : List (α × Option β)}

@[simp] theorem mem_firsts : a ∈ firsts l ↔ a ∈ l := by
  induction l with
  | nil => rfl
  | cons b l ih =>
    by_cases h : a = b <;> simp [firsts, ih, h]

theorem nodup_firsts : (firsts l).Nodup := by
  induction l with
  | nil => exact List.nodup_nil
  | cons b l ih => exact List.nodup_cons.mpr ⟨by simp, ih.filter _⟩

theorem firsts_perm_dedup : (firsts l).Perm l.dedup :=
  (List.perm_ext_iff_of_nodup nodup_firsts (List.nodup_dedup l)).mpr fun a => by simp

theorem firsts_append_of_forall (hne : l ≠ []) (hl : ∀ b ∈ l, b = a) (hm : a ∉ m) :
    firsts (l ++ m) = a :: firsts m := by
  induction l with
  | nil => exact absurd rfl hne
  | cons b l ih =>
    obtain ⟨rfl, hl⟩ := List.forall_mem_cons.mp hl
    have hrest : (firsts m).filter (· ≠ b) = firsts m := by
      refine List.filter_eq_self.mpr fun c hc => ?_
      simpa using fun heq : c = b => hm (heq ▸ mem_firsts.mp hc)
    by_cases hnil : l = []
    · rw [hnil, List.singleton_append, firsts, hrest]
    · rw [List.cons_append, firsts, ih hnil hl, List.filter_cons_of_neg (by simp), hrest]

theorem firsts_leftJoin {children : α → List β} (h : l.Nodup) :
    firsts ((leftJoin children l).map Prod.fst) = l := by
  induction l with
  | nil => rfl
  | cons a l ih =>
    obtain ⟨ha, hl⟩ := List.nodup_cons.mp h
    rw [leftJoin_cons, List.map_append, firsts_append_of_forall, ih hl]
    · simpa using joined_ne_nil
    · intro b hb
      obtain ⟨r, hr, rfl⟩ := List.mem_map.mp hb
      exact fst_of_mem_joined hr
    · intro hmem
      obtain ⟨r, hr, heq⟩ := List.mem_map.mp hmem
      exact ha (heq ▸ fst_of_mem_leftJoin hr)

theorem filterMap_joined {children : α → List β} {b : α} :
    (joined children b).filterMap (fun r => if r.1 = a then r.2 else none) =
      if b = a then children a else [] := by
  unfold joined
  by_cases h : b = a
  · subst h
    cases children b <;> simp [List.filterMap_map]
  · cases children b <;> simp [List.filterMap_map, h]

theorem filterMap_leftJoin {children : α → List β} (h : l.Nodup) (ha : a ∈ l) :
    (leftJoin children l).filterMap (fun r => if r.1 = a then r.2 else none) = children a := by
  have hout : ∀ {m : List α}, a ∉ m →
      (leftJoin children m).filterMap (fun r => if r.1 = a then r.2 else none) = [] := by
    intro m hm
    refine List.filterMap_eq_nil_iff.mpr fun r hr => if_neg ?_
    exact fun heq => hm (heq ▸ fst_of_mem_leftJoin hr)
  induction l with
  | nil => cases ha
  | cons b l ih =>
    obtain ⟨hb, hl⟩ := List.nodup_cons.mp h
    rw [leftJoin_cons, List.filterMap_append, filterMap_joined]
    by_cases heq : b = a
    · subst heq
      rw [if_pos rfl, hout hb, List.append_nil]
    · have hmem : a ∈ l := (List.mem_cons.mp ha).resolve_left (Ne.symm heq)
      rw [if_neg heq, List.nil_append, ih hl hmem]

/-- Grouping undoes a join that is whole. -/
theorem consolidate_leftJoin {children : α → List β} (h : l.Nodup) :
    consolidate (leftJoin children l) = l.map fun a => (a, children a) := by
  rw [consolidate, firsts_leftJoin h]
  exact List.map_congr_left fun a ha => by rw [filterMap_leftJoin h ha]

/-- The groups, counted by their rows, are not more than the rows. -/
theorem sum_consolidate_le :
    ((consolidate rows).map fun g => max 1 g.2.length).sum ≤ rows.length := by
  have hcount : ∀ a ∈ firsts (rows.map Prod.fst),
      max 1 (rows.filterMap fun r => if r.1 = a then r.2 else none).length ≤
        (rows.map Prod.fst).count a := by
    intro a ha
    refine max_le (List.one_le_count_iff.mpr (mem_firsts.mp ha)) ?_
    clear ha
    induction rows with
    | nil => exact le_rfl
    | cons r rows ih =>
      rw [List.map_cons, List.count_cons]
      by_cases h : r.1 = a
      · cases hr : r.2 <;> simp [h, hr] <;> omega
      · simpa [h] using ih
  calc ((consolidate rows).map fun g => max 1 g.2.length).sum
      = ((firsts (rows.map Prod.fst)).map fun a =>
          max 1 (rows.filterMap fun r => if r.1 = a then r.2 else none).length).sum := by
        rw [consolidate, List.map_map]
        rfl
    _ ≤ ((firsts (rows.map Prod.fst)).map fun a => (rows.map Prod.fst).count a).sum :=
        List.sum_le_sum hcount
    _ = ((rows.map Prod.fst).dedup.map fun a => (rows.map Prod.fst).count a).sum :=
        (firsts_perm_dedup.map _).sum_eq
    _ = rows.length := by
        rw [List.sum_map_count_dedup_eq_length, List.length_map]

end Grouping

theorem forall₂_flatMap {γ δ : Type*} {R : β → γ → Prop} {f : δ → List β} {g : δ → List γ}
    {l : List δ} (h : ∀ x ∈ l, List.Forall₂ R (f x) (g x)) :
    List.Forall₂ R (l.flatMap f) (l.flatMap g) := by
  induction l with
  | nil => exact List.Forall₂.nil
  | cons x l ih =>
    obtain ⟨hx, hl⟩ := List.forall_mem_cons.mp h
    exact List.rel_append hx (ih hl)

end Relational
