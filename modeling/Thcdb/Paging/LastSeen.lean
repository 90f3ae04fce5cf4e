import Mathlib.Data.List.Dedup
import Mathlib.Data.List.Sort
import Mathlib.Data.Prod.Lex

namespace Paging

variable {α β κ : Type*} [LinearOrder κ] (K : α → κ) (f : α → β)

/-- The key of the last element of a group. -/
structure Greatest (l : List α) (b : β) (k : κ) : Prop where
  attained : ∃ x ∈ l, f x = b ∧ K x = k
  le : ∀ x ∈ l, f x = b → K x ≤ k

def withPlace [DecidableEq β] (L : List β) (x : α) : κ ×ₗ ℕ := toLex (K x, L.idxOf (f x))

variable {K f} {l l' : List α} {x : α} {b : β} {k : κ} {g : β → κ}

theorem Greatest.of_cons (h : Greatest K f (x :: l) b k) (hx : ∀ y ∈ l, K x ≤ K y)
    (hb : b ∈ l.map f) : Greatest K f l b k := by
  obtain ⟨y, hy, hyb⟩ := List.mem_map.mp hb
  obtain ⟨z, hz, hzb, hzk⟩ := h.attained
  refine ⟨?_, fun w hw => h.le w (List.mem_cons_of_mem x hw)⟩
  rcases List.mem_cons.mp hz with rfl | hz
  · have hle := h.le y (List.mem_cons_of_mem z hy) hyb
    exact ⟨y, hy, hyb, le_antisymm hle (hzk ▸ hx y hy)⟩
  · exact ⟨z, hz, hzb, hzk⟩

theorem Greatest.perm (h : Greatest K f l b k) (hl : l'.Perm l) : Greatest K f l' b k := by
  obtain ⟨x, hx, hxb, hxk⟩ := h.attained
  exact ⟨⟨x, hl.symm.subset hx, hxb, hxk⟩, fun y hy => h.le y (hl.subset hy)⟩

variable [DecidableEq β]

/-- Last occurrences stand in the order of the greatest keys. -/
theorem pairwise_dedup (hl : l.Pairwise fun x y => K x ≤ K y)
    (hg : ∀ b ∈ l.map f, Greatest K f l b (g b)) :
    (l.map f).dedup.Pairwise fun a b => g a ≤ g b := by
  induction l with
  | nil => exact .nil
  | cons x l ih =>
    obtain ⟨hx, hl⟩ := List.pairwise_cons.mp hl
    have htail : ∀ b ∈ l.map f, Greatest K f l b (g b) := fun b hb =>
      (hg b (List.mem_cons_of_mem _ hb)).of_cons hx hb
    rw [List.map_cons]
    by_cases hmem : f x ∈ l.map f
    · rw [List.dedup_cons_of_mem hmem]
      exact ih hl htail
    · rw [List.dedup_cons_of_notMem hmem]
      refine List.pairwise_cons.mpr ⟨fun b hb => ?_, ih hl htail⟩
      -- the group of the head has no other element
      obtain ⟨y, hy, hyx, hyk⟩ := (hg (f x) List.mem_cons_self).attained
      obtain ⟨z, hz, hzb, hzk⟩ := (htail b (List.mem_dedup.mp hb)).attained
      rcases List.mem_cons.mp hy with rfl | hy
      · rw [← hyk, ← hzk]
        exact hx z hz
      · exact absurd (hyx ▸ List.mem_map_of_mem hy) hmem

theorem pairwise_idxOf {L : List β} (hL : L.Nodup) :
    L.Pairwise fun a b => L.idxOf a < L.idxOf b := by
  rw [List.pairwise_iff_getElem]
  intro i j hi hj hij
  rwa [hL.idxOf_getElem, hL.idxOf_getElem]

/-- Every order of the groups that their greatest keys allow comes from an order of the list. -/
theorem exists_dedup_eq {L : List β} (hL : L.Nodup) (hmem : ∀ b, b ∈ L ↔ b ∈ l.map f)
    (hsorted : L.Pairwise fun a b => g a ≤ g b) (hg : ∀ b ∈ l.map f, Greatest K f l b (g b)) :
    ∃ l' : List α, l'.Perm l ∧ (l'.Pairwise fun x y => K x ≤ K y) ∧ (l'.map f).dedup = L := by
  have hperm := List.perm_insertionSort (fun x y => withPlace K f L x ≤ withPlace K f L y) l
  have hplace := List.pairwise_insertionSort (fun x y => withPlace K f L x ≤ withPlace K f L y) l
  generalize (l.insertionSort fun x y => withPlace K f L x ≤ withPlace K f L y) = l' at hperm hplace
  refine ⟨l', hperm, hplace.imp fun hle => Prod.Lex.monotone_fst _ _ hle, ?_⟩
  have hgreatest : ∀ b ∈ l'.map f, Greatest (withPlace K f L) f l' b (withPlace g id L b) := by
    intro b hb
    have h := (hg b ((hperm.map f).subset hb)).perm hperm
    obtain ⟨x, hx, rfl, hxk⟩ := h.attained
    refine ⟨⟨x, hx, rfl, by rw [withPlace, withPlace, hxk, id]⟩, fun y hy hyx => ?_⟩
    refine Prod.Lex.toLex_le_toLex.mpr ?_
    rcases (h.le y hy hyx).lt_or_eq with hlt | heq
    · exact .inl hlt
    · exact .inr ⟨heq, by rw [hyx, id]⟩
  have hdedup := pairwise_dedup hplace hgreatest
  have hL' : L.Pairwise fun a b => withPlace g id L a ≤ withPlace g id L b := by
    refine (hsorted.and (pairwise_idxOf hL)).imp fun {a b} h => Prod.Lex.toLex_le_toLex.mpr ?_
    rcases h.1.lt_or_eq with hlt | heq
    · exact .inl hlt
    · exact .inr ⟨heq, h.2.le⟩
  have hpermL : ((l'.map f).dedup).Perm L := by
    refine (List.perm_ext_iff_of_nodup (List.nodup_dedup _) hL).mpr fun b => ?_
    rw [List.mem_dedup, hmem, (hperm.map f).mem_iff]
  refine hpermL.eq_of_pairwise ?_ hdedup hL'
  intro a b ha hb hab hba
  have heq := congrArg (fun p => (ofLex p).2) (le_antisymm hab hba)
  exact (List.idxOf_inj (hpermL.subset ha)).mp heq

end Paging
