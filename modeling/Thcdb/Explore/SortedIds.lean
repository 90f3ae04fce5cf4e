import Mathlib.Data.List.Induction
import Mathlib.Order.Lattice.Nat
import Thcdb.Corrections.Tables
import Thcdb.Paging.LastSeen
import Thcdb.Paging.Ties

namespace Thcdb.Explore
open Corrections Paging

inductive CorrectionSortField
  | CreatedAt | HandledAt
  deriving DecidableEq, Repr

inductive SortDirection
  | Asc | Desc
  deriving DecidableEq, Repr

def CorrectionSortField.column (f : CorrectionSortField) (c : Correction) : Option ℕ :=
  match f with
  | .CreatedAt => some c.createdAt
  | .HandledAt => c.handledAt

/-- A `NULL` is larger than every timestamp. -/
def CorrectionSortField.rank (f : CorrectionSortField) (c : Correction) : WithTop ℕ :=
  (f.column c).elim ⊤ WithTop.some

def SortDirection.Le (d : SortDirection) (x y : WithTop ℕ) : Prop :=
  match d with
  | .Asc => x ≤ y
  | .Desc => y ≤ x

instance (d : SortDirection) (x y : WithTop ℕ) : Decidable (d.Le x y) :=
  match d with
  | .Asc => inferInstanceAs (Decidable (x ≤ y))
  | .Desc => inferInstanceAs (Decidable (y ≤ x))

def ofType (corrections : List Correction) (entityType : EntityType) : List Correction :=
  corrections.filter fun c => c.entityType = entityType

/-- The rows of a query for corrections; ties stand as the database happens to return them. -/
structure Answer (corrections : List Correction) (entityType : EntityType) (f : CorrectionSortField)
    (d : SortDirection) where
  models : List Correction
  perm : models.Perm (ofType corrections entityType)
  sorted : models.Pairwise fun c e => d.Le (f.rank c) (f.rank e)

def insertEntry (m : List (EntityId × ℕ)) (entry : EntityId × ℕ) : List (EntityId × ℕ) :=
  entry :: m.filter fun e => e.1 ≠ entry.1

def lastIndex (ids : List EntityId) : List (EntityId × ℕ) := ids.zipIdx.foldl insertEntry []

def firstSeen (seen : List EntityId) : List Correction → List EntityId
  | [] => []
  | m :: models =>
    if m.entityId ∈ seen then firstSeen seen models
    else m.entityId :: firstSeen (m.entityId :: seen) models

section
variable {corrections : List Correction} {entityType : EntityType} {f : CorrectionSortField}
  {d : SortDirection}

def correctionSortedEntityIds (answer : Answer corrections entityType f d) : List EntityId :=
  match d with
  | .Asc =>
    let entries := (lastIndex (answer.models.map Correction.entityId)).mergeSort
      fun a b => a.2 ≤ b.2
    entries.map Prod.fst
  | .Desc => firstSeen [] answer.models

end

/-- The largest index of a list, on a machine of 64 bits. -/
def indexIn (idOrder : List EntityId) (id : EntityId) : ℕ :=
  ((lastIndex idOrder).lookup id).getD (2 ^ 64 - 1)

def sortByIdList {T : Type} (items : List T) (idOrder : List EntityId) (getId : T → EntityId) :
    List T :=
  items.mergeSort fun x y => indexIn idOrder (getId x) ≤ indexIn idOrder (getId y)

section
variable (f : CorrectionSortField) (rows : List Correction)

def newest (id : EntityId) : WithTop ℕ :=
  ((rows.filter fun c => c.entityId = id).map f.rank).max?.getD 0

/-- The latest of an entity's timestamps that are not `NULL`. -/
def latest (id : EntityId) : Option ℕ :=
  ((rows.filter fun c => c.entityId = id).filterMap f.column).max?

/-- Entities that may stand in this order, as far as the database is concerned. -/
def Precedes (d : SortDirection) (a b : EntityId) : Prop := d.Le (newest f rows a) (newest f rows b)

instance (d : SortDirection) : DecidableRel (Precedes f rows d) := fun _ _ =>
  inferInstanceAs (Decidable (d.Le _ _))

def entities : List EntityId := (rows.map Correction.entityId).dedup

def Before (d : SortDirection) (ids : List EntityId) (a b : EntityId) : Prop :=
  match d with
  | .Asc => [b, a].Sublist ids
  | .Desc => [a, b].Sublist ids

/-- The entity with the later timestamp stands before the other in descending order, and behind it
in ascending order. -/
def InOrder (d : SortDirection) (ids : List EntityId) : Prop :=
  ∀ a ∈ ids, ∀ b ∈ ids, ∀ s t, latest f rows a = some s → latest f rows b = some t → t < s →
    Before d ids a b

/-- Entities with an earlier timestamp than another have no `NULL`. -/
def HandledBehind : Prop :=
  ∀ a b s t, latest f rows a = some s → latest f rows b = some t → t < s →
    ∀ c ∈ rows, c.entityId = b → f.column c ≠ none

end

variable {ids L : List EntityId} {id a b : EntityId} {models : List Correction}

theorem pairwise_sortByKey {T : Type} (key : T → ℕ) (items : List T) :
    (items.mergeSort fun x y => key x ≤ key y).Pairwise fun x y => key x ≤ key y := by
  have h : (items.mergeSort fun x y => key x ≤ key y).Pairwise
      fun x y => decide (key x ≤ key y) = true := by
    apply List.pairwise_mergeSort
    · intro x y z hxy hyz
      simp only [decide_eq_true_eq] at hxy hyz ⊢
      exact hxy.trans hyz
    · intro x y
      simp only [Bool.or_eq_true, decide_eq_true_eq]
      exact le_total _ _
  exact h.imp fun hle => of_decide_eq_true hle

section Maps

theorem lastIndex_concat :
    lastIndex (ids ++ [a]) = insertEntry (lastIndex ids) (a, ids.length) := by
  rw [lastIndex, List.zipIdx_append, List.foldl_append, List.zipIdx_singleton, Nat.zero_add]
  rfl

theorem lookup_filter_ne {m : List (EntityId × ℕ)} (h : id ≠ a) :
    (m.filter fun e => e.1 ≠ a).lookup id = m.lookup id := by
  induction m with
  | nil => rfl
  | cons e m ih =>
    obtain ⟨b, k⟩ := e
    by_cases hb : b = a
    · have hne : (id == b) = false := beq_eq_false_iff_ne.mpr fun heq => h (heq.trans hb)
      rw [List.filter_cons_of_neg (by simpa using hb), ih, List.lookup_cons, hne]
    · rw [List.filter_cons_of_pos (by simpa using hb), List.lookup_cons, List.lookup_cons, ih]

theorem lookup_lastIndex (hids : ids.Nodup) (hid : id ∈ ids) :
    (lastIndex ids).lookup id = some (ids.idxOf id) := by
  induction ids using List.reverseRecOn with
  | nil => cases hid
  | append_singleton ids a ih =>
    obtain ⟨hnodup, -, hout⟩ := List.nodup_append.mp hids
    rw [lastIndex_concat, insertEntry, List.lookup_cons]
    by_cases heq : id = a
    · have hnot : a ∉ ids := fun ha => hout a ha a List.mem_cons_self rfl
      rw [heq, beq_self_eq_true, List.idxOf_append_of_notMem hnot, List.idxOf_cons_self,
        Nat.add_zero]
    · have hmem : id ∈ ids := by
        rcases List.mem_append.mp hid with h | h
        · exact h
        · exact absurd (List.mem_singleton.mp h) heq
      have hne : (id == a) = false := beq_eq_false_iff_ne.mpr heq
      rw [hne, lookup_filter_ne heq, ih hnodup hmem, List.idxOf_append_of_mem hmem]

theorem dedup_concat : (ids ++ [a]).dedup = ids.dedup.filter (· ≠ a) ++ [a] := by
  induction ids with
  | nil => rfl
  | cons b ids ih =>
    by_cases hmem : b ∈ ids
    · rw [List.cons_append, List.dedup_cons_of_mem (List.mem_append_left _ hmem), ih,
        List.dedup_cons_of_mem hmem]
    · rw [List.dedup_cons_of_notMem hmem]
      by_cases heq : b = a
      · rw [heq, List.cons_append, List.dedup_cons_of_mem (by simp), ih,
          List.filter_cons_of_neg (by simp)]
      · rw [List.cons_append, List.dedup_cons_of_notMem (by simp [hmem, heq]), ih,
          List.filter_cons_of_pos (by simpa using heq), List.cons_append]

/-- The entries of the map, in the order of their indices. -/
theorem exists_entries (ids : List EntityId) :
    ∃ entries : List (EntityId × ℕ), entries.Perm (lastIndex ids) ∧
      (entries.Pairwise fun a b => a.2 < b.2) ∧ (∀ e ∈ entries, e.2 < ids.length) ∧
        entries.map Prod.fst = ids.dedup := by
  induction ids using List.reverseRecOn with
  | nil => exact ⟨[], .nil, .nil, nofun, rfl⟩
  | append_singleton ids a ih =>
    obtain ⟨entries, hperm, hsorted, hlt, hids⟩ := ih
    have hkept : ∀ e ∈ entries.filter fun e => e.1 ≠ a, e.2 < ids.length := fun e he =>
      hlt e (List.mem_of_mem_filter he)
    refine ⟨(entries.filter fun e => e.1 ≠ a) ++ [(a, ids.length)], ?_, ?_, ?_, ?_⟩
    · rw [lastIndex_concat, insertEntry]
      exact List.perm_append_comm.trans ((hperm.filter _).cons _)
    · refine List.pairwise_append.mpr ⟨hsorted.filter _, List.pairwise_singleton _ _, ?_⟩
      intro e he x hx
      rw [List.mem_singleton.mp hx]
      exact hkept e he
    · intro e he
      rw [List.length_append, List.length_singleton]
      rcases List.mem_append.mp he with he | he
      · exact (hkept e he).trans (Nat.lt_succ_self _)
      · rw [List.mem_singleton.mp he]
        exact Nat.lt_succ_self _
    · rw [List.map_append, dedup_concat, ← hids, List.filter_map]
      rfl

theorem map_lastIndex (ids : List EntityId) :
    ((lastIndex ids).mergeSort fun a b => a.2 ≤ b.2).map Prod.fst = ids.dedup := by
  obtain ⟨entries, hperm, hsorted, -, hids⟩ := exists_entries ids
  have hmerge := pairwise_sortByKey Prod.snd (lastIndex ids)
  have heq : ((lastIndex ids).mergeSort fun a b => a.2 ≤ b.2) = entries := by
    refine ((List.mergeSort_perm _ _).trans hperm.symm).eq_of_pairwise ?_ hmerge
      (hsorted.imp Nat.le_of_lt)
    intro x y hx hy hxy hyx
    -- the indices are different
    have hx' : x ∈ entries := hperm.symm.subset (List.mem_mergeSort.mp hx)
    have hinj : (entries.map Prod.snd).Nodup :=
      List.pairwise_map.mpr (hsorted.imp fun hlt => hlt.ne)
    exact List.inj_on_of_nodup_map hinj hx' hy (le_antisymm hxy hyx)
  rw [heq, hids]

theorem firstSeen_eq (seen : List EntityId) :
    firstSeen seen models =
      ((models.map Correction.entityId).reverse.dedup.reverse).filter (· ∉ seen) := by
  induction models generalizing seen with
  | nil => rfl
  | cons m models ih =>
    rw [firstSeen, List.map_cons, List.reverse_cons, dedup_concat, List.reverse_append,
      List.reverse_singleton, List.singleton_append, ← List.filter_reverse]
    split_ifs with hseen
    · rw [ih, List.filter_cons_of_neg (by simpa using hseen), List.filter_filter]
      refine List.filter_congr fun id _ => ?_
      rw [Bool.eq_iff_iff]
      simp only [decide_eq_true_eq, Bool.and_eq_true]
      exact ⟨fun h => ⟨h, fun heq => h (heq ▸ hseen)⟩, fun h => h.1⟩
    · rw [ih, List.filter_cons_of_pos (by simpa using hseen), List.filter_filter]
      congr 1
      refine List.filter_congr fun id _ => ?_
      rw [Bool.eq_iff_iff]
      simp [and_comm, not_or]

end Maps

section Order
variable {f : CorrectionSortField} {d : SortDirection} {rows : List Correction} {s t : ℕ}

theorem greatest_newest (h : id ∈ rows.map Correction.entityId) :
    Greatest f.rank Correction.entityId rows id (newest f rows id) := by
  obtain ⟨c, hc, hid⟩ := List.mem_map.mp h
  have hmem : ∀ e, e ∈ rows.filter (fun c => c.entityId = id) ↔ e ∈ rows ∧ e.entityId = id :=
    fun e => by rw [List.mem_filter, decide_eq_true_eq]
  cases hmax : ((rows.filter fun c => c.entityId = id).map f.rank).max? with
  | none =>
    have hnil := List.map_eq_nil_iff.mp (List.max?_eq_none_iff.mp hmax)
    have hin := (hmem c).mpr ⟨hc, hid⟩
    rw [hnil] at hin
    cases hin
  | some k =>
    obtain ⟨hk, hle⟩ := List.max?_eq_some_iff.mp hmax
    rw [newest, hmax, Option.getD_some]
    constructor
    · obtain ⟨e, he, hek⟩ := List.mem_map.mp hk
      exact ⟨e, ((hmem e).mp he).1, ((hmem e).mp he).2, hek⟩
    · intro e he heid
      exact hle _ (List.mem_map_of_mem ((hmem e).mpr ⟨he, heid⟩))

theorem latest_eq_some (h : latest f rows id = some t) :
    (∃ c ∈ rows, c.entityId = id ∧ f.column c = some t) ∧
      ∀ c ∈ rows, c.entityId = id → ∀ s, f.column c = some s → s ≤ t := by
  obtain ⟨ht, hle⟩ := List.max?_eq_some_iff.mp h
  obtain ⟨c, hc, hct⟩ := List.mem_filterMap.mp ht
  rw [List.mem_filter, decide_eq_true_eq] at hc
  refine ⟨⟨c, hc.1, hc.2, hct⟩, fun e he heid s hes => hle s (List.mem_filterMap.mpr ⟨e, ?_, hes⟩)⟩
  rw [List.mem_filter, decide_eq_true_eq]
  exact ⟨he, heid⟩

theorem mem_of_latest (h : latest f rows id = some t) : id ∈ rows.map Correction.entityId := by
  obtain ⟨⟨c, hc, rfl, -⟩, -⟩ := latest_eq_some h
  exact List.mem_map_of_mem hc

theorem rank_of_column {c : Correction} (h : f.column c = some t) : f.rank c = (t : WithTop ℕ) := by
  rw [CorrectionSortField.rank, h]
  rfl

theorem le_newest (h : latest f rows id = some t) : (t : WithTop ℕ) ≤ newest f rows id := by
  obtain ⟨⟨c, hc, hid, hct⟩, -⟩ := latest_eq_some h
  rw [← rank_of_column hct]
  exact (greatest_newest (mem_of_latest h)).le c hc hid

theorem newest_eq_latest (h : latest f rows id = some t)
    (hall : ∀ c ∈ rows, c.entityId = id → f.column c ≠ none) :
    newest f rows id = (t : WithTop ℕ) := by
  obtain ⟨c, hc, hid, hck⟩ := (greatest_newest (f := f) (mem_of_latest h)).attained
  obtain ⟨s, hs⟩ := Option.ne_none_iff_exists'.mp (hall c hc hid)
  refine le_antisymm ?_ (le_newest h)
  rw [← hck, rank_of_column hs]
  exact WithTop.coe_le_coe.mpr ((latest_eq_some h).2 c hc hid s hs)

theorem newest_eq_top {c : Correction} (hc : c ∈ rows) (h : f.column c = none) :
    newest f rows c.entityId = ⊤ := by
  have hle := (greatest_newest (f := f) (List.mem_map_of_mem hc)).le c hc rfl
  rw [CorrectionSortField.rank, h] at hle
  exact top_le_iff.mp hle

instance : Std.Total (Precedes f rows d) where
  total a b := by
    cases d with
    | Asc => exact le_total _ _
    | Desc => exact le_total _ _

instance : IsTrans EntityId (Precedes f rows d) where
  trans a b c := by
    cases d with
    | Asc => exact le_trans
    | Desc => exact fun hab hbc => le_trans hbc hab

theorem mem_entities : id ∈ entities rows ↔ ∃ c ∈ rows, c.entityId = id := by
  rw [entities, List.mem_dedup, List.mem_map]

theorem nodup_entities : (entities rows).Nodup := List.nodup_dedup _

end Order

section Answers
variable {corrections : List Correction} {entityType : EntityType} {f : CorrectionSortField}
  {d : SortDirection}

theorem firstSeen_nil :
    firstSeen [] models = ((models.reverse.map Correction.entityId).dedup).reverse := by
  rw [firstSeen_eq, List.map_reverse]
  exact List.filter_eq_self.mpr fun _ _ => decide_eq_true List.not_mem_nil

/-- Both directions put the entities in the order of their latest corrections. -/
theorem arranged_ids (answer : Answer corrections entityType f d) :
    Arranged (Precedes f (ofType corrections entityType) d)
      (entities (ofType corrections entityType)) (correctionSortedEntityIds answer) := by
  obtain ⟨models, hperm, hsorted⟩ := answer
  have hgreatest : ∀ {l : List Correction}, l.Perm (ofType corrections entityType) →
      ∀ id ∈ l.map Correction.entityId,
        Greatest f.rank Correction.entityId l id (newest f (ofType corrections entityType) id) :=
    fun hl id hid => (greatest_newest ((hl.map _).subset hid)).perm hl
  cases d with
  | Asc =>
    simp only [correctionSortedEntityIds, map_lastIndex]
    exact ⟨(hperm.map _).dedup, pairwise_dedup hsorted (hgreatest hperm)⟩
  | Desc =>
    have hrev : models.reverse.Perm (ofType corrections entityType) :=
      (List.reverse_perm _).trans hperm
    simp only [correctionSortedEntityIds, firstSeen_nil]
    refine ⟨(List.reverse_perm _).trans (hrev.map _).dedup, List.pairwise_reverse.mpr ?_⟩
    exact pairwise_dedup (List.pairwise_reverse.mpr hsorted) (hgreatest hrev)

/-- Every order of the entities that their latest corrections allow is the one of some answer. -/
theorem exists_answer (h : Arranged (Precedes f (ofType corrections entityType) d)
    (entities (ofType corrections entityType)) L) :
    ∃ answer : Answer corrections entityType f d, correctionSortedEntityIds answer = L := by
  have hL : L.Nodup := h.perm.nodup_iff.mpr nodup_entities
  have hmem : ∀ id, id ∈ L ↔ id ∈ (ofType corrections entityType).map Correction.entityId :=
    fun id => h.perm.mem_iff.trans List.mem_dedup
  cases d with
  | Asc =>
    obtain ⟨models, hperm, hsorted, rfl⟩ :=
      exists_dedup_eq hL hmem h.sorted fun _ => greatest_newest
    exact ⟨⟨models, hperm, hsorted⟩, map_lastIndex _⟩
  | Desc =>
    obtain ⟨models, hperm, hsorted, hdedup⟩ :=
      exists_dedup_eq (List.nodup_reverse.mpr hL) (fun id => List.mem_reverse.trans (hmem id))
        (List.pairwise_reverse.mpr h.sorted) fun _ => greatest_newest
    refine ⟨⟨models.reverse, (List.reverse_perm _).trans hperm,
      List.pairwise_reverse.mpr hsorted⟩, ?_⟩
    simp only [correctionSortedEntityIds, firstSeen_nil]
    rw [List.reverse_reverse, hdedup, List.reverse_reverse]

theorem sublist_pair_or (ha : a ∈ ids) (hb : b ∈ ids) (hne : a ≠ b) :
    [a, b].Sublist ids ∨ [b, a].Sublist ids := by
  obtain ⟨before, behind, rfl⟩ := List.append_of_mem ha
  rcases List.mem_append.mp hb with hb | hb
  · exact .inr ((List.singleton_sublist.mpr hb).append
      (List.singleton_sublist.mpr List.mem_cons_self))
  · have hb' : b ∈ behind := (List.mem_cons.mp hb).resolve_left (Ne.symm hne)
    exact .inl (((List.singleton_sublist.mpr hb').cons_cons a).trans
      (List.sublist_append_right _ _))

theorem not_sublist_both (hids : ids.Nodup) (h : [a, b].Sublist ids) : ¬[b, a].Sublist ids := by
  intro h'
  have hab := List.pairwise_pair.mp ((pairwise_idxOf hids).sublist h)
  have hba := List.pairwise_pair.mp ((pairwise_idxOf hids).sublist h')
  exact lt_asymm hab hba

theorem not_before_both (hids : ids.Nodup) (h : Before d ids a b) : ¬Before d ids b a := by
  cases d with
  | Asc => exact not_sublist_both hids h
  | Desc => exact not_sublist_both hids h

variable {rows : List Correction}

theorem before_of_newest_lt (hsorted : ids.Pairwise (Precedes f rows d)) (ha : a ∈ ids)
    (hb : b ∈ ids) (hlt : newest f rows b < newest f rows a) : Before d ids a b := by
  have hne : a ≠ b := by
    rintro rfl
    exact lt_irrefl _ hlt
  cases d with
  | Asc =>
    refine (sublist_pair_or ha hb hne).resolve_left fun h => ?_
    have hle : Precedes f rows .Asc a b := List.pairwise_pair.mp (hsorted.sublist h)
    exact not_le_of_gt hlt hle
  | Desc =>
    refine (sublist_pair_or ha hb hne).resolve_right fun h => ?_
    have hle : Precedes f rows .Desc b a := List.pairwise_pair.mp (hsorted.sublist h)
    exact not_le_of_gt hlt hle

theorem newest_le_of_before (hsorted : ids.Pairwise (Precedes f rows d)) (h : Before d ids a b) :
    newest f rows b ≤ newest f rows a := by
  cases d with
  | Asc =>
    have hle : Precedes f rows .Asc b a := List.pairwise_pair.mp (hsorted.sublist h)
    exact hle
  | Desc =>
    have hle : Precedes f rows .Desc a b := List.pairwise_pair.mp (hsorted.sublist h)
    exact hle

theorem Before.map (h : Before d ids a b) (g : EntityId → EntityId) :
    Before d (ids.map g) (g a) (g b) := by
  cases d with
  | Asc => exact List.Sublist.map g h
  | Desc => exact List.Sublist.map g h

theorem inOrder_of_handled (hhandled : HandledBehind f rows)
    (hsorted : ids.Pairwise (Precedes f rows d)) : InOrder f rows d ids := by
  intro a ha b hb s t hs ht hlt
  refine before_of_newest_lt hsorted ha hb ?_
  rw [newest_eq_latest ht (hhandled a b s t hs ht hlt)]
  exact (WithTop.coe_lt_coe.mpr hlt).trans_le (le_newest hs)

/-- Entities that both have a `NULL` may stand either way. -/
theorem handled_of_inOrder
    (h : ∀ L, Arranged (Precedes f rows d) (entities rows) L → InOrder f rows d L) :
    HandledBehind f rows := by
  intro a b s t hs ht hlt c hc hid hnull
  have hL := arranged_insertionSort (r := Precedes f rows d) (entities rows)
  generalize (entities rows).insertionSort (Precedes f rows d) = L at hL
  have ha : a ∈ L := hL.perm.symm.subset (List.mem_dedup.mpr (mem_of_latest hs))
  have hb : b ∈ L := hL.perm.symm.subset (List.mem_dedup.mpr (mem_of_latest ht))
  have hbefore := h L hL a ha b hb s t hs ht hlt
  have htop : newest f rows b = ⊤ := by
    rw [← hid]
    exact newest_eq_top hc hnull
  have htie : newest f rows a = ⊤ := top_le_iff.mp (htop ▸ newest_le_of_before hL.sorted hbefore)
  have hprecedes : ∀ x y, newest f rows x = ⊤ → newest f rows y = ⊤ → Precedes f rows d x y := by
    intro x y hx hy
    unfold Precedes
    rw [hx, hy]
    cases d with
    | Asc => exact le_rfl
    | Desc => exact le_rfl
  have hswap := hL.swap nodup_entities ha hb (hprecedes a b htie htop) (hprecedes b a htop htie)
  have hother := hbefore.map (Equiv.swap a b)
  rw [Equiv.swap_apply_left, Equiv.swap_apply_right] at hother
  have ha' : a ∈ L.map (Equiv.swap a b) := hswap.perm.symm.subset (hL.perm.subset ha)
  have hb' : b ∈ L.map (Equiv.swap a b) := hswap.perm.symm.subset (hL.perm.subset hb)
  exact not_before_both (hswap.perm.nodup_iff.mpr nodup_entities) hother
    (h _ hswap a ha' b hb' s t hs ht hlt)

end Answers

section Sorting
variable {T : Type} {items : List T} {getId : T → EntityId}

theorem indexIn_eq (hL : L.Nodup) (h : id ∈ L) : indexIn L id = L.idxOf id := by
  rw [indexIn, lookup_lastIndex hL h]
  rfl

/-- Items with different identities stand where their identities do. -/
theorem map_sortByIdList (hL : L.Nodup) (hitems : (items.map getId).Nodup)
    (hmem : ∀ id ∈ items.map getId, id ∈ L) :
    (sortByIdList items L getId).map getId = L.filter fun id => id ∈ items.map getId := by
  have hperm : ((sortByIdList items L getId).map getId).Perm (items.map getId) :=
    (List.mergeSort_perm _ _).map _
  have hfilter : (L.filter fun id => id ∈ items.map getId).Perm (items.map getId) := by
    refine (List.perm_ext_iff_of_nodup (hL.filter _) hitems).mpr fun id => ?_
    rw [List.mem_filter, decide_eq_true_eq]
    exact ⟨fun h => h.2, fun h => ⟨hmem id h, h⟩⟩
  have hsorted : ((sortByIdList items L getId).map getId).Pairwise
      fun a b => indexIn L a ≤ indexIn L b :=
    List.pairwise_map.mpr (pairwise_sortByKey (fun x => indexIn L (getId x)) items)
  have hplaces : (L.filter fun id => id ∈ items.map getId).Pairwise
      fun a b => indexIn L a ≤ indexIn L b := by
    refine List.Pairwise.imp_of_mem ?_ ((pairwise_idxOf hL).sublist List.filter_sublist)
    intro a b ha hb hlt
    rw [indexIn_eq hL (List.mem_of_mem_filter ha), indexIn_eq hL (List.mem_of_mem_filter hb)]
    exact hlt.le
  refine (hperm.trans hfilter.symm).eq_of_pairwise ?_ hsorted hplaces
  intro a b ha hb hab hba
  have ha' := hmem a (hperm.subset ha)
  have hb' := List.mem_of_mem_filter hb
  rw [indexIn_eq hL ha', indexIn_eq hL hb'] at hab hba
  exact (List.idxOf_inj ha').mp (le_antisymm hab hba)

end Sorting

end Thcdb.Explore
