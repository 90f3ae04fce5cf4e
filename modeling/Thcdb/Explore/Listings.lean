import Mathlib.Data.Int.Interval
import Thcdb.Catalog.Database
import Thcdb.Explore.SortedIds
import Thcdb.Fallible.Except
import Thcdb.Paging.PageQuery

namespace Thcdb.Explore
open Catalog Corrections Paging Relational

structure Filter (Q : Type) where
  conditions : Q
  sortField : Option CorrectionSortField
  sortDirection : Option SortDirection

def Filter.withSortDefaults {Q : Type} (filter : Filter Q) : Filter Q :=
  { filter with
    sortField := filter.sortField.or (some .CreatedAt)
    sortDirection := filter.sortDirection.or (some .Desc) }

/-- A request that panics has no response; no failure of the database is modelled. -/
inductive Failure
  | panicked
  deriving DecidableEq, Repr

/-- A primary key: an `i32` of a sequence that starts at one. -/
def IsKey (id : ℤ) : Prop := 0 < id ∧ id < 2 ^ 31

/-- A `find_many_impl` that builds an entity for every row. -/
structure FindManyImpl (C D : Type) where
  load : List (Row C) → List D
  getId : D → ℤ
  ids : ∀ rows, (load rows).map getId = rows.map Row.id

/-- A `find_many_impl` that may panic. -/
structure EntityLoader (C D : Type) where
  load : List (Row C) → Except Failure (List D)
  getId : D → ℤ
  nil : load [] = .ok []
  ids : ∀ rows items, load rows = .ok items → items.map getId = rows.map Row.id

def FindManyImpl.loader {C D : Type} (m : FindManyImpl C D) : EntityLoader C D where
  load rows := .ok (m.load rows)
  getId := m.getId
  nil := by
    have hnil := m.ids []
    rw [List.map_nil, List.map_eq_nil_iff] at hnil
    rw [hnil]
  ids rows items h := by
    rw [← Except.ok.inj h]
    exact m.ids rows

structure Listing (C Q D : Type) where
  entityType : EntityType
  table : Table C
  keys : ∀ r ∈ table.rows, IsKey r.id
  findManyImpl : EntityLoader C D
  intoSelect : Q → Row C → Bool
  /-- The conditions again, as they are added to the query by corrections. -/
  sortedSelect : Q → Row C → Bool
  agree : ∀ q r, sortedSelect q r = intoSelect q r

section Listings
variable {C Q D : Type} (L : Listing C Q D) {corrections : List Correction}

/-- The answers of the database to the queries of one request; rows come as they happen to where the
query names no order. -/
structure Answers (corrections : List Correction) (L : Listing C Q D) where
  models : ∀ f d, Answer corrections L.entityType f d
  arrange : List (Row C) → List (Row C)
  perm : ∀ rows, (arrange rows).Perm rows

def findSortedByCorrection (answers : Answers corrections L) (f : CorrectionSortField)
    (d : SortDirection) (conditions : Q) (pagination : PageQuery) :
    Except Failure (PageResponse D) := do
  let entityIds := correctionSortedEntityIds (answers.models f d)
  if entityIds.isEmpty then return pageFromItems [] pagination
  let items ← L.findManyImpl.load <| answers.arrange <|
    L.table.rows.filter fun r => entityIds.contains r.id && L.sortedSelect conditions r
  return pageFromItems (sortByIdList items entityIds L.findManyImpl.getId) pagination

def findByFilter (answers : Answers corrections L) (filter : Filter Q) (pagination : PageQuery) :
    Except Failure (PageResponse D) :=
  match filter.sortField, filter.sortDirection with
  | some f, some d => findSortedByCorrection L answers f d filter.conditions pagination
  | _, _ =>
    findManyPage L.table (L.intoSelect filter.conditions) pagination L.findManyImpl.load

def explore (answers : Answers corrections L) (filter : Filter Q) (pagination : PageQuery) :
    Except Failure (PageResponse D) :=
  findByFilter L answers filter.withSortDefaults pagination

/-- A request that names no order is sorted too. -/
theorem explore_eq (answers : Answers corrections L) (filter : Filter Q) (pagination : PageQuery) :
    explore L answers filter pagination =
      findSortedByCorrection L answers (filter.sortField.getD .CreatedAt)
        (filter.sortDirection.getD .Desc) filter.conditions pagination := by
  unfold explore findByFilter Filter.withSortDefaults
  cases filter.sortField <;> cases filter.sortDirection <;> rfl

/-- The entities on the pages of a listing, as far as the first page counts them; every page is a
request of its own. -/
def listedIds (limit? : Option UInt32)
    (find : UInt32 → PageQuery → Except Failure (PageResponse D)) :
    Except Failure (List EntityId) := do
  let response (p : UInt32) := find p ⟨limit?, some p⟩
  let first ← response 1
  let pages ← (List.range first.totalPages).mapM fun i => response (UInt32.ofNat (i + 1))
  return pages.flatMap fun r => r.items.map L.findManyImpl.getId

def selectedRows (conditions : Q) : List (Row C) :=
  sortById (L.table.rows.filter (L.intoSelect conditions))

def selected (conditions : Q) : List EntityId :=
  (L.table.rows.filter (L.intoSelect conditions)).map Row.id

variable (corrections) in
def listed (conditions : Q) : List EntityId :=
  (entities (ofType corrections L.entityType)).filter fun id => id ∈ selected L conditions

variable (corrections) in
def listedRows (conditions : Q) : List (Row C) :=
  L.table.rows.filter fun r =>
    r.id ∈ entities (ofType corrections L.entityType) && L.intoSelect conditions r

/-- No request of the two listings panics, however the rows come. -/
structure Loads (L : Listing C Q D) (corrections : List Correction) (conditions : Q)
    (limit? : Option UInt32) : Prop where
  sorted : ∀ rows, rows.Perm (listedRows L corrections conditions) →
    ∃ items, L.findManyImpl.load rows = .ok items
  unsorted : ∀ i, ∃ items,
    L.findManyImpl.load (slice (pageSize limit?) i (selectedRows L conditions)) = .ok items

end Listings

section Pages
variable {C Q D : Type} {L : Listing C Q D} {corrections : List Correction} {limit? : Option UInt32}
  {find : UInt32 → PageQuery → Except Failure (PageResponse D)} {conditions : Q} {n : ℕ}
  {f : CorrectionSortField} {d : SortDirection}

def Cuts (L : Listing C Q D) (limit? : Option UInt32) (n : ℕ) (G : List EntityId) (p : UInt32)
    (response : Except Failure (PageResponse D)) : Prop :=
  ∃ r, response = .ok r ∧ r.totalPages = totalPages n (PageQuery.mk limit? none).limit ∧
    r.items.map L.findManyImpl.getId = slice (pageSize limit?) (p.toNat - 1) G

theorem listedIds_eq {G : UInt32 → List EntityId}
    (h : ∀ p : UInt32, 0 < p.toNat → Cuts L limit? n (G p) p (find p ⟨limit?, some p⟩)) :
    listedIds L limit? find =
      .ok (concatPages (pageSize limit?) (totalPages n (PageQuery.mk limit? none).limit)
        fun i => G (UInt32.ofNat (i + 1))) := by
  obtain ⟨first, hfirst, hpages, -⟩ := h 1 (by decide)
  choose r hr _ hitems using fun (p : UInt32) (hp : 0 < p.toNat) => h p hp
  -- the response to the request for each page
  let page (i : ℕ) : PageResponse D :=
    if hp : 0 < (UInt32.ofNat (i + 1)).toNat then r _ hp else first
  have hpage : ∀ i < totalPages n (PageQuery.mk limit? none).limit,
      find (UInt32.ofNat (i + 1)) ⟨limit?, some (UInt32.ofNat (i + 1))⟩ = .ok (page i) ∧
        (page i).items.map L.findManyImpl.getId =
          slice (pageSize limit?) i (G (UInt32.ofNat (i + 1))) := by
    intro i hi
    have hnumber := toNat_pageNumber hi
    have hp : 0 < (UInt32.ofNat (i + 1)).toNat := by omega
    have hcut := hitems _ hp
    rw [hnumber, Nat.add_sub_cancel] at hcut
    simp only [page, dif_pos hp]
    exact ⟨hr _ hp, hcut⟩
  have hall : (List.range (totalPages n (PageQuery.mk limit? none).limit)).mapM
      (fun i => find (UInt32.ofNat (i + 1)) ⟨limit?, some (UInt32.ofNat (i + 1))⟩) =
        .ok ((List.range (totalPages n (PageQuery.mk limit? none).limit)).map page) := by
    rw [Fallible.mapM_eq_ok_iff, List.forall₂_map_right_iff, List.forall₂_same]
    intro i hi
    exact (hpage i (List.mem_range.mp hi)).1
  rw [← hpages] at hall
  refine Fallible.bind_eq_ok.mpr ⟨first, hfirst, Fallible.bind_eq_ok.mpr ⟨_, hall, ?_⟩⟩
  rw [List.flatMap_map, hpages, concatPages]
  refine congrArg Except.ok (List.flatMap_congr fun i hi => ?_)
  exact (hpage i (List.mem_range.mp hi)).2

/-- All requests that a listing consists of were answered. -/
theorem response_of_listedIds {ids : List EntityId} (h : listedIds L limit? find = .ok ids) :
    ∃ first, find 1 ⟨limit?, some 1⟩ = .ok first ∧ ∀ i < first.totalPages, ∃ r,
      find (UInt32.ofNat (i + 1)) ⟨limit?, some (UInt32.ofNat (i + 1))⟩ = .ok r := by
  obtain ⟨first, hfirst, h⟩ := Fallible.bind_eq_ok.mp h
  obtain ⟨pages, hpages, -⟩ := Fallible.bind_eq_ok.mp h
  have hall := Fallible.mapM_eq_ok_iff.mp hpages
  refine ⟨first, hfirst, fun i hi => ?_⟩
  have hrange : i < (List.range first.totalPages).length := by simpa using hi
  have hr := hall.get hrange (hall.length_eq ▸ hrange)
  simp only [List.get_eq_getElem, List.getElem_range] at hr
  exact ⟨_, hr⟩

theorem cuts_pageFromItems (items : List D) {p : UInt32} (hp : 0 < p.toNat) :
    Cuts L limit? items.length (items.map L.findManyImpl.getId) p
      (.ok (pageFromItems items ⟨limit?, some p⟩)) := by
  refine ⟨_, rfl, rfl, ?_⟩
  rw [pageFromItems_items, PageQuery.page_eq limit? hp, slice, slice, List.map_take, List.map_drop]
  rfl

/-- There are fewer than `2 ^ 31` keys. -/
theorem length_lt_of_keys {ids : List ℤ} (hids : ids.Nodup) (hkeys : ∀ id ∈ ids, IsKey id) :
    ids.length < 2 ^ 31 := by
  have hsub : ids.toFinset ⊆ Finset.Ioo 0 (2 ^ 31) := by
    intro id hid
    exact Finset.mem_Ioo.mpr (hkeys id (List.mem_toFinset.mp hid))
  have hcard := Finset.card_le_card hsub
  rw [List.toFinset_card_of_nodup hids, Int.card_Ioo] at hcard
  exact lt_of_le_of_lt hcard (by decide)

/-- So few rows have all their pages numbered. -/
theorem le_totalPages_mul (limit? : Option UInt32) (hn : n < 2 ^ 31) :
    n ≤ totalPages n (PageQuery.mk limit? none).limit * pageSize limit? := by
  have hpos : 0 < pageSize limit? := pageSize_pos
  have hle : n ≤ U32_MAX * pageSize limit? := by
    have hone : U32_MAX * 1 ≤ U32_MAX * pageSize limit? := Nat.mul_le_mul_left _ hpos
    have hmax : 2 ^ 31 ≤ U32_MAX := by decide
    omega
  unfold totalPages
  split_ifs with hzero
  · omega
  · have hcount : sliceCount (PageQuery.mk limit? none).limit.toNat n ≤ U32_MAX :=
      (sliceCount_le_iff hpos).mpr hle
    rw [min_eq_left hcount]
    exact le_sliceCount_mul hpos

theorem concatPages_const {G : List EntityId} {size : ℕ} (hn : G.length ≤ n * size) :
    concatPages size n (fun _ => G) = G := by
  rw [concatPages, flatMap_slice, List.take_of_length_le hn]

theorem nodup_selected (p : Row C → Bool) : ((L.table.rows.filter p).map Row.id).Nodup :=
  L.table.nodup.sublist (List.filter_sublist.map Row.id)

theorem length_selected_lt (p : Row C → Bool) :
    ((L.table.rows.filter p).map Row.id).length < 2 ^ 31 := by
  refine length_lt_of_keys (nodup_selected p) fun id hid => ?_
  obtain ⟨r, hr, rfl⟩ := List.mem_map.mp hid
  exact L.keys r (List.mem_of_mem_filter hr)

theorem length_selectedRows_lt : (selectedRows L conditions).length < 2 ^ 31 := by
  rw [selectedRows, sortById_perm.length_eq, ← List.length_map Row.id]
  exact length_selected_lt _

theorem findByFilter_unsorted (answers : Answers corrections L) {p : UInt32} (hp : 0 < p.toNat) :
    findByFilter L answers ⟨conditions, none, none⟩ ⟨limit?, some p⟩ =
      let response := pageFromItems (selectedRows L conditions) ⟨limit?, some p⟩
      (L.findManyImpl.load
        (slice (pageSize limit?) (p.toNat - 1) (selectedRows L conditions))).map fun items =>
          ⟨items, response.page, response.pageSize, response.totalItems, response.totalPages⟩ := by
  simp only [findByFilter, findManyPage_eq, pageFromItems_items, PageQuery.page_eq limit? hp]
  rfl

theorem listedIds_unsorted (hloads : Loads L corrections conditions limit?)
    (answers : UInt32 → Answers corrections L) :
    listedIds L limit? (fun p => findByFilter L (answers p) ⟨conditions, none, none⟩) =
      .ok ((selectedRows L conditions).map Row.id) := by
  have hcuts : ∀ p : UInt32, 0 < p.toNat →
      Cuts L limit? (selectedRows L conditions).length ((selectedRows L conditions).map Row.id) p
        (findByFilter L (answers p) ⟨conditions, none, none⟩ ⟨limit?, some p⟩) := by
    intro p hp
    obtain ⟨items, hitems⟩ := hloads.unsorted (p.toNat - 1)
    rw [findByFilter_unsorted (answers p) hp, hitems]
    refine ⟨_, rfl, rfl, ?_⟩
    rw [L.findManyImpl.ids _ _ hitems, slice, slice, List.map_take, List.map_drop]
  rw [listedIds_eq hcuts]
  refine congrArg Except.ok (concatPages_const ?_)
  rw [List.length_map]
  exact le_totalPages_mul limit? length_selectedRows_lt

theorem mem_listed {id : EntityId} : id ∈ listed L corrections conditions ↔
    id ∈ entities (ofType corrections L.entityType) ∧ id ∈ selected L conditions := by
  rw [listed, List.mem_filter, decide_eq_true_eq]

theorem nodup_listed : (listed L corrections conditions).Nodup := nodup_entities.filter _

theorem length_listed_lt : (listed L corrections conditions).length < 2 ^ 31 := by
  refine lt_of_le_of_lt ?_ (length_selected_lt (L := L) (L.intoSelect conditions))
  refine (nodup_listed.subperm fun id hid => ?_).length_le
  exact (mem_listed.mp hid).2

theorem arranged_filter (conditions : Q) {ids : List EntityId}
    (h : Arranged (Precedes f (ofType corrections L.entityType) d)
      (entities (ofType corrections L.entityType)) ids) :
    Arranged (Precedes f (ofType corrections L.entityType) d) (listed L corrections conditions)
      (ids.filter fun id => id ∈ selected L conditions) :=
  ⟨h.perm.filter _, h.sorted.filter _⟩

/-- Every order of the listed entities that their latest corrections allow is the one of some
answer. -/
theorem exists_answer_filter {G : List EntityId}
    (h : Arranged (Precedes f (ofType corrections L.entityType) d) (listed L corrections conditions)
      G) :
    ∃ answer : Answer corrections L.entityType f d,
      (correctionSortedEntityIds answer).filter (fun id => id ∈ selected L conditions) = G := by
  -- the others are put behind them, and all are sorted again
  have hlisted : ∀ id ∈ G, id ∈ selected L conditions := fun id hid =>
    (mem_listed.mp (h.perm.subset hid)).2
  obtain ⟨others, hothers⟩ : ∃ others, (listed L corrections conditions ++ others).Perm
      (entities (ofType corrections L.entityType)) := ⟨_, List.filter_append_perm _ _⟩
  have hall := arranged_insertionSort (r := Precedes f (ofType corrections L.entityType) d)
    (G ++ others)
  have hsub := List.sublist_insertionSort (r := Precedes f (ofType corrections L.entityType) d)
    h.sorted (List.sublist_append_left G others)
  generalize (G ++ others).insertionSort (Precedes f (ofType corrections L.entityType) d) = ids
    at hall hsub
  have hids : Arranged (Precedes f (ofType corrections L.entityType) d)
      (entities (ofType corrections L.entityType)) ids :=
    ⟨hall.perm.trans ((h.perm.append_right others).trans hothers), hall.sorted⟩
  obtain ⟨answer, rfl⟩ := exists_answer hids
  refine ⟨answer, ?_⟩
  have hfilter := hsub.filter fun id => decide (id ∈ selected L conditions)
  rw [List.filter_eq_self.mpr fun id hid => decide_eq_true (hlisted id hid)] at hfilter
  refine (hfilter.eq_of_length ?_).symm
  rw [(arranged_filter conditions hids).perm.length_eq, h.perm.length_eq]

/-- The query for the rows of the identities. -/
theorem rows_eq_listedRows {ids : List EntityId}
    (hids : ids.Perm (entities (ofType corrections L.entityType))) :
    (L.table.rows.filter fun r => ids.contains r.id && L.sortedSelect conditions r) =
      listedRows L corrections conditions := by
  refine List.filter_congr fun r _ => ?_
  rw [L.agree, List.contains_eq_mem]
  simp only [hids.mem_iff]

theorem mem_ids_listedRows {id : EntityId} :
    id ∈ (listedRows L corrections conditions).map Row.id ↔
      id ∈ listed L corrections conditions := by
  rw [mem_listed]
  simp only [listedRows, selected, List.mem_map, List.mem_filter, Bool.and_eq_true,
    decide_eq_true_eq]
  constructor
  · rintro ⟨r, ⟨hr, hin, hselect⟩, rfl⟩
    exact ⟨hin, r, ⟨hr, hselect⟩, rfl⟩
  · rintro ⟨hin, r, ⟨hr, hselect⟩, rfl⟩
    exact ⟨r, ⟨hr, hin, hselect⟩, rfl⟩

/-- The entities that are loaded, in the order of the identities that were asked for. -/
theorem map_sorted_items {ids : List EntityId} {rows : List (Row C)} {items : List D}
    (hids : Arranged (Precedes f (ofType corrections L.entityType) d)
      (entities (ofType corrections L.entityType)) ids)
    (hrows : rows.Perm (listedRows L corrections conditions))
    (hitems : L.findManyImpl.load rows = .ok items) :
    (sortByIdList items ids L.findManyImpl.getId).map L.findManyImpl.getId =
      ids.filter fun id => id ∈ selected L conditions := by
  have hload := L.findManyImpl.ids rows items hitems
  have hperm : (items.map L.findManyImpl.getId).Perm
      ((listedRows L corrections conditions).map Row.id) := by
    rw [hload]
    exact hrows.map _
  have hnodup : (items.map L.findManyImpl.getId).Nodup :=
    hperm.nodup_iff.mpr (nodup_selected _)
  have hmem : ∀ id, id ∈ items.map L.findManyImpl.getId ↔
      id ∈ ids ∧ id ∈ selected L conditions := by
    intro id
    rw [hperm.mem_iff, mem_ids_listedRows, mem_listed, hids.perm.mem_iff]
  have hnodupIds : ids.Nodup := hids.perm.nodup_iff.mpr nodup_entities
  rw [map_sortByIdList hnodupIds hnodup fun id hid => ((hmem id).mp hid).1]
  refine List.filter_congr fun id hid => ?_
  exact decide_eq_decide.mpr ((hmem id).trans (and_iff_right hid))

theorem findByFilter_sorted (answers : Answers corrections L) (pagination : PageQuery) :
    findByFilter L answers ⟨conditions, some f, some d⟩ pagination =
      if (correctionSortedEntityIds (answers.models f d)).isEmpty then
        .ok (pageFromItems [] pagination)
      else (L.findManyImpl.load (answers.arrange (listedRows L corrections conditions))).map
        fun items => pageFromItems (sortByIdList items
          (correctionSortedEntityIds (answers.models f d)) L.findManyImpl.getId) pagination := by
  simp only [findByFilter, findSortedByCorrection,
    rows_eq_listedRows (arranged_ids (answers.models f d)).perm]
  split
  · rfl
  · cases L.findManyImpl.load (answers.arrange (listedRows L corrections conditions)) <;> rfl

theorem cuts_sorted (hloads : Loads L corrections conditions limit?)
    (answers : Answers corrections L) {p : UInt32} (hp : 0 < p.toNat) :
    Cuts L limit? (listed L corrections conditions).length
      ((correctionSortedEntityIds (answers.models f d)).filter
        fun id => id ∈ selected L conditions) p
        (findByFilter L answers ⟨conditions, some f, some d⟩ ⟨limit?, some p⟩) := by
  have harranged := arranged_ids (answers.models f d)
  rw [← (arranged_filter conditions harranged).perm.length_eq, findByFilter_sorted]
  split
  · next hempty =>
    rw [List.isEmpty_iff.mp hempty]
    exact cuts_pageFromItems [] hp
  · have hrows := answers.perm (listedRows L corrections conditions)
    obtain ⟨items, hitems⟩ := hloads.sorted _ hrows
    rw [hitems, ← map_sorted_items harranged hrows hitems, List.length_map]
    exact cuts_pageFromItems _ hp

theorem listedIds_sorted (hloads : Loads L corrections conditions limit?)
    (answers : UInt32 → Answers corrections L) :
    listedIds L limit? (fun p => findByFilter L (answers p) ⟨conditions, some f, some d⟩) =
      .ok (concatPages (pageSize limit?)
        (totalPages (listed L corrections conditions).length (PageQuery.mk limit? none).limit)
          fun i => (correctionSortedEntityIds ((answers (UInt32.ofNat (i + 1))).models f d)).filter
            fun id => id ∈ selected L conditions) :=
  listedIds_eq fun p hp => cuts_sorted hloads (answers p) hp

end Pages

/-- What the query for corrections makes of an answer: every entity with a correction once. -/
structure Complete {corrections : List Correction} {entityType : EntityType}
    {f : CorrectionSortField} {d : SortDirection} (answer : Answer corrections entityType f d) :
    Prop where
  nodup : (correctionSortedEntityIds answer).Nodup
  mem : ∀ id, id ∈ correctionSortedEntityIds answer ↔
    ∃ c ∈ corrections, c.entityType = entityType ∧ c.entityId = id
  inOrder : InOrder f (ofType corrections entityType) d (correctionSortedEntityIds answer)

/-- Both listings can be read to their end, and the pages of the one by corrections show what the
other one shows of entities with a correction, each once and in order. -/
def SortedPages {C Q D : Type} (L : Listing C Q D) {corrections : List Correction}
    (conditions : Q) (f : CorrectionSortField) (d : SortDirection) (limit? : Option UInt32)
    (answers : UInt32 → Answers corrections L) : Prop :=
  ∃ sorted unsorted,
    listedIds L limit? (fun p => findByFilter L (answers p) ⟨conditions, some f, some d⟩) =
      .ok sorted ∧
    listedIds L limit? (fun p => findByFilter L (answers p) ⟨conditions, none, none⟩) =
      .ok unsorted ∧
    sorted.Nodup ∧
    (∀ id, id ∈ sorted ↔
      id ∈ unsorted ∧ ∃ c ∈ corrections, c.entityType = L.entityType ∧ c.entityId = id) ∧
    InOrder f (ofType corrections L.entityType) d sorted

/-- What the listing by corrections is to show, whatever the database answers. -/
def ListsSorted {C Q D : Type} (L : Listing C Q D) (corrections : List Correction) (conditions : Q)
    (f : CorrectionSortField) (d : SortDirection) (limit? : Option UInt32) : Prop :=
  ∀ answers : UInt32 → Answers corrections L,
    (∀ p, Complete ((answers p).models f d)) ∧ SortedPages L conditions f d limit? answers

section Main
variable {corrections : List Correction} {entityType : EntityType} {f : CorrectionSortField}
  {d : SortDirection}

theorem mem_entities_ofType {id : EntityId} : id ∈ entities (ofType corrections entityType) ↔
    ∃ c ∈ corrections, c.entityType = entityType ∧ c.entityId = id := by
  simp only [mem_entities, ofType, List.mem_filter, decide_eq_true_eq, and_assoc]

theorem complete_iff : (∀ answer : Answer corrections entityType f d, Complete answer) ↔
    HandledBehind f (ofType corrections entityType) := by
  constructor
  · intro h
    refine handled_of_inOrder (d := d) fun ids hids => ?_
    obtain ⟨answer, rfl⟩ := exists_answer hids
    exact (h answer).inOrder
  · intro h answer
    have harranged := arranged_ids answer
    exact
      { nodup := harranged.perm.nodup_iff.mpr nodup_entities
        mem := fun id => harranged.perm.mem_iff.trans mem_entities_ofType
        inOrder := inOrder_of_handled h harranged.sorted }

theorem nonempty_answer : Nonempty (Answer corrections entityType f d) := by
  have hsorted := arranged_insertionSort (r := Precedes f (ofType corrections entityType) d)
    (entities (ofType corrections entityType))
  obtain ⟨answer, -⟩ := exists_answer hsorted
  exact ⟨answer⟩

variable {C Q D : Type} {L : Listing C Q D} {conditions : Q} {limit? : Option UInt32}

/-- Some answer to each of the queries, with a given one among them. -/
theorem exists_answers (answer : Answer corrections L.entityType f d) :
    ∃ answers : Answers corrections L, answers.models f d = answer := by
  refine ⟨⟨fun f' d' => if h : f = f' ∧ d = d' then h.1 ▸ h.2 ▸ answer else nonempty_answer.some,
    id, fun _ => .refl _⟩, ?_⟩
  exact dif_pos ⟨rfl, rfl⟩

/-- Rows may come in any order. -/
theorem exists_arrange {rows rows' : List (Row C)} (h : rows'.Perm rows) :
    ∃ answers : Answers corrections L, answers.arrange rows = rows' := by
  classical
  refine ⟨⟨fun _ _ => nonempty_answer.some, fun l => if l = rows then rows' else l, fun l => ?_⟩,
    if_pos rfl⟩
  split
  · next heq => exact heq ▸ h
  · exact .refl _

theorem mem_selectedRows {id : EntityId} :
    id ∈ (selectedRows L conditions).map Row.id ↔ id ∈ selected L conditions :=
  (sortById_perm.map Row.id).mem_iff

theorem sortedPages_of_uncut (hhandled : HandledBehind f (ofType corrections L.entityType))
    (huncut : Uncut (Precedes f (ofType corrections L.entityType) d) (pageSize limit?)
      (Explore.listed L corrections conditions))
    (hloads : Loads L corrections conditions limit?) (answers : UInt32 → Answers corrections L) :
    SortedPages L conditions f d limit? answers := by
  have harranged := arranged_concatPages pageSize_pos nodup_listed huncut
    (le_totalPages_mul limit? length_listed_lt)
    fun i => arranged_filter conditions (arranged_ids ((answers (UInt32.ofNat (i + 1))).models f d))
  refine ⟨_, _, listedIds_sorted hloads answers, listedIds_unsorted hloads answers, ?_, ?_, ?_⟩
  · exact harranged.perm.nodup_iff.mpr nodup_listed
  · intro id
    rw [harranged.perm.mem_iff, mem_listed, mem_selectedRows, mem_entities_ofType, and_comm]
  · exact inOrder_of_handled hhandled harranged.sorted

/-- A walk through both listings reads what it takes to load them. -/
theorem loads_of_sortedPages (h : ∀ answers : UInt32 → Answers corrections L,
    SortedPages L conditions f d limit? answers) : Loads L corrections conditions limit? where
  sorted := by
    intro rows hrows
    obtain ⟨answers, harrange⟩ := exists_arrange (L := L) hrows
    obtain ⟨sorted, -, hsorted, -⟩ := h fun _ => answers
    obtain ⟨first, hfirst, -⟩ := response_of_listedIds hsorted
    rw [findByFilter_sorted, harrange] at hfirst
    split at hfirst
    · next hempty =>
      -- without corrections there are no rows
      have hnone : entities (ofType corrections L.entityType) = [] := by
        have hperm := (arranged_ids (answers.models f d)).perm
        rw [List.isEmpty_iff.mp hempty] at hperm
        exact hperm.symm.eq_nil
      have hrows' : rows = [] := by
        rw [listedRows, hnone] at hrows
        simpa using hrows
      rw [hrows']
      exact ⟨[], L.findManyImpl.nil⟩
    · cases hload : L.findManyImpl.load rows with
      | ok items => exact ⟨items, rfl⟩
      | error e =>
        rw [hload] at hfirst
        cases hfirst
  unsorted := by
    intro i
    obtain ⟨answers, -⟩ : ∃ answers : Answers corrections L, answers.arrange [] = [] :=
      exists_arrange (.refl _)
    obtain ⟨-, unsorted, -, hunsorted, -⟩ := h fun _ => answers
    obtain ⟨first, hfirst, hpages⟩ := response_of_listedIds hunsorted
    rw [findByFilter_unsorted answers (by decide)] at hfirst
    obtain ⟨items, -, rfl⟩ := Fallible.map_eq_ok.mp hfirst
    by_cases hi : i < totalPages (selectedRows L conditions).length (PageQuery.mk limit? none).limit
    · obtain ⟨r, hr⟩ := hpages i hi
      have hnumber := toNat_pageNumber hi
      rw [findByFilter_unsorted answers (by omega), hnumber, Nat.add_sub_cancel] at hr
      obtain ⟨items, hitems, -⟩ := Fallible.map_eq_ok.mp hr
      exact ⟨items, hitems⟩
    · -- behind the last page there is nothing to load
      have hbehind : (selectedRows L conditions).length ≤ i * pageSize limit? :=
        (le_totalPages_mul limit? length_selectedRows_lt).trans
          (Nat.mul_le_mul_right _ (not_lt.mp hi))
      rw [slice_eq_nil hbehind]
      exact ⟨[], L.findManyImpl.nil⟩

theorem uncut_of_sortedPages
    (h : ∀ answers : UInt32 → Answers corrections L, SortedPages L conditions f d limit? answers) :
    Uncut (Precedes f (ofType corrections L.entityType) d) (pageSize limit?)
      (Explore.listed L corrections conditions) := by
  refine uncut_of_nodup pageSize_pos nodup_listed
    (le_totalPages_mul limit? length_listed_lt) fun G hG => ?_
  choose answer hanswer using fun i => exists_answer_filter (hG i)
  choose answers hanswers using fun i => exists_answers (L := L) (answer i)
  -- the request for page `i + 1` has the answer that arranges it like `G i`
  obtain ⟨sorted, -, hsorted, -, honce, -⟩ := h fun p => answers (p.toNat - 1)
  rw [listedIds_sorted (loads_of_sortedPages h)] at hsorted
  rw [← Except.ok.inj hsorted] at honce
  rwa [concatPages_congr fun i hi => by
    rw [toNat_pageNumber hi, Nat.add_sub_cancel, hanswers, hanswer]] at honce

/-- However the database orders ties and rows, the entities come in the order of their latest
timestamps and the pages show each of them once exactly if no entity with an earlier timestamp has a
`NULL`, no page ends between ties, and what the requests ask for can be loaded. -/
theorem listsSorted_iff : ListsSorted L corrections conditions f d limit? ↔
    HandledBehind f (ofType corrections L.entityType) ∧
      Uncut (Precedes f (ofType corrections L.entityType) d) (pageSize limit?)
        (listed L corrections conditions) ∧
      Loads L corrections conditions limit? := by
  constructor
  · intro h
    have hcomplete : ∀ answer : Answer corrections L.entityType f d, Complete answer := by
      intro answer
      obtain ⟨answers, rfl⟩ := exists_answers answer
      exact (h fun _ => answers).1 0
    have hpages := fun answers => (h answers).2
    exact ⟨complete_iff.mp hcomplete, uncut_of_sortedPages hpages, loads_of_sortedPages hpages⟩
  · rintro ⟨hhandled, huncut, hloads⟩ answers
    exact ⟨fun p => complete_iff.mpr hhandled _,
      sortedPages_of_uncut hhandled huncut hloads answers⟩

end Main

end Thcdb.Explore
