import Thcdb.Catalog.ArtistReleases
import Thcdb.Explore.Listings
import Thcdb.ImageQueue.Service
import Thcdb.Paging.Seek

namespace Thcdb
open Paging Relational
open Catalog.ArtistReleases (CursorResponse)

structure PaginationQuery where
  limit? : Option UInt32
  cursor : Option ℤ
  deriving DecidableEq, Repr

def PaginationQuery.limit (q : PaginationQuery) : UInt32 :=
  clamp (q.limit?.getD DEFAULT_LIMIT) 1 MAX_LIMIT

def sortByIdDesc {C : Type} (rows : List (Row C)) : List (Row C) :=
  rows.mergeSort fun r s => s.id ≤ r.id

/-- What a listing makes of its rows, of which it has asked for one beyond the limit. -/
def truncate {T : Type} (items : List T) (limit : UInt32) (getId : T → ℤ) : CursorResponse T :=
  let hasNext := items.length > limit.toNat
  let items := if hasNext then items.take limit.toNat else items
  ⟨items, if hasNext then items.getLast?.map getId else none⟩

def findManyPaginated {C D : Type} (table : Table C) (select : Row C → Bool)
    (pagination : PaginationQuery) (fetch : List (Row C) → List D) (getId : D → ℤ) :
    CursorResponse D :=
  let limit := pagination.limit
  let selected := table.rows.filter fun r =>
    select r && pagination.cursor.all fun cursor => r.id > cursor
  truncate (fetch ((sortById selected).take (limit.toNat + 1))) limit getId

namespace ImageQueue

structure QueueColumns where
  imageId : Option ℤ
  status : ImageQueueStatus
  handledAt : Option ℕ
  handledBy : Option ℤ
  revertedAt : Option ℕ
  revertedBy : Option ℤ
  createdAt : ℕ
  createdBy : ℤ
  deriving DecidableEq, Repr

structure ArtistImageQueue where
  artistId : ℤ
  queueId : ℤ
  type : ArtistImageType
  deriving DecidableEq, Repr

structure ReleaseImageQueue where
  releaseId : ℤ
  queueId : ℤ
  type : ReleaseImageType
  deriving DecidableEq, Repr

structure QueueTables where
  imageQueue : Table QueueColumns
  artistImageQueue : List ArtistImageQueue
  releaseImageQueue : List ReleaseImageQueue

inductive ImageQueueType
  | Artist | Release
  deriving DecidableEq, Repr

variable (db : QueueTables)

def ImageQueueType.queueIds : ImageQueueType → List ℤ
  | .Artist => db.artistImageQueue.map ArtistImageQueue.queueId
  | .Release => db.releaseImageQueue.map ReleaseImageQueue.queueId

/-- An entry joined with the rows of a target table comes once for each of them. -/
def joinTargets (queueType : ImageQueueType) (rows : List (Row QueueColumns)) :
    List (Row QueueColumns) :=
  rows.flatMap fun r => ((queueType.queueIds db).filter fun id => r.id = id).map fun _ => r

def findPending (limit : UInt32) (cursor : Option ℤ) (status : Option ImageQueueStatus)
    (queueType : Option ImageQueueType) : CursorResponse (Row QueueColumns) :=
  let filtered := db.imageQueue.rows.filter fun r =>
    status.all (fun status => r.cols.status = status) && cursor.all fun cursor => r.id < cursor
  let selected := match queueType with
    | none => filtered
    | some queueType => (joinTargets db queueType filtered).dedup
  truncate ((sortByIdDesc selected).take (limit.toNat + 1)) limit Row.id

def pending (status : Option ImageQueueStatus) (queueType : Option ImageQueueType)
    (r : Row QueueColumns) : Bool :=
  status.all (fun status => r.cols.status = status) &&
    queueType.all fun queueType => (queueType.queueIds db).contains r.id

end ImageQueue

namespace Notifications

structure Notification where
  recipientUserId : ℤ
  notificationKindId : ℤ
  targetTypeId : ℤ
  targetId : ℤ
  payload : String
  isRead : Bool
  createdAt : ℕ
  deriving DecidableEq, Repr

def list (table : Table Notification) (userId : ℤ) (limit : UInt32) (cursor : Option ℤ) :
    CursorResponse (Row Notification) :=
  let selected := table.rows.filter fun r =>
    r.cols.recipientUserId = userId && cursor.all fun cursor => r.id < cursor
  truncate ((sortByIdDesc selected).take (limit.toNat + 1)) limit Row.id

end Notifications

section Visits
variable {C T V : Type}

def CursorResponse.page (r : CursorResponse T) : List T × Option ℤ := (r.items, r.nextCursor)

/-- The pages from no cursor on show the selected rows, each once and in the order of their
identities, and are full but for the last. -/
structure Visits (find : Option ℤ → CursorResponse T) (limit : UInt32) (before : ℤ → ℤ → Prop)
    (table : Table C) (selected : Row C → Bool) (view : T → V) (item : Row C → V)
    (pages : List (List T)) (rows : List (Row C)) : Prop where
  walks : Walks (fun cursor => CursorResponse.page (find cursor)) none pages
  shown : pages.flatten.map view = rows.map item
  mem : ∀ r, r ∈ rows ↔ r ∈ table.rows ∧ selected r
  sorted : rows.Pairwise fun r s => before r.id s.id
  full : ∀ page ∈ pages.dropLast, page.length = limit.toNat

structure Finds (before : ℤ → ℤ → Prop) (table : Table C) (selected : Row C → Bool)
    (cursor : Option ℤ) (found : List (Row C)) : Prop where
  mem : ∀ r, r ∈ found ↔ r ∈ table.rows ∧ selected r ∧ ∀ c ∈ cursor, before c r.id
  sorted : found.Pairwise fun r s => before r.id s.id

structure Cut (view : T → V) (item : Row C → V) (limit : UInt32) (found : List (Row C))
    (r : CursorResponse T) : Prop where
  items : r.items.map view = (found.take limit.toNat).map item
  nextCursor : r.nextCursor =
    if limit.toNat < found.length then (found.take limit.toNat).getLast?.map Row.id else none

variable {find : Option ℤ → CursorResponse T} {limit : UInt32} {before : ℤ → ℤ → Prop}
  {table : Table C} {selected : Row C → Bool} {view : T → V} {item : Row C → V}

/-- The rows may be shown in another form, as long as it names the identity. -/
theorem cut_truncate {items : List T} {found : List (Row C)} {getId : T → ℤ} (idOf : V → ℤ)
    (hitems : items.map view = (found.take (limit.toNat + 1)).map item)
    (hget : ∀ t, getId t = idOf (view t)) (hid : ∀ r, idOf (item r) = r.id) :
    Cut view item limit found (truncate items limit getId) := by
  have hlength : items.length = (found.take (limit.toNat + 1)).length := by
    simpa using congrArg List.length hitems
  have hmore : items.length > limit.toNat ↔ limit.toNat < found.length := by
    rw [hlength, gt_iff_lt, lt_length_probe]
  have htaken : (items.take limit.toNat).map view = (found.take limit.toNat).map item := by
    rw [List.map_take, hitems, ← List.map_take, List.take_take, Nat.min_eq_left (Nat.le_succ _)]
  have hlast : (items.take limit.toNat).getLast?.map getId =
      (found.take limit.toNat).getLast?.map Row.id := by
    have h := congrArg (fun l => (l.getLast?).map idOf) htaken
    simp only [List.getLast?_map, Option.map_map, Function.comp_def, hid] at h
    rw [funext hget]
    exact h
  by_cases h : limit.toNat < found.length
  · have h' := hmore.mpr h
    constructor
    · simpa only [truncate, if_pos h'] using htaken
    · simpa only [truncate, if_pos h', if_pos h] using hlast
  · have h' : ¬items.length > limit.toNat := fun h' => h (hmore.mp h')
    have hall : items.map view = (found.take limit.toNat).map item := by
      rwa [List.take_of_length_le (by omega)] at htaken
    constructor
    · simpa only [truncate, if_neg h'] using hall
    · simp only [truncate, if_neg h', if_neg h]

/-- Queries that find the rows behind their cursors visit each row once. -/
theorem exists_visits [DecidableRel before] [Std.Asymm before] (hlimit : 0 < limit.toNat)
    (hfind : ∀ cursor, ∃ found, Finds before table selected cursor found ∧
      Cut view item limit found (find cursor)) :
    ∃ pages rows, Visits find limit before table selected view item pages rows := by
  obtain ⟨rows, hrows, -⟩ := hfind none
  have hpages : ∀ cursor, (CursorResponse.page (find cursor)).1.map view =
      (seekPage before Row.id rows limit.toNat cursor).1.map item ∧
      (CursorResponse.page (find cursor)).2 =
        (seekPage before Row.id rows limit.toNat cursor).2 := by
    intro cursor
    obtain ⟨found, hfound, hcut⟩ := hfind cursor
    have hbehind : found = behind before Row.id rows cursor := by
      refine eq_behind hrows.sorted hfound.sorted fun r => ?_
      rw [hfound.mem, hrows.mem]
      simp [and_assoc]
    rw [hbehind] at hcut
    exact ⟨hcut.items, hcut.nextCursor⟩
  obtain ⟨pages, hwalks, hflat, hfull⟩ :=
    exists_walks_seek (k := 0) hlimit hrows.sorted behind_none
  obtain ⟨shown, hshown, hmap⟩ := hwalks.transfer hpages
  have hlengths : shown.map List.length = pages.map List.length := by
    have h := congrArg (List.map List.length) hmap
    simpa [List.map_map, Function.comp_def] using h
  refine ⟨shown, rows, ⟨hshown, ?_, ?_, hrows.sorted, ?_⟩⟩
  · rw [List.map_flatten, hmap, ← List.map_flatten, hflat, List.drop_zero]
  · intro r
    simpa using hrows.mem r
  · intro page hpage
    have hmem : page.length ∈ (shown.map List.length).dropLast := by
      rw [← List.map_dropLast]
      exact List.mem_map_of_mem hpage
    rw [hlengths, ← List.map_dropLast] at hmem
    obtain ⟨page', hpage', hlength⟩ := List.mem_map.mp hmem
    rw [← hlength, hfull page' hpage']

end Visits

section Queries
variable {C : Type} {table : Table C} {select : Row C → Bool} {rows : List (Row C)}
  {cursor : Option ℤ}

theorem pairwise_sortById (hids : (rows.map Row.id).Nodup) :
    (sortById rows).Pairwise fun r s => r.id < s.id := by
  have hne : (sortById rows).Pairwise fun r s => r.id ≠ s.id :=
    List.pairwise_map.mp ((sortById_perm.map Row.id).nodup_iff.mpr hids)
  exact ((pairwise_key Row.id).and hne).imp fun h => lt_of_le_of_ne h.1 h.2

theorem pairwise_sortByIdDesc (hids : (rows.map Row.id).Nodup) :
    (sortByIdDesc rows).Pairwise fun r s => r.id > s.id := by
  have hle : (sortByIdDesc rows).Pairwise fun r s => decide (s.id ≤ r.id) = true := by
    apply List.pairwise_mergeSort
    · intro a b c hab hbc
      simp only [decide_eq_true_eq] at hab hbc ⊢
      omega
    · intro a b
      simp only [Bool.or_eq_true, decide_eq_true_eq]
      omega
  have hne : (sortByIdDesc rows).Pairwise fun r s => r.id ≠ s.id :=
    List.pairwise_map.mp (((List.mergeSort_perm rows _).map Row.id).nodup_iff.mpr hids)
  refine (hle.and hne).imp fun {r s} h => ?_
  exact lt_of_le_of_ne (of_decide_eq_true h.1) fun heq => h.2 heq.symm

/-- Rows of the table, each once. -/
theorem nodup_ids (hrows : rows.Nodup) (hmem : ∀ r ∈ rows, r ∈ table.rows) :
    (rows.map Row.id).Nodup :=
  hrows.map_on fun r hr s hs heq => Table.eq_of_id (hmem r hr) (hmem s hs) heq

theorem finds_asc (hrows : rows.Nodup)
    (hmem : ∀ r, r ∈ rows ↔ r ∈ table.rows ∧ select r ∧ ∀ c ∈ cursor, c < r.id) :
    Finds (· < ·) table select cursor (sortById rows) :=
  ⟨fun r => sortById_perm.mem_iff.trans (hmem r),
    pairwise_sortById (nodup_ids hrows fun r hr => ((hmem r).mp hr).1)⟩

theorem finds_desc (hrows : rows.Nodup)
    (hmem : ∀ r, r ∈ rows ↔ r ∈ table.rows ∧ select r ∧ ∀ c ∈ cursor, c > r.id) :
    Finds (· > ·) table select cursor (sortByIdDesc rows) :=
  ⟨fun r => (List.mergeSort_perm rows _).mem_iff.trans (hmem r),
    pairwise_sortByIdDesc (nodup_ids hrows fun r hr => ((hmem r).mp hr).1)⟩

theorem nodup_rows (table : Table C) : table.rows.Nodup := table.nodup.of_map _

end Queries

section Listings

theorem visits_findManyPaginated {C D : Type} (table : Table C) (select : Row C → Bool)
    (fetch : Explore.FindManyImpl C D) (limit? : Option UInt32) :
    ∃ pages rows, Visits (fun cursor =>
      findManyPaginated table select ⟨limit?, cursor⟩ fetch.load fetch.getId)
      (PaginationQuery.limit ⟨limit?, none⟩) (· < ·) table select fetch.getId Row.id pages
      rows := by
  refine exists_visits (PageQuery.limit_pos ⟨limit?, none⟩) fun cursor =>
    ⟨sortById (table.rows.filter fun r => select r && cursor.all fun c => r.id > c), ?_, ?_⟩
  · refine finds_asc ((nodup_rows table).filter _) fun r => ?_
    cases cursor <;> simp
  · exact cut_truncate id (fetch.ids _) (fun _ => rfl) fun _ => rfl

/-- Listings that show the rows themselves, from the last identity on. -/
theorem visits_desc {C : Type} {table : Table C} {select : Row C → Bool} {limit : UInt32}
    {selected : Option ℤ → List (Row C)} {find : Option ℤ → CursorResponse (Row C)}
    (hlimit : 0 < limit.toNat)
    (hfind : ∀ cursor, find cursor =
      truncate ((sortByIdDesc (selected cursor)).take (limit.toNat + 1)) limit Row.id)
    (hnodup : ∀ cursor, (selected cursor).Nodup)
    (hmem : ∀ cursor r, r ∈ selected cursor ↔
      r ∈ table.rows ∧ select r ∧ ∀ c ∈ cursor, c > r.id) :
    ∃ pages rows, Visits find limit (· > ·) table select id id pages rows := by
  refine exists_visits hlimit fun cursor => ⟨sortByIdDesc (selected cursor), ?_, ?_⟩
  · exact finds_desc (hnodup cursor) (hmem cursor)
  · rw [hfind]
    exact cut_truncate Row.id rfl (fun _ => rfl) fun _ => rfl

theorem visits_list (table : Table Notifications.Notification) (userId : ℤ) {limit : UInt32}
    (hlimit : 0 < limit.toNat) :
    ∃ pages rows, Visits (Notifications.list table userId limit) limit (· > ·) table
      (fun r => r.cols.recipientUserId = userId) id id pages rows := by
  refine visits_desc hlimit (fun _ => rfl) (fun _ => (nodup_rows table).filter _) fun cursor r => ?_
  cases cursor <;> simp

namespace ImageQueue
variable {db : QueueTables} {r : Row QueueColumns}

theorem mem_joinTargets {queueType : ImageQueueType} {rows : List (Row QueueColumns)} :
    r ∈ joinTargets db queueType rows ↔ r ∈ rows ∧ r.id ∈ queueType.queueIds db := by
  simp only [joinTargets, List.mem_flatMap, List.mem_map, List.mem_filter, decide_eq_true_eq]
  constructor
  · rintro ⟨r, hr, id, ⟨hid, rfl⟩, rfl⟩
    exact ⟨hr, hid⟩
  · rintro ⟨hr, hid⟩
    exact ⟨r, hr, r.id, ⟨hid, rfl⟩, rfl⟩

theorem visits_findPending (db : QueueTables) (status : Option ImageQueueStatus)
    (queueType : Option ImageQueueType) {limit : UInt32} (hlimit : 0 < limit.toNat) :
    ∃ pages rows, Visits (fun cursor => findPending db limit cursor status queueType) limit
      (· > ·) db.imageQueue (pending db status queueType) id id pages rows := by
  refine visits_desc hlimit (fun _ => rfl) ?_ fun cursor r => ?_
  · intro cursor
    cases queueType with
    | none => exact (nodup_rows db.imageQueue).filter _
    | some queueType => exact List.nodup_dedup _
  · cases queueType with
    | none => cases cursor <;> simp [pending]
    | some queueType =>
      rw [List.mem_dedup, mem_joinTargets]
      cases cursor <;> simp [pending, and_left_comm, and_comm]

end ImageQueue

end Listings

end Thcdb
