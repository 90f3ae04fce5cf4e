import Thcdb.Paging.Live
import Thcdb.TagVotes.Tags

namespace Thcdb
open Paging Relational
open Catalog.ArtistReleases (CursorResponse)

/-- What a reader sees who goes from page to page until there is no next one. `selected` says which
identities satisfy the filter in a state. -/
structure VisitsLive {σ T : Type} (before : ℤ → ℤ → Prop) [DecidableRel before] (limit : ℕ)
    (getId : T → ℤ) (selected : σ → ℤ → Prop) (steps : List (Served σ T)) : Prop where
  /-- identities come in order and never twice -/
  sorted : ((shownIn steps).map getId).Pairwise before
  /-- each page shows only what satisfied the filter when it was read -/
  shown : ∀ p ∈ steps, ∀ x ∈ p.page, selected p.state (getId x)
  /-- an identity is shown just if it satisfied the filter at the request that decides on it -/
  decided : ∀ k, ∃ p, deciding before k steps = some p ∧
    (k ∈ (shownIn steps).map getId ↔ selected p.state k)
  /-- pages but the last are full and continued behind their last row -/
  full : ∀ p ∈ steps.dropLast, p.page.length = limit ∧ p.nextCursor = p.page.getLast?.map getId
  ends : ∃ p, steps.getLast? = some p ∧ p.nextCursor = none

section Visits

variable {σ C T V : Type} {find : σ → Option ℤ → CursorResponse T} {limit : UInt32}
  {before : ℤ → ℤ → Prop} {table : σ → Table C} {selected : σ → Row C → Bool} {view : T → V}
  {item : Row C → V} {getId : T → ℤ} {steps : List (Served σ T)}

def selects (table : σ → Table C) (selected : σ → Row C → Bool) (s : σ) (k : ℤ) : Prop :=
  ∃ r ∈ (table s).rows, r.id = k ∧ selected s r

/-- Queries that find the rows behind their cursors, whatever the state, show every identity as the
request that decides on it has it. -/
theorem visitsLive [DecidableRel before] [Std.Asymm before] [IsTrans ℤ before]
    (hlimit : 0 < limit.toNat) (idOf : V → ℤ) (hget : ∀ t, getId t = idOf (view t))
    (hid : ∀ r, idOf (item r) = r.id)
    (hfind : ∀ s cursor, ∃ found, Finds before (table s) (selected s) cursor found ∧
      Cut view item limit found (find s cursor))
    (h : LiveWalks (fun s cursor => CursorResponse.page (find s cursor)) none steps) :
    VisitsLive before limit.toNat getId (selects table selected) steps := by
  -- the rows of each state, in order
  choose rows hrows using fun s => hfind s none
  have hsorted : ∀ s, ((rows s).map Row.id).Pairwise before := fun s =>
    List.pairwise_map.mpr (hrows s).1.sorted
  have hmem : ∀ s k, k ∈ (rows s).map Row.id ↔ selects table selected s k := by
    intro s k
    simp only [List.mem_map, (hrows s).1.mem, selects]
    constructor
    · rintro ⟨r, ⟨hr, hsel, -⟩, rfl⟩
      exact ⟨r, hr, rfl, hsel⟩
    · rintro ⟨r, hr, rfl, hsel⟩
      exact ⟨r, ⟨hr, hsel, by simp⟩, rfl⟩
  -- what is read are pages of their identities
  have hpages : (fun s cursor => ((CursorResponse.page (find s cursor)).1.map getId,
      (CursorResponse.page (find s cursor)).2)) =
      fun s => seekPage before id ((rows s).map Row.id) limit.toNat := by
    funext s cursor
    obtain ⟨found, hfound, hcut⟩ := hfind s cursor
    have hbehind : found = behind before Row.id (rows s) cursor := by
      refine eq_behind (hrows s).1.sorted hfound.sorted fun r => ?_
      rw [hfound.mem, (hrows s).1.mem]
      simp [and_assoc]
    have hids : behind before id ((rows s).map Row.id) cursor = found.map Row.id := by
      rw [hbehind, behind, behind, List.filter_map]
      rfl
    have hitems : (find s cursor).items.map getId = (found.take limit.toNat).map Row.id := by
      have h := congrArg (List.map idOf) hcut.items
      simpa only [List.map_map, Function.comp_def, ← hget, hid] using h
    refine Prod.ext ?_ ?_
    · rw [seekPage, hids, ← List.map_take]
      exact hitems
    · rw [seekPage, hids, ← List.map_take, List.length_map, List.getLast?_map, Option.map_map]
      exact hcut.nextCursor
  have hwalk := h.map getId
  rw [hpages] at hwalk
  refine ⟨?_, ?_, ?_, ?_, ?_⟩
  · rw [← shownIn_map]
    exact hwalk.pairwise (fun s => hsorted s) hlimit
  · intro p hp x hx
    have hin := (hwalk.mem hlimit (p.map getId) (List.mem_map_of_mem hp) (getId x)
      (List.mem_map_of_mem hx)).1
    exact (hmem p.state (getId x)).mp hin
  · intro k
    obtain ⟨q, hq, hiff⟩ := hwalk.exists_deciding (fun s => hsorted s) hlimit k (by simp)
    rw [deciding_map] at hq
    obtain ⟨p, hp, rfl⟩ := Option.map_eq_some_iff.mp hq
    refine ⟨p, hp, ?_⟩
    simp only [shownIn_map, List.map_id'] at hiff
    exact hiff.trans (hmem p.state k)
  · intro p hp
    have hfull := hwalk.full (p.map getId)
      (by rw [← List.map_dropLast]; exact List.mem_map_of_mem hp)
    simpa [Served.map] using hfull
  · obtain ⟨q, hq, hnone⟩ := hwalk.getLast
    rw [List.getLast?_map] at hq
    obtain ⟨p, hp, rfl⟩ := Option.map_eq_some_iff.mp hq
    exact ⟨p, hp, hnone⟩

end Visits

section Listings

variable {σ : Type} {limit : UInt32}

theorem finds_findManyPaginated {C : Type} (table : Table C) (select : Row C → Bool)
    (cursor : Option ℤ) : Finds (· < ·) table select cursor
      (sortById (table.rows.filter fun r => select r && cursor.all fun c => r.id > c)) := by
  refine finds_asc ((nodup_rows table).filter _) fun r => ?_
  cases cursor <;> simp

theorem finds_findPending (db : ImageQueue.QueueTables)
    (status : Option ImageQueue.ImageQueueStatus)
    (queueType : Option ImageQueue.ImageQueueType) (cursor : Option ℤ) :
    ∃ found, Finds (· > ·) db.imageQueue (ImageQueue.pending db status queueType) cursor found ∧
      Cut id id limit found (ImageQueue.findPending db limit cursor status queueType) := by
  cases queueType with
  | none =>
    refine ⟨_, finds_desc ((nodup_rows db.imageQueue).filter _) fun r => ?_,
      cut_truncate Row.id rfl (fun _ => rfl) fun _ => rfl⟩
    cases cursor <;> simp [ImageQueue.pending]
  | some queueType =>
    refine ⟨_, finds_desc (List.nodup_dedup _) fun r => ?_,
      cut_truncate Row.id rfl (fun _ => rfl) fun _ => rfl⟩
    rw [List.mem_dedup, ImageQueue.mem_joinTargets]
    cases cursor <;> simp [ImageQueue.pending, and_left_comm, and_comm]

theorem finds_list (table : Table Notifications.Notification) (userId : ℤ) (cursor : Option ℤ) :
    ∃ found, Finds (· > ·) table (fun r => r.cols.recipientUserId = userId) cursor found ∧
      Cut id id limit found (Notifications.list table userId limit cursor) := by
  refine ⟨_, finds_desc ((nodup_rows table).filter _) fun r => ?_,
    cut_truncate Row.id rfl (fun _ => rfl) fun _ => rfl⟩
  cases cursor <;> simp

end Listings

/-- Whatever is written between the requests, a reader who follows the cursors of a listing to their
end has seen no identity twice, only rows that satisfied the filter when their page was read, and
each identity if and only if it satisfied the filter at the first request whose next cursor leaves
it behind. -/
theorem live_listings (σ : Type) (limit : UInt32) (hlimit : 0 < limit.toNat) :
    (∀ (C D : Type) (table : σ → Table C) (select : σ → Row C → Bool)
      (load : σ → List (Row C) → List D) (getId : D → ℤ)
      (_ : ∀ s rows, (load s rows).map getId = rows.map Row.id) (limit? : Option UInt32) steps,
      LiveWalks (fun s cursor => CursorResponse.page
        (findManyPaginated (table s) (select s) ⟨limit?, cursor⟩ (load s) getId)) none steps →
      VisitsLive (· < ·) (PaginationQuery.limit ⟨limit?, none⟩).toNat getId
        (selects table select) steps) ∧
    (∀ (db : σ → ImageQueue.QueueTables) (status : Option ImageQueue.ImageQueueStatus)
      (queueType : Option ImageQueue.ImageQueueType) steps,
      LiveWalks (fun s cursor => CursorResponse.page
        (ImageQueue.findPending (db s) limit cursor status queueType)) none steps →
      VisitsLive (· > ·) limit.toNat Row.id (selects (fun s => (db s).imageQueue)
        fun s => ImageQueue.pending (db s) status queueType) steps) ∧
    (∀ (table : σ → Table Notifications.Notification) (userId : ℤ) steps,
      LiveWalks (fun s cursor => CursorResponse.page
        (Notifications.list (table s) userId limit cursor)) none steps →
      VisitsLive (· > ·) limit.toNat Row.id
        (selects table fun _ r => r.cols.recipientUserId = userId) steps) ∧
    ∀ (F : Type) (sql : TagVotes.Sql F) (db : σ → TagVotes.VoteTables)
      (entityType : TagVotes.EntityType) (entityId : ℤ) (userId : Option ℤ) steps,
      LiveWalks (fun s cursor => CursorResponse.page
        (TagVotes.getTags sql (db s) entityType entityId userId cursor limit)) none steps →
      VisitsLive (· < ·) limit.toNat TagVotes.TagAggregate.id (selects (fun s => (db s).tag)
        fun s => TagVotes.hasPositiveVote (db s) entityType entityId) steps := by
  refine ⟨?_, ?_, ?_, ?_⟩
  · intro C D table select load getId hids limit? steps h
    refine visitsLive (PageQuery.limit_pos ⟨limit?, none⟩) id (fun _ => rfl) (fun _ => rfl)
      (fun s cursor => ⟨_, finds_findManyPaginated (table s) (select s) cursor, ?_⟩) h
    exact cut_truncate id (hids s _) (fun _ => rfl) fun _ => rfl
  · intro db status queueType steps h
    exact visitsLive hlimit Row.id (fun _ => rfl) (fun _ => rfl)
      (fun s cursor => finds_findPending (db s) status queueType cursor) h
  · intro table userId steps h
    exact visitsLive hlimit Row.id (fun _ => rfl) (fun _ => rfl)
      (fun s cursor => finds_list (table s) userId cursor) h
  · intro F sql db entityType entityId userId steps h
    exact visitsLive hlimit TagVotes.TagKey.id (fun _ => rfl) (fun _ => rfl)
      (fun s cursor => ⟨_, TagVotes.finds_foundTags,
        TagVotes.cut_getTags sql (db s) entityType entityId userId cursor limit⟩) h

/-- An inbox that gets another notification after the first page. -/
def fuller : Table Notifications.Notification where
  rows := ⟨4, 7, 1, 1, 4, "", false, 3⟩ :: inbox.rows
  next := 5
  lt_next := by decide
  nodup := by decide

def readPages : List (Served Bool (Row Notifications.Notification)) :=
  [⟨false, [⟨3, 7, 1, 1, 2, "", false, 2⟩, ⟨2, 7, 1, 1, 3, "", true, 1⟩], some 2⟩,
    ⟨true, [⟨1, 7, 1, 1, 1, "", false, 0⟩], none⟩]

theorem readPages_walked : LiveWalks (fun (later : Bool) cursor => CursorResponse.page
    (Notifications.list (if later then fuller else inbox) 7 2 cursor)) none readPages := by
  refine @LiveWalks.next _ _ _ _ _ 2 _ _ ?_ (.last ?_)
  · simp [Notifications.list, sortByIdDesc, inbox, truncate, CursorResponse.page, List.mergeSort]
  · simp [Notifications.list, sortByIdDesc, fuller, inbox, truncate, CursorResponse.page]

theorem live_listings_inbox : VisitsLive (· > ·) 2 Row.id
    (selects (fun later : Bool => if later then fuller else inbox)
      fun _ r => r.cols.recipientUserId = 7) readPages :=
  (live_listings Bool 2 (by decide)).2.2.1 _ 7 _ readPages_walked

end Thcdb
