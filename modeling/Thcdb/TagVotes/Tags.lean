import Thcdb.Paging.CursorListings
import Thcdb.Users.Tables

namespace Thcdb
open Catalog Paging Relational Users
open Catalog.ArtistReleases (CursorResponse)

namespace TagVotes

inductive EntityType
  | Artist | Release | Song
  deriving DecidableEq, Repr

/-- A row of `artist_tag_vote`, `release_tag_vote` or `song_tag_vote`. -/
structure TagVote where
  entityId : ℤ
  tagId : ℤ
  userId : ℤ
  score : ℤ
  votedAt : ℕ
  deriving DecidableEq, Repr

structure VoteTables where
  artistTagVote : List TagVote
  releaseTagVote : List TagVote
  songTagVote : List TagVote
  tag : Table Tag
  user : Table UserColumns

/-- What the queries take from the database: its division of floats, and its order of names. -/
structure Sql (F : Type) where
  div : ℤ → ℤ → F
  nameLe : String → String → Bool

structure TagAggregateVote where
  userName : String
  score : ℤ
  deriving DecidableEq, Repr

structure TagAggregateVoteRow where
  tagId : ℤ
  userName : String
  score : ℤ
  deriving DecidableEq, Repr

/-- The columns by which the votes are grouped. -/
structure TagKey where
  id : ℤ
  name : String
  shortDescription : String
  deriving DecidableEq, Repr

structure TagAggregateRow (F : Type) where
  id : ℤ
  name : String
  shortDescription : String
  count : ℕ
  relevance : F
  userVote : Option ℤ

structure TagAggregate (F : Type) where
  id : ℤ
  name : String
  shortDescription : String
  count : ℕ
  relevance : F
  userVote : Option ℤ
  votes : List TagAggregateVote

section Query
variable {F : Type} (sql : Sql F) (db : VoteTables) (entityType : EntityType) (entityId : ℤ)

def voteTable : List TagVote :=
  match entityType with
  | .Artist => db.artistTagVote
  | .Release => db.releaseTagVote
  | .Song => db.songTagVote

def joinedVotes : List (TagVote × Row Tag) :=
  ((voteTable db entityType).filter fun v => v.entityId = entityId).flatMap fun v =>
    (db.tag.rows.filter fun t => v.tagId = t.id).map fun t => (v, t)

def tagKey (t : Row Tag) : TagKey := ⟨t.id, t.cols.name, t.cols.shortDescription⟩

def groupVotes (key : TagKey) : List TagVote :=
  ((joinedVotes db entityType entityId).filter fun p => tagKey p.2 = key).map Prod.fst

/-- `GROUP BY` -/
def groups : List (TagKey × List TagVote) :=
  ((joinedVotes db entityType entityId).map fun p => tagKey p.2).dedup.map fun key =>
    (key, groupVotes db entityType entityId key)

def positiveVoteCount (votes : List TagVote) : ℕ :=
  (votes.map fun v => if v.score > 0 then 1 else 0).sum

def userVote (userId : Option ℤ) (tagId : ℤ) : Option ℤ :=
  userId.bind fun userId =>
    ((voteTable db entityType).find? fun v =>
      v.entityId = entityId && v.tagId = tagId && v.userId = userId).map TagVote.score

def aggregateRow (userId : Option ℤ) (group : TagKey × List TagVote) : TagAggregateRow F where
  id := group.1.id
  name := group.1.name
  shortDescription := group.1.shortDescription
  count := group.2.length
  relevance := sql.div (group.2.map TagVote.score).sum (positiveVoteCount group.2)
  userVote := userVote db entityType entityId userId group.1.id

/-- The votes on the tags, in the order of their scores and of the names of the users. -/
def loadTagVotes (tagIds : List ℤ) : ℤ → Option (List TagAggregateVote) :=
  if tagIds.isEmpty then fun _ => none
  else
    let found := ((voteTable db entityType).filter fun v =>
      v.entityId = entityId && tagIds.contains v.tagId).flatMap fun v =>
        (db.user.rows.filter fun u => v.userId = u.id).map fun u =>
          (⟨v.tagId, u.cols.name, v.score⟩ : TagAggregateVoteRow)
    let rows := found.mergeSort fun a b =>
      a.tagId < b.tagId || a.tagId = b.tagId &&
        (a.score > b.score || a.score = b.score && sql.nameLe a.userName b.userName)
    fun tagId =>
      let votes := rows.filter fun row => row.tagId = tagId
      if votes.isEmpty then none
      else some (votes.map fun row => ⟨row.userName, row.score⟩)

def foundGroups (cursor : Option ℤ) : List (TagKey × List TagVote) :=
  ((groups db entityType entityId).filter fun group =>
    positiveVoteCount group.2 > 0 && cursor.all fun cursor => group.1.id > cursor).mergeSort
      fun a b => a.1.id ≤ b.1.id

def getTags (userId : Option ℤ) (cursor : Option ℤ) (limit : UInt32) :
    CursorResponse (TagAggregate F) :=
  let rows := ((foundGroups db entityType entityId cursor).take (limit.toNat + 1)).map
    (aggregateRow sql db entityType entityId userId)
  let hasNext := rows.length > limit.toNat
  let items := if hasNext then rows.dropLast else rows
  let nextCursor := if hasNext then items.getLast?.map TagAggregateRow.id else none
  let voteMap := loadTagVotes sql db entityType entityId (items.map TagAggregateRow.id)
  { items := items.map fun tag =>
      { id := tag.id
        name := tag.name
        shortDescription := tag.shortDescription
        count := tag.count
        relevance := tag.relevance
        userVote := tag.userVote
        votes := (voteMap tag.id).getD [] }
    nextCursor := nextCursor }

def hasPositiveVote (t : Row Tag) : Bool :=
  (voteTable db entityType).any fun v => v.entityId = entityId && v.tagId = t.id && v.score > 0

end Query

section Groups
variable {db : VoteTables} {entityType : EntityType} {entityId : ℤ} {t : Row Tag} {v : TagVote}
  {cursor : Option ℤ}

theorem mem_joinedVotes : (v, t) ∈ joinedVotes db entityType entityId ↔
    v ∈ voteTable db entityType ∧ v.entityId = entityId ∧ t ∈ db.tag.rows ∧ v.tagId = t.id := by
  simp only [joinedVotes, List.mem_flatMap, List.mem_filter, List.mem_map, decide_eq_true_eq,
    Prod.mk.injEq]
  constructor
  · rintro ⟨v, ⟨hv, hentity⟩, t, ⟨ht, htag⟩, rfl, rfl⟩
    exact ⟨hv, hentity, ht, htag⟩
  · rintro ⟨hv, hentity, ht, htag⟩
    exact ⟨v, ⟨hv, hentity⟩, t, ⟨ht, htag⟩, rfl, rfl⟩

theorem positiveVoteCount_pos {votes : List TagVote} :
    0 < positiveVoteCount votes ↔ ∃ v ∈ votes, 0 < v.score := by
  induction votes with
  | nil => simp [positiveVoteCount]
  | cons v votes ih =>
    have hcons : positiveVoteCount (v :: votes) =
        (if v.score > 0 then 1 else 0) + positiveVoteCount votes := List.sum_cons
    simp only [hcons, List.mem_cons, exists_eq_or_imp, ← ih]
    split_ifs with h
    · simp [h]
    · simp [h]

theorem mem_groupVotes (ht : t ∈ db.tag.rows) :
    v ∈ groupVotes db entityType entityId (tagKey t) ↔
      v ∈ voteTable db entityType ∧ v.entityId = entityId ∧ v.tagId = t.id := by
  simp only [groupVotes, List.mem_map, List.mem_filter, decide_eq_true_eq]
  constructor
  · rintro ⟨⟨v, s⟩, ⟨hjoined, hkey⟩, rfl⟩
    obtain ⟨hv, hentity, hs, htag⟩ := mem_joinedVotes.mp hjoined
    have hid : s.id = t.id := congrArg TagKey.id hkey
    exact ⟨hv, hentity, htag.trans hid⟩
  · rintro ⟨hv, hentity, htag⟩
    exact ⟨(v, t), ⟨mem_joinedVotes.mpr ⟨hv, hentity, ht, htag⟩, rfl⟩, rfl⟩

/-- A group has a positive vote if its tag has one. -/
theorem positive_groupVotes (ht : t ∈ db.tag.rows) :
    0 < positiveVoteCount (groupVotes db entityType entityId (tagKey t)) ↔
      hasPositiveVote db entityType entityId t := by
  simp only [positiveVoteCount_pos, mem_groupVotes ht, hasPositiveVote, List.any_eq_true,
    Bool.and_eq_true, decide_eq_true_eq, and_assoc]

/-- The groups are those of the tags that have votes. -/
theorem mem_groups {group : TagKey × List TagVote} : group ∈ groups db entityType entityId ↔
    ∃ t ∈ db.tag.rows, (∃ v, (v, t) ∈ joinedVotes db entityType entityId) ∧
      group = (tagKey t, groupVotes db entityType entityId (tagKey t)) := by
  simp only [groups, List.mem_map, List.mem_dedup]
  constructor
  · rintro ⟨_, ⟨⟨v, t⟩, hjoined, rfl⟩, rfl⟩
    obtain ⟨-, -, ht, -⟩ := mem_joinedVotes.mp hjoined
    exact ⟨t, ht, ⟨v, hjoined⟩, rfl⟩
  · rintro ⟨t, -, ⟨v, hjoined⟩, rfl⟩
    exact ⟨tagKey t, ⟨(v, t), hjoined, rfl⟩, rfl⟩

theorem pairwise_groups : (groups db entityType entityId).Pairwise fun a b => a.1.id ≠ b.1.id := by
  have hkeys : ((groups db entityType entityId).map Prod.fst).Nodup := by
    have hmap : (groups db entityType entityId).map Prod.fst =
        ((joinedVotes db entityType entityId).map fun p => tagKey p.2).dedup := by
      simp [groups, List.map_map, Function.comp_def]
    rw [hmap]
    exact List.nodup_dedup _
  refine (List.pairwise_map.mp hkeys).imp_of_mem fun {a b} ha hb hne hid => hne ?_
  obtain ⟨s, hs, -, rfl⟩ := mem_groups.mp ha
  obtain ⟨t, ht, -, rfl⟩ := mem_groups.mp hb
  rw [Table.eq_of_id hs ht hid]

theorem exists_joined (ht : t ∈ db.tag.rows) (h : hasPositiveVote db entityType entityId t) :
    ∃ v, (v, t) ∈ joinedVotes db entityType entityId := by
  obtain ⟨v, hv, hvote⟩ := List.any_eq_true.mp h
  simp only [Bool.and_eq_true, decide_eq_true_eq] at hvote
  exact ⟨v, mem_joinedVotes.mpr ⟨hv, hvote.1.1, ht, hvote.1.2⟩⟩

theorem mem_foundGroups {group : TagKey × List TagVote} :
    group ∈ foundGroups db entityType entityId cursor ↔
      ∃ t ∈ db.tag.rows, hasPositiveVote db entityType entityId t ∧ (∀ c ∈ cursor, c < t.id) ∧
        group = (tagKey t, groupVotes db entityType entityId (tagKey t)) := by
  have hcursor : ∀ id : ℤ, (cursor.all fun c => decide (id > c)) = true ↔ ∀ c ∈ cursor, c < id := by
    intro id
    cases cursor <;> simp
  simp only [foundGroups, List.mem_mergeSort, List.mem_filter, Bool.and_eq_true, decide_eq_true_eq,
    hcursor, mem_groups]
  constructor
  · rintro ⟨⟨t, ht, -, rfl⟩, hpositive, hbehind⟩
    exact ⟨t, ht, (positive_groupVotes ht).mp hpositive, hbehind, rfl⟩
  · rintro ⟨t, ht, hpositive, hbehind, rfl⟩
    have hgroup := (positive_groupVotes ht).mpr hpositive
    exact ⟨⟨t, ht, exists_joined ht hpositive, rfl⟩, hgroup, hbehind⟩

theorem pairwise_foundGroups :
    (foundGroups db entityType entityId cursor).Pairwise fun a b => a.1.id < b.1.id := by
  have hle : (foundGroups db entityType entityId cursor).Pairwise
      fun a b => decide (a.1.id ≤ b.1.id) = true := by
    apply List.pairwise_mergeSort
    · intro a b c hab hbc
      simp only [decide_eq_true_eq] at hab hbc ⊢
      omega
    · intro a b
      simp only [Bool.or_eq_true, decide_eq_true_eq]
      omega
  have hne : (foundGroups db entityType entityId cursor).Pairwise fun a b => a.1.id ≠ b.1.id :=
    ((List.mergeSort_perm _ _).pairwise_iff fun h => h.symm).mpr (pairwise_groups.filter _)
  exact (hle.and hne).imp fun h => lt_of_le_of_ne (of_decide_eq_true h.1) h.2

def foundTags (db : VoteTables) (entityType : EntityType) (entityId : ℤ) (cursor : Option ℤ) :
    List (Row Tag) :=
  sortById (db.tag.rows.filter fun t =>
    hasPositiveVote db entityType entityId t && cursor.all fun c => c < t.id)

theorem finds_foundTags : Finds (· < ·) db.tag (hasPositiveVote db entityType entityId) cursor
    (foundTags db entityType entityId cursor) := by
  refine finds_asc ((nodup_rows db.tag).filter _) fun t => ?_
  cases cursor <;> simp

/-- What is found are the groups of these tags, in the same order. -/
theorem keys_foundGroups : (foundGroups db entityType entityId cursor).map Prod.fst =
    (foundTags db entityType entityId cursor).map tagKey := by
  have hasymm : Std.Antisymm fun a b : TagKey => a.id < b.id :=
    ⟨fun _ _ h h' => absurd h' (lt_asymm h)⟩
  have hirrefl : Std.Irrefl fun a b : TagKey => a.id < b.id := ⟨fun a => lt_irrefl a.id⟩
  have htags : Finds (· < ·) db.tag (hasPositiveVote db entityType entityId) cursor _ :=
    finds_foundTags
  refine List.Pairwise.eq_of_mem_iff (r := fun a b : TagKey => a.id < b.id)
    (List.pairwise_map.mpr pairwise_foundGroups) (List.pairwise_map.mpr htags.sorted) fun key => ?_
  rw [List.mem_map, List.mem_map]
  constructor
  · rintro ⟨group, hgroup, rfl⟩
    obtain ⟨t, ht, hpositive, hbehind, rfl⟩ := mem_foundGroups.mp hgroup
    exact ⟨t, (htags.mem t).mpr ⟨ht, hpositive, hbehind⟩, rfl⟩
  · rintro ⟨t, hfound, rfl⟩
    obtain ⟨ht, hpositive, hbehind⟩ := (htags.mem t).mp hfound
    exact ⟨_, mem_foundGroups.mpr ⟨t, ht, hpositive, hbehind, rfl⟩, rfl⟩

end Groups

section Pages
variable {F : Type} (sql : Sql F) (db : VoteTables) (entityType : EntityType) (entityId : ℤ)

/-- Dropping the last of one row too many is cutting at the limit. -/
theorem pop_eq_take {T : Type} {items : List T} {limit : ℕ} (h : items.length ≤ limit + 1)
    (hmore : items.length > limit) : items.dropLast = items.take limit := by
  rw [List.dropLast_eq_take]
  congr 1
  omega

def TagAggregate.key (tag : TagAggregate F) : TagKey := ⟨tag.id, tag.name, tag.shortDescription⟩

def TagAggregateRow.key (row : TagAggregateRow F) : TagKey :=
  ⟨row.id, row.name, row.shortDescription⟩

theorem cut_getTags (userId : Option ℤ) (cursor : Option ℤ) (limit : UInt32) :
    Cut TagAggregate.key tagKey limit (foundTags db entityType entityId cursor)
      (getTags sql db entityType entityId userId cursor limit) := by
  have hkeys : (foundGroups db entityType entityId cursor).map Prod.fst = _ := keys_foundGroups
  generalize hrows : ((foundGroups db entityType entityId cursor).take (limit.toNat + 1)).map
    (aggregateRow sql db entityType entityId userId) = rows
  have hlength : rows.length ≤ limit.toNat + 1 := by
    rw [← hrows, List.length_map]
    exact List.length_take_le _ _
  have hshown : rows.map TagAggregateRow.key =
      ((foundTags db entityType entityId cursor).take (limit.toNat + 1)).map tagKey := by
    rw [List.map_take, ← hkeys, ← List.map_take, ← hrows, List.map_map]
    rfl
  have hcut := cut_truncate TagKey.id hshown (fun row => (rfl : row.id = row.key.id)) fun _ => rfl
  have hpop : (if rows.length > limit.toNat then rows.dropLast else rows) =
      if rows.length > limit.toNat then rows.take limit.toNat else rows := by
    split_ifs with hmore
    · exact pop_eq_take hlength hmore
    · rfl
  have hitems :
      (getTags sql db entityType entityId userId cursor limit).items.map TagAggregate.key =
        (truncate rows limit TagAggregateRow.id).items.map TagAggregateRow.key := by
    simp only [getTags, hrows, hpop, truncate, List.map_map]
    rfl
  have hnext : (getTags sql db entityType entityId userId cursor limit).nextCursor =
      (truncate rows limit TagAggregateRow.id).nextCursor := by
    simp only [getTags, hrows, hpop, truncate]
  exact ⟨hitems.trans hcut.items, hnext.trans hcut.nextCursor⟩

theorem visits_getTags (userId : Option ℤ) {limit : UInt32} (hlimit : 0 < limit.toNat) :
    ∃ pages rows, Visits (fun cursor => getTags sql db entityType entityId userId cursor limit)
      limit (· < ·) db.tag (hasPositiveVote db entityType entityId) TagAggregate.key tagKey
        pages rows :=
  exists_visits hlimit fun cursor =>
    ⟨_, finds_foundTags, cut_getTags sql db _ _ userId cursor limit⟩

end Pages

end TagVotes

/-- Without a cursor at first, then with the next one of each page, every listing ends and has shown
each row of its filter once, on full pages but for the last. -/
theorem cursor_listings_visit_once (limit : UInt32) (hlimit : 0 < limit.toNat) :
    (∀ (C D : Type) (table : Table C) (select : Row C → Bool) (fetch : Explore.FindManyImpl C D)
      (limit? : Option UInt32), ∃ pages rows, Visits
        (fun cursor => findManyPaginated table select ⟨limit?, cursor⟩ fetch.load fetch.getId)
        (PaginationQuery.limit ⟨limit?, none⟩) (· < ·) table select fetch.getId Row.id pages rows) ∧
    (∀ (db : ImageQueue.QueueTables) (status : Option ImageQueue.ImageQueueStatus)
      (queueType : Option ImageQueue.ImageQueueType), ∃ pages rows, Visits
        (fun cursor => ImageQueue.findPending db limit cursor status queueType) limit (· > ·)
        db.imageQueue (ImageQueue.pending db status queueType) id id pages rows) ∧
    (∀ (table : Table Notifications.Notification) (userId : ℤ), ∃ pages rows, Visits
        (Notifications.list table userId limit) limit (· > ·) table
        (fun r => r.cols.recipientUserId = userId) id id pages rows) ∧
    ∀ (F : Type) (sql : TagVotes.Sql F) (db : TagVotes.VoteTables)
      (entityType : TagVotes.EntityType) (entityId : ℤ) (userId : Option ℤ), ∃ pages rows, Visits
        (fun cursor => TagVotes.getTags sql db entityType entityId userId cursor limit) limit
        (· < ·) db.tag (TagVotes.hasPositiveVote db entityType entityId) TagVotes.TagAggregate.key
        TagVotes.tagKey pages rows :=
  ⟨fun _ _ table select fetch limit? => visits_findManyPaginated table select fetch limit?,
    fun db status queueType => ImageQueue.visits_findPending db status queueType hlimit,
    fun table userId => visits_list table userId hlimit,
    fun _ sql db entityType entityId userId =>
      TagVotes.visits_getTags sql db entityType entityId userId hlimit⟩

def inbox : Table Notifications.Notification where
  rows :=
    [⟨1, 7, 1, 1, 1, "", false, 0⟩, ⟨3, 7, 1, 1, 2, "", false, 2⟩, ⟨2, 7, 1, 1, 3, "", true, 1⟩]
  next := 4
  lt_next := by decide
  nodup := by decide

theorem inbox_visited_once : ∃ pages rows, Visits (Notifications.list inbox 7 2) 2 (· > ·) inbox
    (fun r => r.cols.recipientUserId = 7) id id pages rows :=
  (cursor_listings_visit_once 2 (by decide)).2.2.1 inbox 7

end Thcdb
