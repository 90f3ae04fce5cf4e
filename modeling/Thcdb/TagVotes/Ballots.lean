import Thcdb.Interleaving.Replay
import Thcdb.Relational.Keyed
import Thcdb.TagVotes.Tags

namespace Thcdb.TagVotes
open Catalog Paging Relational Interleaving
open Catalog.ArtistReleases (CursorResponse)

inductive Score
  | Veto | Low | Medium | High
  deriving DecidableEq, Repr

def Score.asI16 : Score → ℤ
  | .Veto => -3
  | .Low => 1
  | .Medium => 2
  | .High => 3

def EntityType.entityName : EntityType → String
  | .Artist => "Artist"
  | .Release => "Release"
  | .Song => "Song"

inductive Error
  | EntityNotFound (entity : String) (id : ℤ)
  | TagNotFound (id : ℤ)
  | Db
  deriving DecidableEq, Repr

structure Ballot where
  entityType : EntityType
  entityId : ℤ
  tagId : ℤ
  userId : ℤ
  deriving DecidableEq, Repr

structure VoteKey where
  entityId : ℤ
  tagId : ℤ
  userId : ℤ
  deriving DecidableEq, Repr

def TagVote.key (v : TagVote) : VoteKey := ⟨v.entityId, v.tagId, v.userId⟩

def Ballot.key (b : Ballot) : VoteKey := ⟨b.entityId, b.tagId, b.userId⟩

structure TagQuery where
  entityType : EntityType
  entityId : ℤ
  userId : Option ℤ
  cursor : Option ℤ
  limit : UInt32

structure World where
  clock : ℕ
  db : VoteTables
  artist : List ℤ
  release : List ℤ
  song : List ℤ

/-- The columns that `get_tags` has when it goes on to the single votes. -/
structure TagPage (F : Type) where
  rows : List (TagAggregateRow F)
  nextCursor : Option ℤ

inductive Call (F : Type)
  | idle
  | findEntity (b : Ballot) (score : Score)
  | findTag (b : Ballot) (score : Score)
  | insert (b : Ballot) (score : Score)
  | delete (b : Ballot)
  | select (q : TagQuery)
  | selectVotes (q : TagQuery) (page : TagPage F)
  | voted
  | deleted
  | shown (q : TagQuery) (r : CursorResponse (TagAggregate F))
  | failed (e : Error)

inductive Input
  | voteTag (b : Ballot) (score : Score)
  | deleteVote (b : Ballot)
  | getTags (q : TagQuery)
  | ok
  | fail

/-- Time passes, or other requests write the tables that the votes refer to. -/
inductive Env
  | tick (d : ℕ)
  | writeTables (artist release song : List ℤ) (tag : Table Tag) (user : Table Users.UserColumns)

inductive Event
  | voted (i : ℕ) (b : Ballot) (score : Score) (votedAt : ℕ)
  | deleted (i : ℕ) (b : Ballot)
  deriving DecidableEq, Repr

namespace World

def entities (w : World) : EntityType → List ℤ
  | .Artist => w.artist
  | .Release => w.release
  | .Song => w.song

def setVotes (w : World) (entityType : EntityType) (votes : List TagVote) : World :=
  { w with db := match entityType with
    | .Artist => { w.db with artistTagVote := votes }
    | .Release => { w.db with releaseTagVote := votes }
    | .Song => { w.db with songTagVote := votes } }

def refers (w : World) (entityType : EntityType) (k : VoteKey) : Bool :=
  k.entityId ∈ w.entities entityType && w.db.tag.has k.tagId && w.db.user.has k.userId

end World

section
variable {F : Type} (sql : Sql F)

/-- The first query of `get_tags`. -/
def selectTags (db : VoteTables) (q : TagQuery) : TagPage F :=
  let rows := ((foundGroups db q.entityType q.entityId q.cursor).take (q.limit.toNat + 1)).map
    (aggregateRow sql db q.entityType q.entityId q.userId)
  let hasNext := rows.length > q.limit.toNat
  let items := if hasNext then rows.dropLast else rows
  ⟨items, if hasNext then items.getLast?.map TagAggregateRow.id else none⟩

/-- The second query, and what is made of both. -/
def withVotes (db : VoteTables) (q : TagQuery) (page : TagPage F) :
    CursorResponse (TagAggregate F) :=
  let voteMap := loadTagVotes sql db q.entityType q.entityId (page.rows.map TagAggregateRow.id)
  { items := page.rows.map fun tag =>
      { id := tag.id
        name := tag.name
        shortDescription := tag.shortDescription
        count := tag.count
        relevance := tag.relevance
        userVote := tag.userVote
        votes := (voteMap tag.id).getD [] }
    nextCursor := page.nextCursor }

theorem getTags_eq {db : VoteTables} {q : TagQuery} :
    getTags sql db q.entityType q.entityId q.userId q.cursor q.limit =
      withVotes sql db q (selectTags sql db q) := rfl

def statement (i : ℕ) (w : World) : Call F → Option (World × Call F × List Event)
  | .findEntity b score =>
    if b.entityId ∈ w.entities b.entityType then some (w, .findTag b score, [])
    else some (w, .failed (.EntityNotFound b.entityType.entityName b.entityId), [])
  | .findTag b score =>
    if w.db.tag.has b.tagId then some (w, .insert b score, [])
    else some (w, .failed (.TagNotFound b.tagId), [])
  | .insert b score =>
    if w.refers b.entityType b.key then
      let row : TagVote := ⟨b.entityId, b.tagId, b.userId, score.asI16, w.clock⟩
      let votes := upsert TagVote.key row
        (fun v => { v with score := row.score, votedAt := w.clock }) (voteTable w.db b.entityType)
      some (w.setVotes b.entityType votes, .voted, [.voted i b score w.clock])
    else some (w, .failed .Db, [])
  | .delete b =>
    some (w.setVotes b.entityType (eraseBy TagVote.key b.key (voteTable w.db b.entityType)),
      .deleted, [.deleted i b])
  | .select q =>
    let page := selectTags sql w.db q
    -- without a tag there is nothing to load
    some (w, if page.rows.isEmpty then .shown q ⟨[], page.nextCursor⟩ else .selectVotes q page, [])
  | .selectVotes q page => some (w, .shown q (withVotes sql w.db q page), [])
  | .idle | .voted | .deleted | .shown .. | .failed _ => none

def exec (i : ℕ) (a : Input) (w : World) (l : Call F) : Option (World × Call F × List Event) :=
  match a, l with
  | .voteTag b score, .idle => some (w, .findEntity b score, [])
  | .deleteVote b, .idle => some (w, .delete b, [])
  | .getTags q, .idle => some (w, .select q, [])
  | .ok, l => statement sql i w l
  | .fail, .findEntity .. | .fail, .findTag .. | .fail, .insert .. | .fail, .delete _
  | .fail, .select _ | .fail, .selectVotes .. => some (w, .failed .Db, [])
  | _, _ => none

/-- The references are checked, whoever writes the other tables. -/
def env : Env → World → Option World
  | .tick d, w => some { w with clock := w.clock + d }
  | .writeTables artist release song tag user, w =>
    let w' : World :=
      { w with artist, release, song, db := { w.db with tag, user } }
    if [EntityType.Artist, .Release, .Song].all fun entityType =>
        (voteTable w.db entityType).all fun v => w'.refers entityType v.key then
      some w'
    else none

def system : System World (Call F) Input Env Event := ⟨exec sql, env⟩

end

abbrev Config (F : Type) := Interleaving.Config World (Call F) Event

structure Config.Initial {F : Type} (c : Config F) : Prop where
  votes : ∀ entityType, voteTable c.shared.db entityType = []
  calls : ∀ i, c.calls i = .idle
  log : c.log = []

end Thcdb.TagVotes
