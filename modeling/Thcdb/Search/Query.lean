import Mathlib.Data.List.Dedup
import Mathlib.Data.List.Sort
import Mathlib.Data.Prod.Lex
import Thcdb.Catalog.ArtistReleases
import Thcdb.Catalog.SongRelations
import Thcdb.Explore.Listings
import Thcdb.Paging.AdminUsers

namespace Thcdb.Search
open Catalog Paging Relational
open Catalog.ArtistReleases (CursorResponse)
open Explore (IsKey)

/-- What the search takes from the standard library, from SQL and from `pg_trgm`. -/
structure TextOps (D : Type) where
  /-- `str::to_lowercase`, and SQL `lower` -/
  lower : String → String
  isWhitespace : Char → Bool
  /-- the operator `%` -/
  similarity : String → String → Bool
  /-- the operator `<->` -/
  similarityDistance : String → String → D
  /-- A percent sign has no case, and ends a word as the end of the text does. -/
  lower_percent : ∀ s, lower (s ++ "%") = lower s ++ "%"

inductive Failure
  | badRequest (message : String)
  /-- Postgres has no text with a NUL in it. -/
  | invalidByteSequence
  | overflow
  deriving DecidableEq, Repr

inductive MatchMode
  | Trgm | Prefix
  deriving DecidableEq, Repr

def matchMode (keyword : String) : MatchMode := if keyword.length < 3 then .Prefix else .Trgm

section Term

structure SearchTermConfig where
  minLen : ℕ
  maxLen : ℕ

def SearchTermConfig.DEFAULT : SearchTermConfig := ⟨1, 256⟩

variable {D : Type} (X : TextOps D)

def trim (value : String) : String :=
  String.ofList (((value.toList.dropWhile X.isWhitespace).reverse.dropWhile X.isWhitespace).reverse)

def SearchTermConfig.validate (config : SearchTermConfig) (value : String) :
    Except String String :=
  let trimmed := trim X value
  let len := (trimmed.toList.take (config.maxLen + 1)).length
  if len < config.minLen then
    .error ("keyword must be at least " ++ toString config.minLen ++ " characters")
  else if len > config.maxLen then .error "keyword is too long"
  else .ok trimmed

structure SearchTerm where
  text : String
  deriving DecidableEq, Repr

def SearchTerm.tryNew (value : String) (config : SearchTermConfig) : Except String SearchTerm :=
  (config.validate X value).map SearchTerm.mk

end Term

section Hits
variable {D : Type} (X : TextOps D)

def createHits (keyword : String) (names : List (ℤ × String)) : List (ℤ × D) :=
  let searchTerm := X.lower keyword
  let prefixPattern := X.lower (keyword ++ "%")
  let cond (field : String) := match matchMode keyword with
    | .Trgm => X.similarity field searchTerm
    | .Prefix => Admin.like prefixPattern.toList field.toList
  (names.filter fun n => cond (X.lower n.2)).map fun n =>
    (n.1, X.similarityDistance (X.lower n.2) searchTerm)

def boundTexts (keyword : String) : List String :=
  match matchMode keyword with
  | .Trgm => [keyword]
  | .Prefix => [keyword, X.lower (keyword ++ "%")]

variable [LinearOrder D]

def createRanked (baseHits altHits : List (ℤ × D)) : List (ℤ × D) :=
  let hits := baseHits ++ altHits
  (hits.map Prod.fst).dedup.filterMap fun id =>
    ((hits.filter fun hit => hit.1 = id).map Prod.snd).min?.map fun dist => (id, dist)

end Hits

/-- A kind of entity, with the names that another table has for it. -/
structure Searchable (C T : Type) where
  table : Table C
  keys : ∀ r ∈ table.rows, IsKey r.id
  ident : C → String
  altNames : List (ℤ × String)
  item : Row C → T
  itemId : T → ℤ
  itemId_item : ∀ r, itemId (item r) = r.id

section Search

def I32_MAX : ℕ := 2 ^ 31 - 1

/-- Sums are checked for overflow. -/
def paginateOffset {T : Type} (items : List T) (limit : UInt32) (cursor : ℤ) :
    Except Failure (CursorResponse T) :=
  if items.length ≤ limit.toNat then .ok ⟨items, none⟩
  else
    let following := cursor + (min limit.toNat I32_MAX : ℕ)
    if following ≤ I32_MAX then .ok ⟨items.dropLast, some following⟩ else .error .overflow

variable {C T D : Type} [LinearOrder D] (X : TextOps D) (S : Searchable C T)

def joinedRows (searchTerm : String) : List ((D ×ₗ ℤ) × Row C) :=
  let ranked := createRanked
    (createHits X searchTerm (S.table.rows.map fun r => (r.id, S.ident r.cols)))
    (createHits X searchTerm S.altNames)
  ranked.flatMap fun hit =>
    (S.table.rows.filter fun r => r.id = hit.1).map fun r => (toLex (hit.2, r.id), r)

def rankedRows (searchTerm : String) : List (Row C) :=
  ((joinedRows X S searchTerm).insertionSort fun a b => a.1 ≤ b.1).map Prod.snd

def search (searchTerm : String) (limit : UInt32) (cursor : ℤ) :
    Except Failure (CursorResponse T) :=
  if (boundTexts X searchTerm).any fun text => text.toList.contains '\x00' then
    .error .invalidByteSequence
  else
    let items := ((rankedRows X S searchTerm).drop cursor.toNat).take (limit.toNat + 1)
    paginateOffset (items.map S.item) limit cursor

end Search

section Request

structure SearchSingleQuery where
  searchTerm : String
  limit : Option UInt32
  cursor : Option ℤ
  deriving DecidableEq, Repr

structure ValidSearchSingleQuery where
  searchTerm : SearchTerm
  limit : UInt32
  cursor : ℤ
  deriving DecidableEq, Repr

def normalizeLimit (limit : Option UInt32) : UInt32 := clamp (limit.getD 10) 1 50

variable {C T D : Type} [LinearOrder D] (X : TextOps D) (S : Searchable C T)

def SearchSingleQuery.validate (query : SearchSingleQuery) :
    Except String ValidSearchSingleQuery := do
  let searchTerm ← SearchTerm.tryNew X query.searchTerm .DEFAULT
  return ⟨searchTerm, normalizeLimit query.limit, max (query.cursor.getD 0) 0⟩

def searchSingle (query : SearchSingleQuery) : Except Failure (CursorResponse T) :=
  match query.validate X with
  | .error message => .error (.badRequest message)
  | .ok valid => search X S valid.searchTerm.text valid.limit valid.cursor

end Request

section Kinds

structure SimpleRelease where
  id : ℤ
  title : String
  coverArtUrl : Option String
  deriving DecidableEq, Repr

structure SimpleEvent where
  id : ℤ
  name : String
  deriving DecidableEq, Repr

structure SimpleLabel where
  id : ℤ
  name : String
  deriving DecidableEq, Repr

structure TagRef where
  id : ℤ
  name : String
  type : TagType
  deriving DecidableEq, Repr

variable (db : Database)

def ownedNames {I : Type} (name : I → String) (t : Table (Owned I)) : List (ℤ × String) :=
  t.rows.map fun r => (r.cols.owner, name r.cols.item)

def artists (keys : ∀ r ∈ db.artists.artist.rows, IsKey r.id) : Searchable Artist SimpleArtist where
  table := db.artists.artist
  keys := keys
  ident := Artist.name
  altNames := ownedNames LocalizedName.name db.artists.localizedName
  item r := ⟨r.id, r.cols.name⟩
  itemId := SimpleArtist.id
  itemId_item _ := rfl

def releases (keys : ∀ r ∈ db.releases.release.rows, IsKey r.id) :
    Searchable Release SimpleRelease where
  table := db.releases.release
  keys := keys
  ident := Release.title
  altNames := ownedNames LocalizedTitle.title db.releases.localizedTitle
  item r := ⟨r.id, r.cols.title, none⟩
  itemId := SimpleRelease.id
  itemId_item _ := rfl

def songs (keys : ∀ r ∈ db.songs.song.rows, IsKey r.id) : Searchable Song SongRef where
  table := db.songs.song
  keys := keys
  ident := Song.title
  altNames := ownedNames LocalizedTitle.title db.songs.localizedTitle
  item r := ⟨r.id, r.cols.title⟩
  itemId := SongRef.id
  itemId_item _ := rfl

def events (keys : ∀ r ∈ db.events.event.rows, IsKey r.id) : Searchable Event SimpleEvent where
  table := db.events.event
  keys := keys
  ident := Event.name
  altNames := ownedNames EventAlternativeName.name db.events.alternativeName
  item r := ⟨r.id, r.cols.name⟩
  itemId := SimpleEvent.id
  itemId_item _ := rfl

def labels (keys : ∀ r ∈ db.labels.label.rows, IsKey r.id) : Searchable Label SimpleLabel where
  table := db.labels.label
  keys := keys
  ident := Label.name
  altNames := ownedNames LocalizedName.name db.labels.localizedName
  item r := ⟨r.id, r.cols.name⟩
  itemId := SimpleLabel.id
  itemId_item _ := rfl

def tags (keys : ∀ r ∈ db.tags.tag.rows, IsKey r.id) : Searchable Tag TagRef where
  table := db.tags.tag
  keys := keys
  ident := Tag.name
  altNames := ownedNames TagAlternativeName.name db.tags.alternativeName
  item r := ⟨r.id, r.cols.name, r.cols.type⟩
  itemId := TagRef.id
  itemId_item _ := rfl

end Kinds

end Thcdb.Search
