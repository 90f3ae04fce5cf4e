import Mathlib.Logic.Function.Basic
import Thcdb.Auth.Users
import Thcdb.Interleaving.System

namespace Thcdb.ImageQueue
open Auth Interleaving

abbrev QueueId := ℤ

abbrev ImageId := ℤ

inductive ImageQueueStatus
  | Pending | Approved | Rejected | Cancelled | Reverted
  deriving DecidableEq, Repr

inductive ArtistImageType
  | Profile
  deriving DecidableEq, Repr

inductive ReleaseImageType
  | Cover
  deriving DecidableEq, Repr

/-- What an image is for: a row of `artist_image_queue` or of `release_image_queue`. -/
inductive QueueTarget
  | Artist (artistId : ℤ) (type : ArtistImageType)
  | Release (releaseId : ℤ) (type : ReleaseImageType)
  deriving DecidableEq, Repr

/-- The columns of `image_queue` that the three calls read or write. -/
structure QueueRow where
  id : QueueId
  imageId : Option ImageId
  status : ImageQueueStatus
  handledAt : Option ℕ
  handledBy : Option UserId
  revertedAt : Option ℕ
  revertedBy : Option UserId
  deriving DecidableEq, Repr

/-- `image_queue_image_id_null_check` and `image_queue_handled_by_null_check` -/
def QueueRow.valid (r : QueueRow) : Bool :=
  (r.imageId.isNone == (r.status = .Rejected || r.status = .Cancelled)) &&
    (r.handledBy.isNone == (r.status = .Pending))

/-- The key of a row of `artist_image` or `release_image`; their types have one value each. -/
structure PublishedImage where
  target : QueueTarget
  imageId : ImageId
  deriving DecidableEq, Repr

inductive HandleImageQueueMethod
  | Approve | Reject | Revert
  deriving DecidableEq, Repr

namespace HandleImageQueueMethod

def expects : HandleImageQueueMethod → ImageQueueStatus
  | .Approve | .Reject => .Pending
  | .Revert => .Approved

def update (m : HandleImageQueueMethod) (r : QueueRow) (userId : UserId) (now : ℕ) : QueueRow :=
  match m with
  | .Approve => { r with status := .Approved, handledAt := some now, handledBy := some userId }
  | .Reject =>
    { r with
      status := .Rejected
      imageId := none
      handledAt := some now
      handledBy := some userId }
  | .Revert => { r with status := .Reverted, revertedAt := some now, revertedBy := some userId }

end HandleImageQueueMethod

inductive Error
  | NotFound | InvalidOperation | InvalidEntry | UnknownTarget | AmbiguousTarget
  | PublishedNotFound | Infra
  deriving DecidableEq, Repr

inductive Outcome
  | handled
  | failed (e : Error)
  deriving DecidableEq, Repr

/-- A transaction's writes: the published row that it inserts for an entry or deletes, and the queue
row that it updates. -/
structure Tx where
  published : Option (PublishedImage × Option QueueId)
  queue : Option QueueRow
  deriving DecidableEq, Repr

inductive Lock
  | published (p : PublishedImage)
  | queue (id : QueueId)
  deriving DecidableEq

/-- The clock, the committed rows by their keys, and the locks of the transactions that are under
way. A published row remembers the entry on whose behalf it was inserted; no call looks at it. -/
structure World where
  clock : ℕ
  queue : QueueId → Option QueueRow
  artistImageQueue : QueueId → Option QueueTarget
  releaseImageQueue : QueueId → Option QueueTarget
  published : PublishedImage → Option QueueId
  locks : Lock → Option ℕ

inductive Call
  | idle
  | findQueue (method : HandleImageQueueMethod) (userId : UserId) (id : QueueId)
  | findArtistTarget (method : HandleImageQueueMethod) (userId : UserId) (model : QueueRow)
      (imageId : ImageId)
  | findReleaseTarget (method : HandleImageQueueMethod) (userId : UserId) (model : QueueRow)
      (imageId : ImageId) (artist : Option QueueTarget)
  | insertPublished (userId : UserId) (model : QueueRow) (image : PublishedImage)
  | deletePublished (userId : UserId) (model : QueueRow) (image : PublishedImage)
  | readClock (method : HandleImageQueueMethod) (userId : UserId) (model : QueueRow) (tx : Tx)
  | updateQueue (method : HandleImageQueueMethod) (userId : UserId) (model : QueueRow) (now : ℕ)
      (tx : Tx)
  | commit (tx : Tx)
  | done (outcome : Outcome)
  deriving DecidableEq

/-- `ok` runs the next statement, `fail` lets the database refuse it; the other begins a call. -/
inductive Input
  | handle (method : HandleImageQueueMethod) (userId : UserId) (id : QueueId)
  | ok
  | fail

inductive Env
  | tick (d : ℕ)

inductive Event
  /-- the transaction was committed -/
  | handled (i : ℕ)
  deriving DecidableEq, Repr

namespace World

def acquire (w : World) (i : ℕ) (k : Lock) : Option World :=
  if (w.locks k).all (· = i) then some { w with locks := Function.update w.locks k (some i) }
  else none

def release (w : World) (i : ℕ) : World :=
  { w with locks := fun k => if w.locks k = some i then none else w.locks k }

def commit (w : World) (tx : Tx) : World :=
  { w with
    published := tx.published.elim w.published fun p => Function.update w.published p.1 p.2
    queue := tx.queue.elim w.queue fun r => Function.update w.queue r.id (some r) }

end World

def findQueueTarget : Option QueueTarget → Option QueueTarget → Except Error QueueTarget
  | some artist, none => .ok artist
  | none, some release => .ok release
  | none, none => .error .UnknownTarget
  | some _, some _ => .error .AmbiguousTarget

def World.target (w : World) (id : QueueId) : Except Error QueueTarget :=
  findQueueTarget (w.artistImageQueue id) (w.releaseImageQueue id)

def rollback (i : ℕ) (w : World) (e : Error) : World × Call × List Event :=
  (w.release i, .done (.failed e), [])

def statement (i : ℕ) (w : World) : Call → Option (World × Call × List Event)
  | .idle | .done _ => none
  | .findQueue method userId id =>
    match w.queue id with
    | none => some (rollback i w .NotFound)
    | some model =>
      if model.status ≠ method.expects then some (rollback i w .InvalidOperation)
      else if method = .Reject then some (w, .readClock method userId model ⟨none, none⟩, [])
      else
        match model.imageId with
        | none => some (rollback i w .InvalidEntry)
        | some imageId => some (w, .findArtistTarget method userId model imageId, [])
  | .findArtistTarget method userId model imageId =>
    some (w, .findReleaseTarget method userId model imageId (w.artistImageQueue model.id), [])
  | .findReleaseTarget method userId model imageId artist =>
    match findQueueTarget artist (w.releaseImageQueue model.id) with
    | .error e => some (rollback i w e)
    | .ok target =>
      if method = .Approve then some (w, .insertPublished userId model ⟨target, imageId⟩, [])
      else some (w, .deletePublished userId model ⟨target, imageId⟩, [])
  | .insertPublished userId model image =>
    (w.acquire i (.published image)).map fun w =>
      -- the primary key is unique
      if (w.published image).isSome then rollback i w .Infra
      else (w, .readClock .Approve userId model ⟨some (image, some model.id), none⟩, [])
  | .deletePublished userId model image =>
    -- a row that is not committed is not seen, and nothing is waited for
    if (w.published image).isNone then some (rollback i w .PublishedNotFound)
    else
      (w.acquire i (.published image)).map fun w =>
        (w, .readClock .Revert userId model ⟨some (image, none), none⟩, [])
  | .readClock method userId model tx => some (w, .updateQueue method userId model w.clock tx, [])
  | .updateQueue method userId model now tx =>
    (w.acquire i (.queue model.id)).map fun w =>
      match w.queue model.id with
      | none => rollback i w .Infra
      | some r =>
        let row := method.update r userId now
        if row.valid then (w, .commit { tx with queue := some row }, []) else rollback i w .Infra
  | .commit tx => some ((w.commit tx).release i, .done .handled, [.handled i])

def fails (i : ℕ) (w : World) : Call → Option (World × Call × List Event)
  | .idle | .readClock .. | .done _ => none
  | _ => some (rollback i w .Infra)

/-- Any number of calls on any entries, each one transaction under `READ COMMITTED`, cut at its
statements. -/
def system : System World Call Input Env Event where
  exec i a w c :=
    match a with
    | .ok => statement i w c
    | .fail => fails i w c
    | .handle method userId id =>
      match c with
      | .idle => some (w, .findQueue method userId id, [])
      | _ => none
  env b w :=
    match b with
    | .tick d => some { w with clock := w.clock + d }

abbrev Config := Interleaving.Config World Call Event

def initial (w : World) : Config := ⟨w, fun _ => .idle, []⟩

end Thcdb.ImageQueue
