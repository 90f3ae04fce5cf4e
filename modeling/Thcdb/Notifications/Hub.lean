import Mathlib.Data.Set.Card
import Thcdb.Auth.Users
import Thcdb.Broadcast.Channel
import Thcdb.Interleaving.System

namespace Thcdb.Notifications
open Auth Interleaving Broadcast

def channelCapacity : ℕ := 64

def channelTtl : ℕ := hours 1

/-- Which `broadcast::channel`, in the order they were made. -/
abbrev ChannelId := ℕ

structure ChannelEntry where
  sender : ChannelId
  subscriberCount : ℕ
  lastEmptyAt : Option ℕ
  deriving DecidableEq, Repr

/-- What the hub takes from its target and from dashmap, whose shards are locked one by one. -/
structure Platform where
  usizeMax : ℕ
  shards : ℕ
  shard : UserId → ℕ
  shard_lt : ∀ u, shard u < shards
  /-- whether `iter` keeps the shard it stands in locked while its caller handles an element -/
  iterLocks : Bool

structure Hub where
  clock : ℕ
  channels : UserId → Option ChannelEntry
  /-- the users `channels` has an entry for, as an iterator meets them -/
  keys : List UserId
  /-- how many channels were made -/
  created : ℕ
  /-- what was sent on each channel -/
  sent : ChannelId → List String
  /-- the calls whose iterators have a shard locked -/
  readers : ℕ → List ℕ

/-- `subscriber_count == 0 && last_empty_at.is_some_and(..)`; `duration_since` stops at zero. -/
def ChannelEntry.expired (now : ℕ) (e : ChannelEntry) : Bool :=
  e.subscriberCount = 0 && e.lastEmptyAt.any fun t => channelTtl ≤ now - t

/-- A socket, a publisher or one pass of the clean-up task, with the locals it still needs. A
socket ends when its send task does, or else releases its guard first and its receiver then. -/
inductive Call
  | idle
  | attaching (userId : UserId) (sender : ChannelId)
  | connected (userId : UserId) (sender : ChannelId) (pos : ℕ)
  | ended (userId : UserId) (sender : ChannelId)
  | released (userId : UserId) (sender : ChannelId) (pos : ℕ)
  | sending (userId : UserId) (sender : ChannelId) (msg : String)
  | sweeping (now shard : ℕ)
  | removing (now shard : ℕ) (toRemove : List UserId)
  | done
  deriving DecidableEq, Repr

/-- `ok` runs the next statement, `leave` ends the receive task and `fail` the send task; the
others begin a call. -/
inductive Input
  | connect (userId : UserId)
  | publish (userId : UserId) (msg : String)
  | sweep
  | ok
  | leave
  | fail
  deriving DecidableEq, Repr

inductive Env
  | tick (d : ℕ)

inductive Event
  /-- `publish` put a message on a channel -/
  | sent (i : ℕ) (userId : UserId) (sender : ChannelId) (msg : String)
  /-- a socket got a message -/
  | received (i : ℕ) (msg : String)
  /-- a socket lost the oldest of its messages -/
  | lagged (i : ℕ)
  /-- a socket found its channel gone -/
  | closed (i : ℕ)
  deriving DecidableEq, Repr

section

variable (X : Platform)

/-- No iterator stands in the way of a write to the user's entry. -/
def Hub.Writable (w : Hub) (u : UserId) : Prop := w.readers (X.shard u) = []

instance (w : Hub) (u : UserId) : Decidable (w.Writable X u) :=
  inferInstanceAs (Decidable (_ = []))

def subscribe (w : Hub) (u : UserId) : Hub × ChannelId :=
  match w.channels u with
  | some e =>
    ({ w with channels := Function.update w.channels u (some
        { e with subscriberCount := min (e.subscriberCount + 1) X.usizeMax, lastEmptyAt := none }) },
      e.sender)
  | none =>
    ({ w with
        channels := Function.update w.channels u (some ⟨w.created, 1, none⟩)
        keys := u :: w.keys
        created := w.created + 1 },
      w.created)

def unsubscribe (w : Hub) (u : UserId) : Hub :=
  match w.channels u with
  | none => w
  | some e =>
    let n := e.subscriberCount - 1
    { w with channels := Function.update w.channels u (some
        { e with subscriberCount := n
                 lastEmptyAt := if n = 0 then some w.clock else e.lastEmptyAt }) }

/-- `remove_if` with the condition of the clean-up task. -/
def removeIf (w : Hub) (now : ℕ) (u : UserId) : Hub :=
  if (w.channels u).any (·.expired now) then
    { w with channels := Function.update w.channels u none, keys := w.keys.erase u }
  else w

def lockShard (w : Hub) (i s : ℕ) : Hub :=
  { w with readers := Function.update w.readers s (i :: w.readers s) }

def unlockShard (w : Hub) (i s : ℕ) : Hub :=
  { w with readers := Function.update w.readers s ((w.readers s).erase i) }

def toRemove (w : Hub) (now s : ℕ) : List UserId :=
  w.keys.filter fun u => X.shard u = s ∧ (w.channels u).any (·.expired now)

/-- One turn of the send task: `stay` is the socket at a new position, `gone` without a receiver. -/
def readNext (i : ℕ) (w : Hub) (u : UserId) (ch : ChannelId) (pos : ℕ) (stay : ℕ → Call)
    (gone : Call) : Option (Hub × Call × List Event) :=
  match recv channelCapacity (w.sent ch) pos with
  | .message msg pos => some (w, stay pos, [.received i msg])
  | .lagged pos => some (w, stay pos, [.lagged i])
  | .caughtUp =>
    -- the channel lives on in the map, or its last sender is gone
    if (w.channels u).map (·.sender) = some ch then none else some (w, gone, [.closed i])

def exec (i : ℕ) (a : Input) (w : Hub) (c : Call) : Option (Hub × Call × List Event) :=
  match c, a with
  | .idle, .connect u =>
    if w.Writable X u then
      let r := subscribe X w u
      some (r.1, .attaching u r.2, [])
    else none
  | .attaching u ch, .ok => some (w, .connected u ch (w.sent ch).length, [])
  | .connected u ch pos, .ok => readNext i w u ch pos (.connected u ch) (.ended u ch)
  | .connected u ch _, .fail => some (w, .ended u ch, [])
  | .connected u ch pos, .leave =>
    if w.Writable X u then some (unsubscribe w u, .released u ch pos, []) else none
  | .ended u _, .ok => if w.Writable X u then some (unsubscribe w u, .done, []) else none
  | .released u ch pos, .ok => readNext i w u ch pos (.released u ch) .done
  | .released .., .fail => some (w, .done, [])
  | .idle, .publish u msg =>
    match w.channels u with
    | none => some (w, .done, [])
    | some e => some (w, .sending u e.sender msg, [])
  | .sending u ch msg, .ok =>
    some ({ w with sent := Function.update w.sent ch (w.sent ch ++ [msg]) }, .done,
      [.sent i u ch msg])
  | .idle, .sweep => some (w, .sweeping w.clock 0, [])
  | .sweeping now s, .ok =>
    if s < X.shards then
      some (if X.iterLocks then lockShard w i s else w, .removing now s (toRemove X w now s), [])
    else some (w, .done, [])
  | .removing now s [], .ok =>
    some (if X.iterLocks then unlockShard w i s else w, .sweeping now (s + 1), [])
  | .removing now s (u :: rest), .ok =>
    if w.Writable X u then some (removeIf w now u, .removing now s rest, []) else none
  | _, _ => none

def system : System Hub Call Input Env Event where
  exec := exec X
  env b w :=
    match b with
    | .tick d => some { w with clock := w.clock + d }

end

abbrev Config := Interleaving.Config Hub Call Event

def initial (clock : ℕ) : Config :=
  ⟨⟨clock, fun _ => none, [], 0, fun _ => [], fun _ => []⟩, fun _ => .idle, []⟩

end Thcdb.Notifications
