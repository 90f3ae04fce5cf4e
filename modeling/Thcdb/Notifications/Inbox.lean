import Thcdb.Auth.Users
import Thcdb.Corrections.Tables
import Thcdb.Interleaving.System
import Thcdb.Json.Printer
import Thcdb.Paging.CursorListings
import Thcdb.Users.Tables

namespace Thcdb.Notifications.Inbox
open Auth Relational Interleaving
open Catalog.ArtistReleases (CursorResponse)

inductive NotificationKindEnum
  | Unknown (value : ℤ)
  | CommentReply | CommentMention | CommentModeration
  | CorrectionApproved | CorrectionRejected | CorrectionNeedsReview | CorrectionComment
  | ImageApproved | ImageRejected | ImageReverted
  | NewFollower | FollowingActivity
  deriving DecidableEq, Repr

namespace NotificationKindEnum

def toI32 : NotificationKindEnum → ℤ
  | .CommentReply => 1
  | .CommentMention => 2
  | .CommentModeration => 3
  | .CorrectionApproved => 4
  | .CorrectionRejected => 5
  | .CorrectionNeedsReview => 6
  | .CorrectionComment => 7
  | .ImageApproved => 8
  | .ImageRejected => 9
  | .ImageReverted => 10
  | .NewFollower => 11
  | .FollowingActivity => 12
  | .Unknown value => value

def ofI32 : ℤ → NotificationKindEnum
  | 1 => .CommentReply
  | 2 => .CommentMention
  | 3 => .CommentModeration
  | 4 => .CorrectionApproved
  | 5 => .CorrectionRejected
  | 6 => .CorrectionNeedsReview
  | 7 => .CorrectionComment
  | 8 => .ImageApproved
  | 9 => .ImageRejected
  | 10 => .ImageReverted
  | 11 => .NewFollower
  | 12 => .FollowingActivity
  | value => .Unknown value

def display : NotificationKindEnum → String
  | .Unknown _ => "Unknown"
  | .CommentReply => "CommentReply"
  | .CommentMention => "CommentMention"
  | .CommentModeration => "CommentModeration"
  | .CorrectionApproved => "CorrectionApproved"
  | .CorrectionRejected => "CorrectionRejected"
  | .CorrectionNeedsReview => "CorrectionNeedsReview"
  | .CorrectionComment => "CorrectionComment"
  | .ImageApproved => "ImageApproved"
  | .ImageRejected => "ImageRejected"
  | .ImageReverted => "ImageReverted"
  | .NewFollower => "NewFollower"
  | .FollowingActivity => "FollowingActivity"

/-- The name of the setting that turns its messages off, if there is one. -/
def setting : NotificationKindEnum → Option String
  | .CommentReply | .CommentModeration => some "comment_reply_enabled"
  | .CommentMention => some "comment_mention_enabled"
  | .CorrectionApproved | .CorrectionRejected | .CorrectionNeedsReview | .CorrectionComment =>
    some "correction_status_enabled"
  | .NewFollower | .FollowingActivity => some "new_follower_enabled"
  | .ImageApproved | .ImageRejected | .ImageReverted | .Unknown _ => none

end NotificationKindEnum

inductive NotificationTargetTypeEnum
  | Unknown (value : ℤ)
  | Comment | Correction | Image | User
  deriving DecidableEq, Repr

namespace NotificationTargetTypeEnum

def toI32 : NotificationTargetTypeEnum → ℤ
  | .Comment => 1
  | .Correction => 2
  | .Image => 3
  | .User => 4
  | .Unknown value => value

def ofI32 : ℤ → NotificationTargetTypeEnum
  | 1 => .Comment
  | 2 => .Correction
  | 3 => .Image
  | 4 => .User
  | value => .Unknown value

def display : NotificationTargetTypeEnum → String
  | .Unknown _ => "Unknown"
  | .Comment => "Comment"
  | .Correction => "Correction"
  | .Image => "Image"
  | .User => "User"

end NotificationTargetTypeEnum

/-- The rows of `notification_kind` and of `entity_type`, as they are seeded. -/
def notificationKindIds : List ℤ := (List.range 12).map fun n => (n : ℤ) + 1

def entityTypeIds : List ℤ := [1, 2, 3, 4]

structure NotificationPayload where
  summary : Option String
  targetUrl : Option String
  deriving DecidableEq, Repr

namespace NotificationPayload

def field (text : Option String) : Json.Value := text.elim .null .str

def toValue (p : NotificationPayload) : Json.Value :=
  .obj [("summary", field p.summary), ("target_url", field p.targetUrl)]

def fieldText (text : Option String) : List Char := text.elim "null".toList Json.quote

def toJson (p : NotificationPayload) : String :=
  String.ofList ('\x7b' :: "\"summary\":".toList ++ fieldText p.summary ++
    (",\"target_url\":".toList ++ (fieldText p.targetUrl ++ ['\x7d'])))

end NotificationPayload

structure Draft where
  recipientUserId : ℤ
  kind : NotificationKindEnum
  targetType : NotificationTargetTypeEnum
  targetId : ℤ
  payload : NotificationPayload
  deriving DecidableEq, Repr

def Draft.model (draft : Draft) (createdAt : ℕ) : Notification where
  recipientUserId := draft.recipientUserId
  notificationKindId := draft.kind.toI32
  targetTypeId := draft.targetType.toI32
  targetId := draft.targetId
  payload := draft.payload.toJson
  isRead := false
  createdAt := createdAt

structure WsNotificationData where
  id : ℤ
  notificationKind : String
  targetType : String
  targetId : ℤ
  summary : Option String
  createdAt : ℕ
  deriving DecidableEq, Repr

def Draft.wsData (draft : Draft) (id : ℤ) (createdAt : ℕ) : WsNotificationData where
  id := id
  notificationKind := draft.kind.display
  targetType := draft.targetType.display
  targetId := draft.targetId
  summary := draft.payload.summary
  createdAt := createdAt

def settingOf (v : Json.Value) (key : String) : Option Json.Value :=
  match v with
  | .obj fields => Json.Fields.get key fields
  | _ => none

def asBool : Json.Value → Option Bool
  | .bool b => some b
  | _ => none

def shouldPush (settings : Json.Value) (kind : NotificationKindEnum) : Bool :=
  kind.setting.all fun key =>
    (((settingOf settings "notification").bind (settingOf · key)).bind asBool).getD true

/-- `settings` is the column of `user` that the service reads. -/
structure World where
  clock : ℕ
  notification : Table Notification
  settings : ℤ → Option Json.Value
  userRole : List Users.UserRoleRow
  correctionUser : List Corrections.CorrectionUser

namespace World

def accepts (w : World) (draft : Draft) : Bool :=
  (w.settings draft.recipientUserId).isSome && draft.kind.toI32 ∈ notificationKindIds &&
    draft.targetType.toI32 ∈ entityTypeIds

/-- A user with two of the roles is found twice. -/
def reviewerIds (w : World) : List ℤ :=
  (w.userRole.filter fun r => r.roleId ∈ ([1, 2] : List ℤ)).map Users.UserRoleRow.userId

def authorIds (w : World) (correctionId : ℤ) : List ℤ :=
  (w.correctionUser.filter fun r => r.correctionId = correctionId ∧ r.userType = .Author).map
    Corrections.CorrectionUser.userId

end World

/-- A call that creates notifications one after the other, and pushes each before it goes on with the
next, or one pass of the clean-up job. -/
inductive Call
  | idle
  | creating (drafts : List Draft)
  | pushing (draft : Draft) (id : ℤ) (createdAt : ℕ) (drafts : List Draft)
  | deleting (cutoff : ℤ)
  | done (ok : Bool)
  deriving DecidableEq, Repr

def Call.asksDatabase : Call → Bool
  | .idle | .done _ | .creating [] => false
  | _ => true

/-- `ok` runs the next statement and `fail` lets the database refuse it; the others begin a call.
`author` and `reviewerIds` are what the first query of the call returns. -/
inductive Input
  | create (draft : Draft)
  | notifyCorrectionStatus (correctionId : ℤ) (kind : NotificationKindEnum)
      (summary : Option String) (author : Option ℤ)
  | notifyCorrectionNeedsReview (correctionId : ℤ) (excludeUserIds reviewerIds : List ℤ)
  | notifyImageStatus (createdBy imageId : ℤ) (kind : NotificationKindEnum)
      (summary : Option String)
  | markRead (userId notificationId : ℤ)
  | readAll (userId : ℤ)
  | cleanupExpired (retentionDays : ℤ)
  | ok
  | fail

/-- Time passes, and other requests write the tables that the service only reads. -/
inductive Env
  | tick (d : ℕ)
  | writeUser (userId : ℤ) (settings : Json.Value)
  | writeRoles (userRole : List Users.UserRoleRow)
  | writeCorrectionUsers (correctionUser : List Corrections.CorrectionUser)

inductive Event
  | created (i : ℕ) (draft : Draft) (id : ℤ) (createdAt : ℕ)
  | pushed (i : ℕ) (userId : ℤ) (data : WsNotificationData)
  | markedRead (userId notificationId : ℤ)
  | readAll (userId : ℤ)
  | cleanedUp (cutoff : ℤ)
  deriving DecidableEq, Repr

def correctionDraft (correctionId : ℤ) (kind : NotificationKindEnum) (summary : Option String)
    (userId : ℤ) : Draft :=
  ⟨userId, kind, .Correction, correctionId, ⟨summary, none⟩⟩

def imageDraft (createdBy imageId : ℤ) (kind : NotificationKindEnum) (summary : Option String) :
    Draft :=
  ⟨createdBy, kind, .Image, imageId, ⟨summary, none⟩⟩

def reviewDrafts (correctionId : ℤ) (excludeUserIds reviewerIds : List ℤ) : List Draft :=
  (reviewerIds.filter fun userId => !excludeUserIds.contains userId).map
    (correctionDraft correctionId .CorrectionNeedsReview (some "A correction needs review"))

def markRead (table : Table Notification) (userId notificationId : ℤ) : Table Notification :=
  table.update fun r =>
    { r.cols with isRead :=
        r.cols.isRead || (r.id = notificationId && r.cols.recipientUserId = userId) }

/-- The filter also asks for unread rows; on the others nothing would change. -/
def readAll (table : Table Notification) (userId : ℤ) : Table Notification :=
  table.update fun r =>
    if r.cols.recipientUserId = userId ∧ r.cols.isRead = false then { r.cols with isRead := true }
    else r.cols

/-- Of `cleanup_expired` and of the job that runs every night. -/
def cutoff (clock : ℕ) (retentionDays : ℤ) : ℤ := clock - retentionDays * (hours 24 : ℕ)

def deleteBefore (table : Table Notification) (cutoff : ℤ) : Table Notification :=
  table.deleteWhere fun n => (n.createdAt : ℤ) < cutoff

def statement (i : ℕ) (w : World) : Call → Option (World × Call × List Event)
  | .idle | .done _ => none
  | .creating [] => some (w, .done true, [])
  | .creating (draft :: drafts) =>
    if w.accepts draft then
      some ({ w with notification := w.notification.insertAll [draft.model w.clock] },
        .pushing draft w.notification.next w.clock drafts,
        [.created i draft w.notification.next w.clock])
    else some (w, .done false, [])
  -- the row stays when the settings cannot be read
  | .pushing draft id createdAt drafts =>
    match w.settings draft.recipientUserId with
    | none => some (w, .done false, [])
    | some settings => some (w, .creating drafts,
        if shouldPush settings draft.kind then
          [.pushed i draft.recipientUserId (draft.wsData id createdAt)]
        else [])
  | .deleting cutoff =>
    some ({ w with notification := deleteBefore w.notification cutoff }, .done true,
      [.cleanedUp cutoff])

def start : Input → World → Option (World × Call × List Event)
  | .create draft, w => some (w, .creating [draft], [])
  | .notifyCorrectionStatus correctionId kind summary (some userId), w =>
    if userId ∈ w.authorIds correctionId then
      some (w, .creating [correctionDraft correctionId kind summary userId], [])
    else none
  | .notifyCorrectionStatus correctionId _ _ none, w =>
    if w.authorIds correctionId = [] then some (w, .done false, []) else none
  | .notifyCorrectionNeedsReview correctionId excludeUserIds reviewerIds, w =>
    if reviewerIds.Perm w.reviewerIds then
      some (w, .creating (reviewDrafts correctionId excludeUserIds reviewerIds), [])
    else none
  | .notifyImageStatus createdBy imageId kind summary, w =>
    some (w, .creating [imageDraft createdBy imageId kind summary], [])
  | .markRead userId notificationId, w =>
    some ({ w with notification := markRead w.notification userId notificationId }, .done true,
      [.markedRead userId notificationId])
  | .readAll userId, w =>
    some ({ w with notification := readAll w.notification userId }, .done true, [.readAll userId])
  | .cleanupExpired retentionDays, w =>
    some (w, .deleting (cutoff w.clock retentionDays), [])
  | .fail, w => some (w, .done false, [])
  | .ok, _ => none

def exec (i : ℕ) (x : Input) (w : World) : Call → Option (World × Call × List Event)
  | .idle => start x w
  | l =>
    match x with
    | .ok => statement i w l
    | .fail => if l.asksDatabase then some (w, .done false, []) else none
    | _ => none

def env : Env → World → Option World
  | .tick d, w => some { w with clock := w.clock + d }
  | .writeUser userId settings, w =>
    some { w with settings := Function.update w.settings userId (some settings) }
  | .writeRoles userRole, w => some { w with userRole := userRole }
  | .writeCorrectionUsers correctionUser, w => some { w with correctionUser := correctionUser }

def system : System World Call Input Env Event := ⟨exec, env⟩

abbrev Config := Interleaving.Config World Call Event

def unreadCount (table : Table Notification) (userId : ℤ) : ℕ :=
  table.rows.countP fun r => r.cols.recipientUserId = userId && r.cols.isRead = false

structure NotificationItem where
  id : ℤ
  notificationKind : String
  targetType : String
  targetId : ℤ
  payload : Json.Value
  isRead : Bool
  createdAt : ℕ
  deriving DecidableEq

section Http

-- `serde_json::from_str`
variable (fromStr : String → Option Json.Value)

def decodePayload (payload : String) : Json.Value := (fromStr payload).getD (.obj [])

def notificationItem (r : Row Notification) : NotificationItem where
  id := r.id
  notificationKind := (NotificationKindEnum.ofI32 r.cols.notificationKindId).display
  targetType := (NotificationTargetTypeEnum.ofI32 r.cols.targetTypeId).display
  targetId := r.cols.targetId
  payload := decodePayload fromStr r.cols.payload
  isRead := r.cols.isRead
  createdAt := r.cols.createdAt

def notificationList (table : Table Notification) (userId : ℤ) (pagination : PaginationQuery) :
    CursorResponse NotificationItem :=
  let paginated := list table userId pagination.limit pagination.cursor
  ⟨paginated.items.map (notificationItem fromStr), paginated.nextCursor⟩

end Http

end Thcdb.Notifications.Inbox
