import Thcdb.Interleaving.Replay
import Thcdb.Notifications.Inbox
import Thcdb.Paging.LiveListings
import Thcdb.Relational.Journal

namespace Thcdb.Notifications.Inbox
open Interleaving Relational Paging
open Catalog.ArtistReleases (CursorResponse)

/-- The row after a statement that marks it as read where `b` holds. -/
def marked (n : Notification) (b : Bool) : Notification := { n with isRead := n.isRead || b }

section Marked

variable {n : Notification} {a b : Bool}

@[simp] theorem marked_false : marked n false = n := by
  cases n
  simp [marked]

theorem marked_of_isRead (h : n.isRead) : marked n b = n := by
  cases n
  simp_all [marked]

@[simp] theorem marked_marked : marked (marked n a) b = marked n (a || b) := by
  simp [marked, Bool.or_assoc]

@[simp] theorem recipientUserId_marked : (marked n b).recipientUserId = n.recipientUserId := rfl

@[simp] theorem createdAt_marked : (marked n b).createdAt = n.createdAt := rfl

end Marked

def journal : Journal Event Notification where
  keeps
    | .markedRead userId notificationId, r => some ⟨r.id, marked r.cols
        (r.id = notificationId && r.cols.recipientUserId = userId)⟩
    | .readAll userId, r => some ⟨r.id, marked r.cols (r.cols.recipientUserId = userId)⟩
    | .cleanedUp cutoff, r => if (r.cols.createdAt : ℤ) < cutoff then none else some r
    | _, r => some r
  adds
    | .created _ draft id createdAt => [⟨id, draft.model createdAt⟩]
    | _ => []

section Statements

variable {table : Table Notification} {userId notificationId cutoff : ℤ}
  {rows : List (Row Notification)}

theorem rows_markRead : (markRead table userId notificationId).rows =
    journal.apply (.markedRead userId notificationId) table.rows := by
  simp [markRead, Table.update, Journal.apply, journal, List.filterMap_eq_map', marked]

theorem rows_readAll : (readAll table userId).rows =
    journal.apply (.readAll userId) table.rows := by
  simp only [readAll, Table.update, Journal.apply, journal, List.append_nil,
    List.filterMap_eq_map']
  apply List.map_congr_left
  intro r _
  by_cases hread : r.cols.isRead
  · simp [hread, marked_of_isRead]
  · by_cases hto : r.cols.recipientUserId = userId
    · simp [hread, hto, marked]
    · simp [hto]

theorem rows_deleteBefore : (deleteBefore table cutoff).rows =
    journal.apply (.cleanedUp cutoff) table.rows := by
  simp only [deleteBefore, Table.deleteWhere, Journal.apply, journal, List.append_nil]
  rw [← List.filterMap_eq_filter]
  congr 1
  funext r
  by_cases h : (r.cols.createdAt : ℤ) < cutoff <;> simp [h, Option.guard]

theorem apply_created {i : ℕ} {draft : Draft} {id : ℤ} {createdAt : ℕ} :
    journal.apply (.created i draft id createdAt) rows =
      rows ++ [⟨id, draft.model createdAt⟩] := by
  simp [Journal.apply, journal]

theorem apply_pushed {i : ℕ} {data : WsNotificationData} :
    journal.apply (.pushed i userId data) rows = rows := by
  simp [Journal.apply, journal]

end Statements

section Runs

variable {c d : Config} {as : List (Act Input Env)}

theorem statement_rows {i : ℕ} {w w' : World} {l l' : Call} {es : List Event}
    (h : statement i w l = some (w', l', es)) :
    w'.notification.rows = replay journal.apply es w.notification.rows := by
  cases l with
  | idle | done ok => cases h
  | creating drafts =>
    cases drafts with
    | nil =>
      cases h
      rfl
    | cons draft drafts =>
      simp only [statement] at h
      split at h <;> cases h
      · exact apply_created.symm
      · rfl
  | pushing draft id createdAt drafts =>
    simp only [statement] at h
    split at h <;> cases h
    · rfl
    · split
      · exact apply_pushed.symm
      · rfl
  | deleting cutoff =>
    cases h
    exact rows_deleteBefore

theorem start_rows {x : Input} {w w' : World} {l' : Call} {es : List Event}
    (h : start x w = some (w', l', es)) :
    w'.notification.rows = replay journal.apply es w.notification.rows := by
  unfold start at h
  split at h <;> (try split at h) <;> cases h <;>
    first | rfl | exact rows_markRead | exact rows_readAll

/-- Every statement does to the table what its events say. -/
theorem exec_rows {i : ℕ} {x : Input} {w w' : World} {l l' : Call} {es : List Event}
    (h : exec i x w l = some (w', l', es)) :
    w'.notification.rows = replay journal.apply es w.notification.rows := by
  unfold exec at h
  split at h
  · exact start_rows h
  · split at h
    · exact statement_rows h
    · split at h <;> cases h
      rfl
    · cases h

/-- The table is what the log makes of nothing. -/
theorem run_rows (hrows : c.shared.notification.rows = []) (hlog : c.log = [])
    (h : system.run c as = some d) : d.shared.notification.rows = journal.rows d.log := by
  refine System.run_induction
    (I := fun x => x.shared.notification.rows = journal.rows x.log) (G := fun _ _ => True) ?_ ?_
    (System.meets_of_forall fun _ _ _ => trivial) h
  · intro x a y hx _ hn
    cases a with
    | call i input =>
      obtain ⟨w, l, es, he, rfl⟩ := System.next_call_eq_some.mp hn
      show w.notification.rows = journal.rows (x.log ++ es)
      rw [exec_rows he, hx, Journal.rows, Journal.rows, List.foldl_append]
      rfl
    | env b =>
      obtain ⟨w, he, rfl⟩ := System.next_env_eq_some.mp hn
      show w.notification.rows = journal.rows x.log
      rw [← hx]
      cases b <;> cases he <;> rfl
  · simp [hrows, hlog]

end Runs

section Fates

/-- No clean-up came after the retention of the row was over. -/
def Kept (after : List Event) (createdAt : ℕ) : Prop :=
  ∀ cutoff, Event.cleanedUp cutoff ∈ after → cutoff ≤ createdAt

def Read (after : List Event) (userId id : ℤ) : Prop :=
  Event.markedRead userId id ∈ after ∨ Event.readAll userId ∈ after

instance (after : List Event) (userId id : ℤ) : Decidable (Read after userId id) :=
  inferInstanceAs (Decidable (_ ∨ _))

variable {after : List Event} {e : Event} {userId id : ℤ} {createdAt : ℕ} {n : Notification}
  {q r : Row Notification}

theorem kept_cons : Kept (e :: after) createdAt ↔ Kept [e] createdAt ∧ Kept after createdAt := by
  simp [Kept, or_imp, forall_and]

theorem read_cons : Read (e :: after) userId id ↔ Read [e] userId id ∨ Read after userId id := by
  simp [Read, or_or_or_comm]

theorem marked_read_cons : marked (marked n (Read [e] userId id)) (Read after userId id) =
    marked n (Read (e :: after) userId id) := by
  rw [marked_marked, ← Bool.decide_or, decide_eq_decide.mpr read_cons]

theorem keeps_eq_some : journal.keeps e ⟨id, n⟩ = some q ↔
    Kept [e] n.createdAt ∧ q = ⟨id, marked n (Read [e] n.recipientUserId id)⟩ := by
  cases e <;> simp [journal, Kept, Read, eq_comm, and_comm]

/-- What has become of a row. -/
theorem fate_eq_some : journal.fate after ⟨id, n⟩ = some r ↔
    Kept after n.createdAt ∧ r = ⟨id, marked n (Read after n.recipientUserId id)⟩ := by
  induction after generalizing n with
  | nil => simp [Kept, Read, eq_comm]
  | cons e after ih =>
    rw [Journal.fate_cons, Option.bind_eq_some_iff]
    constructor
    · rintro ⟨q, hq, hr⟩
      obtain ⟨hkept, rfl⟩ := keeps_eq_some.mp hq
      obtain ⟨hafter, rfl⟩ := ih.mp hr
      refine ⟨kept_cons.mpr ⟨hkept, hafter⟩, ?_⟩
      exact congrArg (Row.mk id) marked_read_cons
    · rintro ⟨hkept, rfl⟩
      obtain ⟨hfirst, hafter⟩ := kept_cons.mp hkept
      refine ⟨_, keeps_eq_some.mpr ⟨hfirst, rfl⟩, ih.mpr ⟨hafter, ?_⟩⟩
      exact congrArg (Row.mk id) marked_read_cons.symm

end Fates

def Draft.item (draft : Draft) (id : ℤ) (createdAt : ℕ) (isRead : Bool) : NotificationItem where
  id := id
  notificationKind := (NotificationKindEnum.ofI32 draft.kind.toI32).display
  targetType := (NotificationTargetTypeEnum.ofI32 draft.targetType.toI32).display
  targetId := draft.targetId
  payload := draft.payload.toValue
  isRead := isRead
  createdAt := createdAt

/-- The notification was created for the user and no clean-up has taken it away since; it is read if
the user has marked it since. -/
def Shows (log : List Event) (userId : ℤ) (item : NotificationItem) : Prop :=
  ∃ before i draft id createdAt after, log = before ++ .created i draft id createdAt :: after ∧
    draft.recipientUserId = userId ∧ Kept after createdAt ∧
    item = draft.item id createdAt (Read after userId id)

section Showing

variable {fromStr : String → Option Json.Value} {log : List Event} {userId : ℤ}
  {item : NotificationItem}

theorem notificationItem_marked
    (hparse : ∀ p : NotificationPayload, fromStr p.toJson = some p.toValue) {draft : Draft}
    {id : ℤ} {createdAt : ℕ} {b : Bool} :
    notificationItem fromStr ⟨id, marked (draft.model createdAt) b⟩ =
      draft.item id createdAt b := by
  simp [notificationItem, marked, Draft.model, Draft.item, decodePayload, hparse]

theorem shows_iff (hparse : ∀ p : NotificationPayload, fromStr p.toJson = some p.toValue) :
    Shows log userId item ↔ ∃ r ∈ journal.rows log, r.cols.recipientUserId = userId ∧
      notificationItem fromStr r = item := by
  simp only [Journal.mem_rows]
  constructor
  · rintro ⟨before, i, draft, id, createdAt, after, rfl, rfl, hkept, rfl⟩
    refine ⟨_, ⟨before, _, after, ⟨id, draft.model createdAt⟩, rfl, by simp [journal],
      fate_eq_some.mpr ⟨hkept, rfl⟩⟩, rfl, notificationItem_marked hparse⟩
  · rintro ⟨r, ⟨before, e, after, made, rfl, hmade, hfate⟩, rfl, rfl⟩
    cases e with
    | created i draft id createdAt =>
      obtain rfl : made = ⟨id, draft.model createdAt⟩ := by simpa [journal] using hmade
      obtain ⟨hkept, rfl⟩ := fate_eq_some.mp hfate
      exact ⟨before, i, draft, id, createdAt, after, rfl, rfl, hkept,
        notificationItem_marked hparse⟩
    | _ => simp [journal] at hmade

theorem finds_notificationList (table : Table Notification) (userId : ℤ) (limit? : Option UInt32)
    (cursor : Option ℤ) :
    ∃ found, Finds (· > ·) table (fun r => r.cols.recipientUserId = userId) cursor found ∧
      Cut id (notificationItem fromStr) (PaginationQuery.limit ⟨limit?, none⟩) found
        (notificationList fromStr table userId ⟨limit?, cursor⟩) := by
  obtain ⟨found, hfound, hcut⟩ :=
    @finds_list (PaginationQuery.limit ⟨limit?, none⟩) table userId cursor
  refine ⟨found, hfound, ?_, hcut.nextCursor⟩
  have hitems : (list table userId (PaginationQuery.limit ⟨limit?, none⟩) cursor).items =
      found.take (PaginationQuery.limit ⟨limit?, none⟩).toNat := by
    simpa using hcut.items
  rw [List.map_id]
  exact congrArg (List.map (notificationItem fromStr)) hitems

/-- What the pages show is as much unread as the count says. -/
theorem unreadCount_eq {table : Table Notification} {rows : List (Row Notification)}
    {items : List NotificationItem} (hnodup : rows.Nodup)
    (hmem : ∀ r, r ∈ rows ↔ r ∈ table.rows ∧ decide (r.cols.recipientUserId = userId))
    (hitems : items = rows.map (notificationItem fromStr)) :
    unreadCount table userId = items.countP fun item => !item.isRead := by
  have hperm : rows.Perm (table.rows.filter fun r => r.cols.recipientUserId = userId) := by
    apply (List.perm_ext_iff_of_nodup hnodup ((nodup_rows table).filter _)).mpr
    intro r
    rw [hmem, List.mem_filter]
  rw [hitems, List.countP_map, hperm.countP_eq, List.countP_filter, unreadCount]
  apply List.countP_congr
  intro r _
  simp [notificationItem, and_comm]

end Showing

/-- In every run, the pages of a user's inbox show the notifications that were created for the user
and not cleaned up since, each once and with the newest identity first, as what they were created
with, read if and only if the user has marked them since; and as many of them are unread as the
count says. -/
theorem inbox_shows (fromStr : String → Option Json.Value)
    (hparse : ∀ p : NotificationPayload, fromStr p.toJson = some p.toValue)
    (c d : Config) (as : List (Act Input Env))
    (hrows : c.shared.notification.rows = []) (hlog : c.log = []) (h : system.run c as = some d)
    (userId : ℤ) (limit? : Option UInt32) :
    ∃ pages rows, Visits (fun cursor =>
        notificationList fromStr d.shared.notification userId ⟨limit?, cursor⟩)
        (PaginationQuery.limit ⟨limit?, none⟩) (· > ·) d.shared.notification
        (fun r => r.cols.recipientUserId = userId) id (notificationItem fromStr) pages rows ∧
      (∀ item, item ∈ pages.flatten ↔ Shows d.log userId item) ∧
      unreadCount d.shared.notification userId =
        pages.flatten.countP fun item => !item.isRead := by
  obtain ⟨pages, rows, hvisits⟩ := exists_visits (PageQuery.limit_pos ⟨limit?, none⟩)
    (@finds_notificationList fromStr d.shared.notification userId limit?)
  have hshown : pages.flatten = rows.map (notificationItem fromStr) := by
    simpa using hvisits.shown
  refine ⟨pages, rows, hvisits, ?_, ?_⟩
  · intro item
    rw [hshown, List.mem_map, shows_iff hparse, ← run_rows hrows hlog h]
    simp only [hvisits.mem, decide_eq_true_eq, and_assoc]
  · have hnodup : rows.Nodup := hvisits.sorted.imp fun {r s} hgt heq => by
      rw [heq] at hgt
      exact lt_irrefl _ hgt
    exact unreadCount_eq hnodup hvisits.mem hshown

namespace NotificationPayload

def readField (s : List Char) : Option (Option String × List Char) :=
  match Json.unquote s with
  | some (text, r) => some (some text, r)
  | none => (s.dropPrefix? "null".toList).map fun r => (none, r)

/-- Reads the texts of payloads, as `from_str` does. -/
def read (text : String) : Option Json.Value := do
  let r ← text.toList.dropPrefix? ('\x7b' :: "\"summary\":".toList)
  let (summary, r) ← readField r
  let r ← r.dropPrefix? ",\"target_url\":".toList
  let (targetUrl, r) ← readField r
  if r = ['\x7d'] then some (toValue ⟨summary, targetUrl⟩) else none

theorem dropPrefix_append (s r : List Char) : (s ++ r).dropPrefix? s = some r :=
  List.dropPrefix?_append_of_beq r (beq_self_eq_true s)

theorem readField_fieldText {text : Option String} {r : List Char} :
    readField (fieldText text ++ r) = some (text, r) := by
  cases text with
  | none =>
    have hnone : Json.unquote ("null".toList ++ r) = none := rfl
    simp only [readField, fieldText, Option.elim_none, hnone, dropPrefix_append, Option.map_some]
  | some text =>
    have hread : Json.unquote (Json.quote text ++ r) = some (text, r) := Json.unquote_quote
    simp only [readField, fieldText, Option.elim_some, hread]

theorem toList_toJson (p : NotificationPayload) :
    p.toJson.toList = ('\x7b' :: "\"summary\":".toList) ++ fieldText p.summary ++
      (",\"target_url\":".toList ++ (fieldText p.targetUrl ++ ['\x7d'])) := by
  unfold toJson
  exact String.toList_ofList

theorem read_toJson (p : NotificationPayload) : read p.toJson = some p.toValue := by
  unfold read
  rw [toList_toJson, List.append_assoc, dropPrefix_append]
  simp only [Option.bind_eq_bind, Option.bind_some, readField_fieldText, dropPrefix_append, if_true]

end NotificationPayload

/-- Someone starts to follow user 7, and a correction by this user is approved. -/
def quiet : Config where
  shared :=
    { clock := 0
      notification := Table.empty
      settings := fun userId => if userId = 7 then some (.obj []) else none
      userRole := []
      correctionUser := [⟨3, 7, .Author⟩] }
  calls _ := .idle
  log := []

def twoNotifications : List (Act Input Env) :=
  [.call 0 (.create ⟨7, .NewFollower, .User, 8, ⟨some "Reimu started following you", none⟩⟩),
    .call 0 .ok, .call 0 .ok, .call 1 (.markRead 7 1), .env (.tick 5),
    .call 2 (.notifyCorrectionStatus 3 .CorrectionApproved (some "Your correction was approved")
      (some 7)), .call 2 .ok]

theorem inbox_shows_two : ∃ pages rows, Visits (fun cursor =>
      notificationList NotificationPayload.read
        (system.after quiet twoNotifications).shared.notification 7 ⟨none, cursor⟩)
      (PaginationQuery.limit ⟨none, none⟩) (· > ·)
      (system.after quiet twoNotifications).shared.notification
      (fun r => r.cols.recipientUserId = 7) id (notificationItem NotificationPayload.read) pages
      rows ∧
    (∀ item, item ∈ pages.flatten ↔ Shows (system.after quiet twoNotifications).log 7 item) ∧
    unreadCount (system.after quiet twoNotifications).shared.notification 7 =
      pages.flatten.countP fun item => !item.isRead :=
  inbox_shows NotificationPayload.read NotificationPayload.read_toJson quiet _ twoNotifications rfl
    rfl (System.run_after (by decide)) 7 none

end Thcdb.Notifications.Inbox
