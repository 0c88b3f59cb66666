import Veduta.Go.JsonWrite
import Veduta.Go.Map
import Veduta.Storage.Times

/-!
# The notification outbox

Package `storage`, for the tables `notifications`, `notification_channel_state` and `events`.
An alert becomes a row of the outbox unless its channel is suspended, its dedupe key is recent
or the channel has reached its hourly ceiling; reaching the ceiling suspends the channel for an
hour and leaves an event.  A row is claimed before it is sent and settled after.

A time column is the instant it is the text of.  The comparison of two time columns in SQL is a
parameter: `storedLe` is the one of the database, by text.
-/

namespace Veduta.Storage

open Go

/-- What the events of the core carry as data. -/
inductive EventData where
  /-- The channel that was suspended. -/
  | channel (id : Bytes)
  /-- A rule that fired or was resolved, with its channels. -/
  | rule (id : Bytes) (notify : List Bytes)
  /-- A rule and the signals of the wrong type. -/
  | signals (rule : Bytes) (names : List Bytes)
  deriving DecidableEq

/-- The data as JSON, with the keys in order; a slice without elements is nil. -/
def EventData.json : EventData → JVal
  | .channel id => .obj [(ascii "channel", .str id)]
  | .rule id notify =>
    .obj [(ascii "notify", if notify = [] then .null else .arr (notify.map .str)),
      (ascii "rule", .str id)]
  | .signals id names =>
    .obj [(ascii "rule", .str id), (ascii "signals", .arr (names.map .str))]

/-- One event of the runtime, as far as the core writes them. -/
structure Event where
  timestamp : ℤ
  type : Bytes
  severity : Bytes
  source : Bytes
  message : Bytes
  data : EventData
  deriving DecidableEq

/-- The checks before an event is written.  The data is the output of `json.Marshal`, which is
valid JSON, and the timestamp is set. -/
def validateEvent (e : Event) : Bool :=
  !(e.type = [] || e.severity = []) &&
    !(decide (64 * 1024 < e.data.json.write.length) || decide (4096 < e.message.length))

/-- The column `state` of `notifications`. -/
inductive DeliveryState where
  | pending
  | sending
  | sent
  | abandoned
  deriving DecidableEq

/-- A row of `notifications`. -/
structure OutboxRow where
  id : ℕ
  createdAt : ℤ
  channel : Bytes
  dedupeKey : Option Bytes
  payload : Bytes
  state : DeliveryState
  attempts : ℕ
  nextAttemptAt : Option ℤ
  lastError : Option Bytes
  deriving DecidableEq

/-- The states that the unique index on the dedupe key covers. -/
def OutboxRow.isActive (r : OutboxRow) : Bool := r.state = .pending || r.state = .sending

/-- A row of `notification_channel_state`. -/
structure Suspension where
  suspendedUntil : Option ℤ
  suspensionReportedAt : Option ℤ
  deriving DecidableEq

/-- The tables, with the rows of the outbox in the order of their ids. -/
structure Outbox where
  rows : List OutboxRow
  nextId : ℕ
  channels : GoMap Bytes Suspension
  events : List Event

def Outbox.empty : Outbox := ⟨[], 1, ∅, []⟩

/-- One item of the outbox, as it is claimed. -/
structure Notification where
  id : ℕ
  channel : Bytes
  payload : Bytes
  attempts : ℕ
  deriving DecidableEq

/-- One insertion into the outbox. -/
structure NotificationRequest where
  channel : Bytes
  dedupeKey : Bytes
  payload : Bytes
  now : ℤ
  cooldown : ℤ
  perHour : ℤ
  deriving DecidableEq

namespace Outbox

/-! ## Alerts -/

variable (le : ℤ → ℤ → Bool) (t : Outbox)

/-- The end of the last suspension of a channel. -/
def suspendedUntil (channel : Bytes) : Option ℤ :=
  (t.channels.lookup channel).bind Suspension.suspendedUntil

/-- A channel takes no alert before the end of its suspension. -/
def isSuspended (channel : Bytes) (now : ℤ) : Bool :=
  match t.suspendedUntil channel with
  | some u => decide (now < u)
  | none => false

/-- The rows of a dedupe key that still wait or were created since. -/
def recent (key : Bytes) (since : ℤ) : ℕ :=
  t.rows.countP fun r => r.dedupeKey = some key && (r.isActive || le since r.createdAt)

def createdSince (channel : Bytes) (since : ℤ) : ℕ :=
  t.rows.countP fun r => r.channel = channel && le since r.createdAt

/-- The hourly ceiling, by default twenty. -/
def ceiling (request : NotificationRequest) : ℤ :=
  if request.perHour ≤ 0 then 20 else request.perHour

/-- An empty text is NULL. -/
def nullString (s : Bytes) : Option Bytes := if s = [] then none else some s

/-- The row of an alert, to be sent at once. -/
def insertRow (request : NotificationRequest) : Outbox :=
  { t with
    rows := t.rows ++ [⟨t.nextId, request.now, request.channel, nullString request.dedupeKey,
      request.payload, .pending, 0, some request.now, none⟩]
    nextId := t.nextId + 1 }

/-- `INSERT OR IGNORE`: two rows that wait cannot have the same dedupe key. -/
def insertOrIgnore (request : NotificationRequest) : Outbox × Bool :=
  if t.rows.any fun r => r.isActive && r.dedupeKey.isSome &&
      decide (r.dedupeKey = nullString request.dedupeKey) then (t, false)
  else (t.insertRow request, true)

/-- Suspending a channel for an hour, with the event that reports it. -/
def suspend (request : NotificationRequest) : Outbox :=
  { t with
    channels := t.channels.insert request.channel ⟨some (request.now + hour), some request.now⟩
    events := t.events ++ [⟨request.now, ascii "notification.suspended", ascii "warning",
      ascii "notifications",
      ascii "Notification channel suspended after reaching its hourly ceiling",
      .channel request.channel⟩] }

/-- The cooldown of a dedupe key. -/
def isRecent (request : NotificationRequest) : Bool :=
  decide (0 < request.cooldown) && request.dedupeKey != [] &&
    decide (0 < t.recent le request.dedupeKey (request.now - request.cooldown))

/-- One alert in a transaction: whether a row was inserted, and whether the channel was
suspended. -/
def enqueueNotificationTx (request : NotificationRequest) : Outbox × Bool × Bool :=
  if t.isSuspended request.channel request.now then (t, false, false)
  else if t.isRecent le request then (t, false, false)
  else if ceiling request ≤ t.createdSince le request.channel (request.now - hour) then
    (t.suspend request, false, true)
  else
    let (t, inserted) := t.insertOrIgnore request
    (t, inserted, false)

/-- **The three things an alert can do**: nothing, suspend its channel, or insert a row. -/
theorem enqueueNotificationTx_cases (request : NotificationRequest) :
    t.enqueueNotificationTx le request = (t, false, false) ∨
    (t.isSuspended request.channel request.now = false ∧
      ceiling request ≤ t.createdSince le request.channel (request.now - hour) ∧
      t.enqueueNotificationTx le request = (t.suspend request, false, true)) ∨
    (t.isSuspended request.channel request.now = false ∧ t.isRecent le request = false ∧
      t.createdSince le request.channel (request.now - hour) < ceiling request ∧
      t.enqueueNotificationTx le request = (t.insertRow request, true, false)) := by
  rw [enqueueNotificationTx]
  by_cases hsuspended : t.isSuspended request.channel request.now = true
  · exact .inl (by rw [if_pos hsuspended])
  by_cases hrecent : t.isRecent le request = true
  · exact .inl (by rw [if_neg hsuspended, if_pos hrecent])
  rw [if_neg hsuspended, if_neg hrecent]
  rw [Bool.not_eq_true] at hsuspended hrecent
  by_cases hceiling : ceiling request ≤ t.createdSince le request.channel (request.now - hour)
  · exact .inr (.inl ⟨hsuspended, hceiling, by rw [if_pos hceiling]⟩)
  · rw [if_neg hceiling, insertOrIgnore]
    by_cases hactive : (t.rows.any fun r => r.isActive && r.dedupeKey.isSome &&
        decide (r.dedupeKey = nullString request.dedupeKey)) = true
    · exact .inl (by rw [if_pos hactive])
    · exact .inr (.inr ⟨hsuspended, hrecent, not_le.mp hceiling, by rw [if_neg hactive]⟩)

/-- The alerts of one transaction, and whether one of them was inserted. -/
def enqueueAll : Outbox → List NotificationRequest → Outbox × Bool
  | t, [] => (t, false)
  | t, request :: requests =>
    let (t, enqueued, _) := t.enqueueNotificationTx le request
    let (t, wake) := enqueueAll t requests
    (t, enqueued || wake)

theorem enqueueAll_cons (request : NotificationRequest) (requests : List NotificationRequest) :
    (t.enqueueAll le (request :: requests)).1 =
      ((t.enqueueNotificationTx le request).1.enqueueAll le requests).1 :=
  rfl

/-- Changing the rows with an id. -/
def update (id : ℕ) (f : OutboxRow → OutboxRow) : Outbox :=
  { t with rows := t.rows.map fun r => if r.id = id then f r else r }

/-- Crash-interrupted claims become eligible again. -/
def resetSendingNotifications : Outbox :=
  { t with rows := t.rows.map fun r =>
      if r.state = .sending then { r with state := .pending } else r }

/-- A row that waits and whose time has come. -/
def isDue (now : ℤ) (r : OutboxRow) : Bool :=
  r.state = .pending &&
    match r.nextAttemptAt with
    | none => true
    | some next => le next now

/-- Claiming the oldest item that is due. -/
def claimNotification (now : ℤ) : Outbox × Option Notification :=
  match t.rows.find? (isDue le now) with
  | none => (t, none)
  | some r =>
    (t.update r.id fun x =>
      if x.state = .pending then { x with state := .sending, attempts := r.attempts + 1 } else x,
      some ⟨r.id, r.channel, r.payload, r.attempts + 1⟩)

/-- A delivery that succeeded. -/
def completeNotification (id : ℕ) : Outbox :=
  t.update id fun r => { r with state := .sent, nextAttemptAt := none, lastError := none }

/-- A delivery that failed, for good or until the next attempt. -/
def failNotification (id : ℕ) (next : ℤ) (message : Bytes) (abandon : Bool) : Outbox :=
  t.update id fun r =>
    if abandon then
      { r with state := .abandoned, nextAttemptAt := none, lastError := some message }
    else { r with state := .pending, nextAttemptAt := some next, lastError := some message }

end Outbox

end Veduta.Storage
