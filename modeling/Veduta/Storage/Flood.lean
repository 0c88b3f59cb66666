import Veduta.Lib.Window
import Veduta.Storage.Outbox

/-!
# Flood control

What the outbox does over any sequence of committed writes, when the time columns are compared
as instants: a channel gets at most its ceiling of rows in any hour, nothing while it is
suspended, one report for each suspension, and no second row for a dedupe key that waits or is
within its cooldown.  A transaction that fails changes nothing and is not part of the sequence.
-/

namespace Veduta.Storage

open Go Lib

/-- A committed write of the outbox. -/
inductive OutboxWrite where
  /-- The alerts of one transaction. -/
  | enqueue (requests : List NotificationRequest)
  | claim (now : ℤ)
  | complete (id : ℕ)
  | fail (id : ℕ) (next : ℤ) (message : Bytes) (abandon : Bool)
  | reset
  deriving DecidableEq

/-- The tables after a write. -/
def OutboxWrite.apply (le : ℤ → ℤ → Bool) (t : Outbox) : OutboxWrite → Outbox
  | .enqueue requests => (t.enqueueAll le requests).1
  | .claim now => (t.claimNotification le now).1
  | .complete id => t.completeNotification id
  | .fail id next message abandon => t.failNotification id next message abandon
  | .reset => t.resetSendingNotifications

/-- The alerts of a write. -/
def OutboxWrite.requests : OutboxWrite → List NotificationRequest
  | .enqueue requests => requests
  | _ => []

namespace Outbox

/-- The tables after a sequence of writes to a new database. -/
def after (le : ℤ → ℤ → Bool) (writes : List OutboxWrite) : Outbox :=
  writes.foldl (OutboxWrite.apply le) .empty

def instantLe (t u : ℤ) : Bool := decide (t ≤ u)

/-- When the rows of a channel were inserted, in order. -/
def created (t : Outbox) (channel : Bytes) : List ℤ :=
  (t.rows.filter fun r => r.channel = channel).map OutboxRow.createdAt

/-- An event reports the suspension of a channel. -/
def isReport (channel : Bytes) (e : Event) : Bool :=
  e.type = ascii "notification.suspended" && e.data = .channel channel

/-- When the suspensions of a channel were reported, in order. -/
def reports (t : Outbox) (channel : Bytes) : List ℤ :=
  (t.events.filter (isReport channel)).map Event.timestamp

variable {t : Outbox} {channel : Bytes} {request : NotificationRequest}

theorem createdSince_instantLe (since : ℤ) :
    t.createdSince instantLe channel since = (t.created channel).countP fun x => since ≤ x := by
  rw [createdSince, created, List.countP_map, List.countP_filter]
  refine List.countP_congr fun r _ => ?_
  simp [instantLe, and_comm]

theorem le_of_not_isSuspended {now u : ℤ} (h : t.isSuspended channel now = false)
    (hu : t.suspendedUntil channel = some u) : u ≤ now := by
  rw [isSuspended, hu] at h
  exact not_lt.mp (of_decide_eq_false h)

theorem created_insertRow : (t.insertRow request).created channel =
    if request.channel = channel then t.created channel ++ [request.now]
    else t.created channel := by
  rw [created, insertRow, List.filter_append, List.map_append]
  split_ifs with h
  · simp [h, created]
  · simp [h, created]

theorem reports_suspend : (t.suspend request).reports channel =
    if request.channel = channel then t.reports channel ++ [request.now]
    else t.reports channel := by
  rw [reports, suspend, List.filter_append, List.map_append]
  split_ifs with h
  · simp [h, reports, isReport]
  · simp [h, reports, isReport]

theorem suspendedUntil_suspend : (t.suspend request).suspendedUntil channel =
    if request.channel = channel then some (request.now + hour)
    else t.suspendedUntil channel := by
  rw [suspendedUntil, suspend]
  split_ifs with h
  · rw [h, AList.lookup_insert]
    rfl
  · rw [AList.lookup_insert_ne (Ne.symm h)]
    rfl

end Outbox

/-! ## A channel with a fixed ceiling -/

/-- No hour holds more rows of the channel than its ceiling, and the channel is suspended for
an hour from each report, the last one first. -/
structure Paced (channel : Bytes) (p : ℕ) (t : Outbox) : Prop where
  windows : ∀ T, inWindow hour T (t.created channel) ≤ p
  spaced : Spaced hour (t.reports channel)
  suspended : t.suspendedUntil channel = (t.reports channel).getLast?.map (· + hour)

variable {channel : Bytes} {p : ℕ} {t : Outbox} {request : NotificationRequest}
variable {f : OutboxRow → OutboxRow} {le : ℤ → ℤ → Bool}

theorem paced_suspend (h : Paced channel p t)
    (hnot : t.isSuspended request.channel request.now = false) :
    Paced channel p (t.suspend request) where
  windows := h.windows
  spaced := by
    rw [Outbox.reports_suspend]
    split_ifs with hc
    · subst hc
      refine h.spaced.concat (by decide) fun z hz => ?_
      refine Outbox.le_of_not_isSuspended hnot ?_
      rw [h.suspended, hz]
      rfl
    · exact h.spaced
  suspended := by
    rw [Outbox.reports_suspend, Outbox.suspendedUntil_suspend]
    split_ifs with hc
    · simp
    · exact h.suspended

theorem paced_insertRow (h : Paced channel p t)
    (hroom : request.channel = channel →
      (t.created channel).countP (fun x => request.now - hour ≤ x) < p) :
    Paced channel p (t.insertRow request) where
  windows := by
    rw [Outbox.created_insertRow]
    split_ifs with hc
    · exact inWindow_concat_le h.windows (hroom hc)
    · exact h.windows
  spaced := h.spaced
  suspended := h.suspended

theorem paced_enqueueNotificationTx (hp : 1 ≤ p) (h : Paced channel p t)
    (hceiling : request.channel = channel → request.perHour = p) :
    Paced channel p (t.enqueueNotificationTx Outbox.instantLe request).1 := by
  rcases Outbox.enqueueNotificationTx_cases Outbox.instantLe t request with
    hsame | ⟨hnot, -, hsuspend⟩ | ⟨-, -, hroom, hinsert⟩
  · rw [hsame]
    exact h
  · rw [hsuspend]
    exact paced_suspend h hnot
  · rw [hinsert]
    refine paced_insertRow h fun hc => ?_
    rw [Outbox.createdSince_instantLe, Outbox.ceiling, hceiling hc, if_neg (by omega), hc] at hroom
    exact_mod_cast hroom

theorem paced_enqueueAll (hp : 1 ≤ p) {requests : List NotificationRequest}
    (h : Paced channel p t)
    (hceiling : ∀ r ∈ requests, r.channel = channel → r.perHour = p) :
    Paced channel p (t.enqueueAll Outbox.instantLe requests).1 := by
  induction requests generalizing t with
  | nil => exact h
  | cons request requests ih =>
    refine ih (paced_enqueueNotificationTx hp h ?_) ?_
    · exact hceiling request (List.mem_cons_self ..)
    · exact fun r hr => hceiling r (List.mem_cons_of_mem _ hr)

/-- What changes the delivery of rows keeps the channel as it is. -/
theorem paced_map (h : Paced channel p t) (hchannel : ∀ r, (f r).channel = r.channel)
    (hcreated : ∀ r, (f r).createdAt = r.createdAt) :
    Paced channel p { t with rows := t.rows.map f } where
  windows := by
    have hsame : Outbox.created { t with rows := t.rows.map f } channel = t.created channel := by
      simp only [Outbox.created, List.filter_map, List.map_map, Function.comp_def, hchannel,
        hcreated]
    rw [hsame]
    exact h.windows
  spaced := h.spaced
  suspended := h.suspended

theorem paced_update {id : ℕ} (h : Paced channel p t) (hchannel : ∀ r, (f r).channel = r.channel)
    (hcreated : ∀ r, (f r).createdAt = r.createdAt) : Paced channel p (t.update id f) := by
  refine paced_map h (fun r => ?_) (fun r => ?_)
  · split_ifs
    · exact hchannel r
    · rfl
  · split_ifs
    · exact hcreated r
    · rfl

theorem paced_apply (hp : 1 ≤ p) {w : OutboxWrite} (h : Paced channel p t)
    (hceiling : ∀ r ∈ w.requests, r.channel = channel → r.perHour = p) :
    Paced channel p (w.apply Outbox.instantLe t) := by
  cases w with
  | enqueue requests => exact paced_enqueueAll hp h hceiling
  | claim now =>
    simp only [OutboxWrite.apply, Outbox.claimNotification]
    cases t.rows.find? (Outbox.isDue Outbox.instantLe now) with
    | none => exact h
    | some r =>
      refine paced_update h (fun x => ?_) (fun x => ?_)
      · split_ifs <;> rfl
      · split_ifs <;> rfl
  | complete id => exact paced_update h (fun _ => rfl) (fun _ => rfl)
  | fail id next message abandon =>
    refine paced_update h (fun r => ?_) (fun r => ?_)
    · split_ifs <;> rfl
    · split_ifs <;> rfl
  | reset =>
    refine paced_map h (fun r => ?_) (fun r => ?_)
    · split_ifs <;> rfl
    · split_ifs <;> rfl

theorem paced_foldl (hp : 1 ≤ p) {writes : List OutboxWrite} (h : Paced channel p t)
    (hceiling : ∀ w ∈ writes, ∀ r ∈ w.requests, r.channel = channel → r.perHour = p) :
    Paced channel p (writes.foldl (OutboxWrite.apply Outbox.instantLe) t) := by
  exact List.foldlRecOn writes _ h fun t ht w hw => paced_apply hp ht (hceiling w hw)

theorem paced_empty : Paced channel p .empty where
  windows _ := Nat.zero_le _
  spaced := List.Pairwise.nil
  suspended := rfl

/-! ## The bounds -/

theorem reports_prefix_enqueueNotificationTx (le : ℤ → ℤ → Bool) :
    t.reports channel <+: (t.enqueueNotificationTx le request).1.reports channel := by
  rcases Outbox.enqueueNotificationTx_cases le t request with
    hsame | ⟨-, -, hsuspend⟩ | ⟨-, -, -, hinsert⟩
  · rw [hsame]
  · rw [hsuspend, Outbox.reports_suspend]
    split_ifs
    · exact List.prefix_append _ _
    · exact List.prefix_rfl
  · rw [hinsert]
    exact List.prefix_rfl

theorem reports_prefix_enqueueAll (le : ℤ → ℤ → Bool) (requests : List NotificationRequest) :
    t.reports channel <+: (t.enqueueAll le requests).1.reports channel := by
  induction requests generalizing t with
  | nil => exact List.prefix_rfl
  | cons request requests ih => exact (reports_prefix_enqueueNotificationTx le).trans ih

theorem reports_prefix_foldl (le : ℤ → ℤ → Bool) (writes : List OutboxWrite) :
    t.reports channel <+: (writes.foldl (OutboxWrite.apply le) t).reports channel := by
  induction writes generalizing t with
  | nil => exact List.prefix_rfl
  | cons w writes ih =>
    refine List.IsPrefix.trans ?_ ih
    cases w with
    | enqueue requests => exact reports_prefix_enqueueAll le requests
    | claim now =>
      simp only [OutboxWrite.apply, Outbox.claimNotification]
      cases t.rows.find? (Outbox.isDue le now) with
      | none | some => exact List.prefix_rfl
    | complete | fail | reset => exact List.prefix_rfl

theorem Paced.reported (h : Paced channel p t) {u : ℤ} (hu : t.suspendedUntil channel = some u) :
    u - hour ∈ t.reports channel := by
  rw [h.suspended] at hu
  obtain ⟨x, hx, rfl⟩ := Option.map_eq_some_iff.mp hu
  rw [Int.add_sub_cancel]
  exact List.mem_of_getLast? hx

theorem not_isSuspended_of_inserted (h : (t.enqueueNotificationTx le request).1.rows ≠ t.rows) :
    t.isSuspended request.channel request.now = false := by
  rcases Outbox.enqueueNotificationTx_cases le t request with
    hsame | ⟨-, -, hsuspend⟩ | ⟨hnot, -, -, -⟩
  · rw [hsame] at h
    exact absurd rfl h
  · rw [hsuspend] at h
    exact absurd rfl h
  · exact hnot

/-- A row is inserted only for a dedupe key without a row that waits or is recent. -/
theorem not_recent_of_inserted (hcooldown : 0 < request.cooldown) (hkey : request.dedupeKey ≠ [])
    (h : (t.enqueueNotificationTx le request).1.rows ≠ t.rows) {r : OutboxRow} (hr : r ∈ t.rows)
    (hrow : r.dedupeKey = some request.dedupeKey) :
    r.isActive = false ∧ le (request.now - request.cooldown) r.createdAt = false := by
  rcases Outbox.enqueueNotificationTx_cases le t request with
    hsame | ⟨-, -, hsuspend⟩ | ⟨-, hrecent, -, -⟩
  · rw [hsame] at h
    exact absurd rfl h
  · rw [hsuspend] at h
    exact absurd rfl h
  · have hzero : t.recent le request.dedupeKey (request.now - request.cooldown) = 0 := by
      simpa [Outbox.isRecent, hcooldown, hkey] using hrecent
    have := List.countP_eq_zero.mp hzero r hr
    simpa [hrow] using this

/-- **Flood control.**  Over every sequence of writes in which the alerts of a channel have the
ceiling `p`, with time columns compared as instants: no closed hour holds more than `p` rows of
the channel, and every suspension has exactly one report before it ends.  A row is never
inserted while its channel is suspended, nor for a dedupe key with a cooldown of which a row
waits or was created within the cooldown. -/
theorem flood_control (channel : Bytes) {p : ℕ} (hp : 1 ≤ p) (writes : List OutboxWrite)
    (hceiling : ∀ w ∈ writes, ∀ r ∈ w.requests, r.channel = channel → r.perHour = p) :
    (∀ T, inWindow hour T ((Outbox.after Outbox.instantLe writes).created channel) ≤ p) ∧
    (∀ earlier later u, writes = earlier ++ later →
      (Outbox.after Outbox.instantLe earlier).suspendedUntil channel = some u →
      (((Outbox.after Outbox.instantLe writes).reports channel).countP
        fun x => u - hour ≤ x ∧ x < u) = 1) ∧
    (∀ (t : Outbox) (request : NotificationRequest),
      (t.enqueueNotificationTx Outbox.instantLe request).1.rows ≠ t.rows →
      t.isSuspended request.channel request.now = false ∧
      (0 < request.cooldown → request.dedupeKey ≠ [] → ∀ r ∈ t.rows,
        r.dedupeKey = some request.dedupeKey →
          r.isActive = false ∧ r.createdAt < request.now - request.cooldown)) := by
  have hpaced : Paced channel p (Outbox.after Outbox.instantLe writes) :=
    paced_foldl hp paced_empty hceiling
  refine ⟨hpaced.windows, fun earlier later u hwrites hu => ?_, fun t request hrows => ⟨?_, ?_⟩⟩
  · have hearlier : Paced channel p (Outbox.after Outbox.instantLe earlier) := by
      refine paced_foldl hp paced_empty fun w hw => hceiling w ?_
      rw [hwrites]
      exact List.mem_append_left _ hw
    have hstays : (Outbox.after Outbox.instantLe earlier).reports channel <+:
        (Outbox.after Outbox.instantLe writes).reports channel := by
      rw [hwrites, Outbox.after, Outbox.after, List.foldl_append]
      exact reports_prefix_foldl _ later
    have hone := countP_of_spaced (by decide) hpaced.spaced (hstays.subset (hearlier.reported hu))
    rwa [Int.sub_add_cancel] at hone
  · exact not_isSuspended_of_inserted hrows
  · intro hcooldown hkey r hr hrow
    obtain ⟨hactive, hold⟩ := not_recent_of_inserted hcooldown hkey hrows hr hrow
    exact ⟨hactive, not_le.mp (of_decide_eq_false hold)⟩

/-- An alert of a rule to a channel with a ceiling of one. -/
def cpuAlert (event : Bytes) (now : ℤ) : NotificationRequest :=
  ⟨ascii "ntfy", ascii "ntfy:cpu:" ++ event, ascii "\x7b\x7d", now, minute, 1⟩

/-- Two alerts a second apart: the second one suspends the channel. -/
theorem flood_control_two_alerts :
    (Outbox.after Outbox.instantLe [.enqueue [cpuAlert (ascii "fired") newYear],
      .enqueue [cpuAlert (ascii "resolved") (newYear + second)]]).suspendedUntil (ascii "ntfy") =
        some (newYear + second + hour) ∧
    (((Outbox.after Outbox.instantLe [.enqueue [cpuAlert (ascii "fired") newYear],
      .enqueue [cpuAlert (ascii "resolved") (newYear + second)]]).reports (ascii "ntfy")).countP
        fun x => newYear + second + hour - hour ≤ x ∧ x < newYear + second + hour) = 1 := by
  refine ⟨?suspended, (flood_control (ascii "ntfy") (p := 1) (by decide) _ ?_).2.1 _ [] _
    (by simp) ?suspended⟩ <;> decide +kernel

end Veduta.Storage
