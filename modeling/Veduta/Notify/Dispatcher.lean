import Veduta.Go.JsonCodec
import Veduta.Lib.Transition
import Veduta.Storage.Flood

/-!
# The notification dispatcher

Package `notify`, for the dispatcher that drains the outbox.  `RunOnce` claims one row in a
transaction of its own, sends it, and then writes what came of it; `Run` resets the claims that
a crash interrupted, once, before it begins.  The answer of a transport, the clock and the fate
of each write are part of the event.

A row that is claimed and whose last write fails stays claimed: no later `RunOnce` takes it up,
and its dedupe key goes on to count as waiting.
-/

namespace Veduta.Notify

open Go Lib Storage

/-- The payload of a row. -/
structure Message where
  ruleID : Bytes
  event : Bytes
  severity : Bytes
  title : Bytes
  body : Bytes

def Message.struct : Struct Message := .of
  (.mk (fun s => (s.ruleID, s.event, s.severity, s.title, s.body, ()))
    fun (a, b, c, d, e, _) => ⟨a, b, c, d, e⟩)
  (.tag "ruleId" .str <|
   .tag "event" .str <|
   .tag "severity" .str <|
   .tag "title" .str <|
   .tag "body" .str .nil)

/-- `json.Unmarshal` into a message. -/
def Message.unmarshal (text : Bytes) : Option Message :=
  (unmarshalText text).bind (Message.struct.codec.decode Message.struct.zero)

/-- `json.Marshal` of a message. -/
def Message.marshal (m : Message) : Bytes := (Message.struct.codec.encode m).write

/-- The abuse controls of a channel; its transport is part of the events. -/
structure Channel where
  perHour : ℤ
  cooldown : ℤ
  deriving DecidableEq

def ruleMessage (ruleID event severity : Bytes) : Message :=
  ⟨ruleID, event, severity, ascii "Veduta rule " ++ event,
    ascii "Rule " ++ ruleID ++ ascii " " ++ event⟩

/-- One request for each channel of a rule, or the first channel that is not configured. -/
def prepareRuleAlert (channels : GoMap Bytes Channel) (ruleID event severity : Bytes)
    (channelIDs : List Bytes) (now : ℤ) : Except Bytes (List NotificationRequest) :=
  channelIDs.mapM fun id =>
    match channels.lookup id with
    | none => .error id
    | some channel =>
      .ok ⟨id, id ++ ascii ":" ++ ruleID ++ ascii ":" ++ event,
        (ruleMessage ruleID event severity).marshal, now, channel.cooldown, channel.perHour⟩

structure DispatcherConfig where
  maxAttempts : ℤ
  retryBase : ℤ

/-- The defaults of `NewDispatcher`. -/
def DispatcherConfig.withDefaults (c : DispatcherConfig) : DispatcherConfig where
  maxAttempts := if c.maxAttempts ≤ 0 then 5 else c.maxAttempts
  retryBase := if c.retryBase ≤ 0 then second else c.retryBase

/-- What a transport answers: an error has its text, and may be permanent. -/
inductive SendResult where
  | ok
  | error (message : Bytes) (permanent : Bool)

inductive Phase where
  /-- `Run` has not begun, or has returned. -/
  | stopped
  /-- Between two calls of `RunOnce`. -/
  | idle
  /-- In a call of `RunOnce`, with the row it has claimed. -/
  | delivering (item : Notification)
  deriving DecidableEq

structure Dispatcher where
  config : DispatcherConfig
  channels : GoMap Bytes Channel
  outbox : Outbox
  phase : Phase

/-- A new dispatcher over an empty database. -/
def Dispatcher.new (config : DispatcherConfig) (channels : GoMap Bytes Channel) : Dispatcher :=
  ⟨config.withDefaults, channels, .empty, .stopped⟩

/-- The base doubled once for each earlier attempt, up to an hour. -/
def doubled (base : ℤ) : ℕ → ℤ
  | 0 => base
  | n + 1 => if doubled base n < hour then doubled base n * 2 else doubled base n

/-- The delay after an attempt. -/
def retryDelay (base : ℤ) (attempts : ℕ) : ℤ := min (doubled base (attempts - 1)) hour

/-- The write at the end of `RunOnce`. -/
def Dispatcher.settle (d : Dispatcher) (item : Notification) (result : SendResult) (now : ℤ) :
    Outbox :=
  match Message.unmarshal item.payload, d.channels.lookup item.channel, result with
  | none, _, _ => d.outbox.failNotification item.id zeroTime (ascii "invalid outbox payload") true
  | some _, none, _ =>
    d.outbox.failNotification item.id zeroTime (ascii "channel is not configured") true
  | some _, some _, .ok => d.outbox.completeNotification item.id
  | some _, some _, .error message permanent =>
    d.outbox.failNotification item.id (now + retryDelay d.config.retryBase item.attempts) message
      (decide (d.config.maxAttempts ≤ item.attempts) || permanent)

/-- What happens to the dispatcher.  `written` says whether the transaction commits. -/
inductive Event where
  /-- `Run` begins, in a new process: the claims of the one before are reset. -/
  | start (written : Bool)
  /-- `RunOnce` claims a row that is due. -/
  | claim (now : ℤ) (written : Bool)
  /-- `RunOnce` has the answer of the transport and writes it. -/
  | finish (result : SendResult) (now : ℤ) (written : Bool)
  /-- A rule transition, or `Enqueue`, puts alerts into the outbox. -/
  | enqueue (requests : List NotificationRequest) (written : Bool)
  /-- The channels are replaced. -/
  | apply (channels : GoMap Bytes Channel)

variable (le : ℤ → ℤ → Bool)

/-- The dispatcher after an event, if it can happen. -/
def step (e : Event) (d : Dispatcher) : Option Dispatcher :=
  match e, d.phase with
  | .start true, _ => some { d with outbox := d.outbox.resetSendingNotifications, phase := .idle }
  | .start false, _ => some { d with phase := .stopped }
  | .claim now true, .idle =>
    match d.outbox.claimNotification le now with
    | (outbox, some item) => some { d with outbox, phase := .delivering item }
    | (_, none) => some d
  | .claim _ false, .idle => some d
  | .claim _ _, _ => none
  | .finish result now true, .delivering item =>
    some { d with outbox := d.settle item result now, phase := .idle }
  | .finish _ _ false, .delivering _ => some { d with phase := .idle }
  | .finish _ _ _, _ => none
  | .enqueue requests true, _ =>
    some { d with outbox := (d.outbox.enqueueAll le requests).1 }
  | .enqueue _ false, _ => some d
  | .apply channels, _ => some { d with channels }

/-- A row is to be retried at a time, or was delivered or given up. -/
def IsSettled (r : OutboxRow) : Prop :=
  (r.state = .pending ∧ r.nextAttemptAt.isSome = true) ∨ r.state = .sent ∨ r.state = .abandoned

/-- Every row is settled, and a dedupe key holds an alert back only for a row that is to be
retried or is within the cooldown. -/
structure Settled (t : Outbox) : Prop where
  rows : ∀ r ∈ t.rows, IsSettled r
  keys : ∀ request, t.isRecent le request = true → ∃ r ∈ t.rows,
    r.dedupeKey = some request.dedupeKey ∧
      ((r.state = .pending ∧ r.nextAttemptAt.isSome = true) ∨
        le (request.now - request.cooldown) r.createdAt = true)

def Dispatcher.atRest (d : Dispatcher) : Prop := ∀ item, d.phase ≠ .delivering item

/-- A claim is ended by a write that succeeds: the one of `RunOnce`, or the reset of the next
process if the claim was interrupted. -/
def Written (d : Dispatcher) (e : Event) (_ : Dispatcher) : Prop :=
  match e with
  | .finish _ _ written => written = true
  | .start written => written = true ∨ d.atRest
  | _ => True

variable {le}
variable {d d' : Dispatcher} {t : Outbox} {e : Event} {r : OutboxRow} {item : Notification}

theorem IsSettled.retried (h : IsSettled r) (hactive : r.state = .pending ∨ r.state = .sending) :
    r.state = .pending ∧ r.nextAttemptAt.isSome = true := by
  rcases h with hretried | hdone
  · exact hretried
  · rcases hdone with hstate | hstate <;> rw [hstate] at hactive <;> simp at hactive

theorem settled_of_rows (h : ∀ r ∈ t.rows, IsSettled r) : Settled le t where
  rows := h
  keys request hrecent := by
    simp only [Outbox.isRecent, Bool.and_eq_true, decide_eq_true_eq] at hrecent
    obtain ⟨r, hr, hcount⟩ := List.countP_pos_iff.mp hrecent.2
    simp only [Bool.and_eq_true, Bool.or_eq_true, decide_eq_true_eq, OutboxRow.isActive] at hcount
    refine ⟨r, hr, hcount.1, ?_⟩
    exact hcount.2.imp_left (h r hr).retried

/-- The row that is being sent is the one of the call in progress, and keeps its time. -/
structure Sound (d : Dispatcher) : Prop where
  rows : ∀ r ∈ d.outbox.rows, IsSettled r ∨ r.state = .sending ∧ r.nextAttemptAt.isSome = true ∧
    ∃ item, d.phase = .delivering item ∧ r.id = item.id
  claimed : ∀ item, d.phase = .delivering item →
    ∃ r ∈ d.outbox.rows, r.id = item.id ∧ r.state = .sending

theorem Sound.settled (h : Sound d) (hrest : d.atRest) : Settled le d.outbox := by
  refine settled_of_rows fun r hr => ?_
  rcases h.rows r hr with hsettled | ⟨-, -, item, hitem, -⟩
  · exact hsettled
  · exact absurd hitem (hrest item)

theorem not_settled_of_sending (hr : r ∈ t.rows) (hsending : r.state = .sending) :
    ¬Settled le t := by
  intro h
  have hpending := ((h.rows r hr).retried (.inr hsending)).1
  rw [hsending] at hpending
  cases hpending

theorem sound_new (config : DispatcherConfig) (channels : GoMap Bytes Channel) :
    Sound (.new config channels) where
  rows r hr := by cases hr
  claimed item hitem := by cases hitem

/-! ## One step -/

theorem mem_enqueueAll {requests : List NotificationRequest}
    (h : r ∈ (t.enqueueAll le requests).1.rows) : r ∈ t.rows ∨ IsSettled r := by
  induction requests generalizing t with
  | nil => exact .inl h
  | cons request requests ih =>
    rw [Outbox.enqueueAll_cons] at h
    rcases ih h with hr | hr
    · rcases Outbox.enqueueNotificationTx_cases le t request with
        hsame | ⟨-, -, hsuspend⟩ | ⟨-, -, -, hinsert⟩
      · rw [hsame] at hr
        exact .inl hr
      · rw [hsuspend] at hr
        exact .inl hr
      · rw [hinsert] at hr
        rcases List.mem_append.mp hr with hold | hnew
        · exact .inl hold
        · rw [List.mem_singleton.mp hnew]
          exact .inr (.inl ⟨rfl, rfl⟩)
    · exact .inr hr

theorem subset_enqueueAll (requests : List NotificationRequest) :
    t.rows ⊆ (t.enqueueAll le requests).1.rows := by
  induction requests generalizing t with
  | nil => exact List.Subset.refl _
  | cons request requests ih =>
    rw [Outbox.enqueueAll_cons]
    refine List.Subset.trans ?_ ih
    rcases Outbox.enqueueNotificationTx_cases le t request with
      hsame | ⟨-, -, hsuspend⟩ | ⟨-, -, -, hinsert⟩
    · rw [hsame]
      exact List.Subset.refl _
    · rw [hsuspend]
      exact List.Subset.refl _
    · rw [hinsert]
      exact List.subset_append_left _ _

theorem Sound.enqueue (h : Sound d) (requests : List NotificationRequest) :
    Sound { d with outbox := (d.outbox.enqueueAll le requests).1 } where
  rows r hr := by
    rcases mem_enqueueAll hr with hold | hnew
    · exact h.rows r hold
    · exact .inl hnew
  claimed item hitem := by
    obtain ⟨r, hr, hclaimed⟩ := h.claimed item hitem
    exact ⟨r, subset_enqueueAll requests hr, hclaimed⟩

theorem Sound.reset (h : Sound d) :
    Sound { d with outbox := d.outbox.resetSendingNotifications, phase := .idle } where
  rows x hx := by
    obtain ⟨r, hr, rfl⟩ := List.mem_map.mp hx
    rcases h.rows r hr with hsettled | ⟨hsending, hnext, -⟩
    · split_ifs with hstate
      · rcases hsettled with ⟨hpending, -⟩ | hsent | hgiven
        · rw [hstate] at hpending
          cases hpending
        · rw [hstate] at hsent
          cases hsent
        · rw [hstate] at hgiven
          cases hgiven
      · exact .inl hsettled
    · rw [if_pos hsending]
      exact .inl (.inl ⟨rfl, hnext⟩)
  claimed item hitem := by cases hitem

theorem exists_settle_eq (d : Dispatcher) (item : Notification) (result : SendResult) (now : ℤ) :
    ∃ f, d.settle item result now = d.outbox.update item.id f ∧ ∀ r, IsSettled (f r) := by
  have hfail : ∀ next message abandon, ∃ f,
      d.outbox.failNotification item.id next message abandon = d.outbox.update item.id f ∧
        ∀ r, IsSettled (f r) := by
    intro next message abandon
    refine ⟨_, rfl, fun r => ?_⟩
    cases abandon with
    | false => exact .inl ⟨rfl, rfl⟩
    | true => exact .inr (.inr rfl)
  unfold Dispatcher.settle
  split
  · exact hfail _ _ _
  · exact hfail _ _ _
  · exact ⟨_, rfl, fun r => .inr (.inl rfl)⟩
  · exact hfail _ _ _

theorem Sound.finish (h : Sound d) (hitem : d.phase = .delivering item) (result : SendResult)
    (now : ℤ) : Sound { d with outbox := d.settle item result now, phase := .idle } where
  rows x hx := by
    obtain ⟨f, hsettle, hf⟩ := exists_settle_eq d item result now
    simp only [hsettle] at hx
    obtain ⟨r, hr, rfl⟩ := List.mem_map.mp hx
    by_cases hid : r.id = item.id
    · rw [if_pos hid]
      exact .inl (hf r)
    · rw [if_neg hid]
      rcases h.rows r hr with hsettled | ⟨-, -, other, hother, hclaimed⟩
      · exact .inl hsettled
      · rw [hitem] at hother
        cases hother
        exact absurd hclaimed hid
  claimed other hother := by cases hother

theorem Sound.claim (h : Sound d) {now : ℤ} (hidle : d.phase = .idle)
    (hstep : step le (.claim now true) d = some d') : Sound d' := by
  have hsettled : ∀ r ∈ d.outbox.rows, IsSettled r := by
    intro r hr
    rcases h.rows r hr with hsettled | ⟨-, -, item, hitem, -⟩
    · exact hsettled
    · rw [hidle] at hitem
      cases hitem
  simp only [step, hidle, Outbox.claimNotification] at hstep
  cases hfind : d.outbox.rows.find? (Outbox.isDue le now) with
  | none =>
    rw [hfind] at hstep
    cases hstep
    exact h
  | some r =>
    rw [hfind] at hstep
    cases hstep
    have hmem := List.mem_of_find?_eq_some hfind
    have hpending : r.state = .pending := by
      have hdue := List.find?_some hfind
      rw [Outbox.isDue, Bool.and_eq_true, decide_eq_true_eq] at hdue
      exact hdue.1
    refine ⟨fun x hx => ?_, fun item hitem => ?_⟩
    · obtain ⟨y, hy, rfl⟩ := List.mem_map.mp hx
      by_cases hid : y.id = r.id
      · by_cases hstate : y.state = .pending
        · rw [if_pos hid]
          dsimp only
          rw [if_pos hstate]
          refine .inr ⟨rfl, ?_, _, rfl, hid⟩
          rcases hsettled y hy with ⟨-, hnext⟩ | hsent | hgiven
          · exact hnext
          · rw [hstate] at hsent
            cases hsent
          · rw [hstate] at hgiven
            cases hgiven
        · rw [if_pos hid]
          dsimp only
          rw [if_neg hstate]
          exact .inl (hsettled y hy)
      · rw [if_neg hid]
        exact .inl (hsettled y hy)
    · cases hitem
      refine ⟨_, List.mem_map.mpr ⟨r, hmem, rfl⟩, ?_, ?_⟩
      · simp [hpending]
      · simp [hpending]

theorem iff_of_sound (h : Sound d') (hwritten : Written d e d') :
    ((d'.atRest → Settled le d'.outbox) ↔ Written d e d') ∧ (Written d e d' → Sound d') :=
  ⟨iff_of_true h.settled hwritten, fun _ => h⟩

theorem iff_of_claimed (h : Sound d) (hitem : d.phase = .delivering item)
    (houtbox : d'.outbox = d.outbox) (hrest : d'.atRest) (hwritten : ¬Written d e d') :
    ((d'.atRest → Settled le d'.outbox) ↔ Written d e d') ∧ (Written d e d' → Sound d') := by
  obtain ⟨r, hr, -, hsending⟩ := h.claimed item hitem
  refine ⟨iff_of_false (fun hsettled => ?_) hwritten, fun hw => absurd hw hwritten⟩
  exact not_settled_of_sending (houtbox ▸ hr) hsending (hsettled hrest)

/-- **One step.**  From a sound dispatcher, the outbox is settled after a step exactly if the
step ends its claim by a write that succeeds, and then the dispatcher is sound again. -/
theorem sound_step (h : Sound d) (hstep : step le e d = some d') :
    ((d'.atRest → Settled le d'.outbox) ↔ Written d e d') ∧ (Written d e d' → Sound d') := by
  cases e with
  | start written =>
    cases written with
    | true =>
      cases hstep
      exact iff_of_sound h.reset (.inl rfl)
    | false =>
      cases hstep
      by_cases hrest : d.atRest
      · refine iff_of_sound ⟨fun r hr => ?_, fun item hitem => by cases hitem⟩ (.inr hrest)
        rcases h.rows r hr with hsettled | ⟨-, -, item, hitem, -⟩
        · exact .inl hsettled
        · exact absurd hitem (hrest item)
      · obtain ⟨item, hitem⟩ := not_forall_not.mp hrest
        exact iff_of_claimed h hitem rfl nofun (by simp [Written, hrest])
  | claim now written =>
    cases hphase : d.phase with
    | idle =>
      cases written with
      | true => exact iff_of_sound (h.claim hphase hstep) trivial
      | false =>
        simp only [step, hphase] at hstep
        cases hstep
        exact iff_of_sound h trivial
    | stopped | delivering =>
      cases written <;> simp [step, hphase] at hstep
  | finish result now written =>
    cases hphase : d.phase with
    | delivering item =>
      cases written with
      | true =>
        simp only [step, hphase] at hstep
        cases hstep
        exact iff_of_sound (h.finish hphase result now) rfl
      | false =>
        simp only [step, hphase] at hstep
        cases hstep
        exact iff_of_claimed h hphase rfl nofun nofun
    | stopped | idle =>
      cases written <;> simp [step, hphase] at hstep
  | enqueue requests written =>
    cases written with
    | true =>
      cases hstep
      exact iff_of_sound (h.enqueue requests) trivial
    | false =>
      cases hstep
      exact iff_of_sound h trivial
  | apply channels =>
    cases hstep
    exact iff_of_sound ⟨h.rows, h.claimed⟩ trivial

/-- **No row is left claimed.**  In every run of a dispatcher over a new database, the outbox is
settled whenever no `RunOnce` is in progress exactly if every claim is ended by a write that
succeeds. -/
theorem settled_iff_written (le : ℤ → ℤ → Bool) (config : DispatcherConfig)
    (channels : GoMap Bytes Channel) (es : List Event) :
    Along (step le) (fun _ _ d => d.atRest → Settled le d.outbox) (.new config channels) es ↔
      Along (step le) Written (.new config channels) es := by
  refine along_iff (I := Sound) (fun h hstep => (sound_step h hstep).1) ?_ es (sound_new _ _)
  intro d e d' h hstep hsettled
  obtain ⟨hiff, hsound⟩ := sound_step h hstep
  exact hsound (hiff.mp hsettled)

/-- One channel without a cooldown of its own. -/
def ntfyChannels : GoMap Bytes Channel := GoMap.ofList [(ascii "ntfy", ⟨20, 15 * minute⟩)]

/-- The message is delivered, but the database is locked when that is to be written. -/
def lockedAtEnd : List Event :=
  [.start true, .enqueue [⟨ascii "ntfy", ascii "ntfy:cpu:fired",
      (ruleMessage (ascii "cpu") (ascii "fired") (ascii "warning")).marshal, newYear,
      15 * minute, 20⟩] true,
    .claim newYear true, .finish .ok newYear false]

/-- The row stays claimed, and a day later the next alert of the rule is dropped. -/
theorem claimed_row_is_lost :
    ((run (step storedLe) (.new ⟨0, 0⟩ ntfyChannels) lockedAtEnd).map fun d =>
      (d.phase, d.outbox.rows.map OutboxRow.state,
        (d.outbox.enqueueNotificationTx storedLe ⟨ascii "ntfy", ascii "ntfy:cpu:fired", [],
          newYear + 24 * hour, 15 * minute, 20⟩).2)) =
      some (.idle, [.sending], false, false) := by
  decide +kernel

end Veduta.Notify
