import Veduta.Scheduler.Manager

/-!
# Refreshing a card

`refresh`, `runShared` and `commitWithHistory`, which the loop of a card, `Refresh` and
`RefreshNow` all go through.  A refresh takes and releases the manager's lock several times, so
it is a sequence of actions on the manager, and a call is the stack frame between two of them.
What the environment decides is part of the action: how a run ends, what the history in the
store reads as, and whether the store fails.
-/

namespace Veduta.Scheduler

open Go Widgets Secrets State Storage

variable {R : Type}

def errSecretInDocument : RunErr :=
  ⟨.secretInDocument, ascii "scheduler: document contains a configured secret value"⟩

def errUnretainedSignal (signal : Bytes) : RunErr :=
  ⟨.unretainedSignal,
    ascii "scheduler: a series block binds a signal this operation does not retain: " ++
      quote signal⟩

def errChangedType (signal : Bytes) : RunErr :=
  ⟨.other, ascii "scheduler: historical signal " ++ signal ++ ascii " changed type"⟩

/-- One turn of the loop of `historicalValues`. -/
def historicalValue (signals : GoMap Bytes Signal) (values : GoMap Bytes ℚ) (name : Bytes) :
    Except RunErr (GoMap Bytes ℚ) :=
  match signals.lookup name with
  | none => .ok values
  | some signal =>
    match signal.value with
    | .null => .ok values
    | .num v => .ok (values.insert name v)
    | _ => .error (errChangedType name)

/-- The values of the historical signals that the document has. -/
def historicalValues (d : Definition R) (doc : Document) : Except RunErr (GoMap Bytes ℚ) :=
  d.historySignals.keys.foldlM (historicalValue (doc.signals.getD ∅)) ∅

/-- The length of a window; any other word stands for a day. -/
def historyWindow (window : Bytes) : ℤ :=
  if window = ascii "1h" then hour
  else if window = ascii "6h" then 6 * hour
  else if window = ascii "7d" then 7 * 24 * hour
  else 24 * hour

/-- The signals that a block binds. -/
def blockBindings : Block → List (Bytes × ℤ)
  | .series b => b.history.toList.flatMap fun h =>
    h.lines.elems.map fun line => (line.signal, historyWindow h.window)
  | _ => []

/-- `HistoryBindings`: the signals that a document binds, with their windows. -/
def historyBindings (doc : Document) : GoMap Bytes ℤ :=
  (doc.blocks.flatMap blockBindings).foldl (fun out p => out.insert p.1 p.2) ∅

/-- The checks that `refresh` makes on what a run returned: an error, or the samples. -/
def evaluate (secrets : Option Registry) (d : Definition R) (o : Outcome) :
    Except RunErr (GoMap Bytes ℚ) :=
  match o.err with
  | some e => .error e
  | none =>
    if Manager.documentLeaksSecret secrets (some o.doc) then .error errSecretInDocument
    else
      match historicalValues d o.doc with
      | .error e => .error e
      | .ok history =>
        match (historyBindings o.doc).keys.find? fun s => (d.historySignals.lookup s).isNone with
        | some signal => .error (errUnretainedSignal signal)
        | none => .ok history

/-- How long the document stays fresh: the hint may only shorten the interval. -/
def ttl (d : Definition R) (doc : Document) : ℤ :=
  let hinted := match doc.hints with
    | none => d.refresh
    | some hints =>
      let hint := (hints.ttlSeconds * second).bmod (2 ^ 64)
      if 0 < hints.ttlSeconds ∧ hint < d.refresh then hint else d.refresh
  max hinted second

/-- The state that a successful run commits. -/
def successState (now : ℤ) (d : Definition R) (o : Outcome) (bound : Option History) : CardState :=
  { ok now d.id o.doc d.source (ttl d o.doc) o.duration with history := bound }

/-- `classify`. -/
def classify : ErrorKind → Bytes
  | .deadlineExceeded | .canceled => errorTimeout
  | .secretInDocument | .unretainedSignal => errorInvalid
  | .runPanicked => errorInternal
  | .other => errorUpstream

/-- The loop of `backoff`: doubling, until an hour is reached. -/
def backoffLoop : ℕ → ℤ → ℤ
  | 0, base => base
  | n + 1, base => if base < hour then backoffLoop n (base * 2) else base

def backoff (n base : ℤ) : ℤ :=
  min (backoffLoop (n - 1).toNat (if base ≤ 0 then second else base)) hour

def RunErr.runError (e : RunErr) : RunError := ⟨classify e.kind, e.message, true, []⟩

/-- The state after a failure that leaves the circuit closed. -/
def failedState (now : ℤ) (d : Definition R) (previous : CardState) (failures : ℤ)
    (e : RunErr) : CardState :=
  let retry := now + backoff failures d.refresh
  match previous.document with
  | some doc =>
    { staleAfterError now d.id doc d.source (parseTime previous.execution.generatedAt) now
        failures retry e.runError with history := previous.history }
  | none =>
    let cs := State.error now d.id d.source e.runError
    { cs with execution :=
      { cs.execution with consecutiveFailures := failures, nextRunAt := formatTime retry } }

/-- When a circuit that opens now closes again. -/
def openTime (now : ℤ) (d : Definition R) (failures : ℤ) : ℤ :=
  now + min (5 * minute) (backoff failures d.refresh)

/-- The state after a failure that opens the circuit. -/
def openCircuitState (now : ℤ) (d : Definition R) (previous : CardState) (failures : ℤ)
    (e : RunErr) : CardState :=
  match previous.document with
  | some doc =>
    { staleAfterErrorWithOpenCircuit now d.id doc d.source
        (parseTime previous.execution.generatedAt) now failures (openTime now d failures)
        e.runError with history := previous.history }
  | none => errorWithOpenCircuit now d.id d.source e.runError (openTime now d failures)

inductive RefreshErr where
  | superseded
  | history
  | invalid (message : Bytes)
  | storage

/-- Where a refresh stands between two actions. -/
inductive Pc where
  | enter
  | join
  | wait
  | acquire
  | running (start : ℤ)
  | record
  | openCircuit (failures : ℤ) (previous : CardState) (e : RunErr)
  | commit (cs : CardState) (history : GoMap Bytes ℚ)
  | returned
  | sleeping (wake : ℤ)
  | woken
  | panicked

/-- A call of `refresh`, by the loop of a card if it is scheduled.  The context carries its
error once it is done; the flight, its outcome and the result are there once they are known. -/
structure Call (R : Type) where
  d : Definition R
  scheduled : Bool
  ctx : Option RunErr
  flight : Option ℕ
  outcome : Option Outcome
  result : Option (Option RefreshErr)
  pc : Pc

namespace Call

def start (d : Definition R) (scheduled : Bool) (ctx : Option RunErr) : Call R :=
  ⟨d, scheduled, ctx, none, none, none, .enter⟩

def answer (c : Call R) (err : Option RefreshErr) : Call R :=
  { c with result := some err, pc := .returned }

def resume (c : Call R) (o : Outcome) : Call R := { c with outcome := some o, pc := .record }

end Call

/-- The generation and the key of a definition. -/
def Definition.flightKey (d : Definition R) : Bytes :=
  formatNat d.generation ++ chr ':' :: (if d.key = [] then d.id else d.key)

/-- A call whose context is done returns the context's error. -/
def gaveUp (e : RunErr) : Outcome := ⟨zeroDocument, 0, some e⟩

/-! ## Actions -/

def maxWorkers : ℕ := 8

namespace Manager

/-- The definition is no longer the current one of its card. -/
def superseded (m : Manager R) (d : Definition R) : Bool :=
  match m.defs.lookup d.id with
  | none => true
  | some current => current.generation ≠ d.generation

def launch (m : Manager R) (d : Definition R) : Manager R :=
  { m with
    flights := m.flights.insert d.flightKey m.heap.length
    heap := m.heap ++ [⟨none⟩] }

/-- A flight ends: its key is free, and those who wait see the outcome. -/
def land (m : Manager R) (d : Definition R) (f : ℕ) (o : Outcome) : Manager R :=
  { m with flights := m.flights.erase d.flightKey, heap := m.heap.set f ⟨some o⟩ }

/-- A subscriber whose channel is full is dropped. -/
def notify (ev : StateEvent) (sub : Subscription) : Option Subscription :=
  if sub.queue.length < sub.buffer then some { sub with queue := sub.queue ++ [ev] } else none

/-- The end of a commit: the state is current, and the subscribers hear of it. -/
def publish (m : Manager R) (id : Bytes) (cs : CardState) : Manager R :=
  { m with
    states := m.states.insert id cs
    nextID := m.nextID + 1
    subs := m.subs.filterMap fun _ => notify ⟨m.nextID + 1, cs⟩ }

def succeed (m : Manager R) (id : Bytes) : Manager R :=
  { m with failures := m.failures.insert id 0, openUntil := m.openUntil.erase id }

def fail (m : Manager R) (id : Bytes) : Manager R :=
  { m with failures := m.failures.insert id (m.failureCount id + 1) }

def previous (m : Manager R) (id : Bytes) : CardState :=
  (m.states.lookup id).getD CardState.struct.zero

end Manager

/-- The first action: is the definition current, is the card enabled, is its circuit closed? -/
def check (now : ℤ) (m : Manager R) (c : Call R) : Call R :=
  if m.superseded c.d then c.answer (some .superseded)
  else if c.d.disabled ≠ [] then
    { c with pc := .commit (State.disabled c.d.id none c.d.disabled) ∅ }
  else if now < m.circuitOpen c.d.id then c.answer none
  else if c.d.run.isNone then
    { c with pc := .commit (State.disabled c.d.id none reasonConfigError) ∅ }
  else { c with pc := .join }

/-- Joining the flight of the key, or starting one. -/
def join (m : Manager R) (c : Call R) : Manager R × Call R :=
  match m.flights.lookup c.d.flightKey with
  | some f => (m, { c with flight := some f, pc := .wait })
  | none => (m.launch c.d, { c with flight := some m.heap.length, pc := .acquire })

/-- Where a call goes after a failure: from the third in a row on, the circuit opens. -/
def failedPc (now : ℤ) (m : Manager R) (d : Definition R) (e : RunErr) : Pc :=
  let failures := m.failureCount d.id + 1
  if 3 ≤ failures then .openCircuit failures (m.previous d.id) e
  else .commit (failedState now d (m.previous d.id) failures e) ∅

/-- Recording the outcome; `bound` is what the bound history reads as, `none` if that fails. -/
def record (now : ℤ) (m : Manager R) (c : Call R) (o : Outcome)
    (bound : Option (Option History)) : Manager R × Call R :=
  match evaluate m.secrets c.d o with
  | .ok history =>
    match bound with
    | none => (m, c.answer (some .history))
    | some bound =>
      (m.succeed c.d.id, { c with pc := .commit (successState now c.d o bound) history })
  | .error e => (m.fail c.d.id, { c with pc := failedPc now m c.d e })

/-- `commitWithHistory`; `stored` is whether the store accepts the write. -/
def commit (m : Manager R) (c : Call R) (cs : CardState) (history : GoMap Bytes ℚ)
    (stored : Bool) : Manager R × Option RefreshErr :=
  match cs.validate with
  | .error message => (m, some (.invalid message))
  | .ok () =>
    if m.superseded c.d then (m, some .superseded)
    else
      match m.store with
      | none => (m.publish c.d.id cs, none)
      | some s =>
        -- a transaction cannot begin once the context is done
        if stored = false ∨ c.ctx.isSome then (m, some .storage)
        else
          match s.putCardWithSignals ⟨c.d.identity, cs⟩ history with
          | .error _ => (m, some .storage)
          | .ok s => ({ m with store := some s }.publish c.d.id cs, none)

/-- FNV-1a, 32 bits. -/
def fnv32a (s : Bytes) : ℕ :=
  s.foldl (fun h b => (h ^^^ b.toNat) * 16777619 % 2 ^ 32) 2166136261

/-- A stable jitter of five percent. -/
def jitter (id : Bytes) (base : ℤ) : ℤ :=
  if base ≤ 0 then minute
  else (base + ((base * ((fnv32a id % 11 : ℕ) - 5)).bmod (2 ^ 64)).tdiv 100).bmod (2 ^ 64)

/-- When the loop of a card refreshes it again. -/
def wakeTime (now : ℤ) (m : Manager R) (d : Definition R) (result : Option RefreshErr) : ℤ :=
  let wait := jitter d.id d.refresh
  let next := parseTime (m.previous d.id).execution.nextRunAt
  let wait := if result.isNone ∧ next ≠ zeroTime ∧ next - now < wait then next - now else wait
  now + max wait 0

/-- One action of a refresh, with what the environment decides. -/
inductive Action where
  | check
  | join
  | await
  | giveUp
  | acquire
  | finish (doc : Document) (err : Option RunErr)
  | panic
  | record (bound : Option (Option History))
  | openCircuit
  | commit (stored : Bool)
  | sleep

/-- An action of a call, if the call can take it. -/
def act (now : ℤ) (m : Manager R) (c : Call R) : Action → Option (Manager R × Call R)
  | .check =>
    match c.pc with
    | .enter => some (m, check now m c)
    | _ => none
  | .join =>
    match c.pc with
    | .join => some (join m c)
    | _ => none
  | .await =>
    match c.pc, c.flight with
    | .wait, some f => (m.heap[f]?.bind Flight.outcome).map fun o => (m, c.resume o)
    | _, _ => none
  | .giveUp =>
    match c.pc, c.flight, c.ctx with
    | .wait, some _, some e => some (m, c.resume (gaveUp e))
    | .acquire, some f, some e => some (m.land c.d f (gaveUp e), c.resume (gaveUp e))
    | _, _, _ => none
  | .acquire =>
    match c.pc with
    | .acquire =>
      if m.workers < maxWorkers then
        some ({ m with workers := m.workers + 1 }, { c with pc := .running now })
      else none
    | _ => none
  | .finish doc err =>
    match c.pc, c.flight with
    | .running start, some f =>
      let o : Outcome := ⟨doc, now - start, err⟩
      some ({ m with workers := m.workers - 1 }.land c.d f o, c.resume o)
    | _, _ => none
  | .panic =>
    -- in the loop of a card nothing recovers, and the process ends
    match c.pc, c.flight, c.scheduled with
    | .running _, some f, false =>
      some ({ m with workers := m.workers - 1 }.land c.d f ⟨zeroDocument, 0, none⟩,
        { c with pc := .panicked })
    | _, _, _ => none
  | .record bound =>
    match c.pc, c.outcome with
    | .record, some o => some (record now m c o bound)
    | _, _ => none
  | .openCircuit =>
    match c.pc with
    | .openCircuit failures previous e =>
      some ({ m with openUntil := m.openUntil.insert c.d.id (openTime now c.d failures) },
        { c with pc := .commit (openCircuitState now c.d previous failures e) ∅ })
    | _ => none
  | .commit stored =>
    match c.pc with
    | .commit cs history =>
      let (m', err) := commit m c cs history stored
      some (m', c.answer err)
    | _ => none
  | .sleep =>
    match c.pc, c.scheduled, c.result with
    | .returned, true, some result =>
      some (m, { c with pc := .sleeping (wakeTime now m c.d result) })
    | _, _, _ => none

/-! ## What an action can do -/

/-- The actions of a call, each with what it needs and what it leaves. -/
inductive Acted (now : ℤ) (m : Manager R) (c : Call R) : Action → Manager R → Call R → Prop
  | check (hpc : c.pc = .enter) : Acted now m c .check m (check now m c)
  | board {f : ℕ} (hpc : c.pc = .join) (hkey : m.flights.lookup c.d.flightKey = some f) :
      Acted now m c .join m { c with flight := some f, pc := .wait }
  | launch (hpc : c.pc = .join) (hkey : m.flights.lookup c.d.flightKey = none) :
      Acted now m c .join (m.launch c.d) { c with flight := some m.heap.length, pc := .acquire }
  | await {f : ℕ} {o : Outcome} (hpc : c.pc = .wait) (hflight : c.flight = some f)
      (hdone : m.heap[f]? = some ⟨some o⟩) : Acted now m c .await m (c.resume o)
  | giveUpWaiting {f : ℕ} {e : RunErr} (hpc : c.pc = .wait) (hflight : c.flight = some f)
      (hctx : c.ctx = some e) : Acted now m c .giveUp m (c.resume (gaveUp e))
  | giveUpAcquiring {f : ℕ} {e : RunErr} (hpc : c.pc = .acquire) (hflight : c.flight = some f)
      (hctx : c.ctx = some e) :
      Acted now m c .giveUp (m.land c.d f (gaveUp e)) (c.resume (gaveUp e))
  | acquire (hpc : c.pc = .acquire) (hfree : m.workers < maxWorkers) :
      Acted now m c .acquire { m with workers := m.workers + 1 } { c with pc := .running now }
  | finish {start : ℤ} {f : ℕ} {doc : Document} {err : Option RunErr} (hpc : c.pc = .running start)
      (hflight : c.flight = some f) :
      Acted now m c (.finish doc err)
        ({ m with workers := m.workers - 1 }.land c.d f ⟨doc, now - start, err⟩)
        (c.resume ⟨doc, now - start, err⟩)
  | panic {start : ℤ} {f : ℕ} (hpc : c.pc = .running start) (hflight : c.flight = some f)
      (hcall : c.scheduled = false) :
      Acted now m c .panic
        ({ m with workers := m.workers - 1 }.land c.d f ⟨zeroDocument, 0, none⟩)
        { c with pc := .panicked }
  | unread {o : Outcome} {history : GoMap Bytes ℚ} (hpc : c.pc = .record)
      (hout : c.outcome = some o) (heval : evaluate m.secrets c.d o = .ok history) :
      Acted now m c (.record none) m (c.answer (some .history))
  | succeed {o : Outcome} {history : GoMap Bytes ℚ} {bound : Option History}
      (hpc : c.pc = .record) (hout : c.outcome = some o)
      (heval : evaluate m.secrets c.d o = .ok history) :
      Acted now m c (.record (some bound)) (m.succeed c.d.id)
        { c with pc := .commit (successState now c.d o bound) history }
  | fail {o : Outcome} {e : RunErr} {bound : Option (Option History)} (hpc : c.pc = .record)
      (hout : c.outcome = some o) (heval : evaluate m.secrets c.d o = .error e) :
      Acted now m c (.record bound) (m.fail c.d.id) { c with pc := failedPc now m c.d e }
  | openCircuit {failures : ℤ} {previous : CardState} {e : RunErr}
      (hpc : c.pc = .openCircuit failures previous e) :
      Acted now m c .openCircuit
        { m with openUntil := m.openUntil.insert c.d.id (openTime now c.d failures) }
        { c with pc := .commit (openCircuitState now c.d previous failures e) ∅ }
  | commit {cs : CardState} {history : GoMap Bytes ℚ} {stored : Bool}
      (hpc : c.pc = .commit cs history) :
      Acted now m c (.commit stored) (commit m c cs history stored).1
        (c.answer (commit m c cs history stored).2)
  | sleep {result : Option RefreshErr} (hpc : c.pc = .returned) (hcall : c.scheduled = true)
      (hresult : c.result = some result) :
      Acted now m c .sleep m { c with pc := .sleeping (wakeTime now m c.d result) }

/-- **What an action can do.** -/
theorem acted_of_act {now : ℤ} {m m' : Manager R} {c c' : Call R} {a : Action}
    (h : act now m c a = some (m', c')) : Acted now m c a m' c' := by
  cases a with
  | check =>
    simp only [act] at h
    split at h
    · cases h
      exact .check ‹_›
    · cases h
  | join =>
    simp only [act, join] at h
    split at h
    · split at h
      · cases h
        exact .board ‹_› ‹_›
      · cases h
        exact .launch ‹_› ‹_›
    · cases h
  | await =>
    simp only [act] at h
    split at h
    · rename_i f hpc hflight
      obtain ⟨o, ho, heq⟩ := Option.map_eq_some_iff.mp h
      obtain ⟨⟨_⟩, hf, rfl⟩ := Option.bind_eq_some_iff.mp ho
      cases heq
      exact .await hpc hflight hf
    · cases h
  | giveUp =>
    simp only [act] at h
    split at h
    · cases h
      exact .giveUpWaiting ‹_› ‹_› ‹_›
    · cases h
      exact .giveUpAcquiring ‹_› ‹_› ‹_›
    · cases h
  | acquire =>
    simp only [act] at h
    split at h
    · split_ifs at h
      cases h
      exact .acquire ‹_› ‹_›
    · cases h
  | finish doc err =>
    simp only [act] at h
    split at h
    · cases h
      exact .finish ‹_› ‹_›
    · cases h
  | panic =>
    simp only [act] at h
    split at h
    · cases h
      exact .panic ‹_› ‹_› ‹_›
    · cases h
  | record bound =>
    simp only [act, record] at h
    split at h
    · split at h
      · split at h
        · cases h
          exact .unread ‹_› ‹_› ‹_›
        · cases h
          exact .succeed ‹_› ‹_› ‹_›
      · cases h
        exact .fail ‹_› ‹_› ‹_›
    · cases h
  | openCircuit =>
    simp only [act] at h
    split at h
    · cases h
      exact .openCircuit ‹_›
    · cases h
  | commit stored =>
    simp only [act] at h
    split at h
    · cases h
      exact .commit ‹_›
    · cases h
  | sleep =>
    simp only [act] at h
    split at h
    · cases h
      exact .sleep ‹_› ‹_› ‹_›
    · cases h

/-- What a commit can do: it leaves the manager alone and reports an error, or the state is
published, with the store as the write left it. -/
theorem commit_cases (m : Manager R) (c : Call R) (cs : CardState) (history : GoMap Bytes ℚ)
    (stored : Bool) :
    (∃ err, commit m c cs history stored = (m, some err)) ∨
      m.superseded c.d = false ∧
        (m.store = none ∧ commit m c cs history stored = (m.publish c.d.id cs, none) ∨
          ∃ s s', m.store = some s ∧ s.putCardWithSignals ⟨c.d.identity, cs⟩ history = .ok s' ∧
            commit m c cs history stored = ({ m with store := some s' }.publish c.d.id cs, none)) := by
  unfold commit
  cases cs.validate with
  | error message => exact .inl ⟨_, rfl⟩
  | ok _ =>
    cases hsup : m.superseded c.d with
    | true => exact .inl ⟨_, rfl⟩
    | false =>
      cases hstore : m.store with
      | none => exact .inr ⟨rfl, .inl ⟨rfl, rfl⟩⟩
      | some s =>
        rw [if_neg Bool.false_ne_true]
        split_ifs with hfail
        · exact .inl ⟨_, rfl⟩
        · cases hput : s.putCardWithSignals ⟨c.d.identity, cs⟩ history with
          | error e => exact .inl ⟨.storage, by simp only [hput]⟩
          | ok s' => exact .inr ⟨rfl, .inr ⟨s, s', rfl, hput, by simp only [hput]⟩⟩

/-- What a commit leaves alone. -/
structure CommitFrame (m m' : Manager R) : Prop where
  defs : m'.defs = m.defs
  generation : m'.generation = m.generation
  secrets : m'.secrets = m.secrets
  heap : m'.heap = m.heap
  flights : m'.flights = m.flights
  workers : m'.workers = m.workers
  failures : m'.failures = m.failures
  openUntil : m'.openUntil = m.openUntil

theorem commit_frame (m : Manager R) (c : Call R) (cs : CardState) (history : GoMap Bytes ℚ)
    (stored : Bool) : CommitFrame m (commit m c cs history stored).1 := by
  rcases commit_cases m c cs history stored with
    ⟨err, heq⟩ | ⟨_, ⟨_, heq⟩ | ⟨s, s', _, _, heq⟩⟩ <;> rw [heq] <;>
    exact ⟨rfl, rfl, rfl, rfl, rfl, rfl, rfl, rfl⟩

section

variable (m : Manager R) (c : Call R) (cs : CardState) (history : GoMap Bytes ℚ) (stored : Bool)
  (id : Bytes)

@[simp] theorem failureCount_commit :
    (commit m c cs history stored).1.failureCount id = m.failureCount id := by
  rw [Manager.failureCount, (commit_frame m c cs history stored).failures, Manager.failureCount]

@[simp] theorem circuitOpen_commit :
    (commit m c cs history stored).1.circuitOpen id = m.circuitOpen id := by
  rw [Manager.circuitOpen, (commit_frame m c cs history stored).openUntil, Manager.circuitOpen]

end

end Veduta.Scheduler
