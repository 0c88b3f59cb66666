import Veduta.Go.JsonWrite
import Veduta.Go.Time
import Veduta.Widgets.Document

/-!
# Card states

Package `state`: the envelope that the API returns for a card.  It separates the document,
which an integration owns, from the facts of execution, which only the constructors here
produce.  A time in the envelope is a text, and the empty text is no time.  The words for a
state, a reason or a code are strings, as in the source: a stored envelope may hold any.
-/

namespace Veduta.State

open Go Widgets

/-! ## The envelope -/

def statePending : Bytes := ascii "pending"

def stateOK : Bytes := ascii "ok"

def stateStale : Bytes := ascii "stale"

def stateError : Bytes := ascii "error"

def stateDisabled : Bytes := ascii "disabled"

def reasonUnapproved : Bytes := ascii "unapproved"

def reasonPermissionsChanged : Bytes := ascii "permissions-changed"

def reasonIntegrationMissing : Bytes := ascii "integration-missing"

def reasonConfigError : Bytes := ascii "config-error"

def errorUpstream : Bytes := ascii "upstream"

def errorTimeout : Bytes := ascii "timeout"

def errorInvalid : Bytes := ascii "invalid"

def errorInternal : Bytes := ascii "internal"

/-- Which integration, operation and runtime produced a card. -/
structure Source where
  integration : Bytes
  integrationVersion : Bytes
  runtime : Bytes
  operation : Bytes
  slots : Option (GoMap Bytes Bytes)

def Source.struct : Struct Source := .of
  (.mk (fun s => (s.integration, s.integrationVersion, s.runtime, s.operation, s.slots, ()))
    fun (a, b, c, d, e, _) => ⟨a, b, c, d, e⟩)
  (.opt "integration" .str <|
   .opt "integrationVersion" .str <|
   .opt "runtime" .str <|
   .opt "operation" .str <|
   .opt "slots" (.map .str) .nil)

structure RunError where
  code : Bytes
  message : Bytes
  retryable : Bool
  stamp : Bytes

def RunError.struct : Struct RunError := .of
  (.mk (fun s => (s.code, s.message, s.retryable, s.stamp, ())) fun (a, b, c, d, _) => ⟨a, b, c, d⟩)
  (.tag "code" .str <|
   .tag "message" .str <|
   .opt "retryable" .bool <|
   .opt "at" .str .nil)

structure Execution where
  state : Bytes
  generatedAt : Bytes
  ttlSeconds : ℤ
  expiresAt : Bytes
  staleSince : Bytes
  durationMs : ℤ
  consecutiveFailures : ℤ
  nextRunAt : Bytes
  source : Option Source
  error : Option RunError
  disabledReason : Bytes
  circuitOpenUntil : Bytes

def Execution.struct : Struct Execution := .of
  (.mk (fun s => (s.state, s.generatedAt, s.ttlSeconds, s.expiresAt, s.staleSince, s.durationMs,
      s.consecutiveFailures, s.nextRunAt, s.source, s.error, s.disabledReason,
      s.circuitOpenUntil, ()))
    fun (a, b, c, d, e, f, g, h, i, j, k, l, _) => ⟨a, b, c, d, e, f, g, h, i, j, k, l⟩)
  (.tag "state" .str <|
   .opt "generatedAt" .str <|
   .opt "ttlSeconds" .int <|
   .opt "expiresAt" .str <|
   .opt "staleSince" .str <|
   .opt "durationMs" .int <|
   .opt "consecutiveFailures" .int <|
   .opt "nextRunAt" .str <|
   .opt "source" (.ptr Source.struct.codec) <|
   .opt "error" (.ptr RunError.struct.codec) <|
   .opt "disabledReason" .str <|
   .opt "circuitOpenUntil" .str .nil) (by simp only [Fields.names]; decide)

/-- The points retained for each signal that a document binds. -/
abbrev History := GoMap Bytes (Slice SeriesPoint)

structure CardState where
  cardID : Bytes
  document : Option Document
  execution : Execution
  history : Option History

/-- A document, which a text replaces as a whole. -/
def documentCodec : Codec Document :=
  .replaced ⟨[], [], [], none, [], none, .nil, none⟩ Document.unmarshalJSON Document.marshalJSON
    (fun _ => false) (by simp)

def CardState.struct : Struct CardState := .of
  (.mk (fun s => (s.cardID, s.document, s.execution, s.history, ()))
    fun (a, b, c, d, _) => ⟨a, b, c, d⟩)
  (.tag "cardId" .str <|
   .tag "document" (.ptr documentCodec) <|
   .tag "execution" Execution.struct.codec <|
   .opt "history" (.map (.slice SeriesPoint.struct.codec)) .nil)

/-- `json.Unmarshal` into a card state. -/
def CardState.unmarshal (text : Bytes) : Option CardState :=
  (unmarshalText text).bind (CardState.struct.codec.decode CardState.struct.zero)

/-- `json.Marshal` of a card state. -/
def CardState.marshal (cs : CardState) : Bytes := (CardState.struct.codec.encode cs).write

def Execution.of (state : Bytes) : Execution :=
  ⟨state, [], 0, [], [], 0, 0, [], none, none, [], []⟩

/-- The state before a card has ever run. -/
def pending (cardID : Bytes) : CardState := ⟨cardID, none, .of statePending, none⟩

def wholeSeconds (d : ℤ) : ℤ :=
  let fraction := (toFloat64 (d.tmod second / second)).getD 0
  ⌊(toFloat64 (d.tdiv second + fraction)).getD 0⌋

/-- A fresh run. -/
def ok (now : ℤ) (cardID : Bytes) (doc : Document) (src : Source) (ttl duration : ℤ) : CardState :=
  ⟨cardID, some doc,
    { Execution.of stateOK with
      generatedAt := formatTime now
      ttlSeconds := wholeSeconds ttl
      expiresAt := formatTime (now + ttl)
      durationMs := duration.tdiv (10 ^ 6)
      source := some src }, none⟩

def nextRunAtOrEmpty (t : ℤ) : Bytes := if t = zeroTime then [] else formatTime t

/-- The last good document, after a failed run or when its time has passed. -/
def stale (cardID : Bytes) (doc : Document) (src : Source) (generatedAt staleSince : ℤ)
    (consecutiveFailures : ℤ) (nextRunAt : ℤ) : CardState :=
  ⟨cardID, some doc,
    { Execution.of stateStale with
      generatedAt := formatTime generatedAt
      staleSince := formatTime staleSince
      consecutiveFailures
      nextRunAt := nextRunAtOrEmpty nextRunAt
      source := some src }, none⟩

/-- An error gets the present time unless it has one. -/
def RunError.stamped (now : ℤ) (e : RunError) : RunError :=
  if e.stamp = [] then { e with stamp := formatTime now } else e

/-- The last good document, with the reason why the latest run failed. -/
def staleAfterError (now : ℤ) (cardID : Bytes) (doc : Document) (src : Source)
    (generatedAt staleSince : ℤ) (consecutiveFailures : ℤ) (nextRunAt : ℤ) (runErr : RunError) :
    CardState :=
  let cs := stale cardID doc src generatedAt staleSince consecutiveFailures nextRunAt
  { cs with execution := { cs.execution with error := some (runErr.stamped now) } }

/-- The same with an open circuit. -/
def staleAfterErrorWithOpenCircuit (now : ℤ) (cardID : Bytes) (doc : Document) (src : Source)
    (generatedAt staleSince : ℤ) (consecutiveFailures : ℤ) (circuitOpenUntil : ℤ)
    (runErr : RunError) : CardState :=
  let cs := staleAfterError now cardID doc src generatedAt staleSince consecutiveFailures
    circuitOpenUntil runErr
  { cs with execution :=
    { cs.execution with circuitOpenUntil := formatTime circuitOpenUntil } }

/-- A failed run with no document. -/
def error (now : ℤ) (cardID : Bytes) (src : Source) (err : RunError) : CardState :=
  ⟨cardID, none,
    { Execution.of stateError with source := some src, error := some (err.stamped now) }, none⟩

/-- The same with an open circuit. -/
def errorWithOpenCircuit (now : ℤ) (cardID : Bytes) (src : Source) (err : RunError)
    (circuitOpenUntil : ℤ) : CardState :=
  let cs := error now cardID src err
  { cs with execution :=
    { cs.execution with
      nextRunAt := formatTime circuitOpenUntil
      circuitOpenUntil := formatTime circuitOpenUntil } }

/-- The card does not run again without a human. -/
def disabled (cardID : Bytes) (doc : Option Document) (reason : Bytes) : CardState :=
  ⟨cardID, doc, { Execution.of stateDisabled with disabledReason := reason }, none⟩

def maxHistoryPoints : ℕ := 288

def maxHistorySignals : ℕ := 16

def validateHistory (h : Option History) : Except Bytes Unit := do
  let entries := (h.getD ∅).entries
  if maxHistorySignals < entries.length then
    .error (ascii "history: " ++ formatNat entries.length ++ ascii " signals, more than " ++
      formatNat maxHistorySignals)
  match entries.find? fun p => maxHistoryPoints < p.2.elems.length with
  | some p =>
    .error (ascii "history " ++ p.1 ++ ascii ": " ++ formatNat p.2.elems.length ++
      ascii " points, more than " ++ formatNat maxHistoryPoints)
  | none => .ok ()

/-- The fields that a state requires and forbids. -/
def validateState (c : CardState) : Except Bytes Unit :=
  let e := c.execution
  if e.state = statePending then do
    if c.document.isSome then .error (ascii "state pending: document must be nil")
    if e.generatedAt ≠ [] ∨ e.expiresAt ≠ [] ∨ e.staleSince ≠ [] ∨ e.error.isSome ∨
        e.circuitOpenUntil ≠ [] then
      .error (ascii "state pending: no execution timestamps or error are permitted")
  else if e.state = stateOK then do
    if c.document.isNone then .error (ascii "state ok: document is required")
    if e.generatedAt = [] ∨ e.ttlSeconds = 0 ∨ e.expiresAt = [] then
      .error (ascii "state ok: generatedAt, ttlSeconds and expiresAt are required")
    if e.error.isSome ∨ e.staleSince ≠ [] ∨ e.disabledReason ≠ [] ∨ e.circuitOpenUntil ≠ [] then
      .error (ascii "state ok: error, staleSince, disabledReason and circuitOpenUntil must be absent")
  else if e.state = stateStale then do
    if c.document.isNone then .error (ascii "state stale: document (last-good) is required")
    if e.generatedAt = [] ∨ e.staleSince = [] then
      .error (ascii "state stale: generatedAt and staleSince are required")
    if e.disabledReason ≠ [] then .error (ascii "state stale: disabledReason must be absent")
  else if e.state = stateError then do
    if c.document.isSome then .error (ascii "state error: document must be nil")
    if e.error.isNone then .error (ascii "state error: error is required")
    if e.disabledReason ≠ [] then .error (ascii "state error: disabledReason must be absent")
  else if e.state = stateDisabled then do
    if e.disabledReason = [] then .error (ascii "state disabled: disabledReason is required")
    if e.nextRunAt ≠ [] ∨ e.circuitOpenUntil ≠ [] then
      .error (ascii "state disabled: nextRunAt and circuitOpenUntil must be absent")
  else .error (ascii "unknown execution state " ++ quote e.state)

/-- `CardState.Validate`. -/
def CardState.validate (c : CardState) : Except Bytes Unit := do
  validateState c
  if c.execution.circuitOpenUntil ≠ [] ∧ c.execution.nextRunAt = [] then
    .error (ascii "circuitOpenUntil requires nextRunAt")
  validateHistory c.history

end Veduta.State
