import Veduta.Secrets.Document
import Veduta.Storage.Cards

/-!
# The scheduler's manager

Package `scheduler`: the state that all refreshes of all cards share, and how `Apply` replaces
the definitions in it.  What a card runs is a parameter: the scheduler only asks whether there
is something to run.
-/

namespace Veduta.Scheduler

open Go Widgets Secrets State Storage

/-- The definition of one card, with what it runs in `R`. -/
structure Definition (R : Type) where
  id : Bytes
  hash : Bytes
  key : Bytes
  manifestDigest : Bytes
  approvalRevision : Bytes
  slotRevisions : Bytes
  refresh : ℤ
  timeout : ℤ
  source : Source
  run : Option R
  disabled : Bytes
  historySignals : GoMap Bytes Unit
  generation : ℕ

variable {R : Type}

namespace Definition

/-- The identity under which the card's state is stored. -/
def identity (d : Definition R) : Identity :=
  ⟨d.hash, d.manifestDigest, d.approvalRevision, d.slotRevisions⟩

/-- The defaults that `Apply` fills in. -/
def withDefaults (d : Definition R) : Definition R :=
  { d with
    refresh := if d.refresh ≤ 0 then minute else d.refresh
    timeout := if d.timeout ≤ 0 then 10 * second else d.timeout }

@[simp] theorem withDefaults_id (d : Definition R) : d.withDefaults.id = d.id := rfl

@[simp] theorem withDefaults_identity (d : Definition R) :
    d.withDefaults.identity = d.identity := rfl

end Definition

/-- The errors that `classify` tells apart. -/
inductive ErrorKind where
  | deadlineExceeded
  | canceled
  | secretInDocument
  | unretainedSignal
  | runPanicked
  | other
  deriving DecidableEq

/-- An error: the first sentinel that it wraps, and its text. -/
structure RunErr where
  kind : ErrorKind
  message : Bytes
  deriving DecidableEq

/-- What a run yields: a document that counts if there is no error. -/
structure Outcome where
  doc : Document
  duration : ℤ
  err : Option RunErr

/-- The zero value of `widgets.Document`. -/
def zeroDocument : Document := documentCodec.zero

/-- One run that several callers may wait for; it has an outcome once its channel is closed. -/
structure Flight where
  outcome : Option Outcome

/-- A committed change of a card's state. -/
structure StateEvent where
  id : ℕ
  state : CardState

/-- A subscription: the capacity of its channel, and what is in it. -/
structure Subscription where
  buffer : ℕ
  queue : List StateEvent

/-- `Manager`.  The flights that ever were are numbered; the map holds the open ones. -/
structure Manager (R : Type) where
  store : Option Store
  secrets : Option Registry
  defs : GoMap Bytes (Definition R)
  states : GoMap Bytes CardState
  failures : GoMap Bytes ℤ
  openUntil : GoMap Bytes ℤ
  manualAt : GoMap Bytes ℤ
  flights : GoMap Bytes ℕ
  heap : List Flight
  subs : GoMap ℕ Subscription
  workers : ℕ
  nextID : ℕ
  generation : ℕ

namespace Manager

/-- `NewWithSecrets`. -/
def new (store : Option Store) (secrets : Option Registry) : Manager R where
  store := store
  secrets := secrets
  defs := ∅
  states := ∅
  failures := ∅
  openUntil := ∅
  manualAt := ∅
  flights := ∅
  heap := []
  subs := ∅
  workers := 0
  nextID := 0
  generation := 0

def failureCount (m : Manager R) (id : Bytes) : ℤ := m.failures.get 0 id

/-- When the circuit of a card closes again; the zero time if it is not open. -/
def circuitOpen (m : Manager R) (id : Bytes) : ℤ := m.openUntil.get zeroTime id

/-- `documentLeaksSecret`. -/
def documentLeaksSecret (secrets : Option Registry) : Option Document → Bool
  | none => false
  | some doc => secrets.any fun r => r.containsSecretInDocument doc

end Manager

/-! ## Applying definitions -/

/-- `time.Parse`, with its error dropped. -/
def parseTime (v : Bytes) : ℤ := (Go.parseTime v).getD zeroTime

/-- A stored state that is no longer fresh becomes stale. -/
def restored (now : ℤ) (cs : CardState) (source : Source) : CardState :=
  let expires := parseTime cs.execution.expiresAt
  match cs.document with
  | some doc =>
    if cs.execution.state = stateOK ∧ expires ≠ zeroTime ∧ expires ≤ now then
      stale cs.cardID doc source (parseTime cs.execution.generatedAt) expires 0 now
    else cs
  | none => cs

@[simp] theorem restored_document (now : ℤ) (cs : CardState) (source : Source) :
    (restored now cs source).document = cs.document := by
  rw [restored]
  split
  · rename_i doc h
    split_ifs
    · exact h.symm
    · rfl
  · rfl

/-- The maps that `Apply` prepares before it takes the lock. -/
structure Prepared (R : Type) where
  defs : GoMap Bytes (Definition R)
  states : GoMap Bytes CardState
  failures : GoMap Bytes ℤ
  openUntil : GoMap Bytes ℤ

inductive ApplyError where
  | emptyID
  | duplicateID (id : Bytes)
  | storage
  | get (e : GetError)

namespace Prepared

def empty : Prepared R := ⟨∅, ∅, ∅, ∅⟩

/-- A definition starts pending. -/
def add (p : Prepared R) (d : Definition R) : Prepared R :=
  { p with defs := p.defs.insert d.id d, states := p.states.insert d.id (pending d.id) }

/-- A state that was found takes its place, unless its document leaks. -/
def found (secrets : Option Registry) (now : ℤ) (p : Prepared R) (d : Definition R) :
    Option CardState → Prepared R
  | none => p
  | some old =>
    if Manager.documentLeaksSecret secrets old.document then p
    else
      { p with
        states := p.states.insert d.id (restored now old d.source)
        failures := p.failures.insert d.id old.execution.consecutiveFailures
        openUntil := p.openUntil.insert d.id (parseTime old.execution.circuitOpenUntil) }

/-- The checks on one definition. -/
def accept (p : Prepared R) (d : Definition R) : Except ApplyError (Prepared R) :=
  if d.id = [] then .error .emptyID
  else if (p.defs.lookup d.id).isSome then .error (.duplicateID d.id)
  else .ok (p.add d)

end Prepared

/-- One turn of the loop of `Apply`.  A row that was deleted stays deleted if it fails. -/
def prepare (secrets : Option Registry) (now : ℤ) (store : Option Store) (p : Prepared R)
    (d : Definition R) : Option Store × Except ApplyError (Prepared R) :=
  match p.accept d.withDefaults, store with
  | .error e, _ => (store, .error e)
  | .ok p, none => (none, .ok p)
  | .ok p, some s =>
    match s.getCardFor d.id d.identity with
    | .error e => (some s, .error (.get e))
    | .ok (s', old) => (some s', .ok (p.found secrets now d old))

/-- The loop of `Apply`. -/
def prepareAll (secrets : Option Registry) (now : ℤ) :
    Option Store → Prepared R → List (Definition R) →
      Option Store × Except ApplyError (Prepared R)
  | store, p, [] => (store, .ok p)
  | store, p, d :: defs =>
    match prepare secrets now store p d with
    | (store, .error e) => (store, .error e)
    | (store, .ok p) => prepareAll secrets now store p defs

namespace Manager

/-- What `Apply` does under the lock: every definition gets the new generation. -/
def swap (m : Manager R) (p : Prepared R) : Manager R :=
  { m with
    generation := m.generation + 1
    defs := p.defs.filterMap fun _ d => some { d with generation := m.generation + 1 }
    states := p.states
    failures := p.failures
    openUntil := p.openUntil
    manualAt := ∅ }

/-- `Apply`, when nothing else happens meanwhile: the manager after it, and its error. -/
def apply (now : ℤ) (m : Manager R) (defs : List (Definition R)) :
    Manager R × Option ApplyError :=
  match prepareAll m.secrets now m.store .empty defs with
  | (store, .error e) => ({ m with store := store }, some e)
  | (store, .ok p) => ({ m with store := store }.swap p, none)

end Manager

end Veduta.Scheduler
