import Veduta.Notify.Dispatcher
import Veduta.Rules.Evaluator
import Veduta.Storage.Rules

/-!
# The rule manager

Package `rules`, for the manager that evaluates the active rules against the cards, keeps their
debounce state, arms a timer for the deadline of a rule that is pending, and hands the alerts of
a transition to the outbox in the transaction that stores it.

`evaluateLocked` is one rule: its predicate, the transition of its state, the preparation of its
alert and the commit, each of which may fail.  `evaluateAll` goes through the rules in the order
in which the map of definitions yields them and returns at the first failure.  The predicate is a
parameter here; the package's own is `evaluate`.
-/

namespace Veduta.Rules

open Go Storage State Notify

def Result.text : Result → Bytes
  | .resultTrue => ascii "true"
  | .resultFalse => ascii "false"
  | .resultUnknown => ascii "unknown"

variable {P ε : Type}

def ruleEvent (d : Definition P) (eventType : Bytes) (now : ℤ) : Storage.Event :=
  ⟨now, eventType, d.severity, ascii "rules",
    if eventType = ascii "rule.resolved" then ascii "Rule resolved" else ascii "Rule fired",
    .rule d.id d.notify⟩

/-- What a result does: the new state, the event, the alert, and the deadline to arm. -/
structure Step where
  state : RuleState
  event : Option Storage.Event
  alert : Option Bytes
  arm : Option ℤ

/-- The report of signals that arrived with a wrong type, once until they are right again. -/
def reportWrongTypes (d : Definition P) (current : RuleState) (ev : Evaluation) (now : ℤ) :
    RuleState × Option Storage.Event :=
  if ev.wrongTypes ≠ [] ∧ current.wrongType = false then
    ({ current with wrongType := true },
      some ⟨now, ascii "rule.signal-type", ascii "warning", ascii "rules",
        ascii "Declared signal has the wrong runtime type", .signals d.id ev.wrongTypes⟩)
  else if ev.wrongTypes = [] then ({ current with wrongType := false }, none)
  else (current, none)

/-- The deadline of a rule has passed; the zero time always has. -/
def isPast (deadline : Option ℤ) (now : ℤ) : Bool :=
  match deadline with
  | some t => decide (t ≤ now)
  | none => true

/-- The start of the window of a predicate that is true. -/
def opened (d : Definition P) (current : RuleState) (now : ℤ) : RuleState :=
  if current.since = none then
    { current with since := some now, deadline := some (now + d.debounce) }
  else current

/-- The transition of a rule by the result of its predicate. -/
def transition (d : Definition P) (current : RuleState) (ev : Evaluation) (now : ℤ) : Step :=
  let (current, event) := reportWrongTypes d current ev now
  let stamp (s : RuleState) : RuleState :=
    { s with ruleID := d.id, ruleHash := d.hash, lastResult := ev.result.text }
  match ev.result with
  | .resultTrue =>
    let current := opened d current now
    if isPast current.deadline now ∧ current.firedAt = none then
      ⟨stamp { current with firedAt := some now, resolvedAt := none },
        some (ruleEvent d (ascii "rule.fired") now), some (ascii "fired"), none⟩
    else if current.firedAt = none then ⟨stamp current, event, none, current.deadline⟩
    else ⟨stamp current, event, none, none⟩
  | .resultFalse =>
    let current := { current with since := none, deadline := none }
    if current.firedAt ≠ none then
      let cleared := stamp { current with resolvedAt := some now, firedAt := none }
      if d.resolve then
        ⟨cleared, some (ruleEvent d (ascii "rule.resolved") now), some (ascii "resolved"), none⟩
      else ⟨cleared, event, none, none⟩
    else ⟨stamp current, event, none, none⟩
  | .resultUnknown => ⟨stamp { current with since := none, deadline := none }, event, none, none⟩

inductive EvalFailure (ε : Type) where
  | predicate (e : ε)
  /-- A channel of the rule is not configured. -/
  | channel (id : Bytes)
  /-- The event does not pass its checks. -/
  | event
  /-- The transaction does not commit. -/
  | storage

/-- The alerts of a transition, if there is a notifier. -/
def prepareAlert (channels : Option (GoMap Bytes Channel)) (d : Definition P) (s : Step)
    (now : ℤ) : Except (EvalFailure ε) (List NotificationRequest) :=
  match channels, s.alert with
  | some channels, some event =>
    (prepareRuleAlert channels d.id event d.severity d.notify now).mapError .channel
  | _, _ => .ok []

/-- The clock and the database at the evaluation of one rule: the time of the evaluation, the
time at which its timer is armed, and whether the transaction commits. -/
structure Tick where
  now : ℤ
  later : ℤ
  written : Bool
  le : now ≤ later

/-- One rule up to its commit, after its predicate. -/
def attempt (channels : Option (GoMap Bytes Channel)) (d : Definition P) (s : Step) (t : Tick) :
    Except (EvalFailure ε) RuleTransition := do
  let requests ← prepareAlert channels d s t.now
  if s.event.all validateEvent then
    if t.written then .ok ⟨s.state, s.event, requests⟩ else .error .storage
  else .error .event

/-- The manager: the active rules with their states, and when the timer of a rule fires. -/
structure Manager (P : Type) where
  definitions : GoMap Bytes (Definition P)
  declarations : GoMap Bytes CardDefinition
  states : GoMap Bytes RuleState
  timers : GoMap Bytes ℤ
  active : Bool

def Manager.new : Manager P := ⟨∅, ∅, ∅, ∅, false⟩

def zeroState : RuleState := ⟨[], [], [], none, none, none, none, false⟩

/-- What evaluates a program over one snapshot of the cards. -/
abbrev Interpreter (P ε : Type) :=
  P → GoMap Bytes CardState → GoMap Bytes CardDefinition → Except ε Evaluation

namespace Manager

variable (evaluate : Interpreter P ε) (channels : Option (GoMap Bytes Channel))
  (cards : GoMap Bytes CardState)

def stateOf (m : Manager P) (id : Bytes) : RuleState := m.states.get zeroState id

/-- Cancelling the timer of a rule and arming it for its deadline, at once if that has passed. -/
def rearm (m : Manager P) (id : Bytes) (arm : Option ℤ) (later : ℤ) : Manager P :=
  match arm with
  | none => { m with timers := m.timers.erase id }
  | some deadline => { m with timers := (m.timers.erase id).insert id (max later deadline) }

/-- One rule under the lock: the manager after it, and what it has committed. -/
def evaluateLocked (m : Manager P) (id : Bytes) (t : Tick) :
    Manager P × Except (EvalFailure ε) (Option RuleTransition) :=
  match m.definitions.lookup id with
  | none => (m, .ok none)
  | some d =>
    match evaluate d.program cards m.declarations with
    | .error e => (m, .error (.predicate e))
    | .ok ev =>
      let s := transition d (m.stateOf id) ev t.now
      let m := m.rearm id s.arm t.later
      match attempt channels d s t with
      | .error e => (m, .error e)
      | .ok committed => ({ m with states := m.states.insert id committed.value }, .ok committed)

/-- The rules in an order, up to the first failure, with what was committed for each. -/
def evaluateOrder (ticks : Bytes → Tick) :
    Manager P → List Bytes → Manager P × List (Bytes × RuleTransition)
  | m, [] => (m, [])
  | m, id :: rest =>
    match m.evaluateLocked evaluate channels cards id (ticks id) with
    | (m, .error _) => (m, [])
    | (m, .ok none) => evaluateOrder ticks m rest
    | (m, .ok (some committed)) =>
      let (m, log) := evaluateOrder ticks m rest
      (m, (id, committed) :: log)

/-- Every active rule against one snapshot, in the order the map yields. -/
def evaluateAll (m : Manager P) (order : List Bytes) (ticks : Bytes → Tick) :
    Manager P × List (Bytes × RuleTransition) :=
  if m.active then evaluateOrder evaluate channels cards ticks m order else (m, [])

end Manager

end Veduta.Rules
