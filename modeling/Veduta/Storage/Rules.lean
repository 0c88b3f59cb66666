import Veduta.Storage.Outbox

/-!
# Stored rule states

Package `storage`, for the table `rule_state`.  A row is restored only for the definition it
was written for.  One evaluation of a rule commits its state, its event and its alerts in one
transaction, or nothing.

A time of a row is the instant it is the text of; the zero time is NULL.
-/

namespace Veduta.Storage

open Go

/-- The persisted state of one rule definition; a time that is zero is `none`. -/
structure RuleState where
  ruleID : Bytes
  ruleHash : Bytes
  lastResult : Bytes
  since : Option ℤ
  deadline : Option ℤ
  firedAt : Option ℤ
  resolvedAt : Option ℤ
  wrongType : Bool
  deriving DecidableEq

/-- What one evaluation commits: the state, an event, and alerts. -/
structure RuleTransition where
  value : RuleState
  event : Option Event
  notifications : List NotificationRequest
  deriving DecidableEq

/-- The tables that a rule transition writes. -/
structure RuleStore where
  rules : GoMap Bytes RuleState
  outbox : Outbox

def RuleStore.empty : RuleStore := ⟨∅, .empty⟩

namespace RuleStore

/-- The state of a rule, if it was written for the same definition. -/
def getRuleState (s : RuleStore) (id hash : Bytes) : Option RuleState :=
  (s.rules.lookup id).filter fun row => row.ruleHash = hash

/-- The tables after a transition, and whether the dispatcher has something to deliver.  An
event that fails its checks fails the transaction. -/
def commitRuleTransition (le : ℤ → ℤ → Bool) (s : RuleStore) (t : RuleTransition) :
    Option (RuleStore × Bool) :=
  if t.event.all validateEvent then
    let (outbox, wake) := s.outbox.enqueueAll le t.notifications
    some (⟨s.rules.insert t.value.ruleID t.value,
      { outbox with events := outbox.events ++ t.event.toList }⟩, wake)
  else none

end RuleStore

end Veduta.Storage
