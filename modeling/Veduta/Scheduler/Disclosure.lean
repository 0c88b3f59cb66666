import Veduta.Connections.Transport
import Veduta.Scheduler.Flight

/-!
# Secrets in the messages of failures

What the API answers and what subscribers hear are the states of cards.  A document is searched
for tracked secrets before it becomes part of one; the text of an error is not.  An invariant of
the calls says where the text of a state comes from: the failure that the outcome of its run is
recorded as.  The text of the failure in turn is the transport's, for a request of a connection, or
comes from elsewhere; the transport's has the credential in it if that is a query parameter.
-/

namespace Veduta.Scheduler

open Go Widgets Secrets State Storage Lib

variable {R : Type}
variable {w w' : World R} {e : Event R} {cs : CardState} {c c' : Call R}

def errorMessage (cs : CardState) : Option Bytes := cs.execution.error.map RunError.message

/-- The state is what the API serves for a card, or part of an event that waits in a channel. -/
def Manager.Carries (m : Manager R) (cs : CardState) : Prop :=
  (∃ id, m.states.lookup id = some cs) ∨
    ∃ id sub ev, m.subs.lookup id = some sub ∧ ev ∈ sub.queue ∧ ev.state = cs

/-- The failure that an outcome is recorded as. -/
def failureOf (secrets : Option Registry) (d : Definition R) (o : Outcome) : Option RunErr :=
  match evaluate secrets d o with
  | .error e => some e
  | .ok _ => none

/-- The failure of a call, once its run has ended. -/
def Call.failure (secrets : Option Registry) (c : Call R) : Option RunErr :=
  c.outcome.bind (failureOf secrets c.d)

/-- A state that is about to be committed has the message of the call's failure. -/
def Call.Told (secrets : Option Registry) (c : Call R) : Prop :=
  match c.pc with
  | .enter => c.outcome = none
  | .openCircuit _ _ e => c.failure secrets = some e
  | .commit cs _ => errorMessage cs = (c.failure secrets).map RunErr.message
  | _ => True

theorem errorMessage_failedState (now : ℤ) (d : Definition R) (previous : CardState)
    (failures : ℤ) (e : RunErr) :
    errorMessage (failedState now d previous failures e) = some e.message := by
  rw [failedState]
  split <;>
    simp [errorMessage, staleAfterError, State.error, RunErr.runError, RunError.stamped]

theorem errorMessage_openCircuitState (now : ℤ) (d : Definition R) (previous : CardState)
    (failures : ℤ) (e : RunErr) :
    errorMessage (openCircuitState now d previous failures e) = some e.message := by
  rw [openCircuitState]
  split <;>
    simp [errorMessage, staleAfterErrorWithOpenCircuit, staleAfterError, errorWithOpenCircuit,
      State.error, RunErr.runError, RunError.stamped]

theorem Acted.told {now : ℤ} {m m' : Manager R} {a : Action} (h : Acted now m c a m' c')
    (hc : c.Told m.secrets) : c'.Told m.secrets := by
  cases h with
  | check hpc =>
    rw [Call.Told, hpc] at hc
    rw [Scheduler.check]
    split_ifs <;> simp [Call.Told, Call.answer, Call.failure, hc, errorMessage, State.disabled,
      Execution.of]
  | succeed hpc hout heval =>
    simp [Call.Told, Call.failure, hout, failureOf, heval, errorMessage, successState, ok,
      Execution.of]
  | fail hpc hout heval =>
    rename_i o e bound
    have hfailure : failureOf m.secrets c.d o = some e := by rw [failureOf, heval]
    rw [Call.Told, failedPc]
    split_ifs
    · simp [Call.failure, hout, hfailure]
    · simp [Call.failure, hout, hfailure, errorMessage_failedState]
  | openCircuit hpc =>
    rw [Call.Told, hpc] at hc
    rw [Call.Told]
    simp only [errorMessage_openCircuitState]
    rw [Call.failure] at hc ⊢
    simp [hc]
  | _ => trivial

theorem Rests.told {secrets : Option Registry} (h : Rests c c') (hc : c.Told secrets) :
    c'.Told secrets := by
  rcases h.pc with hpc | ⟨_, hwoken⟩
  · rw [Call.Told, Call.failure] at hc ⊢
    rw [hpc, h.outcome, h.d]
    exact hc
  · rw [Call.Told, hwoken]
    trivial

/-- The messages of all calls come from their failures. -/
def Told (w : World R) : Prop := ∀ (i : ℕ) c, w.calls[i]? = some c → c.Told w.manager.secrets

end Veduta.Scheduler
