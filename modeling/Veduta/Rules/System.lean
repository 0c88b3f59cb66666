import Veduta.Rules.Isolation

/-!
# The rule manager at work

The rule manager with the database, through activations, evaluations, timers and restarts.

`Apply` reads the row of each rule without the lock and takes the lock to swap the rules in;
`Evaluate` marks the manager active under the lock, releases it, and calls `evaluateAll`, which
takes it again.  `evaluateAll` also runs for every committed card change and for every deadline;
the lock is held as long as `World.sweep` is set.  One goroutine activates configurations, so
calls of `Apply` do not overlap, and neither do those of `Evaluate`.
-/

namespace Veduta.Rules

open Go Lib Storage State Notify

variable {P ε : Type}

/-- A call of `Apply` before its swap: the rules still to read, and the maps so far. -/
structure Applying (P : Type) where
  todo : List (Definition P)
  definitions : GoMap Bytes (Definition P)
  states : GoMap Bytes RuleState
  declarations : GoMap Bytes CardDefinition

/-- A call of `evaluateAll` that holds the lock: the rules still to evaluate, the snapshot, and
whether it is the one of `Evaluate`. -/
structure Sweep where
  remaining : List Bytes
  cards : GoMap Bytes CardState
  own : Bool

structure World (P : Type) where
  manager : Manager P
  store : RuleStore
  channels : Option (GoMap Bytes Channel)
  applying : Option (Applying P)
  sweep : Option Sweep
  /-- A call of `Evaluate` has not returned. -/
  evaluating : Bool
  closed : Bool
  clock : ℤ

/-- The start of the process on a new database. -/
def World.new (now : ℤ) : World P := ⟨.new, .empty, none, none, none, false, false, now⟩

inductive Event (P : Type) where
  | applyStart (definitions : List (Definition P)) (declarations : GoMap Bytes CardDefinition)
  /-- `Apply` reads the row of its next rule, if the database can. -/
  | applyRead (readable : Bool)
  | applySwap
  /-- The first half of `Evaluate`. -/
  | activate
  /-- `evaluateAll` takes the lock, with the snapshot and the order of the map. -/
  | sweep (own : Bool) (cards : GoMap Bytes CardState) (order : List Bytes)
  /-- The context of `Evaluate` is over when its `evaluateAll` starts. -/
  | cancelled
  | next (t : Tick)
  | done
  | wait (duration : ℕ)
  | close
  | restart
  | setChannels (channels : Option (GoMap Bytes Channel))
  | deliver (write : OutboxWrite)

/-- The state that `Apply` gives a rule: the row written for this definition, or a new one. -/
def restore (store : RuleStore) (id hash : Bytes) : RuleState :=
  (store.getRuleState id hash).getD
    { zeroState with ruleID := id, ruleHash := hash, lastResult := Result.resultUnknown.text }

/-- `Apply` at its next rule: `none` if it returns an error. -/
def Applying.read (a : Applying P) (store : RuleStore) (d : Definition P)
    (todo : List (Definition P)) (readable : Bool) : Option (Applying P) :=
  if (a.definitions.lookup d.id).isSome then none
  else if readable then
    some { a with
      todo
      definitions := a.definitions.insert d.id d
      states := a.states.insert d.id (restore store d.id d.hash) }
  else none

/-- The manager after the swap of `Apply`. -/
def Manager.swap (a : Applying P) : Manager P :=
  ⟨a.definitions, a.declarations, a.states, ∅, false⟩

def written (store : RuleStore) (c : Option RuleTransition) : RuleStore :=
  match c.bind (store.commitRuleTransition storedLe) with
  | some (store, _) => store
  | none => store

def World.release (w : World P) (own : Bool) : World P :=
  { w with sweep := none, evaluating := w.evaluating && !own }

section

variable (evaluate : Interpreter P ε)

/-- The world after an event, or `none` if it cannot happen. -/
def step (e : Event P) (w : World P) : Option (World P) :=
  match e with
  | .applyStart definitions declarations =>
    match w.applying with
    | none => some { w with applying := some ⟨definitions, ∅, ∅, declarations⟩ }
    | some _ => none
  | .applyRead readable =>
    match w.applying with
    | some a =>
      match a.todo with
      | d :: todo => some { w with applying := a.read w.store d todo readable }
      | [] => none
    | none => none
  | .applySwap =>
    match w.applying, w.sweep with
    | some a, none =>
      if a.todo.isEmpty then some { w with manager := .swap a, applying := none } else none
    | _, _ => none
  | .activate =>
    if w.sweep.isNone ∧ w.evaluating = false then
      some { w with manager := { w.manager with active := true }, evaluating := true }
    else none
  | .sweep own cards order =>
    if w.sweep.isNone ∧ (own = true → w.evaluating = true) ∧
        order.Perm w.manager.definitions.keys then
      if w.manager.active then some { w with sweep := some ⟨order, cards, own⟩ }
      else some (w.release own)
    else none
  | .cancelled =>
    if w.evaluating = true ∧ w.sweep.all (fun s => !s.own) = true then
      some { w with evaluating := false }
    else none
  | .next t =>
    match w.sweep with
    | some ⟨id :: rest, cards, own⟩ =>
      if w.clock ≤ t.now then
        match w.manager.evaluateLocked evaluate w.channels cards id t with
        | (m, .error _) => some ({ w with manager := m, clock := t.later }.release own)
        | (m, .ok c) =>
          some { w with
            manager := m
            store := written w.store c
            sweep := some ⟨rest, cards, own⟩
            clock := t.later }
      else none
    | _ => none
  | .done =>
    match w.sweep with
    | some ⟨[], _, own⟩ => some (w.release own)
    | _ => none
  | .wait duration => some { w with clock := w.clock + duration }
  | .close =>
    if w.sweep.isNone then
      some { w with manager := { w.manager with timers := ∅ }, closed := true }
    else none
  | .restart =>
    some ⟨.new, w.store, none, none, none, false, false, w.clock⟩
  | .setChannels channels => some { w with channels }
  | .deliver write =>
    some { w with store := { w.store with outbox := write.apply storedLe w.store.outbox } }

end

/-! ## What a result does to the window of a rule -/

/-- An event of a type is emitted. -/
def emits (event : Option Storage.Event) (type : Bytes) : Prop :=
  ∃ e, event = some e ∧ e.type = type

instance (event : Option Storage.Event) (type : Bytes) : Decidable (emits event type) :=
  decidable_of_iff (event.any fun e => e.type = type) (by cases event <;> simp [emits])

section

variable {d : Definition P} {current : RuleState} {ev : Evaluation} {now : ℤ}

theorem not_emits_reportWrongTypes {type : Bytes} (h : type ≠ ascii "rule.signal-type") :
    ¬emits (reportWrongTypes d current ev now).2 type := by
  rw [reportWrongTypes]
  split_ifs
  · simp [emits, h.symm]
  · simp [emits]
  · simp [emits]

@[simp] theorem reportWrongTypes_since :
    (reportWrongTypes d current ev now).1.since = current.since := by
  rw [reportWrongTypes]
  split_ifs <;> rfl

@[simp] theorem reportWrongTypes_deadline :
    (reportWrongTypes d current ev now).1.deadline = current.deadline := by
  rw [reportWrongTypes]
  split_ifs <;> rfl

@[simp] theorem reportWrongTypes_firedAt :
    (reportWrongTypes d current ev now).1.firedAt = current.firedAt := by
  rw [reportWrongTypes]
  split_ifs <;> rfl

theorem opened_reportWrongTypes (d : Definition P) (current : RuleState) (ev : Evaluation)
    (now : ℤ) :
    (opened d (reportWrongTypes d current ev now).1 now).since = (opened d current now).since ∧
      (opened d (reportWrongTypes d current ev now).1 now).deadline =
        (opened d current now).deadline := by
  simp only [opened, reportWrongTypes_since]
  split_ifs <;> simp

theorem opened_firedAt : (opened d current now).firedAt = current.firedAt := by
  rw [opened]
  split_ifs <;> rfl

/-- A rule is due: its window is open for long enough and it has not fired. -/
def IsDue (d : Definition P) (current : RuleState) (now : ℤ) : Prop :=
  isPast (opened d current now).deadline now = true ∧ current.firedAt = none

instance : Decidable (IsDue d current now) := inferInstanceAs (Decidable (_ ∧ _))

theorem emits_ruleEvent {type other : Bytes} :
    emits (some (ruleEvent d type now)) other ↔ type = other := by
  simp [emits, ruleEvent]

theorem transition_true (d : Definition P) (current : RuleState) (now : ℤ)
    (h : ev.result = .resultTrue) :
    let s := transition d current ev now
    s.state.since = (opened d current now).since ∧
      s.state.deadline = (opened d current now).deadline ∧
      ¬emits s.event (ascii "rule.resolved") ∧
      ((IsDue d current now ∧ s.state.firedAt = some now ∧ emits s.event (ascii "rule.fired")) ∨
        (¬IsDue d current now ∧ s.state.firedAt = current.firedAt ∧
          ¬emits s.event (ascii "rule.fired") ∧
          (current.firedAt = none → s.arm = (opened d current now).deadline))) := by
  obtain ⟨hsince, hdeadline⟩ := opened_reportWrongTypes d current ev now
  have hfired : ¬emits (reportWrongTypes d current ev now).2 (ascii "rule.fired") :=
    not_emits_reportWrongTypes (by decide)
  have hresolved : ¬emits (reportWrongTypes d current ev now).2 (ascii "rule.resolved") :=
    not_emits_reportWrongTypes (by decide)
  have htype : ascii "rule.fired" ≠ ascii "rule.resolved" := by decide
  simp only [transition, h, IsDue, opened_firedAt, reportWrongTypes_firedAt, hdeadline]
  split_ifs with hdue hnone
  · exact ⟨hsince, rfl, by rwa [emits_ruleEvent], .inl ⟨hdue, rfl, emits_ruleEvent.mpr rfl⟩⟩
  · exact ⟨hsince, rfl, hresolved, .inr ⟨hdue, rfl, hfired, fun _ => rfl⟩⟩
  · exact ⟨hsince, rfl, hresolved, .inr ⟨hdue, rfl, hfired, fun hc => absurd hc hnone⟩⟩

theorem transition_false (d : Definition P) (current : RuleState) (now : ℤ)
    (h : ev.result = .resultFalse) :
    let s := transition d current ev now
    s.state.since = none ∧ s.state.firedAt = none ∧ ¬emits s.event (ascii "rule.fired") ∧
      (emits s.event (ascii "rule.resolved") → current.firedAt ≠ none) := by
  have hfired : ¬emits (reportWrongTypes d current ev now).2 (ascii "rule.fired") :=
    not_emits_reportWrongTypes (by decide)
  have htype : ascii "rule.resolved" ≠ ascii "rule.fired" := by decide
  simp only [transition, h, reportWrongTypes_firedAt]
  split_ifs with hsome hresolve
  · exact ⟨rfl, rfl, by rwa [emits_ruleEvent], fun _ => hsome⟩
  · exact ⟨rfl, rfl, hfired, fun _ => hsome⟩
  · have hnone : current.firedAt = none := by simpa using hsome
    refine ⟨rfl, by simpa using hnone, hfired, fun hemits => ?_⟩
    exact absurd hemits (not_emits_reportWrongTypes (by decide))

theorem transition_unknown (d : Definition P) (current : RuleState) (now : ℤ)
    (h : ev.result = .resultUnknown) :
    let s := transition d current ev now
    s.state.since = none ∧ s.state.firedAt = current.firedAt ∧
      ¬emits s.event (ascii "rule.fired") ∧ ¬emits s.event (ascii "rule.resolved") := by
  simp only [transition, h, reportWrongTypes_firedAt, true_and]
  exact ⟨not_emits_reportWrongTypes (by decide), not_emits_reportWrongTypes (by decide)⟩

theorem transition_stamp (d : Definition P) (current : RuleState) (ev : Evaluation) (now : ℤ) :
    let s := transition d current ev now
    s.state.ruleID = d.id ∧ s.state.ruleHash = d.hash ∧ s.state.lastResult = ev.result.text := by
  rw [transition]
  cases ev.result with
  | resultTrue | resultFalse => dsimp only; split_ifs <;> exact ⟨rfl, rfl, rfl⟩
  | resultUnknown => exact ⟨rfl, rfl, rfl⟩

end

/-! ## One evaluation -/

/-- What the evaluation of a rule can do to the manager, and what it returns. -/
inductive Evaluated (evaluate : Interpreter P ε) (cards : GoMap Bytes CardState) (m : Manager P)
    (id : Bytes) (t : Tick) :
    Manager P × Except (EvalFailure ε) (Option RuleTransition) → Prop
  | absent (hd : m.definitions.lookup id = none) : Evaluated evaluate cards m id t (m, .ok none)
  | predicate (d : Definition P) (e : ε) (hd : m.definitions.lookup id = some d)
      (hev : evaluate d.program cards m.declarations = .error e) :
      Evaluated evaluate cards m id t (m, .error (.predicate e))
  | failed (d : Definition P) (ev : Evaluation) (e : EvalFailure ε)
      (hd : m.definitions.lookup id = some d)
      (hev : evaluate d.program cards m.declarations = .ok ev) :
      Evaluated evaluate cards m id t
        (m.rearm id (transition d (m.stateOf id) ev t.now).arm t.later, .error e)
  | committed (d : Definition P) (ev : Evaluation) (c : RuleTransition)
      (hd : m.definitions.lookup id = some d)
      (hev : evaluate d.program cards m.declarations = .ok ev)
      (hvalue : c.value = (transition d (m.stateOf id) ev t.now).state)
      (hevent : c.event = (transition d (m.stateOf id) ev t.now).event)
      (hvalid : c.event.all validateEvent = true) :
      Evaluated evaluate cards m id t
        ({ m.rearm id (transition d (m.stateOf id) ev t.now).arm t.later with
            states := m.states.insert id c.value }, .ok (some c))

theorem valid_of_attempt {channels : Option (GoMap Bytes Channel)} {d : Definition P} {s : Step}
    {t : Tick} {c : RuleTransition} (h : attempt (ε := ε) channels d s t = .ok c) :
    c.event.all validateEvent = true := by
  rw [attempt, bind_eq_ok_iff] at h
  obtain ⟨requests, -, h⟩ := h
  split_ifs at h with hvalid
  cases h
  exact hvalid

section

variable (evaluate : Interpreter P ε) (channels : Option (GoMap Bytes Channel))
  (cards : GoMap Bytes CardState) (m : Manager P)
  (id : Bytes) (t : Tick)

theorem evaluated :
    Evaluated evaluate cards m id t (m.evaluateLocked evaluate channels cards id t) := by
  unfold Manager.evaluateLocked
  split
  case h_1 hd => exact .absent hd
  case h_2 d hd =>
    split
    case h_1 e hev => exact .predicate d e hd hev
    case h_2 ev hev =>
      dsimp only
      split
      case h_1 e _ => exact .failed d ev e hd hev
      case h_2 c hattempt =>
        obtain ⟨hvalue, hevent, -⟩ := exists_of_attempt hattempt
        rw [rearm_states]
        exact .committed d ev c hd hev hvalue hevent (valid_of_attempt hattempt)

theorem exists_evaluateLocked_error_iff :
    (∃ e, (m.evaluateLocked evaluate channels cards id t).2 = .error e) ↔
      Fails evaluate channels cards (fun _ => t) m id := by
  change (∃ e, outcome evaluate channels cards (fun _ => t) m id = .error e) ↔ _
  exact exists_error_iff

end

section

variable {evaluate : Interpreter P ε} {w w' : World P} {t : Tick} {store : RuleStore}
  {c : RuleTransition} {id hash : Bytes}

theorem next_cases (h : step evaluate (.next t) w = some w') :
    ∃ a rest cards own, w.sweep = some ⟨a :: rest, cards, own⟩ ∧ w.clock ≤ t.now ∧
      ((∃ m e, w.manager.evaluateLocked evaluate w.channels cards a t = (m, .error e) ∧
        w' = { w with manager := m, clock := t.later }.release own) ∨
      ∃ m c, w.manager.evaluateLocked evaluate w.channels cards a t = (m, .ok c) ∧
        w' = { w with
          manager := m
          store := written w.store c
          sweep := some ⟨rest, cards, own⟩
          clock := t.later }) := by
  simp only [step] at h
  split at h
  case h_1 a rest cards own hsweep =>
    split_ifs at h with hclock
    refine ⟨a, rest, cards, own, hsweep, hclock, ?_⟩
    split at h
    case h_1 m e hresult =>
      cases h
      exact .inl ⟨m, e, hresult, rfl⟩
    case h_2 m c hresult =>
      cases h
      exact .inr ⟨m, c, hresult, rfl⟩
  case h_2 => cases h

theorem rules_written (h : c.event.all validateEvent = true) :
    (written store (some c)).rules = store.rules.insert c.value.ruleID c.value := by
  simp [written, RuleStore.commitRuleTransition, h]

theorem restore_congr {other : RuleStore} (h : other.rules.lookup id = store.rules.lookup id) :
    restore other id hash = restore store id hash := by
  rw [restore, restore, RuleStore.getRuleState, RuleStore.getRuleState, h]

theorem restore_written (h : c.event.all validateEvent = true) (hid : c.value.ruleID = id)
    (hhash : c.value.ruleHash = hash) : restore (written store (some c)) id hash = c.value := by
  rw [restore, RuleStore.getRuleState, rules_written h, hid, AList.lookup_insert,
    Option.filter_some_pos (by simpa using hhash), Option.getD_some]

end

def slowRule : Definition (Expr Comparison) :=
  { immediateRule (ascii "up") webUp with debounce := 5 }

/-- A configuration is activated, and its rules are evaluated. -/
def activation (rule : Definition (Expr Comparison)) (cards : GoMap Bytes CardState) (t : Tick) :
    List (Event (Expr Comparison)) :=
  [.applyStart [rule] ∅, .applyRead true, .applySwap, .activate, .sweep true cards [rule.id],
    .next t, .done]

/-- A moment after the new year at which the database commits. -/
def after (n : ℕ) : Tick := ⟨newYear + n, newYear + n, true, le_refl _⟩

end Veduta.Rules
