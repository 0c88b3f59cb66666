import Veduta.Lib.Except
import Veduta.Rules.Manager

/-!
# Rules side by side

Whether a rule does in the loop over all rules what it would do alone.  The evaluation of one
rule reads its own definition, its own state, the snapshot and the channels, and writes its own
state, so it does not matter which rules come before it as long as none of them fails; the loop
returns at the first rule that does.
-/

namespace Veduta.Rules

open Go Lib Storage State Notify

variable {P ε : Type}

/-- The manager with one of its rules. -/
def Manager.only (m : Manager P) (id : Bytes) : Manager P :=
  { m with definitions := m.definitions.filter fun k _ => k = id }

/-- The state of a rule after an evaluation, its events and its alerts. -/
structure Effect where
  state : RuleState
  events : List Storage.Event
  notifications : List NotificationRequest
  deriving DecidableEq

/-- The effect on a rule of an evaluation of several. -/
def effectIn (r : Manager P × List (Bytes × RuleTransition)) (id : Bytes) : Effect where
  state := r.1.stateOf id
  events := (r.2.filter fun x => x.1 = id).flatMap fun x => x.2.event.toList
  notifications := (r.2.filter fun x => x.1 = id).flatMap fun x => x.2.notifications

section

variable (evaluate : Interpreter P ε) (channels : Option (GoMap Bytes Channel))
  (cards : GoMap Bytes CardState) (ticks : Bytes → Tick)

/-- **The evaluation of a rule fails**: its predicate does, a channel of its alert is not
configured, its event does not pass the checks, or the transaction does not commit. -/
def Fails (m : Manager P) (id : Bytes) : Prop :=
  ∃ d, m.definitions.lookup id = some d ∧
    match evaluate d.program cards m.declarations with
    | .error _ => True
    | .ok ev =>
      let s := transition d (m.stateOf id) ev (ticks id).now
      (∃ known, channels = some known ∧ s.alert ≠ none ∧ ∃ c ∈ d.notify, known.lookup c = none) ∨
        s.event.all validateEvent = false ∨ (ticks id).written = false

/-- A rule has nothing to do: its state stays and it has no event. -/
def Idle (m : Manager P) (id : Bytes) : Prop :=
  ∀ d ev, m.definitions.lookup id = some d → evaluate d.program cards m.declarations = .ok ev →
    (transition d (m.stateOf id) ev (ticks id).now).state = m.stateOf id ∧
      (transition d (m.stateOf id) ev (ticks id).now).event = none

/-- What the evaluation of a rule commits. -/
def outcome (m : Manager P) (id : Bytes) : Except (EvalFailure ε) (Option RuleTransition) :=
  (m.evaluateLocked evaluate channels cards id (ticks id)).2

end

section

variable {evaluate : Interpreter P ε} {channels : Option (GoMap Bytes Channel)}
  {cards : GoMap Bytes CardState} {ticks : Bytes → Tick}
  {m m' : Manager P} {id other : Bytes}
variable {d : Definition P} {s : Step} {a : Bytes} {after before : List Bytes} {ev : Evaluation}

/-- The effect of what was committed. -/
def effectOf (s : RuleState) : Except (EvalFailure ε) (Option RuleTransition) → Effect
  | .ok (some c) => ⟨c.value, c.event.toList, c.notifications⟩
  | _ => ⟨s, [], []⟩

@[simp] theorem rearm_definitions (m : Manager P) (id : Bytes) (arm : Option ℤ) (later : ℤ) :
    (m.rearm id arm later).definitions = m.definitions := by
  cases arm <;> rfl

@[simp] theorem rearm_declarations (m : Manager P) (id : Bytes) (arm : Option ℤ) (later : ℤ) :
    (m.rearm id arm later).declarations = m.declarations := by
  cases arm <;> rfl

@[simp] theorem rearm_states (m : Manager P) (id : Bytes) (arm : Option ℤ) (later : ℤ) :
    (m.rearm id arm later).states = m.states := by
  cases arm <;> rfl

@[simp] theorem rearm_stateOf (m : Manager P) (id other : Bytes) (arm : Option ℤ) (later : ℤ) :
    (m.rearm id arm later).stateOf other = m.stateOf other := by
  cases arm <;> rfl

@[simp] theorem rearm_active (m : Manager P) (id : Bytes) (arm : Option ℤ) (later : ℤ) :
    (m.rearm id arm later).active = m.active := by
  cases arm <;> rfl

/-- What the evaluation of a rule leaves: the rules, and the states of the others; its own state
is the one that was committed. -/
structure Frame (m m' : Manager P) (id : Bytes) (s : RuleState) : Prop where
  definitions : m'.definitions = m.definitions
  declarations : m'.declarations = m.declarations
  active : m'.active = m.active
  self : m'.stateOf id = s
  others : ∀ other, other ≠ id → m'.stateOf other = m.stateOf other

theorem frame_of_states (hd : m'.definitions = m.definitions)
    (hc : m'.declarations = m.declarations) (ha : m'.active = m.active)
    (hs : m'.states = m.states) : Frame m m' id (m.stateOf id) where
  definitions := hd
  declarations := hc
  active := ha
  self := by rw [Manager.stateOf, hs, Manager.stateOf]
  others other _ := by rw [Manager.stateOf, hs, Manager.stateOf]

section

variable (evaluate channels cards ticks)

theorem frame_outcome (m : Manager P) (id : Bytes) :
    Frame m (m.evaluateLocked evaluate channels cards id (ticks id)).1 id
      (effectOf (m.stateOf id) (outcome evaluate channels cards ticks m id)).state := by
  rw [outcome, Manager.evaluateLocked]
  split
  · exact frame_of_states rfl rfl rfl rfl
  · split
    · exact frame_of_states rfl rfl rfl rfl
    · dsimp only
      split
      · exact frame_of_states (by simp) (by simp) (by simp) (by simp)
      · refine ⟨by simp, by simp, by simp, ?_, fun other hother => ?_⟩
        · simp [Manager.stateOf, GoMap.get, effectOf]
        · simp [Manager.stateOf, GoMap.get, AList.lookup_insert_ne hother]

end

theorem outcome_congr (hd : m'.definitions.lookup id = m.definitions.lookup id)
    (hc : m'.declarations = m.declarations) (hs : m'.stateOf id = m.stateOf id) :
    outcome evaluate channels cards ticks m' id = outcome evaluate channels cards ticks m id := by
  simp only [outcome, Manager.evaluateLocked, hd, hc, hs]
  split
  · rfl
  · split
    · rfl
    · split <;> rfl

theorem fails_congr (hd : m'.definitions.lookup id = m.definitions.lookup id)
    (hc : m'.declarations = m.declarations) (hs : m'.stateOf id = m.stateOf id) :
    Fails evaluate channels cards ticks m' id ↔ Fails evaluate channels cards ticks m id := by
  simp only [Fails, hd, hc, hs]

/-! ## Failures -/

theorem exists_prepareRuleAlert_iff (known : GoMap Bytes Channel) (d : Definition P)
    (event : Bytes) (now : ℤ) :
    (∃ requests, prepareRuleAlert known d.id event d.severity d.notify now = .ok requests) ↔
      ∀ c ∈ d.notify, known.lookup c ≠ none := by
  refine exists_mapM_eq_ok_iff.trans (forall₂_congr fun c _ => ?_)
  cases known.lookup c <;> simp

theorem exists_prepareAlert_error_iff (now : ℤ) :
    (∃ e, prepareAlert (ε := ε) channels d s now = .error e) ↔
      ∃ known, channels = some known ∧ s.alert ≠ none ∧ ∃ c ∈ d.notify, known.lookup c = none := by
  cases channels with
  | none => simp [prepareAlert]
  | some known =>
    cases halert : s.alert with
    | none => simp [prepareAlert, halert]
    | some event =>
      have hok := exists_prepareRuleAlert_iff known d event now
      simp only [prepareAlert, halert]
      cases hprepare : prepareRuleAlert known d.id event d.severity d.notify now with
      | error c =>
        have hnot := hok.not.mp (by simp [hprepare])
        simpa [Except.mapError] using hnot
      | ok requests =>
        have hall := hok.mp ⟨requests, hprepare⟩
        simpa [Except.mapError] using hall

theorem exists_attempt_error_iff {t : Tick} :
    (∃ e, attempt (ε := ε) channels d s t = .error e) ↔
      (∃ known, channels = some known ∧ s.alert ≠ none ∧ ∃ c ∈ d.notify, known.lookup c = none) ∨
        s.event.all validateEvent = false ∨ t.written = false := by
  rw [← exists_prepareAlert_error_iff t.now (ε := ε), attempt]
  cases prepareAlert (ε := ε) channels d s t.now with
  | error e => simp
  | ok requests =>
    simp only [ok_bind, reduceCtorEq, exists_false, false_or]
    cases s.event.all validateEvent with
    | false => simp
    | true => cases t.written <;> simp

theorem exists_error_iff :
    (∃ e, outcome evaluate channels cards ticks m id = .error e) ↔
      Fails evaluate channels cards ticks m id := by
  rw [outcome, Manager.evaluateLocked, Fails]
  cases hd : m.definitions.lookup id with
  | none => simp
  | some d =>
    cases hev : evaluate d.program cards m.declarations with
    | error e => simp [hev]
    | ok ev =>
      simp only [Option.some.injEq, exists_eq_left', hev]
      rw [← exists_attempt_error_iff (ε := ε)]
      cases attempt (ε := ε) channels d (transition d (m.stateOf id) ev (ticks id).now)
          (ticks id) with
      | error | ok => simp

theorem event_ne_none_of_alert {current : RuleState} {now : ℤ}
    (h : (transition d current ev now).alert ≠ none) :
    (transition d current ev now).event ≠ none := by
  revert h
  rw [transition]
  cases ev.result with
  | resultTrue | resultFalse => dsimp only; split_ifs <;> simp
  | resultUnknown => simp

theorem exists_of_attempt {t : Tick} {c : RuleTransition}
    (h : attempt (ε := ε) channels d s t = .ok c) :
    c.value = s.state ∧ c.event = s.event ∧ (s.alert = none → c.notifications = []) := by
  rw [attempt, bind_eq_ok_iff] at h
  obtain ⟨requests, hprepare, h⟩ := h
  split_ifs at h
  cases h
  refine ⟨rfl, rfl, fun halert => ?_⟩
  simp only [prepareAlert, halert] at hprepare
  cases channels <;> cases hprepare <;> rfl

theorem outcome_eq_ok (hfails : ¬Fails evaluate channels cards ticks m id)
    (hd : m.definitions.lookup id = some d)
    (hev : evaluate d.program cards m.declarations = .ok ev) :
    ∃ c, outcome evaluate channels cards ticks m id = .ok (some c) ∧
      c.value = (transition d (m.stateOf id) ev (ticks id).now).state ∧
      c.event = (transition d (m.stateOf id) ev (ticks id).now).event ∧
      ((transition d (m.stateOf id) ev (ticks id).now).alert = none → c.notifications = []) := by
  cases hattempt : attempt (ε := ε) channels d (transition d (m.stateOf id) ev (ticks id).now)
      (ticks id) with
  | error e =>
    have herror : outcome evaluate channels cards ticks m id = .error e := by
      simp only [outcome, Manager.evaluateLocked, hd, hev, hattempt]
    exact absurd (exists_error_iff.mp ⟨e, herror⟩) hfails
  | ok c =>
    refine ⟨c, ?_, exists_of_attempt hattempt⟩
    simp only [outcome, Manager.evaluateLocked, hd, hev, hattempt]

theorem effectOf_eq_iff :
    effectOf (m.stateOf id) (outcome evaluate channels cards ticks m id) =
      ⟨m.stateOf id, [], []⟩ ↔
        Fails evaluate channels cards ticks m id ∨ Idle evaluate cards ticks m id := by
  by_cases hfails : Fails evaluate channels cards ticks m id
  · obtain ⟨e, he⟩ := exists_error_iff.mpr hfails
    rw [he]
    exact iff_of_true rfl (.inl hfails)
  · rw [or_iff_right hfails]
    constructor
    · intro heffect d ev hd hev
      obtain ⟨c, hc, hvalue, hevent, -⟩ := outcome_eq_ok hfails hd hev
      rw [hc, effectOf, Effect.mk.injEq] at heffect
      rw [← hvalue, ← hevent]
      exact ⟨heffect.1, by simpa using heffect.2.1⟩
    · intro hidle
      cases hd : m.definitions.lookup id with
      | none => simp [outcome, Manager.evaluateLocked, hd, effectOf]
      | some d =>
        cases hev : evaluate d.program cards m.declarations with
        | error e => exact absurd ⟨d, hd, by rw [hev]; trivial⟩ hfails
        | ok ev =>
          obtain ⟨c, hc, hvalue, hevent, hnotify⟩ := outcome_eq_ok hfails hd hev
          obtain ⟨hstate, hnone⟩ := hidle d ev hd hev
          have halert : (transition d (m.stateOf id) ev (ticks id).now).alert = none :=
            by_contra fun h => event_ne_none_of_alert h hnone
          rw [hc, effectOf, hvalue, hstate, hevent, hnone, hnotify halert]
          rfl

/-! ## The loop -/

theorem evaluateOrder_cons (m : Manager P) (a : Bytes) (order : List Bytes) :
    Manager.evaluateOrder evaluate channels cards ticks m (a :: order) =
      let next := (m.evaluateLocked evaluate channels cards a (ticks a)).1
      match outcome evaluate channels cards ticks m a with
      | .error _ => (next, [])
      | .ok c =>
        let r := Manager.evaluateOrder evaluate channels cards ticks next order
        (r.1, c.toList.map (a, ·) ++ r.2) := by
  rw [Manager.evaluateOrder, outcome]
  cases hresult : m.evaluateLocked evaluate channels cards a (ticks a) with
  | mk next result =>
    cases result with
    | error e => rfl
    | ok c => cases c <;> rfl

theorem effectIn_append_of_ne {r : Manager P × List (Bytes × RuleTransition)}
    {log : List RuleTransition} (h : a ≠ id) :
    effectIn (r.1, log.map (a, ·) ++ r.2) id = effectIn r id := by
  have hnone : (log.map (a, ·)).filter (fun x : Bytes × RuleTransition => x.1 = id) = [] := by
    simp [h]
  simp only [effectIn, List.filter_append, hnone, List.nil_append]

theorem effectIn_of_notMem {order : List Bytes} (h : id ∉ order) :
    effectIn (Manager.evaluateOrder evaluate channels cards ticks m order) id =
      ⟨m.stateOf id, [], []⟩ := by
  induction order generalizing m with
  | nil => rfl
  | cons a order ih =>
    obtain ⟨hne, hnot⟩ := List.ne_and_not_mem_of_not_mem_cons h
    have hframe := frame_outcome evaluate channels cards ticks m a
    rw [evaluateOrder_cons]
    cases outcome evaluate channels cards ticks m a with
    | error e => simp [effectIn, hframe.others id hne]
    | ok c =>
      dsimp only
      rw [effectIn_append_of_ne hne.symm, ih hnot, hframe.others id hne]

theorem fails_evaluateLocked_iff (h : id ≠ a) :
    Fails evaluate channels cards ticks (m.evaluateLocked evaluate channels cards a (ticks a)).1 id ↔
      Fails evaluate channels cards ticks m id := by
  have hframe := frame_outcome evaluate channels cards ticks m a
  exact fails_congr (by rw [hframe.definitions]) hframe.declarations (hframe.others id h)

theorem outcome_evaluateLocked (h : id ≠ a) :
    outcome evaluate channels cards ticks
        (m.evaluateLocked evaluate channels cards a (ticks a)).1 id =
      outcome evaluate channels cards ticks m id := by
  have hframe := frame_outcome evaluate channels cards ticks m a
  exact outcome_congr (by rw [hframe.definitions]) hframe.declarations (hframe.others id h)

theorem effectIn_cons_self (hafter : id ∉ after) :
    effectIn (Manager.evaluateOrder evaluate channels cards ticks m (id :: after)) id =
      effectOf (m.stateOf id) (outcome evaluate channels cards ticks m id) := by
  have hframe := frame_outcome evaluate channels cards ticks m id
  rw [evaluateOrder_cons]
  cases hresult : outcome evaluate channels cards ticks m id with
  | error e =>
    rw [hresult] at hframe
    simp [effectIn, hframe.self, effectOf]
  | ok c =>
    rw [hresult] at hframe
    have hrest : effectIn (Manager.evaluateOrder evaluate channels cards ticks
        (m.evaluateLocked evaluate channels cards id (ticks id)).1 after) id = ⟨_, [], []⟩ :=
      effectIn_of_notMem hafter
    rw [hframe.self] at hrest
    simp only [effectIn, Effect.mk.injEq] at hrest
    cases c with
    | none | some => simp [effectIn, effectOf, hrest]

/-- **A rule after rules that do not fail** does what it does alone. -/
theorem effectIn_of_not_fails (hnodup : before.Nodup)
    (hbefore : ∀ a ∈ before, ¬Fails evaluate channels cards ticks m a) (hid : id ∉ before)
    (hafter : id ∉ after) :
    effectIn (Manager.evaluateOrder evaluate channels cards ticks m (before ++ id :: after)) id =
      effectOf (m.stateOf id) (outcome evaluate channels cards ticks m id) := by
  induction before generalizing m with
  | nil => exact effectIn_cons_self hafter
  | cons a before ih =>
    obtain ⟨hne, hnot⟩ := List.ne_and_not_mem_of_not_mem_cons hid
    obtain ⟨ha, hnodup⟩ := List.nodup_cons.mp hnodup
    have hframe := frame_outcome evaluate channels cards ticks m a
    rw [List.cons_append, evaluateOrder_cons]
    cases hresult : outcome evaluate channels cards ticks m a with
    | error e =>
      exact absurd (exists_error_iff.mp ⟨e, hresult⟩) (hbefore a (List.mem_cons_self ..))
    | ok c =>
      dsimp only
      rw [effectIn_append_of_ne hne.symm, ih hnodup ?_ hnot, hframe.others id hne,
        outcome_evaluateLocked hne]
      intro x hx
      have hxa : x ≠ a := fun h => ha (h ▸ hx)
      rw [fails_evaluateLocked_iff hxa]
      exact hbefore x (List.mem_cons_of_mem _ hx)

/-- **A rule after one that fails** is not evaluated. -/
theorem effectIn_of_fails (hnodup : before.Nodup)
    (hbefore : ∃ a ∈ before, Fails evaluate channels cards ticks m a) (hid : id ∉ before) :
    effectIn (Manager.evaluateOrder evaluate channels cards ticks m (before ++ after)) id =
      ⟨m.stateOf id, [], []⟩ := by
  induction before generalizing m with
  | nil =>
    obtain ⟨a, ha, -⟩ := hbefore
    cases ha
  | cons b before ih =>
    obtain ⟨hne, hnot⟩ := List.ne_and_not_mem_of_not_mem_cons hid
    obtain ⟨hb, hnodup⟩ := List.nodup_cons.mp hnodup
    have hframe := frame_outcome evaluate channels cards ticks m b
    rw [List.cons_append, evaluateOrder_cons]
    cases hresult : outcome evaluate channels cards ticks m b with
    | error e => simp [effectIn, hframe.others id hne]
    | ok c =>
      dsimp only
      rw [effectIn_append_of_ne hne.symm, ih hnodup ?_ hnot, hframe.others id hne]
      obtain ⟨a, ha, hfails⟩ := hbefore
      rcases List.mem_cons.mp ha with rfl | ha
      · obtain ⟨e, he⟩ := exists_error_iff.mpr hfails
        rw [he] at hresult
        cases hresult
      · have hab : a ≠ b := fun h => hb (h ▸ ha)
        exact ⟨a, ha, (fails_evaluateLocked_iff hab).mpr hfails⟩

/-! ## Every order -/

theorem effectIn_only (hactive : m.active = true) :
    effectIn ((m.only id).evaluateAll evaluate channels cards [id] ticks) id =
      effectOf (m.stateOf id) (outcome evaluate channels cards ticks m id) := by
  have honly : (m.only id).active = true := hactive
  rw [Manager.evaluateAll, if_pos honly, effectIn_cons_self List.not_mem_nil]
  have hsame : outcome evaluate channels cards ticks (m.only id) id =
      outcome evaluate channels cards ticks m id := by
    refine outcome_congr ?_ rfl rfl
    refine Option.ext fun d => ?_
    rw [Manager.only, GoMap.lookup_eq_some_iff, GoMap.lookup_eq_some_iff, GoMap.mem_entries_filter]
    simp
  rw [hsame]
  rfl

/-- **Isolation.**  In every order of the active rules, each of them does what it does alone,
exactly if either none of them fails, or those that do not fail have nothing to do. -/
theorem isolated_iff (hactive : m.active = true) :
    (∀ order : List Bytes, order.Perm m.definitions.keys → ∀ id ∈ m.definitions.keys,
      effectIn (m.evaluateAll evaluate channels cards order ticks) id =
        effectIn ((m.only id).evaluateAll evaluate channels cards [id] ticks) id) ↔
    ((∃ a ∈ m.definitions.keys, Fails evaluate channels cards ticks m a) →
      ∀ id ∈ m.definitions.keys,
        Fails evaluate channels cards ticks m id ∨ Idle evaluate cards ticks m id) := by
  have hkeys : m.definitions.keys.Nodup := m.definitions.keys_nodup
  constructor
  · rintro hisolated ⟨a, ha, hfails⟩ id hid
    by_cases hsame : id = a
    · exact .inl (hsame ▸ hfails)
    · -- the rule that fails may come first
      have horder := List.perm_cons_erase ha
      have heffect := hisolated (a :: m.definitions.keys.erase a) horder.symm id hid
      rw [effectIn_only hactive, Manager.evaluateAll, if_pos hactive,
        ← List.singleton_append, effectIn_of_fails (List.nodup_singleton a)
          ⟨a, List.mem_singleton.mpr rfl, hfails⟩ (by simpa using hsame)] at heffect
      exact effectOf_eq_iff.mp heffect.symm
  · intro h order horder id hid
    obtain ⟨before, after, rfl⟩ := List.append_of_mem (horder.mem_iff.mpr hid)
    have hnodup := horder.nodup_iff.mpr hkeys
    obtain ⟨hbefore, hrest, hdisjoint⟩ := List.nodup_append.mp hnodup
    have hnotBefore : id ∉ before := fun hmem =>
      hdisjoint id hmem id (List.mem_cons_self ..) rfl
    rw [effectIn_only hactive, Manager.evaluateAll, if_pos hactive]
    by_cases hfailing : ∃ a ∈ before, Fails evaluate channels cards ticks m a
    · rw [effectIn_of_fails hbefore hfailing hnotBefore]
      obtain ⟨a, ha, hfails⟩ := hfailing
      have hkey : a ∈ m.definitions.keys := horder.mem_iff.mp (List.mem_append_left _ ha)
      exact (effectOf_eq_iff.mpr (h ⟨a, hkey, hfails⟩ id hid)).symm
    · refine effectIn_of_not_fails hbefore ?_ hnotBefore (List.nodup_cons.mp hrest).1
      exact fun a ha hfails => hfailing ⟨a, ha, hfails⟩

end

def immediateRule (id : Bytes) (program : Expr Comparison) : Definition (Expr Comparison) :=
  ⟨id, ascii "hash-" ++ id, 0, ascii "warning", [], true, program⟩

/-- `state("web") == "ok"`. -/
def webUp : Expr Comparison :=
  .op .equal [.call (.ident (ascii "state")) [.lit (.str (ascii "web"))], .lit (.str (ascii "ok"))]

/-- `signal("web", "version") > 3`, for a signal that is a text. -/
def webVersion : Expr Comparison :=
  .op .greater [.call (.ident (ascii "signal"))
    [.lit (.str (ascii "web")), .lit (.str (ascii "version"))], .lit (.num 3)]

/-- A card with a text as its signal. -/
def versionCards : GoMap Bytes CardState :=
  GoMap.ofList [(ascii "web", ⟨ascii "web",
    some ⟨ascii "Web", [], [], none, [],
      some (GoMap.ofList [(ascii "version", ⟨.str (ascii "2.0"), [], []⟩)]), .nil, none⟩,
    .of stateOK, none⟩)]

/-- Two rules, of which the first compares a text with a number. -/
def twoRules : Manager (Expr Comparison) where
  definitions := GoMap.ofList [(ascii "version", immediateRule (ascii "version") webVersion),
    (ascii "up", immediateRule (ascii "up") webUp)]
  declarations := GoMap.ofList [(ascii "web",
    ⟨ascii "hash", GoMap.ofList [(ascii "version", ascii "string")]⟩)]
  states := ∅
  timers := ∅
  active := true

/-- Predicates as the package evaluates them. -/
def comparisons (program : Expr Comparison) (cards : GoMap Bytes CardState)
    (declarations : GoMap Bytes CardDefinition) : Except (EvaluateError Unit) Evaluation :=
  evaluate cards declarations comparisonLang program

/-- Every rule is evaluated at the same time, and every transaction commits. -/
def atNewYear (_ : Bytes) : Tick := ⟨newYear, newYear, true, le_refl _⟩

/-- The rule that is true fires alone, and not after the one that fails. -/
theorem failing_rule_stops_others :
    (effectIn (twoRules.evaluateAll comparisons none versionCards
      [ascii "version", ascii "up"] atNewYear) (ascii "up")).events = [] ∧
    (effectIn ((twoRules.only (ascii "up")).evaluateAll comparisons none versionCards
      [ascii "up"] atNewYear) (ascii "up")).events.map Storage.Event.type =
        [ascii "rule.fired"] := by
  decide +kernel

def trueRules : Manager (Expr Comparison) :=
  { twoRules with
    definitions := GoMap.ofList [(ascii "again", immediateRule (ascii "again") webUp),
      (ascii "up", immediateRule (ascii "up") webUp)] }

/-- Each of them does in the loop what it does alone: it fires. -/
theorem isolated_iff_trueRules :
    (∀ order : List Bytes, order.Perm trueRules.definitions.keys →
      ∀ id ∈ trueRules.definitions.keys,
        effectIn (trueRules.evaluateAll comparisons none versionCards order atNewYear) id =
          effectIn ((trueRules.only id).evaluateAll comparisons none versionCards [id]
            atNewYear) id) ∧
    ∀ id ∈ trueRules.definitions.keys, (effectIn ((trueRules.only id).evaluateAll comparisons none
      versionCards [id] atNewYear) id).events.map Storage.Event.type = [ascii "rule.fired"] := by
  refine ⟨(isolated_iff rfl).mpr ?_, by decide +kernel⟩
  rintro ⟨a, ha, hfails⟩
  obtain ⟨e, he⟩ := exists_error_iff.mpr hfails
  have hok : ∀ a ∈ trueRules.definitions.keys,
      (outcome comparisons none versionCards atNewYear trueRules a).toOption.isSome = true := by
    decide +kernel
  have hsome := hok a ha
  rw [he] at hsome
  cases hsome

end Veduta.Rules
