import Veduta.Lib.Past
import Veduta.Rules.System

/-!
# When a rule fires and resolves

The history of a rule is the list of what its evaluations have committed, over any run of the
manager with restarts.  A rule fires after a window of true results that is as long as its
debounce, fires again only after a false result, and resolves only at the first false result
after it has fired.

That holds as long as the state in use is the one that was committed last.  `Apply` reads the
rows before it takes the lock, so an evaluation that commits between the read and the swap is
lost for the manager.
-/

namespace Veduta.Rules

open Go Lib Storage State Notify

variable {P ε : Type}

/-- What an evaluation of a rule has committed, and when. -/
structure Record where
  now : ℤ
  committed : RuleTransition

namespace Record

def IsTrue (r : Record) : Prop := r.committed.value.lastResult = Result.resultTrue.text

def IsFalse (r : Record) : Prop := r.committed.value.lastResult = Result.resultFalse.text

def Fired (r : Record) : Prop := emits r.committed.event (ascii "rule.fired")

def Resolved (r : Record) : Prop := emits r.committed.event (ascii "rule.resolved")

instance : DecidablePred IsTrue := fun _ => inferInstanceAs (Decidable (_ = _))

instance : DecidablePred IsFalse := fun _ => inferInstanceAs (Decidable (_ = _))

instance : DecidablePred Fired := fun _ => inferInstanceAs (Decidable (emits _ _))

instance : DecidablePred Resolved := fun _ => inferInstanceAs (Decidable (emits _ _))

end Record

/-- A rule has fired and no evaluation was false since. -/
def Firing (history : List Record) : Prop := Since Record.Fired (fun r => ¬r.IsFalse) history

instance : DecidablePred Firing := fun _ => inferInstanceAs (Decidable (Since _ _ _))

/-- A record is in order after what came before it. -/
@[mk_iff] structure InOrder (debounce : ℤ) (past : List Record) (r : Record) : Prop where
  /-- A rule fires after a true result as long ago as the debounce, and only true ones since. -/
  window : r.Fired →
    Since (fun x => x.IsTrue ∧ x.now ≤ r.now - debounce) Record.IsTrue (past ++ [r])
  /-- Since a rule has fired before, a result was false. -/
  once : r.Fired → ¬Firing past
  /-- A rule resolves at the first false result after it has fired. -/
  resolved : r.Resolved → r.IsFalse ∧ Firing past

instance (debounce : ℤ) (past : List Record) (r : Record) : Decidable (InOrder debounce past r) :=
  decidable_of_iff' _ (inOrder_iff debounce past r)

/-- **The firing law** of a history. -/
def FiringLaw (debounce : ℤ) (history : List Record) : Prop := Always (InOrder debounce) history

instance (debounce : ℤ) : DecidablePred (FiringLaw debounce) :=
  fun _ => inferInstanceAs (Decidable (Always _ _))

/-! ## The state of a rule and its history -/

/-- The state of a rule says what its history does. -/
structure Linked (debounce : ℤ) (s : RuleState) (history : List Record) : Prop where
  window : ∀ t, s.since = some t → s.deadline = some (t + debounce) ∧
    Since (fun x => x.IsTrue ∧ x.now = t) Record.IsTrue history
  fired : s.firedAt ≠ none ↔ Firing history

variable {d : Definition P} {current s : RuleState} {ev : Evaluation} {now debounce : ℤ}
  {past : List Record} {r : Record}

theorem firing_concat : Firing (past ++ [r]) ↔ r.Fired ∨ (Firing past ∧ ¬r.IsFalse) :=
  since_concat

theorem firing_of_silent (hfired : ¬r.Fired) (hfalse : ¬r.IsFalse) :
    Firing past ↔ Firing (past ++ [r]) := by
  rw [firing_concat]
  exact ⟨fun h => .inr ⟨h, hfalse⟩, fun h => (h.resolve_left hfired).1⟩

theorem window_opened (hlinked : Linked d.debounce current past) (hr : r.IsTrue) :
    ∃ t, (opened d current r.now).since = some t ∧
      (opened d current r.now).deadline = some (t + d.debounce) ∧
      Since (fun x => x.IsTrue ∧ x.now = t) Record.IsTrue (past ++ [r]) := by
  rw [opened]
  cases hsince : current.since with
  | none =>
    rw [if_pos rfl]
    exact ⟨r.now, rfl, rfl, since_concat.mpr (.inl ⟨hr, rfl⟩)⟩
  | some t =>
    obtain ⟨hdeadline, hwindow⟩ := hlinked.window t hsince
    rw [if_neg (by simp)]
    exact ⟨t, hsince, hdeadline, since_concat.mpr (.inr ⟨hwindow, hr⟩)⟩

/-- The history goes on with a record that is in order, and the new state says what it does. -/
theorem linked_transition (hlinked : Linked d.debounce current past)
    (hvalue : r.committed.value = (transition d current ev r.now).state)
    (hevent : r.committed.event = (transition d current ev r.now).event) :
    InOrder d.debounce past r ∧ Linked d.debounce r.committed.value (past ++ [r]) := by
  have htext : r.committed.value.lastResult = ev.result.text := by
    rw [hvalue]
    exact (transition_stamp d current ev r.now).2.2
  cases hresult : ev.result with
  | resultTrue =>
    rw [hresult] at htext
    have hnotFalse : ¬r.IsFalse := by
      rw [Record.IsFalse, htext]
      decide
    obtain ⟨hsince, hdeadline, hresolved, hcases⟩ := transition_true d current r.now hresult
    rw [← hevent] at hresolved hcases
    obtain ⟨t, ht, hend, hwindow⟩ := window_opened (r := r) hlinked htext
    have hopen : ∀ u, r.committed.value.since = some u →
        r.committed.value.deadline = some (u + d.debounce) ∧
          Since (fun x => x.IsTrue ∧ x.now = u) Record.IsTrue (past ++ [r]) := by
      intro u hu
      rw [hvalue, hsince, ht] at hu
      cases hu
      rw [hvalue, hdeadline]
      exact ⟨hend, hwindow⟩
    rcases hcases with ⟨hdue, hfiredAt, hfired⟩ | ⟨-, hfiredAt, hfired, -⟩
    · have hpast : ¬Firing past := by
        rw [← hlinked.fired]
        exact not_not.mpr hdue.2
      refine ⟨⟨fun _ => ?_, fun _ => hpast, fun h => absurd h hresolved⟩, hopen, ?_⟩
      · -- The window has been open since `t`, and its deadline has passed.
        have hle : t + d.debounce ≤ r.now := by simpa [isPast, hend] using hdue.1
        exact hwindow.imp fun x hx => ⟨hx.1, by omega⟩
      · rw [hvalue, hfiredAt, firing_concat]
        exact iff_of_true (by simp) (.inl hfired)
    · refine ⟨⟨fun h => absurd h hfired, fun h => absurd h hfired, fun h => absurd h hresolved⟩,
        hopen, ?_⟩
      rw [hvalue, hfiredAt, hlinked.fired]
      exact firing_of_silent hfired hnotFalse
  | resultFalse =>
    rw [hresult] at htext
    obtain ⟨hsince, hfiredAt, hfired, hresolved⟩ := transition_false d current r.now hresult
    rw [← hevent] at hfired hresolved
    refine ⟨⟨fun h => absurd h hfired, fun h => absurd h hfired,
      fun h => ⟨htext, hlinked.fired.mp (hresolved h)⟩⟩, fun t ht => ?_, ?_⟩
    · rw [hvalue, hsince] at ht
      cases ht
    · rw [hvalue, hfiredAt, firing_concat]
      refine iff_of_false (by simp) fun h => ?_
      rcases h with h | ⟨-, h⟩
      · exact hfired h
      · exact h htext
  | resultUnknown =>
    rw [hresult] at htext
    have hnotFalse : ¬r.IsFalse := by
      rw [Record.IsFalse, htext]
      decide
    obtain ⟨hsince, hfiredAt, hfired, hresolved⟩ := transition_unknown d current r.now hresult
    rw [← hevent] at hfired hresolved
    refine ⟨⟨fun h => absurd h hfired, fun h => absurd h hfired,
      fun h => absurd h hresolved⟩, fun t ht => ?_, ?_⟩
    · rw [hvalue, hsince] at ht
      cases ht
    · rw [hvalue, hfiredAt, hlinked.fired]
      exact firing_of_silent hfired hnotFalse

/-- A state that is not the current one stays right if the evaluation neither fires the rule, nor
resolves it, nor ends the window of that state. -/
def Harmless (stale current : RuleState) (d : Definition P) (ev : Evaluation) (now : ℤ) : Prop :=
  match ev.result with
  | .resultTrue => ¬IsDue d current now
  | .resultFalse => current.firedAt = none ∧ stale.since = none
  | .resultUnknown => stale.since = none

/-! ## Runs -/

section

variable (evaluate : Interpreter P ε) (id hash : Bytes) (debounce)

/-- What a step commits for a rule. -/
def committed (w : World P) (e : Event P) : Option Record :=
  match e, w.sweep with
  | .next t, some ⟨a :: _, cards, _⟩ =>
    if a = id then
      match (w.manager.evaluateLocked evaluate w.channels cards id t).2 with
      | .ok (some c) => some ⟨t.now, c⟩
      | _ => none
    else none
  | _, _ => none

/-- **No evaluation of the rule that matters commits** after `Apply` has read its row and before
it swaps the rules in. -/
def Undisturbed (w : World P) (e : Event P) : Prop :=
  ∀ a stale t rest cards own d ev, w.applying = some a → a.states.lookup id = some stale →
    e = .next t → w.sweep = some ⟨id :: rest, cards, own⟩ →
    w.manager.definitions.lookup id = some d →
    evaluate d.program cards w.manager.declarations = .ok ev →
    Fails evaluate w.channels cards (fun _ => t) w.manager id ∨
      Harmless stale (w.manager.stateOf id) d ev t.now

/-- The rule keeps the hash of its definition, which covers its debounce. -/
def Steady : Event P → Prop
  | .applyStart definitions _ =>
    ∀ d ∈ definitions, d.id = id → d.hash = hash ∧ d.debounce = debounce
  | _ => True

/-- The manager has the rule as it was committed last. -/
structure Manager.Sound (m : Manager P) (past : List Record) : Prop where
  keyed : ∀ k d, m.definitions.lookup k = some d → d.id = k
  steady : ∀ d, m.definitions.lookup id = some d → d.hash = hash ∧ d.debounce = debounce
  linked : ∀ d, m.definitions.lookup id = some d → Linked debounce (m.stateOf id) past

/-- What an `Apply` has read is right. -/
structure Applying.Sound (a : Applying P) (past : List Record) : Prop where
  todo : ∀ d ∈ a.todo, d.id = id → d.hash = hash ∧ d.debounce = debounce
  keyed : ∀ k d, a.definitions.lookup k = some d → d.id = k
  steady : ∀ d, a.definitions.lookup id = some d → d.hash = hash ∧ d.debounce = debounce
  linked : ∀ d, a.definitions.lookup id = some d →
    ∃ s, a.states.lookup id = some s ∧ Linked debounce s past

/-- The states of a rule in the manager, in the database and in an `Apply` say what its history
does, and the history obeys the law. -/
structure World.Sound (w : World P) (past : List Record) : Prop where
  law : FiringLaw debounce past
  row : Linked debounce (restore w.store id hash) past
  manager : w.manager.Sound debounce id hash past
  applying : ∀ a, w.applying = some a → a.Sound debounce id hash past

end

section

variable {evaluate : Interpreter P ε} {id hash : Bytes} {w w' : World P} {a : Applying P}
  {e : Event P}

/-- A harmless record goes on with the history of a state that it does not change. -/
theorem Linked.of_harmless {stale : RuleState} (hstale : Linked d.debounce stale past)
    (hlinked : Linked d.debounce current past) (hharmless : Harmless stale current d ev r.now)
    (hvalue : r.committed.value = (transition d current ev r.now).state)
    (hevent : r.committed.event = (transition d current ev r.now).event) :
    Linked d.debounce stale (past ++ [r]) := by
  have htext : r.committed.value.lastResult = ev.result.text := by
    rw [hvalue]
    exact (transition_stamp d current ev r.now).2.2
  rw [Harmless] at hharmless
  cases hresult : ev.result with
  | resultTrue =>
    rw [hresult] at htext hharmless
    obtain ⟨-, -, -, hcases⟩ := transition_true d current r.now hresult
    rw [← hevent] at hcases
    obtain ⟨-, -, hfired, -⟩ := hcases.resolve_left fun h => hharmless h.1
    refine ⟨fun t ht => ?_, ?_⟩
    · obtain ⟨hdeadline, hwindow⟩ := hstale.window t ht
      exact ⟨hdeadline, since_concat.mpr (.inr ⟨hwindow, htext⟩)⟩
    · rw [hstale.fired]
      refine firing_of_silent hfired ?_
      rw [Record.IsFalse, htext]
      decide
  | resultFalse =>
    rw [hresult] at htext hharmless
    obtain ⟨hnone, hsince⟩ := hharmless
    obtain ⟨-, -, hfired, -⟩ := transition_false d current r.now hresult
    rw [← hevent] at hfired
    refine ⟨fun t ht => ?_, ?_⟩
    · rw [hsince] at ht
      cases ht
    · have hpast : ¬Firing past := by
        rw [← hlinked.fired]
        exact not_not.mpr hnone
      rw [hstale.fired, firing_concat]
      refine iff_of_false hpast fun h => ?_
      rcases h with h | ⟨h, -⟩
      · exact hfired h
      · exact hpast h
  | resultUnknown =>
    rw [hresult] at htext hharmless
    obtain ⟨-, -, hfired, -⟩ := transition_unknown d current r.now hresult
    rw [← hevent] at hfired
    refine ⟨fun t ht => ?_, ?_⟩
    · rw [hharmless] at ht
      cases ht
    · rw [hstale.fired]
      refine firing_of_silent hfired ?_
      rw [Record.IsFalse, htext]
      decide

theorem Applying.Sound.read (ha : a.Sound debounce id hash past) {store : RuleStore}
    (hrow : Linked debounce (restore store id hash) past) {todo : List (Definition P)}
    (htodo : a.todo = d :: todo) {readable : Bool} {a' : Applying P}
    (h : a.read store d todo readable = some a') : a'.Sound debounce id hash past := by
  rw [Applying.read] at h
  split_ifs at h
  cases h
  have hd := ha.todo d (by simp [htodo])
  refine ⟨fun x hx => ha.todo x (by simp [htodo, hx]), fun k x hx => ?_, fun x hx => ?_,
    fun x hx => ?_⟩
  · dsimp only at hx
    rcases GoMap.lookup_of_insert hx with ⟨rfl, rfl⟩ | hold
    · rfl
    · exact ha.keyed k x hold
  · dsimp only at hx
    rcases GoMap.lookup_of_insert hx with ⟨hk, rfl⟩ | hold
    · exact hd hk.symm
    · exact ha.steady x hold
  · dsimp only at hx ⊢
    by_cases hk : id = d.id
    · refine ⟨restore store d.id d.hash, by rw [hk, AList.lookup_insert], ?_⟩
      rw [← hk, (hd hk.symm).1]
      exact hrow
    · rw [AList.lookup_insert_ne hk] at hx ⊢
      exact ha.linked x hx

theorem Applying.Sound.swap (ha : a.Sound debounce id hash past) :
    (Manager.swap a).Sound debounce id hash past where
  keyed := ha.keyed
  steady := ha.steady
  linked d hd := by
    obtain ⟨s, hs, hlinked⟩ := ha.linked d hd
    have hstate : (Manager.swap a).stateOf id = s := by
      simp [Manager.swap, Manager.stateOf, GoMap.get, hs]
    rw [hstate]
    exact hlinked

theorem Manager.Sound.congr {m m' : Manager P} (hm : m.Sound debounce id hash past)
    (hd : m'.definitions = m.definitions) (hs : m'.stateOf id = m.stateOf id) :
    m'.Sound debounce id hash past := by
  refine ⟨?_, ?_, ?_⟩
  · rw [hd]
    exact hm.keyed
  · rw [hd]
    exact hm.steady
  · rw [hd, hs]
    exact hm.linked

theorem sound_committed (store : RuleStore) {m : Manager P} {c : RuleTransition}
    {applying : Option (Applying P)} {t : Tick}
    (hlaw : FiringLaw debounce past) (hm : m.Sound debounce id hash past)
    (ha : ∀ a, applying = some a → a.Sound debounce id hash past)
    (hd : m.definitions.lookup id = some d)
    (hvalue : c.value = (transition d (m.stateOf id) ev t.now).state)
    (hevent : c.event = (transition d (m.stateOf id) ev t.now).event)
    (hvalid : c.event.all validateEvent = true)
    (hharmless : ∀ a stale, applying = some a → a.states.lookup id = some stale →
      Harmless stale (m.stateOf id) d ev t.now) :
    FiringLaw debounce (past ++ [⟨t.now, c⟩]) ∧
      Linked debounce (restore (written store (some c)) id hash) (past ++ [⟨t.now, c⟩]) ∧
      Linked debounce c.value (past ++ [⟨t.now, c⟩]) ∧
      ∀ a, applying = some a → a.Sound debounce id hash (past ++ [⟨t.now, c⟩]) := by
  have hlinked := hm.linked d hd
  obtain ⟨hhash, hdebounce⟩ := hm.steady d hd
  rw [← hdebounce] at hlinked ⊢
  obtain ⟨horder, hnew⟩ := linked_transition (r := ⟨t.now, c⟩) hlinked hvalue hevent
  obtain ⟨hid, hstamp, -⟩ := transition_stamp d (m.stateOf id) ev t.now
  rw [← hdebounce] at hlaw
  refine ⟨hlaw.concat horder, ?_, hnew, fun a happlying => ?_⟩
  · rw [restore_written hvalid (by rw [hvalue, hid, hm.keyed id d hd])
      (by rw [hvalue, hstamp, hhash])]
    exact hnew
  · have hsound := ha a happlying
    rw [← hdebounce] at hsound
    refine ⟨hsound.todo, hsound.keyed, hsound.steady, fun x hx => ?_⟩
    obtain ⟨stale, hstale, hold⟩ := hsound.linked x hx
    exact ⟨stale, hstale,
      hold.of_harmless hlinked (hharmless a stale happlying hstale) hvalue hevent⟩

theorem sound_next {t : Tick} (hw : w.Sound debounce id hash past)
    (h : step evaluate (.next t) w = some w') (hfree : Undisturbed evaluate id w (.next t)) :
    w'.Sound debounce id hash (past ++ (committed evaluate id w (.next t)).toList) := by
  obtain ⟨b, rest, cards, own, hsweep, -, hcases⟩ := next_cases h
  have hevaluated := evaluated evaluate w.channels cards w.manager b t
  rcases hcases with ⟨m, e, hresult, rfl⟩ | ⟨m, c, hresult, rfl⟩
  · have hnone : committed evaluate id w (.next t) = none := by
      simp only [committed, hsweep]
      split_ifs with hid
      · rw [← hid, hresult]
      · rfl
    rw [hnone, Option.toList_none, List.append_nil]
    rw [hresult] at hevaluated
    refine ⟨hw.law, hw.row, ?_, hw.applying⟩
    cases hevaluated with
    | predicate d e hd hev => exact hw.manager
    | failed d ev e hd hev =>
      exact hw.manager.congr (rearm_definitions ..) (rearm_stateOf ..)
  · rw [hresult] at hevaluated
    cases hevaluated with
    | absent hd =>
      have hnone : committed evaluate id w (.next t) = none := by
        simp only [committed, hsweep]
        split_ifs with hid
        · rw [← hid, hresult]
        · rfl
      rw [hnone, Option.toList_none, List.append_nil]
      exact ⟨hw.law, hw.row, hw.manager, hw.applying⟩
    | committed d ev c hd hev hvalue hevent hvalid =>
      by_cases hid : b = id
      · subst hid
        have hsome : committed evaluate b w (.next t) = some ⟨t.now, c⟩ := by
          simp [committed, hsweep, hresult]
        rw [hsome, Option.toList_some]
        have hfails : ¬Fails evaluate w.channels cards (fun _ => t) w.manager b := by
          rw [← exists_evaluateLocked_error_iff]
          simp [hresult]
        have hharmless : ∀ a stale, w.applying = some a → a.states.lookup b = some stale →
            Harmless stale (w.manager.stateOf b) d ev t.now := by
          intro a stale ha hstale
          exact (hfree a stale t rest cards own d ev ha hstale rfl hsweep hd hev).resolve_left
            hfails
        obtain ⟨hlaw, hrow, hnew, happlying⟩ := sound_committed w.store hw.law
          hw.manager hw.applying hd hvalue hevent hvalid hharmless
        refine ⟨hlaw, hrow, ⟨?_, ?_, fun x _ => ?_⟩, happlying⟩
        · simpa using hw.manager.keyed
        · simpa using hw.manager.steady
        · simpa [Manager.stateOf, GoMap.get] using hnew
      · have hnone : committed evaluate id w (.next t) = none := by
          simp [committed, hsweep, hid]
        rw [hnone, Option.toList_none, List.append_nil]
        have hne : id ≠ c.value.ruleID := by
          rw [hvalue, (transition_stamp d _ ev t.now).1, hw.manager.keyed b d hd]
          exact Ne.symm hid
        refine ⟨hw.law, ?_, hw.manager.congr (rearm_definitions ..) ?_, hw.applying⟩
        · have hrestore : restore (written w.store (some c)) id hash = restore w.store id hash :=
            restore_congr (by rw [rules_written hvalid, AList.lookup_insert_ne hne])
          rw [hrestore]
          exact hw.row
        · simp [Manager.stateOf, GoMap.get, AList.lookup_insert_ne (Ne.symm hid)]

theorem sound_other (hw : w.Sound debounce id hash past) (h : step evaluate e w = some w')
    (hnext : ∀ t, e ≠ .next t) (hsteady : Steady debounce id hash e) :
    w'.Sound debounce id hash past := by
  cases e with
  | next t => exact absurd rfl (hnext t)
  | applyStart definitions declarations =>
    simp only [step] at h
    split at h
    · cases h
      refine ⟨hw.law, hw.row, hw.manager, fun a ha => ?_⟩
      cases ha
      exact ⟨hsteady, by simp, by simp, by simp⟩
    · cases h
  | applyRead readable =>
    simp only [step] at h
    split at h
    case h_2 => cases h
    case h_1 a ha =>
      split at h
      case h_2 => cases h
      case h_1 d todo htodo =>
        cases h
        exact ⟨hw.law, hw.row, hw.manager,
          fun _ hread => (hw.applying a ha).read hw.row htodo hread⟩
  | applySwap =>
    simp only [step] at h
    split at h
    case h_2 => cases h
    case h_1 a ha _ =>
      split_ifs at h
      cases h
      exact ⟨hw.law, hw.row, (hw.applying a ha).swap, by simp⟩
  | activate | close =>
    simp only [step] at h
    split_ifs at h
    cases h
    exact ⟨hw.law, hw.row, hw.manager.congr rfl rfl, hw.applying⟩
  | sweep own cards order =>
    simp only [step] at h
    split_ifs at h
    · cases h
      exact ⟨hw.law, hw.row, hw.manager, hw.applying⟩
    · cases h
      exact ⟨hw.law, hw.row, hw.manager, hw.applying⟩
  | cancelled =>
    simp only [step] at h
    split_ifs at h
    cases h
    exact ⟨hw.law, hw.row, hw.manager, hw.applying⟩
  | done =>
    simp only [step] at h
    split at h
    · cases h
      exact ⟨hw.law, hw.row, hw.manager, hw.applying⟩
    · cases h
  | wait | setChannels | deliver =>
    cases h
    exact ⟨hw.law, hw.row, hw.manager, hw.applying⟩
  | restart =>
    cases h
    exact ⟨hw.law, hw.row, ⟨by simp [Manager.new], by simp [Manager.new], by simp [Manager.new]⟩,
      by simp⟩

theorem sound_step (hw : w.Sound debounce id hash past) (h : step evaluate e w = some w')
    (hC : Undisturbed evaluate id w e ∧ Steady debounce id hash e) :
    w'.Sound debounce id hash (past ++ (committed evaluate id w e).toList) := by
  by_cases hnext : ∃ t, e = .next t
  · obtain ⟨t, rfl⟩ := hnext
    exact sound_next hw h hC.1
  · have hne : ∀ t, e ≠ .next t := fun t ht => hnext ⟨t, ht⟩
    have hnone : committed evaluate id w e = none := by
      rw [committed]
      intro t _ _ _ _ he
      exact absurd he (hne t)
    rw [hnone, Option.toList_none, List.append_nil]
    exact sound_other hw h hne hC.2

theorem sound_new (now : ℤ) :
    (World.new now : World P).Sound debounce id hash [] where
  law := always_nil
  row := ⟨fun t ht => by simp [World.new, RuleStore.empty, restore, RuleStore.getRuleState,
      zeroState] at ht,
    iff_of_false (by simp [World.new, RuleStore.empty, restore, RuleStore.getRuleState, zeroState])
      not_since_nil⟩
  manager := ⟨by simp [World.new, Manager.new], by simp [World.new, Manager.new],
    by simp [World.new, Manager.new]⟩
  applying a ha := by cases ha

/-- **The firing law**: in every run from a new database, restarts included, in which the
definition of a rule stays and no evaluation that matters commits between the read of its row by
`Apply` and the swap, the history of the rule obeys the law. -/
theorem firing_law (evaluate : Interpreter P ε) (id hash : Bytes) (debounce now : ℤ)
    (es : List (Event P)) (w : World P)
    (hrun : run (step evaluate) (.new now) es = some w)
    (hsteady : ∀ e ∈ es, Steady debounce id hash e)
    (hfree : Along (step evaluate) (fun w e _ => Undisturbed evaluate id w e) (.new now) es) :
    FiringLaw debounce (trace (step evaluate) (committed evaluate id) (.new now) es) :=
  (invariant_trace sound_step (sound_new now) (hfree.and_mem hsteady) hrun).law

end

/-- A rule that waits, fires, and is resolved after a restart. -/
def calmRun : List (Event (Expr Comparison)) :=
  activation slowRule versionCards (after 0) ++
    [Event.sweep false versionCards [ascii "up"], .next (after 7), .done, .restart] ++
    activation slowRule failedWeb (after 9)

/-- No evaluation runs while a configuration is applied. -/
def calm (w : World P) : Event P → Bool
  | .next _ => w.applying.isNone
  | _ => true

theorem undisturbed_of_calm {evaluate : Interpreter P ε} {id : Bytes} {w : World P} {e : Event P}
    (h : calm w e = true) :
    Undisturbed evaluate id w e := by
  intro a stale t rest cards own d ev ha _ he
  subst he
  rw [calm, ha] at h
  cases h

theorem firing_law_calmRun :
    (run (step comparisons) (.new newYear) calmRun).isSome = true ∧
      FiringLaw 5 (trace (step comparisons) (committed comparisons (ascii "up")) (.new newYear)
        calmRun) := by
  have hsome : (run (step comparisons) (.new newYear) calmRun).isSome = true := by decide +kernel
  obtain ⟨w, hw⟩ := Option.isSome_iff_exists.mp hsome
  have hsteady : ∀ e ∈ calmRun, Steady 5 (ascii "up") slowRule.hash e := by
    simp [calmRun, activation, Steady, slowRule, immediateRule]
  have hcalm : Along (step comparisons) (fun w e _ => calm w e = true) (.new newYear) calmRun := by
    decide +kernel
  have hfree : Along (step comparisons) (fun w e _ => Undisturbed comparisons (ascii "up") w e)
      (.new newYear) calmRun := by
    refine along_of_invariant (I := fun _ => True) (fun _ _ => trivial) ?_ trivial hcalm
    intro w e w' _ _ h
    exact undisturbed_of_calm h
  exact ⟨hsome, firing_law comparisons _ _ _ _ _ w hw hsteady hfree⟩

/-- The row of a rule is read, the rule fires, and the rules are swapped in with what was read. -/
def hastyRun : List (Event (Expr Comparison)) :=
  activation (immediateRule (ascii "up") webUp) failedWeb (after 0) ++
    [Event.applyStart [immediateRule (ascii "up") webUp] ∅, .applyRead true,
      .sweep false versionCards [ascii "up"], .next (after 1), .done,
      .applySwap, .activate, .sweep true versionCards [ascii "up"], .next (after 2), .done]

/-- The rule fires twice, and no result is false in between. -/
theorem swap_forgets_alert :
    (run (step comparisons) (.new newYear) hastyRun).isSome = true ∧
      (∀ e ∈ hastyRun, Steady 0 (ascii "up") (immediateRule (ascii "up") webUp).hash e) ∧
      ¬FiringLaw 0 (trace (step comparisons) (committed comparisons (ascii "up")) (.new newYear)
        hastyRun) := by
  refine ⟨by decide +kernel, ?_, by decide +kernel⟩
  simp [hastyRun, activation, Steady, immediateRule]

end Veduta.Rules
