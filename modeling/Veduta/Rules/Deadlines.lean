import Veduta.Rules.System

/-!
# Deadlines

A rule that is pending waits for its deadline: nothing else need happen to its cards, so the
manager arms a timer that evaluates the rules again.  The evaluation of a rule stops its timer
first, and arms it again if the result is true and the rule is still pending.

The state of a rule changes only if the evaluation commits, so a result that is not true and
does not commit leaves a rule that is pending without its timer.  `Apply` stops all timers and
restores the states; `Evaluate` makes the manager active under one lock and evaluates the rules,
which arms them again, under the next.  These are the two ways to a pending rule without a timer.
-/

namespace Veduta.Rules

open Go Lib Storage State Notify

variable {P ε : Type}

/-- A state waits for a deadline that has not come. -/
@[mk_iff] structure Pending (s : RuleState) (now deadline : ℤ) : Prop where
  waits : s.since ≠ none
  until_ : s.deadline = some deadline
  unfired : s.firedAt = none
  ahead : now < deadline

instance (s : RuleState) (now deadline : ℤ) : Decidable (Pending s now deadline) :=
  decidable_of_iff' _ (pending_iff s now deadline)

/-- A rule that is pending has a timer that is live and fires by its deadline. -/
def Armed (w : World P) (id : Bytes) : Prop :=
  ∀ deadline, Pending (w.manager.stateOf id) w.clock deadline →
    ∃ t, w.manager.timers.lookup id = some t ∧ w.clock < t ∧ t ≤ deadline

/-- The manager is active and no evaluation holds its lock. -/
@[mk_iff] structure Outside (w : World P) : Prop where
  active : w.manager.active = true
  opened : w.closed = false
  unlocked : w.sweep = none

instance (w : World P) : Decidable (Outside w) :=
  have : Decidable (w.sweep = none) := decidable_of_iff _ Option.isNone_iff_eq_none
  decidable_of_iff' _ (outside_iff w)

/-- **Every pending rule is armed**, if the manager is active and its lock is free. -/
def Watched (w : World P) : Prop :=
  Outside w → ∀ id, w.manager.definitions.lookup id ≠ none → Armed w id

/-- **Nothing is left undone**, unless the manager is closed: `Evaluate` makes a manager active
while none of its rules is pending, and the evaluation of a pending rule whose result is not true
commits. -/
def Rearmed (evaluate : Interpreter P ε) (w : World P) : Event P → Prop
  | .activate =>
    w.closed = false → w.manager.active = false → ∀ id deadline,
      w.manager.definitions.lookup id ≠ none → ¬Pending (w.manager.stateOf id) w.clock deadline
  | .next t =>
    w.closed = false → ∀ id rest cards own, w.sweep = some ⟨id :: rest, cards, own⟩ →
      Fails evaluate w.channels cards (fun _ => t) w.manager id →
      ∀ d ev deadline, w.manager.definitions.lookup id = some d →
        evaluate d.program cards w.manager.declarations = .ok ev →
        Pending (w.manager.stateOf id) t.later deadline → ev.result = .resultTrue
  | _ => True

/-- The timer of a rule is the one for its deadline. -/
def OnTime (m : Manager P) (now : ℤ) (id : Bytes) : Prop :=
  ∀ deadline, Pending (m.stateOf id) now deadline → m.timers.lookup id = some deadline

/-- Every rule of an active manager has its timer, and an inactive manager has none. -/
structure Guarded (w : World P) : Prop where
  idle : w.manager.active = false → w.manager.timers = ∅ ∧ w.sweep = none
  onTime : w.manager.active = true → w.closed = false →
    ∀ id, w.manager.definitions.lookup id ≠ none → OnTime w.manager w.clock id

section

variable {evaluate : Interpreter P ε} {w w' : World P} {e : Event P} {m m' : Manager P}
  {id other : Bytes} {now later : ℤ}
  {d : Definition P} {ev : Evaluation} {s : RuleState} {deadline : ℤ} {t : Tick}

theorem timers_rearm_some :
    (m.rearm id (some deadline) later).timers.lookup id = some (max later deadline) := by
  simp [Manager.rearm]

theorem timers_rearm_none : (m.rearm id none later).timers.lookup id = none := by
  simp [Manager.rearm]

theorem timers_rearm_ne (h : other ≠ id) (arm : Option ℤ) :
    (m.rearm id arm later).timers.lookup other = m.timers.lookup other := by
  cases arm with
  | none => simp [Manager.rearm, AList.lookup_erase_ne h]
  | some deadline =>
    simp [Manager.rearm, AList.lookup_insert_ne h, AList.lookup_erase_ne h]

theorem Pending.mono (h : Pending s later deadline) (hle : now ≤ later) : Pending s now deadline :=
  ⟨h.waits, h.until_, h.unfired, by have := h.ahead; omega⟩

theorem OnTime.mono (h : OnTime m now id) (hle : now ≤ later)
    (htimers : m'.timers.lookup id = m.timers.lookup id) (hstate : m'.stateOf id = m.stateOf id) :
    OnTime m' later id := by
  intro deadline hpending
  rw [htimers]
  rw [hstate] at hpending
  exact h deadline (hpending.mono hle)

theorem arm_of_pending (hresult : ev.result = .resultTrue)
    (h : Pending (transition d s ev now).state now deadline) :
    (transition d s ev now).arm = some deadline := by
  obtain ⟨-, hdeadline, -, hcases⟩ := transition_true d s now hresult
  rcases hcases with ⟨-, hfired, -⟩ | ⟨-, hfired, -, harm⟩
  · have := h.unfired
    rw [hfired] at this
    cases this
  · rw [harm (by rw [← hfired]; exact h.unfired), ← hdeadline]
    exact h.until_

theorem arm_of_result_ne (h : ev.result ≠ .resultTrue) : (transition d s ev now).arm = none := by
  cases hresult : ev.result with
  | resultTrue => exact absurd hresult h
  | resultFalse =>
    simp only [transition, hresult]
    split_ifs <;> rfl
  | resultUnknown => simp only [transition, hresult]

theorem Pending.transition (hresult : ev.result = .resultTrue) (h : Pending s now deadline) :
    Pending (transition d s ev now).state now deadline := by
  have hopened : opened d s now = s := by
    rw [opened, if_neg h.waits]
  obtain ⟨hsince, hdeadline, -, hcases⟩ :=
    transition_true d s now hresult
  rw [hopened] at hsince hdeadline
  have hdue : ¬IsDue d s now := by
    intro hdue
    have hpast := hdue.1
    have hahead := h.ahead
    simp only [hopened, isPast, h.until_, decide_eq_true_eq] at hpast
    omega
  obtain ⟨-, hfired, -⟩ := hcases.resolve_left fun hc => hdue hc.1
  exact ⟨by rw [hsince]; exact h.waits, by rw [hdeadline]; exact h.until_,
    by rw [hfired]; exact h.unfired, h.ahead⟩

theorem result_of_pending (h : Pending (transition d s ev now).state later deadline) :
    ev.result = .resultTrue := by
  cases hresult : ev.result with
  | resultTrue => rfl
  | resultFalse =>
    exact absurd (transition_false d s now hresult).1 h.waits
  | resultUnknown =>
    exact absurd (transition_unknown d s now hresult).1 h.waits

/-- The timers after an evaluation, if a rule that is pending and no longer true commits. -/
theorem onTime_evaluateLocked (channels : Option (GoMap Bytes Channel))
    (cards : GoMap Bytes CardState) (m : Manager P) (id : Bytes) (hnow : now ≤ t.now)
    (hcommit : Fails evaluate channels cards (fun _ => t) m id → ∀ d ev deadline,
      m.definitions.lookup id = some d → evaluate d.program cards m.declarations = .ok ev →
      Pending (m.stateOf id) t.later deadline → ev.result = .resultTrue)
    (hother : OnTime m now other) :
    OnTime (m.evaluateLocked evaluate channels cards id t).1 t.later other := by
  have hle : now ≤ t.later := hnow.trans t.le
  have hfails := exists_evaluateLocked_error_iff evaluate channels cards m id t
  have hevaluated := evaluated evaluate channels cards m id t
  generalize m.evaluateLocked evaluate channels cards id t = result at *
  cases hevaluated with
  | absent hd => exact hother.mono hle rfl rfl
  | predicate d e hd hev => exact hother.mono hle rfl rfl
  | failed d ev e hd hev =>
    by_cases hid : other = id
    · subst hid
      intro deadline hpending
      rw [rearm_stateOf] at hpending
      have hresult := hcommit (hfails.mp ⟨_, rfl⟩) d ev deadline hd hev hpending
      have harm := arm_of_pending hresult ((hpending.mono t.le).transition (d := d) hresult)
      rw [harm, timers_rearm_some, max_eq_right hpending.ahead.le]
    · exact hother.mono hle (timers_rearm_ne hid _) (rearm_stateOf ..)
  | committed d ev c hd hev hvalue hevent hvalid =>
    by_cases hid : other = id
    · subst hid
      intro deadline hpending
      have hstate : c.value = (transition d (m.stateOf other) ev t.now).state := hvalue
      simp only [Manager.stateOf, GoMap.get, AList.lookup_insert, Option.getD_some] at hpending
      rw [hstate] at hpending
      have hresult := result_of_pending hpending
      have harm := arm_of_pending hresult (hpending.mono t.le)
      dsimp only
      rw [harm, timers_rearm_some, max_eq_right hpending.ahead.le]
    · refine hother.mono hle (timers_rearm_ne hid _) ?_
      simp [Manager.stateOf, GoMap.get, AList.lookup_insert_ne hid]

/-! ## Runs -/

theorem Guarded.active (hw : Guarded w) {s : Sweep} (hsweep : w.sweep = some s) :
    w.manager.active = true := by
  cases hactive : w.manager.active with
  | true => rfl
  | false =>
    rw [(hw.idle hactive).2] at hsweep
    cases hsweep

theorem Guarded.watched (hw : Guarded w) : Watched w := by
  intro houtside id hdefined deadline hpending
  exact ⟨deadline, hw.onTime houtside.active houtside.opened id hdefined deadline hpending,
    hpending.ahead, le_refl _⟩

theorem guarded_next (hw : Guarded w) (h : step evaluate (.next t) w = some w')
    (hC : Rearmed evaluate w (.next t)) : Guarded w' := by
  obtain ⟨id, rest, cards, own, hsweep, hclock, hcases⟩ := next_cases h
  have hframe := frame_outcome evaluate w.channels cards (fun _ => t) w.manager id
  have hactive := hw.active hsweep
  have honTime : w.closed = false → ∀ other, w.manager.definitions.lookup other ≠ none →
      OnTime (w.manager.evaluateLocked evaluate w.channels cards id t).1 t.later other := by
    intro hclosed other hdefined
    exact onTime_evaluateLocked w.channels cards w.manager id hclock
      (hC hclosed id rest cards own hsweep) (hw.onTime hactive hclosed other hdefined)
  rw [← hframe.definitions] at honTime
  have hidle := hframe.active.trans hactive
  rcases hcases with ⟨m, e, hresult, rfl⟩ | ⟨m, c, hresult, rfl⟩ <;> rw [hresult] at honTime hidle
  all_goals
    refine ⟨fun hinactive => ?_, fun _ hclosed => honTime hclosed⟩
    exact absurd (hidle.symm.trans hinactive) (by decide)

theorem guarded_step (hw : Guarded w) (h : step evaluate e w = some w')
    (hC : Rearmed evaluate w e) : Guarded w' := by
  cases e with
  | next t => exact guarded_next hw h hC
  | applyStart definitions declarations =>
    simp only [step] at h
    split at h
    · cases h
      exact ⟨hw.idle, hw.onTime⟩
    · cases h
  | applyRead readable =>
    simp only [step] at h
    split at h
    · split at h
      · cases h
        exact ⟨hw.idle, hw.onTime⟩
      · cases h
    · cases h
  | applySwap =>
    simp only [step] at h
    split at h
    case h_1 a happlying hsweep =>
      split_ifs at h
      cases h
      exact ⟨fun _ => ⟨rfl, hsweep⟩, by simp [Manager.swap]⟩
    case h_2 => cases h
  | activate =>
    simp only [step] at h
    split_ifs at h
    cases h
    refine ⟨by simp, fun _ hclosed id hdefined => ?_⟩
    cases hactive : w.manager.active with
    | true => exact hw.onTime hactive hclosed id hdefined
    | false =>
      intro deadline hpending
      exact absurd hpending (hC hclosed hactive id deadline hdefined)
  | sweep own cards order =>
    simp only [step] at h
    split_ifs at h with hguard hactive <;> cases h
    · exact ⟨fun hinactive => absurd (hactive.symm.trans hinactive) (by decide), hw.onTime⟩
    · exact ⟨fun hinactive => ⟨(hw.idle hinactive).1, rfl⟩, hw.onTime⟩
  | cancelled =>
    simp only [step] at h
    split_ifs at h
    cases h
    exact ⟨hw.idle, hw.onTime⟩
  | done =>
    simp only [step] at h
    split at h
    · cases h
      exact ⟨fun hinactive => ⟨(hw.idle hinactive).1, rfl⟩, hw.onTime⟩
    · cases h
  | wait duration =>
    cases h
    refine ⟨hw.idle, fun hactive hclosed id hdefined => ?_⟩
    exact (hw.onTime hactive hclosed id hdefined).mono (by dsimp only; omega) rfl rfl
  | close =>
    simp only [step] at h
    split_ifs at h
    cases h
    exact ⟨fun hinactive => ⟨rfl, (hw.idle hinactive).2⟩, by simp⟩
  | restart =>
    cases h
    exact ⟨fun _ => ⟨rfl, rfl⟩, by simp [Manager.new]⟩
  | setChannels | deliver =>
    cases h
    exact ⟨hw.idle, hw.onTime⟩

/-- A step that leaves something undone leaves a pending rule without its timer. -/
theorem rearmed_of_watched (hw : Guarded w) (h : step evaluate e w = some w')
    (hwatched : Watched w') : Rearmed evaluate w e := by
  cases e with
  | activate =>
    intro hclosed hactive id deadline hdefined hpending
    obtain ⟨htimers, hsweep⟩ := hw.idle hactive
    simp only [step] at h
    split_ifs at h
    cases h
    obtain ⟨t, ht, -⟩ := hwatched ⟨rfl, hclosed, hsweep⟩ id hdefined deadline hpending
    rw [htimers] at ht
    cases ht
  | next t =>
    intro hclosed id rest cards own hsweep hfails d ev deadline hd hev hpending
    obtain ⟨id', rest', cards', own', hsweep', -, hcases⟩ := next_cases h
    cases hsweep.symm.trans hsweep'
    obtain ⟨e, he⟩ := (exists_evaluateLocked_error_iff ..).mpr hfails
    have hevaluated := evaluated evaluate w.channels cards w.manager id t
    rcases hcases with ⟨m, e, hresult, rfl⟩ | ⟨m, c, hresult, rfl⟩ <;> rw [hresult] at he hevaluated
    · cases hevaluated with
      | predicate d' e' hd' hev' =>
        cases hd.symm.trans hd'
        cases hev.symm.trans hev'
      | failed d' ev' e' hd' hev' =>
        cases hd.symm.trans hd'
        cases hev.symm.trans hev'
        by_contra hresult
        have hdefined : w.manager.definitions.lookup id ≠ none := by simp [hd]
        rw [arm_of_result_ne hresult] at hwatched
        obtain ⟨t, ht, -⟩ := hwatched ⟨hw.active hsweep, hclosed, rfl⟩ id hdefined deadline
          (by rwa [World.release, rearm_stateOf])
        rw [World.release, timers_rearm_none] at ht
        cases ht
    · cases he
  | _ => trivial

/-- **Deadlines stay armed**: every pending rule of an active manager has a live timer for its
deadline whenever the lock is free, exactly in the runs in which nothing is left undone. -/
theorem armed_iff_rearmed (evaluate : Interpreter P ε) (now : ℤ) (es : List (Event P)) :
    Along (step evaluate) (fun _ _ w' => Watched w') (.new now) es ↔
      Along (step evaluate) (fun w e _ => Rearmed evaluate w e) (.new now) es := by
  have hstart : Guarded (World.new now : World P) :=
    ⟨fun _ => ⟨rfl, rfl⟩, by simp [World.new, Manager.new]⟩
  refine along_iff ?_ ?_ es hstart
  · intro w e w' hw h
    exact ⟨rearmed_of_watched hw h, fun hC => (guarded_step hw h hC).watched⟩
  · intro w e w' hw h hwatched
    exact guarded_step hw h (rearmed_of_watched hw h hwatched)

end

/-- A rule waits for its deadline, its predicate becomes false, and that does not commit. -/
def lostRun : List (Event (Expr Comparison)) :=
  activation slowRule versionCards (after 0) ++
    [Event.sweep false failedWeb [ascii "up"],
      .next ⟨newYear + 1, newYear + 1, false, le_refl _⟩]

/-- The rule still waits for its deadline, and has no timer. -/
theorem failed_commit_loses_timer :
    ∃ w, run (step comparisons) (.new newYear) lostRun = some w ∧ Outside w ∧
      w.manager.definitions.lookup (ascii "up") ≠ none ∧ ¬Armed w (ascii "up") := by
  have hany : (run (step comparisons) (.new newYear) lostRun).any (fun w => decide (Outside w ∧
      (w.manager.definitions.lookup (ascii "up")).isSome = true ∧
      Pending (w.manager.stateOf (ascii "up")) w.clock (newYear + 5) ∧
      w.manager.timers.lookup (ascii "up") = none)) = true := by
    decide +kernel
  obtain ⟨w, hw, houtside, hdefined, hpending, htimer⟩ := by
    simpa [Option.any_eq_true] using hany
  refine ⟨w, hw, houtside, Option.isSome_iff_ne_none.mp hdefined, fun harmed => ?_⟩
  obtain ⟨t, ht, -⟩ := harmed (newYear + 5) hpending
  rw [htimer] at ht
  cases ht

end Veduta.Rules
