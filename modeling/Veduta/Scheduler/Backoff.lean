import Veduta.Go.TimeText
import Veduta.Scheduler.Loops

/-!
# Backing off

After a failure the published state says when the card runs next.  The loop of the card reads it,
but only to wait less than its jittered interval, never to wait more: a backoff that is longer than
the interval is not honoured until the circuit opens, and an open circuit closes after five minutes.
-/

namespace Veduta.Scheduler

open Go Widgets Secrets State Storage Lib

variable {R : Type}
variable {es : List (Event Unit)} {since : ℤ}

/-! ## Promises -/

/-- The instant at which a state says that the card runs next. -/
def dueAt (cs : CardState) : ℤ := parseTime cs.execution.nextRunAt

/-- How long the loop of a card waits at most. -/
def Definition.delay (d : Definition R) : ℤ := max (jitter d.id d.refresh) 0

/-- The state that a loop publishes, if it says when the card runs next. -/
def published (w : World R) : Event R → Option (Definition R × CardState)
  | .act i (.commit stored) => (w.calls[i]?).bind fun c =>
    match c.pc with
    | .commit cs history =>
      if c.scheduled ∧ dueAt cs ≠ zeroTime ∧ (commit w.manager c cs history stored).2.isNone then
        some (c.d, cs)
      else none
    | _ => none
  | _ => none

/-- A failure in a row that a loop counts: the card, the time and the number. -/
structure Failure (R : Type) where
  d : Definition R
  time : ℤ
  number : ℤ

def failed (w : World R) : Event R → Option (Failure R)
  | .act i (.record _) => (w.calls[i]?).bind fun c => c.outcome.bind fun o =>
    if c.scheduled ∧ fails w.manager.secrets c.d o then
      some ⟨c.d, w.now, w.manager.failureCount c.d.id + 1⟩
    else none
  | _ => none

/-- Where the call of a loop stands, it is late enough to run, or it will be. -/
def Call.Keeps (now : ℤ) (m : Manager R) (due : ℤ) (c : Call R) : Prop :=
  match c.pc with
  | .woken | .panicked => True
  | .running start => due ≤ start ∧ due ≤ now
  | .join | .wait | .acquire | .record => due ≤ now
  | .openCircuit failures _ _ => due ≤ now ∨ due ≤ openTime now c.d failures
  | .enter => c.d.generation = m.generation → due ≤ now ∨ due ≤ m.circuitOpen c.d.id
  | .commit cs _ => c.d.generation = m.generation →
    due ≤ now ∨ due ≤ m.circuitOpen c.d.id ∨ due ≤ now + c.d.delay ∧ due ≤ dueAt cs
  | .returned => c.d.generation = m.generation →
    due ≤ now ∨ due ≤ m.circuitOpen c.d.id ∨
      due ≤ now + c.d.delay ∧ (c.result = some none → due ≤ dueAt (m.previous c.d.id))
  | .sleeping wake => c.d.generation = m.generation →
    due ≤ now ∨ due ≤ m.circuitOpen c.d.id ∨ due ≤ wake

section

variable {now now' due : ℤ} {m m' : Manager R} {c c' : Call R} {a : Action}
variable {d : Definition R}

/-- Time that passes keeps what a call keeps, if the circuit does not close before its time. -/
theorem Call.Keeps.mono (h : c.Keeps now m due) (hnow : now ≤ now')
    (hgen : c.d.generation = m'.generation → c.d.generation = m.generation)
    (hopen : c.d.generation = m'.generation →
      m.circuitOpen c.d.id ≤ now' ∨ m.circuitOpen c.d.id ≤ m'.circuitOpen c.d.id)
    (hstate : c.d.generation = m'.generation → c.pc = .returned →
      m'.previous c.d.id = m.previous c.d.id) : c.Keeps now' m' due := by
  unfold Call.Keeps at h ⊢
  cases hpc : c.pc with
  | woken | panicked => trivial
  | running | join | wait | acquire | record =>
    simp only [hpc] at h ⊢
    omega
  | openCircuit failures previous e =>
    simp only [hpc, openTime] at h ⊢
    omega
  | enter | commit | sleeping =>
    simp only [hpc] at h ⊢
    intro hcur
    have h' := h (hgen hcur)
    have := hopen hcur
    omega
  | returned =>
    simp only [hpc] at h ⊢
    intro hcur
    rw [hstate hcur hpc]
    have h' := h (hgen hcur)
    have := hopen hcur
    rcases h' with h' | h' | ⟨h', hnext⟩
    · omega
    · omega
    · exact .inr (.inr ⟨by omega, hnext⟩)

theorem Rests.keeps (h : Rests c c') (hkeeps : c.Keeps now m due) : c'.Keeps now m due := by
  unfold Call.Keeps at hkeeps ⊢
  rcases h.pc with hpc | ⟨-, hpc⟩
  · rw [hpc, h.d, h.result]
    exact hkeeps
  · rw [hpc]
    trivial

theorem generation_of_not_superseded (hcur : Current m) (h : m.superseded d = false) :
    d.generation = m.generation := by
  rw [Manager.superseded] at h
  split at h
  · cases h
  · rename_i current hlookup
    have hgen := hcur _ _ hlookup
    rw [decide_eq_false_iff_not, not_not] at h
    exact h.symm.trans hgen

theorem keeps_check (hcur : Current m) (hpc : c.pc = .enter) (h : c.Keeps now m due) :
    (check now m c).Keeps now m due := by
  simp only [Call.Keeps, hpc] at h
  rw [check]
  split_ifs with hsup hdisabled hopen hrun
  · simp only [Call.Keeps, Call.answer]
    intro hgen
    have := h hgen
    omega
  · simp only [Call.Keeps]
    intro hgen
    have := h hgen
    omega
  · simp only [Call.Keeps, Call.answer]
    intro hgen
    have := h hgen
    omega
  · simp only [Call.Keeps]
    intro hgen
    have := h hgen
    omega
  · have := h (generation_of_not_superseded hcur (Bool.eq_false_iff.mpr hsup))
    simp only [Call.Keeps]
    omega

theorem le_wakeTime {result : Option RefreshErr} (hdelay : due ≤ now + d.delay)
    (hnext : result = none → due ≤ dueAt (m.previous d.id)) : due ≤ wakeTime now m d result := by
  rw [Definition.delay] at hdelay
  rw [dueAt] at hnext
  simp only [wakeTime]
  split_ifs with hearly
  · have := hnext (Option.isNone_iff_eq_none.mp hearly.1)
    omega
  · exact hdelay

@[simp] theorem previous_publish (id id' : Bytes) (cs : CardState) :
    (m.publish id cs).previous id' = if id' = id then cs else m.previous id' := by
  by_cases hid : id' = id
  · subst hid
    simp [Manager.previous, Manager.publish]
  · simp [Manager.previous, Manager.publish, hid]

theorem previous_commit (m : Manager R) (c : Call R) (cs : CardState) (history : GoMap Bytes ℚ)
    (stored : Bool) :
    ((commit m c cs history stored).2 = none →
      (commit m c cs history stored).1.previous c.d.id = cs) ∧
    ∀ id ≠ c.d.id, (commit m c cs history stored).1.previous id = m.previous id := by
  rcases commit_cases m c cs history stored with
    ⟨err, heq⟩ | ⟨_, ⟨_, heq⟩ | ⟨s, s', _, _, heq⟩⟩ <;> rw [heq]
  · exact ⟨by simp, fun _ _ => rfl⟩
  · refine ⟨fun _ => ?_, fun id hid => ?_⟩
    · rw [previous_publish, if_pos rfl]
    · rw [previous_publish, if_neg hid]
  · refine ⟨fun _ => ?_, fun id hid => ?_⟩
    · rw [previous_publish, if_pos rfl]
    · rw [previous_publish, if_neg hid]
      rfl

/-- **An action of a call** keeps what the call keeps. -/
theorem Acted.keeps (h : Acted now m c a m' c') (hcur : Current m) (hkeeps : c.Keeps now m due) :
    c'.Keeps now m' due := by
  cases h with
  | check hpc => exact keeps_check hcur hpc hkeeps
  | acquire hpc hfree =>
    simp only [Call.Keeps, hpc] at hkeeps ⊢
    exact ⟨hkeeps, hkeeps⟩
  | finish hpc hflight =>
    simp only [Call.Keeps, hpc] at hkeeps
    exact hkeeps.2
  | panic hpc hflight hcall => trivial
  | unread hpc | succeed hpc =>
    simp only [Call.Keeps, hpc] at hkeeps
    exact fun _ => .inl hkeeps
  | fail hpc hout heval =>
    simp only [Call.Keeps, hpc] at hkeeps
    rw [failedPc]
    split_ifs with hopens
    · exact .inl hkeeps
    · exact fun _ => .inl hkeeps
  | openCircuit hpc =>
    simp only [Call.Keeps, hpc] at hkeeps ⊢
    intro hgen
    rw [circuitOpen_insert, if_pos rfl]
    omega
  | commit hpc =>
    rename_i cs history stored
    have hprevious := (previous_commit m c cs history stored).1
    simp only [Call.Keeps, hpc] at hkeeps
    simp only [Call.Keeps, Call.answer]
    rw [(commit_frame m c cs history stored).generation, circuitOpen_commit]
    intro hgen
    rcases hkeeps hgen with hdue | hdue | ⟨hdue, hnext⟩
    · exact .inl hdue
    · exact .inr (.inl hdue)
    · refine .inr (.inr ⟨hdue, fun hok => ?_⟩)
      rw [hprevious (Option.some.inj hok)]
      exact hnext
  | sleep hpc hcall hresult =>
    simp only [Call.Keeps, hpc] at hkeeps
    simp only [Call.Keeps]
    intro hgen
    rcases hkeeps hgen with hdue | hdue | ⟨hdue, hnext⟩
    · exact .inl hdue
    · exact .inr (.inl hdue)
    · refine .inr (.inr (le_wakeTime hdue fun hok => hnext ?_))
      rw [hresult, hok]
  | _ => simpa only [Call.Keeps, Call.resume, ‹c.pc = _›] using hkeeps

end

/-! ## Patience -/

/-- The loop can wait as long as the backoff asks for: within its interval, or from the third
failure in a row on within the time that the circuit stays open. -/
def affordable (now : ℤ) (d : Definition R) (failures : ℤ) : Bool :=
  if 3 ≤ failures then decide (backoff failures d.refresh ≤ 5 * minute)
  else
    decide (backoff failures d.refresh ≤ d.delay ∧ 0 ≤ now + backoff failures d.refresh ∧
      now + backoff failures d.refresh < secondsEnd * second)

/-- The call is one of a loop of the card that is about to look when the card runs next. -/
def Call.deciding (c : Call R) (m : Manager R) (card : Bytes) : Bool :=
  c.scheduled && decide (c.d.id = card) && decide (c.d.generation = m.generation) &&
    match c.pc with
    | .returned => true
    | _ => false

/-- **The loops can honour what they promise**: each failure that a loop counts is affordable, no
open circuit is closed, or cut short, by a refresh that was under way, and nobody else publishes
a state between a loop's refresh and its sleep. -/
def patient (w : World R) : Event R → Bool
  | .act i (.record bound) => (w.calls[i]?).all fun c => c.outcome.all fun o =>
    if fails w.manager.secrets c.d o then
      !c.scheduled || affordable w.now c.d (w.manager.failureCount c.d.id + 1)
    else bound.isNone || decide (w.manager.circuitOpen c.d.id ≤ w.now)
  | .act i .openCircuit => (w.calls[i]?).all fun c =>
    match c.pc with
    | .openCircuit failures _ _ =>
      decide (w.manager.circuitOpen c.d.id ≤ openTime w.now c.d failures) &&
        decide (0 ≤ openTime w.now c.d failures ∧
          openTime w.now c.d failures < secondsEnd * second)
    | _ => true
  | .act i (.commit _) => (w.calls[i]?).all fun c =>
    (List.range w.calls.length).all fun j => j == i ||
      (w.calls[j]?).all fun x => !x.deciding w.manager c.d.id
  | _ => true

/-- No run of the loop starts before the instant. -/
structure Kept (w : World R) (d : Definition R) (due : ℤ) : Prop where
  generation : d.generation ≤ w.manager.generation
  calls : ∀ {i : ℕ} {c : Call R}, w.calls[i]? = some c → c.scheduled = true →
    SameLoop c.d d → c.Keeps w.now w.manager due

/-- A loop about to publish a state keeps the promise of it. -/
def Ready (w : World R) : Prop :=
  ∀ {i : ℕ} {c : Call R} {cs : CardState} {history : GoMap Bytes ℚ}, w.calls[i]? = some c →
    c.scheduled = true → c.pc = .commit cs history → dueAt cs ≠ zeroTime →
    c.Keeps w.now w.manager (dueAt cs)

section

variable {w w' : World R} {e : Event R} {i : ℕ} {c c' : Call R} {a : Action} {m' : Manager R}
variable {due now failures : ℤ} {d : Definition R} {cs : CardState}

section

variable (h : Acted w.now w.manager c a m' c') (hc : w.calls[i]? = some c)
  (hpatient : patient w (.act i a) = true)

include h hc hpatient

theorem Acted.circuitOpen_le (id : Bytes) :
    w.manager.circuitOpen id ≤ w.now ∨ w.manager.circuitOpen id ≤ m'.circuitOpen id := by
  cases h with
  | succeed hpc hout heval =>
    simp only [patient, hc, Option.all_some, hout, fails_of_ok heval] at hpatient
    rw [circuitOpen_succeed]
    split_ifs with hid
    · subst hid
      exact .inl (by simpa using hpatient)
    · exact .inr le_rfl
  | openCircuit hpc =>
    simp only [patient, hc, Option.all_some, hpc, Bool.and_eq_true, decide_eq_true_eq]
      at hpatient
    rw [circuitOpen_insert]
    split_ifs with hid
    · subst hid
      exact .inr hpatient.1
    · exact .inr le_rfl
  | commit hpc =>
    refine .inr (le_of_eq ?_)
    rw [circuitOpen_commit]
  | _ => exact .inr le_rfl

/-- A patient action leaves the state that another loop is about to look at. -/
theorem Acted.previous_eq {j : ℕ} {x : Call R} (hij : i ≠ j) (hx : w.calls[j]? = some x)
    (hcall : x.scheduled = true)
    (hgen : x.d.generation = w.manager.generation) (hpc : x.pc = .returned) :
    m'.previous x.d.id = w.manager.previous x.d.id := by
  by_cases hcommit : ∃ stored, a = .commit stored
  · obtain ⟨stored, rfl⟩ := hcommit
    cases h with
    | commit hpc' =>
      refine (previous_commit _ _ _ _ _).2 _ fun hid => ?_
      simp only [patient, hc, Option.all_some, List.all_eq_true, List.mem_range] at hpatient
      have hj := hpatient j (List.getElem?_eq_some_iff.mp hx).1
      simp [hx, Call.deciding, hcall, hid, hgen, hpc, Ne.symm hij] at hj
  · have hstates := (h.states fun stored heq => hcommit ⟨stored, heq⟩).1
    rw [Manager.previous, hstates, Manager.previous]

theorem Acted.keeps_other {j : ℕ} {x : Call R} (hij : i ≠ j) (hx : w.calls[j]? = some x)
    (hcall : x.scheduled = true)
    (hkeeps : x.Keeps w.now w.manager due) : x.Keeps w.now m' due := by
  have hgen := h.defs.2
  refine hkeeps.mono le_rfl (fun hcur => hcur.trans hgen) (fun _ => ?_) fun hcur hpc => ?_
  · exact h.circuitOpen_le hc hpatient x.d.id
  · exact h.previous_eq hc hpatient hij hx hcall (hcur.trans hgen) hpc

end

theorem now_of_step (hstep : step e w = some w') : w.now ≤ w'.now := by
  cases stepped_of_step hstep with
  | tick duration => exact Int.le_add_of_nonneg_right (Int.natCast_nonneg duration)
  | _ => exact le_rfl

theorem keeps_rest (hloops : Loops w) (hstep : step e w = some w') (hact : ∀ i a, e ≠ .act i a)
    (hc : w.calls[i]? = some c) (hrests : Rests c c') (hkeeps : c.Keeps w.now w.manager due) :
    c'.Keeps w'.now w'.manager due := by
  have hnow := now_of_step hstep
  by_cases hswap : ∃ k, e = .swap k
  · -- a swap leaves no call of the current generation
    obtain ⟨k, rfl⟩ := hswap
    have hne : c.d.generation ≠ w'.manager.generation := by
      have hle := hloops.generation hc
      cases stepped_of_step hstep with
      | swap ha hphase htodo => exact (Nat.lt_succ_of_le hle).ne
    refine hrests.keeps (hkeeps.mono hnow ?_ ?_ ?_) <;> exact fun hcur => absurd hcur hne
  · obtain ⟨store, manualAt, subs, hmanager⟩ :=
      manager_of_step hstep hact fun k heq => hswap ⟨k, heq⟩
    refine hrests.keeps (hkeeps.mono hnow ?_ ?_ ?_) <;> rw [hmanager]
    · exact id
    · exact fun _ => .inr le_rfl
    · exact fun _ _ => rfl

/-- **A patient step keeps every promise.** -/
theorem promise_step (hloops : Loops w) (h : Kept w d due) (hstep : step e w = some w')
    (hpatient : patient w e = true) : Kept w' d due := by
  refine ⟨h.generation.trans (generation_of_step hstep), fun {j x'} hx' hcall hsame => ?_⟩
  rcases act_or_rest hstep with ⟨i, a, c, m', c', rfl, hc, hacted, rfl⟩ | ⟨hother, hrest⟩
  · rcases getElem?_set_cases hx' with ⟨rfl, rfl⟩ | ⟨hij, hx⟩
    · rw [hacted.d] at hsame
      exact hacted.keeps hloops.current (h.calls hc (hacted.scheduled.1 ▸ hcall) hsame)
    · exact hacted.keeps_other hc hpatient hij hx hcall (h.calls hx hcall hsame)
  · rcases hrest.calls.new hx' with ⟨x, hx, hrests⟩ | ⟨hj, _⟩
    · rw [hrests.d] at hsame
      exact keeps_rest hloops hstep hother hx hrests
        (h.calls hx (hrests.scheduled ▸ hcall) hsame)
    · rcases new_of_step hstep hj hx' hcall with
        ⟨k, x, t, rfl, hx, hpc, hdue, rfl, -⟩ | ⟨k, a, x, rfl, ha, hswap, hx, rfl⟩
      · -- the loop wakes up when it is time, or the circuit is still open
        have hkeeps := h.calls hx (hloops.sleeping hx hpc) hsame
        simp only [Call.Keeps, hpc] at hkeeps
        cases stepped_of_step hstep with
        | wake hx₀ hpc₀ hdue₀ =>
          intro hgen
          have := hkeeps hgen
          simp only [World.start, World.setCall, Call.start] at this ⊢
          omega
      · -- the loops that a swap starts have made no promise yet
        have hlookup := GoMap.lookup_eq_some_iff.mpr (List.mem_of_getElem? hx)
        have hgen := current_step hloops.current hstep _ _ hlookup
        have hle := h.generation
        have hnext : w'.manager.generation = w.manager.generation + 1 := by rw [hswap]; rfl
        have heq : x.2.generation = d.generation := hsame.2
        omega

/-! ## What loops promise -/

theorem dueAt_of_empty (h : cs.execution.nextRunAt = []) : dueAt cs = zeroTime := by
  rw [dueAt, h]
  rfl

theorem parseTime_formatTime_of_lt {t : ℤ} (h : 0 ≤ t) (ht : t < secondsEnd * second) :
    parseTime (formatTime t) = t := by
  rw [parseTime, Go.parseTime_formatTime h ht, Option.getD_some]

theorem dueAt_failedState (previous : CardState) (err : RunErr)
    (h : 0 ≤ now + backoff failures d.refresh)
    (hend : now + backoff failures d.refresh < secondsEnd * second) :
    dueAt (failedState now d previous failures err) = now + backoff failures d.refresh := by
  rw [dueAt, failedState]
  cases previous.document with
  | none => exact parseTime_formatTime_of_lt h hend
  | some doc =>
    simp only [staleAfterError, stale, nextRunAtOrEmpty]
    split_ifs with hzero
    · rw [hzero]
      rfl
    · exact parseTime_formatTime_of_lt h hend

theorem dueAt_openCircuitState (previous : CardState) (err : RunErr)
    (h : 0 ≤ openTime now d failures) (hend : openTime now d failures < secondsEnd * second) :
    dueAt (openCircuitState now d previous failures err) = openTime now d failures := by
  rw [dueAt, openCircuitState]
  cases previous.document with
  | none => exact parseTime_formatTime_of_lt h hend
  | some doc =>
    simp only [staleAfterErrorWithOpenCircuit, staleAfterError, stale, nextRunAtOrEmpty]
    split_ifs with hzero
    · rw [hzero]
      rfl
    · exact parseTime_formatTime_of_lt h hend

/-- What an affordable failure promises is kept by the call that counts it. -/
theorem keeps_failed {err : RunErr}
    (h : affordable w.now c.d (w.manager.failureCount c.d.id + 1) = true) :
    Call.Keeps w.now (w.manager.fail c.d.id)
      (w.now + backoff (w.manager.failureCount c.d.id + 1) c.d.refresh)
      { c with pc := failedPc w.now w.manager c.d err } := by
  rw [affordable] at h
  rw [failedPc]
  split_ifs at h ⊢ with hopens
  · rw [decide_eq_true_eq] at h
    simp only [Call.Keeps, openTime]
    omega
  · rw [decide_eq_true_eq] at h
    simp only [Call.Keeps]
    rw [dueAt_failedState _ _ h.2.1 h.2.2]
    omega

theorem Acted.ready (h : Acted w.now w.manager c a m' c') (hc : w.calls[i]? = some c)
    (hpatient : patient w (.act i a) = true) (hcall : c.scheduled = true) {history : GoMap Bytes ℚ}
    (hpc : c'.pc = .commit cs history) (hdue : dueAt cs ≠ zeroTime) :
    c'.Keeps w.now m' (dueAt cs) := by
  cases h with
  | check hpc' =>
    rw [Scheduler.check] at hpc
    split_ifs at hpc
    all_goals
      cases hpc
      try exact absurd (dueAt_of_empty rfl) hdue
  | succeed hpc' hout heval =>
    cases hpc
    exact absurd (dueAt_of_empty rfl) hdue
  | fail hpc' hout heval =>
    simp only [patient, hc, Option.all_some, hout, fails_of_error heval, hcall, if_true,
      Bool.not_true, Bool.false_or] at hpatient
    simp only [failedPc] at hpc ⊢
    rw [affordable] at hpatient
    split_ifs at hpc hpatient ⊢ with hopens
    cases hpc
    rw [decide_eq_true_eq] at hpatient
    simp only [Call.Keeps]
    rw [dueAt_failedState _ _ hpatient.2.1 hpatient.2.2]
    omega
  | openCircuit hpc' =>
    cases hpc
    simp only [patient, hc, Option.all_some, hpc', Bool.and_eq_true, decide_eq_true_eq]
      at hpatient
    simp only [Call.Keeps]
    rw [dueAt_openCircuitState _ _ hpatient.2.1 hpatient.2.2, circuitOpen_insert, if_pos rfl]
    exact fun _ => .inr (.inl le_rfl)
  | _ => cases hpc

/-- **A patient step** leaves the loops ready to publish. -/
theorem ready_step (hloops : Loops w) (h : Ready w) (hstep : step e w = some w')
    (hpatient : patient w e = true) : Ready w' := by
  intro j x' cs history hx' hcall hpc hdue
  rcases act_or_rest hstep with ⟨i, a, c, m', c', rfl, hc, hacted, rfl⟩ | ⟨hother, hrest⟩
  · rcases getElem?_set_cases hx' with ⟨rfl, rfl⟩ | ⟨hij, hx⟩
    · exact hacted.ready hc hpatient (hacted.scheduled.1 ▸ hcall) hpc hdue
    · exact hacted.keeps_other hc hpatient hij hx hcall (h hx hcall hpc hdue)
  · obtain ⟨x, hx, hrests, heq⟩ := hrest.calls.of_pc hx' (by simp [hpc]) (by simp [hpc])
    exact keeps_rest hloops hstep hother hx hrests
      (h hx (hrests.scheduled ▸ hcall) (heq ▸ hpc) hdue)

/-- A promise that a loop makes is kept if the call that makes it keeps it: the loop has no other
call. -/
theorem kept_of_acted (hloops : Loops w) (hc : w.calls[i]? = some c)
    (hacted : Acted w.now w.manager c a m' c') (hcall : c.scheduled = true)
    (hkeeps : c'.Keeps w.now m' due) :
    Kept { w with manager := m', calls := w.calls.set i c' } c.d due := by
  refine ⟨(hloops.generation hc).trans hacted.defs.2.ge, fun {j x} hx hxcall hsame => ?_⟩
  rcases getElem?_set_cases hx with ⟨rfl, rfl⟩ | ⟨hij, hx⟩
  · exact hkeeps
  · by_cases hwoken : x.pc = .woken
    · rw [Call.Keeps, hwoken]
      trivial
    · exact absurd (hloops.alone hx hc ⟨hxcall, hwoken⟩ ⟨hcall, hacted.scheduled.2⟩ hsame)
        (Ne.symm hij)

theorem kept_published (hloops : Loops w) (hready : Ready w) (hstep : step e w = some w')
    {p : Definition R × CardState} (hp : published w e = some p) : Kept w' p.1 (dueAt p.2) := by
  match e, hp with
  | .act i (.commit stored), hp =>
    obtain ⟨c, m', c', hc, hacted, rfl⟩ := step_act hstep
    cases hacted with
    | commit hpc =>
      rename_i cs history
      simp only [published, hc, Option.bind_some, hpc] at hp
      split_ifs at hp with hcond
      cases hp
      have hkeeps := hready hc hcond.1 hpc hcond.2.1
      exact kept_of_acted hloops hc (.commit hpc) hcond.1
        (Acted.keeps (.commit hpc) hloops.current hkeeps)

theorem kept_failed (hloops : Loops w) (hstep : step e w = some w')
    (hpatient : patient w e = true) {f : Failure R} (hf : failed w e = some f) :
    Kept w' f.d (f.time + backoff f.number f.d.refresh) := by
  match e, hf with
  | .act i (.record bound), hf =>
    obtain ⟨c, m', c', hc, hacted, rfl⟩ := step_act hstep
    simp only [failed, hc, Option.bind_some, Option.bind_eq_some_iff] at hf
    obtain ⟨o, ho, hf⟩ := hf
    split_ifs at hf with hcond
    cases hf
    simp only [patient, hc, Option.all_some, ho, hcond.2, hcond.1, if_true, Bool.not_true,
      Bool.false_or] at hpatient
    refine kept_of_acted hloops hc hacted hcond.1 ?_
    cases hacted with
    | unread hpc hout heval | succeed hpc hout heval =>
      cases ho.symm.trans hout
      rw [fails_of_ok heval] at hcond
      cases hcond.2
    | fail hpc hout heval => exact keeps_failed hpatient

/-- **A patient step** keeps the promises of the states that loops have published. -/
theorem published_step {past : List (Definition R × CardState)}
    (h : (Loops w ∧ Ready w) ∧ ∀ p ∈ past, Kept w p.1 (dueAt p.2)) (hstep : step e w = some w')
    (hpatient : patient w e = true) :
    (Loops w' ∧ Ready w') ∧ ∀ p ∈ past ++ (published w e).toList, Kept w' p.1 (dueAt p.2) := by
  obtain ⟨⟨hloops, hready⟩, hkept⟩ := h
  refine ⟨⟨loops_step hloops hstep, ready_step hloops hready hstep hpatient⟩, fun p hp => ?_⟩
  rcases List.mem_append.mp hp with hp | hp
  · exact promise_step hloops (hkept p hp) hstep hpatient
  · exact kept_published hloops hready hstep (Option.mem_toList.mp hp)

/-- **A patient step** keeps the promises of the failures that loops have counted. -/
theorem failed_step {past : List (Failure R)}
    (h : Loops w ∧ ∀ f ∈ past, Kept w f.d (f.time + backoff f.number f.d.refresh))
    (hstep : step e w = some w') (hpatient : patient w e = true) :
    Loops w' ∧ ∀ f ∈ past ++ (failed w e).toList,
      Kept w' f.d (f.time + backoff f.number f.d.refresh) := by
  obtain ⟨hloops, hkept⟩ := h
  refine ⟨loops_step hloops hstep, fun f hf => ?_⟩
  rcases List.mem_append.mp hf with hf | hf
  · exact promise_step hloops (hkept f hf) hstep hpatient
  · exact kept_failed hloops hstep hpatient (Option.mem_toList.mp hf)

end

/-! ## Runs -/

theorem le_of_kept {w : World R} {d : Definition R} {due start : ℤ} (h : Kept w d due) {i : ℕ}
    {c : Call R} (hc : w.calls[i]? = some c) (hcall : c.scheduled = true)
    (hpc : c.pc = .running start) (hsame : SameLoop c.d d) : due ≤ start := by
  have hkeeps := h.calls hc hcall hsame
  simp only [Call.Keeps, hpc] at hkeeps
  exact hkeeps.1

/-- **Backoff is honoured** in the runs of patient loops: no loop starts a run of its card before
the instant of a state that it published, nor before the backoff after a failure that it counted
is over. -/
theorem backoff_honoured {store : Option Store} {secrets : Option Registry} {now : ℤ}
    {es : List (Event R)} {w : World R} {i : ℕ} {c : Call R} {start : ℤ}
    (hpatient : Along step (fun w e _ => patient w e = true) (World.new store secrets now) es)
    (hrun : run step (World.new store secrets now) es = some w) (hc : w.calls[i]? = some c)
    (hcall : c.scheduled = true) (hpc : c.pc = .running start) :
    (∀ p ∈ trace step published (World.new store secrets now) es, SameLoop c.d p.1 →
      dueAt p.2 ≤ start) ∧
    ∀ f ∈ trace step failed (World.new store secrets now) es, SameLoop c.d f.d →
      f.time + backoff f.number f.d.refresh ≤ start := by
  have hloops : Loops (World.new store secrets now : World R) := loops_new store secrets now
  have hready : Ready (World.new store secrets now : World R) := by
    intro i c cs history hc
    simp [World.new] at hc
  constructor
  · have hnone : ∀ p ∈ ([] : List (Definition R × CardState)),
        Kept (World.new store secrets now) p.1 (dueAt p.2) := by simp
    have hinv := invariant_trace
      (I := fun w (past : List (Definition R × CardState)) =>
        (Loops w ∧ Ready w) ∧ ∀ p ∈ past, Kept w p.1 (dueAt p.2))
      published_step ⟨⟨hloops, hready⟩, hnone⟩ hpatient hrun
    intro p hp hsame
    exact le_of_kept (hinv.2 p hp) hc hcall hpc hsame
  · have hnone : ∀ f ∈ ([] : List (Failure R)),
        Kept (World.new store secrets now) f.d (f.time + backoff f.number f.d.refresh) := by simp
    have hinv := invariant_trace
      (I := fun w (past : List (Failure R)) =>
        Loops w ∧ ∀ f ∈ past, Kept w f.d (f.time + backoff f.number f.d.refresh))
      failed_step ⟨hloops, hnone⟩ hpatient hrun
    intro f hf hsame
    exact le_of_kept (hinv.2 f hf) hc hcall hpc hsame

/-- The first run of the card fails, and the loop runs it again a minute later. -/
def retriedRun : List (Event Unit) :=
  startRun runningCard [.act 0 (.finish zeroDocument (some ⟨.other, ascii "down"⟩)),
    .act 0 (.record none), .act 0 (.commit true), .act 0 .sleep, .tick (60 * 10 ^ 9), .wake 0,
    .act 1 .check, .act 1 .join, .act 1 .acquire]

/-- The loop of the card is running it, since a time. -/
structure Running (es : List (Event Unit)) (since : ℤ) (w : World Unit) (i : ℕ) (c : Call Unit) :
    Prop where
  run : run step (World.new none none zeroTime) es = some w
  call : w.calls[i]? = some c
  scheduled : c.scheduled = true
  id : c.d.id = ascii "a"
  generation : c.d.generation = 1
  pc : c.pc = .running since

def running (es : List (Event Unit)) (since : ℤ) (i : ℕ) : Bool :=
  (run step (World.new none none zeroTime) es).any fun w => (w.calls[i]?).any fun c =>
    c.scheduled && decide (c.d.id = ascii "a") && decide (c.d.generation = 1) &&
      match c.pc with
      | .running start => decide (start = since)
      | _ => false

theorem exists_running {i : ℕ} (h : running es since i = true) : ∃ w c, Running es since w i c := by
  simp only [running, Option.any_eq_true, Bool.and_eq_true, decide_eq_true_eq] at h
  obtain ⟨w, hw, c, hc, ⟨⟨hcall, hid⟩, hgen⟩, hpc⟩ := h
  refine ⟨w, c, hw, hc, hcall, hid, hgen, ?_⟩
  split at hpc
  · rename_i start hstart
    rw [decide_eq_true_eq] at hpc
    rw [hstart, hpc]
  · cases hpc

theorem exists_published (due : ℤ)
    (h : ((trace step published (World.new none none zeroTime) es).any fun p =>
      decide (p.1.id = ascii "a") && decide (p.1.generation = 1) && decide (dueAt p.2 = due)) =
        true) {w : World Unit} {i : ℕ} {c : Call Unit} (hc : Running es since w i c) :
    ∃ p ∈ trace step published (World.new none none zeroTime) es,
      SameLoop c.d p.1 ∧ dueAt p.2 = due := by
  simp only [List.any_eq_true, Bool.and_eq_true, decide_eq_true_eq] at h
  obtain ⟨p, hp, ⟨hid, hgen⟩, hdue⟩ := h
  exact ⟨p, hp, ⟨hc.id.trans hid.symm, hc.generation.trans hgen.symm⟩, hdue⟩

/-- The backoff after the first failure is as long as the interval, and the loop waits for it. -/
theorem backoff_honoured_retriedRun :
    ∃ w c, Running retriedRun (zeroTime + minute) w 1 c ∧
      ∃ p ∈ trace step published (World.new none none zeroTime : World Unit) retriedRun,
        SameLoop c.d p.1 ∧ dueAt p.2 ≤ zeroTime + minute := by
  have hend : running retriedRun (zeroTime + minute) 1 = true := by decide +kernel
  obtain ⟨w, c, hc⟩ := exists_running hend
  obtain ⟨p, hp, hsame, -⟩ := exists_published (zeroTime + minute) (by decide +kernel) hc
  have hhonoured := (backoff_honoured (by decide +kernel) hc.run hc.call hc.scheduled hc.pc).1
  exact ⟨w, c, hc, p, hp, hsame, hhonoured p hp hsame⟩

/-- The second run of the card fails too, and the loop runs it again after its interval. -/
def hurriedRun : List (Event Unit) :=
  retriedRun ++ [Event.act 1 (.finish zeroDocument (some ⟨.other, ascii "down"⟩)),
    .act 1 (.record none), .act 1 (.commit true), .act 1 .sleep, .tick (612 * 10 ^ 8), .wake 1,
    .act 2 .check, .act 2 .join, .act 2 .acquire]

/-- **A second failure is not backed off from**: the published state promises two minutes, and the
loop runs the card again after its interval, which is little more than one. -/
theorem run_before_promised :
    ∃ w c, Running hurriedRun (zeroTime + minute + 612 * 10 ^ 8) w 2 c ∧
      ∃ p ∈ trace step published (World.new none none zeroTime : World Unit) hurriedRun,
        SameLoop c.d p.1 ∧ zeroTime + minute + 612 * 10 ^ 8 < dueAt p.2 := by
  have hend : running hurriedRun (zeroTime + minute + 612 * 10 ^ 8) 2 = true := by decide +kernel
  obtain ⟨w, c, hc⟩ := exists_running hend
  obtain ⟨p, hp, hsame, hdue⟩ := exists_published (zeroTime + 3 * minute) (by decide +kernel) hc
  refine ⟨w, c, hc, p, hp, hsame, ?_⟩
  rw [hdue]
  decide +kernel

/-! ## Arithmetic -/

/-- The loop of `backoff` on machine integers: the product wraps. -/
def backoffLoopInt64 : ℕ → ℤ → ℤ
  | 0, base => base
  | n + 1, base => if base < hour then backoffLoopInt64 n ((base * 2).bmod (2 ^ 64)) else base

/-- `backoff` on machine integers. -/
def backoffInt64 (n base : ℤ) : ℤ :=
  min (backoffLoopInt64 (n - 1).toNat (if base ≤ 0 then second else base)) hour

/-- Only less than an hour is doubled, so nothing wraps. -/
theorem backoffLoopInt64_eq (k : ℕ) {b : ℤ} (hb : 0 < b) :
    backoffLoopInt64 k b = backoffLoop k b := by
  induction k generalizing b with
  | zero => rfl
  | succ k ih =>
    rw [backoffLoopInt64, backoffLoop]
    split_ifs with h
    · have hwrap : (b * 2).bmod (2 ^ 64) = b * 2 := by
        simp only [hour, minute, second] at h
        exact Int.bmod_eq_of_le (by omega) (by omega)
      rw [hwrap, ih (by omega)]
    · rfl

theorem min_backoffLoop (k : ℕ) {b : ℤ} (hb : 0 < b) :
    min (backoffLoop k b) hour = min (b * 2 ^ k) hour := by
  induction k generalizing b with
  | zero => rw [backoffLoop, pow_zero, mul_one]
  | succ k ih =>
    rw [backoffLoop]
    split_ifs with h
    · rw [ih (by omega), pow_succ', mul_assoc]
    · have hpow : b * 1 ≤ b * 2 ^ (k + 1) :=
        mul_le_mul_of_nonneg_left (one_le_pow₀ (by norm_num)) hb.le
      rw [min_eq_right (by omega), min_eq_right (by omega)]

theorem backoff_eq (n : ℤ) {b : ℤ} (hb : 0 < b) :
    backoff n b = min (b * 2 ^ (n - 1).toNat) hour := by
  rw [backoff, if_neg (by omega), min_backoffLoop _ hb]

theorem abs_tdiv_hundred_le (x : ℤ) : 100 * |x.tdiv 100| ≤ |x| := by
  have h : (x.tdiv 100).natAbs = x.natAbs / 100 := Int.natAbs_tdiv x 100
  rw [Int.abs_eq_natAbs, Int.abs_eq_natAbs, h]
  omega

theorem abs_jitter_sub_le (id : Bytes) {b : ℤ} (hb : 0 < b) (hyear : b ≤ 366 * 24 * hour) :
    100 * |jitter id b - b| ≤ 5 * b := by
  have hpercent : |((fnv32a id % 11 : ℕ) : ℤ) - 5| ≤ 5 := abs_le.mpr ⟨by omega, by omega⟩
  rw [jitter, if_neg (by omega)]
  generalize ((fnv32a id % 11 : ℕ) : ℤ) - 5 = p at hpercent
  have hproduct : |b * p| ≤ b * 5 := by
    rw [abs_mul, abs_of_pos hb]
    exact mul_le_mul_of_nonneg_left hpercent hb.le
  generalize b * p = x at hproduct
  obtain ⟨hlow, hhigh⟩ := abs_le.mp hproduct
  simp only [hour, minute, second] at hyear
  have hwrap : x.bmod (2 ^ 64) = x := Int.bmod_eq_of_le (by omega) (by omega)
  have hpart := abs_tdiv_hundred_le x
  rw [hwrap]
  generalize x.tdiv 100 = y at hpart ⊢
  obtain ⟨hlow', hhigh'⟩ := abs_le.mp (show |y| ≤ b by omega)
  have hsum : (b + y).bmod (2 ^ 64) = b + y := Int.bmod_eq_of_le (by omega) (by omega)
  rw [hsum, add_sub_cancel_left]
  omega

/-- **The arithmetic of the backoff**: on machine integers it is the closed form, which is monotone;
a circuit is open for at most five minutes; and the jitter is five percent. -/
theorem backoff_arithmetic {n b : ℤ} (hb : 0 < b) :
    backoffInt64 n b = min (b * 2 ^ (n - 1).toNat) hour ∧
      (∀ n' b', n ≤ n' → b ≤ b' → backoffInt64 n b ≤ backoffInt64 n' b') ∧
      (∀ now (d : Definition R), d.refresh = b →
        now < openTime now d n ∧ openTime now d n ≤ now + 5 * minute) ∧
      ∀ id, b ≤ 366 * 24 * hour → 100 * |jitter id b - b| ≤ 5 * b := by
  have hclosed : ∀ {n b}, 0 < b → backoffInt64 n b = backoff n b := by
    intro n b hb
    rw [backoffInt64, backoff, if_neg (by omega), backoffLoopInt64_eq _ hb]
  refine ⟨(hclosed hb).trans (backoff_eq n hb), ?_, ?_, fun id => abs_jitter_sub_le id hb⟩
  · intro n' b' hn' hb'
    rw [hclosed hb, hclosed (hb.trans_le hb'), backoff_eq _ hb, backoff_eq _ (hb.trans_le hb')]
    have hpow : (2 : ℤ) ^ (n - 1).toNat ≤ 2 ^ (n' - 1).toNat :=
      pow_le_pow_right₀ (by norm_num) (by omega)
    have hpos' : 0 ≤ b' := by omega
    gcongr
  · intro now d hd
    have hpos : 0 < backoff n d.refresh := by
      rw [hd, backoff_eq _ hb]
      exact lt_min (by positivity) (by decide)
    rw [openTime]
    simp only [minute, second]
    omega

theorem backoff_arithmetic_minute :
    backoffInt64 4 minute = 8 * minute ∧ 100 * |jitter (ascii "card") minute - minute| ≤ 5 * minute := by
  have h := backoff_arithmetic (R := Unit) (n := 4) (b := minute) (by decide)
  exact ⟨h.1.trans (by decide), h.2.2.2 _ (by decide)⟩

end Veduta.Scheduler
