import Veduta.Scheduler.Backoff

/-!
# The breaker and the published state

From the third failure in a row on, a refresh first opens the circuit in memory and then commits
the state that says so.  In between, and if the commit fails, the manager skips runs of a card
whose published state tells nothing of it.  The same happens if a superseded refresh opens the
circuit of the new generation, or if two refreshes of a card record their outcomes before they
commit.
-/

namespace Veduta.Scheduler

open Go Widgets Secrets State Storage Lib

variable {R : Type}

/-- The state is neither fresh nor pending, and gives the instant as the end of an open circuit
and as the next run. -/
structure Carries (cs : CardState) (t : ℤ) : Prop where
  ne_ok : cs.execution.state ≠ stateOK
  ne_pending : cs.execution.state ≠ statePending
  circuitOpenUntil : parseTime cs.execution.circuitOpenUntil = t
  nextRunAt : parseTime cs.execution.nextRunAt = t

/-- The instant has a text that can be read back. -/
def representable (t : ℤ) : Bool := decide (0 ≤ t ∧ t < secondsEnd * second)

theorem parseTime_of_representable {t : ℤ} (h : representable t = true) :
    parseTime (formatTime t) = t := by
  rw [representable, decide_eq_true_eq] at h
  exact parseTime_formatTime_of_lt h.1 h.2

theorem carries_openCircuitState {now failures : ℤ} {d : Definition R} (previous : CardState)
    (err : RunErr) (h : representable (openTime now d failures) = true) :
    Carries (openCircuitState now d previous failures err) (openTime now d failures) := by
  have hdue : dueAt (openCircuitState now d previous failures err) = openTime now d failures := by
    rw [representable, decide_eq_true_eq] at h
    exact dueAt_openCircuitState previous err h.1 h.2
  have hread := parseTime_of_representable h
  unfold openCircuitState at hdue ⊢
  cases hdoc : previous.document with
  | none =>
    rw [hdoc] at hdue
    have hstate : stateError ≠ stateOK ∧ stateError ≠ statePending := by decide
    exact ⟨hstate.1, hstate.2, hread, hdue⟩
  | some doc =>
    rw [hdoc] at hdue
    have hstate : stateStale ≠ stateOK ∧ stateStale ≠ statePending := by decide
    exact ⟨hstate.1, hstate.2, hread, hdue⟩

theorem state_of_circuitOpenUntil {cs : CardState} (h : cs.validate = .ok ())
    (hopen : cs.execution.circuitOpenUntil ≠ []) :
    cs.execution.state ≠ stateOK ∧ cs.execution.state ≠ statePending := by
  have hvalid : validateState cs = .ok () := by
    rw [CardState.validate] at h
    cases hstate : validateState cs with
    | error e =>
      rw [hstate] at h
      cases h
    | ok _ => rfl
  constructor
  · intro hok
    have hne : stateOK ≠ statePending := by decide
    simp only [validateState, hok, if_neg hne, if_true] at hvalid
    simp [hopen] at hvalid
    split_ifs at hvalid
  · intro hpending
    simp [validateState, hpending, hopen] at hvalid
    split_ifs at hvalid

/-! ## Calls -/

/-- The refresh has been let through, and has not yet decided what to commit. -/
def Pc.admitted : Pc → Bool
  | .join | .wait | .acquire | .running _ | .record | .openCircuit _ _ _ => true
  | _ => false

/-- The refresh has recorded an outcome that is still to be committed. -/
def Pc.pending : Pc → Bool
  | .openCircuit _ _ _ | .commit _ _ => true
  | _ => false

/-- The call is a refresh of the card by its current definition. -/
structure Call.Live (m : Manager R) (c : Call R) (id : Bytes) : Prop where
  id : c.d.id = id
  generation : c.d.generation = m.generation

/-- What holds of a call: only an enabled card is let through, only one with three failures while
the circuit is open, and a state that is to be committed meanwhile says so. -/
structure Call.Announces (now : ℤ) (m : Manager R) (c : Call R) : Prop where
  enabled : c.pc.admitted = true → c.d.disabled = [] ∧ c.d.run.isSome = true
  counted : c.d.generation = m.generation → c.pc.admitted = true → now < m.circuitOpen c.d.id →
    3 ≤ m.failureCount c.d.id
  committing : c.d.generation = m.generation → c.d.disabled = [] →
    ∀ cs history, c.pc = .commit cs history → now < m.circuitOpen c.d.id →
      Carries cs (m.circuitOpen c.d.id)

section

variable {now now' : ℤ} {m m' : Manager R} {c c' : Call R} {a : Action}

theorem Call.Announces.mono (h : c.Announces now m) (hnow : now ≤ now')
    (hgen : c.d.generation = m'.generation → c.d.generation = m.generation)
    (hopen : c.d.generation = m'.generation → now' < m'.circuitOpen c.d.id →
      m'.circuitOpen c.d.id = m.circuitOpen c.d.id ∧
        (3 ≤ m.failureCount c.d.id → 3 ≤ m'.failureCount c.d.id)) : c.Announces now' m' := by
  refine ⟨h.enabled, fun hcur hpc hlt => ?_, fun hcur hon cs history hpc hlt => ?_⟩
  · obtain ⟨heq, hcount⟩ := hopen hcur hlt
    rw [heq] at hlt
    exact hcount (h.counted (hgen hcur) hpc (lt_of_le_of_lt hnow hlt))
  · obtain ⟨heq, -⟩ := hopen hcur hlt
    rw [heq] at hlt ⊢
    exact h.committing (hgen hcur) hon cs history hpc (lt_of_le_of_lt hnow hlt)

theorem Rests.announces (h : Rests c c') (hc : c.Announces now m) : c'.Announces now m := by
  rcases h.pc with hpc | ⟨-, hpc⟩
  · constructor
    · rw [hpc, h.d]
      exact hc.enabled
    · rw [hpc, h.d]
      exact hc.counted
    · rw [hpc, h.d]
      exact hc.committing
  · refine ⟨fun hadm => ?_, fun _ hadm => ?_, fun _ _ cs history hcommit => ?_⟩
    · rw [hpc] at hadm
      cases hadm
    · rw [hpc] at hadm
      cases hadm
    · rw [hpc] at hcommit
      cases hcommit

theorem announces_of_idle (hadm : c.pc.admitted = false) (hpend : c.pc.pending = false) :
    c.Announces now m := by
  refine ⟨fun h => ?_, fun _ h => ?_, fun _ _ cs history hpc => ?_⟩
  · rw [hadm] at h
    cases h
  · rw [hadm] at h
    cases h
  · rw [hpc] at hpend
    cases hpend

theorem announces_of_admitted (hadm : c.pc.admitted = true)
    (hon : c.d.disabled = [] ∧ c.d.run.isSome = true)
    (hcount : c.d.generation = m.generation → now < m.circuitOpen c.d.id →
      3 ≤ m.failureCount c.d.id) : c.Announces now m := by
  refine ⟨fun _ => hon, fun hgen _ hlt => hcount hgen hlt, fun _ _ cs history hpc => ?_⟩
  rw [hpc] at hadm
  cases hadm

theorem announces_of_commit {cs : CardState} {history : GoMap Bytes ℚ}
    (hpc : c.pc = .commit cs history)
    (hcarries : c.d.generation = m.generation → c.d.disabled = [] → now < m.circuitOpen c.d.id →
      Carries cs (m.circuitOpen c.d.id)) : c.Announces now m := by
  have hadm : c.pc.admitted = false := by
    rw [hpc]
    rfl
  refine ⟨fun h => ?_, fun _ h => ?_, fun hgen hon cs' history' hpc' hlt => ?_⟩
  · rw [hadm] at h
    cases h
  · rw [hadm] at h
    cases h
  · cases hpc.symm.trans hpc'
    exact hcarries hgen hon hlt

theorem announces_check : (check now m c).Announces now m := by
  rw [check]
  split_ifs with hsup hdisabled hopen hrun
  · exact announces_of_idle rfl rfl
  · exact announces_of_commit rfl fun _ hon => absurd hon hdisabled
  · exact announces_of_idle rfl rfl
  · exact announces_of_commit rfl fun _ _ hlt => absurd hlt hopen
  · refine announces_of_admitted rfl ⟨not_not.mp hdisabled, ?_⟩ fun _ hlt => absurd hlt hopen
    rw [← Option.not_isNone, Bool.not_eq_true']
    exact Bool.eq_false_iff.mpr hrun

/-- **An action keeps it of its own call**, if the instant at which the circuit closes again can
be written down. -/
theorem Acted.announces (h : Acted now m c a m' c') (hc : c.Announces now m)
    (hstarted : zeroTime ≤ now)
    (hopening : ∀ failures previous e, c.pc = .openCircuit failures previous e →
      representable (openTime now c.d failures) = true) :
    c'.Announces now m' := by
  cases h with
  | check hpc => exact announces_check
  | unread | panic | sleep | commit => exact announces_of_idle rfl rfl
  | succeed hpc hout heval =>
    refine announces_of_commit rfl fun _ _ hlt => ?_
    rw [circuitOpen_succeed, if_pos rfl] at hlt
    exact absurd hlt (not_lt.mpr hstarted)
  | fail hpc hout heval =>
    have hadm : c.pc.admitted = true := by rw [hpc]; rfl
    rw [failedPc]
    split_ifs with hopens
    · refine announces_of_admitted rfl (hc.enabled hadm) fun _ _ => ?_
      rw [failureCount_fail, if_pos rfl]
      exact hopens
    · refine announces_of_commit rfl fun hgen _ hlt => ?_
      have := hc.counted hgen hadm hlt
      omega
  | openCircuit hpc =>
    refine announces_of_commit rfl fun _ _ _ => ?_
    rw [circuitOpen_insert, if_pos rfl]
    exact carries_openCircuitState _ _ (hopening _ _ _ hpc)
  | _ =>
    have hadm : c.pc.admitted = true := by rw [‹c.pc = _›]; rfl
    exact announces_of_admitted rfl (hc.enabled hadm) fun hgen hlt => hc.counted hgen hadm hlt

end

/-! ## Worlds -/

/-- The definition is the current one of its card, or the card has none. -/
def Manager.fenced (m : Manager R) (d : Definition R) : Bool :=
  (m.defs.lookup d.id).all fun current => decide (current.generation = d.generation)

/-- It is the call's turn: no other refresh of the card has an outcome to commit. -/
def World.turn (w : World R) (i : ℕ) (card : Bytes) : Bool :=
  (List.range w.calls.length).all fun j => j == i || (w.calls[j]?).all fun x =>
    !(decide (x.d.id = card) && decide (x.d.generation = w.manager.generation) && x.pc.pending)

/-- The commit goes through. -/
def accepted (m : Manager R) (c : Call R) (cs : CardState) (stored : Bool) : Bool :=
  cs.validate.isOk && (m.store.isNone || stored && c.ctx.isNone)

/-- A stored state gives one instant as the end of an open circuit and as the next run. -/
def concordant (cs : CardState) : Bool :=
  cs.execution.circuitOpenUntil = [] ||
    decide (parseTime cs.execution.nextRunAt = parseTime cs.execution.circuitOpenUntil)

/-- The row that an `Apply` reads next. -/
def World.nextRow (w : World R) (i : ℕ) : Option Row := do
  let a ← w.applies[i]?
  let d ← a.todo.head?
  let s ← w.manager.store
  s.cards.lookup d.id

/-- **The steps that announce what they do**: only a current refresh records an outcome or opens a
circuit, and in its turn; what it commits while the circuit is open is accepted; and the rows that
are restored are concordant. -/
def announced (w : World R) : Event R → Bool
  | .act i (.record _) => (w.calls[i]?).all fun c => w.manager.fenced c.d && w.turn i c.d.id
  | .act i .openCircuit => (w.calls[i]?).all fun c => w.manager.fenced c.d &&
    match c.pc with
    | .openCircuit failures _ _ => representable (openTime w.now c.d failures)
    | _ => true
  | .act i (.commit stored) => (w.calls[i]?).all fun c =>
    match c.pc with
    | .commit cs _ => decide (w.manager.circuitOpen c.d.id ≤ w.now) || w.manager.superseded c.d ||
      accepted w.manager c cs stored
    | _ => true
  | .read i _ => (w.nextRow i).all fun row =>
    match row.read with
    | .ok cs => concordant cs
    | .error _ => true
  | _ => true

/-- The maps of an `Apply`: an open circuit is in the state that goes with it. -/
structure Prepared.Announced (p : Prepared R) : Prop where
  keys : ∀ {id : Bytes}, p.defs.lookup id = none → p.openUntil.lookup id = none
  carries : ∀ {id : Bytes}, zeroTime < p.openUntil.get zeroTime id →
    ∃ cs, p.states.lookup id = some cs ∧ Carries cs (p.openUntil.get zeroTime id)

/-- Only one refresh of a card opens the circuit, while nobody else has an outcome to commit. -/
structure Opens (w : World R) : Prop where
  alone : ∀ {i j : ℕ} {c x : Call R} {failures : ℤ} {previous : CardState} {e : RunErr},
    w.calls[i]? = some c → w.calls[j]? = some x → c.Live w.manager x.d.id →
    x.d.generation = w.manager.generation → c.pc = .openCircuit failures previous e →
    x.pc.pending = true → i = j
  counted : ∀ {i : ℕ} {c : Call R} {failures : ℤ} {previous : CardState} {e : RunErr},
    w.calls[i]? = some c → c.d.generation = w.manager.generation →
    c.pc = .openCircuit failures previous e → 3 ≤ w.manager.failureCount c.d.id

def Committing (w : World R) (id : Bytes) : Prop :=
  ∃ (i : ℕ) (c : Call R) (cs : CardState) (history : GoMap Bytes ℚ), w.calls[i]? = some c ∧
    c.Live w.manager id ∧ c.pc = .commit cs history

structure Announced (w : World R) : Prop where
  loops : Loops w
  started : zeroTime ≤ w.now
  calls : ∀ {i : ℕ} {c : Call R}, w.calls[i]? = some c → c.Announces w.now w.manager
  opens : Opens w
  published : ∀ {id : Bytes} {d : Definition R}, w.manager.defs.lookup id = some d →
    d.disabled = [] → w.now < w.manager.circuitOpen id →
    Carries (w.manager.previous id) (w.manager.circuitOpen id) ∨ Committing w id
  prepared : ∀ {i : ℕ} {a : Applying R}, w.applies[i]? = some a → a.prepared.Announced

theorem announced_new (store : Option Store) (secrets : Option Registry) {now : ℤ}
    (hnow : zeroTime ≤ now) : Announced (World.new store secrets now : World R) := by
  constructor
  · exact loops_new store secrets now
  · exact hnow
  · exact fun hc => absurd hc (by simp [World.new])
  · exact ⟨fun hc => absurd hc (by simp [World.new]), fun hc => absurd hc (by simp [World.new])⟩
  · intro id d hd
    cases hd
  · intro i a ha
    simp [World.new] at ha

section

variable {w w' : World R} {e : Event R} {i : ℕ} {c c' : Call R} {a : Action} {m' : Manager R}
variable {j : ℕ} {x : Call R} {m : Manager R} {id : Bytes} {d : Definition R} {now failures : ℤ}
  {cs previous : CardState} {p : Prepared R} {err : RunErr} {stored : Bool}

theorem Loops.d_eq (h : Loops w) (hc : w.calls[i]? = some c) (hx : w.calls[j]? = some x)
    (hlive : c.Live w.manager x.d.id) (hgen : x.d.generation = w.manager.generation) :
    c.d = x.d := by
  have hown := h.own hc hlive.generation
  rw [hlive.id, h.own hx hgen] at hown
  exact (Option.some.inj hown).symm

theorem generation_of_fenced (h : Loops w) (hx : w.calls[i]? = some c)
    (hgen : c.d.generation = w.manager.generation) (hid : d.id = c.d.id)
    (hfenced : w.manager.fenced d = true) : d.generation = w.manager.generation := by
  rw [Manager.fenced, hid, h.own hx hgen] at hfenced
  simp only [Option.all_some, decide_eq_true_eq] at hfenced
  omega

theorem pending_of_turn {card : Bytes} (h : w.turn i card = true) (hij : i ≠ j)
    (hx : w.calls[j]? = some x) (hid : x.d.id = card)
    (hgen : x.d.generation = w.manager.generation) : x.pc.pending = false := by
  simp only [World.turn, List.all_eq_true, List.mem_range] at h
  have hj := h j (List.getElem?_eq_some_iff.mp hx).1
  simpa [hx, hid, hgen, Ne.symm hij] using hj

theorem Acted.counters (h : Acted now m c a m' c') (id : Bytes) :
    (∃ failures previous e, c.pc = .openCircuit failures previous e ∧ id = c.d.id) ∨
    m'.circuitOpen id = zeroTime ∨
    m'.circuitOpen id = m.circuitOpen id ∧ m.failureCount id ≤ m'.failureCount id := by
  cases h with
  | succeed hpc hout heval =>
    rw [circuitOpen_succeed, failureCount_succeed]
    split_ifs
    · exact .inr (.inl rfl)
    · exact .inr (.inr ⟨rfl, le_rfl⟩)
  | fail hpc hout heval =>
    refine .inr (.inr ⟨rfl, ?_⟩)
    rw [failureCount_fail]
    split_ifs with hid
    · rw [hid]
      omega
    · exact le_rfl
  | openCircuit hpc =>
    by_cases hid : id = c.d.id
    · exact .inl ⟨_, _, _, hpc, hid⟩
    · rw [circuitOpen_insert, if_neg hid]
      exact .inr (.inr ⟨rfl, le_rfl⟩)
  | commit hpc =>
    exact .inr (.inr ⟨circuitOpen_commit m c _ _ _ id, (failureCount_commit m c _ _ _ id).ge⟩)
  | _ => exact .inr (.inr ⟨rfl, le_rfl⟩)

/-- A refresh that opens the circuit of a card leaves the others with three failures. -/
theorem announces_open (h : Announced w) (hc : w.calls[i]? = some c)
    (hpc : c.pc = .openCircuit failures previous err) (hfenced : w.manager.fenced c.d = true)
    (hij : i ≠ j) (hx : w.calls[j]? = some x) (hid : x.d.id = c.d.id) (t : ℤ) :
    x.Announces w.now { w.manager with openUntil := w.manager.openUntil.insert c.d.id t } := by
  refine ⟨(h.calls hx).enabled, fun hgen _ _ => ?_, fun hgen _ cs history hcommit => ?_⟩
  all_goals have hcgen := generation_of_fenced h.loops hx hgen hid.symm hfenced
  · have hcount := h.opens.counted hc hcgen hpc
    rw [← hid] at hcount
    exact hcount
  · have hpending : x.pc.pending = true := by
      rw [hcommit]
      rfl
    exact absurd (h.opens.alone hc hx ⟨hid.symm, hcgen⟩ hgen hpc hpending) hij

/-- **An action keeps it of every call.** -/
theorem announces_act (h : Announced w) (hc : w.calls[i]? = some c)
    (hacted : Acted w.now w.manager c a m' c') (hok : announced w (.act i a) = true)
    (hx : (w.calls.set i c')[j]? = some x) : x.Announces w.now m' := by
  have hgen := hacted.defs.2
  -- the only action of a refresh that opens the circuit
  have hopening : ∀ {failures previous err}, c.pc = .openCircuit failures previous err →
      w.manager.fenced c.d = true ∧ representable (openTime w.now c.d failures) = true ∧
      m' = { w.manager with
        openUntil := w.manager.openUntil.insert c.d.id (openTime w.now c.d failures) } := by
    intro failures previous err hpc
    cases hacted with
    | openCircuit hpc' =>
      cases hpc.symm.trans hpc'
      simp only [announced, hc, Option.all_some, hpc, Bool.and_eq_true] at hok
      exact ⟨hok.1, hok.2, rfl⟩
    | _ => simp_all
  rcases getElem?_set_cases hx with ⟨rfl, rfl⟩ | ⟨hij, hx⟩
  · exact hacted.announces (h.calls hc) h.started fun _ _ _ hpc => (hopening hpc).2.1
  · by_cases hopens : ∃ failures previous err, c.pc = .openCircuit failures previous err ∧
      x.d.id = c.d.id
    · obtain ⟨failures, previous, err, hpc, hid⟩ := hopens
      obtain ⟨hfenced, -, hm'⟩ := hopening hpc
      rw [hm']
      exact announces_open h hc hpc hfenced hij hx hid _
    · refine (h.calls hx).mono le_rfl (fun hcur => hcur.trans hgen) fun _ hlt => ?_
      rcases hacted.counters x.d.id with hopen | hzero | ⟨heq, hle⟩
      · exact absurd hopen hopens
      · rw [hzero] at hlt
        exact absurd hlt (not_lt.mpr h.started)
      · exact ⟨heq, fun hcount => hcount.trans hle⟩

/-- A refresh of a card that has an outcome to commit keeps the others from recording one. -/
theorem not_record_of_pending (hc : w.calls[i]? = some c) (hij : i ≠ j) (hx : w.calls[j]? = some x)
    (hgen : x.d.generation = w.manager.generation) (hid : x.d.id = c.d.id)
    (hpending : x.pc.pending = true) {bound : Option (Option History)} :
    announced w (.act i (.record bound)) ≠ true := by
  intro hok
  simp only [announced, hc, Option.all_some, Bool.and_eq_true] at hok
  have hidle := pending_of_turn hok.2 hij hx hid hgen
  rw [hpending] at hidle
  cases hidle

/-- A call comes to have an outcome to commit by recording it, by opening the circuit, or if the
card is not to run. -/
theorem Acted.pending (h : Acted now m c a m' c') (hpending : c'.pc.pending = true) :
    (∃ bound, a = .record bound) ∨
      (∃ failures previous err, c.pc = .openCircuit failures previous err) ∨
      c.d.disabled ≠ [] ∨ c.d.run.isNone = true := by
  cases h with
  | check hpc =>
    rw [Scheduler.check] at hpending
    split_ifs at hpending with hsup hdisabled hopen hrun
    · cases hpending
    · exact .inr (.inr (.inl hdisabled))
    · cases hpending
    · exact .inr (.inr (.inr hrun))
    · cases hpending
  | succeed | fail => exact .inl ⟨_, rfl⟩
  | openCircuit hpc => exact .inr (.inl ⟨_, _, _, hpc⟩)
  | _ => cases hpending

theorem Acted.opening (h : Acted now m c a m' c')
    (hpc' : c'.pc = .openCircuit failures previous err) :
    (∃ bound, a = .record bound) ∧ failures = m'.failureCount c.d.id ∧ 3 ≤ failures := by
  cases h with
  | check hpc =>
    rw [Scheduler.check] at hpc'
    split_ifs at hpc' <;> cases hpc'
  | fail hpc hout heval =>
    simp only [failedPc] at hpc'
    split_ifs at hpc' with hopens
    cases hpc'
    rw [failureCount_fail, if_pos rfl]
    exact ⟨⟨_, rfl⟩, rfl, hopens⟩
  | _ => cases hpc'

theorem Acted.failureCount (h : Acted now m c a m' c')
    (hother : ∀ bound, a = .record bound → id ≠ c.d.id) :
    m'.failureCount id = m.failureCount id := by
  cases h with
  | succeed => rw [failureCount_succeed, if_neg (hother _ rfl)]
  | fail => rw [failureCount_fail, if_neg (hother _ rfl)]
  | commit hpc => exact failureCount_commit m c _ _ _ id
  | _ => rfl

theorem opens_act (h : Announced w) (hc : w.calls[i]? = some c)
    (hacted : Acted w.now w.manager c a m' c') (hok : announced w (.act i a) = true) :
    Opens { w with manager := m', calls := w.calls.set i c' } := by
  have hsame := hacted.defs.2
  constructor
  · intro j k x y failures previous err hx hy hlive hygen hpc hpending
    have hxid : x.d.id = y.d.id := hlive.id
    have hxgen : x.d.generation = w.manager.generation := hlive.generation.trans hsame
    replace hygen : y.d.generation = w.manager.generation := hygen.trans hsame
    rcases getElem?_set_cases hx with ⟨rfl, rfl⟩ | ⟨hij, hx'⟩
    · rcases getElem?_set_cases hy with ⟨rfl, rfl⟩ | ⟨hik, hy'⟩
      · rfl
      · -- the call that acted records a failure in its turn
        obtain ⟨⟨bound, rfl⟩, -⟩ := hacted.opening hpc
        rw [hacted.d] at hxid
        exact absurd hok (not_record_of_pending hc hik hy' hygen hxid.symm hpending)
    · rcases getElem?_set_cases hy with ⟨rfl, rfl⟩ | ⟨hik, hy'⟩
      · -- the other one has an outcome to commit already, and an enabled card
        have hxpending : x.pc.pending = true := by
          rw [hpc]
          rfl
        have hon := (h.calls hx').enabled (by rw [hpc]; rfl)
        rw [hacted.d] at hxid hygen
        rw [h.loops.d_eq hx' hc ⟨hxid, hxgen⟩ hygen] at hon
        rcases hacted.pending hpending with ⟨bound, rfl⟩ | ⟨_, _, _, hcpc⟩ | hdisabled | hrun
        · exact absurd hok (not_record_of_pending hc hij hx' hxgen hxid hxpending)
        · exact (h.opens.alone hc hx' ⟨hxid.symm, hygen⟩ hxgen hcpc hxpending).symm
        · exact absurd hon.1 hdisabled
        · rw [Option.isNone_iff_eq_none] at hrun
          rw [hrun] at hon
          cases hon.2
      · exact h.opens.alone hx' hy' ⟨hxid, hxgen⟩ hygen hpc hpending
  · intro j x failures previous err hx hxgen hpc
    replace hxgen : x.d.generation = w.manager.generation := hxgen.trans hsame
    rcases getElem?_set_cases hx with ⟨rfl, rfl⟩ | ⟨hij, hx'⟩
    · rw [hacted.d]
      obtain ⟨-, heq, hopens⟩ := hacted.opening hpc
      rwa [← heq]
    · rw [hacted.failureCount]
      · exact h.opens.counted hx' hxgen hpc
      · intro bound ha hid
        subst ha
        exact not_record_of_pending hc hij hx' hxgen hid (by rw [hpc]; rfl) hok

theorem commit_of_accepted (hcur : m.superseded c.d = false) (h : accepted m c cs stored = true)
    (history : GoMap Bytes ℚ) : (commit m c cs history stored).2 = none := by
  rw [accepted, Bool.and_eq_true] at h
  obtain ⟨⟨⟩, hvalid⟩ := exists_eq_ok h.1
  unfold commit
  simp only [hvalid, hcur]
  cases hstore : m.store with
  | none => rfl
  | some s =>
    have hstored : stored = true ∧ c.ctx = none := by simpa [hstore] using h.2
    simp [hstored.1, hstored.2, Store.putCardWithSignals, hvalid]

theorem Committing.act (h : Committing w id) (hc : w.calls[i]? = some c)
    (hacted : Acted w.now w.manager c a m' c')
    (hother : c.Live w.manager id → ∀ cs history, c.pc ≠ .commit cs history) :
    Committing { w with manager := m', calls := w.calls.set i c' } id := by
  obtain ⟨k, x, cs, history, hx, hlive, hpc⟩ := h
  refine ⟨k, x, cs, history, ?_, ⟨hlive.id, hlive.generation.trans hacted.defs.2.symm⟩, hpc⟩
  have hki : i ≠ k := by
    intro heq
    subst heq
    cases hc.symm.trans hx
    exact hother hlive cs history hpc
  exact (List.getElem?_set_ne hki).trans hx

theorem superseded_of_live (h : Loops w) (hc : w.calls[i]? = some c) (hlive : c.Live w.manager id) :
    w.manager.superseded c.d = false := by
  rw [Manager.superseded, h.own hc hlive.generation]
  simp

theorem published_commit (h : Announced w) (hc : w.calls[i]? = some c) {history : GoMap Bytes ℚ}
    (hpc : c.pc = .commit cs history) (hok : announced w (.act i (.commit stored)) = true)
    (hd : w.manager.defs.lookup id = some d) (hon : d.disabled = [])
    (hopen : w.now < w.manager.circuitOpen id) :
    Carries ((commit w.manager c cs history stored).1.previous id) (w.manager.circuitOpen id) ∨
      (commit w.manager c cs history stored).1.previous id = w.manager.previous id ∧
        ¬ c.Live w.manager id := by
  by_cases hlive : c.Live w.manager id
  · -- the state is the one of the open circuit, and accepted
    have hcur := superseded_of_live h.loops hc hlive
    obtain ⟨hid, hgen⟩ := hlive
    subst hid
    have hdef : d = c.d := Option.some.inj (hd.symm.trans (h.loops.own hc hgen))
    subst hdef
    simp only [announced, hc, Option.all_some, hpc, Bool.or_eq_true, decide_eq_true_eq, hcur]
      at hok
    have haccepted : accepted w.manager c cs stored = true := by
      rcases hok with (hle | hsup) | haccepted
      · exact absurd hopen (not_lt.mpr hle)
      · cases hsup
      · exact haccepted
    have hnone := commit_of_accepted hcur haccepted history
    rw [(previous_commit w.manager c cs history stored).1 hnone]
    exact .inl ((h.calls hc).committing hgen hon cs history hpc hopen)
  · refine .inr ⟨?_, hlive⟩
    cases hsup : w.manager.superseded c.d with
    | true => rw [commit_of_superseded hsup]
    | false =>
      refine (previous_commit w.manager c cs history stored).2 id fun hid => hlive ?_
      exact ⟨hid.symm, generation_of_not_superseded h.loops.current hsup⟩

/-- **The published states after an action.** -/
theorem published_act (h : Announced w) (hc : w.calls[i]? = some c)
    (hacted : Acted w.now w.manager c a m' c') (hok : announced w (.act i a) = true)
    (hd : w.manager.defs.lookup id = some d) (hon : d.disabled = [])
    (hopen : w.now < m'.circuitOpen id) :
    Carries (m'.previous id) (m'.circuitOpen id) ∨
      Committing { w with manager := m', calls := w.calls.set i c' } id := by
  rcases hacted.counters id with ⟨failures, previous, err, hpc, rfl⟩ | hzero | ⟨heq, -⟩
  · -- the refresh that opens the circuit is about to commit
    cases hacted with
    | openCircuit hpc' =>
      simp only [announced, hc, Option.all_some, Bool.and_eq_true, Manager.fenced, hd,
        decide_eq_true_eq] at hok
      have hgen := hok.1.symm.trans (h.loops.current _ _ hd)
      have hlt := (List.getElem?_eq_some_iff.mp hc).1
      exact .inr ⟨i, _, _, _, List.getElem?_set_self hlt, ⟨rfl, hgen⟩, rfl⟩
    | _ => simp_all
  · rw [hzero] at hopen
    exact absurd hopen (not_lt.mpr h.started)
  · rw [heq] at hopen ⊢
    have hbefore := h.published hd hon hopen
    by_cases hcommit : ∃ stored, a = .commit stored
    · obtain ⟨stored, rfl⟩ := hcommit
      have hacted' := hacted
      cases hacted with
      | commit hpc =>
        rcases published_commit h hc hpc hok hd hon hopen with hcarries | ⟨hprevious, hlive⟩
        · exact .inl hcarries
        · rw [hprevious]
          exact hbefore.imp_right fun hk => hk.act hc hacted' fun hl => absurd hl hlive
    · have hstates := (hacted.states fun stored ha => hcommit ⟨stored, ha⟩).1
      rw [Manager.previous, hstates]
      refine hbefore.imp_right fun hk => hk.act hc hacted fun _ cs history hpc => ?_
      cases hacted with
      | commit => exact hcommit ⟨_, rfl⟩
      | _ => simp_all

/-- **An action keeps what holds of the circuits.** -/
theorem announced_act (h : Announced w) (hc : w.calls[i]? = some c)
    (hacted : Acted w.now w.manager c a m' c') (hok : announced w (.act i a) = true) :
    Announced { w with manager := m', calls := w.calls.set i c' } := by
  refine ⟨loops_act h.loops hc hacted, h.started, announces_act h hc hacted hok,
    opens_act h hc hacted hok, fun hd hon hopen => ?_, h.prepared⟩
  rw [hacted.defs.1] at hd
  exact published_act h hc hacted hok hd hon hopen

/-! ## Other events -/

theorem announced_empty : (Prepared.empty : Prepared R).Announced where
  keys := fun _ => rfl
  carries := fun h => absurd h (lt_irrefl _)

theorem announced_add (h : p.Announced) (hnew : p.defs.lookup d.id = none) :
    (p.add d).Announced := by
  constructor
  · intro id hid
    by_cases heq : id = d.id
    · subst heq
      exact h.keys hnew
    · rw [Prepared.add, AList.lookup_insert_ne heq] at hid
      exact h.keys hid
  · intro id hopen
    obtain ⟨cs, hcs, hcarries⟩ := h.carries hopen
    refine ⟨cs, ?_, hcarries⟩
    rw [Prepared.add, AList.lookup_insert_ne]
    · exact hcs
    · intro heq
      subst heq
      have hnone : (p.add d).openUntil.get zeroTime d.id = zeroTime := by
        change (p.openUntil.lookup d.id).getD zeroTime = zeroTime
        rw [h.keys hnew]
        rfl
      rw [hnone] at hopen
      exact lt_irrefl _ hopen

theorem announced_found (h : p.Announced) (hd : (p.defs.lookup d.id).isSome = true)
    (hvalid : cs.validate = .ok ()) (hconcordant : concordant cs = true) (secrets : Option Registry)
    (now : ℤ) : (p.found secrets now d (some cs)).Announced := by
  rw [Prepared.found]
  split_ifs with hleaks
  · exact h
  · constructor
    · intro id hid
      have hne : id ≠ d.id := by
        intro heq
        subst heq
        rw [hid] at hd
        cases hd
      exact (AList.lookup_insert_ne hne).trans (h.keys hid)
    · intro id hopen
      by_cases heq : id = d.id
      · subst heq
        simp only [GoMap.get, AList.lookup_insert, Option.getD_some, Option.some.injEq,
          exists_eq_left'] at hopen ⊢
        have hne : cs.execution.circuitOpenUntil ≠ [] := by
          intro hempty
          rw [hempty] at hopen
          exact lt_irrefl _ hopen
        obtain ⟨hok, hpending⟩ := state_of_circuitOpenUntil hvalid hne
        have hrestored : restored now cs d.source = cs := by
          unfold restored
          split
          · rw [if_neg fun hexpired => hok hexpired.1]
          · rfl
        rw [hrestored]
        refine ⟨hok, hpending, rfl, ?_⟩
        simpa [concordant, hne] using hconcordant
      · have hbefore : zeroTime < p.openUntil.get zeroTime id := by
          simpa only [GoMap.get, AList.lookup_insert_ne heq] using hopen
        obtain ⟨cs', hcs', hcarries⟩ := h.carries hbefore
        refine ⟨cs', (AList.lookup_insert_ne heq).trans hcs', ?_⟩
        simpa only [GoMap.get, AList.lookup_insert_ne heq] using hcarries

theorem announced_read {a : Applying R} (h : a.prepared.Announced) (secrets : Option Registry)
    (now : ℤ) (store : Option Store) (d : Definition R) (todo : List (Definition R))
    (readable : Bool)
    (hrow : ∀ row cs, (store.bind fun s => s.cards.lookup d.id) = some row → row.read = .ok cs →
      concordant cs = true) :
    (a.read secrets now store d todo readable).prepared.Announced := by
  unfold Applying.read
  split
  · exact h
  · rename_i p hp
    obtain ⟨hnew, rfl⟩ := accept_eq_ok hp
    have hadd : (a.prepared.add d.withDefaults).Announced := announced_add h hnew
    split
    · exact hadd
    · split_ifs
      · split
        · exact hadd
        · rename_i s row hlookup
          split_ifs
          · exact hadd
          · split
            · exact h
            · rename_i cs hread
              refine announced_found hadd ?_ ?_ (hrow row cs hlookup hread) _ _
              · change ((a.prepared.defs.insert d.id d.withDefaults).lookup d.id).isSome = true
                rw [AList.lookup_insert]
                rfl
              · rw [Row.read] at hread
                split at hread
                · cases hread
                · split at hread
                  · cases hread
                  · cases hread
                    assumption
      · exact h

theorem prepared_step (h : Announced w) (hstep : step e w = some w')
    (hok : announced w e = true) {i : ℕ} {a : Applying R} (ha : w'.applies[i]? = some a) :
    a.prepared.Announced := by
  refine prepared_of_step h.prepared announced_empty ?_ hstep ha
  intro i a d todo readable he ha htodo
  subst he
  refine announced_read (h.prepared ha) _ _ _ _ _ _ fun row cs hlookup hread => ?_
  obtain ⟨s, hs, hrow⟩ := Option.bind_eq_some_iff.mp hlookup
  simpa [announced, World.nextRow, ha, htodo, hs, hrow, hread] using hok

theorem published_swap (h : p.Announced) (hnow : zeroTime ≤ now)
    (hopen : now < (m.swap p).circuitOpen id) :
    Carries ((m.swap p).previous id) ((m.swap p).circuitOpen id) := by
  obtain ⟨cs, hcs, hcarries⟩ := h.carries (lt_of_le_of_lt hnow hopen)
  have hprevious : (m.swap p).previous id = cs := by
    change (p.states.lookup id).getD _ = cs
    rw [hcs]
    rfl
  rw [hprevious]
  exact hcarries

theorem Goes.pending {calls calls' : List (Call R)} (h : Goes calls calls')
    (hx : calls'[j]? = some x) (hpending : x.pc.pending = true) :
    ∃ y, calls[j]? = some y ∧ y.d = x.d ∧ y.pc = x.pc := by
  obtain ⟨y, hy, hrests, heq⟩ := h.of_pc hx (fun hpc => by simp [hpc, Pc.pending] at hpending)
    (fun hpc => by simp [hpc, Pc.pending] at hpending)
  exact ⟨y, hy, hrests.d.symm, heq.symm⟩

/-- **A swap keeps what holds of the circuits**: nothing of the old generation counts. -/
theorem announced_swap (h : Announced w) {k : ℕ} (hstep : step (.swap k) w = some w')
    (hok : announced w (.swap k) = true) : Announced w' := by
  have hgoes := (rest_of_step hstep (by simp)).calls
  obtain ⟨b, hb, hmanager⟩ : ∃ b, w.applies[k]? = some b ∧
      w'.manager = w.manager.swap b.prepared := by
    cases stepped_of_step hstep with
    | swap hb hphase htodo => exact ⟨_, hb, rfl⟩
  have hgen : w'.manager.generation = w.manager.generation + 1 := by rw [hmanager]; rfl
  have hold : ∀ {j : ℕ} {y : Call R}, w.calls[j]? = some y →
      y.d.generation ≠ w'.manager.generation := by
    intro j y hy
    have := h.loops.generation hy
    omega
  refine ⟨loops_step h.loops hstep, h.started.trans (now_of_step hstep), ?_, ⟨?_, ?_⟩, ?_,
    prepared_step h hstep hok⟩
  · intro j x hx
    rcases hgoes.new hx with ⟨y, hy, hrests⟩ | ⟨-, d, scheduled, ctx, rfl⟩
    · refine hrests.announces ((h.calls hy).mono (now_of_step hstep) ?_ ?_)
      · exact fun hcur => absurd hcur (hold hy)
      · exact fun hcur => absurd hcur (hold hy)
    · exact announces_of_idle rfl rfl
  · intro i j c x failures previous err hc hx hlive hxgen hpc hpending
    obtain ⟨y, hy, hd, -⟩ := hgoes.pending hx hpending
    rw [← hd] at hxgen
    exact absurd hxgen (hold hy)
  · intro i c failures previous err hc hcgen hpc
    obtain ⟨y, hy, hd, -⟩ := hgoes.pending hc (by rw [hpc]; rfl)
    rw [← hd] at hcgen
    exact absurd hcgen (hold hy)
  · intro id d hd hon hopen
    rw [hmanager] at hopen ⊢
    exact .inl (published_swap (h.prepared hb) (h.started.trans (now_of_step hstep)) hopen)

/-- **The other events keep what holds of the circuits.** -/
theorem announced_rest (h : Announced w) (hstep : step e w = some w')
    (hact : ∀ i a, e ≠ .act i a) (hswap : ∀ i, e ≠ .swap i) (hok : announced w e = true) :
    Announced w' := by
  have hgoes := (rest_of_step hstep hact).calls
  have hnow := now_of_step hstep
  obtain ⟨store, manualAt, subs, hmanager⟩ := manager_of_step hstep hact hswap
  refine ⟨loops_step h.loops hstep, h.started.trans hnow, ?_, ⟨?_, ?_⟩, ?_,
    prepared_step h hstep hok⟩
  · intro j x hx
    rcases hgoes.new hx with ⟨y, hy, hrests⟩ | ⟨-, d, scheduled, ctx, rfl⟩
    · refine hrests.announces ((h.calls hy).mono hnow ?_ ?_) <;> rw [hmanager]
      · exact id
      · exact fun _ _ => ⟨rfl, id⟩
    · exact announces_of_idle rfl rfl
  · intro i j c x failures previous err hc hx hlive hxgen hpc hpending
    obtain ⟨y, hy, hd, hpcy⟩ := hgoes.pending hx hpending
    obtain ⟨b, hb, hdb, hpcb⟩ := hgoes.pending hc (by rw [hpc]; rfl)
    rw [hmanager] at hlive hxgen
    refine h.opens.alone hb hy ⟨?_, ?_⟩ ?_ (hpcb.trans hpc) (hpcy ▸ hpending)
    · rw [hdb, hd]
      exact hlive.id
    · rw [hdb]
      exact hlive.generation
    · rw [hd]
      exact hxgen
  · intro i c failures previous err hc hcgen hpc
    obtain ⟨b, hb, hdb, hpcb⟩ := hgoes.pending hc (by rw [hpc]; rfl)
    rw [hmanager] at hcgen ⊢
    rw [← hdb] at hcgen ⊢
    exact h.opens.counted hb hcgen (hpcb.trans hpc)
  · intro id d hd hon hopen
    rw [hmanager] at hd hopen ⊢
    refine (h.published hd hon (lt_of_le_of_lt hnow hopen)).imp_right fun hk => ?_
    obtain ⟨k, x, cs, history, hx, hlive, hpc⟩ := hk
    obtain ⟨x', hx', hrests⟩ := hgoes.old hx
    refine ⟨k, x', cs, history, hx', ⟨?_, ?_⟩, ?_⟩
    · rw [hrests.d]
      exact hlive.id
    · rw [hrests.d, hmanager]
      exact hlive.generation
    · rcases hrests.pc with heq | ⟨⟨t, hsleeping⟩, -⟩
      · exact heq.trans hpc
      · rw [hpc] at hsleeping
        cases hsleeping

/-- **A step that announces what it does** keeps what holds of the circuits. -/
theorem announced_step (h : Announced w) (hstep : step e w = some w')
    (hok : announced w e = true) : Announced w' := by
  rcases act_or_rest hstep with ⟨i, a, c, m', c', rfl, hc, hacted, rfl⟩ | ⟨hact, -⟩
  · exact announced_act h hc hacted hok
  · by_cases hswap : ∃ i, e = .swap i
    · obtain ⟨i, rfl⟩ := hswap
      exact announced_swap h hstep hok
    · exact announced_rest h hstep hact (fun i heq => hswap ⟨i, heq⟩) hok

end

/-- **The breaker in memory agrees with the published state** in the runs whose steps announce
what they do: while the manager skips the runs of an enabled card because its circuit is open, the
card's state says so, unless a refresh of the card is about to commit. -/
theorem circuit_published {store : Option Store} {secrets : Option Registry} {now : ℤ}
    {es : List (Event R)} {w : World R} {id : Bytes} {d : Definition R}
    (hnow : zeroTime ≤ now)
    (hok : Along step (fun w e _ => announced w e = true) (World.new store secrets now) es)
    (hrun : run step (World.new store secrets now) es = some w)
    (hd : w.manager.defs.lookup id = some d) (hon : d.disabled = [])
    (hopen : w.now < w.manager.circuitOpen id) (hsettled : ¬ Committing w id) :
    Carries (w.manager.previous id) (w.manager.circuitOpen id) := by
  have hinv := invariant_run_along announced_step (announced_new store secrets hnow) hok hrun
  exact (hinv.published hd hon hopen).resolve_right hsettled

/-- The third run of the card in a row fails, and the store takes the state or not. -/
def thirdFailure (stored : Bool) : List (Event Unit) :=
  hurriedRun ++ [Event.act 2 (.finish zeroDocument (some ⟨.other, ascii "down"⟩)),
    .act 2 (.record none), .act 2 .openCircuit, .act 2 (.commit stored)]

/-- The circuit of the card is open, and no refresh is about to commit. -/
structure OpenCircuit (w : World Unit) (d : Definition Unit) : Prop where
  current : w.manager.defs.lookup (ascii "a") = some d
  enabled : d.disabled = []
  skips : w.now < w.manager.circuitOpen (ascii "a")
  settled : ¬ Committing w (ascii "a")

def openCircuit (w : World Unit) : Bool :=
  ((w.manager.defs.lookup (ascii "a")).any fun d => decide (d.disabled = [])) &&
    decide (w.now < w.manager.circuitOpen (ascii "a")) && w.calls.all fun c => !c.pc.pending

theorem exists_openCircuit {w : World Unit} (h : openCircuit w = true) :
    ∃ d, OpenCircuit w d := by
  simp only [openCircuit, Bool.and_eq_true, Option.any_eq_true, decide_eq_true_eq,
    List.all_eq_true] at h
  obtain ⟨⟨⟨d, hd, hon⟩, hopen⟩, hidle⟩ := h
  refine ⟨d, hd, hon, hopen, fun hk => ?_⟩
  obtain ⟨k, x, cs, history, hx, -, hpc⟩ := hk
  have hx' := hidle x (List.mem_of_getElem? hx)
  rw [hpc] at hx'
  cases hx'

/-- The third failure opens the circuit, and the card's state says so. -/
theorem circuit_published_thirdFailure :
    ∃ w : World Unit, run step (World.new none none zeroTime) (thirdFailure true) = some w ∧
      w.now < w.manager.circuitOpen (ascii "a") ∧
      Carries (w.manager.previous (ascii "a")) (w.manager.circuitOpen (ascii "a")) := by
  have hend : ((run step (World.new none none zeroTime) (thirdFailure true)).any openCircuit) =
      true := by decide +kernel
  simp only [Option.any_eq_true] at hend
  obtain ⟨w, hw, hopen⟩ := hend
  obtain ⟨d, hd⟩ := exists_openCircuit hopen
  exact ⟨w, hw, hd.skips,
    circuit_published le_rfl (by decide +kernel) hw hd.current hd.enabled hd.skips hd.settled⟩

/-- **A state that the store refuses** leaves the circuit open in memory only: runs of the card are
skipped, and its state has no end of an open circuit. -/
theorem circuit_open_unpublished :
    ∃ (w : World Unit) (d : Definition Unit),
      run step (World.new (some Store.empty) none zeroTime) (thirdFailure false) = some w ∧
      OpenCircuit w d ∧
      ¬ Carries (w.manager.previous (ascii "a")) (w.manager.circuitOpen (ascii "a")) := by
  have hend : ((run step (World.new (some Store.empty) none zeroTime) (thirdFailure false)).any
      fun w => openCircuit w &&
        decide (parseTime (w.manager.previous (ascii "a")).execution.circuitOpenUntil ≠
          w.manager.circuitOpen (ascii "a"))) = true := by decide +kernel
  simp only [Option.any_eq_true, Bool.and_eq_true, decide_eq_true_eq] at hend
  obtain ⟨w, hw, hopen, hne⟩ := hend
  obtain ⟨d, hd⟩ := exists_openCircuit hopen
  exact ⟨w, d, hw, hd, fun hcarries => hne hcarries.circuitOpenUntil⟩

end Veduta.Scheduler
