import Veduta.Scheduler.System

/-!
# The generation fence

A refresh belongs to the generation of its definition.  Once an `Apply` has replaced that
generation, the fence in the commit keeps the refresh from changing states and rows.  But the
refresh records its outcome before it commits, and there is no fence there: it counts a failure,
opens the circuit or resets both for the card of the new generation.
-/

namespace Veduta.Scheduler

open Go State Storage Secrets Lib

variable {R : Type}

/-- Every definition has the manager's generation. -/
def Current (m : Manager R) : Prop :=
  ∀ id d, m.defs.lookup id = some d → d.generation = m.generation

theorem current_new (store : Option Store) (secrets : Option Registry) :
    Current (Manager.new store secrets : Manager R) := by
  intro id d h
  cases h

theorem lookup_swap {m : Manager R} {p : Prepared R} {id : Bytes} {d : Definition R}
    (h : (m.swap p).defs.lookup id = some d) :
    ∃ d', p.defs.lookup id = some d' ∧ { d' with generation := m.generation + 1 } = d := by
  rw [Manager.swap, GoMap.lookup_filterMap] at h
  obtain ⟨d', hd', heq⟩ := Option.bind_eq_some_iff.mp h
  exact ⟨d', hd', Option.some.inj heq⟩

theorem current_swap (m : Manager R) (p : Prepared R) : Current (m.swap p) := by
  intro id d h
  obtain ⟨d', -, rfl⟩ := lookup_swap h
  rfl

theorem Acted.defs {now : ℤ} {m m' : Manager R} {c c' : Call R} {a : Action}
    (h : Acted now m c a m' c') : m'.defs = m.defs ∧ m'.generation = m.generation := by
  cases h with
  | commit hpc => exact ⟨(commit_frame m c _ _ _).defs, (commit_frame m c _ _ _).generation⟩
  | _ => exact ⟨rfl, rfl⟩

theorem current_step {w w' : World R} {e : Event R} (h : Current w.manager)
    (hstep : step e w = some w') : Current w'.manager := by
  rcases act_or_rest hstep with ⟨i, a, c, m', c', rfl, _, hacted, rfl⟩ | ⟨-, hrest⟩
  · intro id d hd
    rw [hacted.defs.1] at hd
    exact (h id d hd).trans hacted.defs.2.symm
  · rcases hrest.defs with ⟨hdefs, hgen⟩ | ⟨p, hswap⟩
    · intro id d hd
      rw [hdefs] at hd
      exact (h id d hd).trans hgen.symm
    · rw [hswap]
      exact current_swap w.manager p

theorem superseded_of_lt {m : Manager R} (h : Current m) {d : Definition R}
    (hlt : d.generation < m.generation) : m.superseded d = true := by
  rw [Manager.superseded]
  split
  · rfl
  · rename_i current hcur
    have hgen := h d.id current hcur
    rw [decide_eq_true_eq]
    omega

/-! ## The fence -/

/-- What the manager knows about cards is the same. -/
structure SameCards (m m' : Manager R) : Prop where
  defs : m'.defs = m.defs
  states : m'.states = m.states
  failures : ∀ id, m'.failureCount id = m.failureCount id
  circuits : ∀ id, m'.circuitOpen id = m.circuitOpen id
  store : m'.store = m.store

theorem SameCards.refl (m : Manager R) : SameCards m m := ⟨rfl, rfl, fun _ => rfl, fun _ => rfl, rfl⟩

/-- The refresh belongs to an earlier generation. -/
def Superseded (m : Manager R) (c : Call R) : Prop := c.d.generation < m.generation

/-- A step of a superseded refresh changes nothing that the manager knows about cards. -/
def Fenced (w : World R) (e : Event R) (w' : World R) : Prop :=
  ∀ i a c, e = .act i a → w.calls[i]? = some c → Superseded w.manager c →
    SameCards w.manager w'.manager

/-- The action has nothing to record: it is no failure, opens no circuit that is not open that
long already, and is a success only of a card without failures and open circuit. -/
def HarmlessAction (now : ℤ) (m : Manager R) (c : Call R) : Action → Prop
  | .record bound => ∀ o, c.outcome = some o →
    (∀ e, evaluate m.secrets c.d o ≠ .error e) ∧
      (bound = none ∨ m.failureCount c.d.id = 0 ∧ m.circuitOpen c.d.id = zeroTime)
  | .openCircuit => ∀ failures previous e, c.pc = .openCircuit failures previous e →
    m.circuitOpen c.d.id = openTime now c.d failures
  | _ => True

/-- A superseded refresh has nothing to record. -/
def Harmless (w : World R) (e : Event R) : Prop :=
  ∀ i a c, e = .act i a → w.calls[i]? = some c → Superseded w.manager c →
    HarmlessAction w.now w.manager c a

section

variable {m : Manager R}

theorem failureCount_succeed (id id' : Bytes) :
    (m.succeed id).failureCount id' = if id' = id then 0 else m.failureCount id' := by
  by_cases h : id' = id
  · subst h
    simp [Manager.failureCount, Manager.succeed, GoMap.get]
  · simp [Manager.failureCount, Manager.succeed, GoMap.get, h]

theorem circuitOpen_succeed (id id' : Bytes) :
    (m.succeed id).circuitOpen id' = if id' = id then zeroTime else m.circuitOpen id' := by
  by_cases h : id' = id
  · subst h
    simp [Manager.circuitOpen, Manager.succeed, GoMap.get]
  · simp [Manager.circuitOpen, Manager.succeed, GoMap.get, h]

theorem failureCount_fail (id id' : Bytes) :
    (m.fail id).failureCount id' =
      if id' = id then m.failureCount id + 1 else m.failureCount id' := by
  by_cases h : id' = id
  · subst h
    simp [Manager.failureCount, Manager.fail, GoMap.get]
  · simp [Manager.failureCount, Manager.fail, GoMap.get, h]

theorem sameCards_succeed_iff (id : Bytes) :
    SameCards m (m.succeed id) ↔ m.failureCount id = 0 ∧ m.circuitOpen id = zeroTime := by
  constructor
  · intro h
    have hfail := h.failures id
    have hopen := h.circuits id
    rw [failureCount_succeed, if_pos rfl] at hfail
    rw [circuitOpen_succeed, if_pos rfl] at hopen
    exact ⟨hfail.symm, hopen.symm⟩
  · intro h
    refine ⟨rfl, rfl, fun id' => ?_, fun id' => ?_, rfl⟩
    · rw [failureCount_succeed]
      split_ifs with heq
      · rw [heq, h.1]
      · rfl
    · rw [circuitOpen_succeed]
      split_ifs with heq
      · rw [heq, h.2]
      · rfl

theorem not_sameCards_fail (id : Bytes) : ¬ SameCards m (m.fail id) := by
  intro h
  have hfail := h.failures id
  rw [failureCount_fail, if_pos rfl] at hfail
  omega

theorem circuitOpen_insert (id id' : Bytes) (t : ℤ) :
    ({ m with openUntil := m.openUntil.insert id t } : Manager R).circuitOpen id' =
      if id' = id then t else m.circuitOpen id' := by
  by_cases h : id' = id
  · subst h
    simp [Manager.circuitOpen, GoMap.get]
  · simp [Manager.circuitOpen, GoMap.get, h]

theorem sameCards_openCircuit_iff (id : Bytes) (t : ℤ) :
    SameCards m { m with openUntil := m.openUntil.insert id t } ↔ m.circuitOpen id = t := by
  constructor
  · intro h
    have hid := h.circuits id
    rw [circuitOpen_insert, if_pos rfl] at hid
    exact hid.symm
  · intro h
    refine ⟨rfl, rfl, fun _ => rfl, fun id' => ?_, rfl⟩
    rw [circuitOpen_insert]
    split_ifs with heq
    · rw [heq, h]
    · rfl

theorem commit_of_superseded {c : Call R} (h : m.superseded c.d = true) (cs : CardState)
    (history : GoMap Bytes ℚ) (stored : Bool) : (commit m c cs history stored).1 = m := by
  rcases commit_cases m c cs history stored with ⟨err, heq⟩ | ⟨hcur, _⟩
  · rw [heq]
  · rw [h] at hcur
    cases hcur

/-- **One action.**  That of a superseded refresh changes nothing about cards exactly if it has
nothing to record. -/
theorem Acted.sameCards_iff {now : ℤ} {m' : Manager R} {c c' : Call R} {a : Action}
    (h : Acted now m c a m' c') (hcur : Current m) (hsup : Superseded m c) :
    SameCards m m' ↔ HarmlessAction now m c a := by
  cases h with
  | unread hpc hout heval =>
    refine iff_of_true (.refl m) fun o ho => ⟨fun e he => ?_, .inl rfl⟩
    cases hout.symm.trans ho
    cases heval.symm.trans he
  | succeed hpc hout heval =>
    rw [sameCards_succeed_iff]
    constructor
    · intro hreset o ho
      refine ⟨fun e he => ?_, .inr hreset⟩
      cases hout.symm.trans ho
      cases heval.symm.trans he
    · intro hharmless
      exact (hharmless _ hout).2.resolve_left (by simp)
  | fail hpc hout heval =>
    exact iff_of_false (not_sameCards_fail _) fun hharmless => (hharmless _ hout).1 _ heval
  | openCircuit hpc =>
    rw [sameCards_openCircuit_iff]
    constructor
    · intro hopen failures previous e hpc'
      cases hpc.symm.trans hpc'
      exact hopen
    · intro hharmless
      exact hharmless _ _ _ hpc
  | commit hpc =>
    rw [commit_of_superseded (superseded_of_lt hcur hsup)]
    exact iff_of_true (.refl m) trivial
  | _ => exact iff_of_true ⟨rfl, rfl, fun _ => rfl, fun _ => rfl, rfl⟩ trivial

end

/-- **One step.** -/
theorem fenced_step_iff {w w' : World R} {e : Event R} (hcur : Current w.manager)
    (hstep : step e w = some w') : Fenced w e w' ↔ Harmless w e := by
  constructor
  · intro hfenced i a c he hc hsup
    subst he
    obtain ⟨c₀, m', c', hc₀, hacted, rfl⟩ := step_act hstep
    cases hc.symm.trans hc₀
    exact (hacted.sameCards_iff hcur hsup).mp (hfenced i a c rfl hc hsup)
  · intro hharmless i a c he hc hsup
    subst he
    obtain ⟨c₀, m', c', hc₀, hacted, rfl⟩ := step_act hstep
    cases hc.symm.trans hc₀
    exact (hacted.sameCards_iff hcur hsup).mpr (hharmless i a c rfl hc hsup)

/-- **The fence holds in exactly the runs in which no superseded refresh has anything to
record.**  In such a run every step of a superseded refresh leaves the definitions, states,
failure counters, open circuits and rows as they are. -/
theorem fenced_iff_harmless (store : Option Store) (secrets : Option Registry) (now : ℤ)
    (es : List (Event R)) :
    Along step Fenced (World.new store secrets now) es ↔
      Along step (fun w e _ => Harmless w e) (World.new store secrets now) es := by
  have hnew : Current (World.new store secrets now : World R).manager := current_new store secrets
  constructor
  · exact along_of_invariant current_step
      (fun hcur hstep hfenced => (fenced_step_iff hcur hstep).mp hfenced) hnew
  · exact along_of_invariant current_step
      (fun hcur hstep hharmless => (fenced_step_iff hcur hstep).mpr hharmless) hnew

def runningCard : Definition Unit where
  id := ascii "a"
  hash := ascii "h"
  key := []
  manifestDigest := []
  approvalRevision := []
  slotRevisions := []
  refresh := minute
  timeout := second
  source := Source.struct.zero
  run := some ()
  disabled := []
  historySignals := ∅
  generation := 0

/-- The card is applied and its loop starts a run, before the given events. -/
def startRun (d : Definition Unit) (es : List (Event Unit)) : List (Event Unit) :=
  .apply [d] :: .read 0 true :: .swap 0 :: .act 0 .check :: .act 0 .join :: .act 0 .acquire :: es

/-- The card is applied and its loop starts a run; the same card is applied again, which cancels
the run. -/
def reloadDuringRun : List (Event Unit) :=
  startRun runningCard [.apply [runningCard], .read 1 true, .swap 1,
    .act 0 (.finish zeroDocument (some (contextErr false)))]

/-- The cancelled run of the old generation counts as a failure of the new one. -/
theorem fence_broken_by_reload :
    ¬ Along step Fenced (World.new none none zeroTime)
      (reloadDuringRun ++ [Event.act 0 (.record none)]) := by
  intro h
  have hcount : ((run step (World.new none none zeroTime) reloadDuringRun).bind fun u =>
      (step (.act 0 (.record none)) u).bind fun u' => (u.calls[0]?).map fun c =>
        (decide (c.d.generation < u.manager.generation), u.manager.failureCount (ascii "a"),
          u'.manager.failureCount (ascii "a"))) = some (true, 0, 1) := by
    decide +kernel
  obtain ⟨u, hu, hcount⟩ := Option.bind_eq_some_iff.mp hcount
  obtain ⟨u', hu', hcount⟩ := Option.bind_eq_some_iff.mp hcount
  obtain ⟨c, hc, hcount⟩ := Option.map_eq_some_iff.mp hcount
  simp only [Prod.mk.injEq, decide_eq_true_eq] at hcount
  have hsame := (h.next hu hu') 0 _ c rfl hc hcount.1
  have hfail := hsame.failures (ascii "a")
  rw [hcount.2.1, hcount.2.2] at hfail
  cases hfail

end Veduta.Scheduler
