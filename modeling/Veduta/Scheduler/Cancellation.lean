import Veduta.Scheduler.SingleFlight

/-!
# Cancelled refreshes

A refresh whose context is done returns the context's error from `runShared`, and the failure path
of `refresh` does not tell it from the error of a run: a closed request counts as a failure of the
card.  So does a cancelled leader for everybody on its flight, whether it waited for a worker or
its run was cut short.
-/

namespace Veduta.Scheduler

open Go Widgets State Storage Secrets Lib

variable {R : Type}
variable {m m' : Manager R} {card id : Bytes}

/-- The run ended with an error after its context was done.  The error need not be that of the
context: a guest reports the host call that was cut short in its own words. -/
def Call.blames (c : Call R) (err : Option RunErr) : Bool := c.ctx.isSome && err.isSome

/-- The outcome of a flight, if the action ends its run and no context cut it short. -/
def Call.ownEnd (now : ℤ) (c : Call R) (a : Action) : Option (ℕ × Outcome) :=
  match a, c.pc, c.flight with
  | .finish doc err, .running start, some f =>
    if c.blames err then none else some (f, ⟨doc, now - start, err⟩)
  | .panic, .running _, some f => some (f, ⟨zeroDocument, 0, none⟩)
  | _, _, _ => none

def ownEnds (w : World R) : Event R → Option (ℕ × Outcome)
  | .act i a => (w.calls[i]?).bind fun c => c.ownEnd w.now a
  | _ => none

/-- A failure of the card is counted, or its circuit opens. -/
def Counts (m m' : Manager R) (card : Bytes) : Prop :=
  m.failureCount card < m'.failureCount card ∧ m'.failureCount card ≠ 0 ∨
    m'.openUntil.lookup card ≠ m.openUntil.lookup card ∧
      (m'.openUntil.lookup card).isSome = true

/-- **No context gets in the way**: no refresh gives up waiting for a flight or a worker, and no
run ends with an error under a context that is done. -/
def undisturbed (w : World R) : Event R → Bool
  | .act _ .giveUp => false
  | .act i (.finish _ err) => (w.calls[i]?).all fun c => !c.blames err
  | _ => true

/-! ## Only runs are counted -/

/-- **A step keeps the outcomes those of runs** if it is undisturbed. -/
theorem ownEnds_step {w w' : World R} {e : Event R} {past : List (ℕ × Outcome)}
    (h : (Sound w ∧ Aloft w) ∧ Comes (fun _ f o => (f, o) ∈ past) w) (hstep : step e w = some w')
    (hcalm : undisturbed w e = true) :
    (Sound w' ∧ Aloft w') ∧
      Comes (fun _ f o => (f, o) ∈ past ++ (ownEnds w e).toList) w' := by
  refine ⟨aloft_step h.1 hstep, comes_step h.1.1 h.1.2 h.2 hstep ?_ ?_⟩
  · intro i f o hgood
    exact List.mem_append_left _ hgood
  · intro i c a he hc
    subst he
    have hends : ownEnds w (.act i a) = c.ownEnd w.now a := by
      rw [ownEnds, hc, Option.bind_some]
    constructor
    · intro f e ha
      subst ha
      cases hcalm
    · intro f start doc err ha hf hpc j
      subst ha
      have hblames : c.blames err = false := by simpa [undisturbed, hc] using hcalm
      refine List.mem_append_right _ ?_
      rw [hends]
      simp [Call.ownEnd, hpc, hf, hblames]
    · intro f e ha
      subst ha
      cases hcalm
    · intro f ha hf j x hx hwaits
      subst ha
      refine List.mem_append_right _ ?_
      obtain ⟨_, m', c', hc', hacted, -⟩ := step_act hstep
      cases hc.symm.trans hc'
      cases hacted with
      | panic hpc hflight hcall =>
        rw [hends]
        simp [Call.ownEnd, hpc, hf]

theorem not_counts_of_same (hfailures : m'.failures = m.failures)
    (hopen : m'.openUntil = m.openUntil) (card : Bytes) : ¬ Counts m m' card := by
  intro h
  rcases h with ⟨hlt, -⟩ | ⟨hne, -⟩
  · rw [Manager.failureCount, Manager.failureCount, hfailures] at hlt
    exact lt_irrefl _ hlt
  · exact hne (by rw [hopen])

theorem not_counts_succeed (m : Manager R) (id card : Bytes) : ¬ Counts m (m.succeed id) card := by
  intro h
  by_cases hid : card = id
  · subst hid
    rcases h with ⟨-, hne⟩ | ⟨-, hsome⟩
    · exact hne (by rw [failureCount_succeed, if_pos rfl])
    · rw [Manager.succeed, AList.lookup_erase] at hsome
      cases hsome
  · rcases h with ⟨hlt, -⟩ | ⟨hne, -⟩
    · rw [failureCount_succeed, if_neg hid] at hlt
      exact lt_irrefl _ hlt
    · exact hne (AList.lookup_erase_ne hid)

theorem eq_of_counts_fail (h : Counts m (m.fail id) card) : id = card := by
  by_contra hid
  rcases h with ⟨hlt, -⟩ | ⟨hne, -⟩
  · rw [failureCount_fail, if_neg (Ne.symm hid)] at hlt
    exact lt_irrefl _ hlt
  · exact hne rfl

theorem eq_of_counts_open {t : ℤ}
    (h : Counts m { m with openUntil := m.openUntil.insert id t } card) : id = card := by
  by_contra hid
  rcases h with ⟨hlt, -⟩ | ⟨hne, -⟩
  · exact lt_irrefl _ hlt
  · exact hne (AList.lookup_insert_ne (Ne.symm hid))

theorem Acted.fails_of_counts {now : ℤ} {c c' : Call R} {a : Action} (h : Acted now m c a m' c')
    (hc : c.Consistent m.secrets) (hcounts : Counts m m' card) :
    c.d.id = card ∧ ∃ o, c.outcome = some o ∧ fails m.secrets c.d o = true := by
  cases h with
  | succeed => exact absurd hcounts (not_counts_succeed m c.d.id card)
  | fail hpc hout heval => exact ⟨eq_of_counts_fail hcounts, _, hout, fails_of_error heval⟩
  | openCircuit hpc =>
    simp only [Call.Consistent, hpc] at hc
    exact ⟨eq_of_counts_open hcounts, hc.1⟩
  | commit hpc =>
    have hframe := commit_frame m c
    exact absurd hcounts (not_counts_of_same (hframe _ _ _).failures (hframe _ _ _).openUntil card)
  | _ => exact absurd hcounts (not_counts_of_same rfl rfl card)

/-- **Cancellation is no failure** in the runs that no context disturbs: a step that counts a
failure of a card, or opens its circuit, is one of a refresh of the card whose flight's run failed
by itself.  An `Apply` takes the counters from the store. -/
theorem counts_own_failures {store : Option Store} {secrets : Option Registry} {now : ℤ}
    {es : List (Event R)} {w w' : World R} {e : Event R} {card : Bytes}
    (hrun : run step (World.new store secrets now) es = some w)
    (hcalm : Along step (fun w e _ => undisturbed w e = true) (World.new store secrets now) es)
    (hstep : step e w = some w') (hcounts : Counts w.manager w'.manager card) :
    (∃ i, e = .swap i) ∨ ∃ i a c f o, e = .act i a ∧ w.calls[i]? = some c ∧ c.d.id = card ∧
      c.flight = some f ∧ c.outcome = some o ∧ fails w.manager.secrets c.d o = true ∧
      (f, o) ∈ trace step ownEnds (World.new store secrets now) es := by
  have hinv := invariant_trace
    (I := fun w past => (Sound w ∧ Aloft w) ∧ Comes (fun _ f o => (f, o) ∈ past) w) ownEnds_step
    ⟨⟨sound_new store secrets now, aloft_new store secrets now⟩,
      comes_new (fun _ f o => (f, o) ∈ []) store secrets now⟩ hcalm hrun
  rw [List.nil_append] at hinv
  obtain ⟨⟨hsound, -⟩, hcomes⟩ := hinv
  by_cases hswap : ∃ i, e = .swap i
  · exact .inl hswap
  · rcases act_or_rest hstep with ⟨i, a, c, m', c', rfl, hc, hacted, rfl⟩ | ⟨hact, -⟩
    · obtain ⟨hid, o, ho, hfails⟩ := hacted.fails_of_counts (hsound.calls i c hc).consistent hcounts
      obtain ⟨f, hf⟩ := Option.isSome_iff_exists.mp
        (hcomes.flight hc (Option.isSome_iff_exists.mpr ⟨o, ho⟩))
      exact .inr ⟨i, a, c, f, o, rfl, hc, hid, hf, ho, hfails, hcomes.outcome hc hf ho⟩
    · obtain ⟨store', manualAt, subs, hmanager⟩ := manager_of_step hstep hact
        fun i heq => hswap ⟨i, heq⟩
      rw [hmanager] at hcounts
      exact absurd hcounts (not_counts_of_same rfl rfl card)

/-- The loop of the card runs it, and the run fails. -/
def failedRun : List (Event Unit) :=
  startRun runningCard [.act 0 (.finish zeroDocument (some ⟨.other, ascii "down"⟩))]

/-- A run that fails is counted. -/
theorem counts_own_failures_failedRun :
    ∃ (f : ℕ) (o : Outcome),
      (f, o) ∈ trace step ownEnds (World.new none none zeroTime : World Unit) failedRun ∧
        o.err.isSome = true := by
  have hend : ((run step (World.new none none zeroTime) failedRun).any fun w =>
      (step (.act 0 (.record none)) w).any fun w' =>
        decide (w.manager.failureCount (ascii "a") < w'.manager.failureCount (ascii "a")) &&
          decide (w'.manager.failureCount (ascii "a") ≠ 0) &&
          (w.calls[0]?).any fun c => c.outcome.any fun o => o.err.isSome) = true := by
    decide +kernel
  simp only [Option.any_eq_true, Bool.and_eq_true, decide_eq_true_eq] at hend
  obtain ⟨w, hw, w', hw', ⟨hlt, hne⟩, c, hc, o, ho, herr⟩ := hend
  rcases counts_own_failures hw (by decide +kernel) hw' (.inl ⟨hlt, hne⟩) with
    ⟨i, hi⟩ | ⟨i, a, c', f, o', he, hc', -, -, ho', -, hmem⟩
  · cases hi
  · cases he
    cases hc.symm.trans hc'
    cases ho.symm.trans ho'
    exact ⟨f, o, hmem, herr⟩

/-- The loop of the card runs it; a request that waits for the run is closed. -/
def closedRequest : List (Event Unit) :=
  startRun runningCard [.refreshNow (ascii "a"), .act 1 .check, .act 1 .join, .cancel 1 false,
    .act 1 .giveUp]

/-- **A closed request counts as a failure** while the run goes on, and no run has ended. -/
theorem closed_request_counts :
    ∃ w w' : World Unit, run step (World.new none none zeroTime) closedRequest = some w ∧
      step (.act 1 (.record none)) w = some w' ∧ Counts w.manager w'.manager (ascii "a") ∧
      trace step ownEnds (World.new none none zeroTime : World Unit) closedRequest = [] := by
  have hend : ((run step (World.new none none zeroTime) closedRequest).any fun w =>
      (step (.act 1 (.record none)) w).any fun w' =>
        decide (w.manager.failureCount (ascii "a") < w'.manager.failureCount (ascii "a")) &&
          decide (w'.manager.failureCount (ascii "a") ≠ 0)) = true := by
    decide +kernel
  have htrace : (trace step ownEnds (World.new none none zeroTime : World Unit)
      closedRequest).isEmpty = true := by decide +kernel
  simp only [Option.any_eq_true, Bool.and_eq_true, decide_eq_true_eq] at hend
  obtain ⟨w, hw, w', hw', hlt, hne⟩ := hend
  exact ⟨w, w', hw, hw', .inl ⟨hlt, hne⟩, List.isEmpty_iff.mp htrace⟩

end Veduta.Scheduler
