import Veduta.Lib.Except
import Veduta.Scheduler.Fence

/-!
# Shared flights

Several callers may wait for one run.  Each of them then goes on by itself: each counts the
failure, and each commits and stores samples of its own.  So a run counts once for a card if only
one caller of that card is on its flight.  A potential carries the argument: a caller has counted
exactly if it is past recording a failed outcome.
-/

namespace Veduta.Scheduler

open Go Widgets State Storage Secrets Lib

variable {R : Type}

/-- The outcome counts as a failure. -/
def fails (secrets : Option Registry) (d : Definition R) (o : Outcome) : Bool :=
  match evaluate secrets d o with
  | .error _ => true
  | .ok _ => false

def samplesOf (secrets : Option Registry) (d : Definition R) (o : Outcome) : GoMap Bytes ℚ :=
  match evaluate secrets d o with
  | .error _ => ∅
  | .ok history => history

section

variable {secrets : Option Registry} {d : Definition R} {o : Outcome}
variable {history : GoMap Bytes ℚ}

theorem fails_of_error {e : RunErr} (h : evaluate secrets d o = .error e) :
    fails secrets d o = true := by
  rw [fails, h]

theorem fails_of_ok (h : evaluate secrets d o = .ok history) : fails secrets d o = false := by
  rw [fails, h]

theorem fails_of_err (h : o.err.isSome = true) : fails secrets d o = true := by
  obtain ⟨e, he⟩ := Option.isSome_iff_exists.mp h
  exact fails_of_error (e := e) (by rw [evaluate, he])

theorem samplesOf_of_error {e : RunErr} (h : evaluate secrets d o = .error e) :
    samplesOf secrets d o = ∅ := by
  rw [samplesOf, h]

theorem samplesOf_of_ok (h : evaluate secrets d o = .ok history) :
    samplesOf secrets d o = history := by
  rw [samplesOf, h]

end

/-- The call is of the card, and on the flight. -/
def Call.callerOf (c : Call R) (f : ℕ) (card : Bytes) : Prop := c.flight = some f ∧ c.d.id = card

instance (c : Call R) (f : ℕ) (card : Bytes) : Decidable (c.callerOf f card) :=
  inferInstanceAs (Decidable (_ ∧ _))

/-- What a step of a caller adds to a quantity of the manager. -/
def gain (q : Manager R → ℤ) (f : ℕ) (card : Bytes) (w : World R) (e : Event R) (w' : World R) :
    ℤ :=
  match e with
  | .act i _ =>
    if (w.calls[i]?).any fun c => c.callerOf f card then q w'.manager - q w.manager else 0
  | _ => 0

/-- What the callers add to the failure counter of their card. -/
def increase (f : ℕ) (card : Bytes) : World R → Event R → World R → ℤ :=
  gain (fun m => m.failureCount card) f card

def Manager.rows (m : Manager R) (card signal : Bytes) : ℤ :=
  m.store.elim 0 fun s => s.rows card signal

/-- What the callers add to the stored samples of a signal of their card. -/
def samples (f : ℕ) (card signal : Bytes) : World R → Event R → World R → ℤ :=
  gain (fun m => m.rows card signal) f card

/-- **Nothing keeps a call from storing its samples**: the history can be read, its context is not
done, its definition is current, the state passes its check, and there is a store that takes the
write and has no sample of that instant. -/
def Call.unhindered (m : Manager R) (c : Call R) : Action → Bool
  | .record bound => bound.isSome
  | .commit stored =>
    match c.pc with
    | .commit cs history =>
      stored && c.ctx.isNone && !m.superseded c.d && cs.validate.toOption.isSome &&
        m.store.any fun s => history.keys.all fun signal =>
          (s.signalHistory.lookup (c.d.id, signal, cs.execution.generatedAt)).isNone
    | _ => true
  | _ => true

/-- Nothing keeps the callers of the card on the flight from storing their samples. -/
def unhindered (f : ℕ) (card : Bytes) (w : World R) : Event R → Bool
  | .act i a => (w.calls[i]?).all fun c => !decide (c.callerOf f card) || c.unhindered w.manager a
  | _ => true

/-! ## The calls of a reachable world -/

/-- What a call knows, by where it stands. -/
def Call.Consistent (secrets : Option Registry) (c : Call R) : Prop :=
  match c.pc with
  | .enter | .join => c.flight = none ∧ c.outcome = none ∧ c.result = none
  | .wait | .acquire | .running _ | .panicked => c.outcome = none ∧ c.result = none
  | .record => c.outcome.isSome = true ∧ c.result = none
  | .openCircuit _ _ _ =>
    (∃ o, c.outcome = some o ∧ fails secrets c.d o = true) ∧ c.result = none
  | .commit cs history => c.result = none ∧ (c.flight.isSome = true →
    ∃ o, c.outcome = some o ∧ history = samplesOf secrets c.d o ∧
      (history = ∅ ∨ cs.cardID = c.d.id))
  | .returned | .sleeping _ | .woken =>
    c.result.isSome = true ∧ (c.flight.isSome = true → c.outcome.isSome = true)

/-- The call runs the flight. -/
def Call.Leads (c : Call R) (f : ℕ) : Prop :=
  c.flight = some f ∧ (c.pc = .acquire ∨ ∃ t, c.pc = .running t)

/-- What holds of a call: its flight exists, and has no outcome as long as the call leads it; its
outcome is that of the flight, unless its context was done. -/
structure CallSound (m : Manager R) (c : Call R) : Prop where
  consistent : c.Consistent m.secrets
  flight_lt : ∀ f, c.flight = some f → f < m.heap.length
  leads : ∀ f, c.Leads f → m.heap[f]? = some ⟨none⟩
  landed : ∀ f o, c.flight = some f → c.outcome = some o →
    m.heap[f]? = some ⟨some o⟩ ∨ o.err.isSome = true

structure Sound (w : World R) : Prop where
  key_lt : ∀ key f, w.manager.flights.lookup key = some f → f < w.manager.heap.length
  calls : ∀ (i : ℕ) c, w.calls[i]? = some c → CallSound w.manager c
  leader : ∀ (i j : ℕ) c c' f, w.calls[i]? = some c → w.calls[j]? = some c' → c.Leads f →
    c'.Leads f → i = j

section

variable {now : ℤ} {m m' : Manager R} {c c' : Call R} {a : Action}
variable {o : Outcome}

section

variable (h : Acted now m c a m' c')

include h

theorem Acted.d : c'.d = c.d := by
  cases h with
  | check hpc =>
    rw [Scheduler.check]
    split_ifs <;> rfl
  | _ => rfl

theorem Acted.secrets : m'.secrets = m.secrets := by
  cases h with
  | commit hpc => exact (commit_frame m c _ _ _).secrets
  | _ => rfl

/-- What an action does to the flights: nothing, or it starts one, or it ends one that it leads. -/
theorem Acted.heap :
    m'.heap = m.heap ∧ m'.flights = m.flights ∧ (c'.flight = c.flight ∨
        a = .join ∧ ∃ f, m.flights.lookup c.d.flightKey = some f ∧ c'.flight = some f) ∧
        (∀ f, c'.Leads f → c.Leads f) ∨
      m'.heap = m.heap ++ [⟨none⟩] ∧ m'.flights = m.flights.insert c.d.flightKey m.heap.length ∧
        c'.flight = some m.heap.length ∧ c'.pc = .acquire ∨
      ∃ f o, c.Leads f ∧ m'.heap = m.heap.set f ⟨some o⟩ ∧
        m'.flights = m.flights.erase c.d.flightKey ∧ c'.flight = some f ∧
        (c'.pc = .record ∧ c'.outcome = some o ∨ c'.pc = .panicked) := by
  cases h with
  | check hpc =>
    refine .inl ⟨rfl, rfl, .inl ?_, ?_⟩
    · rw [Scheduler.check]
      split_ifs <;> rfl
    · intro f hleads
      rw [Scheduler.check] at hleads
      rcases hleads with ⟨_, hpc' | ⟨t, hpc'⟩⟩ <;> split_ifs at hpc' <;> cases hpc'
  | board hpc hkey =>
    refine .inl ⟨rfl, rfl, .inr ⟨rfl, _, hkey, rfl⟩, ?_⟩
    rintro f ⟨_, hpc' | ⟨t, hpc'⟩⟩ <;> cases hpc'
  | launch hpc hkey => exact .inr (.inl ⟨rfl, rfl, rfl, rfl⟩)
  | giveUpAcquiring hpc hflight hctx =>
    exact .inr (.inr ⟨_, _, ⟨hflight, .inl hpc⟩, rfl, rfl, hflight, .inl ⟨rfl, rfl⟩⟩)
  | acquire hpc hfree =>
    refine .inl ⟨rfl, rfl, .inl rfl, ?_⟩
    rintro f ⟨hflight, _⟩
    exact ⟨hflight, .inl hpc⟩
  | finish hpc hflight =>
    exact .inr (.inr ⟨_, _, ⟨hflight, .inr ⟨_, hpc⟩⟩, rfl, rfl, hflight, .inl ⟨rfl, rfl⟩⟩)
  | panic hpc hflight hcall =>
    exact .inr (.inr ⟨_, _, ⟨hflight, .inr ⟨_, hpc⟩⟩, rfl, rfl, hflight, .inr rfl⟩)
  | fail hpc hout heval =>
    refine .inl ⟨rfl, rfl, .inl rfl, ?_⟩
    rintro f ⟨_, hpc' | ⟨t, hpc'⟩⟩ <;> simp only [failedPc] at hpc' <;> split_ifs at hpc'
  | commit hpc =>
    have hframe := commit_frame m c
    refine .inl ⟨(hframe _ _ _).heap, (hframe _ _ _).flights, .inl rfl, ?_⟩
    rintro f ⟨_, hpc' | ⟨t, hpc'⟩⟩ <;> cases hpc'
  | _ =>
    refine .inl ⟨rfl, rfl, .inl rfl, ?_⟩
    rintro f ⟨_, hpc' | ⟨t, hpc'⟩⟩ <;> cases hpc'

theorem Acted.consistent (hc : c.Consistent m.secrets) : c'.Consistent m.secrets := by
  cases h with
  | check hpc =>
    simp only [Call.Consistent, hpc] at hc
    obtain ⟨hflight, hout, hresult⟩ := hc
    rw [Scheduler.check]
    split_ifs <;> simp [Call.Consistent, Call.answer, hflight, hout, hresult]
  | board hpc | launch hpc =>
    simp only [Call.Consistent, hpc] at hc
    exact hc.2
  | await hpc | giveUpWaiting hpc | giveUpAcquiring hpc | finish hpc =>
    simp only [Call.Consistent, hpc] at hc
    exact ⟨rfl, hc.2⟩
  | acquire hpc | panic hpc | sleep hpc =>
    simp only [Call.Consistent, hpc] at hc
    exact hc
  | unread hpc hout heval => exact ⟨rfl, fun _ => by simp [Call.answer, hout]⟩
  | succeed hpc hout heval =>
    simp only [Call.Consistent, hpc] at hc
    exact ⟨hc.2, fun _ => ⟨_, hout, (samplesOf_of_ok heval).symm, .inr rfl⟩⟩
  | fail hpc hout heval =>
    simp only [Call.Consistent, hpc] at hc
    simp only [Call.Consistent, failedPc]
    split_ifs
    · exact ⟨⟨_, hout, fails_of_error heval⟩, hc.2⟩
    · exact ⟨hc.2, fun _ => ⟨_, hout, (samplesOf_of_error heval).symm, .inl rfl⟩⟩
  | openCircuit hpc =>
    simp only [Call.Consistent, hpc] at hc
    obtain ⟨⟨o, hout, hfails⟩, hresult⟩ := hc
    refine ⟨hresult, fun _ => ⟨o, hout, ?_, .inl rfl⟩⟩
    cases heval : evaluate m.secrets c.d o with
    | error e => exact (samplesOf_of_error heval).symm
    | ok history =>
      rw [fails_of_ok heval] at hfails
      cases hfails
  | commit hpc =>
    simp only [Call.Consistent, hpc] at hc
    refine ⟨rfl, fun hflight => ?_⟩
    obtain ⟨o, hout, _⟩ := hc.2 hflight
    simp [Call.answer, hout]

theorem Acted.outcome (hc : c.Consistent m.secrets) (ho : c.outcome = some o) :
    c'.outcome = some o := by
  cases h with
  | check hpc =>
    simp only [Call.Consistent, hpc] at hc
    rw [hc.2.1] at ho
    cases ho
  | await hpc | giveUpWaiting hpc | giveUpAcquiring hpc | finish hpc =>
    simp only [Call.Consistent, hpc] at hc
    rw [hc.1] at ho
    cases ho
  | _ => exact ho

theorem Acted.flight (hc : c.Consistent m.secrets) {f : ℕ} (hf : c.flight = some f) :
    c'.flight = some f := by
  cases h with
  | check hpc | board hpc | launch hpc =>
    simp only [Call.Consistent, hpc] at hc
    rw [hc.1] at hf
    cases hf
  | _ => exact hf

omit h in
theorem flight_check : (Scheduler.check now m c).flight = c.flight := by
  rw [Scheduler.check]
  split_ifs <;> rfl

theorem Acted.landed (hc : CallSound m c) {f : ℕ} (hf : c'.flight = some f)
    (ho : c'.outcome = some o) :
    m'.heap[f]? = some ⟨some o⟩ ∨ o.err.isSome = true := by
  have hcons := hc.consistent
  cases h with
  | check hpc =>
    simp only [Call.Consistent, hpc] at hcons
    rw [flight_check, hcons.1] at hf
    cases hf
  | board hpc | launch hpc =>
    simp only [Call.Consistent, hpc] at hcons
    cases hcons.2.1.symm.trans ho
  | await hpc hflight hdone =>
    cases ho
    cases hflight.symm.trans hf
    exact .inl hdone
  | giveUpWaiting | giveUpAcquiring =>
    cases ho
    exact .inr rfl
  | finish hpc hflight =>
    cases ho
    cases hflight.symm.trans hf
    exact .inl (List.getElem?_set_self (hc.flight_lt f hf))
  | panic hpc hflight hcall =>
    simp only [Call.Consistent, hpc] at hcons
    cases hcons.1.symm.trans ho
  | commit hpc =>
    rw [(commit_frame m c _ _ _).heap]
    exact hc.landed f o hf ho
  | _ => exact hc.landed f o hf ho

end

/-- A call whose context is done has an outcome that counts as a failure; so what holds of a call
survives what happens to other flights, and to its own as long as it does not lead it. -/
theorem CallSound.frame {x : Call R} (hx : CallSound m x) (hsecrets : m'.secrets = m.secrets)
    (hlen : m.heap.length ≤ m'.heap.length)
    (hget : ∀ f < m.heap.length,
      m'.heap[f]? = m.heap[f]? ∨ m.heap[f]? = some ⟨none⟩ ∧ ¬ x.Leads f) : CallSound m' x where
  consistent := hsecrets ▸ hx.consistent
  flight_lt f hf := (hx.flight_lt f hf).trans_le hlen
  leads := by
    intro f hleads
    rcases hget f (hx.flight_lt f hleads.1) with heq | ⟨_, hnot⟩
    · rw [heq, hx.leads f hleads]
    · exact absurd hleads hnot
  landed := by
    intro f o hf ho
    rcases hget f (hx.flight_lt f hf) with heq | ⟨hnone, _⟩
    · rw [heq]
      exact hx.landed f o hf ho
    · right
      refine (hx.landed f o hf ho).resolve_left fun hsome => ?_
      cases hnone.symm.trans hsome

theorem Acted.sound (h : Acted now m c a m' c') (hc : CallSound m c)
    (hkey : ∀ key f, m.flights.lookup key = some f → f < m.heap.length) : CallSound m' c' where
  consistent := h.secrets ▸ h.consistent hc.consistent
  flight_lt := by
    intro f hf
    rcases h.heap with ⟨hheap, _, hflight, _⟩ | ⟨hheap, _, hflight, _⟩ | ⟨f', o, hleads, hheap, _,
      hflight, _⟩
    · rw [hheap]
      rcases hflight with hflight | ⟨_, f', hlookup, hflight⟩
      · exact hc.flight_lt f (hflight ▸ hf)
      · cases hflight.symm.trans hf
        exact hkey _ _ hlookup
    · cases hflight.symm.trans hf
      simp [hheap]
    · cases hflight.symm.trans hf
      rw [hheap, List.length_set]
      exact hc.flight_lt _ hleads.1
  leads := by
    intro f hleads'
    rcases h.heap with ⟨hheap, _, _, hleads⟩ | ⟨hheap, _, hflight, _⟩ | ⟨f', o, _, _, _, _, hpc⟩
    · rw [hheap]
      exact hc.leads f (hleads f hleads')
    · cases hflight.symm.trans hleads'.1
      simp [hheap]
    · exfalso
      rcases hpc with ⟨hpc, _⟩ | hpc <;> rcases hleads'.2 with hpc' | ⟨t, hpc'⟩ <;>
        cases hpc.symm.trans hpc'
  landed _ _ := h.landed hc

end

/-! ## Every reachable world -/

theorem Rests.leads {c c' : Call R} (h : Rests c c') {f : ℕ} (hleads : c'.Leads f) : c.Leads f := by
  refine ⟨h.flight ▸ hleads.1, ?_⟩
  rcases h.pc with hpc | ⟨_, hpc⟩
  · rw [← hpc]
    exact hleads.2
  · rcases hleads.2 with hpc' | ⟨t, hpc'⟩ <;> cases hpc.symm.trans hpc'

theorem Rests.consistent {secrets : Option Registry} {c c' : Call R} (h : Rests c c')
    (hc : c.Consistent secrets) : c'.Consistent secrets := by
  rcases h.pc with hpc | ⟨⟨t, hsleep⟩, hwoken⟩
  · rw [Call.Consistent] at hc ⊢
    rw [hpc, h.flight, h.outcome, h.result, h.d]
    exact hc
  · rw [Call.Consistent, hsleep] at hc
    rw [Call.Consistent, hwoken, h.flight, h.outcome, h.result]
    exact hc

theorem callSound_start (m : Manager R) (d : Definition R) (scheduled : Bool)
    (ctx : Option RunErr) : CallSound m (.start d scheduled ctx) where
  consistent := ⟨rfl, rfl, rfl⟩
  flight_lt := nofun
  leads _ h := nomatch h.1
  landed := nofun

theorem sound_new (store : Option Store) (secrets : Option Registry) (now : ℤ) :
    Sound (World.new store secrets now : World R) where
  key_lt := by
    intro key f h
    cases h
  calls _ _ h := by simp [World.new] at h
  leader _ _ _ _ _ h := by simp [World.new] at h

theorem sound_rest {w w' : World R} (h : Sound w) (hrest : Rest w w') : Sound w' where
  key_lt := by
    rw [hrest.flights, hrest.heap]
    exact h.key_lt
  calls := by
    intro i c' hc'
    rcases hrest.calls.new hc' with ⟨c, hc, hrests⟩ | ⟨_, d, scheduled, ctx, rfl⟩
    · have hsound := h.calls i c hc
      refine ⟨hrest.secrets ▸ hrests.consistent hsound.consistent, ?_, ?_, ?_⟩
      · rw [hrests.flight, hrest.heap]
        exact hsound.flight_lt
      · intro f hleads
        rw [hrest.heap]
        exact hsound.leads f (hrests.leads hleads)
      · rw [hrests.flight, hrests.outcome, hrest.heap]
        exact hsound.landed
    · exact callSound_start w'.manager d scheduled ctx
  leader := by
    intro i j c c' f hc hc' hleads hleads'
    rcases hrest.calls.new hc with ⟨x, hx, hrests⟩ | ⟨_, d, scheduled, ctx, rfl⟩
    · rcases hrest.calls.new hc' with ⟨x', hx', hrests'⟩ | ⟨_, d, scheduled, ctx, rfl⟩
      · exact h.leader i j x x' f hx hx' (hrests.leads hleads) (hrests'.leads hleads')
      · cases hleads'.1
    · cases hleads.1

theorem sound_act {w : World R} (h : Sound w) {i : ℕ} {a : Action} {c c' : Call R}
    {m' : Manager R} (hc : w.calls[i]? = some c) (hacted : Acted w.now w.manager c a m' c') :
    Sound { w with manager := m', calls := w.calls.set i c' } where
  key_lt := by
    intro key f hlookup
    rcases hacted.heap with ⟨hheap, hflights, _⟩ | ⟨hheap, hflights, _⟩ | ⟨f', o, _, hheap,
      hflights, _⟩
    · rw [hheap]
      exact h.key_lt key f (hflights ▸ hlookup)
    · change m'.flights.lookup key = some f at hlookup
      change f < m'.heap.length
      rw [hheap, List.length_append, List.length_singleton]
      rw [hflights] at hlookup
      rcases GoMap.lookup_of_insert hlookup with ⟨-, rfl⟩ | hold
      · omega
      · have hlt := h.key_lt key f hold
        omega
    · change m'.flights.lookup key = some f at hlookup
      change f < m'.heap.length
      rw [hheap, List.length_set]
      rw [hflights] at hlookup
      exact h.key_lt key f (GoMap.lookup_of_erase hlookup).2
  calls := by
    intro j x hx
    rcases getElem?_set_cases hx with ⟨rfl, rfl⟩ | ⟨hij, hx⟩
    · exact hacted.sound (h.calls i c hc) h.key_lt
    · refine (h.calls j x hx).frame hacted.secrets ?_ ?_
      · rcases hacted.heap with ⟨hheap, _⟩ | ⟨hheap, _⟩ | ⟨f', o, _, hheap, _⟩ <;> simp [hheap]
      · intro f hlt
        rcases hacted.heap with ⟨hheap, _⟩ | ⟨hheap, _⟩ | ⟨f', o, hleads, hheap, _⟩
        · exact .inl (by simp [hheap])
        · exact .inl (by simp [hheap, List.getElem?_append_left hlt])
        · by_cases hf : f' = f
          · subst hf
            exact .inr ⟨(h.calls i c hc).leads f' hleads,
              fun hleads' => hij (h.leader i j c x f' hc hx hleads hleads')⟩
          · exact .inl (by simp [hheap, List.getElem?_set_ne hf])
  leader := by
    -- whoever leads after the action led before it, but for one that starts a flight
    have hled : ∀ f j x, c'.Leads f → j ≠ i → w.calls[j]? = some x → ¬ x.Leads f := by
      intro f j x hleads' hj hx hleads
      rcases hacted.heap with ⟨_, _, _, hold⟩ | ⟨_, _, hflight, _⟩ | ⟨f', o, _, _, _, _, hpc⟩
      · exact hj (h.leader j i x c f hx hc hleads (hold f hleads'))
      · cases hflight.symm.trans hleads'.1
        exact absurd ((h.calls j x hx).flight_lt _ hleads.1) (lt_irrefl _)
      · rcases hpc with ⟨hpc, _⟩ | hpc <;> rcases hleads'.2 with hpc' | ⟨t, hpc'⟩ <;>
          cases hpc.symm.trans hpc'
    intro j k x y f hx hy hleads hleads'
    rcases getElem?_set_cases hx with ⟨hij, rfl⟩ | ⟨hij, hx'⟩
    · rcases getElem?_set_cases hy with ⟨hik, _⟩ | ⟨hik, hy'⟩
      · exact hij.symm.trans hik
      · exact absurd hleads' (hled f k y hleads (Ne.symm hik) hy')
    · rcases getElem?_set_cases hy with ⟨_, rfl⟩ | ⟨_, hy'⟩
      · exact absurd hleads (hled f j x hleads' (Ne.symm hij) hx')
      · exact h.leader j k x y f hx' hy' hleads hleads'

theorem sound_step {w w' : World R} {e : Event R} (h : Sound w) (hstep : step e w = some w') :
    Sound w' := by
  rcases act_or_rest hstep with ⟨i, a, c, m', c', rfl, hc, hacted, rfl⟩ | ⟨-, hrest⟩
  · exact sound_act h hc hacted
  · exact sound_rest h hrest

/-! ## Callers -/

/-- Nobody joins a flight that has a caller of its card. -/
def alone (w : World R) : Event R → Bool
  | .act i .join =>
    match w.calls[i]? with
    | none => true
    | some c =>
      match w.manager.flights.lookup c.d.flightKey with
      | none => true
      | some f => !w.calls.any fun x => decide (x.callerOf f c.d.id)
  | _ => true

theorem not_callerOf_of_alone {w : World R} {i j f : ℕ} {c x : Call R}
    (h : alone w (.act i .join) = true) (hc : w.calls[i]? = some c)
    (hkey : w.manager.flights.lookup c.d.flightKey = some f) (hx : w.calls[j]? = some x) :
    ¬ x.callerOf f c.d.id := by
  simp only [alone, hc, hkey, Bool.not_eq_true', List.any_eq_false, decide_eq_true_eq] at h
  exact h x (List.mem_of_getElem? hx)

/-- A flight has one caller of a card. -/
def Single (w : World R) : Prop :=
  ∀ (i j : ℕ) c x f, w.calls[i]? = some c → w.calls[j]? = some x → c.flight = some f →
    x.callerOf f c.d.id → i = j

theorem single_rest {w w' : World R} (h : Single w) (hrest : Rest w w') : Single w' := by
  intro i j c' x' f hc' hx' hf hcaller
  rcases hrest.calls.new hc' with ⟨c, hc, hrests⟩ | ⟨_, d, scheduled, ctx, rfl⟩
  · rcases hrest.calls.new hx' with ⟨x, hx, hrests'⟩ | ⟨_, d, scheduled, ctx, rfl⟩
    · refine h i j c x f hc hx (hrests.flight ▸ hf) ⟨hrests'.flight ▸ hcaller.1, ?_⟩
      rw [← hrests'.d, hcaller.2, hrests.d]
    · cases hcaller.1
  · cases hf

theorem not_callerOf_act {w : World R} (h : Sound w) (hsingle : Single w) {i j f : ℕ}
    {a : Action} {c c' x : Call R} {m' : Manager R} (halone : alone w (.act i a) = true)
    (hc : w.calls[i]? = some c) (hacted : Acted w.now w.manager c a m' c') (hij : i ≠ j)
    (hx : w.calls[j]? = some x) (hf : c'.flight = some f) : ¬ x.callerOf f c.d.id := by
  intro hcaller
  have hsame : c.flight = some f → False := fun hflight =>
    hij (hsingle i j c x f hc hx hflight hcaller)
  rcases hacted.heap with ⟨_, _, hflight | ⟨rfl, f', hlookup, hflight⟩, _⟩ |
    ⟨_, _, hflight, _⟩ | ⟨f', o, hleads, _, _, hflight, _⟩
  · exact hsame (hflight ▸ hf)
  · cases hflight.symm.trans hf
    exact not_callerOf_of_alone halone hc hlookup hx hcaller
  · cases hflight.symm.trans hf
    exact absurd ((h.calls j x hx).flight_lt _ hcaller.1) (lt_irrefl _)
  · cases hflight.symm.trans hf
    exact hsame hleads.1

theorem single_step {w w' : World R} {e : Event R} (h : Sound w ∧ Single w)
    (hstep : step e w = some w') (halone : alone w e = true) : Sound w' ∧ Single w' := by
  refine ⟨sound_step h.1 hstep, ?_⟩
  rcases act_or_rest hstep with ⟨i, a, c, m', c', rfl, hc, hacted, rfl⟩ | ⟨-, hrest⟩
  · intro j k x y f hx hy hf hcaller
    rcases getElem?_set_cases hx with ⟨hij, rfl⟩ | ⟨hij, hx'⟩
    · rcases getElem?_set_cases hy with ⟨hik, _⟩ | ⟨hik, hy'⟩
      · exact hij.symm.trans hik
      · rw [hacted.d] at hcaller
        exact absurd hcaller (not_callerOf_act h.1 h.2 halone hc hacted hik hy' hf)
    · rcases getElem?_set_cases hy with ⟨_, rfl⟩ | ⟨_, hy'⟩
      · refine absurd ⟨hf, ?_⟩ (not_callerOf_act h.1 h.2 halone hc hacted hij hx' hcaller.1)
        rw [← hacted.d, hcaller.2]
      · exact h.2 j k x y f hx' hy' hf hcaller
  · exact single_rest h.2 hrest

theorem single_new (store : Option Store) (secrets : Option Registry) (now : ℤ) :
    Single (World.new store secrets now : World R) := by
  intro i j c x f h
  simp [World.new] at h

/-- What a step keeps of a call. -/
structure Persists (c c' : Call R) : Prop where
  d : c'.d = c.d
  flight : ∀ f, c.flight = some f → c'.flight = some f
  outcome : ∀ o, c.outcome = some o → c'.outcome = some o

theorem persists_step {w w' : World R} {e : Event R} (h : Sound w) (hstep : step e w = some w')
    {j : ℕ} {x : Call R} (hx : w.calls[j]? = some x) :
    ∃ x', w'.calls[j]? = some x' ∧ Persists x x' := by
  rcases act_or_rest hstep with ⟨i, a, c, m', c', rfl, hc, hacted, rfl⟩ | ⟨-, hrest⟩
  · by_cases hij : i = j
    · subst hij
      cases hc.symm.trans hx
      have hcons := (h.calls i x hx).consistent
      exact ⟨c', List.getElem?_set_self (List.getElem?_eq_some_iff.mp hc).1, hacted.d,
        fun _ => hacted.flight hcons, fun _ => hacted.outcome hcons⟩
    · exact ⟨x, (List.getElem?_set_ne hij).trans hx, rfl, fun _ hf => hf, fun _ ho => ho⟩
  · obtain ⟨x', hx', hrests⟩ := hrest.calls.old hx
    exact ⟨x', hx', hrests.d, fun f hf => hrests.flight ▸ hf, fun o ho => hrests.outcome ▸ ho⟩

/-- The call is the only caller of the card on the flight. -/
def Sole (i f : ℕ) (card : Bytes) (w : World R) : Prop :=
  ∀ (j : ℕ) x, w.calls[j]? = some x → x.callerOf f card → j = i

theorem Sole.back {i f : ℕ} {card : Bytes} {w w' : World R} {e : Event R} (h : Sound w)
    (hstep : step e w = some w') (hsole : Sole i f card w') : Sole i f card w := by
  intro j x hx hcaller
  obtain ⟨x', hx', hpersists⟩ := persists_step h hstep hx
  exact hsole j x' hx' ⟨hpersists.flight f hcaller.1, hpersists.d ▸ hcaller.2⟩

/-! ## The potentials -/

def Pc.recorded : Pc → Bool
  | .enter | .join | .wait | .acquire | .running _ | .panicked | .record => false
  | .openCircuit _ _ _ | .commit _ _ | .returned | .sleeping _ | .woken => true

/-- What a caller has added to the counter of its card, if its run failed. -/
def Call.counted (f : ℕ) (card : Bytes) (c : Call R) : ℤ :=
  if c.callerOf f card ∧ c.pc.recorded = true then 1 else 0

/-- The call has an outcome that is no error: it did not give up waiting. -/
def Call.waited (c : Call R) : Bool := c.outcome.any fun o => o.err.isNone

/-- The number of samples of a signal that a caller has stored. -/
def Call.kept (secrets : Option Registry) (f : ℕ) (card signal : Bytes) (c : Call R) : ℤ :=
  if c.callerOf f card ∧ c.result.isSome = true ∧
    (c.outcome.any fun o => ((samplesOf secrets c.d o).lookup signal).isSome) = true
  then 1 else 0

section

variable {now : ℤ} {m m' : Manager R} {c c' : Call R} {a : Action} {f : ℕ} {card : Bytes}
variable {signal : Bytes}

theorem Call.Consistent.recorded {secrets : Option Registry} (hc : c.Consistent secrets)
    (h : c.result.isSome = true) : c.pc.recorded = true := by
  cases hpc : c.pc with
  | openCircuit | commit | returned | sleeping | woken => rfl
  | _ =>
    simp only [Call.Consistent, hpc] at hc
    simp [hc] at h

theorem not_callerOf_of_none (h : c.flight = none) : ¬ c.callerOf f card := by
  intro hcaller
  cases h.symm.trans hcaller.1

theorem counted_of_not_callerOf (h : ¬ c.callerOf f card) : c.counted f card = 0 :=
  if_neg fun hc => h hc.1

theorem counted_of_not_recorded (h : c.pc.recorded = false) : c.counted f card = 0 :=
  if_neg fun hc => Bool.false_ne_true (h.symm.trans hc.2)

theorem counted_congr (hflight : c'.flight = c.flight) (hd : c'.d = c.d)
    (hpc : c'.pc.recorded = c.pc.recorded) : c'.counted f card = c.counted f card := by
  have hcaller : c'.callerOf f card ↔ c.callerOf f card := by
    rw [Call.callerOf, Call.callerOf, hflight, hd]
  simp only [Call.counted, hcaller, hpc]

theorem counted_add (hcount : m'.failureCount card = m.failureCount card)
    (hflight : c'.flight = c.flight) (hd : c'.d = c.d) (hpc : c'.pc.recorded = c.pc.recorded) :
    c'.counted f card = c.counted f card +
      if c.callerOf f card then m'.failureCount card - m.failureCount card else 0 := by
  rw [hcount, sub_self, ite_self, add_zero]
  exact counted_congr hflight hd hpc

/-- A step of a caller of a failed run adds to the counter what it adds to the potential. -/
theorem Acted.counted (h : Acted now m c a m' c') (hc : c.Consistent m.secrets)
    (hfails : ∀ o, c'.callerOf f card → c'.outcome = some o → fails m.secrets c'.d o = true) :
    c'.counted f card = c.counted f card +
      if c.callerOf f card then m'.failureCount card - m.failureCount card else 0 := by
  cases h with
  | check hpc =>
    simp only [Call.Consistent, hpc] at hc
    rw [counted_of_not_callerOf (not_callerOf_of_none (flight_check.trans hc.1)),
      counted_of_not_callerOf (not_callerOf_of_none hc.1), if_neg (not_callerOf_of_none hc.1)]
    rfl
  | board hpc | launch hpc =>
    simp only [Call.Consistent, hpc] at hc
    rw [counted_of_not_recorded rfl, counted_of_not_callerOf (not_callerOf_of_none hc.1),
      if_neg (not_callerOf_of_none hc.1)]
    rfl
  | unread hpc hout heval | succeed hpc hout heval =>
    have hcaller : ¬ c.callerOf f card := by
      intro hcaller
      have hfail : fails m.secrets c.d _ = true := hfails _ hcaller hout
      rw [fails_of_ok heval] at hfail
      cases hfail
    rw [counted_of_not_callerOf hcaller, if_neg hcaller]
    exact counted_of_not_callerOf hcaller
  | fail hpc hout heval =>
    rw [counted_of_not_recorded (c := c) (by rw [hpc]; rfl)]
    by_cases hcaller : c.callerOf f card
    · rename_i e _
      have hpc' : (failedPc now m c.d e).recorded = true := by
        rw [failedPc]
        split_ifs <;> rfl
      rw [if_pos hcaller, Call.counted, if_pos ⟨hcaller, hpc'⟩, failureCount_fail,
        if_pos hcaller.2.symm, hcaller.2]
      omega
    · rw [if_neg hcaller]
      exact counted_of_not_callerOf hcaller
  | commit hpc =>
    exact counted_add (failureCount_commit m c _ _ _ card) rfl rfl (by rw [hpc]; rfl)
  | _ => exact counted_add rfl rfl rfl (by rw [‹c.pc = _›]; rfl)

theorem kept_of_not_callerOf {secrets : Option Registry} (h : ¬ c.callerOf f card) :
    c.kept secrets f card signal = 0 :=
  if_neg fun hc => h hc.1

theorem kept_of_result {secrets : Option Registry} (h : c.result = none) :
    c.kept secrets f card signal = 0 :=
  if_neg fun hc => by simp [h] at hc

theorem kept_congr {secrets : Option Registry} (hd : c'.d = c.d) (hflight : c'.flight = c.flight)
    (hout : c'.outcome = c.outcome) (hresult : c'.result = c.result) :
    c'.kept secrets f card signal = c.kept secrets f card signal := by
  have hcaller : c'.callerOf f card ↔ c.callerOf f card := by
    rw [Call.callerOf, Call.callerOf, hflight, hd]
  simp only [Call.kept, hcaller, hresult, hd, hout]

/-- A commit that nothing keeps from it stores the samples of the outcome. -/
theorem rows_commit_add {cs : CardState} {history : GoMap Bytes ℚ} {stored : Bool}
    (hpc : c.pc = .commit cs history) (hfree : c.unhindered m (.commit stored) = true)
    (hcard : history = ∅ ∨ cs.cardID = c.d.id) (signal : Bytes) :
    (commit m c cs history stored).1.rows c.d.id signal =
      m.rows c.d.id signal + if (history.lookup signal).isSome then 1 else 0 := by
  simp only [Call.unhindered, hpc, Bool.and_eq_true, Option.any_eq_true, List.all_eq_true,
    Option.isNone_iff_eq_none, Bool.not_eq_true'] at hfree
  obtain ⟨⟨⟨⟨rfl, hctx⟩, hcur⟩, hvalid⟩, s, hstore, hfresh⟩ := hfree
  cases hcheck : cs.validate with
  | error e =>
    rw [hcheck] at hvalid
    cases hvalid
  | ok _ =>
    have hcommit : (commit m c cs history true).1.rows c.d.id signal =
        (Store.rows ⟨s.cards, putSamples s.signalHistory cs.cardID cs.execution.generatedAt
          history⟩ c.d.id signal : ℕ) := by
      simp [commit, hcheck, hcur, hstore, hctx, Store.putCardWithSignals, Manager.rows,
        Manager.publish, Store.rows, bind, Except.bind, pure, Except.pure]
    rw [hcommit, rows_putSamples, Manager.rows, hstore, Option.elim_some, Nat.cast_add,
      Nat.cast_ite, Nat.cast_one, Nat.cast_zero]
    congr 1
    refine if_congr ?_ rfl rfl
    constructor
    · intro h
      exact h.2.1
    · intro hsome
      rcases hcard with rfl | hcard
      · cases hsome
      · rw [hcard]
        exact ⟨rfl, hsome, hfresh signal (AList.lookup_isSome.mp hsome)⟩

/-- A step of a caller stores what it adds to the potential. -/
theorem Acted.kept (h : Acted now m c a m' c') (hc : c.Consistent m.secrets)
    (hfree : c.callerOf f card → c.unhindered m a = true) :
    c'.kept m.secrets f card signal = c.kept m.secrets f card signal +
      if c.callerOf f card then m'.rows card signal - m.rows card signal else 0 := by
  cases h with
  | check hpc =>
    simp only [Call.Consistent, hpc] at hc
    rw [kept_of_not_callerOf (not_callerOf_of_none (flight_check.trans hc.1)),
      kept_of_not_callerOf (not_callerOf_of_none hc.1), if_neg (not_callerOf_of_none hc.1)]
    rfl
  | unread hpc hout heval =>
    have hcaller : ¬ c.callerOf f card := fun hcaller => Bool.false_ne_true (hfree hcaller)
    rw [kept_of_not_callerOf hcaller, if_neg hcaller]
    exact kept_of_not_callerOf hcaller
  | sleep hpc hcall hresult =>
    rw [sub_self, ite_self, add_zero]
    exact kept_congr rfl rfl rfl rfl
  | commit hpc =>
    simp only [Call.Consistent, hpc] at hc
    rw [kept_of_result (c := c) hc.1, zero_add]
    by_cases hcaller : c.callerOf f card
    · obtain ⟨o, hout, hhistory, hcard⟩ := hc.2 (by rw [hcaller.1]; rfl)
      have hrows := rows_commit_add hpc (hfree hcaller) hcard signal
      rw [hcaller.2] at hrows
      rw [if_pos hcaller, hrows, add_sub_cancel_left, Call.kept]
      refine if_congr ?_ rfl rfl
      simp only [Call.answer, hout, hhistory, Option.any_some, Option.isSome_some, true_and]
      exact and_iff_right hcaller
    · rw [if_neg hcaller]
      exact kept_of_not_callerOf hcaller
  | _ =>
    have hnone : c.result = none := by
      simp only [Call.Consistent, ‹c.pc = _›] at hc
      simp only [hc]
    rw [kept_of_result (c := c) hnone, zero_add]
    refine Eq.trans (b := 0) (kept_of_result hnone) ?_
    exact (ite_eq_right_iff.mpr fun _ => sub_self _).symm

end

/-! ## One run counts once -/

def atCall (i : ℕ) (g : Call R → ℤ) (w : World R) : ℤ := (w.calls[i]?).elim 0 g

section

variable {i f : ℕ} {card : Bytes} {w w' : World R} {e : Event R}

theorem atCall_rest {g g' : Call R → ℤ} (hrest : Rest w w')
    (hrests : ∀ c c', Rests c c' → g' c' = g c)
    (hstart : ∀ d scheduled ctx, g' (.start d scheduled ctx) = 0) :
    atCall i g' w' = atCall i g w := by
  rw [atCall, atCall]
  cases hc' : w'.calls[i]? with
  | none =>
    cases hc : w.calls[i]? with
    | none => rfl
    | some c =>
      obtain ⟨c', heq, _⟩ := hrest.calls.old hc
      cases hc'.symm.trans heq
  | some c' =>
    rcases hrest.calls.new hc' with ⟨c, hc, h⟩ | ⟨hge, d, scheduled, ctx, rfl⟩
    · rw [hc]
      exact hrests c c' h
    · rw [List.getElem?_eq_none hge]
      exact hstart d scheduled ctx

theorem secrets_step (hstep : step e w = some w') : w'.manager.secrets = w.manager.secrets := by
  rcases act_or_rest hstep with ⟨i, a, c, m', c', rfl, _, hacted, rfl⟩ | ⟨-, hrest⟩
  · exact hacted.secrets
  · exact hrest.secrets

def Fails (i f : ℕ) (card : Bytes) (w : World R) : Prop :=
  ∀ c o, w.calls[i]? = some c → c.callerOf f card → c.outcome = some o →
    fails w.manager.secrets c.d o = true

theorem Fails.back (h : Sound w) (hstep : step e w = some w') (hfails : Fails i f card w') :
    Fails i f card w := by
  intro c o hc hcaller ho
  obtain ⟨c', hc', hpersists⟩ := persists_step h hstep hc
  have hfail := hfails c' o hc' ⟨hpersists.flight f hcaller.1, hpersists.d ▸ hcaller.2⟩
    (hpersists.outcome o ho)
  rw [secrets_step hstep, hpersists.d] at hfail
  exact hfail

/-- **One step** of anybody adds to a quantity what it adds to the potential of the caller. -/
theorem gain_step {q : Manager R → ℤ} {φ : Call R → ℤ} (h : Sound w) (hsole : Sole i f card w')
    (hstep : step e w = some w')
    (hact : ∀ {a c m' c'}, e = .act i a → w.calls[i]? = some c →
      Acted w.now w.manager c a m' c' → w' = { w with manager := m', calls := w.calls.set i c' } →
      φ c' = φ c + if c.callerOf f card then q m' - q w.manager else 0)
    (hrests : ∀ c c', Rests c c' → φ c' = φ c)
    (hstart : ∀ d scheduled ctx, φ (.start d scheduled ctx) = 0) :
    atCall i φ w' = atCall i φ w + gain q f card w e w' := by
  rcases act_or_rest hstep with ⟨j, a, c, m', c', rfl, hc, hacted, hw'⟩ | ⟨hrest', hrest⟩
  · have hlt : j < w.calls.length := (List.getElem?_eq_some_iff.mp hc).1
    by_cases hij : j = i
    · subst hij
      have hφ := hact rfl hc hacted hw'
      subst hw'
      simpa [atCall, gain, hc, List.getElem?_set_self hlt] using hφ
    · have hcaller : ¬ c.callerOf f card := fun hcaller =>
        hij (hsole.back h hstep j c hc hcaller)
      subst hw'
      simp [atCall, gain, hc, List.getElem?_set_ne hij, hcaller]
  · have hzero : gain q f card w e w' = 0 := by
      cases e with
      | act j a => exact absurd rfl (hrest' j a)
      | _ => rfl
    rw [hzero, add_zero]
    exact atCall_rest hrest hrests hstart

end

section

variable {store : Option Store} {secrets : Option Registry} {now : ℤ} {es : List (Event R)}
  {w : World R}

theorem secrets_run (hrun : run step (World.new store secrets now) es = some w) :
    w.manager.secrets = secrets :=
  invariant_run (I := fun w => w.manager.secrets = secrets)
    (fun h hstep => (secrets_step hstep).trans h) rfl hrun

theorem total_increase {i f : ℕ} {c : Call R}
    (hrun : run step (World.new store secrets now) es = some w) (hsole : Sole i f c.d.id w)
    (hc : w.calls[i]? = some c) (hf : c.flight = some f) (hresult : c.result.isSome = true)
    (hfails : Fails i f c.d.id w) :
    total step (increase f c.d.id) (World.new store secrets now) es = 1 := by
  have hsound := invariant_run sound_step (sound_new store secrets now) hrun
  have hrecorded := (hsound.calls i c hc).consistent.recorded hresult
  have htotal := total_eq (g := increase f c.d.id)
    (K := fun w => Sole i f c.d.id w ∧ Fails i f c.d.id w)
    (φ := atCall i (Call.counted f c.d.id)) sound_step
    (fun h hstep hend => ⟨hend.1.back h hstep, hend.2.back h hstep⟩) ?_
    (sound_new store secrets now) (along_true _ es) hrun ⟨hsole, hfails⟩
  · rw [htotal, atCall, hc, Option.elim_some, Call.counted, if_pos ⟨⟨hf, rfl⟩, hrecorded⟩]
    rfl
  · intro w e w' h hend hstep _
    refine gain_step h hend.1 hstep ?_ ?_ ?_
    · rintro a x m' x' rfl hx hacted rfl
      refine hacted.counted (h.calls i x hx).consistent fun o hcaller ho => ?_
      have hlt : i < w.calls.length := (List.getElem?_eq_some_iff.mp hx).1
      rw [← hacted.secrets]
      exact hend.2 x' o (List.getElem?_set_self hlt) hcaller ho
    · intro c c' hrests
      refine counted_congr hrests.flight hrests.d ?_
      rcases hrests.pc with hpc | ⟨⟨t, hpc⟩, hpc'⟩
      · rw [hpc]
      · rw [hpc, hpc']
        rfl
    · intro d scheduled ctx
      exact counted_of_not_callerOf (not_callerOf_of_none rfl)

theorem total_samples {i f : ℕ} {c : Call R}
    (hrun : run step (World.new store secrets now) es = some w) (hsole : Sole i f c.d.id w)
    (hfree : Along step (fun w e _ => unhindered f c.d.id w e = true)
      (World.new store secrets now) es)
    (hc : w.calls[i]? = some c) (signal : Bytes) :
    total step (samples f c.d.id signal) (World.new store secrets now) es =
      c.kept secrets f c.d.id signal := by
  have htotal := total_eq (g := samples f c.d.id signal)
    (I := fun w => Sound w ∧ w.manager.secrets = secrets) (K := Sole i f c.d.id)
    (φ := atCall i (Call.kept secrets f c.d.id signal))
    (fun h hstep => ⟨sound_step h.1 hstep, (secrets_step hstep).trans h.2⟩)
    (fun h hstep hend => hend.back h.1 hstep) ?_ ⟨sound_new store secrets now, rfl⟩ hfree hrun hsole
  · rw [htotal, atCall, hc]
    exact sub_zero _
  · intro w e w' h hend hstep hfree
    refine gain_step h.1 hend hstep ?_ ?_ ?_
    · rintro a x m' x' rfl hx hacted -
      rw [← h.2]
      refine hacted.kept (h.1.calls i x hx).consistent fun hcaller => ?_
      simpa [unhindered, hx, hcaller] using hfree
    · intro c c' hrests
      exact kept_congr hrests.d hrests.flight hrests.outcome hrests.result
    · intro d scheduled ctx
      exact kept_of_not_callerOf (not_callerOf_of_none rfl)

end

/-- **One run counts once**, in every run of the scheduler in which nobody joins a flight that has
a caller of the card already.  Once the caller has returned, a failed run has added one to the
counter of the card.  A run that went well has stored one sample of each historical signal that the
document has, if its caller waited for it and nothing kept it from storing them. -/
theorem counts_once_of_alone {store : Option Store} {secrets : Option Registry} {now : ℤ}
    {es : List (Event R)} {w : World R} {i f : ℕ} {c : Call R} {o : Outcome}
    (hrun : run step (World.new store secrets now) es = some w)
    (halone : Along step (fun w e _ => alone w e = true) (World.new store secrets now) es)
    (hc : w.calls[i]? = some c) (hf : c.flight = some f) (hresult : c.result.isSome = true)
    (hflight : w.manager.heap[f]? = some ⟨some o⟩) :
    (∀ e, evaluate secrets c.d o = .error e →
        total step (increase f c.d.id) (World.new store secrets now) es = 1) ∧
      ∀ history, evaluate secrets c.d o = .ok history → c.waited = true →
        Along step (fun w e _ => unhindered f c.d.id w e = true) (World.new store secrets now) es →
        ∀ signal, total step (samples f c.d.id signal) (World.new store secrets now) es =
          if (history.lookup signal).isSome then 1 else 0 := by
  obtain ⟨hsound, hsingle⟩ := invariant_run_along (I := fun w => Sound w ∧ Single w) single_step
    ⟨sound_new store secrets now, single_new store secrets now⟩ halone hrun
  have hsecrets := secrets_run hrun
  have hsole : Sole i f c.d.id w := fun j x hx hcaller =>
    (hsingle i j c x f hc hx hf hcaller).symm
  constructor
  · intro e heval
    refine total_increase hrun hsole hc hf hresult ?_
    intro c₀ o₀ hc₀ hcaller ho₀
    cases hc.symm.trans hc₀
    rw [hsecrets]
    rcases (hsound.calls i c hc).landed f o₀ hf ho₀ with hsame | herr
    · cases hflight.symm.trans hsame
      exact fails_of_error heval
    · exact fails_of_err herr
  · intro history heval hwaited hfree signal
    have hcaller : c.callerOf f c.d.id := ⟨hf, rfl⟩
    obtain ⟨o₀, hout, hnone⟩ := (Option.any_eq_true ..).mp hwaited
    rcases (hsound.calls i c hc).landed f o₀ hf hout with hsame | herr
    swap
    · rw [← Option.not_isNone, hnone] at herr
      cases herr
    cases hflight.symm.trans hsame
    rw [total_samples hrun hsole hfree hc signal]
    simp only [Call.kept, hcaller, hresult, hout, Option.any_some, samplesOf_of_ok heval, true_and]

def meteredCard : Definition Unit :=
  { runningCard with historySignals := (∅ : GoMap Bytes Unit).insert (ascii "load") () }

def meteredDocument : Document :=
  { zeroDocument with
    signals := some ((∅ : GoMap Bytes Signal).insert (ascii "load") ⟨.num 1, [], []⟩) }

/-- The card is applied and its loop runs it once. -/
def oneRun (doc : Document) (err : Option RunErr) : List (Event Unit) :=
  startRun meteredCard [.act 0 (.finish doc err), .act 0 (.record (some none)),
    .act 0 (.commit true)]

/-- What a run makes of its caller. -/
structure Ends (es : List (Event Unit)) (w : World Unit) (c : Call Unit) (o : Outcome) : Prop where
  run : run step (World.new (some .empty) none zeroTime) es = some w
  call : w.calls[0]? = some c
  outcome : w.manager.heap[0]? = some ⟨some o⟩
  flight : c.flight = some 0
  id : c.d.id = ascii "a"
  result : c.result.isSome = true

/-- The same, to be evaluated. -/
def ending (es : List (Event Unit)) (p : Call Unit → Outcome → Bool) : Bool :=
  (run step (World.new (some .empty) none zeroTime) es).any fun w => (w.calls[0]?).any fun c =>
    w.manager.heap[0]?.any fun f => f.outcome.any fun o =>
      decide (c.flight = some 0) && decide (c.d.id = ascii "a") && c.result.isSome && p c o

theorem exists_ends (es : List (Event Unit)) {p : Call Unit → Outcome → Bool}
    (h : ending es p = true) : ∃ w c o, Ends es w c o ∧ p c o = true := by
  simp only [ending, Option.any_eq_true, Bool.and_eq_true, decide_eq_true_eq] at h
  obtain ⟨w, hrun, c, hc, ⟨_⟩, hf, o, rfl, ⟨⟨hflight, hid⟩, hresult⟩, hp⟩ := h
  exact ⟨w, c, o, ⟨hrun, hc, hf, hflight, hid, hresult⟩, hp⟩

/-- A run that fails counts once, and one that goes well stores one sample. -/
theorem counts_once_of_alone_oneRun :
    total step (increase 0 (ascii "a")) (World.new (some .empty) none zeroTime)
        (oneRun zeroDocument (some (contextErr true))) = 1 ∧
      total step (samples 0 (ascii "a") (ascii "load")) (World.new (some .empty) none zeroTime)
        (oneRun meteredDocument none) = 1 := by
  constructor
  · obtain ⟨w, c, o, hends, hfails⟩ := exists_ends
      (oneRun zeroDocument (some (contextErr true))) (p := fun c o => fails none c.d o)
      (by decide +kernel)
    rw [← hends.id]
    cases heval : evaluate none c.d o with
    | error e =>
      exact (counts_once_of_alone hends.run (by decide +kernel) hends.call hends.flight hends.result
        hends.outcome).1 e heval
    | ok history =>
      rw [fails_of_ok heval] at hfails
      cases hfails
  · obtain ⟨w, c, o, hends, hp⟩ := exists_ends (oneRun meteredDocument none)
      (p := fun c o => c.waited && ((samplesOf none c.d o).lookup (ascii "load")).isSome)
      (by decide +kernel)
    obtain ⟨hwaited, hsample⟩ := Bool.and_eq_true _ _ |>.mp hp
    rw [← hends.id]
    cases heval : evaluate none c.d o with
    | error e =>
      rw [samplesOf_of_error heval] at hsample
      cases hsample
    | ok history =>
      rw [samplesOf_of_ok heval] at hsample
      have htotal := (counts_once_of_alone hends.run (by decide +kernel) hends.call hends.flight
        hends.result hends.outcome).2 history heval hwaited
        (by rw [hends.id]; decide +kernel) (ascii "load")
      rw [htotal, if_pos hsample]

/-- The loop of the card runs it; two requests join the flight, the run fails, and each of the
three goes on. -/
def sharedRun : List (Event Unit) :=
  startRun meteredCard [.refresh (ascii "a"), .act 1 .check, .act 1 .join, .refresh (ascii "a"),
    .act 2 .check, .act 2 .join, .act 0 (.finish zeroDocument (some (contextErr true))),
    .act 0 (.record none), .act 1 .await, .act 1 (.record none), .act 2 .await,
    .act 2 (.record none), .act 2 .openCircuit]

/-- **One execution opens the circuit.**  There was a single flight, but the counter is at three
and the circuit is open. -/
theorem one_failure_opens_circuit :
    total step (increase 0 (ascii "a")) (World.new none none zeroTime) sharedRun = 3 ∧
      ((run step (World.new none none zeroTime) sharedRun).map fun w =>
        (w.manager.heap.length, w.manager.failureCount (ascii "a"),
          decide (w.now < w.manager.circuitOpen (ascii "a")))) = some (1, 3, true) := by
  decide +kernel

end Veduta.Scheduler
