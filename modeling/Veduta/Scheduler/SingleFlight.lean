import Veduta.Scheduler.Flight

/-!
# One run at a time

A flight is on the map from the moment its leader starts it until the leader has left, so the
runs of one key do not overlap, and a worker is held exactly as long as a call runs.  What the
callers on a flight get is another matter: the leader fills it in, and two of its ways out leave
something that no run returned.  If it panics the flight keeps its zero value, a document without
an error; if its context is done while it waits for a worker, the others get its error.
-/

namespace Veduta.Scheduler

open Go Widgets State Storage Secrets Lib

variable {R : Type}
variable {e : Event R}

/-- The call is executing its run. -/
def Call.running (c : Call R) : Bool :=
  match c.pc with
  | .running _ => true
  | _ => false

def Definition.flightID (d : Definition R) : ℕ × Bytes :=
  (d.generation, if d.key = [] then d.id else d.key)

/-- How the run of a flight ends, or that the context of a caller was done. -/
inductive Ending where
  | ran (flight : ℕ) (o : Outcome)
  | panicked (flight : ℕ)
  | gaveUp (call : ℕ) (e : RunErr)

/-- What an action of a call leaves behind. -/
def Call.ending (now : ℤ) (i : ℕ) (c : Call R) : Action → Option Ending
  | .finish doc err =>
    match c.pc, c.flight with
    | .running start, some f => some (.ran f ⟨doc, now - start, err⟩)
    | _, _ => none
  | .panic => c.flight.map .panicked
  | .giveUp => c.ctx.map (.gaveUp i)
  | _ => none

def endings (w : World R) : Event R → Option Ending
  | .act i a => (w.calls[i]?).bind fun c => c.ending w.now i a
  | _ => none

/-- **The outcome is the caller's own error, or that of the flight's run**; a run that panicked
counts as a failure. -/
def FaithfulTo (past : List Ending) (i f : ℕ) (o : Outcome) : Prop :=
  (∃ e, .gaveUp i e ∈ past ∧ o = gaveUp e) ∨ .ran f o ∈ past ∨
    .panicked f ∈ past ∧ o.err.isSome = true

theorem FaithfulTo.mono {past past' : List Ending} {i f : ℕ} {o : Outcome}
    (h : FaithfulTo past i f o) (hsub : past ⊆ past') : FaithfulTo past' i f o := by
  rcases h with ⟨e, he, ho⟩ | hran | ⟨hpanicked, ho⟩
  · exact .inl ⟨e, hsub he, ho⟩
  · exact .inr (.inl (hsub hran))
  · exact .inr (.inr ⟨hsub hpanicked, ho⟩)

/-! ## Flights and workers -/

/-- Waiting for a worker, or running. -/
def Pc.leading : Pc → Bool
  | .acquire | .running _ => true
  | _ => false

/-- The flights on the map are those that a call leads, and each call that runs holds a worker. -/
structure Aloft (w : World R) : Prop where
  flight : ∀ {i : ℕ} {c : Call R}, w.calls[i]? = some c → c.pc.leading = true →
    c.flight.isSome = true
  key : ∀ {i : ℕ} {c : Call R} {f : ℕ}, w.calls[i]? = some c → c.Leads f →
    w.manager.flights.lookup c.d.flightKey = some f
  leader : ∀ {key : Bytes} {f : ℕ}, w.manager.flights.lookup key = some f →
    ∃ (i : ℕ) (c : Call R), w.calls[i]? = some c ∧ c.Leads f ∧ c.d.flightKey = key
  workers : w.manager.workers = w.calls.countP Call.running
  workers_le : w.manager.workers ≤ maxWorkers

theorem aloft_new (store : Option Store) (secrets : Option Registry) (now : ℤ) :
    Aloft (World.new store secrets now : World R) where
  flight h := by simp [World.new] at h
  key h := by simp [World.new] at h
  leader := by
    intro key f h
    cases h
  workers := rfl
  workers_le := Nat.zero_le _

theorem Rests.leads_of {c c' : Call R} (h : Rests c c') {f : ℕ} (hleads : c.Leads f) :
    c'.Leads f := by
  refine ⟨h.flight.trans hleads.1, ?_⟩
  rcases h.pc with hpc | ⟨⟨t, hsleep⟩, -⟩
  · rw [hpc]
    exact hleads.2
  · rcases hleads.2 with hpc' | ⟨s, hpc'⟩ <;> cases hsleep.symm.trans hpc'

theorem Rests.running {c c' : Call R} (h : Rests c c') : c'.running = c.running := by
  rcases h.pc with hpc | ⟨⟨t, hsleep⟩, hwoken⟩
  · rw [Call.running, Call.running, hpc]
  · rw [Call.running, Call.running, hsleep, hwoken]

theorem Goes.countP_running {calls calls' : List (Call R)} (h : Goes calls calls') :
    calls'.countP Call.running = calls.countP Call.running := by
  have hold : (calls'.take calls.length).map Call.running = calls.map Call.running := by
    refine List.ext_getElem? fun i => ?_
    rw [List.getElem?_map, List.getElem?_map]
    cases hc : calls[i]? with
    | none =>
      have hlen := List.getElem?_eq_none_iff.mp hc
      rw [List.getElem?_eq_none_iff.mpr (by rw [List.length_take]; omega)]
    | some c =>
      obtain ⟨c', hc', hrests⟩ := h.old hc
      rw [List.getElem?_take_of_lt (List.getElem?_eq_some_iff.mp hc).1, hc', Option.map_some,
        Option.map_some, hrests.running]
  have hnew : (calls'.drop calls.length).countP Call.running = 0 := by
    rw [List.countP_eq_zero]
    intro c' hc'
    obtain ⟨i, hi⟩ := List.getElem?_of_mem hc'
    rw [List.getElem?_drop] at hi
    rcases h.new hi with ⟨c, hc, -⟩ | ⟨-, d, scheduled, ctx, rfl⟩
    · have hlt := (List.getElem?_eq_some_iff.mp hc).1
      omega
    · exact Bool.false_ne_true
  have hcount : ∀ l : List (Call R), l.countP Call.running = (l.map Call.running).countP id := by
    intro l
    rw [List.countP_map]
    rfl
  rw [← List.take_append_drop calls.length calls', List.countP_append, hnew, Nat.add_zero, hcount,
    hold, ← hcount]

theorem workers_of_step {w w' : World R} (h : step e w = some w') (hact : ∀ i a, e ≠ .act i a) :
    w'.manager.workers = w.manager.workers := by
  cases stepped_of_step h with
  | act hc hacted => exact absurd rfl (hact _ _)
  | _ => rfl

theorem aloft_rest {w w' : World R} (h : Aloft w) (hrest : Rest w w')
    (hworkers : w'.manager.workers = w.manager.workers) : Aloft w' where
  flight := by
    intro i c' hc' hpc
    have hne : c'.pc ≠ .enter ∧ c'.pc ≠ .woken := by
      constructor <;> intro heq <;> rw [heq] at hpc <;> cases hpc
    obtain ⟨c, hc, hrests, heq⟩ := hrest.calls.of_pc hc' hne.1 hne.2
    rw [hrests.flight]
    exact h.flight hc (heq ▸ hpc)
  key := by
    intro i c' f hc' hleads
    rcases hrest.calls.new hc' with ⟨c, hc, hrests⟩ | ⟨-, d, scheduled, ctx, rfl⟩
    · rw [hrest.flights, hrests.d]
      exact h.key hc (hrests.leads hleads)
    · cases hleads.1
  leader := by
    intro key f hlookup
    rw [hrest.flights] at hlookup
    obtain ⟨i, c, hc, hleads, hkey⟩ := h.leader hlookup
    obtain ⟨c', hc', hrests⟩ := hrest.calls.old hc
    exact ⟨i, c', hc', hrests.leads_of hleads, by rw [hrests.d, hkey]⟩
  workers := by rw [hworkers, hrest.calls.countP_running, h.workers]
  workers_le := hworkers ▸ h.workers_le

section

variable {now : ℤ} {m m' : Manager R} {c c' : Call R} {a : Action}

theorem not_leads_of_pc {f : ℕ} (hpc : c.pc.leading = false) : ¬ c.Leads f := by
  intro h
  rcases h.2 with hpc' | ⟨t, hpc'⟩ <;> rw [hpc'] at hpc <;> cases hpc

theorem Acted.leading (h : Acted now m c a m' c') :
    m'.flights = m.flights ∧ (∀ f, c'.Leads f ↔ c.Leads f) ∨
      m.flights.lookup c.d.flightKey = none ∧
        m'.flights = m.flights.insert c.d.flightKey m.heap.length ∧ c'.Leads m.heap.length ∧
        (∀ f, c'.Leads f → f = m.heap.length) ∧ (∀ f, ¬ c.Leads f) ∨
      (∃ f, c.Leads f) ∧ m'.flights = m.flights.erase c.d.flightKey ∧ ∀ f, ¬ c'.Leads f := by
  have hneither : c.pc.leading = false → c'.pc.leading = false → ∀ f, c'.Leads f ↔ c.Leads f :=
    fun hc hc' f => iff_of_false (not_leads_of_pc hc') (not_leads_of_pc hc)
  cases h with
  | check hpc =>
    refine .inl ⟨rfl, hneither (by rw [hpc]; rfl) ?_⟩
    rw [Scheduler.check]
    split_ifs <;> rfl
  | launch hpc hkey =>
    refine .inr (.inl ⟨hkey, rfl, ⟨rfl, .inl rfl⟩, ?_, ?_⟩)
    · intro f hleads
      exact (Option.some.inj hleads.1).symm
    · intro f
      exact not_leads_of_pc (by rw [hpc]; rfl)
  | giveUpAcquiring hpc hflight hctx =>
    exact .inr (.inr ⟨⟨_, hflight, .inl hpc⟩, rfl, fun f => not_leads_of_pc rfl⟩)
  | acquire hpc hfree =>
    refine .inl ⟨rfl, fun f => ⟨fun hleads => ⟨hleads.1, .inl hpc⟩, fun hleads => ?_⟩⟩
    exact ⟨hleads.1, .inr ⟨_, rfl⟩⟩
  | finish hpc hflight | panic hpc hflight =>
    exact .inr (.inr ⟨⟨_, hflight, .inr ⟨_, hpc⟩⟩, rfl, fun f => not_leads_of_pc rfl⟩)
  | fail hpc hout heval =>
    refine .inl ⟨rfl, hneither (by rw [hpc]; rfl) ?_⟩
    simp only [failedPc]
    split_ifs <;> rfl
  | commit hpc =>
    exact .inl ⟨(commit_frame m c _ _ _).flights, hneither (by rw [hpc]; rfl) rfl⟩
  | board hpc | await hpc | giveUpWaiting hpc | unread hpc | succeed hpc | openCircuit hpc
  | sleep hpc => exact .inl ⟨rfl, hneither (by rw [hpc]; rfl) rfl⟩

theorem Acted.isSome_flight (h : Acted now m c a m' c')
    (hflight : c.pc.leading = true → c.flight.isSome = true)
    (hpc : c'.pc.leading = true ∨ c'.pc = .wait) : c'.flight.isSome = true := by
  cases h with
  | board | launch => rfl
  | acquire hacquire => exact hflight (by rw [hacquire]; rfl)
  | check =>
    rw [Scheduler.check] at hpc
    split_ifs at hpc <;> rcases hpc with hpc | hpc <;> cases hpc
  | fail =>
    simp only [failedPc] at hpc
    split_ifs at hpc <;> rcases hpc with hpc | hpc <;> cases hpc
  | _ => rcases hpc with hpc | hpc <;> cases hpc

theorem Acted.workers (h : Acted now m c a m' c') :
    m'.workers = m.workers - (if c.running then 1 else 0) + (if c'.running then 1 else 0) ∧
      (m.workers ≤ maxWorkers → m'.workers ≤ maxWorkers) := by
  have hneither : c.running = false → c'.running = false → m'.workers = m.workers →
      m'.workers = m.workers - (if c.running then 1 else 0) + (if c'.running then 1 else 0) ∧
        (m.workers ≤ maxWorkers → m'.workers ≤ maxWorkers) := by
    intro hc hc' hworkers
    rw [hc, hc', hworkers]
    exact ⟨rfl, id⟩
  cases h with
  | check hpc =>
    refine hneither (by rw [Call.running, hpc]) ?_ rfl
    rw [Scheduler.check]
    split_ifs <;> rfl
  | acquire hpc hfree =>
    refine ⟨?_, fun _ => hfree⟩
    rw [Call.running, hpc]
    rfl
  | finish hpc hflight | panic hpc hflight hcall =>
    refine ⟨?_, fun hle => (Nat.sub_le _ _).trans hle⟩
    rw [Call.running, hpc]
    rfl
  | fail hpc hout heval =>
    refine hneither (by rw [Call.running, hpc]) ?_ rfl
    simp only [Call.running, failedPc]
    split_ifs <;> rfl
  | commit hpc =>
    exact hneither (by rw [Call.running, hpc]) rfl (commit_frame m c _ _ _).workers
  | board hpc | launch hpc | await hpc | giveUpWaiting hpc | giveUpAcquiring hpc | unread hpc
  | succeed hpc | openCircuit hpc | sleep hpc => exact hneither (by rw [Call.running, hpc]) rfl rfl

end

theorem aloft_act {w : World R} (hsound : Sound w) (h : Aloft w) {i : ℕ} {a : Action}
    {c c' : Call R} {m' : Manager R} (hc : w.calls[i]? = some c)
    (hacted : Acted w.now w.manager c a m' c') :
    Aloft { w with manager := m', calls := w.calls.set i c' } where
  flight := by
    intro j x hx hpc
    rcases getElem?_set_cases hx with ⟨-, rfl⟩ | ⟨-, hx'⟩
    · exact hacted.isSome_flight (h.flight hc) (.inl hpc)
    · exact h.flight hx' hpc
  key := by
    intro j x f hx hleads
    rcases getElem?_set_cases hx with ⟨hij, rfl⟩ | ⟨hij, hx'⟩
    · rcases hacted.leading with ⟨hflights, hiff⟩ | ⟨_, hflights, _, hlast, _⟩ | ⟨_, _, hnone⟩
      · rw [hflights, hacted.d]
        exact h.key hc ((hiff f).mp hleads)
      · rw [hflights, hacted.d, hlast f hleads]
        exact AList.lookup_insert _
      · exact absurd hleads (hnone f)
    · have hkey := h.key hx' hleads
      rcases hacted.leading with ⟨hflights, _⟩ | ⟨hfree, hflights, _⟩ | ⟨⟨f', hleads'⟩, hflights, _⟩
      · rw [hflights]
        exact hkey
      · rw [hflights, AList.lookup_insert_ne]
        · exact hkey
        · intro heq
          rw [heq, hfree] at hkey
          cases hkey
      · rw [hflights, AList.lookup_erase_ne]
        · exact hkey
        · -- two leaders of one key would lead one flight
          intro heq
          have hkey' := h.key hc hleads'
          rw [← heq, hkey] at hkey'
          cases hkey'
          exact hij (hsound.leader i j c x f hc hx' hleads' hleads)
  leader := by
    intro key f hlookup
    have hself : (w.calls.set i c')[i]? = some c' :=
      List.getElem?_set_self (List.getElem?_eq_some_iff.mp hc).1
    have hother : ∀ {j : ℕ} {x : Call R}, w.calls[j]? = some x → i ≠ j →
        (w.calls.set i c')[j]? = some x := fun hx hij => (List.getElem?_set_ne hij).trans hx
    rcases hacted.leading with ⟨hflights, hiff⟩ | ⟨_, hflights, hleads', _, hnone⟩ |
      ⟨_, hflights, _⟩
    · rw [hflights] at hlookup
      obtain ⟨j, x, hx, hleads, hkey⟩ := h.leader hlookup
      by_cases hij : i = j
      · subst hij
        cases hc.symm.trans hx
        exact ⟨i, c', hself, (hiff f).mpr hleads, by rw [hacted.d, hkey]⟩
      · exact ⟨j, x, hother hx hij, hleads, hkey⟩
    · rw [hflights] at hlookup
      rcases GoMap.lookup_of_insert hlookup with ⟨rfl, rfl⟩ | hold
      · exact ⟨i, c', hself, hleads', by rw [hacted.d]⟩
      · obtain ⟨j, x, hx, hleads, hkey⟩ := h.leader hold
        refine ⟨j, x, hother hx ?_, hleads, hkey⟩
        intro hij
        subst hij
        cases hc.symm.trans hx
        exact hnone f hleads
    · rw [hflights] at hlookup
      obtain ⟨hne, hold⟩ := GoMap.lookup_of_erase hlookup
      obtain ⟨j, x, hx, hleads, hkey⟩ := h.leader hold
      refine ⟨j, x, hother hx ?_, hleads, hkey⟩
      intro hij
      subst hij
      cases hc.symm.trans hx
      exact hne hkey.symm
  workers := by
    have hlt := (List.getElem?_eq_some_iff.mp hc).1
    have hget := (List.getElem?_eq_some_iff.mp hc).2
    rw [List.countP_set hlt, hget, hacted.workers.1, h.workers]
  workers_le := hacted.workers.2 h.workers_le

theorem aloft_step {w w' : World R} (h : Sound w ∧ Aloft w) (hstep : step e w = some w') :
    Sound w' ∧ Aloft w' := by
  refine ⟨sound_step h.1 hstep, ?_⟩
  rcases act_or_rest hstep with ⟨i, a, c, m', c', rfl, hc, hacted, rfl⟩ | ⟨hnot, hrest⟩
  · exact aloft_act h.1 h.2 hc hacted
  · exact aloft_rest h.2 hrest (workers_of_step hstep hnot)

/-! ## What the callers get -/

/-- The outcomes of the calls are good, and so are those of flights that have ended for the calls
that still wait for them. -/
structure Comes (Good : ℕ → ℕ → Outcome → Prop) (w : World R) : Prop where
  flight : ∀ {i : ℕ} {c : Call R}, w.calls[i]? = some c → c.outcome.isSome = true →
    c.flight.isSome = true
  outcome : ∀ {i : ℕ} {c : Call R} {f : ℕ} {o : Outcome}, w.calls[i]? = some c →
    c.flight = some f → c.outcome = some o → Good i f o
  waiting : ∀ {i : ℕ} {c : Call R} {f : ℕ} {o : Outcome}, w.calls[i]? = some c → c.pc = .wait →
    c.flight = some f → w.manager.heap[f]? = some ⟨some o⟩ → Good i f o

theorem comes_new (Good : ℕ → ℕ → Outcome → Prop) (store : Option Store)
    (secrets : Option Registry) (now : ℤ) :
    Comes Good (World.new store secrets now : World R) where
  flight h := by simp [World.new] at h
  outcome h := by simp [World.new] at h
  waiting h := by simp [World.new] at h

theorem comes_rest {Good : ℕ → ℕ → Outcome → Prop} {w w' : World R} (h : Comes Good w)
    (hrest : Rest w w') : Comes Good w' where
  flight := by
    intro i c' hc' ho
    rcases hrest.calls.new hc' with ⟨c, hc, hrests⟩ | ⟨-, d, scheduled, ctx, rfl⟩
    · rw [hrests.outcome] at ho
      rw [hrests.flight]
      exact h.flight hc ho
    · cases ho
  outcome := by
    intro i c' f o hc' hf ho
    rcases hrest.calls.new hc' with ⟨c, hc, hrests⟩ | ⟨-, d, scheduled, ctx, rfl⟩
    · exact h.outcome hc (hrests.flight ▸ hf) (hrests.outcome ▸ ho)
    · cases hf
  waiting := by
    intro i c' f o hc' hpc hf hdone
    rw [hrest.heap] at hdone
    obtain ⟨c, hc, hrests, heq⟩ := hrest.calls.of_pc hc' (by simp [hpc]) (by simp [hpc])
    exact h.waiting hc (heq ▸ hpc) (hrests.flight ▸ hf) hdone

section

variable {w : World R} {i : ℕ} {c c' : Call R} {a : Action} {m' : Manager R}
variable {f : ℕ} {m : Manager R} {o : Outcome}

theorem Aloft.heap_of_lookup (hsound : Sound w) (haloft : Aloft w) {key : Bytes}
    (hkey : w.manager.flights.lookup key = some f) : w.manager.heap[f]? = some ⟨none⟩ := by
  obtain ⟨j, x, hx, hleads, -⟩ := haloft.leader hkey
  exact (hsound.calls j x hx).leads f hleads

theorem Acted.joined_of_wait {now : ℤ} (h : Acted now m c a m' c') (hpc : c'.pc = .wait)
    (hf : c'.flight = some f) : m'.heap = m.heap ∧ m.flights.lookup c.d.flightKey = some f := by
  cases h with
  | board _ hkey =>
    cases hf
    exact ⟨rfl, hkey⟩
  | check =>
    rw [Scheduler.check] at hpc
    split_ifs at hpc <;> cases hpc
  | fail =>
    simp only [failedPc] at hpc
    split_ifs at hpc
  | _ => cases hpc

/-- The call waits for the flight. -/
def Call.WaitsFor (c : Call R) (f : ℕ) : Prop := c.pc = .wait ∧ c.flight = some f

instance (c : Call R) (f : ℕ) : Decidable (c.WaitsFor f) :=
  match hpc : c.pc with
  | .wait => decidable_of_iff (c.flight = some f) ⟨fun h => ⟨hpc, h⟩, fun h => h.2⟩
  | .enter | .join | .acquire | .running _ | .record | .openCircuit .. | .commit .. | .returned
  | .sleeping _ | .woken | .panicked => .isFalse fun h => by cases hpc.symm.trans h.1

/-- What the four ways to an outcome must be good for. -/
structure Lands (Good : ℕ → ℕ → Outcome → Prop) (w : World R) (i : ℕ) (c : Call R) (a : Action) :
    Prop where
  gaveUp : ∀ {f e}, a = .giveUp → c.flight = some f → c.ctx = some e → Good i f (gaveUp e)
  ran : ∀ {f start doc err}, a = .finish doc err → c.flight = some f → c.pc = .running start →
    ∀ j, Good j f ⟨doc, w.now - start, err⟩
  left : ∀ {f e}, a = .giveUp → c.pc = .acquire → c.flight = some f → c.ctx = some e →
    ∀ (j : ℕ) x, w.calls[j]? = some x → x.WaitsFor f → Good j f (Scheduler.gaveUp e)
  panicked : ∀ {f}, a = .panic → c.flight = some f →
    ∀ (j : ℕ) x, w.calls[j]? = some x → x.WaitsFor f → Good j f ⟨zeroDocument, 0, none⟩

variable {Good : ℕ → ℕ → Outcome → Prop}

theorem Acted.isSome_flight_of_outcome {now : ℤ} (h : Acted now m c a m' c')
    (hflight : c.outcome.isSome = true → c.flight.isSome = true) (ho : c'.outcome.isSome = true) :
    c'.flight.isSome = true := by
  cases h with
  | check =>
    have hsame : (Scheduler.check now m' c).flight = c.flight ∧
        (Scheduler.check now m' c).outcome = c.outcome := by
      rw [Scheduler.check]
      split_ifs <;> exact ⟨rfl, rfl⟩
    rw [hsame.2] at ho
    rw [hsame.1]
    exact hflight ho
  | board | launch => rfl
  | await _ hf | giveUpWaiting _ hf | giveUpAcquiring _ hf | finish _ hf =>
    exact Option.isSome_iff_exists.mpr ⟨_, hf⟩
  | _ => exact hflight ho

/-- An action gives its call no other outcome than a good one. -/
theorem Comes.outcome_act (hsound : Sound w) (h : Comes Good w) (hc : w.calls[i]? = some c)
    (hacted : Acted w.now w.manager c a m' c') (hlands : Lands Good w i c a)
    (hf : c'.flight = some f) (ho : c'.outcome = some o) : Good i f o := by
  have hcons := (hsound.calls i c hc).consistent
  cases hacted with
  | check hpc =>
    simp only [Call.Consistent, hpc] at hcons
    rw [flight_check, hcons.1] at hf
    cases hf
  | board hpc hkey | launch hpc hkey =>
    simp only [Call.Consistent, hpc] at hcons
    cases hcons.2.1.symm.trans ho
  | await hpc hflight hdone =>
    cases hflight.symm.trans hf
    cases ho
    exact h.waiting hc hpc hflight hdone
  | giveUpWaiting hpc hflight hctx | giveUpAcquiring hpc hflight hctx =>
    cases hflight.symm.trans hf
    cases ho
    exact hlands.gaveUp rfl hflight hctx
  | finish hpc hflight =>
    cases hflight.symm.trans hf
    cases ho
    exact hlands.ran rfl hflight hpc i
  | _ => exact h.outcome hc hf ho

/-- An action ends no flight that a call waits for but with an outcome that is good for it. -/
theorem Comes.waiting_act (hsound : Sound w) (haloft : Aloft w) (h : Comes Good w)
    (hacted : Acted w.now w.manager c a m' c') (hlands : Lands Good w i c a) {j : ℕ} {x : Call R}
    (hx : (w.calls.set i c')[j]? = some x) (hpc : x.pc = .wait) (hf : x.flight = some f)
    (hdone : m'.heap[f]? = some ⟨some o⟩) : Good j f o := by
  rcases getElem?_set_cases hx with ⟨-, rfl⟩ | ⟨-, hx'⟩
  · obtain ⟨hheap, hkey⟩ := hacted.joined_of_wait hpc hf
    rw [hheap, haloft.heap_of_lookup hsound hkey] at hdone
    cases hdone
  · have hkeep : m'.heap[f]? = w.manager.heap[f]? → Good j f o := by
      intro hsame
      rw [hsame] at hdone
      exact h.waiting hx' hpc hf hdone
    -- a flight that the action ends has the outcome that it ends with
    have hland : ∀ {f' : ℕ} {o' : Outcome}, m'.heap = w.manager.heap.set f' ⟨some o'⟩ →
        (f' = f → Good j f o') → Good j f o := by
      intro f' o' hheap hgood
      by_cases hff : f' = f
      · have hlt := (hsound.calls j x hx').flight_lt f hf
        rw [hheap, hff, List.getElem?_set_self hlt] at hdone
        cases hdone
        exact hgood hff
      · exact hkeep (by rw [hheap, List.getElem?_set_ne hff])
    cases hacted with
    | launch =>
      exact hkeep (List.getElem?_append_left ((hsound.calls j x hx').flight_lt f hf))
    | giveUpAcquiring hpc' hflight hctx =>
      refine hland rfl fun hff => ?_
      subst hff
      exact hlands.left rfl hpc' hflight hctx j x hx' ⟨hpc, hf⟩
    | panic hpc' hflight hcall =>
      refine hland rfl fun hff => ?_
      subst hff
      exact hlands.panicked rfl hflight j x hx' ⟨hpc, hf⟩
    | finish hpc' hflight =>
      refine hland rfl fun hff => ?_
      subst hff
      exact hlands.ran rfl hflight hpc' j
    | commit =>
      exact hkeep (by rw [(commit_frame w.manager c _ _ _).heap])
    | _ => exact hkeep rfl

end

/-- **Outcomes stay good** in a step that lands only good ones. -/
theorem comes_step {Good Good' : ℕ → ℕ → Outcome → Prop} {w w' : World R} (hsound : Sound w)
    (haloft : Aloft w) (h : Comes Good w) (hstep : step e w = some w')
    (hmono : ∀ i f o, Good i f o → Good' i f o)
    (hlands : ∀ i c a, e = .act i a → w.calls[i]? = some c → Lands Good' w i c a) :
    Comes Good' w' := by
  have h' : Comes Good' w :=
    ⟨h.flight, fun hc hf ho => hmono _ _ _ (h.outcome hc hf ho),
      fun hc hpc hf hdone => hmono _ _ _ (h.waiting hc hpc hf hdone)⟩
  rcases act_or_rest hstep with ⟨i, a, c, m', c', rfl, hc, hacted, rfl⟩ | ⟨-, hrest⟩
  · have hland := hlands i c a rfl hc
    constructor
    · intro j x hx ho
      rcases getElem?_set_cases hx with ⟨-, rfl⟩ | ⟨-, hx'⟩
      · exact hacted.isSome_flight_of_outcome (h.flight hc) ho
      · exact h.flight hx' ho
    · intro j x f o hx hf ho
      rcases getElem?_set_cases hx with ⟨hij, rfl⟩ | ⟨-, hx'⟩
      · exact hij ▸ h'.outcome_act hsound hc hacted hland hf ho
      · exact h'.outcome hx' hf ho
    · intro j x f o hx hpc hf hdone
      exact h'.waiting_act hsound haloft hacted hland hx hpc hf hdone
  · exact comes_rest h' hrest

/-! ## Faithful outcomes -/

/-- **A leader leaves without the outcome of a run only if nobody waits for it.**  It does so if
it panics, or if its context is done while it waits for a worker. -/
def leavesAlone (w : World R) : Event R → Bool
  | .act i a =>
    match w.calls[i]? with
    | none => true
    | some c =>
      match a, c.pc, c.flight with
      | .panic, _, some f | .giveUp, .acquire, some f =>
        !w.calls.any fun x => decide (x.WaitsFor f)
      | _, _, _ => true
  | _ => true

theorem not_waitsFor_of_leavesAlone {w : World R} {i j f : ℕ} {c x : Call R} {a : Action}
    (h : leavesAlone w (.act i a) = true) (hc : w.calls[i]? = some c)
    (ha : a = .panic ∨ a = .giveUp ∧ c.pc = .acquire) (hf : c.flight = some f)
    (hx : w.calls[j]? = some x) : ¬ x.WaitsFor f := by
  have hnone : (w.calls.any fun x => decide (x.WaitsFor f)) = false := by
    rcases ha with rfl | ⟨rfl, hpc⟩
    · simpa only [leavesAlone, hc, hf, Bool.not_eq_true'] using h
    · simpa only [leavesAlone, hc, hf, hpc, Bool.not_eq_true'] using h
  rw [List.any_eq_false] at hnone
  simpa using hnone x (List.mem_of_getElem? hx)

/-- **A step keeps the outcomes faithful** if the leader it takes away leaves nobody waiting. -/
theorem faithful_step {w w' : World R} {past : List Ending}
    (h : (Sound w ∧ Aloft w) ∧ Comes (FaithfulTo past) w) (hstep : step e w = some w')
    (halone : leavesAlone w e = true) :
    (Sound w' ∧ Aloft w') ∧ Comes (FaithfulTo (past ++ (endings w e).toList)) w' := by
  refine ⟨aloft_step h.1 hstep, comes_step h.1.1 h.1.2 h.2 hstep ?_ ?_⟩
  · intro i f o hgood
    exact hgood.mono (List.subset_append_left _ _)
  · intro i c a he hc
    subst he
    have hending : endings w (.act i a) = c.ending w.now i a := by
      rw [endings, hc, Option.bind_some]
    rw [hending]
    constructor
    · intro f e ha hf hctx
      subst ha
      refine .inl ⟨e, List.mem_append_right _ ?_, rfl⟩
      simp [Call.ending, hctx]
    · intro f start doc err ha hf hpc j
      subst ha
      refine .inr (.inl (List.mem_append_right _ ?_))
      simp [Call.ending, hpc, hf]
    · intro f e ha hpc hf _ j x hx hwaits
      exact absurd hwaits (not_waitsFor_of_leavesAlone halone hc (.inr ⟨ha, hpc⟩) hf hx)
    · intro f ha hf j x hx hwaits
      exact absurd hwaits (not_waitsFor_of_leavesAlone halone hc (.inl ha) hf hx)

theorem Aloft.leads_of_running {w : World R} (h : Aloft w) {i : ℕ} {c : Call R}
    (hc : w.calls[i]? = some c) (hrunning : c.running = true) : ∃ f, c.Leads f := by
  rw [Call.running] at hrunning
  split at hrunning
  · rename_i t hpc
    obtain ⟨f, hf⟩ := Option.isSome_iff_exists.mp (h.flight hc (by rw [hpc]; rfl))
    exact ⟨f, hf, .inr ⟨t, hpc⟩⟩
  · cases hrunning

theorem flightKey_eq (d : Definition R) :
    d.flightKey = formatNat d.flightID.1 ++ chr ':' :: d.flightID.2 := rfl

/-- **Single flight.**  In every run in which a leader that panics, or gives up waiting for a
worker, leaves nobody waiting: at most one run of a generation and key is executing, and at most
eight in all; every outcome is the caller's own error or that of the flight's run; and a key is
taken only as long as its leader is there. -/
theorem single_flight {store : Option Store} {secrets : Option Registry} {now : ℤ}
    {es : List (Event R)} {w : World R} (hrun : run step (World.new store secrets now) es = some w)
    (halone : Along step (fun w e _ => leavesAlone w e = true) (World.new store secrets now) es) :
    (∀ (i j : ℕ) c x, w.calls[i]? = some c → w.calls[j]? = some x → c.running = true →
        x.running = true → c.d.flightID = x.d.flightID → i = j) ∧
      w.calls.countP Call.running ≤ 8 ∧
      (∀ (i : ℕ) c f o, w.calls[i]? = some c → c.flight = some f → c.outcome = some o →
        FaithfulTo (trace step endings (World.new store secrets now) es) i f o) ∧
      ∀ key f, w.manager.flights.lookup key = some f →
        ∃ (i : ℕ) (c : Call R), w.calls[i]? = some c ∧ c.Leads f ∧ c.d.flightKey = key := by
  have hinv := invariant_trace
    (I := fun w past => (Sound w ∧ Aloft w) ∧ Comes (FaithfulTo past) w) faithful_step
    ⟨⟨sound_new store secrets now, aloft_new store secrets now⟩,
      comes_new (FaithfulTo []) store secrets now⟩
    halone hrun
  rw [List.nil_append] at hinv
  obtain ⟨⟨hsound, haloft⟩, hfaithful⟩ := hinv
  refine ⟨?_, ?_, fun i c f o hc hf ho => hfaithful.outcome hc hf ho,
    fun key f h => haloft.leader h⟩
  · intro i j c x hc hx hcrun hxrun hsame
    obtain ⟨f, hf⟩ := haloft.leads_of_running hc hcrun
    obtain ⟨g, hg⟩ := haloft.leads_of_running hx hxrun
    have hkey : c.d.flightKey = x.d.flightKey := by
      rw [flightKey_eq, flightKey_eq, hsame]
    have hfg := haloft.key hc hf
    rw [hkey, haloft.key hx hg] at hfg
    cases hfg
    exact hsound.leader i j c x f hc hx hf hg
  · rw [← haloft.workers]
    exact haloft.workers_le

/-- The loop of the card runs it, and a request joins the flight. -/
theorem single_flight_sharedRun :
    ∃ w : World Unit, run step (World.new none none zeroTime) (sharedRun.take 15) = some w ∧
      ∀ (i : ℕ) c f o, w.calls[i]? = some c → c.flight = some f → c.outcome = some o →
        FaithfulTo (trace step endings (World.new none none zeroTime) (sharedRun.take 15))
          i f o := by
  obtain ⟨w, hw⟩ := Option.isSome_iff_exists.mp (show (run step (World.new none none zeroTime :
    World Unit) (sharedRun.take 15)).isSome = true by decide +kernel)
  exact ⟨w, hw, (single_flight hw (by decide +kernel)).2.2.1⟩

/-- A request runs the card, another one joins the flight, and the run panics. -/
def panickedRun : List (Event Unit) :=
  [.apply [runningCard], .read 0 true, .swap 0, .refresh (ascii "a"), .act 1 .check, .act 1 .join,
    .act 1 .acquire, .refresh (ascii "a"), .act 2 .check, .act 2 .join, .act 1 .panic,
    .act 2 .await]

def Ending.isPanic : Ending → Bool
  | .panicked _ => true
  | _ => false

/-- **The caller that waited for a run that panicked gets an empty document without an error.** -/
theorem panicked_run_succeeds :
    ∃ (w : World Unit) (c : Call Unit) (f : ℕ) (o : Outcome),
      run step (World.new none none zeroTime) panickedRun = some w ∧ w.calls[2]? = some c ∧
        c.flight = some f ∧ c.outcome = some o ∧ o.err = none ∧
        ¬ FaithfulTo (trace step endings (World.new none none zeroTime) panickedRun) 2 f o := by
  have hall : (trace step endings (World.new none none zeroTime : World Unit) panickedRun).all
      Ending.isPanic = true := by decide +kernel
  have hend : ((run step (World.new none none zeroTime) panickedRun).any fun w =>
      (w.calls[2]?).any fun c => c.flight.any fun _ => c.outcome.any fun o => o.err.isNone) =
        true := by decide +kernel
  simp only [Option.any_eq_true, Option.isNone_iff_eq_none] at hend
  obtain ⟨w, hw, c, hc, f, hf, o, ho, herr⟩ := hend
  refine ⟨w, c, f, o, hw, hc, hf, ho, herr, ?_⟩
  intro hfaithful
  rw [List.all_eq_true] at hall
  rcases hfaithful with ⟨e, he, -⟩ | hran | ⟨-, hsome⟩
  · cases hall _ he
  · cases hall _ hran
  · rw [herr] at hsome
    cases hsome

/-! ## Progress -/

/-- A flight without an outcome is on the map, and a call that waits is on a flight. -/
structure Tended (w : World R) : Prop where
  key : ∀ {f : ℕ}, w.manager.heap[f]? = some ⟨none⟩ →
    ∃ key, w.manager.flights.lookup key = some f
  flight : ∀ {i : ℕ} {c : Call R}, w.calls[i]? = some c → c.pc = .wait → c.flight.isSome = true

theorem Acted.lookup_of_open {now : ℤ} {m m' : Manager R} {c c' : Call R} {a : Action} {f : ℕ}
    (h : Acted now m c a m' c')
    (hleads : ∀ {g}, c.Leads g → m.flights.lookup c.d.flightKey = some g)
    (hold : m.heap[f]? = some ⟨none⟩ → ∃ key, m.flights.lookup key = some f)
    (hopen : m'.heap[f]? = some ⟨none⟩) : ∃ key, m'.flights.lookup key = some f := by
  -- a flight that ends has an outcome, and another one is under another key
  have hland : ∀ {g : ℕ} {o : Outcome}, c.Leads g → (m.heap.set g ⟨some o⟩)[f]? = some ⟨none⟩ →
      ∃ key, (m.flights.erase c.d.flightKey).lookup key = some f := by
    intro g o hg hf
    rcases getElem?_set_cases hf with ⟨-, heq⟩ | ⟨hne, hf⟩
    · cases heq
    · obtain ⟨key, hkey⟩ := hold hf
      refine ⟨key, (AList.lookup_erase_ne ?_).trans hkey⟩
      rintro rfl
      exact hne (Option.some.inj ((hleads hg).symm.trans hkey))
  cases h with
  | launch hpc hfree =>
    rcases Nat.lt_or_ge f m.heap.length with hlt | hge
    · obtain ⟨key, hkey⟩ := hold ((List.getElem?_append_left hlt).symm.trans hopen)
      refine ⟨key, (AList.lookup_insert_ne ?_).trans hkey⟩
      rintro rfl
      cases hfree.symm.trans hkey
    · have hlt := (List.getElem?_eq_some_iff.mp hopen).1
      rw [Manager.launch, List.length_append, List.length_singleton] at hlt
      obtain rfl : f = m.heap.length := by omega
      exact ⟨_, AList.lookup_insert _⟩
  | giveUpAcquiring hpc hflight => exact hland ⟨hflight, .inl hpc⟩ hopen
  | finish hpc hflight | panic hpc hflight => exact hland ⟨hflight, .inr ⟨_, hpc⟩⟩ hopen
  | commit =>
    rw [(commit_frame m c _ _ _).flights]
    exact hold ((commit_frame m c _ _ _).heap ▸ hopen)
  | _ => exact hold hopen

theorem tended_step {w w' : World R} (h : (Sound w ∧ Aloft w) ∧ Tended w)
    (hstep : step e w = some w') : (Sound w' ∧ Aloft w') ∧ Tended w' := by
  refine ⟨aloft_step h.1 hstep, ?_⟩
  obtain ⟨⟨-, haloft⟩, htended⟩ := h
  rcases act_or_rest hstep with ⟨i, a, c, m', c', rfl, hc, hacted, rfl⟩ | ⟨-, hrest⟩
  · refine ⟨hacted.lookup_of_open (haloft.key hc) htended.key, fun hx hpc => ?_⟩
    rcases getElem?_set_cases hx with ⟨-, rfl⟩ | ⟨-, hx⟩
    · exact hacted.isSome_flight (haloft.flight hc) (.inr hpc)
    · exact htended.flight hx hpc
  · refine ⟨fun hopen => ?_, fun hx hpc => ?_⟩
    · rw [hrest.flights]
      exact htended.key (hrest.heap ▸ hopen)
    · obtain ⟨c, hc, hrests, heq⟩ := hrest.calls.of_pc hx (by simp [hpc]) (by simp [hpc])
      rw [hrests.flight]
      exact htended.flight hc (heq ▸ hpc)

/-- Some refresh goes on, without giving up. -/
def GoesOn (w : World R) : Prop :=
  ∃ i a, a ≠ .giveUp ∧ a ≠ .sleep ∧ (step (.act i a) w).isSome = true

theorem goesOn_of_act {w : World R} {i : ℕ} {c : Call R} (hc : w.calls[i]? = some c) (a : Action)
    (h : a ≠ .giveUp ∧ a ≠ .sleep ∧ (act w.now w.manager c a).isSome = true) : GoesOn w :=
  ⟨i, a, by simpa [step, hc, Option.isSome_bind] using h⟩

theorem Aloft.goesOn {w : World R} (h : Aloft w) {i f : ℕ} {c : Call R}
    (hc : w.calls[i]? = some c) (hleads : c.Leads f) : GoesOn w := by
  have hfinish : ∀ {j : ℕ} {x : Call R}, w.calls[j]? = some x → x.running = true → GoesOn w := by
    intro j x hx hrunning
    obtain ⟨g, hg, hpc | ⟨t, hpc⟩⟩ := h.leads_of_running hx hrunning
    · simp [Call.running, hpc] at hrunning
    · exact goesOn_of_act hx (.finish zeroDocument none) (by simp [act, hpc, hg])
  rcases hleads.2 with hpc | ⟨t, hpc⟩
  · rcases Nat.lt_or_ge w.manager.workers maxWorkers with hfree | hfull
    · exact goesOn_of_act hc .acquire (by simp [act, hpc, hfree])
    · -- the workers are held by calls that run
      rw [h.workers] at hfull
      obtain ⟨x, hx, hrunning⟩ := List.countP_pos_iff.mp (Nat.lt_of_lt_of_le (by decide) hfull)
      obtain ⟨j, hj⟩ := List.getElem?_of_mem hx
      exact hfinish hj hrunning
  · exact hfinish hc (by rw [Call.running, hpc])

/-- The call has not returned. -/
def Pc.underWay : Pc → Bool
  | .returned | .sleeping _ | .woken | .panicked => false
  | _ => true

/-- **No deadlock.**  In every run, as long as a refresh is under way some refresh can go on, also
after runs that panicked and leaders that gave up: who waits for a flight without an outcome has a
leader, and a leader that cannot have a worker waits for runs. -/
theorem deadlock_free {store : Option Store} {secrets : Option Registry} {now : ℤ}
    {es : List (Event R)} {w : World R} (hrun : run step (World.new store secrets now) es = some w)
    {i : ℕ} {c : Call R} (hc : w.calls[i]? = some c) (hway : c.pc.underWay = true) :
    GoesOn w ∧
      (c.pc = .wait → ∃ f x, c.flight = some f ∧ w.manager.heap[f]? = some x ∧
        (x.outcome = none → ∃ (j : ℕ) (x : Call R), w.calls[j]? = some x ∧ x.Leads f)) ∧
      (c.pc = .acquire → (step (.act i .acquire) w).isSome = true ∨
        w.calls.countP Call.running = maxWorkers) := by
  have hnew : Tended (World.new store secrets now : World R) :=
    ⟨fun h => by simp [World.new, Manager.new] at h, fun h => by simp [World.new] at h⟩
  obtain ⟨⟨hsound, haloft⟩, htended⟩ :=
    invariant_run tended_step ⟨⟨sound_new .., aloft_new ..⟩, hnew⟩ hrun
  have hwait (hpc : c.pc = .wait) : ∃ f x, c.flight = some f ∧ w.manager.heap[f]? = some x ∧
      (x.outcome = none → ∃ (j : ℕ) (x : Call R), w.calls[j]? = some x ∧ x.Leads f) := by
    obtain ⟨f, hf⟩ := Option.isSome_iff_exists.mp (htended.flight hc hpc)
    obtain ⟨⟨outcome⟩, hheap⟩ : ∃ x, w.manager.heap[f]? = some x :=
      ⟨_, List.getElem?_eq_getElem ((hsound.calls i c hc).flight_lt f hf)⟩
    refine ⟨f, ⟨outcome⟩, hf, hheap, ?_⟩
    rintro rfl
    obtain ⟨key, hkey⟩ := htended.key hheap
    obtain ⟨j, x, hx, hleads, -⟩ := haloft.leader hkey
    exact ⟨j, x, hx, hleads⟩
  refine ⟨?_, hwait, fun hpc => ?_⟩
  · have hcons := (hsound.calls i c hc).consistent
    have hgo := goesOn_of_act hc
    cases hpc : c.pc with
    | enter => exact hgo .check (by simp [act, hpc])
    | join => exact hgo .join (by simp [act, hpc])
    | openCircuit => exact hgo .openCircuit (by simp [act, hpc])
    | commit => exact hgo (.commit true) (by simp [act, hpc])
    | record =>
      simp only [Call.Consistent, hpc] at hcons
      obtain ⟨o, ho⟩ := Option.isSome_iff_exists.mp hcons.1
      exact hgo (.record none) (by simp [act, hpc, ho])
    | wait =>
      obtain ⟨f, ⟨_ | o⟩, hf, hheap, hleader⟩ := hwait hpc
      · obtain ⟨j, x, hx, hleads⟩ := hleader rfl
        exact haloft.goesOn hx hleads
      · exact hgo .await (by simp [act, hpc, hf, hheap])
    | acquire | running =>
      obtain ⟨f, hf⟩ := Option.isSome_iff_exists.mp (haloft.flight hc (by rw [hpc]; rfl))
      exact haloft.goesOn hc ⟨hf, by simp [hpc]⟩
    | returned | sleeping | woken | panicked =>
      rw [hpc] at hway
      cases hway
  · -- the workers are held by calls that run
    rcases Nat.lt_or_ge w.manager.workers maxWorkers with hfree | hfull
    · exact .inl (by simp [step, act, hc, hpc, hfree])
    · exact .inr (haloft.workers ▸ le_antisymm haloft.workers_le hfull)

/-- A request that joined a flight, before the run panics. -/
theorem deadlock_free_panickedRun :
    ∃ w : World Unit, run step (World.new none none zeroTime) (panickedRun.take 10) = some w ∧
      GoesOn w := by
  have hend : ((run step (World.new none none zeroTime) (panickedRun.take 10)).any fun w =>
      (w.calls[2]?).any fun c => c.pc.underWay) = true := by decide +kernel
  simp only [Option.any_eq_true] at hend
  obtain ⟨w, hw, c, hc, hway⟩ := hend
  exact ⟨w, hw, (deadlock_free hw hc hway).1⟩

end Veduta.Scheduler
