import Veduta.Lib.Transition
import Veduta.Scheduler.Refresh

/-!
# The scheduler as a system

Any number of refreshes and calls of `Apply` interleave on one manager.  An event is one atomic
step: an action of a refresh, a step of an `Apply`, which reads the rows of its definitions one
by one before it takes the lock, or something from outside, such as a request or the passing of
time.  Only an action of a refresh, the deletion of a row and the swap of an `Apply` touch what
the manager knows about cards.
-/

namespace Veduta.Scheduler

open Go Widgets Secrets State Storage Lib

variable {R : Type}

/-! ## Events -/

/-- Where an `Apply` stands: reading rows, about to delete one, or over. -/
inductive Phase where
  | reading
  | deleting (id : Bytes)
  | applied
  | failed (e : ApplyError)

/-- A call of `Apply`: the definitions still to prepare, and the maps so far. -/
structure Applying (R : Type) where
  todo : List (Definition R)
  prepared : Prepared R
  phase : Phase

structure World (R : Type) where
  manager : Manager R
  now : ℤ
  calls : List (Call R)
  applies : List (Applying R)

def World.new (store : Option Store) (secrets : Option Registry) (now : ℤ) : World R :=
  ⟨.new store secrets, now, [], []⟩

inductive Event (R : Type) where
  | tick (duration : ℕ)
  | refresh (id : Bytes)
  | refreshNow (id : Bytes)
  | cancel (call : ℕ) (deadline : Bool)
  | wake (call : ℕ)
  | act (call : ℕ) (a : Action)
  | apply (defs : List (Definition R))
  | read (apply : ℕ) (readable : Bool)
  | delete (apply : ℕ) (deletable : Bool)
  | swap (apply : ℕ)
  | close
  | subscribe (id buffer : ℕ)
  | receive (id : ℕ)
  | unsubscribe (id : ℕ)

/-- The error of a context that is done. -/
def contextErr (deadline : Bool) : RunErr :=
  if deadline then ⟨.deadlineExceeded, ascii "context deadline exceeded"⟩
  else ⟨.canceled, ascii "context canceled"⟩

/-- The loops of the last `Apply` share a context. -/
def Call.cancelled (c : Call R) : Call R :=
  if c.scheduled ∧ c.ctx = none then { c with ctx := some (contextErr false) } else c

namespace Applying

/-- Reading the row of the next definition. -/
def read (secrets : Option Registry) (now : ℤ) (store : Option Store) (a : Applying R)
    (d : Definition R) (todo : List (Definition R)) (readable : Bool) : Applying R :=
  match a.prepared.accept d.withDefaults with
  | .error e => { a with phase := .failed e }
  | .ok p =>
    match store with
    | none => ⟨todo, p, .reading⟩
    | some s =>
      if readable then
        match s.cards.lookup d.id with
        | none => ⟨todo, p, .reading⟩
        | some row =>
          if row.identity.mismatches d.identity then ⟨todo, p, .deleting d.id⟩
          else
            match row.read with
            | .error e => { a with phase := .failed (.get e) }
            | .ok cs => ⟨todo, p.found secrets now d (some cs), .reading⟩
      else { a with phase := .failed .storage }

end Applying

/-- The row of a card is gone. -/
def Manager.deleteRow (m : Manager R) (id : Bytes) : Manager R :=
  { m with store := m.store.map fun s => { s with cards := s.cards.erase id } }

namespace World

def start (w : World R) (d : Definition R) (scheduled : Bool) (ctx : Option RunErr) : World R :=
  { w with calls := w.calls ++ [Call.start d scheduled ctx] }

def setCall (w : World R) (i : ℕ) (c : Call R) : World R := { w with calls := w.calls.set i c }

def setApply (w : World R) (i : ℕ) (a : Applying R) : World R :=
  { w with applies := w.applies.set i a }

/-- The swap cancels the old loops and starts the new ones. -/
def swap (w : World R) (p : Prepared R) : World R :=
  let m := w.manager.swap p
  { w with
    manager := m
    calls := w.calls.map Call.cancelled ++
      m.defs.entries.map fun x => Call.start x.2 true none }

end World

/-- `RefreshNow` is refused within a second of the last one. -/
def rateLimited (now : ℤ) (m : Manager R) (id : Bytes) : Bool :=
  let last := m.manualAt.get zeroTime id
  last ≠ zeroTime && now - last < second

/-- The world after an event, or `none` if it cannot happen. -/
def step (e : Event R) (w : World R) : Option (World R) :=
  match e with
  | .tick duration => some { w with now := w.now + duration }
  | .refresh id =>
    match w.manager.defs.lookup id with
    | none => some w
    | some d => some (w.start d false none)
  | .refreshNow id =>
    match w.manager.defs.lookup id with
    | none => some w
    | some d =>
      if rateLimited w.now w.manager id then some w
      else
        some ({ w with manager :=
          { w.manager with manualAt := w.manager.manualAt.insert id w.now } }.start d false none)
  | .cancel i deadline => do
    let c ← w.calls[i]?
    if c.scheduled ∨ c.ctx.isSome then none
    else some (w.setCall i { c with ctx := some (contextErr deadline) })
  | .wake i => do
    let c ← w.calls[i]?
    match c.pc with
    | .sleeping t =>
      if t ≤ w.now then some ((w.setCall i { c with pc := .woken }).start c.d true c.ctx) else none
    | _ => none
  | .act i a => do
    let c ← w.calls[i]?
    let (m, c) ← act w.now w.manager c a
    some { w.setCall i c with manager := m }
  | .apply defs => some { w with applies := w.applies ++ [⟨defs, .empty, .reading⟩] }
  | .read i readable => do
    let a ← w.applies[i]?
    match a.phase, a.todo with
    | .reading, d :: todo =>
      some (w.setApply i (a.read w.manager.secrets w.now w.manager.store d todo readable))
    | _, _ => none
  | .delete i deletable => do
    let a ← w.applies[i]?
    match a.phase with
    | .deleting id =>
      if deletable then
        some { w.setApply i { a with phase := .reading } with manager := w.manager.deleteRow id }
      else some (w.setApply i { a with phase := .failed .storage })
    | _ => none
  | .swap i => do
    let a ← w.applies[i]?
    match a.phase, a.todo with
    | .reading, [] => some ((w.setApply i { a with phase := .applied }).swap a.prepared)
    | _, _ => none
  | .close =>
    some { w with
      manager := { w.manager with subs := ∅ }
      calls := w.calls.map Call.cancelled }
  | .subscribe id buffer =>
    if (w.manager.subs.lookup id).isSome then none
    else
      some { w with manager :=
        { w.manager with subs := w.manager.subs.insert id ⟨max buffer 1, []⟩ } }
  | .receive id => do
    let sub ← w.manager.subs.lookup id
    match sub.queue with
    | [] => none
    | _ :: queue =>
      some { w with manager :=
        { w.manager with subs := w.manager.subs.insert id { sub with queue } } }
  | .unsubscribe id =>
    some { w with manager := { w.manager with subs := w.manager.subs.erase id } }

/-! ## What a step can do -/

/-- The events, each with what it needs and what it leaves. -/
inductive Stepped (w : World R) : Event R → World R → Prop
  | tick (duration : ℕ) : Stepped w (.tick duration) { w with now := w.now + duration }
  | refreshUnknown {id : Bytes} (hid : w.manager.defs.lookup id = none) : Stepped w (.refresh id) w
  | refresh {id : Bytes} {d : Definition R} (hid : w.manager.defs.lookup id = some d) :
      Stepped w (.refresh id) (w.start d false none)
  | refreshNowUnknown {id : Bytes} (hid : w.manager.defs.lookup id = none) :
      Stepped w (.refreshNow id) w
  | refreshNowLimited {id : Bytes} (hlimited : rateLimited w.now w.manager id = true) :
      Stepped w (.refreshNow id) w
  | refreshNow {id : Bytes} {d : Definition R} (hid : w.manager.defs.lookup id = some d) :
      Stepped w (.refreshNow id)
        ({ w with manager :=
          { w.manager with manualAt := w.manager.manualAt.insert id w.now } }.start d false none)
  | cancel {i : ℕ} {c : Call R} {deadline : Bool} (hc : w.calls[i]? = some c)
      (hcall : c.scheduled = false) (hctx : c.ctx = none) :
      Stepped w (.cancel i deadline) (w.setCall i { c with ctx := some (contextErr deadline) })
  | wake {i : ℕ} {c : Call R} {t : ℤ} (hc : w.calls[i]? = some c) (hpc : c.pc = .sleeping t)
      (hdue : t ≤ w.now) :
      Stepped w (.wake i) ((w.setCall i { c with pc := .woken }).start c.d true c.ctx)
  | act {i : ℕ} {c c' : Call R} {a : Action} {m' : Manager R} (hc : w.calls[i]? = some c)
      (hacted : Acted w.now w.manager c a m' c') :
      Stepped w (.act i a) { w with manager := m', calls := w.calls.set i c' }
  | apply (defs : List (Definition R)) :
      Stepped w (.apply defs) { w with applies := w.applies ++ [⟨defs, .empty, .reading⟩] }
  | read {i : ℕ} {a : Applying R} {d : Definition R} {todo : List (Definition R)} {readable : Bool}
      (ha : w.applies[i]? = some a) (hphase : a.phase = .reading) (htodo : a.todo = d :: todo) :
      Stepped w (.read i readable)
        (w.setApply i (a.read w.manager.secrets w.now w.manager.store d todo readable))
  | delete {i : ℕ} {a : Applying R} {id : Bytes} (ha : w.applies[i]? = some a)
      (hphase : a.phase = .deleting id) :
      Stepped w (.delete i true)
        { w.setApply i { a with phase := .reading } with manager := w.manager.deleteRow id }
  | deleteFailed {i : ℕ} {a : Applying R} {id : Bytes} (ha : w.applies[i]? = some a)
      (hphase : a.phase = .deleting id) :
      Stepped w (.delete i false) (w.setApply i { a with phase := .failed .storage })
  | swap {i : ℕ} {a : Applying R} (ha : w.applies[i]? = some a) (hphase : a.phase = .reading)
      (htodo : a.todo = []) :
      Stepped w (.swap i) ((w.setApply i { a with phase := .applied }).swap a.prepared)
  | close :
      Stepped w .close { w with
        manager := { w.manager with subs := ∅ }
        calls := w.calls.map Call.cancelled }
  | subscribe {id buffer : ℕ} (hid : (w.manager.subs.lookup id).isSome = false) :
      Stepped w (.subscribe id buffer) { w with manager :=
        { w.manager with subs := w.manager.subs.insert id ⟨max buffer 1, []⟩ } }
  | receive {id : ℕ} {sub : Subscription} {ev : StateEvent} {queue : List StateEvent}
      (hid : w.manager.subs.lookup id = some sub) (hqueue : sub.queue = ev :: queue) :
      Stepped w (.receive id) { w with manager :=
        { w.manager with subs := w.manager.subs.insert id { sub with queue } } }
  | unsubscribe (id : ℕ) :
      Stepped w (.unsubscribe id) { w with manager :=
        { w.manager with subs := w.manager.subs.erase id } }

variable {w w' : World R} {e : Event R}

/-- **What a step can do.** -/
theorem stepped_of_step (h : step e w = some w') : Stepped w e w' := by
  cases e with
  | tick duration =>
    cases h
    exact .tick duration
  | refresh id =>
    simp only [step] at h
    split at h
    · cases h
      exact .refreshUnknown ‹_›
    · cases h
      exact .refresh ‹_›
  | refreshNow id =>
    simp only [step] at h
    split at h
    · cases h
      exact .refreshNowUnknown ‹_›
    · split_ifs at h with hlimited
      · cases h
        exact .refreshNowLimited hlimited
      · cases h
        exact .refreshNow ‹_›
  | cancel i deadline =>
    obtain ⟨c, hc, h⟩ := Option.bind_eq_some_iff.mp h
    split_ifs at h with hdone
    cases h
    rw [not_or] at hdone
    exact .cancel hc (Bool.eq_false_iff.mpr hdone.1) (by simpa using hdone.2)
  | wake i =>
    obtain ⟨c, hc, h⟩ := Option.bind_eq_some_iff.mp h
    split at h
    · split_ifs at h with hdue
      cases h
      exact .wake hc ‹_› hdue
    · cases h
  | act i a =>
    obtain ⟨c, hc, h⟩ := Option.bind_eq_some_iff.mp h
    obtain ⟨⟨m', c'⟩, hact, heq⟩ := Option.bind_eq_some_iff.mp h
    cases heq
    exact .act hc (acted_of_act hact)
  | apply defs =>
    cases h
    exact .apply defs
  | read i readable =>
    obtain ⟨a, ha, h⟩ := Option.bind_eq_some_iff.mp h
    split at h
    · cases h
      exact .read ha ‹_› ‹_›
    · cases h
  | delete i deletable =>
    obtain ⟨a, ha, h⟩ := Option.bind_eq_some_iff.mp h
    split at h
    · cases deletable with
      | true =>
        cases h
        exact .delete ha ‹_›
      | false =>
        cases h
        exact .deleteFailed ha ‹_›
    · cases h
  | swap i =>
    obtain ⟨a, ha, h⟩ := Option.bind_eq_some_iff.mp h
    split at h
    · cases h
      exact .swap ha ‹_› ‹_›
    · cases h
  | close =>
    cases h
    exact .close
  | subscribe id buffer =>
    simp only [step] at h
    split_ifs at h with hid
    cases h
    exact .subscribe (Bool.eq_false_iff.mpr hid)
  | receive id =>
    obtain ⟨sub, hid, h⟩ := Option.bind_eq_some_iff.mp h
    split at h
    · cases h
    · cases h
      exact .receive hid ‹_›
  | unsubscribe id =>
    cases h
    exact .unsubscribe id

theorem step_act {i : ℕ} {a : Action} (h : step (.act i a) w = some w') :
    ∃ c m' c', w.calls[i]? = some c ∧ Acted w.now w.manager c a m' c' ∧
      w' = { w with manager := m', calls := w.calls.set i c' } := by
  cases stepped_of_step h with
  | act hc hacted => exact ⟨_, _, _, hc, hacted, rfl⟩

/-- What an event that is no action of the call leaves of it. -/
structure Rests (c c' : Call R) : Prop where
  d : c'.d = c.d
  scheduled : c'.scheduled = c.scheduled
  flight : c'.flight = c.flight
  outcome : c'.outcome = c.outcome
  result : c'.result = c.result
  pc : c'.pc = c.pc ∨ (∃ t, c.pc = .sleeping t) ∧ c'.pc = .woken

theorem Rests.refl (c : Call R) : Rests c c := ⟨rfl, rfl, rfl, rfl, rfl, .inl rfl⟩

theorem rests_cancelled (c : Call R) : Rests c c.cancelled := by
  rw [Call.cancelled]
  split_ifs
  · exact ⟨rfl, rfl, rfl, rfl, rfl, .inl rfl⟩
  · exact .refl c

/-- The calls of a world go on in another: the old ones rest, and the new ones start. -/
structure Goes (calls calls' : List (Call R)) : Prop where
  old : ∀ {i : ℕ} {c : Call R}, calls[i]? = some c → ∃ c', calls'[i]? = some c' ∧ Rests c c'
  new : ∀ {i : ℕ} {c' : Call R}, calls'[i]? = some c' →
    (∃ c, calls[i]? = some c ∧ Rests c c') ∨
      calls.length ≤ i ∧ ∃ d scheduled ctx, c' = .start d scheduled ctx

section

variable {calls : List (Call R)}
variable {new : List (Call R)} {i : ℕ} {c c' : Call R}

theorem goes_append {f : ℕ → Call R → Call R} {calls' : List (Call R)}
    (hget : ∀ i, calls'[i]? = calls[i]?.map (f i))
    (hf : ∀ i c, calls[i]? = some c → Rests c (f i c))
    (hnew : ∀ c ∈ new, ∃ d scheduled ctx, c = .start d scheduled ctx) :
    Goes calls (calls' ++ new) := by
  have hlen : calls'.length = calls.length := by
    apply Nat.le_antisymm
    · rw [← List.getElem?_eq_none_iff, hget, Option.map_eq_none_iff, List.getElem?_eq_none_iff]
    · rw [← List.getElem?_eq_none_iff, ← Option.map_eq_none_iff (f := f calls'.length), ← hget,
        List.getElem?_eq_none_iff]
  constructor
  · intro i c hc
    have hlt : i < calls'.length := hlen ▸ (List.getElem?_eq_some_iff.mp hc).1
    exact ⟨f i c, by rw [List.getElem?_append_left hlt, hget, hc]; rfl, hf i c hc⟩
  · intro i c' hc'
    rcases Nat.lt_or_ge i calls'.length with hlt | hge
    · rw [List.getElem?_append_left hlt, hget] at hc'
      obtain ⟨c, hc, rfl⟩ := Option.map_eq_some_iff.mp hc'
      exact .inl ⟨c, hc, hf i c hc⟩
    · rw [List.getElem?_append_right hge] at hc'
      exact .inr ⟨hlen ▸ hge, hnew c' (List.mem_of_getElem? hc')⟩

theorem Goes.of_pc {calls' : List (Call R)} (h : Goes calls calls') (hc : calls'[i]? = some c')
    (henter : c'.pc ≠ .enter) (hwoken : c'.pc ≠ .woken) :
    ∃ c, calls[i]? = some c ∧ Rests c c' ∧ c'.pc = c.pc := by
  rcases h.new hc with ⟨c, hc, hrests⟩ | ⟨-, d, scheduled, ctx, rfl⟩
  · exact ⟨c, hc, hrests, hrests.pc.resolve_right fun h => hwoken h.2⟩
  · exact absurd rfl henter

theorem goes_refl : Goes calls calls := by
  have h : Goes calls (calls ++ []) :=
    goes_append (f := fun _ c => c) (fun i => by simp) (fun _ c _ => .refl c) (by simp)
  simpa using h

theorem goes_start (d : Definition R) (scheduled : Bool) (ctx : Option RunErr) :
    Goes calls (calls ++ [Call.start d scheduled ctx]) :=
  goes_append (f := fun _ c => c) (fun i => by simp) (fun _ c _ => .refl c)
    (by simp only [List.mem_singleton]; rintro c rfl; exact ⟨d, scheduled, ctx, rfl⟩)

theorem getElem?_set_of_rests (hc : calls[i]? = some c) (j : ℕ) :
    (calls.set i c')[j]? = calls[j]?.map fun x => if j = i then c' else x := by
  rw [List.getElem?_set]
  by_cases hj : i = j
  · subst hj
    rw [hc]
    simp [(List.getElem?_eq_some_iff.mp hc).1]
  · simp [hj, Ne.symm hj]

theorem goes_set_append (hc : calls[i]? = some c) (hrests : Rests c c')
    (hnew : ∀ c ∈ new, ∃ d scheduled ctx, c = .start d scheduled ctx) :
    Goes calls (calls.set i c' ++ new) := by
  refine goes_append (f := fun j x => if j = i then c' else x) (getElem?_set_of_rests hc) ?_ hnew
  intro j x hx
  by_cases hj : j = i
  · subst hj
    cases hc.symm.trans hx
    simpa using hrests
  · simpa [hj] using Rests.refl x

theorem goes_set (hc : calls[i]? = some c) (hrests : Rests c c') : Goes calls (calls.set i c') := by
  have h : Goes calls (calls.set i c' ++ []) := goes_set_append hc hrests (by simp)
  simpa using h

theorem goes_cancelled_append (hnew : ∀ c ∈ new, ∃ d scheduled ctx, c = .start d scheduled ctx) :
    Goes calls (calls.map Call.cancelled ++ new) :=
  goes_append (f := fun _ c => c.cancelled) (fun i => by simp) (fun _ c _ => rests_cancelled c) hnew

end

/-- What an event that is no action leaves of the flights, and of the cards unless it is a swap. -/
structure Rest (w w' : World R) : Prop where
  calls : Goes w.calls w'.calls
  heap : w'.manager.heap = w.manager.heap
  flights : w'.manager.flights = w.manager.flights
  secrets : w'.manager.secrets = w.manager.secrets
  store : w'.manager.store.isSome = w.manager.store.isSome
  defs : w'.manager.defs = w.manager.defs ∧ w'.manager.generation = w.manager.generation ∨
    ∃ p, w'.manager = w.manager.swap p

/-- **The other events** leave the flights and the calls as they are. -/
theorem rest_of_step (h : step e w = some w') (hact : ∀ i a, e ≠ .act i a) : Rest w w' := by
  cases stepped_of_step h with
  | act hc hacted => exact absurd rfl (hact _ _)
  | refresh | refreshNow => exact ⟨goes_start _ _ _, rfl, rfl, rfl, rfl, .inl ⟨rfl, rfl⟩⟩
  | cancel hc hcall hctx =>
    exact ⟨goes_set hc ⟨rfl, rfl, rfl, rfl, rfl, .inl rfl⟩, rfl, rfl, rfl, rfl, .inl ⟨rfl, rfl⟩⟩
  | wake hc hpc hdue =>
    refine ⟨goes_set_append hc ⟨rfl, rfl, rfl, rfl, rfl, .inr ⟨⟨_, hpc⟩, rfl⟩⟩ ?_, rfl, rfl, rfl,
      rfl, .inl ⟨rfl, rfl⟩⟩
    intro c' hc'
    rw [List.mem_singleton] at hc'
    exact ⟨_, _, _, hc'⟩
  | delete ha hphase => exact ⟨goes_refl, rfl, rfl, rfl, Option.isSome_map, .inl ⟨rfl, rfl⟩⟩
  | swap ha hphase htodo =>
    refine ⟨goes_cancelled_append ?_, rfl, rfl, rfl, rfl, .inr ⟨_, rfl⟩⟩
    intro c hc
    obtain ⟨x, _, rfl⟩ := List.mem_map.mp hc
    exact ⟨_, _, _, rfl⟩
  | close =>
    refine ⟨?_, rfl, rfl, rfl, rfl, .inl ⟨rfl, rfl⟩⟩
    have hgoes : Goes w.calls (w.calls.map Call.cancelled ++ []) :=
      goes_cancelled_append (by simp)
    simpa using hgoes
  | _ => exact ⟨goes_refl, rfl, rfl, rfl, rfl, .inl ⟨rfl, rfl⟩⟩

/-- A step is an action of a call, or one of the others. -/
theorem act_or_rest (h : step e w = some w') :
    (∃ i a c m' c', e = .act i a ∧ w.calls[i]? = some c ∧ Acted w.now w.manager c a m' c' ∧
      w' = { w with manager := m', calls := w.calls.set i c' }) ∨
      (∀ i a, e ≠ .act i a) ∧ Rest w w' := by
  by_cases hact : ∃ i a, e = .act i a
  · obtain ⟨i, a, rfl⟩ := hact
    obtain ⟨c, m', c', hc, hacted, rfl⟩ := step_act h
    exact .inl ⟨i, a, c, m', c', rfl, hc, hacted, rfl⟩
  · have hother : ∀ i a, e ≠ .act i a := fun i a heq => hact ⟨i, a, heq⟩
    exact .inr ⟨hother, rest_of_step h hother⟩

/-- What an event that is neither an action nor a swap leaves of the manager: all but the times
of requests, the channels and the rows. -/
theorem manager_of_step (h : step e w = some w') (hact : ∀ i a, e ≠ .act i a)
    (hswap : ∀ i, e ≠ .swap i) :
    ∃ store manualAt subs, w'.manager =
      { w.manager with store := store, manualAt := manualAt, subs := subs } := by
  cases stepped_of_step h with
  | act hc hacted => exact absurd rfl (hact _ _)
  | swap ha hphase htodo => exact absurd rfl (hswap _)
  | _ => exact ⟨_, _, _, rfl⟩

theorem Acted.states {now : ℤ} {m m' : Manager R} {c c' : Call R} {a : Action}
    (h : Acted now m c a m' c') (ha : ∀ stored, a ≠ .commit stored) :
    m'.states = m.states ∧ m'.subs = m.subs := by
  cases h with
  | commit hpc => exact absurd rfl (ha _)
  | _ => exact ⟨rfl, rfl⟩

end Veduta.Scheduler
