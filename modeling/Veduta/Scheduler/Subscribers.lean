import Veduta.Scheduler.System

/-!
# Internal subscribers

The rule manager and the hub of the event streams subscribe to the commits of the scheduler when
the process starts, each with a channel of 32 events, and a goroutine of each receives from it.
A commit that finds a channel full closes it and drops the subscription; both goroutines take a
closed channel for the end of the process and return, and nothing subscribes again.
-/

namespace Veduta.Scheduler

open Go Lib State Storage Secrets

variable {R : Type}

/-- The internal subscribers. -/
inductive Consumer where
  | rules
  | hub

/-- The channel of a subscriber. -/
def Consumer.id : Consumer → ℕ
  | .rules => 0
  | .hub => 1

/-- The scheduler once both have subscribed. -/
def started (store : Option Store) (secrets : Option Registry) (now : ℤ) : World R :=
  let w : World R := .new store secrets now
  { w with manager :=
    { w.manager with
      subs := GoMap.ofList [(Consumer.rules.id, ⟨32, []⟩), (Consumer.hub.id, ⟨32, []⟩)] } }

/-- The subscriber is still there. -/
def Subscribed (id : ℕ) (w : World R) : Prop := (w.manager.subs.lookup id).isSome = true

instance (id : ℕ) (w : World R) : Decidable (Subscribed id w) :=
  inferInstanceAs (Decidable (_ = true))

/-- Neither the scheduler is closed nor the subscription ended by its owner. -/
def Open (id : ℕ) : Event R → Prop
  | .close => False
  | .unsubscribe k => k ≠ id
  | _ => True

/-- A commit succeeds: the state is valid, the definition is current, and the store accepts it. -/
def Succeeds (m : Manager R) (c : Call R) (cs : CardState) (history : GoMap Bytes ℚ)
    (stored : Bool) : Prop :=
  cs.validate = .ok () ∧ m.superseded c.d = false ∧
    ∀ s, m.store = some s → stored = true ∧ c.ctx = none ∧
      ∃ s', s.putCardWithSignals ⟨c.d.identity, cs⟩ history = .ok s'

/-- **No commit finds the channel of the subscriber full.** -/
def HasRoom (id : ℕ) (w : World R) (e : Event R) : Prop :=
  match e with
  | .act i (.commit stored) => ∀ c cs history sub, w.calls[i]? = some c →
    c.pc = .commit cs history → Succeeds w.manager c cs history stored →
    w.manager.subs.lookup id = some sub → sub.queue.length < sub.buffer
  | _ => True

/-! ## One commit -/

variable {w w' : World R} {e : Event R} {id : ℕ}

theorem subs_commit (m : Manager R) (c : Call R) (cs : CardState) (history : GoMap Bytes ℚ)
    (stored : Bool) :
    (¬Succeeds m c cs history stored ∧ (commit m c cs history stored).1.subs = m.subs) ∨
      (Succeeds m c cs history stored ∧ (commit m c cs history stored).1.subs =
        m.subs.filterMap fun _ => Manager.notify ⟨m.nextID + 1, cs⟩) := by
  unfold commit
  cases hvalid : cs.validate with
  | error message => exact .inl ⟨fun h => by simp [Succeeds, hvalid] at h, rfl⟩
  | ok _ =>
    cases hsup : m.superseded c.d with
    | true => exact .inl ⟨fun h => by simp [Succeeds, hsup] at h, rfl⟩
    | false =>
      cases hstore : m.store with
      | none =>
        refine .inr ⟨⟨hvalid, hsup, fun s hs => ?_⟩, rfl⟩
        cases hstore.symm.trans hs
      | some s =>
        rw [if_neg Bool.false_ne_true]
        split_ifs with hfail
        · refine .inl ⟨fun h => ?_, rfl⟩
          obtain ⟨hstored, hctx, -⟩ := h.2.2 s hstore
          simp [hstored, hctx] at hfail
        · cases hput : s.putCardWithSignals ⟨c.d.identity, cs⟩ history with
          | error e =>
            refine .inl ⟨fun h => ?_, by simp only [hput]⟩
            obtain ⟨-, -, s', hs'⟩ := h.2.2 s hstore
            cases hput.symm.trans hs'
          | ok s' =>
            refine .inr ⟨⟨hvalid, hsup, fun x hx => ?_⟩, by simp only [hput]; rfl⟩
            cases hstore.symm.trans hx
            have hok : stored = true ∧ c.ctx = none := by simpa using hfail
            exact ⟨hok.1, hok.2, s', hput⟩

/-- **A subscriber stays through an event** that does not end it exactly if the event is no
commit that finds its channel full. -/
theorem subscribed_of_step (hopen : Open id e) (hsub : Subscribed id w)
    (h : step e w = some w') : Subscribed id w' ↔ HasRoom id w e := by
  cases stepped_of_step h with
  | act hc hacted =>
    cases hacted with
    | commit hpc =>
      rename_i c cs history stored
      obtain ⟨sub, hlookup⟩ := Option.isSome_iff_exists.mp hsub
      rw [Subscribed]
      rcases subs_commit w.manager c cs history stored with
        ⟨hfails, heq⟩ | ⟨hsucceeds, heq⟩
      · rw [heq]
        refine iff_of_true hsub fun c₀ cs₀ history₀ sub₀ hc₀ hpc₀ hsucceeds _ => ?_
        cases hc.symm.trans hc₀
        cases hpc.symm.trans hpc₀
        exact absurd hsucceeds hfails
      · rw [heq, GoMap.lookup_filterMap, hlookup, Option.bind_some, Manager.notify]
        constructor
        · intro hsome c₀ cs₀ history₀ sub₀ _ _ _ hsub₀
          cases hlookup.symm.trans hsub₀
          by_contra hfull
          rw [if_neg hfull] at hsome
          cases hsome
        · intro hroom
          rw [if_pos (hroom c cs history sub hc hpc hsucceeds hlookup)]
          rfl
    | _ => exact iff_of_true hsub trivial
  | close => cases hopen
  | @subscribe k _ hk =>
    refine iff_of_true ?_ trivial
    have hne : id ≠ k := by
      rintro rfl
      cases hk.symm.trans hsub
    rw [Subscribed, AList.lookup_insert_ne hne]
    exact hsub
  | @receive k =>
    refine iff_of_true ?_ trivial
    by_cases hk : id = k
    · rw [Subscribed, hk, AList.lookup_insert]
      rfl
    · rw [Subscribed, AList.lookup_insert_ne hk]
      exact hsub
  | unsubscribe k =>
    refine iff_of_true ?_ trivial
    rw [Subscribed, AList.lookup_erase_ne hopen.symm]
    exact hsub
  | _ => exact iff_of_true hsub trivial

theorem subscribed_started (consumer : Consumer) (store : Option Store)
    (secrets : Option Registry) (now : ℤ) :
    Subscribed consumer.id (started store secrets now : World R) := by
  cases consumer with
  | rules | hub => exact rfl

/-- **A subscriber stays exactly as long as no commit finds its channel full**, in every
interleaving of commits with what the subscribers receive, as long as neither the scheduler nor
the subscriber is closed. -/
theorem subscribed_iff_hasRoom (consumer : Consumer) (store : Option Store)
    (secrets : Option Registry) (now : ℤ) (es : List (Event R))
    (hopen : ∀ e ∈ es, Open consumer.id e) :
    Along step (fun _ _ w' => Subscribed consumer.id w') (started store secrets now) es ↔
      Along step (fun w e _ => HasRoom consumer.id w e) (started store secrets now) es :=
  along_iff_of_mem (I := Subscribed consumer.id) subscribed_of_step (fun _ _ hnext => hnext) hopen
    (subscribed_started consumer store secrets now)

/-- A card that is disabled; every refresh of it commits that state. -/
def disabledCard : Definition Unit where
  id := ascii "a"
  key := []
  hash := []
  manifestDigest := []
  approvalRevision := []
  slotRevisions := []
  refresh := minute
  timeout := second
  source := Source.struct.zero
  run := none
  disabled := reasonConfigError
  historySignals := ∅
  generation := 0

/-- The card is applied and refreshed a number of times, and nobody receives what is committed. -/
def refreshes (n : ℕ) : List (Event Unit) :=
  [Event.apply [disabledCard], .read 0 true, .swap 0] ++
    (List.range n).flatMap fun i =>
      [.refresh (ascii "a"), .act (i + 1) .check, .act (i + 1) (.commit true)]

theorem open_refreshes (id n : ℕ) : ∀ e ∈ refreshes n, Open id e := by
  intro e he
  simp only [refreshes, List.mem_append, List.mem_cons, List.mem_flatMap, List.not_mem_nil,
    or_false] at he
  rcases he with (rfl | rfl | rfl) | ⟨i, -, rfl | rfl | rfl⟩ <;> trivial

/-- A refresh that leaves the rule manager subscribed has found room in its channel. -/
theorem subscribed_iff_hasRoom_refresh :
    (∀ e ∈ refreshes 1, Open Consumer.rules.id e) ∧
      Along step (fun w e _ => HasRoom Consumer.rules.id w e) (started none none zeroTime)
        (refreshes 1) :=
  ⟨open_refreshes _ 1,
    (subscribed_iff_hasRoom .rules none none zeroTime (refreshes 1) (open_refreshes _ 1)).mp
      (by decide +kernel)⟩

/-- While the rule manager evaluates and the hub publishes, thirty-three commits drop both. -/
theorem internal_subscribers_dropped :
    (∀ consumer : Consumer, ∀ e ∈ refreshes 33, Open consumer.id e) ∧
      ¬Along step (fun _ _ w' => Subscribed Consumer.rules.id w') (started none none zeroTime)
        (refreshes 33) ∧
      ¬Along step (fun _ _ w' => Subscribed Consumer.hub.id w') (started none none zeroTime)
        (refreshes 33) :=
  ⟨fun _ => open_refreshes _ 33, by decide +kernel, by decide +kernel⟩

/-! ## What a subscriber gets -/

/-- The event of a commit that goes through. -/
def committed (w : World R) : Event R → Option StateEvent
  | .act i (.commit stored) => (w.calls[i]?).bind fun c =>
    match c.pc with
    | .commit cs history =>
      if (commit w.manager c cs history stored).2.isNone then some ⟨w.manager.nextID + 1, cs⟩
      else none
    | _ => none
  | _ => none

/-- What the owner of a subscription takes from its channel. -/
def received (id : ℕ) (w : World R) : Event R → Option StateEvent
  | .receive k =>
    if k = id then (w.manager.subs.lookup id).bind fun sub => sub.queue.head? else none
  | _ => none

/-- What waits in the channel before a step, with what the step commits, is what the step takes from
the channel, with what waits afterwards, and is no more than the channel holds. -/
def Flows (id : ℕ) (w : World R) (e : Event R) (sub sub' : Subscription) : Prop :=
  sub.queue ++ (committed w e).toList = (received id w e).toList ++ sub'.queue ∧
    sub'.buffer = sub.buffer ∧ (sub.queue.length ≤ sub.buffer → sub'.queue.length ≤ sub.buffer)

theorem flows_step {sub sub' : Subscription} (hsub : w.manager.subs.lookup id = some sub)
    (hsub' : w'.manager.subs.lookup id = some sub') (hstep : step e w = some w') :
    Flows id w e sub sub' := by
  have hsame (hsubs : w'.manager.subs.lookup id = w.manager.subs.lookup id)
      (hcommitted : committed w e = none) (hreceived : received id w e = none) :
      Flows id w e sub sub' := by
    cases hsub.symm.trans (hsubs.symm.trans hsub')
    simp [Flows, hcommitted, hreceived]
  cases stepped_of_step hstep with
  | @act i c c' a m' hc hacted =>
    cases hacted with
    | commit hpc =>
      rename_i cs history stored
      -- both commits that go through publish
      have hpublish (hsubs : (commit w.manager c cs history stored).1.subs =
          w.manager.subs.filterMap fun _ => Manager.notify ⟨w.manager.nextID + 1, cs⟩)
          (hok : (commit w.manager c cs history stored).2 = none) :
          Flows id w (.act i (.commit stored)) sub sub' := by
        rw [hsubs, GoMap.lookup_filterMap, hsub, Option.bind_some, Manager.notify] at hsub'
        split_ifs at hsub' with hroom
        cases hsub'
        exact ⟨by simp [committed, received, hc, hpc, hok], rfl, fun _ => by simp; omega⟩
      rcases commit_cases w.manager c cs history stored with
        ⟨err, heq⟩ | ⟨-, ⟨-, heq⟩ | ⟨s, s', -, -, heq⟩⟩
      · exact hsame (by rw [heq]) (by simp [committed, hc, hpc, heq]) rfl
      · exact hpublish (by rw [heq]; rfl) (by rw [heq])
      · exact hpublish (by rw [heq]; rfl) (by rw [heq])
    | _ => exact hsame rfl rfl rfl
  | close => cases hsub'
  | @subscribe k _ hk =>
    have hne : id ≠ k := by
      rintro rfl
      simp [hsub] at hk
    exact hsame (AList.lookup_insert_ne hne) rfl rfl
  | @receive k old ev queue hold hqueue =>
    by_cases hk : id = k
    · subst hk
      cases hsub.symm.trans hold
      rw [AList.lookup_insert] at hsub'
      cases hsub'
      refine ⟨by simp [committed, received, hsub, hqueue], rfl, fun h => ?_⟩
      rw [hqueue] at h
      exact Nat.le_of_succ_le h
    · exact hsame (AList.lookup_insert_ne hk) rfl (if_neg (Ne.symm hk))
  | unsubscribe k =>
    exact hsame (AList.lookup_erase_ne (GoMap.lookup_of_erase hsub').1) rfl rfl
  | _ => exact hsame rfl rfl rfl

theorem flows_run {es : List (Event R)} {sub : Subscription}
    (hsub : w.manager.subs.lookup id = some sub) (hrun : run step w es = some w')
    (hstay : Along step (fun _ _ w' => Subscribed id w') w es) :
    ∃ sub', w'.manager.subs.lookup id = some sub' ∧ sub.queue ++ trace step committed w es =
      trace step (received id) w es ++ sub'.queue ∧
        (sub.queue.length ≤ sub.buffer → sub'.queue.length ≤ sub.buffer) := by
  induction es generalizing w sub with
  | nil =>
    cases hrun
    exact ⟨sub, hsub, by simp [trace], fun h => h⟩
  | cons e es ih =>
    obtain ⟨u, hu, hrun⟩ := run_cons hrun
    obtain ⟨hsubscribed, hstay⟩ := hstay u hu
    obtain ⟨mid, hmid⟩ := Option.isSome_iff_exists.mp hsubscribed
    obtain ⟨hflow, hbuffer, hroom⟩ := flows_step hsub hmid hu
    obtain ⟨sub', hsub', hrest, hroom'⟩ := ih hmid hrun hstay
    refine ⟨sub', hsub', ?_, fun h => hbuffer ▸ hroom' (hbuffer.symm ▸ hroom h)⟩
    simp only [trace, hu]
    rw [← List.append_assoc, hflow, List.append_assoc, hrest, List.append_assoc]

/-- **A subscriber misses nothing as long as it is there**: from its subscription on, what it has
received, with what waits in its channel, is what was committed, in order, and no more waits than
the channel holds. -/
theorem channel_gap_free {buffer : ℕ} {es : List (Event R)} {w₁ : World R}
    (hsub : step (.subscribe id buffer) w = some w₁) (hrun : run step w₁ es = some w')
    (hstay : Along step (fun _ _ w' => Subscribed id w') w₁ es) :
    ∃ sub, w'.manager.subs.lookup id = some sub ∧
      trace step (received id) w₁ es ++ sub.queue = trace step committed w₁ es ∧
        sub.queue.length ≤ max buffer 1 := by
  have hnew : w₁.manager.subs.lookup id = some ⟨max buffer 1, []⟩ := by
    cases stepped_of_step hsub with
    | subscribe => exact AList.lookup_insert _
  obtain ⟨sub, hlookup, hflow, hroom⟩ := flows_run hnew hrun hstay
  exact ⟨sub, hlookup, by simpa using hflow.symm, hroom (Nat.zero_le _)⟩

/-- A subscriber that has received the first of two events waits for the second. -/
theorem channel_gap_free_refreshes :
    ∃ (w w' : World Unit) (sub : Subscription),
      step (.subscribe 0 2) (World.new none none zeroTime) = some w ∧
        run step w (refreshes 2 ++ [Event.receive 0]) = some w' ∧
        trace step (received 0) w (refreshes 2 ++ [Event.receive 0]) ++ sub.queue =
          trace step committed w (refreshes 2 ++ [Event.receive 0]) ∧ sub.queue.length = 1 := by
  have hend : ((step (.subscribe 0 2) (World.new none none zeroTime : World Unit)).any fun w =>
      (run step w (refreshes 2 ++ [Event.receive 0])).any fun w' =>
        decide (Along step (fun _ _ w' => Subscribed 0 w') w (refreshes 2 ++ [Event.receive 0])) &&
          (w'.manager.subs.lookup 0).any fun sub => sub.queue.length == 1) = true := by
    decide +kernel
  simp only [Option.any_eq_true, Bool.and_eq_true, decide_eq_true_eq, beq_iff_eq] at hend
  obtain ⟨w, hw, w', hrun, hstay, sub, hsub, hlength⟩ := hend
  obtain ⟨sub', hsub', hflow, -⟩ := channel_gap_free hw hrun hstay
  cases hsub.symm.trans hsub'
  exact ⟨w, w', sub, hw, hrun, hflow, hlength⟩

end Veduta.Scheduler
