import Veduta.Go.JsonBack
import Veduta.Scheduler.Breaker

/-!
# The breaker over a reload

`Apply` does not keep the counters of the breaker: it reads them back from the state of each card
in the store.  So a card goes on where it was only if its last state tells them.  The state of an
open circuit without a document does not: it has no count, and a reload starts from zero.
-/

namespace Veduta.Scheduler

open Go Widgets Secrets State Storage Lib

variable {R : Type}
variable {cs cs' : CardState}

/-- The failures in a row of a card, and when its circuit closes again. -/
def Manager.counters (m : Manager R) (id : Bytes) : ℤ × ℤ := (m.failureCount id, m.circuitOpen id)

/-- The counters that an `Apply` has prepared for a card. -/
def Prepared.counters (p : Prepared R) (id : Bytes) : ℤ × ℤ :=
  (p.failures.get 0 id, p.openUntil.get zeroTime id)

/-- The counters of a state that is read back. -/
def told (cs : CardState) : ℤ × ℤ :=
  (cs.execution.consecutiveFailures, parseTime cs.execution.circuitOpenUntil)

/-- The counters that an `Apply` takes from a row; none if it fails on it. -/
def countersOf (secrets : Option Registry) (expected : Identity) (row : Row) : Option (ℤ × ℤ) :=
  if row.identity.mismatches expected then some (0, zeroTime)
  else
    match row.read with
    | .error _ => none
    | .ok cs =>
      if Manager.documentLeaksSecret secrets cs.document then some (0, zeroTime)
      else some (told cs)

/-- The state of the card tells the counters. -/
structure Tells (cs : CardState) (id : Bytes) (x : ℤ × ℤ) : Prop where
  cardID : cs.cardID = id
  count : cs.execution.consecutiveFailures = x.1
  circuit : cs.execution.circuitOpenUntil = [] ∧ x.2 = zeroTime ∨
    cs.execution.circuitOpenUntil = formatTime x.2 ∧ representable x.2 = true

theorem sanitize_names {S : Type} {σ : Struct S}
    (h : (σ.fields.map StructField.name).all (fun n => decide (sanitize n = n)) = true) :
    ∀ f ∈ σ.fields, sanitize f.name = f.name := by
  intro f hf
  rw [List.all_eq_true] at h
  exact of_decide_eq_true (h f.name (List.mem_map_of_mem hf))

theorem execution_of_unmarshal (h : CardState.unmarshal cs.marshal = some cs') :
    Execution.struct.codec.decode Execution.struct.zero
      (Execution.struct.codec.encode cs.execution).text = some cs'.execution := by
  obtain ⟨out, hread, hdec⟩ := Option.bind_eq_some_iff.mp h
  cases eq_text_of_unmarshalText hread
  exact Struct.get_of_text (sanitize_names (by decide +kernel)) hdec
    (List.getElem_mem (l := CardState.struct.fields) (n := 2) (by decide))

theorem consecutiveFailures_of_unmarshal (h : CardState.unmarshal cs.marshal = some cs')
    (hnonneg : 0 ≤ cs.execution.consecutiveFailures)
    (hlt : cs.execution.consecutiveFailures < 2 ^ 52) :
    cs'.execution.consecutiveFailures = cs.execution.consecutiveFailures := by
  have hfield := Struct.get_of_text (sanitize_names (by decide +kernel)) (execution_of_unmarshal h)
    (List.getElem_mem (l := Execution.struct.fields) (n := 6) (by decide))
  change if decide (cs.execution.consecutiveFailures = 0) = true then
      cs'.execution.consecutiveFailures = 0
    else Codec.readInt (formatFloat64 cs.execution.consecutiveFailures) =
      some cs'.execution.consecutiveFailures at hfield
  split_ifs at hfield with hzero
  · rw [hfield, of_decide_eq_true hzero]
  · obtain ⟨n, hn⟩ := Int.eq_ofNat_of_zero_le hnonneg
    rw [hn] at hfield hlt ⊢
    rw [Int.cast_natCast, readInt_formatFloat64 (by exact_mod_cast hlt)] at hfield
    exact (Option.some.inj hfield).symm

theorem circuitOpenUntil_of_unmarshal (h : CardState.unmarshal cs.marshal = some cs') :
    cs'.execution.circuitOpenUntil = sanitize cs.execution.circuitOpenUntil := by
  have hfield := Struct.get_of_text (sanitize_names (by decide +kernel)) (execution_of_unmarshal h)
    (List.getElem_mem (l := Execution.struct.fields) (n := 11) (by decide))
  change if decide (cs.execution.circuitOpenUntil = []) = true then
      cs'.execution.circuitOpenUntil = []
    else some (sanitize cs.execution.circuitOpenUntil) =
      some cs'.execution.circuitOpenUntil at hfield
  split_ifs at hfield with hempty
  · rw [hfield, of_decide_eq_true hempty]
    rfl
  · exact (Option.some.inj hfield).symm

theorem unmarshal_of_read {row : Row} (h : row.read = .ok cs) :
    CardState.unmarshal row.envelope = some cs := by
  rw [Row.read] at h
  split at h
  · cases h
  · rename_i out hout
    split at h
    · cases h
    · cases h
      exact hout

/-- The count can be read back. -/
def countable (cs : CardState) : Bool :=
  decide (0 ≤ cs.execution.consecutiveFailures ∧ cs.execution.consecutiveFailures < 2 ^ 52)

/-- The document of the state, once it is read back, leaks no secret. -/
def restorable (secrets : Option Registry) (cs : CardState) : Bool :=
  (CardState.unmarshal cs.marshal).all fun cs' =>
    !Manager.documentLeaksSecret secrets cs'.document

/-- **A row that tells the counters gives them back.** -/
theorem countersOf_commit {id : Bytes} {x y : ℤ × ℤ} (h : Tells cs id x)
    (hcount : countable cs = true) {secrets : Option Registry}
    (hleaks : restorable secrets cs = true) {expected : Identity} {row : Row}
    (henvelope : row.envelope = cs.marshal) (hidentity : row.identity = expected)
    (hy : countersOf secrets expected row = some y) : y = x := by
  have hmatch : row.identity.mismatches expected = false := by
    rw [hidentity, mismatches_eq_false]
    exact ⟨rfl, .inr rfl, .inr rfl, .inr rfl⟩
  rw [countersOf, hmatch, if_neg Bool.false_ne_true] at hy
  split at hy
  · cases hy
  · rename_i cs' hread
    have hback := unmarshal_of_read hread
    rw [henvelope] at hback
    rw [restorable, hback, Option.all_some, Bool.not_eq_true'] at hleaks
    rw [hleaks, if_neg Bool.false_ne_true] at hy
    cases hy
    rw [countable, decide_eq_true_eq] at hcount
    have hopen : parseTime cs'.execution.circuitOpenUntil = x.2 := by
      rw [circuitOpenUntil_of_unmarshal hback]
      rcases h.circuit with ⟨hnil, hzero⟩ | ⟨htext, hrep⟩
      · rw [hnil, hzero]
        rfl
      · rw [htext, sanitize_formatTime]
        exact parseTime_of_representable hrep
    rw [told, hopen, consecutiveFailures_of_unmarshal hback hcount.1 hcount.2, h.count]

/-! ## What an `Apply` finds -/

section

variable (secrets : Option Registry) (now : ℤ) {store store' : Option Store} {p p' : Prepared R}
  {d : Definition R} {id : Bytes}

/-- A card that is not prepared yet has no counters. -/
def Blank (p : Prepared R) (id : Bytes) : Prop :=
  p.failures.lookup id = none ∧ p.openUntil.lookup id = none

theorem counters_of_blank (h : Blank p id) : p.counters id = (0, zeroTime) := by
  rw [Prepared.counters, GoMap.get, GoMap.get, h.1, h.2]
  rfl

theorem counters_found_self (h : Blank p d.id) (cs : CardState) :
    (p.found secrets now d (some cs)).counters d.id =
      if Manager.documentLeaksSecret secrets cs.document then (0, zeroTime) else told cs := by
  rw [Prepared.found]
  split_ifs
  · exact counters_of_blank h
  · rw [Prepared.counters, GoMap.get, GoMap.get, AList.lookup_insert, AList.lookup_insert]
    rfl

theorem lookup_counters_found (hid : id ≠ d.id) (old : Option CardState) :
    (p.found secrets now d old).failures.lookup id = p.failures.lookup id ∧
      (p.found secrets now d old).openUntil.lookup id = p.openUntil.lookup id := by
  cases old with
  | none => exact ⟨rfl, rfl⟩
  | some cs =>
    rw [Prepared.found]
    split_ifs
    · exact ⟨rfl, rfl⟩
    · exact ⟨AList.lookup_insert_ne hid, AList.lookup_insert_ne hid⟩

theorem counters_found_ne (hid : id ≠ d.id) (old : Option CardState) :
    (p.found secrets now d old).counters id = p.counters id := by
  obtain ⟨hfailures, hopen⟩ := lookup_counters_found secrets now (p := p) hid old
  rw [Prepared.counters, GoMap.get, GoMap.get, hfailures, hopen]
  rfl

variable {secrets now}
variable {defs : List (Definition R)}

theorem prepare_counters (h : prepare secrets now store p d = (store', .ok p'))
    (hblank : Blank p d.id) :
    (∀ row, rowOf store d.id = some row →
      countersOf secrets d.identity row = some (p'.counters d.id)) ∧
      ∀ id ≠ d.id, p'.failures.lookup id = p.failures.lookup id ∧
        p'.openUntil.lookup id = p.openUntil.lookup id := by
  rcases (prepare_cases h).2 with ⟨rfl, rfl, rfl⟩ | ⟨s, s', old, rfl, rfl, hget, rfl⟩
  · exact ⟨by simp [rowOf], fun id _ => ⟨rfl, rfl⟩⟩
  · refine ⟨fun row hrow => ?_, fun id hid => lookup_counters_found secrets now hid old⟩
    rcases (getCardFor_eq_ok hget).2 with ⟨rfl, hmis⟩ | ⟨row', cs, hrow', hmis, hread, rfl⟩
    · rw [countersOf, if_pos (hmis row hrow)]
      exact congrArg some (counters_of_blank hblank).symm
    · cases hrow'.symm.trans hrow
      have hself := counters_found_self secrets now (p := p.add d.withDefaults) hblank cs
      rw [countersOf, hmis, if_neg Bool.false_ne_true, hself]
      simp only [hread]
      split_ifs <;> rfl

/-- **A successful `Apply`** gives a card the counters of its row. -/
theorem counters_apply {m : Manager R} (h : (m.apply now defs).2 = none) (hd : d ∈ defs) {row : Row}
    (hrow : rowOf m.store d.id = some row) :
    countersOf m.secrets d.identity row = some ((m.apply now defs).1.counters d.id) := by
  obtain ⟨store, p, hloop, heq⟩ := prepareAll_of_apply h
  have hcounters := prepareAll_of_prepare Prepared.counters
    (fun d row x => ∀ r, row = some r → countersOf m.secrets d.identity r = some x)
    (I := fun p => ∀ id, p.defs.lookup id = none → Blank p id) ?_ (fun _ _ => ⟨rfl, rfl⟩) hloop
  · rw [heq]
    exact (hcounters.1 d hd).2 row hrow
  · intro store store' p p' d hblank h
    obtain ⟨hfresh, -, hdefs⟩ := prepare_frame h
    obtain ⟨hself, hother⟩ := prepare_counters h (hblank d.id hfresh)
    refine ⟨hself, fun id hid => ?_, fun id hid => ?_⟩
    · rw [Prepared.counters, GoMap.get, GoMap.get, (hother id hid).1, (hother id hid).2]
      rfl
    · obtain ⟨hne, hnone⟩ := (hdefs id).mp hid
      obtain ⟨hfailures, hopen⟩ := hblank id hnone
      exact ⟨(hother id hne).1.trans hfailures, (hother id hne).2.trans hopen⟩

/-- The maps of an `Apply` agree with the rows: a card has the counters of its row. -/
structure Prepared.Told (secrets : Option Registry) (store : Option Store) (p : Prepared R) :
    Prop where
  blank : ∀ {id : Bytes}, p.defs.lookup id = none → Blank p id
  closed : ∀ id, (p.counters id).2 = zeroTime ∨ 3 ≤ (p.counters id).1
  rows : ∀ {id : Bytes} {d : Definition R} {row : Row}, p.defs.lookup id = some d →
    rowOf store id = some row →
    ∀ y, countersOf secrets d.identity row = some y → y = p.counters id

theorem told_empty : (Prepared.empty : Prepared R).Told secrets store where
  blank := fun _ => ⟨rfl, rfl⟩
  closed := fun _ => .inl rfl
  rows := fun h => by cases h

theorem Prepared.Told.mono (h : p.Told secrets store)
    (hrows : ∀ {id : Bytes} {row : Row}, p.defs.lookup id ≠ none →
      rowOf store' id = some row → rowOf store id = some row) : p.Told secrets store' :=
  ⟨h.blank, h.closed, fun hd hrow => h.rows hd (hrows (by simp [hd]) hrow)⟩

theorem told_add (h : p.Told secrets store) (hnew : p.defs.lookup d.id = none)
    (hrow : ∀ row y, rowOf store d.id = some row → countersOf secrets d.identity row = some y →
      y = (0, zeroTime)) : (p.add d).Told secrets store := by
  refine ⟨fun {id} hid => ?_, h.closed, fun {id d' row} hd' hlookup y hy => ?_⟩
  · by_cases heq : id = d.id
    · subst heq
      exact h.blank hnew
    · exact h.blank ((AList.lookup_insert_ne heq).symm.trans hid)
  · by_cases heq : id = d.id
    · subst heq
      cases (AList.lookup_insert _).symm.trans hd'
      rw [hrow row y hlookup hy]
      exact (counters_of_blank (h.blank hnew)).symm
    · exact h.rows ((AList.lookup_insert_ne heq).symm.trans hd') hlookup y hy

/-- The counters of a state that may be restored: an open circuit has three failures. -/
def sound (cs : CardState) : Bool :=
  decide (parseTime cs.execution.circuitOpenUntil = zeroTime ∨
    3 ≤ cs.execution.consecutiveFailures)

theorem told_found (h : p.Told secrets store) (hnew : p.defs.lookup d.id = none) {row : Row}
    {cs : CardState} (hrow : rowOf store d.id = some row)
    (hmatch : row.identity.mismatches d.identity = false) (hread : row.read = .ok cs)
    (hsound : sound cs = true) :
    ((p.add d.withDefaults).found secrets now d (some cs)).Told secrets store := by
  have hblank : Blank (p.add d.withDefaults) d.id := h.blank hnew
  have hself := counters_found_self secrets now hblank cs
  refine ⟨fun {id} hid => ?_, fun id => ?_, fun {id d' row'} hd' hlookup y hy => ?_⟩
  · rw [defs_found] at hid
    have hne : id ≠ d.id := by
      intro heq
      subst heq
      cases (AList.lookup_insert p.defs).symm.trans hid
    obtain ⟨hfailures, hopen⟩ :=
      lookup_counters_found secrets now (p := p.add d.withDefaults) hne (some cs)
    obtain ⟨hfailures', hopen'⟩ := h.blank ((AList.lookup_insert_ne hne).symm.trans hid)
    exact ⟨hfailures.trans hfailures', hopen.trans hopen'⟩
  · by_cases heq : id = d.id
    · subst heq
      rw [hself]
      split_ifs
      · exact .inl rfl
      · exact of_decide_eq_true hsound
    · rw [counters_found_ne _ _ heq]
      exact h.closed id
  · rw [defs_found] at hd'
    by_cases heq : id = d.id
    · subst heq
      cases (AList.lookup_insert p.defs).symm.trans hd'
      cases hrow.symm.trans hlookup
      rw [countersOf, Definition.withDefaults_identity, hmatch, if_neg Bool.false_ne_true] at hy
      simp only [hread] at hy
      rw [hself]
      split_ifs at hy ⊢ <;> cases hy <;> rfl
    · rw [counters_found_ne _ _ heq]
      exact h.rows ((AList.lookup_insert_ne heq).symm.trans hd') hlookup y hy

/-- The `Apply` has swapped its maps in, or has failed. -/
def Applying.over (a : Applying R) : Bool :=
  match a.phase with
  | .applied | .failed _ => true
  | .reading | .deleting _ => false

/-- **Reading a row** keeps the maps in step with the rows. -/
theorem told_read {a : Applying R} (h : a.prepared.Told secrets store) {todo : List (Definition R)}
    {readable : Bool}
    (hsound : ∀ row cs, rowOf store d.id = some row → row.read = .ok cs → sound cs = true)
    (hgoes : (a.read secrets now store d todo readable).over = false) :
    (a.read secrets now store d todo readable).prepared.Told secrets store := by
  unfold Applying.read at hgoes ⊢
  split
  · rename_i e he
    rw [he] at hgoes
    cases hgoes
  · rename_i p hp
    obtain ⟨hnew, rfl⟩ := accept_eq_ok hp
    rw [hp] at hgoes
    dsimp only at hgoes
    split
    · exact told_add h hnew fun row y hrow => by cases hrow
    · rename_i s
      dsimp only at hgoes
      split_ifs at hgoes ⊢ with hreadable
      · split
        · rename_i hrow
          refine told_add h hnew fun row y hlookup => ?_
          cases hrow.symm.trans hlookup
        · rename_i row hrow
          rw [hrow] at hgoes
          dsimp only at hgoes
          split_ifs at hgoes ⊢ with hmis
          · refine told_add h hnew fun row' y hlookup hy => ?_
            cases hrow.symm.trans hlookup
            rw [countersOf, Definition.withDefaults_identity, if_pos hmis] at hy
            exact (Option.some.inj hy).symm
          · split
            · rename_i e he
              rw [he] at hgoes
              cases hgoes
            · rename_i cs hread
              have hnew' : a.prepared.defs.lookup d.id = none := hnew
              exact told_found h hnew' hrow (Bool.eq_false_iff.mpr hmis) hread
                (hsound row cs hrow hread)
      · cases hgoes

end

section

variable {now : ℤ} {d : Definition R}

theorem tells_disabled (id reason : Bytes) :
    Tells (State.disabled id none reason) id (0, zeroTime) := ⟨rfl, rfl, .inl ⟨rfl, rfl⟩⟩

theorem tells_successState (o : Outcome) (bound : Option History) :
    Tells (successState now d o bound) d.id (0, zeroTime) := ⟨rfl, rfl, .inl ⟨rfl, rfl⟩⟩

theorem tells_failedState (previous : CardState) (failures : ℤ) (err : RunErr) :
    Tells (failedState now d previous failures err) d.id (failures, zeroTime) := by
  rw [failedState]
  cases previous.document with
  | none | some => exact ⟨rfl, rfl, .inl ⟨rfl, rfl⟩⟩

theorem tells_openCircuitState {previous : CardState} {failures : ℤ} (err : RunErr)
    (hdoc : previous.document.isSome = true)
    (h : representable (openTime now d failures) = true) :
    Tells (openCircuitState now d previous failures err) d.id
      (failures, openTime now d failures) := by
  obtain ⟨doc, hdoc⟩ := Option.isSome_iff_exists.mp hdoc
  rw [openCircuitState, hdoc]
  exact ⟨rfl, rfl, .inr ⟨rfl, h⟩⟩

end

/-- No `Apply` that is still going on has read the row of the card. -/
def World.unread (w : World R) (id : Bytes) : Bool :=
  w.applies.all fun a => a.over || (a.prepared.defs.lookup id).isNone

/-- **The steps that keep the rows in step with the counters.**  Only a current refresh records an
outcome or opens a circuit, in its turn and with a document to keep; what it commits is accepted
and can be restored, and no `Apply` has read the row meanwhile; a card that is not to run has no
failures; and a row with an open circuit has three. -/
def reloadable (w : World R) : Event R → Bool
  | .act i .check => (w.calls[i]?).all fun c => w.manager.superseded c.d ||
    decide (c.d.disabled = []) &&
      (c.d.run.isSome || decide (w.now < w.manager.circuitOpen c.d.id)) ||
    decide (w.manager.counters c.d.id = (0, zeroTime))
  | .act i (.record _) => (w.calls[i]?).all fun c => w.manager.fenced c.d && w.turn i c.d.id
  | .act i .openCircuit => (w.calls[i]?).all fun c => w.manager.fenced c.d && w.turn i c.d.id &&
    match c.pc with
    | .openCircuit failures previous _ => previous.document.isSome &&
      representable (openTime w.now c.d failures)
    | _ => true
  | .act i (.commit stored) => (w.calls[i]?).all fun c =>
    match c.pc with
    | .commit cs _ => w.manager.superseded c.d ||
      accepted w.manager c cs stored && countable cs && restorable w.manager.secrets cs &&
        w.unread c.d.id
    | _ => true
  | .read i _ => (w.nextRow i).all fun row =>
    match row.read with
    | .ok cs => sound cs
    | .error _ => true
  | _ => true

/-- A refresh of the card has an outcome to commit. -/
def PendingCommit (w : World R) (id : Bytes) : Prop :=
  ∃ (i : ℕ) (c : Call R), w.calls[i]? = some c ∧ c.Live w.manager id ∧ c.pc.pending = true

/-- What holds of the rows and the counters of a world that reloadable steps lead to. -/
structure InStep (w : World R) : Prop where
  loops : Loops w
  committing : ∀ {i : ℕ} {c : Call R} {cs : CardState} {history : GoMap Bytes ℚ},
    w.calls[i]? = some c → c.d.generation = w.manager.generation → c.pc = .commit cs history →
    Tells cs c.d.id (w.manager.counters c.d.id)
  opening : ∀ {i : ℕ} {c : Call R} {failures : ℤ} {previous : CardState} {e : RunErr},
    w.calls[i]? = some c → c.d.generation = w.manager.generation →
    c.pc = .openCircuit failures previous e →
    failures = w.manager.failureCount c.d.id ∧ 3 ≤ failures
  closed : ∀ {id : Bytes} {d : Definition R}, w.manager.defs.lookup id = some d →
    w.manager.circuitOpen id = zeroTime ∨ 3 ≤ w.manager.failureCount id
  rows : ∀ {id : Bytes} {d : Definition R} {row : Row}, w.manager.defs.lookup id = some d →
    rowOf w.manager.store id = some row →
    (∀ y, countersOf w.manager.secrets d.identity row = some y → y = w.manager.counters id) ∨
      PendingCommit w id
  prepared : ∀ {i : ℕ} {a : Applying R}, w.applies[i]? = some a → a.over = false →
    a.prepared.Told w.manager.secrets w.manager.store

theorem inStep_new (store : Option Store) (secrets : Option Registry) (now : ℤ) :
    InStep (World.new store secrets now : World R) := by
  constructor
  · exact loops_new store secrets now
  · exact fun hc => absurd hc (by simp [World.new])
  · exact fun hc => absurd hc (by simp [World.new])
  · intro id d hd
    cases hd
  · intro id d row hd
    cases hd
  · intro i a ha
    simp [World.new] at ha

/-! ## Actions -/

section

variable {w w' : World R} {e : Event R} {i j : ℕ} {c c' x : Call R} {a : Action} {m' : Manager R}
variable {id : Bytes} {m : Manager R} {now : ℤ} {d : Definition R} {row : Row} {cs : CardState}
  {history : GoMap Bytes ℚ} {stored : Bool} {b : Applying R}

theorem Acted.counters_eq (h : Acted now m c a m' c')
    (hrecord : ∀ bound, a = .record bound → id ≠ c.d.id) (hopen : a = .openCircuit → id ≠ c.d.id) :
    m'.counters id = m.counters id := by
  have hcount := h.failureCount hrecord
  have hcircuit : m'.circuitOpen id = m.circuitOpen id := by
    cases h with
    | succeed => rw [circuitOpen_succeed, if_neg (hrecord _ rfl)]
    | openCircuit => rw [circuitOpen_insert, if_neg (hopen rfl)]
    | commit hpc => exact circuitOpen_commit m c _ _ _ id
    | _ => rfl
  rw [Manager.counters, Manager.counters, hcount, hcircuit]

theorem generation_of_fenced_lookup (h : Loops w) {d' : Definition R}
    (hd : w.manager.defs.lookup d.id = some d') (hfenced : w.manager.fenced d = true) :
    d.generation = w.manager.generation := by
  rw [Manager.fenced, hd, Option.all_some, decide_eq_true_eq] at hfenced
  exact hfenced.symm.trans (h.current _ _ hd)

theorem counters_of_pending (hc : w.calls[i]? = some c) (hacted : Acted w.now w.manager c a m' c')
    (hok : reloadable w (.act i a) = true) (hij : i ≠ j) (hx : w.calls[j]? = some x)
    (hgen : x.d.generation = w.manager.generation) (hpending : x.pc.pending = true) :
    m'.counters x.d.id = w.manager.counters x.d.id := by
  have hturn : w.turn i c.d.id = true → x.d.id ≠ c.d.id := by
    intro hturn hid
    have hidle := pending_of_turn hturn hij hx hid hgen
    rw [hpending] at hidle
    cases hidle
  refine hacted.counters_eq (fun bound ha => ?_) (fun ha => ?_)
  · subst ha
    simp only [reloadable, hc, Option.all_some, Bool.and_eq_true] at hok
    exact hturn hok.2
  · subst ha
    simp only [reloadable, hc, Option.all_some, Bool.and_eq_true] at hok
    exact hturn hok.1.2

/-- **What a refresh is about to commit** tells the counters. -/
theorem tells_act (h : InStep w) (hc : w.calls[i]? = some c)
    (hgen : c.d.generation = w.manager.generation) (hacted : Acted w.now w.manager c a m' c')
    (hok : reloadable w (.act i a) = true) (hpc' : c'.pc = .commit cs history) :
    Tells cs c.d.id (m'.counters c.d.id) := by
  have hcur := superseded_of_live h.loops hc ⟨rfl, hgen⟩
  cases hacted with
  | check hpc =>
    simp only [reloadable, hc, Option.all_some, hcur, Bool.false_or, Bool.or_eq_true,
      Bool.and_eq_true, decide_eq_true_eq] at hok
    rw [check, hcur, if_neg Bool.false_ne_true] at hpc'
    split_ifs at hpc' with hdisabled hopen hrun
    · cases hpc'
      rw [hok.resolve_left fun hon => hdisabled hon.1]
      exact tells_disabled _ _
    · cases hpc'
    · cases hpc'
      rw [Option.isNone_iff_eq_none] at hrun
      rw [hok.resolve_left fun hon => ?_]
      · exact tells_disabled _ _
      · rcases hon.2 with hsome | hlt
        · rw [hrun] at hsome
          cases hsome
        · exact hopen hlt
  | succeed hpc hout heval =>
    cases hpc'
    rw [Manager.counters, failureCount_succeed, circuitOpen_succeed, if_pos rfl, if_pos rfl]
    exact tells_successState _ _
  | fail hpc hout heval =>
    simp only [failedPc] at hpc'
    split_ifs at hpc' with hopens
    cases hpc'
    have hzero : w.manager.circuitOpen c.d.id = zeroTime :=
      (h.closed (h.loops.own hc hgen)).resolve_right (by omega)
    rw [Manager.counters, failureCount_fail, if_pos rfl]
    change Tells _ _ (_, w.manager.circuitOpen c.d.id)
    rw [hzero]
    exact tells_failedState _ _ _
  | openCircuit hpc =>
    cases hpc'
    simp only [reloadable, hc, Option.all_some, hpc, Bool.and_eq_true] at hok
    rw [Manager.counters, circuitOpen_insert, if_pos rfl]
    change Tells _ _ (w.manager.failureCount c.d.id, _)
    rw [← (h.opening hc hgen hpc).1]
    exact tells_openCircuitState _ hok.2.1 hok.2.2
  | _ => cases hpc'

theorem Acted.store_eq (h : Acted now m c a m' c') (ha : ∀ stored, a ≠ .commit stored) :
    m'.store = m.store := by
  cases h with
  | commit hpc => exact absurd rfl (ha _)
  | _ => rfl

theorem rowOf_commit (hrow : rowOf (commit m c cs history stored).1.store id = some row) :
    (commit m c cs history stored).2 = none ∧ m.superseded c.d = false ∧ id = cs.cardID ∧
        row.envelope = cs.marshal ∧ row.identity = c.d.identity ∨
      ((commit m c cs history stored).2 = none → id ≠ cs.cardID) ∧ rowOf m.store id = some row := by
  rcases commit_cases m c cs history stored with
    ⟨err, heq⟩ | ⟨hcur, ⟨hstore, heq⟩ | ⟨s, s', hstore, hput, heq⟩⟩ <;> rw [heq] at hrow ⊢
  · exact .inr ⟨by simp, hrow⟩
  · change rowOf m.store id = some row at hrow
    rw [hstore] at hrow
    cases hrow
  · rw [Store.putCardWithSignals, bind_eq_ok_iff] at hput
    obtain ⟨⟨⟩, -, hput⟩ := hput
    cases hput
    by_cases hid : id = cs.cardID
    · subst hid
      cases (AList.lookup_insert s.cards).symm.trans hrow
      exact .inl ⟨rfl, hcur, rfl, rfl, rfl⟩
    · refine .inr ⟨fun _ => hid, ?_⟩
      rw [hstore]
      exact (AList.lookup_insert_ne hid).symm.trans hrow

theorem Acted.counters_or_pending (h : Acted now m c a m' c') (id : Bytes) :
    m'.counters id = m.counters id ∨
      id = c.d.id ∧ ((∃ bound, a = .record bound) ∨ a = .openCircuit) ∧ c'.pc.pending = true := by
  by_cases hid : id = c.d.id
  · cases h with
    | succeed => exact .inr ⟨hid, .inl ⟨_, rfl⟩, rfl⟩
    | fail =>
      refine .inr ⟨hid, .inl ⟨_, rfl⟩, ?_⟩
      rw [failedPc]
      split_ifs <;> rfl
    | openCircuit => exact .inr ⟨hid, .inr rfl, rfl⟩
    | commit hpc =>
      rw [Manager.counters, failureCount_commit, circuitOpen_commit]
      exact .inl rfl
    | _ => exact .inl rfl
  · exact .inl (h.counters_eq (fun _ _ => hid) fun _ => hid)

theorem Acted.pending_of_pending (h : Acted now m c a m' c') (ha : ∀ stored, a ≠ .commit stored)
    (hpending : c.pc.pending = true) : c'.pc.pending = true := by
  cases h with
  | commit hpc => exact absurd rfl (ha _)
  | openCircuit hpc => rfl
  | _ =>
    rw [‹c.pc = _›] at hpending
    cases hpending

theorem PendingCommit.act (h : PendingCommit w id) (hc : w.calls[i]? = some c)
    (hacted : Acted w.now w.manager c a m' c')
    (hself : c.Live w.manager id → c.pc.pending = true → c'.pc.pending = true) :
    PendingCommit { w with manager := m', calls := w.calls.set i c' } id := by
  obtain ⟨k, x, hx, hlive, hpending⟩ := h
  have hgen := hlive.generation.trans hacted.defs.2.symm
  by_cases hik : i = k
  · subst hik
    cases hc.symm.trans hx
    have hlt := (List.getElem?_eq_some_iff.mp hc).1
    refine ⟨i, c', List.getElem?_set_self hlt, ⟨?_, ?_⟩, hself hlive hpending⟩
    · rw [hacted.d]
      exact hlive.id
    · rw [hacted.d]
      exact hgen
  · exact ⟨k, x, (List.getElem?_set_ne hik).trans hx, ⟨hlive.id, hgen⟩, hpending⟩

theorem generation_of_reloadable (h : Loops w) (hc : w.calls[i]? = some c)
    (hok : reloadable w (.act i a) = true) (ha : (∃ bound, a = .record bound) ∨ a = .openCircuit)
    (hd : w.manager.defs.lookup c.d.id = some d) : c.d.generation = w.manager.generation := by
  rcases ha with ⟨bound, rfl⟩ | rfl
  · simp only [reloadable, hc, Option.all_some, Bool.and_eq_true] at hok
    exact generation_of_fenced_lookup h hd hok.1
  · simp only [reloadable, hc, Option.all_some, Bool.and_eq_true] at hok
    exact generation_of_fenced_lookup h hd hok.1.1

/-- What a commit that is not refused can rely on. -/
theorem reloadable_commit (hc : w.calls[i]? = some c) (hpc : c.pc = .commit cs history)
    (hok : reloadable w (.act i (.commit stored)) = true)
    (hcur : w.manager.superseded c.d = false) :
    accepted w.manager c cs stored = true ∧ countable cs = true ∧
      restorable w.manager.secrets cs = true ∧ w.unread c.d.id = true := by
  simp only [reloadable, hc, Option.all_some, hpc, hcur, Bool.false_or, Bool.and_eq_true] at hok
  exact ⟨hok.1.1.1, hok.1.1.2, hok.1.2, hok.2⟩

/-- The rows and the counters after a commit. -/
theorem rows_commit (h : InStep w) (hc : w.calls[i]? = some c) (hpc : c.pc = .commit cs history)
    (hok : reloadable w (.act i (.commit stored)) = true) (hd : w.manager.defs.lookup id = some d)
    (hrow : rowOf (commit w.manager c cs history stored).1.store id = some row) :
    (∀ y, countersOf w.manager.secrets d.identity row = some y → y = w.manager.counters id) ∨
      PendingCommit { w with
        manager := (commit w.manager c cs history stored).1
        calls := w.calls.set i (c.answer (commit w.manager c cs history stored).2) } id := by
  rcases rowOf_commit hrow with ⟨-, hcur, hid, henvelope, hidentity⟩ | ⟨hne, hold⟩
  · -- the row is the one that was committed
    have hgen := generation_of_not_superseded h.loops.current hcur
    have htells := h.committing hc hgen hpc
    obtain ⟨-, hcount, hleaks, -⟩ := reloadable_commit hc hpc hok hcur
    rw [htells.cardID] at hid
    subst hid
    cases hd.symm.trans (h.loops.own hc hgen)
    exact .inl fun y hy => countersOf_commit htells hcount hleaks henvelope hidentity hy
  · refine (h.rows hd hold).imp_right fun hpend => hpend.act hc (.commit hpc) fun hlive _ => ?_
    -- a live refresh commits, so the row would be the new one
    have hcur := superseded_of_live h.loops hc hlive
    have haccepted := (reloadable_commit hc hpc hok hcur).1
    have hcard := (h.committing hc hlive.generation hpc).cardID
    exact absurd (hcard.trans hlive.id).symm (hne (commit_of_accepted hcur haccepted history))

section

variable (h : InStep w) (hc : w.calls[i]? = some c) (hacted : Acted w.now w.manager c a m' c')
  (hok : reloadable w (.act i a) = true)

include h hc hacted hok

/-- **The rows and the counters after an action.** -/
theorem rows_act (hd : w.manager.defs.lookup id = some d) (hrow : rowOf m'.store id = some row) :
    (∀ y, countersOf w.manager.secrets d.identity row = some y → y = m'.counters id) ∨
      PendingCommit { w with manager := m', calls := w.calls.set i c' } id := by
  rcases hacted.counters_or_pending id with heq | ⟨rfl, ha, hpending⟩
  · rw [heq]
    by_cases hcommit : ∃ stored, a = .commit stored
    · obtain ⟨stored, rfl⟩ := hcommit
      cases hacted with
      | commit hpc => exact rows_commit h hc hpc hok hd hrow
    · have hother : ∀ stored, a ≠ .commit stored := fun stored ha => hcommit ⟨stored, ha⟩
      rw [hacted.store_eq hother] at hrow
      exact (h.rows hd hrow).imp_right fun hpend =>
        hpend.act hc hacted fun _ => hacted.pending_of_pending hother
  · have hgen := generation_of_reloadable h.loops hc hok ha hd
    have hlt := (List.getElem?_eq_some_iff.mp hc).1
    refine .inr ⟨i, c', List.getElem?_set_self hlt, ⟨?_, ?_⟩, hpending⟩
    · rw [hacted.d]
    · rw [hacted.d]
      exact hgen.trans hacted.defs.2.symm

theorem closed_act (hd : w.manager.defs.lookup id = some d) :
    m'.circuitOpen id = zeroTime ∨ 3 ≤ m'.failureCount id := by
  have hbefore := h.closed hd
  cases hacted with
  | succeed =>
    rw [circuitOpen_succeed, failureCount_succeed]
    split_ifs
    · exact .inl rfl
    · exact hbefore
  | fail =>
    rw [failureCount_fail]
    refine hbefore.imp_right fun hcount => ?_
    split_ifs with hid
    · rw [hid] at hcount
      omega
    · exact hcount
  | openCircuit hpc =>
    rw [circuitOpen_insert]
    split_ifs with hid
    · subst hid
      obtain ⟨heq, hcount⟩ :=
        h.opening hc (generation_of_reloadable h.loops hc hok (.inr rfl) hd) hpc
      rw [heq] at hcount
      exact .inr hcount
    · exact hbefore
  | commit hpc =>
    rw [circuitOpen_commit, failureCount_commit]
    exact hbefore
  | _ => exact hbefore

theorem told_act (hb : w.applies[j]? = some b) (hover : b.over = false) :
    b.prepared.Told m'.secrets m'.store := by
  rw [hacted.secrets]
  refine (h.prepared hb hover).mono fun {id row} hdef hrow => ?_
  by_cases hcommit : ∃ stored, a = .commit stored
  · obtain ⟨stored, rfl⟩ := hcommit
    cases hacted with
    | commit hpc =>
      rcases rowOf_commit hrow with ⟨-, hcur, hid, -⟩ | ⟨-, hold⟩
      · have hgen := generation_of_not_superseded h.loops.current hcur
        have hunread := (reloadable_commit hc hpc hok hcur).2.2.2
        rw [World.unread, List.all_eq_true] at hunread
        have hnone := hunread b (List.mem_of_getElem? hb)
        rw [hover, Bool.false_or, Option.isNone_iff_eq_none] at hnone
        rw [hid, (h.committing hc hgen hpc).cardID] at hdef
        exact absurd hnone hdef
      · exact hold
  · rwa [hacted.store_eq fun stored ha => hcommit ⟨stored, ha⟩] at hrow

/-- **An action keeps the rows in step with the counters.** -/
theorem inStep_act : InStep { w with manager := m', calls := w.calls.set i c' } := by
  have hsame := hacted.defs.2
  refine ⟨loops_act h.loops hc hacted, ?_, ?_, fun hd => ?_, fun hd hrow => ?_,
    fun hb hover => told_act h hc hacted hok hb hover⟩
  · intro j x cs history hx hgen hpc
    replace hgen : x.d.generation = w.manager.generation := hgen.trans hsame
    rcases getElem?_set_cases hx with ⟨rfl, rfl⟩ | ⟨hij, hx'⟩
    · rw [hacted.d] at hgen ⊢
      exact tells_act h hc hgen hacted hok hpc
    · change Tells cs x.d.id (m'.counters x.d.id)
      rw [counters_of_pending hc hacted hok hij hx' hgen (by rw [hpc]; rfl)]
      exact h.committing hx' hgen hpc
  · intro j x failures previous err hx hgen hpc
    replace hgen : x.d.generation = w.manager.generation := hgen.trans hsame
    rcases getElem?_set_cases hx with ⟨rfl, rfl⟩ | ⟨hij, hx'⟩
    · rw [hacted.d]
      exact (hacted.opening hpc).2
    · have heq := counters_of_pending hc hacted hok hij hx' hgen (by rw [hpc]; rfl)
      change failures = (m'.counters x.d.id).1 ∧ _
      rw [heq]
      exact h.opening hx' hgen hpc
  · rw [hacted.defs.1] at hd
    exact closed_act h hc hacted hok hd
  · rw [hacted.defs.1] at hd
    have hrows := rows_act h hc hacted hok hd hrow
    rw [← hacted.secrets] at hrows
    exact hrows

end

/-! ## Other events -/

theorem rowOf_deleteRow {id' : Bytes} (h : rowOf (m.deleteRow id).store id' = some row) :
    rowOf m.store id' = some row := by
  cases hstore : m.store with
  | none =>
    rw [Manager.deleteRow, hstore] at h
    cases h
  | some s =>
    simp only [rowOf, Manager.deleteRow, hstore, Option.map_some, Option.bind_some] at h ⊢
    exact (GoMap.lookup_of_erase h).2

theorem rowOf_of_step (hstep : step e w = some w') (hact : ∀ i a, e ≠ .act i a)
    (h : rowOf w'.manager.store id = some row) : rowOf w.manager.store id = some row := by
  cases stepped_of_step hstep with
  | act hc hacted => exact absurd rfl (hact _ _)
  | delete ha hphase => exact rowOf_deleteRow h
  | _ => exact h

theorem told_rest (h : InStep w) (hstep : step e w = some w') (hact : ∀ i a, e ≠ .act i a)
    (hok : reloadable w e = true) (hb : w'.applies[j]? = some b) (hover : b.over = false) :
    b.prepared.Told w'.manager.secrets w'.manager.store := by
  have hsecrets := (rest_of_step hstep hact).secrets
  have hold : ∀ {k : ℕ} {a : Applying R}, w.applies[k]? = some a → a.over = false →
      a.prepared.Told w'.manager.secrets w'.manager.store := by
    intro k a ha hgoes
    rw [hsecrets]
    exact (h.prepared ha hgoes).mono fun _ => rowOf_of_step hstep hact
  -- one `Apply` goes on, the others stay as they are
  have hset : ∀ {k : ℕ} {a : Applying R}, (w.applies.set k a)[j]? = some b →
      (a.over = false → a.prepared.Told w'.manager.secrets w'.manager.store) →
      b.prepared.Told w'.manager.secrets w'.manager.store := by
    intro k a hb hgoes
    rcases getElem?_set_cases hb with ⟨-, rfl⟩ | ⟨-, hb⟩
    · exact hgoes hover
    · exact hold hb hover
  cases stepped_of_step hstep with
  | act hc hacted => exact absurd rfl (hact _ _)
  | apply defs =>
    rcases List.mem_append.mp (List.mem_of_getElem? hb) with hmem | hmem
    · obtain ⟨k, hk⟩ := List.getElem?_of_mem hmem
      exact hold hk hover
    · rw [List.mem_singleton] at hmem
      subst hmem
      exact told_empty
  | read ha hphase htodo =>
    have hgoing := h.prepared ha (by rw [Applying.over, hphase])
    refine hset hb fun hgoes => told_read hgoing (fun row cs hrow hread => ?_) hgoes
    obtain ⟨s, hs, hlookup⟩ := Option.bind_eq_some_iff.mp hrow
    simpa [reloadable, World.nextRow, ha, htodo, hs, hlookup, hread] using hok
  | delete ha hphase =>
    have hgoing := hold ha (by rw [Applying.over, hphase])
    exact hset hb fun _ => hgoing
  | deleteFailed | swap => exact hset hb (by simp [Applying.over])
  | _ => exact hold hb hover

/-- **A swap** takes the counters over that were read from the rows. -/
theorem inStep_swap (h : InStep w) {k : ℕ} (hstep : step (.swap k) w = some w')
    (hok : reloadable w (.swap k) = true) : InStep w' := by
  have hgoes := (rest_of_step hstep (by simp)).calls
  obtain ⟨b, hb, hover, hmanager⟩ : ∃ b, w.applies[k]? = some b ∧ b.over = false ∧
      w'.manager = w.manager.swap b.prepared := by
    cases stepped_of_step hstep with
    | swap hb hphase htodo => exact ⟨_, hb, by rw [Applying.over, hphase], rfl⟩
  have htold := h.prepared hb hover
  have hgen : w'.manager.generation = w.manager.generation + 1 := by rw [hmanager]; rfl
  have hnew : ∀ {j : ℕ} {x : Call R}, w'.calls[j]? = some x →
      x.d.generation = w'.manager.generation → x.pc.pending ≠ true := by
    intro j x hx hxgen hpending
    obtain ⟨y, hy, hd, -⟩ := hgoes.pending hx hpending
    have := h.loops.generation hy
    rw [hd] at this
    omega
  refine ⟨loops_step h.loops hstep, ?_, ?_, ?_, ?_, told_rest h hstep (by simp) hok⟩
  · intro j x cs history hx hxgen hpc
    exact absurd (by rw [hpc]; rfl) (hnew hx hxgen)
  · intro j x failures previous err hx hxgen hpc
    exact absurd (by rw [hpc]; rfl) (hnew hx hxgen)
  · intro id d hd
    rw [hmanager]
    exact htold.closed id
  · intro id d row hd hrow
    rw [hmanager] at hd hrow ⊢
    obtain ⟨d', hd', rfl⟩ := lookup_swap hd
    exact .inl fun y hy => htold.rows hd' hrow y hy

/-- **The other events** leave the counters alone and write no row. -/
theorem inStep_rest (h : InStep w) (hstep : step e w = some w') (hact : ∀ i a, e ≠ .act i a)
    (hswap : ∀ i, e ≠ .swap i) (hok : reloadable w e = true) : InStep w' := by
  have hgoes := (rest_of_step hstep hact).calls
  obtain ⟨store, manualAt, subs, hmanager⟩ := manager_of_step hstep hact hswap
  have hcounters : ∀ id, w'.manager.counters id = w.manager.counters id := by
    intro id
    rw [hmanager]
    rfl
  refine ⟨loops_step h.loops hstep, ?_, ?_, ?_, ?_, told_rest h hstep hact hok⟩
  · intro j x cs history hx hxgen hpc
    obtain ⟨y, hy, hd, hpcy⟩ := hgoes.pending hx (by rw [hpc]; rfl)
    rw [hmanager, ← hd] at hxgen
    rw [hcounters, ← hd]
    exact h.committing hy hxgen (hpcy.trans hpc)
  · intro j x failures previous err hx hxgen hpc
    obtain ⟨y, hy, hd, hpcy⟩ := hgoes.pending hx (by rw [hpc]; rfl)
    rw [hmanager, ← hd] at hxgen
    rw [hmanager, ← hd]
    exact h.opening hy hxgen (hpcy.trans hpc)
  · intro id d hd
    rw [hmanager] at hd ⊢
    exact h.closed hd
  · intro id d row hd hrow
    rw [hcounters, (rest_of_step hstep hact).secrets]
    rw [hmanager] at hd
    refine (h.rows hd (rowOf_of_step hstep hact hrow)).imp_right fun hpend => ?_
    obtain ⟨k, x, hx, hlive, hpending⟩ := hpend
    obtain ⟨x', hx', hrests⟩ := hgoes.old hx
    refine ⟨k, x', hx', ⟨?_, ?_⟩, ?_⟩
    · rw [hrests.d]
      exact hlive.id
    · rw [hrests.d, hmanager]
      exact hlive.generation
    · rcases hrests.pc with heq | ⟨⟨t, hsleeping⟩, -⟩
      · rw [heq]
        exact hpending
      · rw [hsleeping] at hpending
        cases hpending

/-- **A reloadable step** keeps the rows in step with the counters. -/
theorem inStep_step (h : InStep w) (hstep : step e w = some w') (hok : reloadable w e = true) :
    InStep w' := by
  rcases act_or_rest hstep with ⟨i, a, c, m', c', rfl, hc, hacted, rfl⟩ | ⟨hact, -⟩
  · exact inStep_act h hc hacted hok
  · by_cases hswap : ∃ i, e = .swap i
    · obtain ⟨i, rfl⟩ := hswap
      exact inStep_swap h hstep hok
    · exact inStep_rest h hstep hact (fun i heq => hswap ⟨i, heq⟩) hok

end

/-! ## Runs -/

/-- The definitions have those of all cards among them, by their ids and identities. -/
def SameDefinitions (m : Manager R) (defs : List (Definition R)) : Prop :=
  ∀ id d, m.defs.lookup id = some d → ∃ d' ∈ defs, d'.id = id ∧ d'.identity = d.identity

/-- **A reload leaves the breaker as it is** in the runs whose steps keep the rows in step with the
counters: if a card has been committed and no refresh of it has an outcome to commit, then applying
the same definitions again leaves its failures in a row and the end of its open circuit. -/
theorem reload_keeps_counters {store : Option Store} {secrets : Option Registry} {now : ℤ}
    {es : List (Event R)} {w : World R}
    (hok : Along step (fun w e _ => reloadable w e = true) (World.new store secrets now) es)
    (hrun : run step (World.new store secrets now) es = some w) {id : Bytes} {d : Definition R}
    (hd : w.manager.defs.lookup id = some d)
    (hcommitted : (rowOf w.manager.store id).isSome = true) (hsettled : ¬ PendingCommit w id)
    {defs : List (Definition R)} (hsame : SameDefinitions w.manager defs) (later : ℤ) :
    (w.manager.apply later defs).1.failureCount id = w.manager.failureCount id ∧
      (w.manager.apply later defs).1.circuitOpen id = w.manager.circuitOpen id := by
  have hinv := invariant_run_along inStep_step (inStep_new store secrets now) hok hrun
  obtain ⟨row, hrow⟩ := Option.isSome_iff_exists.mp hcommitted
  cases happly : (w.manager.apply later defs).2 with
  | some err =>
    -- an `Apply` that fails has swapped nothing in
    rw [Manager.apply] at happly ⊢
    rcases hloop : prepareAll w.manager.secrets later w.manager.store .empty defs with ⟨s, r⟩
    cases r with
    | error e => exact ⟨rfl, rfl⟩
    | ok p =>
      rw [hloop] at happly
      cases happly
  | none =>
    obtain ⟨d', hd', hid, hidentity⟩ := hsame id d hd
    subst hid
    have hcounters := counters_apply happly hd' hrow
    rw [hidentity] at hcounters
    have heq := (hinv.rows hd hrow).resolve_right hsettled _ hcounters
    exact ⟨congrArg Prod.fst heq, congrArg Prod.snd heq⟩

/-- A manual refresh of the card that fails. -/
def failedRefresh (i : ℕ) : List (Event Unit) :=
  [.refresh (ascii "a"), .act i .check, .act i .join, .act i .acquire,
    .act i (.finish zeroDocument (some ⟨.other, ascii "down"⟩)), .act i (.record none)]

/-- The first run of the card succeeds, and the next three fail. -/
def failingCard : List (Event Unit) :=
  startRun runningCard <| [Event.act 0 (.finish (titled (ascii "t")) none),
    .act 0 (.record (some none)), .act 0 (.commit true)] ++
  failedRefresh 1 ++ [Event.act 1 (.commit true)] ++ failedRefresh 2 ++
  [Event.act 2 (.commit true)] ++ failedRefresh 3 ++
  [Event.act 3 .openCircuit, .act 3 (.commit true)]

/-- The card has been committed, nothing of it is to be committed, and its circuit is open. -/
structure Failing (w : World Unit) (d : Definition Unit) : Prop where
  current : w.manager.defs.lookup (ascii "a") = some d
  committed : (rowOf w.manager.store (ascii "a")).isSome = true
  settled : ¬ PendingCommit w (ascii "a")
  same : SameDefinitions w.manager [runningCard]
  count : w.manager.failureCount (ascii "a") = 3

def failing (w : World Unit) : Bool :=
  (w.manager.defs.lookup (ascii "a")).isSome &&
    (rowOf w.manager.store (ascii "a")).isSome && (w.calls.all fun c => !c.pc.pending) &&
    (w.manager.defs.entries.all fun p =>
      decide (p.1 = ascii "a") && decide (p.2.identity = runningCard.identity)) &&
    decide (w.manager.failureCount (ascii "a") = 3)

theorem exists_failing {w : World Unit} (h : failing w = true) : ∃ d, Failing w d := by
  simp only [failing, Bool.and_eq_true, decide_eq_true_eq, List.all_eq_true] at h
  obtain ⟨⟨⟨⟨hcurrent, hcommitted⟩, hidle⟩, hsame⟩, hcount⟩ := h
  obtain ⟨d, hd⟩ := Option.isSome_iff_exists.mp hcurrent
  refine ⟨d, hd, hcommitted, fun hpend => ?_, fun id d' hd' => ?_, hcount⟩
  · obtain ⟨k, x, hx, -, hpending⟩ := hpend
    have hx' := hidle x (List.mem_of_getElem? hx)
    rw [hpending] at hx'
    cases hx'
  · have hentry := hsame _ (AList.mem_lookup_iff.mp hd')
    exact ⟨runningCard, List.mem_singleton_self _, hentry.1.symm, hentry.2.symm⟩

/-- With a document to keep, the third failure is still there after a reload. -/
theorem reload_keeps_counters_failingCard :
    ∃ w, run step (World.new (some Store.empty) none zeroTime) failingCard = some w ∧
      w.manager.failureCount (ascii "a") = 3 ∧
      (w.manager.apply w.now [runningCard]).1.failureCount (ascii "a") =
        w.manager.failureCount (ascii "a") ∧
      (w.manager.apply w.now [runningCard]).1.circuitOpen (ascii "a") =
        w.manager.circuitOpen (ascii "a") := by
  have hend : ((run step (World.new (some Store.empty) none zeroTime) failingCard).any failing) =
      true := by decide +kernel
  simp only [Option.any_eq_true] at hend
  obtain ⟨w, hw, hfailing⟩ := hend
  obtain ⟨d, hd⟩ := exists_failing hfailing
  exact ⟨w, hw, hd.count, reload_keeps_counters (by decide +kernel) hw hd.current hd.committed
    hd.settled hd.same w.now⟩

/-- **Without a document the failures are forgotten**: the third failure of a card that has never
run well is committed, and a reload starts from zero while the circuit is still open. -/
theorem reload_forgets_failures :
    ∃ w d, run step (World.new (some Store.empty) none zeroTime) (thirdFailure true) = some w ∧
      Failing w d ∧ (w.manager.apply w.now [runningCard]).2 = none ∧
      (w.manager.apply w.now [runningCard]).1.failureCount (ascii "a") = 0 ∧
      w.now < (w.manager.apply w.now [runningCard]).1.circuitOpen (ascii "a") := by
  have hend : ((run step (World.new (some Store.empty) none zeroTime) (thirdFailure true)).any
      fun w => failing w && (w.manager.apply w.now [runningCard]).2.isNone &&
        decide ((w.manager.apply w.now [runningCard]).1.failureCount (ascii "a") = 0) &&
        decide (w.now < (w.manager.apply w.now [runningCard]).1.circuitOpen (ascii "a"))) =
      true := by
    decide +kernel
  simp only [Option.any_eq_true, Bool.and_eq_true, decide_eq_true_eq,
    Option.isNone_iff_eq_none] at hend
  obtain ⟨w, hw, ⟨⟨hfailing, happly⟩, hcount⟩, hopen⟩ := hend
  obtain ⟨d, hd⟩ := exists_failing hfailing
  exact ⟨w, d, hw, hd, happly, hcount, hopen⟩

end Veduta.Scheduler
