import Veduta.Scheduler.Manager

/-!
# What a reload shows

After `Apply` a card shows the document of its stored row, or nothing.  The row was produced
under an identity: the card's hash, the manifest's digest, the revision of the approval and the
revisions of the connections.  A definition that leaves one of them empty, such as that of a
card whose approval was revoked, is not compared on it, and so a row of another authority is
shown again.
-/

namespace Veduta.Scheduler

open Go Widgets Secrets State Storage

variable {R : Type}
variable {d : Definition R}

def rowOf (store : Option Store) (id : Bytes) : Option Row := store.bind fun s => s.cards.lookup id

/-- The state that a card has after `Apply`, by its row. -/
def stateAfter (secrets : Option Registry) (now : ℤ) (d : Definition R) : Option Row → CardState
  | none => pending d.id
  | some row =>
    if row.identity.mismatches d.identity then pending d.id
    else
      match row.read with
      | .error _ => pending d.id
      | .ok cs =>
        if Manager.documentLeaksSecret secrets cs.document then pending d.id
        else restored now cs d.source

/-! ## The loop -/

section

variable {secrets : Option Registry} {now : ℤ} {store store' : Option Store} {p p' : Prepared R}
variable {d : Definition R}

theorem accept_eq_ok (h : p.accept d = .ok p') : p.defs.lookup d.id = none ∧ p' = p.add d := by
  rw [Prepared.accept] at h
  split_ifs at h with _ hdup
  cases h
  exact ⟨by simpa using hdup, rfl⟩

theorem lookup_found (old : Option CardState) {id : Bytes} (hid : id ≠ d.id) :
    (p.found secrets now d old).states.lookup id = p.states.lookup id := by
  cases old with
  | none => rfl
  | some cs =>
    rw [Prepared.found]
    split_ifs
    · rfl
    · exact AList.lookup_insert_ne hid

@[simp] theorem defs_found (old : Option CardState) :
    (p.found secrets now d old).defs = p.defs := by
  cases old with
  | none => rfl
  | some cs =>
    rw [Prepared.found]
    split_ifs <;> rfl

theorem getCardFor_eq_ok {s s' : Store} {id : Bytes} {expected : Identity}
    {old : Option CardState} (h : s.getCardFor id expected = .ok (s', old)) :
    (∀ id' ≠ id, s'.cards.lookup id' = s.cards.lookup id') ∧
      (old = none ∧ (∀ row, s.cards.lookup id = some row →
          row.identity.mismatches expected = true) ∨
        ∃ row cs, s.cards.lookup id = some row ∧ row.identity.mismatches expected = false ∧
          row.read = .ok cs ∧ old = some cs) := by
  rw [Store.getCardFor] at h
  cases hrow : s.cards.lookup id with
  | none =>
    rw [hrow] at h
    cases h
    exact ⟨fun _ _ => rfl, .inl ⟨rfl, by simp⟩⟩
  | some row =>
    simp only [hrow] at h
    cases hmis : row.identity.mismatches expected with
    | true =>
      rw [hmis] at h
      cases h
      refine ⟨fun id' hid => AList.lookup_erase_ne hid, .inl ⟨rfl, ?_⟩⟩
      intro row' hrow'
      cases hrow'
      exact hmis
    | false =>
      rw [hmis] at h
      cases hread : row.read with
      | error e =>
        rw [hread] at h
        cases h
      | ok cs =>
        rw [hread] at h
        cases h
        exact ⟨fun _ _ => rfl, .inr ⟨row, cs, rfl, hmis, hread, rfl⟩⟩

section

variable (h : prepare secrets now store p d = (store', .ok p'))

include h

theorem prepare_cases :
    p.defs.lookup d.id = none ∧
      (store = none ∧ store' = none ∧ p' = p.add d.withDefaults ∨
        ∃ s s' old, store = some s ∧ store' = some s' ∧
          s.getCardFor d.id d.identity = .ok (s', old) ∧
          p' = (p.add d.withDefaults).found secrets now d old) := by
  unfold prepare at h
  split at h
  · cases h
  · rename_i hp
    obtain ⟨hfresh, rfl⟩ := accept_eq_ok hp
    cases h
    exact ⟨hfresh, .inl ⟨rfl, rfl, rfl⟩⟩
  · rename_i hp
    obtain ⟨hfresh, rfl⟩ := accept_eq_ok hp
    split at h
    · cases h
    · rename_i hget
      cases h
      exact ⟨hfresh, .inr ⟨_, _, _, rfl, rfl, hget, rfl⟩⟩

theorem prepare_frame :
    p.defs.lookup d.id = none ∧ (∀ id ≠ d.id, rowOf store' id = rowOf store id) ∧
      ∀ id, p'.defs.lookup id = none ↔ id ≠ d.id ∧ p.defs.lookup id = none := by
  obtain ⟨hfresh, hcases⟩ := prepare_cases h
  have hdefs : ∀ id, (p.add d.withDefaults).defs.lookup id = none ↔
      id ≠ d.id ∧ p.defs.lookup id = none := by
    intro id
    by_cases hid : id = d.id
    · subst hid
      simp [Prepared.add]
    · simp [Prepared.add, hid]
  rcases hcases with ⟨rfl, rfl, rfl⟩ | ⟨s, s', old, rfl, rfl, hget, rfl⟩
  · exact ⟨hfresh, fun _ _ => rfl, hdefs⟩
  · exact ⟨hfresh, (getCardFor_eq_ok hget).1, fun id => by rw [defs_found, hdefs]⟩

/-- **One turn of the loop.**  The card gets the state of its row, the others keep theirs. -/
theorem prepare_states :
    p'.states.lookup d.id = some (stateAfter secrets now d (rowOf store d.id)) ∧
      ∀ id ≠ d.id, p'.states.lookup id = p.states.lookup id := by
  have hadd : ∀ id ≠ d.id, (p.add d.withDefaults).states.lookup id = p.states.lookup id :=
    fun id hid => AList.lookup_insert_ne hid
  have hself : (p.add d.withDefaults).states.lookup d.id = some (pending d.id) :=
    AList.lookup_insert _
  rcases (prepare_cases h).2 with ⟨rfl, rfl, rfl⟩ | ⟨s, s', old, rfl, rfl, hget, rfl⟩
  · exact ⟨hself, hadd⟩
  · refine ⟨?_, fun id hid => by rw [lookup_found old hid, hadd id hid]⟩
    rcases (getCardFor_eq_ok hget).2 with ⟨rfl, hmis⟩ | ⟨row, cs, hrow, hmis, hread, rfl⟩
    · cases hrow : s.cards.lookup d.id with
      | none => simpa [rowOf, hrow, stateAfter, Prepared.found] using hself
      | some row => simpa [rowOf, hrow, stateAfter, Prepared.found, hmis row hrow] using hself
    · simp only [rowOf, Option.bind_some, hrow, stateAfter, hmis, hread, Prepared.found,
        Bool.false_eq_true, if_false]
      split_ifs
      · exact hself
      · exact AList.lookup_insert _

end

/-- **The loop.**  What each turn gives its card by its row, and leaves to the others, every card
has in the end. -/
theorem prepareAll_of_prepare {α : Type} (f : Prepared R → Bytes → α)
    (P : Definition R → Option Row → α → Prop) {I : Prepared R → Prop}
    (hturn : ∀ {store store' : Option Store} {p p' : Prepared R} {d : Definition R}, I p →
      prepare secrets now store p d = (store', .ok p') →
      P d (rowOf store d.id) (f p' d.id) ∧ (∀ id ≠ d.id, f p' id = f p id) ∧ I p')
    {defs : List (Definition R)} (hI : I p)
    (h : prepareAll secrets now store p defs = (store', .ok p')) :
    (∀ d ∈ defs, p.defs.lookup d.id = none ∧ P d (rowOf store d.id) (f p' d.id)) ∧
      ∀ id, p.defs.lookup id ≠ none → f p' id = f p id := by
  induction defs generalizing store p with
  | nil =>
    cases h
    exact ⟨by simp, fun _ _ => rfl⟩
  | cons d defs ih =>
    rw [prepareAll] at h
    rcases hprepare : prepare secrets now store p d with ⟨s, r⟩
    cases r with
    | error e =>
      rw [hprepare] at h
      cases h
    | ok q =>
      simp only [hprepare] at h
      obtain ⟨hfresh, hrows, hdefs⟩ := prepare_frame hprepare
      obtain ⟨hself, hother, hI'⟩ := hturn hI hprepare
      obtain ⟨htail, hkeep⟩ := ih hI' h
      have hmem : q.defs.lookup d.id ≠ none := fun hnone => ((hdefs d.id).mp hnone).1 rfl
      constructor
      · intro d' hd'
        rcases List.mem_cons.mp hd' with rfl | hd'
        · exact ⟨hfresh, by rw [hkeep _ hmem]; exact hself⟩
        · obtain ⟨hnone, hstate⟩ := htail d' hd'
          obtain ⟨hne, hnone⟩ := (hdefs d'.id).mp hnone
          exact ⟨hnone, by rw [← hrows d'.id hne]; exact hstate⟩
      · intro id hid
        have hne : id ≠ d.id := fun heq => hid (heq ▸ hfresh)
        rw [hkeep id fun hnone => hid ((hdefs id).mp hnone).2, hother id hne]

theorem prepareAll_of_apply {m : Manager R} {defs : List (Definition R)}
    (h : (m.apply now defs).2 = none) :
    ∃ store p, prepareAll m.secrets now m.store .empty defs = (store, .ok p) ∧
      (m.apply now defs).1 = { m.swap p with store } := by
  rw [Manager.apply] at h ⊢
  rcases hloop : prepareAll m.secrets now m.store .empty defs with ⟨store, r⟩
  cases r with
  | error e =>
    rw [hloop] at h
    cases h
  | ok p => exact ⟨store, p, rfl, rfl⟩

end

theorem lookup_states_apply {now : ℤ} {m : Manager R} {defs : List (Definition R)}
    (h : (m.apply now defs).2 = none) (hd : d ∈ defs) :
    (m.apply now defs).1.states.lookup d.id =
      some (stateAfter m.secrets now d (rowOf m.store d.id)) := by
  obtain ⟨store, p, hloop, heq⟩ := prepareAll_of_apply h
  have hstates := prepareAll_of_prepare (fun p => p.states.lookup)
    (fun d row cs => cs = some (stateAfter m.secrets now d row)) (I := fun _ => True)
    (fun _ h => ⟨(prepare_states h).1, (prepare_states h).2, trivial⟩) trivial hloop
  rw [heq]
  exact (hstates.1 d hd).2

/-! ## What is shown again -/

/-- The row holds a document, and it leaks no secret. -/
def servable (secrets : Option Registry) (row : Row) : Bool :=
  match row.read with
  | .error _ => false
  | .ok cs => cs.document.isSome && !Manager.documentLeaksSecret secrets cs.document

/-- A component that is expected to be empty is empty. -/
def EmptyAlike (stored expected : Identity) : Prop :=
  (expected.manifestDigest = [] → stored.manifestDigest = []) ∧
    (expected.approvalRevision = [] → stored.approvalRevision = []) ∧
    (expected.slotRevisions = [] → stored.slotRevisions = [])

theorem isSome_document_stateAfter {secrets : Option Registry} {now : ℤ} {row : Option Row} :
    (stateAfter secrets now d row).document.isSome = true ↔
      ∃ r, row = some r ∧ r.identity.mismatches d.identity = false ∧
        servable secrets r = true := by
  cases row with
  | none => simp [stateAfter, pending]
  | some r =>
    simp only [stateAfter, servable, Option.some.injEq, exists_eq_left']
    cases r.identity.mismatches d.identity with
    | true => simp [pending]
    | false =>
      cases r.read with
      | error e => simp [pending]
      | ok cs =>
        cases hleak : Manager.documentLeaksSecret secrets cs.document with
        | true => simp [hleak, pending]
        | false => simp [hleak]

theorem eq_iff_emptyAlike {stored expected : Identity}
    (h : stored.mismatches expected = false) : stored = expected ↔ EmptyAlike stored expected := by
  obtain ⟨hhash, hdigest, happroval, hslots⟩ := mismatches_eq_false.mp h
  constructor
  · intro heq
    subst heq
    exact ⟨id, id, id⟩
  · intro hempty
    have hdigest' : stored.manifestDigest = expected.manifestDigest :=
      hdigest.elim (fun hnil => (hempty.1 hnil).trans hnil.symm) id
    have happroval' : stored.approvalRevision = expected.approvalRevision :=
      happroval.elim (fun hnil => (hempty.2.1 hnil).trans hnil.symm) id
    have hslots' : stored.slotRevisions = expected.slotRevisions :=
      hslots.elim (fun hnil => (hempty.2.2 hnil).trans hnil.symm) id
    cases stored
    cases expected
    simp_all

/-- **What a reload shows.**  After a successful `Apply` a card shows a stored document only
under the identity of its definition, exactly if no row that passes the comparison holds a
component which the definition leaves empty. -/
theorem apply_restores_same_identity_iff {now : ℤ} {m : Manager R} {defs : List (Definition R)}
    (h : (m.apply now defs).2 = none) :
    (∀ d ∈ defs, ∀ cs, (m.apply now defs).1.states.lookup d.id = some cs →
        cs.document.isSome = true →
        ∃ row, rowOf m.store d.id = some row ∧ row.identity = d.identity) ↔
      ∀ d ∈ defs, ∀ row, rowOf m.store d.id = some row →
        row.identity.mismatches d.identity = false → servable m.secrets row = true →
        EmptyAlike row.identity d.identity := by
  constructor
  · intro hshown d hd row hrow hmis hserv
    have hdoc : (stateAfter m.secrets now d (rowOf m.store d.id)).document.isSome = true :=
      isSome_document_stateAfter.mpr ⟨row, hrow, hmis, hserv⟩
    obtain ⟨row', hrow', heq⟩ := hshown d hd _ (lookup_states_apply h hd) hdoc
    cases hrow.symm.trans hrow'
    exact (eq_iff_emptyAlike hmis).mp heq
  · intro halike d hd cs hcs hdoc
    cases (lookup_states_apply h hd).symm.trans hcs
    obtain ⟨row, hrow, hmis, hserv⟩ := isSome_document_stateAfter.mp hdoc
    exact ⟨row, hrow, (eq_iff_emptyAlike hmis).mpr (halike d hd row hrow hmis hserv)⟩

/-- A document with a title. -/
def titled (title : Bytes) : Document := { zeroDocument with title }

/-- A card under an approval of a manifest, or under none. -/
def cardUnder (digest approval reason : Bytes) : Definition Unit where
  id := ascii "a"
  hash := ascii "h"
  key := []
  manifestDigest := digest
  approvalRevision := approval
  slotRevisions := ascii "[]"
  refresh := minute
  timeout := second
  source := Source.struct.zero
  run := none
  disabled := reason
  historySignals := ∅
  generation := 0

/-- A manager whose store holds a run of the card under an approval. -/
def approvedManager : Manager Unit :=
  let approved := (cardUnder (ascii "d") (ascii "r") []).identity
  let shown := ok 0 (ascii "a") (titled (ascii "t")) Source.struct.zero minute second
  .new (Store.empty.putCardWithSignals ⟨approved, shown⟩ ∅).toOption none

/-- Applying the same definition again shows its own document. -/
theorem apply_restores_same_identity_iff_approved :
    (approvedManager.apply 0 [cardUnder (ascii "d") (ascii "r") []]).2 = none ∧
      ∀ d ∈ [cardUnder (ascii "d") (ascii "r") []], ∀ cs,
        (approvedManager.apply 0 [cardUnder (ascii "d") (ascii "r") []]).1.states.lookup d.id =
          some cs → cs.document.isSome = true →
        ∃ row, rowOf approvedManager.store d.id = some row ∧ row.identity = d.identity := by
  have hok : (approvedManager.apply 0 [cardUnder (ascii "d") (ascii "r") []]).2 = none :=
    Option.isNone_iff_eq_none.mp (by decide +kernel)
  refine ⟨hok, (apply_restores_same_identity_iff hok).mpr ?_⟩
  intro d hd row _ _ _
  cases List.mem_singleton.mp hd
  exact ⟨nofun, nofun, nofun⟩

/-- After its approval was revoked, the card shows the document of the approved run. -/
theorem apply_restores_revoked :
    (approvedManager.apply 0 [cardUnder [] [] reasonUnapproved]).2 = none ∧
      ∃ cs, (approvedManager.apply 0 [cardUnder [] [] reasonUnapproved]).1.states.lookup
          (ascii "a") = some cs ∧ cs.document.isSome = true ∧
        ∃ row, rowOf approvedManager.store (ascii "a") = some row ∧
          row.identity ≠ (cardUnder [] [] reasonUnapproved).identity := by
  have hstate : ((approvedManager.apply 0 [cardUnder [] [] reasonUnapproved]).1.states.lookup
      (ascii "a")).any (fun cs => cs.document.isSome) = true := by decide +kernel
  have hrow : (rowOf approvedManager.store (ascii "a")).any
      (fun row => row.identity ≠ (cardUnder [] [] reasonUnapproved).identity) = true := by
    decide +kernel
  obtain ⟨cs, hcs, hdoc⟩ := (Option.any_eq_true _ _).mp hstate
  obtain ⟨row, hrow, hne⟩ := (Option.any_eq_true _ _).mp hrow
  exact ⟨Option.isNone_iff_eq_none.mp (by decide +kernel), cs, hcs, hdoc, row, hrow,
    by simpa using hne⟩

end Veduta.Scheduler
