import Veduta.State.CardState

/-!
# Stored cards

Package `storage`, for the table of card states and the table of signal samples.  A row holds
the envelope of a card with the four components of the identity under which it was produced.
A component that the caller leaves empty is not compared when the row is read back.
-/

namespace Veduta.Storage

open Go State

/-- What controls the validity of a stored envelope. -/
structure Identity where
  cardHash : Bytes
  manifestDigest : Bytes
  approvalRevision : Bytes
  slotRevisions : Bytes
  deriving DecidableEq

/-- An envelope with its identity. -/
structure CardRecord extends Identity where
  state : CardState

/-- A row of `card_state`, whose columns of the identity may be NULL but for the hash. -/
structure Row where
  cardHash : Bytes
  manifestDigest : Option Bytes
  approvalRevision : Option Bytes
  slotRevisions : Option Bytes
  envelope : Bytes

/-- The identity as it is selected: `coalesce` makes NULL the empty text. -/
def Row.identity (row : Row) : Identity :=
  ⟨row.cardHash, row.manifestDigest.getD [], row.approvalRevision.getD [],
    row.slotRevisions.getD []⟩

/-- The two tables; a sample is keyed by its card, signal and time. -/
structure Store where
  cards : GoMap Bytes Row
  signalHistory : GoMap (Bytes × Bytes × Bytes) ℚ

def Store.empty : Store := ⟨∅, ∅⟩

def putSamples (history : GoMap (Bytes × Bytes × Bytes) ℚ) (cardID stamp : Bytes)
    (signals : GoMap Bytes ℚ) : GoMap (Bytes × Bytes × Bytes) ℚ :=
  signals.entries.foldl (fun h p => h.insert (cardID, p.1, stamp) p.2) history

/-- `PutCardWithSignals`, one transaction. -/
def Store.putCardWithSignals (s : Store) (r : CardRecord) (signals : GoMap Bytes ℚ) :
    Except Bytes Store := do
  r.state.validate
  let row : Row := ⟨r.cardHash, some r.manifestDigest, some r.approvalRevision,
    some r.slotRevisions, r.state.marshal⟩
  return ⟨s.cards.insert r.state.cardID row,
    putSamples s.signalHistory r.state.cardID r.state.execution.generatedAt signals⟩

def Store.rows (s : Store) (card signal : Bytes) : ℕ :=
  s.signalHistory.keys.countP fun k => k.1 = card ∧ k.2.1 = signal

/-- Whether an expected component is supplied and differs. -/
def differs (expected stored : Bytes) : Bool := expected ≠ [] && stored ≠ expected

/-- The comparison of `GetCardFor`. -/
def Identity.mismatches (stored expected : Identity) : Bool :=
  stored.cardHash ≠ expected.cardHash ||
    differs expected.manifestDigest stored.manifestDigest ||
    differs expected.approvalRevision stored.approvalRevision ||
    differs expected.slotRevisions stored.slotRevisions

/-- An envelope that cannot be restored. -/
inductive GetError where
  | unreadable
  | invalid (message : Bytes)

def Row.read (row : Row) : Except GetError CardState :=
  match CardState.unmarshal row.envelope with
  | none => .error .unreadable
  | some out =>
    match out.validate with
    | .error message => .error (.invalid message)
    | .ok () => .ok out

/-- `GetCardFor`: a row of another identity is deleted. -/
def Store.getCardFor (s : Store) (id : Bytes) (expected : Identity) :
    Except GetError (Store × Option CardState) :=
  match s.cards.lookup id with
  | none => .ok (s, none)
  | some row =>
    if row.identity.mismatches expected then .ok ({ s with cards := s.cards.erase id }, none)
    else row.read.map fun cs => (s, some cs)

theorem differs_eq_false {expected stored : Bytes} :
    differs expected stored = false ↔ expected = [] ∨ stored = expected := by
  simp [differs, or_iff_not_imp_left]

theorem mismatches_eq_false {stored expected : Identity} :
    stored.mismatches expected = false ↔ stored.cardHash = expected.cardHash ∧
      (expected.manifestDigest = [] ∨ stored.manifestDigest = expected.manifestDigest) ∧
      (expected.approvalRevision = [] ∨ stored.approvalRevision = expected.approvalRevision) ∧
      (expected.slotRevisions = [] ∨ stored.slotRevisions = expected.slotRevisions) := by
  simp [Identity.mismatches, differs_eq_false, and_assoc]

theorem countP_keys_insert {K V : Type} [DecidableEq K] (p : K → Bool) (m : GoMap K V) (k : K)
    (v : V) : (m.insert k v).keys.countP p =
      m.keys.countP p + if p k = true ∧ m.lookup k = none then 1 else 0 := by
  rw [AList.keys_insert, List.countP_cons]
  by_cases hk : k ∈ m.keys
  · have hperm := (List.perm_cons_erase hk).countP_eq p
    have hsome : m.lookup k ≠ none := by rwa [Ne, AList.lookup_eq_none, not_not, AList.mem_keys]
    rw [hperm, List.countP_cons, if_neg (c := _ ∧ _) fun h => hsome h.2, add_zero]
  · have hnone : m.lookup k = none := AList.lookup_eq_none.mpr hk
    rw [List.erase_of_not_mem hk]
    simp [hnone]

/-- A signal gets a row if the samples have it and there is none at their instant. -/
theorem rows_putSamples (s : Store) (id stamp card signal : Bytes) (signals : GoMap Bytes ℚ) :
    Store.rows ⟨s.cards, putSamples s.signalHistory id stamp signals⟩ card signal =
      s.rows card signal + if id = card ∧ (signals.lookup signal).isSome = true ∧
        s.signalHistory.lookup (id, signal, stamp) = none then 1 else 0 := by
  have hmem : (signals.lookup signal).isSome = true ↔ signal ∈ signals.entries.keys :=
    AList.lookup_isSome
  simp only [Store.rows, putSamples, hmem]
  clear hmem
  have hnodup := signals.nodupKeys
  generalize signals.entries = l at hnodup
  generalize s.signalHistory = h
  induction l generalizing h with
  | nil => simp
  | cons x l ih =>
    obtain ⟨hx, hl⟩ := List.nodupKeys_cons.mp hnodup
    have hinsert := countP_keys_insert
      (fun k : Bytes × Bytes × Bytes => decide (k.1 = card ∧ k.2.1 = signal)) h
      (id, x.1, stamp) x.2
    rw [List.foldl_cons, ih hl, hinsert, add_assoc]
    congr 1
    by_cases hsignal : signal = x.1
    · subst hsignal
      simp [List.keys_cons, hx]
    · have hne : (id, signal, stamp) ≠ (id, x.1, stamp) := by simp [hsignal]
      simp [List.keys_cons, AList.lookup_insert_ne hne, hsignal, Ne.symm hsignal]

end Veduta.Storage
