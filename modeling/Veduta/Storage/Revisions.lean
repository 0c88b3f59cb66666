import Veduta.Canonical.Digest
import Veduta.Go.Map

/-!
# Connection revisions

Package `storage`, for the table `connection_state`.  Each reload reconciles the table with the
material of the configured connections: a connection whose material is the one of the row
keeps its revision, every other one gets a random one, and the rows of connections that are no
longer configured go.  The transaction replaces the whole table or nothing.
-/

namespace Veduta.Storage

open Go Canonical

/-- A row of `connection_state`. -/
structure ConnectionRow where
  revision : Bytes
  material : Bytes
  deriving DecidableEq

/-- One call: the material of each configured connection, the random bytes that a connection
gets if it needs a revision, and whether the transaction commits. -/
structure Sync where
  materials : GoMap Bytes Bytes
  random : Bytes → Bytes
  committed : Bool
  /-- A random revision is made from sixteen bytes. -/
  sixteen : ∀ id, (random id).length = 16

def Sync.draw (s : Sync) (id : Bytes) : Bytes := hexString (s.random id)

/-- The revision of a connection: the one of its row, if the material is the same. -/
def Sync.revision (s : Sync) (old : GoMap Bytes ConnectionRow) (id material : Bytes) : Bytes :=
  let kept :=
    match old.lookup id with
    | some row => if row.material = material then row.revision else []
    | none => []
  if kept = [] then s.draw id else kept

def connectionRevision (table : GoMap Bytes ConnectionRow) (id : Bytes) : Option Bytes :=
  (table.lookup id).map ConnectionRow.revision

/-- The random revisions of all calls differ. -/
def Fresh (calls : List Sync) : Prop :=
  ∀ (i j : ℕ) (s s' : Sync), calls[i]? = some s → calls[j]? = some s' → ∀ id id',
    (s.materials.lookup id).isSome = true → (s'.materials.lookup id').isSome = true →
    s.draw id = s'.draw id' → i = j ∧ id = id'

variable {calls earlier later : List Sync} {s : Sync} {id : Bytes}
variable {old : GoMap Bytes ConnectionRow} {m id' revision : Bytes} {row : ConnectionRow}

theorem Fresh.init (later : List Sync) (h : Fresh (earlier ++ later)) : Fresh earlier := by
  intro i j s s' hs hs'
  refine h i j s s' ?_ ?_
  · rw [List.getElem?_append_left (List.getElem?_eq_some_iff.mp hs).1]
    exact hs
  · rw [List.getElem?_append_left (List.getElem?_eq_some_iff.mp hs').1]
    exact hs'

end Veduta.Storage
