import Mathlib.Data.Rat.Defs
import Veduta.Go.Map
import Veduta.Go.Strings

/-!
# The configuration in force

Package `config`: what of a loaded configuration the runtime reads.  The maps by id are
built by the loader, which refuses a configuration that uses an id twice.
-/

namespace Veduta.Config

open Go

/-- A value decoded into `any`; a timestamp that is not quoted becomes a `time.Time`. -/
inductive AnyVal where
  | null
  | bool (b : Bool)
  | int (n : ℤ)
  | float (q : ℚ)
  | nonFinite
  | str (s : Bytes)
  | time (text : Bytes)
  | arr (items : List AnyVal)
  | obj (members : List (Bytes × AnyVal))

/-- A declared integration; it is enabled unless it says otherwise. -/
structure Integration where
  id : Bytes
  source : Bytes
  enabled : Option Bool

def Integration.isEnabled (i : Integration) : Bool := i.enabled.getD true

/-- One tile of the dashboard, without its presentation. -/
structure Card where
  id : Bytes
  integration : Bytes
  operation : Bytes
  slots : GoMap Bytes Bytes
  params : GoMap Bytes AnyVal
  view : GoMap Bytes AnyVal
  refresh : Bytes

structure Section where
  cards : List Card

structure Snapshot where
  sections : List Section
  integrationsByID : GoMap Bytes Integration

def Snapshot.cards (s : Snapshot) : List Card := s.sections.flatMap Section.cards

end Veduta.Config
