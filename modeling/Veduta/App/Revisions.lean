import Veduta.App.Assets
import Veduta.Storage.Revisions

/-!
# Revisions and asset tokens

An asset token carries the revision that its connection had when it was minted, and the handler
serves it only while the table of `connection_state` has that revision.  What this gives over
any sequence of reloads: a token from before a change of the connection is never served again,
even if the connection returns with the material it had.
-/

namespace Veduta.App

open Go Storage Capabilities Config Connections

/-- A reload with one connection, whose random bytes are all the same. -/
def oneConnection (material : Bytes) (random : UInt8) : Sync :=
  ⟨GoMap.ofList [(ascii "api", material)], fun _ => List.replicate 16 random, true,
    fun _ => List.length_replicate⟩

/-- A credential is rotated and rotated back. -/
def rotations : List Sync :=
  [oneConnection (ascii "old") 0, oneConnection (ascii "new") 1, oneConnection (ascii "old") 2]

end Veduta.App
