import Mathlib.Data.Rat.Defs
import Veduta.Go.Url

/-!
# Configured connections

Package `config`: a connection as it is written.  Its credentials may name secrets, alone or
inside a larger text; the names are carried through and resolved later.
-/

namespace Veduta.Config

open Go

/-- A literal, the name of a secret, or a text with names in it. -/
structure SecretRef where
  literal : Bytes := []
  name : Bytes := []
  template : Bytes := []
  names : List Bytes := []
  deriving DecidableEq, Repr

namespace SecretRef

def isSecret (r : SecretRef) : Bool := r.name ≠ [] || r.names ≠ []

/-- How a reference is written. -/
def placeholder (name : Bytes) : Bytes := ascii "$\x7bsecret:" ++ name ++ ascii "\x7d"

def isNameByte (b : UInt8) : Bool := isAlnum b || b == chr '_'

/-- The name of the reference that a text starts with, and what follows it. -/
def referenceAt (s : Bytes) : Option (Bytes × Bytes) :=
  let opening := ascii "$\x7bsecret:"
  let name := (s.drop opening.length).takeWhile isNameByte
  let rest := (s.drop opening.length).dropWhile isNameByte
  if hasPrefix s opening ∧ name ≠ [] ∧ rest.head? = some (chr '\x7d') then some (name, rest.tail)
  else none

/-- `FindAllStringSubmatch`: a reference has one dollar, so two of them never overlap. -/
def occurrences (s : Bytes) : List Bytes := s.tails.filterMap fun t => (referenceAt t).map Prod.fst

/-- `UnmarshalYAML`, for the string of a scalar. -/
def ofScalar (s : Bytes) : SecretRef :=
  match referenceAt s with
  | some (name, []) => { name := name }
  | _ =>
    if occurrences s ≠ [] then { template := s, names := occurrences s } else { literal := s }

def references (r : SecretRef) : List Bytes :=
  if !r.isSecret then [] else if r.template ≠ [] then r.names else [r.name]

example : ofScalar (placeholder (ascii "TOKEN")) = { name := ascii "TOKEN" } ∧
    (ofScalar (ascii "Token=" ++ placeholder (ascii "A") ++ placeholder (ascii "B"))).names =
      [ascii "A", ascii "B"] := by
  decide +kernel

end SecretRef

inductive AuthType where
  | none
  | header
  | query
  | bearer
  | basic
  deriving DecidableEq, Repr

/-- The credential of a connection; the default type is `none`. -/
structure ConnectionAuth where
  type : Option AuthType := .none
  name : Bytes := []
  value : SecretRef := {}
  username : Bytes := []
  password : SecretRef := {}

structure TLSConfig where
  insecureSkipVerify : Bool := false
  caFile : Bytes := []
  serverName : Bytes := []
  deriving DecidableEq, Repr

/-- A number of requests each second, which is finite, and how many may come at once. -/
structure RateLimit where
  rps : ℚ := 0
  burst : Int := 0
  deriving DecidableEq, Repr

structure HTTPConnection where
  baseURL : Bytes
  auth : ConnectionAuth := {}
  headers : GoMap Bytes SecretRef := ∅
  tls : TLSConfig := {}
  timeout : Bytes := []
  maxResponseBytes : Int := 0
  maxRedirects : Int := 0
  allowedPaths : List Bytes := []
  rateLimit : RateLimit := {}
  concurrency : Int := 0

structure DockerConnection where
  endpoint : Bytes
  allowActions : Bool := false
  timeout : Bytes := []

/-- The settings of a connection, by its kind: decoding refuses any other. -/
inductive Settings where
  | http (h : HTTPConnection)
  | docker (d : DockerConnection)

/-- A connection; one that does not say so is enabled. -/
structure Connection where
  enabled : Option Bool := none
  settings : Settings

def Connection.isEnabled (c : Connection) : Bool := c.enabled.getD true

/-- The secrets that a connection names: in its credential and in its headers. -/
def Connection.references (c : Connection) : List Bytes :=
  match c.settings with
  | .http h =>
    h.auth.value.references ++ h.auth.password.references ++
      h.headers.entries.flatMap fun x => x.2.references
  | .docker _ => []

end Veduta.Config
