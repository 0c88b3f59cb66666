import Veduta.Manifestload.Request

/-!
# The manifest of an http-json card

Package `manifestload`: a card of the builtin integration `http-json` names one request and
carries its own view; the loader makes a manifest with one operation of them.  The compiler
of the view, which parses expressions, is a parameter.
-/

namespace Veduta.Manifestload

open Go Lib Config
open Routepath (canonicalise)

/-- What an http-json card says; the view is its own, not the manifest's. -/
structure HTTPJSONCard where
  path : Bytes
  method : Bytes
  query : GoMap Bytes Bytes
  view : GoMap Bytes AnyVal

/-- The digest that every such manifest carries. -/
def httpJSONDigest : Bytes := ascii "http-json"

def httpJSONAggregateExprMax : ℕ := 4096

inductive HTTPJSONError where
  | method (method : Bytes)
  | path (path : Bytes) (e : Routepath.Error)
  | request (e : RequestError)
  | view
  | viewNodes (total : ℕ)

/-- The one operation, with the request before it is checked. -/
def httpJSONOperation (slot method path : Bytes) (query : GoMap Bytes Bytes) : OperationDef where
  id := ascii "request"
  routes := [{ slot := slot, method := method, path := path }]
  pipeline :=
    [{ as := ascii "data",
       request :=
        { slot := slot, method := method, path := some (.literal (.str path)),
          query := query.filterMap fun _ v => some (.literal (.str v)) } }]

/-- **The manifest of a card**, and the template of its view. -/
def synthesizeHTTPJSON (compileView : GoMap Bytes AnyVal → Option (Template × ℕ)) (slot : Bytes)
    (card : HTTPJSONCard) : Except HTTPJSONError (Manifest × Template) :=
  let method := if card.method = [] then ascii "GET" else card.method
  if method ≠ ascii "GET" ∧ method ≠ ascii "POST" then .error (.method method)
  else
    match canonicalise card.path with
    | .error e => .error (.path card.path e)
    | .ok path =>
      let m : Manifest :=
        { id := ascii "http-json", version := [], digest := httpJSONDigest,
          capabilities := [ascii "http"], slots := [⟨slot, ascii "http", true⟩],
          operations := [httpJSONOperation slot method path card.query] }
      match loadOperation m (httpJSONOperation slot method path card.query) with
      | .error e => .error (.request e.error)
      | .ok op =>
        match compileView card.view with
        | none => .error .view
        | some (output, total) =>
          if total > httpJSONAggregateExprMax then .error (.viewNodes total)
          else .ok ({ m with operations := [op] }, output)

end Veduta.Manifestload
