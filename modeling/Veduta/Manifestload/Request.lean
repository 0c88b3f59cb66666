import Veduta.Config.Snapshot
import Veduta.Integrations.Approve
import Veduta.Routepath.Template

/-!
# Pipeline requests at load time

Package `manifestload`: an operation's pipeline, and the check that each of its requests
falls under a route the operation declares.  The parser of expressions, the document
schema and the rules on outputs only refuse more manifests; they are not part of this
module.
-/

namespace Veduta.Manifestload

open Go Lib Config
open Integrations (Route)
open Routepath (TemplateError parseTemplate)

/-- An expression with its place in the document and the size of its tree. -/
structure Expression where
  source : Bytes
  line : ℕ
  column : ℕ
  nodes : ℕ
  deriving DecidableEq, Repr

/-- One node of the closed template grammar. -/
inductive Template where
  | literal (value : AnyVal)
  | object (members : List (Bytes × Template))
  | array (items : List Template)
  | expr (expression : Expression)
  | asset (slot : Bytes) (path : Template) (query : List (Bytes × Template)) (transform : Bytes)
  | each (expression : Expression) (as : Bytes) (item : Template)
  | cond (test : Expression) (body : Template)

/-- A structured body.  A document that writes `json: null` has neither part. -/
structure BodyDef where
  json : Option Template
  form : Option (GoMap Bytes Template)

/-- A request of a pipeline; `pathTemplate` is set by the check below. -/
structure RequestDef where
  slot : Bytes
  method : Bytes
  path : Option Template
  pathTemplate : Option Routepath.Template := none
  query : GoMap Bytes Template := ∅
  headers : GoMap Bytes Template := ∅
  body : Option BodyDef := none

structure PipelineStep where
  as : Bytes
  test : Option Expression := none
  request : RequestDef

structure OperationDef extends Integrations.OperationDef where
  params : AnyVal := .null
  pipeline : List PipelineStep

structure SlotSpec where
  name : Bytes
  kind : Bytes
  required : Bool

structure Manifest where
  id : Bytes
  version : Bytes
  digest : Bytes
  capabilities : List Bytes
  slots : List SlotSpec
  operations : List OperationDef

inductive RequestError where
  | noHTTPCapability
  | undeclaredSlot (slot : Bytes)
  | pathNotLiteral
  | pathNotString
  | path (p : Bytes) (e : TemplateError)
  | noParameter (p name : Bytes)
  | parameterType (p name : Bytes) (got : Option AnyVal)
  | parameterAbsent (p name : Bytes)
  | noRouteForEveryValue (method p : Bytes)
  | noRoute (method p : Bytes)

/-- The members of an object; a type assertion that fails leaves a map without any. -/
def members : Option AnyVal → List (Bytes × AnyVal)
  | some (.obj ms) => ms
  | _ => []

def isString (s : Bytes) : AnyVal → Bool
  | .str t => t == s
  | _ => false

/-- A placeholder names a string or an integer that is present in every run: it is
required, or it has a default. -/
def placeholderParam (op : OperationDef) (p name : Bytes) : Except RequestError Unit :=
  let schema := members (some op.params)
  match (members (schema.lookup (ascii "properties"))).lookup name with
  | some (.obj prop) =>
    let type := prop.lookup (ascii "type")
    if !(type.any (isString (ascii "string")) || type.any (isString (ascii "integer"))) then
      .error (.parameterType p name type)
    else if (prop.lookup (ascii "default")).isSome then .ok ()
    else
      match schema.lookup (ascii "required") with
      | some (.arr required) =>
        if required.any (isString name) then .ok () else .error (.parameterAbsent p name)
      | _ => .error (.parameterAbsent p name)
  | _ => .error (.noParameter p name)

/-- The media type that a route must declare for a body, as the loader sees it. -/
def wantedType (b : BodyDef) : Bytes :=
  if b.form.isSome then ascii "application/x-www-form-urlencoded" else ascii "application/json"

/-- The query keys and the content type of a route against a request. -/
def routeCoversRequest (r : Route) (req : RequestDef) : Bool :=
  if !(r.queryKeys.all fun allowed => req.query.keys.all fun k => allowed.contains k) then false
  else
    match req.body with
    | some b => !(r.contentType != [] && !hasPrefix (toLower r.contentType) (wantedType b))
    | none => true

/-- The test that the loader looks for a route with. -/
def coversAtLoad (rt : Route) (r : RequestDef) (tpl : Routepath.Template) : Bool :=
  rt.slot == r.slot && rt.method == r.method && (rt.use == [] || rt.use == ascii "data") &&
    tpl.coveredBy rt.path && routeCoversRequest rt r

/-- **The check of one request**, which also keeps its parsed path. -/
def validateRequest (m : Manifest) (op : OperationDef) (r : RequestDef) :
    Except RequestError RequestDef :=
  if !m.capabilities.contains (ascii "http") then .error .noHTTPCapability
  else if !m.slots.any fun s => s.name == r.slot then .error (.undeclaredSlot r.slot)
  else
    match r.path with
    | some (.literal (.str p)) =>
      match parseTemplate p with
      | .error e => .error (.path p e)
      | .ok tpl =>
        match tpl.placeholders.mapM (placeholderParam op p) with
        | .error e => .error e
        | .ok _ =>
          if op.routes.any fun rt => coversAtLoad rt r tpl then
            .ok { r with pathTemplate := some tpl }
          else if tpl.placeholders ≠ [] then .error (.noRouteForEveryValue r.method p)
          else .error (.noRoute r.method p)
    | some (.literal _) => .error .pathNotString
    | _ => .error .pathNotLiteral

/-- Which request of a manifest was refused, and why. -/
structure LoadError where
  operation : Bytes
  index : ℕ
  error : RequestError

/-- A request without a method is a `GET`. -/
def loadRequest (m : Manifest) (op : OperationDef) (r : RequestDef) :
    Except RequestError RequestDef :=
  validateRequest m op { r with method := if r.method = [] then ascii "GET" else r.method }

def loadPipeline (m : Manifest) (op : OperationDef) : Except LoadError (List PipelineStep) :=
  op.pipeline.zipIdx.mapM fun s =>
    match loadRequest m op s.1.request with
    | .error e => .error ⟨op.id, s.2, e⟩
    | .ok r => .ok { s.1 with request := r }

def loadOperation (m : Manifest) (op : OperationDef) : Except LoadError OperationDef :=
  match loadPipeline m op with
  | .error e => .error e
  | .ok pipeline => .ok { op with pipeline := pipeline }

/-- **The loader**, as far as requests go. -/
def load (raw : Manifest) : Except LoadError Manifest :=
  match raw.operations.mapM (loadOperation raw) with
  | .error e => .error e
  | .ok operations => .ok { raw with operations := operations }

/-- A request with a parsed path, which a route of the operation covers. -/
def Checked (op : OperationDef) (r : RequestDef) : Prop :=
  ∃ p tpl, parseTemplate p = .ok tpl ∧ r.pathTemplate = some tpl ∧
    ∃ rt ∈ op.routes, coversAtLoad rt r tpl = true

variable {m : Manifest} {op : OperationDef} {s : PipelineStep}

theorem checked_of_validateRequest {r r' : RequestDef} (h : validateRequest m op r = .ok r') :
    Checked op r' := by
  unfold validateRequest at h
  split_ifs at h
  split at h
  case h_1 p _ =>
    split at h
    · cases h
    rename_i tpl hparse
    split at h
    · cases h
    split_ifs at h with hroute
    cases h
    obtain ⟨rt, hrt, hcovers⟩ := List.any_eq_true.mp hroute
    exact ⟨p, tpl, hparse, rfl, rt, hrt, hcovers⟩
  · cases h
  · cases h

theorem checked_of_loadOperation {op' : OperationDef} (h : loadOperation m op = .ok op')
    (hs : s ∈ op'.pipeline) : Checked op' s.request := by
  rw [loadOperation] at h
  split at h
  · cases h
  rename_i pipeline hpipeline
  cases h
  obtain ⟨s₀, _, hstep⟩ := exists_of_mem_mapM_ok hpipeline hs
  split at hstep
  · cases hstep
  rename_i r hr
  cases hstep
  exact checked_of_validateRequest hr

/-- **What loading guarantees of every request in a manifest.** -/
theorem covered_of_load {raw : Manifest} (h : load raw = .ok m) (hop : op ∈ m.operations)
    (hs : s ∈ op.pipeline) : Checked op s.request := by
  rw [load] at h
  split at h
  · cases h
  rename_i operations hoperations
  cases h
  obtain ⟨op₀, _, hload⟩ := exists_of_mem_mapM_ok hoperations hop
  exact checked_of_loadOperation hload hs

end Veduta.Manifestload
