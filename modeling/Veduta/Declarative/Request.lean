import Mathlib.Algebra.Order.Ring.Rat
import Mathlib.Algebra.Order.Ring.Abs
import Veduta.Go.Strconv
import Veduta.Go.Url
import Veduta.Manifestload.Request

/-!
# The request of a pipeline step

Package `declarative`: how a run of an operation turns a request of its manifest into the
call it makes to the broker.  What the templates evaluate to is a parameter: the
expressions are those of the expression language, and the values are whatever it yields.
-/

namespace Veduta.Declarative

open Go Lib Capabilities
open Manifestload (Template RequestDef)
open Routepath (TemplateError)

/-- A parameter of a run: a number of a card keeps its text, one of a default is a Go
number. -/
inductive ParamValue where
  | str (s : Bytes)
  | float (q : ℚ)
  | nonFinite
  | int (n : ℤ)
  | number (text : Bytes)
  | other
  deriving DecidableEq

/-- A parameter as path text: a string as itself, an integer in plain decimal. -/
def segmentValue : ParamValue → Option Bytes
  | .str s => some s
  | .float q => if q.den ≠ 1 ∨ |q| > 2 ^ 53 then none else some (formatInt q.num)
  | .int n => some (formatInt n)
  | .number text => if (parseInt text).isSome then some text else none
  | .nonFinite => none
  | .other => none

inductive PathError where
  | notValidated
  | parameterKind (name : Bytes)
  | template (e : TemplateError)
  deriving DecidableEq, Repr

/-- The values of the placeholders; one without a parameter is left to the expansion. -/
def placeholderValues (params : GoMap Bytes ParamValue) :
    List Bytes → GoMap Bytes Bytes → Except PathError (GoMap Bytes Bytes)
  | [], values => .ok values
  | name :: names, values =>
    match params.lookup name with
    | none => placeholderValues params names values
    | some v =>
      match segmentValue v with
      | none => .error (.parameterKind name)
      | some s => placeholderValues params names (values.insert name s)

def requestPath (r : RequestDef) (params : GoMap Bytes ParamValue) : Except PathError Bytes :=
  match r.pathTemplate with
  | none => .error .notValidated
  | some tpl =>
    match placeholderValues params tpl.placeholders ∅ with
    | .error e => .error e
    | .ok values => (tpl.expand values).mapError .template

/-- What templates evaluate to in one run: `eval` and its failures, the sentinel of an
`if` node that omits its value, the type assertion to a string, and `json.Marshal`. -/
structure Evaluation (ε V : Type) where
  eval : Template → Except ε V
  isOmitted : V → Bool
  asString : V → Option Bytes
  marshal : V → Except ε Bytes

inductive InvokeError (ε : Type) where
  | path (e : PathError)
  | eval (e : ε)
  | omitted
  | notString
  deriving DecidableEq

section

variable {ε V : Type} (ev : Evaluation ε V)

def evalString (t : Template) : Except (InvokeError ε) Bytes :=
  match ev.eval t with
  | .error e => .error (.eval e)
  | .ok v =>
    if ev.isOmitted v then .error .omitted
    else
      match ev.asString v with
      | none => .error .notString
      | some s => .ok s

def evalStrings (m : GoMap Bytes Template) : Except (InvokeError ε) (GoMap Bytes Bytes) :=
  m.traverse fun _ t => (evalString ev t).map some

def contentType : Bytes := ascii "Content-Type"

/-- The bytes of a body and the media type that goes with them.  Whatever is not JSON is
written as a form. -/
def encodeBody (b : Manifestload.BodyDef) : Except (InvokeError ε) (Bytes × Bytes) :=
  match b.json with
  | some t =>
    match ev.eval t with
    | .error e => .error (.eval e)
    | .ok v =>
      match ev.marshal v with
      | .error e => .error (.eval e)
      | .ok body => .ok (body, ascii "application/json")
  | none =>
    match evalStrings ev (b.form.getD ∅) with
    | .error e => .error e
    | .ok form =>
      let values : Values := form.filterMap fun _ v => some [v]
      .ok (values.encode, ascii "application/x-www-form-urlencoded")

/-- **The call a pipeline step makes.** -/
def buildRequest (r : RequestDef) (params : GoMap Bytes ParamValue) :
    Except (InvokeError ε) HTTPRequest :=
  match requestPath r params with
  | .error e => .error (.path e)
  | .ok path =>
    match evalStrings ev r.query with
    | .error e => .error e
    | .ok query =>
      match evalStrings ev r.headers with
      | .error e => .error e
      | .ok header =>
        let call : HTTPRequest :=
          { slot := r.slot, method := r.method, path := path, query := query, header := header }
        match r.body with
        | none => .ok call
        | some b =>
          match encodeBody ev b with
          | .error e => .error e
          | .ok (body, type) =>
            .ok { call with header := header.insert contentType type, body := body }

/-- The media type that a call carries: that of its body, or else the header that the
manifest declares, as it evaluates. -/
def sentType (r : RequestDef) : Bytes :=
  match r.body with
  | some b =>
    if b.json.isSome then ascii "application/json"
    else ascii "application/x-www-form-urlencoded"
  | none => ((r.headers.lookup contentType).bind fun t => (evalString ev t).toOption).getD []

/-- What of a call the manifest and the parameters fix. -/
structure Built (r : RequestDef) (params : GoMap Bytes ParamValue) (req : HTTPRequest) : Prop where
  slot : req.slot = r.slot
  method : req.method = r.method
  path : requestPath r params = .ok req.path
  keys : ∀ k, k ∈ req.query.keys → k ∈ r.query.keys
  type : req.header.get [] contentType = sentType ev r
  judgedLen : req.judgedLen = req.body.length

variable {ev}
variable {m : GoMap Bytes Template} {out : GoMap Bytes Bytes}

theorem lookup_evalStrings (h : evalStrings ev m = .ok out) (k : Bytes) :
    out.lookup k = (m.lookup k).bind fun t => (evalString ev t).toOption := by
  rw [GoMap.lookup_traverse h]
  refine congrArg _ (funext fun t => ?_)
  cases evalString ev t <;> rfl

theorem mem_keys_of_evalStrings (h : evalStrings ev m = .ok out) {k : Bytes} (hk : k ∈ out.keys) :
    k ∈ m.keys := by
  rw [GoMap.mem_keys_iff, lookup_evalStrings h] at hk
  rw [GoMap.mem_keys_iff]
  cases hm : m.lookup k with
  | none => simp [hm] at hk
  | some t => rfl

theorem encodeBody_type {b : Manifestload.BodyDef} {body type : Bytes}
    (h : encodeBody ev b = .ok (body, type)) :
    type = if b.json.isSome then ascii "application/json"
      else ascii "application/x-www-form-urlencoded" := by
  unfold encodeBody at h
  split at h
  case h_1 t hjson =>
    rw [hjson]
    split at h
    · cases h
    split at h
    · cases h
    cases h
    rfl
  case h_2 hjson =>
    rw [hjson]
    split at h
    · cases h
    cases h
    rfl

/-- **What a call is, whatever the templates evaluate to.** -/
theorem built_of_buildRequest {r : RequestDef} {params : GoMap Bytes ParamValue}
    {req : HTTPRequest} (h : buildRequest ev r params = .ok req) : Built ev r params req := by
  unfold buildRequest at h
  split at h
  · cases h
  rename_i path hpath
  split at h
  · cases h
  rename_i query hquery
  split at h
  · cases h
  rename_i header hheader
  dsimp only at h
  split at h
  case h_1 hbody =>
    cases h
    refine ⟨rfl, rfl, hpath, fun k => mem_keys_of_evalStrings hquery, ?_, rfl⟩
    rw [sentType, hbody, GoMap.get, lookup_evalStrings hheader]
  case h_2 b hbody =>
    split at h
    · cases h
    rename_i body type hencode
    cases h
    refine ⟨rfl, rfl, hpath, fun k => mem_keys_of_evalStrings hquery, ?_, rfl⟩
    rw [sentType, hbody, GoMap.get, AList.lookup_insert]
    exact encodeBody_type hencode

end

end Veduta.Declarative
