import Veduta.App.Grant
import Veduta.Capabilities.ContentType
import Veduta.Declarative.Request

/-!
# Coverage at load time and authorisation at run time

The loader accepts a manifest when a declared route covers every request of every
pipeline, so that no card finds out from the broker that its integration is wrong.  For
slot, method, path and query this is so: whatever the parameters, the route that covers
the request at load takes the call at run time.  The content type is the exception.  The
loader compares a leading part of it, and only when there is a body; the broker compares
normal forms, and always.
-/

namespace Veduta.App

open Go Lib Routepath Capabilities Connections
open Declarative (Evaluation ParamValue buildRequest sentType Built)
open Manifestload (PipelineStep coversAtLoad)

/-- What the runtime keeps of a loaded manifest. -/
def executable (m : Manifestload.Manifest) : Manifest where
  id := m.id
  version := m.version
  digest := m.digest
  operations := m.operations.map Manifestload.OperationDef.toOperationDef

/-- A route with its content type left out. -/
def untyped (rt : Integrations.Route) : Route := { rt.runtime with contentType := [] }

/-- A route's content type against the one a call carries. -/
def AgreesOnType (rt : Integrations.Route) (sent : Bytes) : Prop :=
  rt.contentType = [] ∨ SameMediaType sent rt.contentType

theorem permits_runtime_iff (rt : Integrations.Route) (req : HTTPRequest) (path : Bytes)
    (use : UseKind) (kb : Int) :
    rt.runtime.Permits req path use kb ↔
      (untyped rt).Permits req path use kb ∧
        AgreesOnType rt (req.header.get [] (ascii "Content-Type")) := by
  constructor
  · intro h
    refine ⟨⟨h.slot, h.method, h.use, h.path, h.query, fun hct => absurd rfl hct, h.body⟩, ?_⟩
    by_cases hct : rt.contentType = []
    · exact .inl hct
    · exact .inr (h.contentType hct)
  · intro h
    obtain ⟨h, htype⟩ := h
    refine ⟨h.slot, h.method, h.use, h.path, h.query, fun hct => ?_, h.body⟩
    exact htype.resolve_left hct

section

variable {ε V : Type} {ev : Evaluation ε V} {params : GoMap Bytes ParamValue}
variable {req : HTTPRequest} {r : Manifestload.RequestDef}

theorem path_of_covers {p : Bytes} {tpl : Template} (hparse : parseTemplate p = .ok tpl)
    (htpl : r.pathTemplate = some tpl) (hbuilt : Built ev r params req) :
    Canonical req.path ∧ ∀ pattern, tpl.coveredBy pattern = true →
      ∃ canonical, canonicalise pattern = .ok canonical ∧
        matchPath canonical req.path = true := by
  have hpath := hbuilt.path
  rw [Declarative.requestPath, htpl] at hpath
  dsimp only at hpath
  split at hpath
  · cases hpath
  rename_i values _
  have hexpand : tpl.expand values = .ok req.path := by
    cases hx : tpl.expand values with
    | error e =>
      rw [hx] at hpath
      cases hpath
    | ok path =>
      rw [hx] at hpath
      cases hpath
      rfl
  exact ⟨canonical_of_expand hparse hexpand, fun _ h => matchPath_of_coveredBy hparse h hexpand⟩

/-- **What covers a request at load takes its call**, but for the content type. -/
theorem untyped_permits_of_covers {rt : Integrations.Route} {p : Bytes} {tpl : Template}
    {kb : Int} (hparse : parseTemplate p = .ok tpl) (htpl : r.pathTemplate = some tpl)
    (hcovers : coversAtLoad rt r tpl = true) (hbuilt : Built ev r params req)
    (hbody : (req.body.length : Int) ≤ kib (ceilingKB rt.maxBodyKB kb)) :
    (untyped rt).Permits req req.path useData kb := by
  simp only [coversAtLoad, Bool.and_eq_true, Bool.or_eq_true, beq_iff_eq] at hcovers
  obtain ⟨⟨⟨⟨hslot, hmethod⟩, huse⟩, hcovered⟩, hrequest⟩ := hcovers
  refine ⟨hslot.trans hbuilt.slot.symm, hmethod.trans hbuilt.method.symm, ?_,
    (path_of_covers hparse htpl hbuilt).2 _ hcovered, ?_, fun hct => absurd rfl hct, ?_⟩
  · change Integrations.runtimeUse rt.use = useData
    cases huse with
    | inl h | inr h => rw [h]; rfl
  · intro keys hkeys k hk
    rw [Manifestload.routeCoversRequest] at hrequest
    split_ifs at hrequest with hquery
    have hallowed : rt.queryKeys = some keys := hkeys
    rw [hallowed] at hquery
    simp only [Option.all_some, Bool.not_eq_true, Bool.not_eq_false', List.all_eq_true,
      List.contains_iff_mem] at hquery
    exact hquery k (hbuilt.keys k hk)
  · rw [hbuilt.judgedLen]
    exact ⟨Int.natCast_nonneg _, hbody⟩

end

variable {ε V : Type}

/-- **When a call of a loaded pipeline is authorised.**  For a manifest that the loader
accepts, an approval of exactly its routes and a connection without `allowedPaths`, some
route takes every call of every pipeline, its content type left out; and the call is
authorised exactly when one of the routes that take it declares no content type, or one
with the normal form of what the call carries. -/
theorem authorize_iff_contentType (raw m : Manifestload.Manifest)
    (hload : Manifestload.load raw = .ok m) (op : Manifestload.OperationDef)
    (hop : op ∈ m.operations) (step : PipelineStep) (hstep : step ∈ op.pipeline)
    (l : LoadedEntry) (happroved : ∀ rt, rt ∈ l.routes ↔ ∃ o ∈ m.operations, rt ∈ o.routes)
    (card : Card) (reg : Registry) (revisions : GoMap Bytes Bytes) (generation : ℕ)
    (approvalRevision cardHash : Bytes)
    (hpolicy : ∀ policy, (connectionPolicies card.slots reg).lookup step.request.slot =
      some policy → policy.allowedPaths = [])
    (ev : Evaluation ε V) (params : GoMap Bytes ParamValue) (req : HTTPRequest)
    (hreq : buildRequest ev step.request params = .ok req)
    (hbody : ∀ rt ∈ op.routes, ∀ tpl, step.request.pathTemplate = some tpl →
      coversAtLoad rt step.request tpl = true →
      (req.body.length : Int) ≤
        kib (ceilingKB rt.maxBodyKB (l.effectiveLimits.field .requestBodyKB))) :
    (∃ o ∈ m.operations, ∃ rt ∈ o.routes,
        (untyped rt).Permits req req.path useData (l.effectiveLimits.field .requestBodyKB)) ∧
      ((grant (executable m) l card reg revisions generation approvalRevision cardHash).authorize
          req useData = .ok () ↔
        ∃ o ∈ m.operations, ∃ rt ∈ o.routes,
          (untyped rt).Permits req req.path useData (l.effectiveLimits.field .requestBodyKB) ∧
            AgreesOnType rt (sentType ev step.request)) := by
  obtain ⟨p, tpl, hparse, htpl, rt, hrt, hcovers⟩ := Manifestload.covered_of_load hload hop hstep
  have hbuilt := Declarative.built_of_buildRequest hreq
  have hcanonical := (path_of_covers hparse htpl hbuilt).1
  refine ⟨⟨op, hop, rt, hrt, untyped_permits_of_covers hparse htpl hcovers hbuilt
    (hbody rt hrt tpl htpl hcovers)⟩, ?_⟩
  rw [grant_authorize_iff]
  have htype : req.header.get [] (ascii "Content-Type") = sentType ev step.request := hbuilt.type
  constructor
  · intro h
    obtain ⟨c, hc, ⟨_, hmem, rt, hrt, hpermits⟩, -⟩ := h
    obtain rfl : c = req.path := Except.ok.inj (hc.symm.trans hcanonical)
    obtain ⟨o, ho, rfl⟩ := List.mem_map.mp hmem
    rw [permits_runtime_iff, htype] at hpermits
    exact ⟨o, ho, rt, hrt, hpermits⟩
  · intro h
    obtain ⟨o, ho, rt, hrt, hpermits⟩ := h
    rw [← htype, ← permits_runtime_iff] at hpermits
    refine ⟨req.path, hcanonical, ⟨_, List.mem_map_of_mem ho, rt, hrt, hpermits⟩,
      ⟨_, List.mem_map_of_mem ((happroved rt).mpr ⟨o, ho, hrt⟩), hpermits⟩, ?_⟩
    intro policy hlookup
    rw [hbuilt.slot] at hlookup
    rw [connectionAllows, if_pos (hpolicy policy hlookup)]

/-! ## A content type with a parameter -/

/-- Literals and the empty object, which are all that the manifest below evaluates. -/
def literals : Evaluation Unit Config.AnyVal where
  eval
    | .literal v => .ok v
    | .object [] => .ok (.obj [])
    | _ => .error ()
  isOmitted := fun _ => false
  asString
    | .str s => some s
    | _ => none
  marshal
    | .obj [] => .ok (ascii "\x7b\x7d")
    | _ => .error ()

def queryRoute (contentType : Bytes) : Integrations.Route :=
  { slot := ascii "api", method := ascii "POST", path := ascii "/query",
    contentType := contentType }

/-- A request with an empty JSON object for a body, before and after it is checked. -/
def queryRequest (pathTemplate : Option Template) : Manifestload.RequestDef :=
  { slot := ascii "api", method := ascii "POST", path := some (.literal (.str (ascii "/query"))),
    pathTemplate := pathTemplate, body := some ⟨some (.object []), none⟩ }

def queryTemplate : Template := ⟨ascii "/query", [.literal (ascii "query")]⟩

def queryOperation (contentType : Bytes) (pathTemplate : Option Template) :
    Manifestload.OperationDef where
  id := ascii "a"
  routes := [queryRoute contentType]
  pipeline := [{ as := ascii "rows", request := queryRequest pathTemplate }]

def queryManifest (contentType : Bytes) (pathTemplate : Option Template) :
    Manifestload.Manifest where
  id := ascii "demo"
  version := ascii "1.0.0"
  digest := ascii "digest"
  capabilities := [ascii "http"]
  slots := [⟨ascii "api", ascii "http", true⟩]
  operations := [queryOperation contentType pathTemplate]

def queryCall : HTTPRequest :=
  { slot := ascii "api", method := ascii "POST", path := ascii "/query",
    header := GoMap.ofList [(ascii "Content-Type", ascii "application/json")],
    body := ascii "\x7b\x7d" }

theorem load_queryManifest {contentType : Bytes}
    (hcovers : coversAtLoad (queryRoute contentType) (queryRequest none) queryTemplate = true) :
    Manifestload.load (queryManifest contentType none) =
      .ok (queryManifest contentType (some queryTemplate)) := by
  have hparse : parseTemplate (ascii "/query") = .ok queryTemplate := by decide +kernel
  have hany : ((queryOperation contentType none).routes.any fun rt =>
      coversAtLoad rt (queryRequest none) queryTemplate) = true := by
    simp [queryOperation, hcovers]
  have hrequest : Manifestload.loadRequest (queryManifest contentType none)
      (queryOperation contentType none) (queryRequest none) =
        .ok (queryRequest (some queryTemplate)) := by
    change Manifestload.validateRequest _ _ (queryRequest none) = _
    have hhttp : ¬ (!(queryManifest contentType none).capabilities.contains (ascii "http")) = true :=
      by simp [queryManifest]
    have hslot : ¬ (!(queryManifest contentType none).slots.any
        fun s => s.name == (queryRequest none).slot) = true := by
      simp [queryManifest, queryRequest]
    rw [Manifestload.validateRequest, if_neg hhttp, if_neg hslot]
    simp only [queryRequest, hparse]
    exact if_pos hany
  have hpipeline : Manifestload.loadPipeline (queryManifest contentType none)
      (queryOperation contentType none) =
        .ok (queryOperation contentType (some queryTemplate)).pipeline := by
    refine (mapM_eq_ok_iff _ _ _).mpr (.cons ?_ .nil)
    rw [hrequest]
  have hoperation : Manifestload.loadOperation (queryManifest contentType none)
      (queryOperation contentType none) =
        .ok (queryOperation contentType (some queryTemplate)) := by
    rw [Manifestload.loadOperation, hpipeline]
    rfl
  have hoperations : (queryManifest contentType none).operations.mapM
      (Manifestload.loadOperation (queryManifest contentType none)) =
        .ok [queryOperation contentType (some queryTemplate)] :=
    (mapM_eq_ok_iff _ _ _).mpr (.cons hoperation .nil)
  rw [Manifestload.load, hoperations]
  rfl

theorem buildRequest_query :
    buildRequest literals (queryRequest (some queryTemplate)) ∅ = .ok queryCall := by
  have hpath : Declarative.requestPath (queryRequest (some queryTemplate)) ∅ =
      .ok (ascii "/query") := by
    decide +kernel
  rw [buildRequest, hpath]
  rfl

def charsetType : Bytes := ascii "application/json; charset=utf-8"

/-- A route that declares a charset covers the request at load, and no call is authorised. -/
theorem charset_route_refused :
    Manifestload.load (queryManifest charsetType none) =
        .ok (queryManifest charsetType (some queryTemplate)) ∧
      buildRequest literals (queryRequest (some queryTemplate)) ∅ = .ok queryCall ∧
      (grant (executable (queryManifest charsetType (some queryTemplate)))
        (approval [queryRoute charsetType]) cardA emptyRegistry ∅ 1 [] []).authorize queryCall
          useData = .error (.noManifestRoute (ascii "POST") (ascii "/query")) :=
  ⟨load_queryManifest (by decide +kernel), buildRequest_query, by decide +kernel⟩

/-- With the bare media type the same call is authorised. -/
theorem authorize_iff_contentType_json :
    (grant (executable (queryManifest (ascii "application/json") (some queryTemplate)))
      (approval [queryRoute (ascii "application/json")]) cardA emptyRegistry ∅ 1 [] []).authorize
        queryCall useData = .ok () := by
  have hroutes : ∀ rt, rt ∈ (approval [queryRoute (ascii "application/json")]).routes ↔
      ∃ o ∈ (queryManifest (ascii "application/json") (some queryTemplate)).operations,
        rt ∈ o.routes := by
    intro rt
    simp [approval, queryManifest, queryOperation]
  have hpolicy : ∀ policy, (connectionPolicies cardA.slots emptyRegistry).lookup
      (queryRequest (some queryTemplate)).slot = some policy → policy.allowedPaths = [] := by
    have hnone : (connectionPolicies cardA.slots emptyRegistry).lookup
        (queryRequest (some queryTemplate)).slot = none := by
      decide +kernel
    intro policy h
    rw [hnone] at h
    cases h
  have h := authorize_iff_contentType (queryManifest (ascii "application/json") none)
    (queryManifest (ascii "application/json") (some queryTemplate))
    (load_queryManifest (by decide +kernel))
    (queryOperation (ascii "application/json") (some queryTemplate)) List.mem_cons_self
    { as := ascii "rows", request := queryRequest (some queryTemplate) } List.mem_cons_self
    (approval [queryRoute (ascii "application/json")]) hroutes cardA emptyRegistry ∅ 1 [] [] hpolicy
    literals ∅ queryCall buildRequest_query (by
      intro rt hrt tpl _ _
      obtain rfl := List.mem_singleton.mp hrt
      decide +kernel)
  obtain ⟨⟨o, ho, rt, hrt, hpermits⟩, hauth⟩ := h
  obtain rfl := List.mem_singleton.mp ho
  obtain rfl := List.mem_singleton.mp hrt
  have hsame : SameMediaType (sentType literals (queryRequest (some queryTemplate)))
      (ascii "application/json") :=
    ⟨ascii "application/json", by decide +kernel, by decide +kernel⟩
  exact hauth.mpr ⟨_, List.mem_cons_self, _, List.mem_cons_self, hpermits, .inr hsame⟩

end Veduta.App
