import Veduta.Go.Mime
import Veduta.Routepath.Match

/-!
# Authorising one request

Package `capabilities`: a grant carries three route policies, and `Grant.authorize`
is the only place a request is compared with them.  The definitions follow the
source; each has one lemma that says when it answers yes, so that later proofs never
unfold it.
-/

namespace Veduta.Capabilities

open Go Lib Routepath

/-- What a route is granted for.  Any string can be written in a document; the schema
admits the two below. -/
structure UseKind where
  value : Bytes
  deriving DecidableEq, Repr

def useData : UseKind := ⟨ascii "data"⟩

def useAsset : UseKind := ⟨ascii "asset"⟩

/-- One upstream request surface.  `queryKeys` keeps Go's nil (`none`, any key) apart
from an empty list (no key at all). -/
structure Route where
  slot : Bytes
  method : Bytes
  path : Bytes
  use : UseKind
  queryKeys : Option (List Bytes) := none
  contentType : Bytes := []
  maxBodyKB : Int := 0
  deriving DecidableEq, Repr

/-- What an integration asks the broker for.  `bodyLen` states the body's size when its
bytes are not in hand: zero says to measure `body`, a negative value says unknown. -/
structure HTTPRequest where
  slot : Bytes
  method : Bytes
  path : Bytes
  query : GoMap Bytes Bytes := ∅
  header : GoMap Bytes Bytes := ∅
  body : Bytes := []
  bodyLen : Int := 0

/-- The size a route's ceiling is compared with: method `bodyLen` of the source. -/
def HTTPRequest.judgedLen (r : HTTPRequest) : Int :=
  if r.bodyLen ≠ 0 then r.bodyLen else r.body.length

/-- A connection's own authority. -/
structure ConnectionPolicy where
  allowedPaths : List Bytes
  deriving DecidableEq, Repr

/-- The effective ceilings the broker enforces.  Each is already clamped to the core
maximum (1024 for the request body), so a body ceiling in bytes fits an `int64`; the
last field keeps that much of it. -/
structure Limits where
  httpRequests : Int
  responseMB : Int
  cacheEntries : Int
  cacheBytesKB : Int
  hostCalls : Int
  requestBodyKB : Int
  requestBodyKB_fits : requestBodyKB * 1024 < 2 ^ 63

theorem Limits.default_fits : (64 : Int) * 1024 < 2 ^ 63 := by decide

/-- What one invocation was authorised against. -/
structure ExecutionIdentity where
  snapshotGen : ℕ
  cardHash : Bytes
  manifestDigest : Bytes
  approvalRevision : Bytes
  slotRevisions : GoMap Bytes Bytes

/-- One invocation's authority.  The mutable budget behind the source's pointer is
passed beside it. -/
structure Grant where
  pluginID : Bytes
  version : Bytes
  instanceID : Bytes
  slots : GoMap Bytes Bytes
  caps : GoMap Bytes Bool
  manifestRoutes : List Route
  approvedRoutes : List Route
  connectionPolicy : GoMap Bytes ConnectionPolicy
  limits : Limits
  ident : ExecutionIdentity

/-- The grant of one slot with its routes, both declared and approved. -/
def demoGrant (slot : Bytes) (routes : List Route) : Grant where
  pluginID := ascii "demo"
  version := ascii "1.0.0"
  instanceID := ascii "card"
  slots := GoMap.ofList [(slot, ascii "demo-api")]
  caps := GoMap.ofList [(ascii "http", true)]
  manifestRoutes := routes
  approvedRoutes := routes
  connectionPolicy := ∅
  limits := ⟨20, 1, 0, 0, 100, 64, Limits.default_fits⟩
  ident := ⟨1, [], [], [], ∅⟩

/-- Why a request is refused, each under `ErrRouteDenied`. -/
inductive Denial where
  | path (e : Routepath.Error)
  | noManifestRoute (method canonicalPath : Bytes)
  | noApprovedRoute (method canonicalPath : Bytes)
  | allowedPaths (canonicalPath : Bytes)
  deriving DecidableEq, Repr

inductive MediaTypeError where
  | parse (e : Mime.Error)
  | cannotFormat (v : Bytes)
  deriving DecidableEq, Repr

/-- Parse and format again, with the charset in lower case. -/
def normaliseMediaType (v : Bytes) : Except MediaTypeError Bytes :=
  match Mime.parseMediaType v with
  | .error e => .error (.parse e)
  | .ok (mt, params) =>
    let params :=
      match params.lookup (ascii "charset") with
      | some cs => params.insert (ascii "charset") (toLower cs)
      | none => params
    let out := Mime.formatMediaType (toLower mt) params
    if out = [] then .error (.cannotFormat v) else .ok out

def coreDefaultBodyKB : Int := 64

/-- Slot, use, method, and the route's pattern against the canonical path. -/
def routeMatchesSlotMethodAndPath (route : Route) (slot method canonicalPath : Bytes)
    (use : UseKind) : Bool :=
  if route.slot ≠ slot ∨ route.use ≠ use ∨ route.method ≠ method then false
  else
    match canonicalise route.path with
    | .error _ => false
    | .ok routePattern => matchPath routePattern canonicalPath

/-- Every key of the query is listed, unless there is no list. -/
def queryKeysAllowed (allowed : Option (List Bytes)) (query : GoMap Bytes Bytes) : Bool :=
  match allowed with
  | none => true
  | some allowed => query.keys.all fun k => allowed.contains k

/-- The declared media type against the header under its exact name. -/
def contentTypeAllowed (declared : Bytes) (header : GoMap Bytes Bytes) : Bool :=
  if declared = [] then true
  else
    match normaliseMediaType (header.get [] (ascii "Content-Type")) with
    | .error _ => false
    | .ok normalisedGot =>
      match normaliseMediaType declared with
      | .error _ => false
      | .ok normalisedDeclared => normalisedGot == normalisedDeclared

/-- `int64(kb) * 1024`, with the machine's wrap-around. -/
def kib (kb : Int) : Int := Int.bmod (kb * 1024) (2 ^ 64)

/-- The effective ceiling: the route's own narrows the manifest's, which replaces the
core default.  An unknown length fits under none. -/
def bodySizeAllowed (routeMaxKB manifestRequestBodyKB bodyLen : Int) : Bool :=
  if bodyLen < 0 then false
  else
    let effectiveKB :=
      if manifestRequestBodyKB ≤ 0 then coreDefaultBodyKB else manifestRequestBodyKB
    let effectiveKB :=
      if routeMaxKB > 0 ∧ routeMaxKB < effectiveKB then routeMaxKB else effectiveKB
    bodyLen ≤ kib effectiveKB

def anyRouteAllows (routes : List Route) (req : HTTPRequest) (canonicalPath : Bytes)
    (use : UseKind) (manifestRequestBodyKB : Int) : Bool :=
  routes.any fun route =>
    routeMatchesSlotMethodAndPath route req.slot req.method canonicalPath use &&
      queryKeysAllowed route.queryKeys req.query &&
      contentTypeAllowed route.contentType req.header &&
      bodySizeAllowed route.maxBodyKB manifestRequestBodyKB req.judgedLen

/-- The connection's subtree allowlist; a list that is empty allows every path, an
entry that is not canonicalisable allows none. -/
def connectionAllows (policy : ConnectionPolicy) (canonicalPath : Bytes) : Bool :=
  if policy.allowedPaths = [] then true
  else
    policy.allowedPaths.any fun allowed =>
      match canonicalise allowed with
      | .error _ => false
      | .ok canonicalAllowed => hasPathPrefix canonicalPath canonicalAllowed

/-- **Whether one request is permitted**: the three policies in turn, on one canonical
path. -/
def Grant.authorize (g : Grant) (req : HTTPRequest) (use : UseKind) : Except Denial Unit :=
  match canonicalise req.path with
  | .error e => .error (.path e)
  | .ok canonicalPath =>
    if !anyRouteAllows g.manifestRoutes req canonicalPath use g.limits.requestBodyKB then
      .error (.noManifestRoute req.method canonicalPath)
    else if !anyRouteAllows g.approvedRoutes req canonicalPath use g.limits.requestBodyKB then
      .error (.noApprovedRoute req.method canonicalPath)
    else
      match g.connectionPolicy.lookup req.slot with
      | some policy =>
        if connectionAllows policy canonicalPath then .ok ()
        else .error (.allowedPaths canonicalPath)
      | none => .ok ()

/-! ## When each check answers yes -/

/-- The ceiling in KiB that a route puts on a body. -/
def ceilingKB (routeMaxKB requestBodyKB : Int) : Int :=
  let base := if 0 < requestBodyKB then requestBodyKB else coreDefaultBodyKB
  if 0 < routeMaxKB then min routeMaxKB base else base

/-- One route's tests on a request whose canonical path is known. -/
structure Route.Permits (r : Route) (req : HTTPRequest) (canonicalPath : Bytes) (use : UseKind)
    (requestBodyKB : Int) : Prop where
  slot : r.slot = req.slot
  method : r.method = req.method
  use : r.use = use
  path : ∃ pattern, canonicalise r.path = .ok pattern ∧ matchPath pattern canonicalPath = true
  query : ∀ keys, r.queryKeys = some keys → ∀ k ∈ req.query.keys, k ∈ keys
  contentType : r.contentType ≠ [] →
    ∃ t, normaliseMediaType (req.header.get [] (ascii "Content-Type")) = .ok t ∧
      normaliseMediaType r.contentType = .ok t
  body : 0 ≤ req.judgedLen ∧ req.judgedLen ≤ kib (ceilingKB r.maxBodyKB requestBodyKB)

theorem Route.Permits.of_keyless {r : Route} {req : HTTPRequest} {path : Bytes} {use : UseKind}
    {b : Int} (h : r.Permits req path use b) (hkeys : r.queryKeys = none)
    (query : GoMap Bytes Bytes) : r.Permits { req with query := query } path use b where
  slot := h.slot
  method := h.method
  use := h.use
  path := h.path
  query := by simp [hkeys]
  contentType := h.contentType
  body := h.body

theorem routeMatchesSlotMethodAndPath_iff (r : Route) (slot method path : Bytes) (use : UseKind) :
    routeMatchesSlotMethodAndPath r slot method path use = true ↔
      r.slot = slot ∧ r.use = use ∧ r.method = method ∧
        ∃ pattern, canonicalise r.path = .ok pattern ∧ matchPath pattern path = true := by
  rw [routeMatchesSlotMethodAndPath]
  split
  next h => simp only [Bool.false_eq_true, false_iff]; tauto
  next h =>
    simp only [not_or, not_not] at h
    rcases hc : canonicalise r.path with e | pattern
    · simp
    · simp [h]

theorem queryKeysAllowed_iff (allowed : Option (List Bytes)) (query : GoMap Bytes Bytes) :
    queryKeysAllowed allowed query = true ↔
      ∀ keys, allowed = some keys → ∀ k ∈ query.keys, k ∈ keys := by
  cases allowed with
  | none | some => simp [queryKeysAllowed]

theorem contentTypeAllowed_iff (declared : Bytes) (header : GoMap Bytes Bytes) :
    contentTypeAllowed declared header = true ↔
      (declared ≠ [] → ∃ t, normaliseMediaType (header.get [] (ascii "Content-Type")) = .ok t ∧
        normaliseMediaType declared = .ok t) := by
  rw [contentTypeAllowed]
  split
  next h => simp [h]
  next h =>
    rcases hgot : normaliseMediaType (header.get [] (ascii "Content-Type")) with e | got
    · simp [h]
    · rcases hdecl : normaliseMediaType declared with e | decl
      · simp [h]
      · simp only [beq_iff_eq, ne_eq, h, not_false_eq_true, true_implies, Except.ok.injEq,
          exists_eq_left']
        exact eq_comm

theorem bodySizeAllowed_iff (routeMaxKB requestBodyKB bodyLen : Int) :
    bodySizeAllowed routeMaxKB requestBodyKB bodyLen = true ↔
      0 ≤ bodyLen ∧ bodyLen ≤ kib (ceilingKB routeMaxKB requestBodyKB) := by
  have hceiling : ∀ base : Int,
      (if routeMaxKB > 0 ∧ routeMaxKB < base then routeMaxKB else base) =
        if 0 < routeMaxKB then min routeMaxKB base else base := by
    intro base
    split_ifs <;> omega
  have hbase : (if requestBodyKB ≤ 0 then coreDefaultBodyKB else requestBodyKB) =
      if 0 < requestBodyKB then requestBodyKB else coreDefaultBodyKB := by
    split_ifs <;> omega
  rw [bodySizeAllowed]
  split
  next h =>
    simp only [Bool.false_eq_true, false_iff, not_and]
    omega
  next h =>
    simp only [decide_eq_true_eq, hceiling, hbase, ceilingKB]
    exact ⟨fun hle => ⟨by omega, hle⟩, fun hle => hle.2⟩

theorem anyRouteAllows_iff (routes : List Route) (req : HTTPRequest) (path : Bytes)
    (use : UseKind) (requestBodyKB : Int) :
    anyRouteAllows routes req path use requestBodyKB = true ↔
      ∃ r ∈ routes, r.Permits req path use requestBodyKB := by
  simp only [anyRouteAllows, List.any_eq_true, Bool.and_eq_true,
    routeMatchesSlotMethodAndPath_iff, queryKeysAllowed_iff, contentTypeAllowed_iff,
    bodySizeAllowed_iff]
  refine exists_congr fun r => and_congr_right fun _ => ?_
  constructor
  · rintro ⟨⟨⟨⟨hslot, huse, hmethod, hpath⟩, hquery⟩, hct⟩, hbody⟩
    exact ⟨hslot, hmethod, huse, hpath, hquery, hct, hbody⟩
  · intro h
    exact ⟨⟨⟨⟨h.slot, h.use, h.method, h.path⟩, h.query⟩, h.contentType⟩, h.body⟩

/-- A path lies in one of the subtrees that a list of allowed paths names. -/
def InSubtrees (allowedPaths : List Bytes) (canonicalPath : Bytes) : Prop :=
  ∃ allowed ∈ allowedPaths, ∃ canonicalAllowed,
    canonicalise allowed = .ok canonicalAllowed ∧
      segments canonicalAllowed <+: segments canonicalPath

theorem any_hasPathPrefix_iff {allowedPaths : List Bytes} {path : Bytes} (hpath : Canonical path) :
    (allowedPaths.any fun allowed =>
      match canonicalise allowed with
      | .error _ => false
      | .ok canonicalAllowed => hasPathPrefix path canonicalAllowed) = true ↔
      InSubtrees allowedPaths path := by
  rw [List.any_eq_true, InSubtrees]
  refine exists_congr fun allowed => and_congr_right fun _ => ?_
  rcases hc : canonicalise allowed with e | canonicalAllowed
  · simp
  · simp [hasPathPrefix_iff hpath (canonical_of_canonicalise hc)]

theorem connectionAllows_iff (policy : ConnectionPolicy) {path : Bytes} (hpath : Canonical path) :
    connectionAllows policy path = true ↔
      policy.allowedPaths = [] ∨ InSubtrees policy.allowedPaths path := by
  rw [connectionAllows]
  split
  next h => simp [h]
  next h => rw [any_hasPathPrefix_iff hpath, or_iff_right h]

/-- **What `authorize` accepts**, in terms of its parts. -/
theorem Grant.authorize_iff (g : Grant) (req : HTTPRequest) (use : UseKind) :
    g.authorize req use = .ok () ↔
      ∃ path, canonicalise req.path = .ok path ∧
        anyRouteAllows g.manifestRoutes req path use g.limits.requestBodyKB = true ∧
        anyRouteAllows g.approvedRoutes req path use g.limits.requestBodyKB = true ∧
        ∀ policy, g.connectionPolicy.lookup req.slot = some policy →
          connectionAllows policy path = true := by
  rw [Grant.authorize]
  rcases hc : canonicalise req.path with e | path
  · simp
  · cases hm : anyRouteAllows g.manifestRoutes req path use g.limits.requestBodyKB with
    | false => simp [hm]
    | true =>
      cases ha : anyRouteAllows g.approvedRoutes req path use g.limits.requestBodyKB with
      | false => simp [hm, ha]
      | true =>
        cases hp : g.connectionPolicy.lookup req.slot with
        | none | some => simp [hm, ha]

end Veduta.Capabilities
