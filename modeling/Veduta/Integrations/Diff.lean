import Veduta.Integrations.Approve

/-!
# The permission diff

Package `integrations`: what a manifest asks for beyond an existing approval.  Routes are
compared by their identities, each side's under its own body ceiling.

An approval of everything a manifest asks for leaves nothing to show, when it goes
through.  It goes through unless a route has no identity or a limit is set above the
core maximum: the request is clamped, the grant is not.
-/

namespace Veduta.Integrations

open Go Lib Routepath Capabilities

/-- A limit that is requested above the approved value. -/
structure LimitDiff where
  field : LimitField
  current : Int
  requested : Int
  deriving DecidableEq, Repr

structure Diff where
  addedRoutes : List Route
  removedRoutes : List Route
  addedCapabilities : List Bytes
  raisedLimits : List LimitDiff
  bodyBearingRoutes : List Route
  deriving DecidableEq, Repr

/-- No requested change; the body-bearing routes are for display. -/
def Diff.empty (d : Diff) : Bool :=
  d.addedRoutes.isEmpty && d.removedRoutes.isEmpty && d.addedCapabilities.isEmpty &&
    d.raisedLimits.isEmpty

def bodyBearing (method : Bytes) : Bool :=
  method = ascii "POST" ∨ method = ascii "PUT" ∨ method = ascii "PATCH"

/-- The loop that collects the routes whose identity is not in a set. -/
def routesOutside (set : List Identity) (requestBodyKB : Int) :
    List Route → Except IdentityError (List Route)
  | [] => .ok []
  | r :: routes =>
    match r.identity requestBodyKB with
    | .error e => .error e
    | .ok id =>
      match routesOutside set requestBodyKB routes with
      | .error e => .error e
      | .ok rest => .ok (if id ∈ set then rest else r :: rest)

def approvedLimits (entry : Option LockEntry) : EffectiveLimits :=
  (entry.map LockEntry.effectiveLimits).getD ⟨fun _ => 0⟩

/-- What the manifest asks for against what the entry grants. -/
def computeDiff (m : Manifest) (entry : Option LockEntry) : Except IdentityError Diff := do
  let manifestReqBodyKB := requested .requestBodyKB m.limits
  let lockRoutes := (entry.map LockEntry.routes).getD []
  let lockCaps := (entry.map LockEntry.capabilities).getD []
  let effective := approvedLimits entry
  let lockReqBodyKB := effective.field .requestBodyKB
  let manifestSet ← identitySet m.routes manifestReqBodyKB
  let lockSet ← identitySet lockRoutes lockReqBodyKB
  let addedRoutes ← routesOutside lockSet manifestReqBodyKB m.routes
  let removedRoutes ← routesOutside manifestSet lockReqBodyKB lockRoutes
  return {
    addedRoutes := addedRoutes
    removedRoutes := removedRoutes
    addedCapabilities := m.capabilities.filter fun c => !lockCaps.contains c
    raisedLimits := limitFieldOrder.filterMap fun name =>
      let req := requested name m.limits
      let cur := effective.field name
      if req > cur then some ⟨name, cur, req⟩ else none
    bodyBearingRoutes := m.routes.filter fun r => bodyBearing r.method }

/-- Every route of the first list has the identity of one of the second, each taken
under its own ceiling. -/
def RoutesWithin (rs : List Route) (b : Int) (ss : List Route) (b' : Int) : Prop :=
  ∀ r ∈ rs, ∃ s ∈ ss, ∃ i, r.identity b = .ok i ∧ s.identity b' = .ok i

variable {b b' : Int} {routes rs ss : List Route} {ids : List Identity}

theorem RoutesWithin.identities (h : RoutesWithin rs b ss b') :
    ∀ r ∈ rs, ∃ i, r.identity b = .ok i := by
  intro r hr
  obtain ⟨_, _, i, hi, _⟩ := h r hr
  exact ⟨i, hi⟩

theorem identitySet_isOk_iff (routes : List Route) (b : Int) :
    (∃ ids, identitySet routes b = .ok ids) ↔ ∀ r ∈ routes, ∃ i, r.identity b = .ok i :=
  exists_mapM_eq_ok_iff

theorem routesOutside_of_identities {set : List Identity}
    (h : ∀ r ∈ routes, ∃ i, r.identity b = .ok i) :
    ∃ out, routesOutside set b routes = .ok out ∧
      (out = [] ↔ ∀ r ∈ routes, ∃ i ∈ set, r.identity b = .ok i) := by
  induction routes with
  | nil => exact ⟨[], rfl, by simp⟩
  | cons r routes ih =>
    obtain ⟨i, hi⟩ := h r List.mem_cons_self
    obtain ⟨rest, hrest, hiff⟩ := ih fun r' hr' => h r' (List.mem_cons_of_mem r hr')
    refine ⟨if i ∈ set then rest else r :: rest, by rw [routesOutside, hi, hrest], ?_⟩
    by_cases hmem : i ∈ set
    · simp [hmem, hiff, hi]
    · simp [hmem, hi]

theorem exists_identity_iff (h : identitySet routes b = .ok ids) (i : Identity) :
    i ∈ ids ↔ ∃ s ∈ routes, s.identity b = .ok i := by
  constructor
  · exact exists_of_mem_mapM_ok h
  · intro hs
    obtain ⟨s, hs, hi⟩ := hs
    obtain ⟨i', hi', hsi⟩ := exists_ok_of_mem_mapM h hs
    rw [hi] at hsi
    cases hsi
    exact hi'

theorem routesOutside_eq_nil_iff (hrs : ∀ r ∈ rs, ∃ i, r.identity b = .ok i)
    (hss : identitySet ss b' = .ok ids) :
    ∃ out, routesOutside ids b rs = .ok out ∧ (out = [] ↔ RoutesWithin rs b ss b') := by
  obtain ⟨out, hout, hiff⟩ := routesOutside_of_identities hrs
  refine ⟨out, hout, hiff.trans ?_⟩
  refine forall₂_congr fun r _ => ?_
  constructor
  · intro h
    obtain ⟨i, hi, hr⟩ := h
    obtain ⟨s, hs, hsi⟩ := (exists_identity_iff hss i).mp hi
    exact ⟨s, hs, i, hr, hsi⟩
  · intro h
    obtain ⟨s, hs, i, hr, hsi⟩ := h
    exact ⟨i, (exists_identity_iff hss i).mpr ⟨s, hs, hsi⟩, hr⟩

/-- **When the diff with an entry is empty**: capabilities are covered, the routes on
either side have the identities of the other's, and no limit is above its value. -/
theorem computeDiff_empty_iff (m : Manifest) (e : LockEntry) :
    (∃ d, computeDiff m (some e) = .ok d ∧ d.empty = true) ↔
      (∀ c ∈ m.capabilities, c ∈ e.capabilities) ∧
        RoutesWithin m.routes (requested .requestBodyKB m.limits) e.routes
          (e.effectiveLimits.field .requestBodyKB) ∧
        RoutesWithin e.routes (e.effectiveLimits.field .requestBodyKB) m.routes
          (requested .requestBodyKB m.limits) ∧
        ∀ name, requested name m.limits ≤ e.effectiveLimits.field name := by
  -- either side's identities are computed first, and must exist for both statements
  rcases hms : identitySet m.routes (requested .requestBodyKB m.limits) with err | ms
  · have hnone : ¬ RoutesWithin m.routes (requested .requestBodyKB m.limits) e.routes
        (e.effectiveLimits.field .requestBodyKB) := by
      intro h
      obtain ⟨ids, hids⟩ := (identitySet_isOk_iff _ _).mpr h.identities
      rw [hms] at hids
      cases hids
    simp [computeDiff, hms, hnone]
  · rcases hls : identitySet e.routes (e.effectiveLimits.field .requestBodyKB) with err | ls
    · have hnone : ¬ RoutesWithin e.routes (e.effectiveLimits.field .requestBodyKB) m.routes
          (requested .requestBodyKB m.limits) := by
        intro h
        obtain ⟨ids, hids⟩ := (identitySet_isOk_iff _ _).mpr h.identities
        rw [hls] at hids
        cases hids
      simp [computeDiff, approvedLimits, hms, hls, hnone]
    · obtain ⟨added, hadded, hadded'⟩ :=
        routesOutside_eq_nil_iff ((identitySet_isOk_iff _ _).mp ⟨ms, hms⟩) hls
      obtain ⟨removed, hremoved, hremoved'⟩ :=
        routesOutside_eq_nil_iff ((identitySet_isOk_iff _ _).mp ⟨ls, hls⟩) hms
      have hempty : (∃ d, computeDiff m (some e) = .ok d ∧ d.empty = true) ↔
          added = [] ∧ removed = [] ∧ (∀ c ∈ m.capabilities, c ∈ e.capabilities) ∧
            ∀ name ∈ limitFieldOrder, requested name m.limits ≤ e.effectiveLimits.field name := by
        simp [computeDiff, approvedLimits, hms, hls, hadded, hremoved, Diff.empty, and_assoc]
      have hlimits := mem_limitFieldOrder
      rw [hempty, hadded', hremoved']
      tauto

/-! ## The diff after an approval -/

/-- A grant of everything the manifest asks for, as the callers of `approve` pass it by
default. -/
def Manifest.verbatim (m : Manifest) : Grants where
  capabilities := m.capabilities
  routes := m.routes
  limits := m.limits

theorem checkGrantRoutes_self (h : ∀ r ∈ routes, ∃ i ∈ ids, r.identity b = .ok i) :
    checkGrantRoutes ids b routes = .ok () := by
  induction routes with
  | nil => rfl
  | cons r routes ih =>
    obtain ⟨i, hmem, hi⟩ := h r List.mem_cons_self
    rw [checkGrantRoutes, hi]
    simp only [hmem, if_true]
    exact ih fun r' hr' => h r' (List.mem_cons_of_mem r hr')

theorem le_requested_iff {l : Limits} {name : LimitField} {v : Int} (h : l.field name = some v) :
    v ≤ requested name l ↔ v ≤ (limitBounds name).max := by
  rw [requested_of_some h]
  omega

/-- **When an approval of everything goes through.** -/
theorem approve_verbatim_isOk_iff (m : Manifest) (approvedBy approvedAt : Bytes) :
    (∃ entry, approve m m.digest m.verbatim approvedBy approvedAt = .ok entry) ↔
      (∀ r ∈ m.routes, ∃ i, r.identity (requested .requestBodyKB m.limits) = .ok i) ∧
        ∀ name v, m.limits.field name = some v → v ≤ (limitBounds name).max := by
  constructor
  · intro h
    obtain ⟨entry, hentry⟩ := h
    have happ := approved_of_approve hentry
    constructor
    · intro r hr
      obtain ⟨_, _, i, hi, _⟩ := happ.routes r hr
      exact ⟨i, hi⟩
    · intro name v hv
      exact (le_requested_iff hv).mp (happ.limits name v hv)
  · intro h
    obtain ⟨hroutes, hlimits⟩ := h
    obtain ⟨ids, hids⟩ := (identitySet_isOk_iff _ _).mpr hroutes
    have hcaps : (m.verbatim.capabilities.find? fun c => !m.capabilities.contains c) = none := by
      rw [List.find?_eq_none]
      intro c hc
      simpa [Manifest.verbatim] using hc
    have hcheck : checkGrantRoutes ids (requested .requestBodyKB m.limits) m.verbatim.routes =
        .ok () := by
      apply checkGrantRoutes_self
      intro r hr
      exact exists_ok_of_mem_mapM hids hr
    have hlimit : (limitFieldOrder.find? fun name =>
        (m.verbatim.limits.field name).any fun v => v > requested name m.limits) = none := by
      rw [List.find?_eq_none]
      intro name _
      rcases hv : m.limits.field name with _ | v
      · simp [Manifest.verbatim, hv]
      · have := (le_requested_iff hv).mpr (hlimits name v hv)
        simp only [Manifest.verbatim, hv, Option.any_some, decide_eq_true_eq]
        omega
    simp only [approve, ne_eq, not_true_eq_false, if_false, hcaps, hids, hcheck, hlimit]
    exact ⟨_, rfl⟩

theorem effectiveLimit_self (name : LimitField) (l : Limits) :
    effectiveLimit name l l = requested name l := by
  rw [effectiveLimit_eq_min]
  omega

theorem computeDiff_approved {m : Manifest} {entry : LockEntry}
    (happ : Approved m m.digest m.verbatim entry) :
    ∃ d, computeDiff m (some entry) = .ok d ∧ d.empty = true := by
  have hlimits : ∀ name, entry.effectiveLimits.field name = requested name m.limits := by
    intro name
    rw [happ.entry_limits, field_reconcileAtApproval]
    exact effectiveLimit_self name m.limits
  rw [computeDiff_empty_iff, hlimits]
  refine ⟨?_, ?_, ?_, ?_⟩
  · intro c hc
    rw [happ.entry_capabilities]
    exact hc
  · intro r hr
    obtain ⟨_, _, i, hi, _⟩ := happ.routes r hr
    refine ⟨{ r with reason := [] }, ?_, i, hi, hi⟩
    rw [happ.entry_routes]
    exact List.mem_map_of_mem hr
  · intro s hs
    rw [happ.entry_routes] at hs
    obtain ⟨r, hr, rfl⟩ := List.mem_map.mp hs
    obtain ⟨_, _, i, hi, _⟩ := happ.routes r hr
    exact ⟨r, hr, i, hi, hi⟩
  · intro name
    rw [hlimits]

/-- **The diff is exact around an approval.**  Approving everything goes through and
leaves an empty diff exactly if every route has an identity and no limit is set above its
maximum; and an empty diff means that the entry covers the request, route for route. -/
theorem diff_exact_around_approval (m : Manifest) (approvedBy approvedAt : Bytes) :
    ((∃ entry, approve m m.digest m.verbatim approvedBy approvedAt = .ok entry ∧
        ∃ d, computeDiff m (some entry) = .ok d ∧ d.empty = true) ↔
      (∀ r ∈ m.routes, ∃ i, r.identity (requested .requestBodyKB m.limits) = .ok i) ∧
        ∀ name v, m.limits.field name = some v → v ≤ (limitBounds name).max) ∧
    ∀ e : LockEntry, (∃ d, computeDiff m (some e) = .ok d ∧ d.empty = true) ↔
      (∀ c ∈ m.capabilities, c ∈ e.capabilities) ∧
        RoutesWithin m.routes (requested .requestBodyKB m.limits) e.routes
          (e.effectiveLimits.field .requestBodyKB) ∧
        RoutesWithin e.routes (e.effectiveLimits.field .requestBodyKB) m.routes
          (requested .requestBodyKB m.limits) ∧
        ∀ name, requested name m.limits ≤ e.effectiveLimits.field name := by
  refine ⟨?_, computeDiff_empty_iff m⟩
  rw [← approve_verbatim_isOk_iff m approvedBy approvedAt]
  constructor
  · intro h
    obtain ⟨entry, hentry, _⟩ := h
    exact ⟨entry, hentry⟩
  · intro h
    obtain ⟨entry, hentry⟩ := h
    exact ⟨entry, hentry, computeDiff_approved (approved_of_approve hentry)⟩

/-- A manifest with the route `GET /a//b`. -/
def emptySegmentManifest : Manifest :=
  loadManifest
    { id := ascii "items", name := ascii "Items", version := ascii "1.0.0",
      runtime := ascii "declarative", capabilities := [ascii "http"], limits := .empty,
      operations := [{
        id := ascii "list"
        routes := [{ slot := ascii "server", method := ascii "GET", path := ascii "/a//b" }] }] }
    (ascii "digest")

/-- A manifest that asks for 512 MB of memory, twice the core maximum. -/
def overMaximumManifest : Manifest :=
  loadManifest
    { id := ascii "items", name := ascii "Items", version := ascii "1.0.0",
      runtime := ascii "wasm", capabilities := [ascii "http"],
      limits := ⟨fun name => if name = .memoryMB then some 512 else none⟩,
      operations := [{
        id := ascii "list"
        routes := [{ slot := ascii "server", method := ascii "GET", path := ascii "/items" }] }] }
    (ascii "digest")

/-- Either manifest is refused as a whole, although the schema admits the route of the
first and the second asks for no more than it asks for. -/
theorem approve_verbatim_refused :
    manifestRouteSchema (.obj [(ascii "slot", .str (ascii "server")),
        (ascii "method", .str (ascii "GET")), (ascii "path", .str (ascii "/a//b"))]) = true ∧
      (¬ ∃ entry, approve emptySegmentManifest emptySegmentManifest.digest
        emptySegmentManifest.verbatim (ascii "admin") (ascii "2026-01-02T03:04:05Z") =
          .ok entry) ∧
      ¬ ∃ entry, approve overMaximumManifest overMaximumManifest.digest
        overMaximumManifest.verbatim (ascii "admin") (ascii "2026-01-02T03:04:05Z") =
          .ok entry := by
  refine ⟨by decide +kernel, ?_, ?_⟩
  · rw [approve_verbatim_isOk_iff]
    intro h
    obtain ⟨i, hi⟩ := h.1 _ List.mem_cons_self
    have hnone : (({ slot := ascii "server", method := ascii "GET", path := ascii "/a//b" } :
      Route).identity 64).toOption = none := by decide +kernel
    rw [show requested .requestBodyKB emptySegmentManifest.limits = 64 from rfl] at hi
    rw [hi] at hnone
    cases hnone
  · rw [approve_verbatim_isOk_iff]
    intro h
    have hle := h.2 .memoryMB 512 rfl
    exact absurd hle (by decide)

end Veduta.Integrations
