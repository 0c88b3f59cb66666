import Mathlib.Data.List.Sort
import Veduta.Capabilities.Policy

/-!
# Routes as documents carry them, and their identity

Package `integrations`: a `Route` as a manifest or a lock writes it, and the tuple
that the approval flow compares in its place.  The tuple's query keys are one string,
the keys sorted and joined with NUL bytes.
-/

namespace Veduta.Integrations

open Go Lib Routepath Capabilities

/-- One entry of a `routes` array.  An empty `use` stands for `data`. -/
structure Route where
  slot : Bytes
  method : Bytes
  path : Bytes
  use : Bytes := []
  reason : Bytes := []
  queryKeys : Option (List Bytes) := none
  contentType : Bytes := []
  maxBodyKB : Int := 0
  deriving DecidableEq, Repr

def runtimeUse (value : Bytes) : UseKind := if value = [] then useData else ⟨value⟩

/-- The route as a grant carries it. -/
def Route.runtime (r : Route) : Capabilities.Route where
  slot := r.slot
  method := r.method
  path := r.path
  use := runtimeUse r.use
  queryKeys := r.queryKeys
  contentType := r.contentType
  maxBodyKB := r.maxBodyKB

/-- A route reduced to the authority it asks for. -/
structure Identity where
  slot : Bytes
  method : Bytes
  path : Bytes
  use : Bytes
  queryKeys : Bytes
  contentType : Bytes
  maxBodyKB : Int
  deriving DecidableEq, Repr

/-- Why a route has no identity; the error names the route's method and path. -/
inductive IdentityError where
  | path (method path : Bytes) (e : Routepath.Error)
  | contentType (method path : Bytes) (e : MediaTypeError)
  deriving DecidableEq, Repr

/-- Drop each element that equals the one before it. -/
def dropRepeats (previous : Option Bytes) : List Bytes → List Bytes
  | [] => []
  | k :: ks => if previous = some k then dropRepeats (some k) ks else k :: dropRepeats (some k) ks

/-- The keys of an allowlist in order, each once. -/
def sortedKeys (keys : List Bytes) : List Bytes :=
  dropRepeats none (keys.insertionSort (· ≤ ·))

/-- `*` for no allowlist, else the sorted keys, each after a NUL byte. -/
def canonicalQueryKeys : Option (List Bytes) → Bytes
  | none => ascii "*"
  | some keys => 0 :: [0].intercalate (sortedKeys keys)

/-- The route's own ceiling, else the manifest's, else the core default. -/
def effectiveMaxBodyKB (routeMaxKB requestBodyKB : Int) : Int :=
  if routeMaxKB > 0 then routeMaxKB
  else if requestBodyKB > 0 then requestBodyKB
  else coreDefaultBodyKB

/-- The broker's normal form, with the empty type allowed. -/
def normaliseContentType (v : Bytes) : Except MediaTypeError Bytes :=
  if v = [] then .ok [] else normaliseMediaType v

/-- The authority tuple of a route in a manifest with the given body ceiling. -/
def Route.identity (r : Route) (requestBodyKB : Int) : Except IdentityError Identity :=
  match canonicalise r.path with
  | .error e => .error (.path r.method r.path e)
  | .ok path =>
    match normaliseContentType r.contentType with
    | .error e => .error (.contentType r.method r.path e)
    | .ok ct =>
      .ok {
        slot := r.slot
        method := r.method
        path := path
        use := if r.use = [] then ascii "data" else r.use
        queryKeys := canonicalQueryKeys r.queryKeys
        contentType := ct
        maxBodyKB := effectiveMaxBodyKB r.maxBodyKB requestBodyKB }

/-- What `dedupeRoutes` compares: a route without its reason, keys in canonical form. -/
def Route.dedupeKey (r : Route) : Bytes × Bytes × Bytes × Bytes × Bytes × Int × Bytes :=
  (r.slot, r.method, r.path, r.use, r.contentType, r.maxBodyKB, canonicalQueryKeys r.queryKeys)

/-- The loop of `dedupeRoutes`, with the keys already seen. -/
def dedupeLoop : List (Bytes × Bytes × Bytes × Bytes × Bytes × Int × Bytes) → List Route →
    List Route
  | _, [] => []
  | seen, r :: routes =>
    if r.dedupeKey ∈ seen then dedupeLoop seen routes
    else r :: dedupeLoop (r.dedupeKey :: seen) routes

/-- The routes without later duplicates, in their first-seen order. -/
def dedupeRoutes (routes : List Route) : List Route := dedupeLoop [] routes

@[simp] theorem mem_dropRepeats_none {k : Bytes} {keys : List Bytes} :
    k ∈ dropRepeats none keys ↔ k ∈ keys := by
  have key : ∀ (keys : List Bytes) (previous : Option Bytes),
      k ∈ dropRepeats previous keys ∨ previous = some k ↔ k ∈ keys ∨ previous = some k := by
    intro keys
    induction keys with
    | nil => intro previous; simp [dropRepeats]
    | cons b keys ih =>
      intro previous
      have ih := ih (some b)
      simp only [Option.some.injEq] at ih
      by_cases hp : previous = some b
      · simp only [dropRepeats, hp, if_true, Option.some.injEq, List.mem_cons]
        tauto
      · simp only [dropRepeats, hp, if_false, List.mem_cons]
        rw [eq_comm] at ih
        tauto
  simpa using key keys none

@[simp] theorem mem_sortedKeys {k : Bytes} {keys : List Bytes} :
    k ∈ sortedKeys keys ↔ k ∈ keys := by
  simp [sortedKeys]

/-- **What it takes to have an identity**, and what it then is. -/
theorem Route.identity_eq_ok_iff (r : Route) (b : Int) (i : Identity) :
    r.identity b = .ok i ↔
      canonicalise r.path = .ok i.path ∧ normaliseContentType r.contentType = .ok i.contentType ∧
        i.slot = r.slot ∧ i.method = r.method ∧
        i.use = (if r.use = [] then ascii "data" else r.use) ∧
        i.queryKeys = canonicalQueryKeys r.queryKeys ∧
        i.maxBodyKB = effectiveMaxBodyKB r.maxBodyKB b := by
  rw [Route.identity]
  rcases hc : canonicalise r.path with e | path
  · simp
  · rcases ht : normaliseContentType r.contentType with e | ct
    · simp
    · cases i
      simp only [Except.ok.injEq, Identity.mk.injEq]
      constructor
      · rintro ⟨rfl, rfl, rfl, rfl, rfl, rfl, rfl⟩
        exact ⟨rfl, rfl, rfl, rfl, rfl, rfl, rfl⟩
      · rintro ⟨rfl, rfl, rfl, rfl, rfl, rfl, rfl⟩
        exact ⟨rfl, rfl, rfl, rfl, rfl, rfl, rfl⟩

theorem runtimeUse_eq_iff (u v : Bytes) :
    runtimeUse u = runtimeUse v ↔
      (if u = [] then ascii "data" else u) = (if v = [] then ascii "data" else v) := by
  simp only [runtimeUse, useData]
  split <;> split <;> simp

theorem ceilingKB_eq_min (routeMaxKB : Int) {b : Int} (hb : 0 < b) :
    ceilingKB routeMaxKB b = min (effectiveMaxBodyKB routeMaxKB b) b := by
  simp only [ceilingKB, effectiveMaxBodyKB, hb, if_true, gt_iff_lt]
  split_ifs <;> omega

theorem ceilingKB_of_nonpos (routeMaxKB : Int) {b : Int} (hb : b ≤ 0) :
    ceilingKB routeMaxKB b = min (effectiveMaxBodyKB routeMaxKB b) coreDefaultBodyKB := by
  simp only [ceilingKB, effectiveMaxBodyKB, coreDefaultBodyKB]
  split_ifs <;> omega

end Veduta.Integrations
