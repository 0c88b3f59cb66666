import Veduta.Capabilities.Authorize

/-!
# The policy a grant stands for

What a grant is meant to permit, said without the code's searches: a glob is a
language, an allowed path is a subtree of segment lists, a body ceiling is a number of
bytes.  `authorize_eq_ok_iff_permitted` says that `Grant.authorize` decides exactly
this policy.
-/

namespace Veduta.Capabilities

open Go Lib Routepath

/-- **One route covers a request** whose canonical path is `canonicalPath`. -/
structure Route.Grants (r : Route) (req : HTTPRequest) (canonicalPath : Bytes) (use : UseKind)
    (requestBodyKB : Int) : Prop where
  slot : r.slot = req.slot
  method : r.method = req.method
  use : r.use = use
  /-- The route's glob generates the path. -/
  path : ∃ pattern, canonicalise r.path = .ok pattern ∧ Generates star slash pattern canonicalPath
  /-- There is no key list, or it holds every key of the query. -/
  query : r.queryKeys = none ∨ ∃ keys, r.queryKeys = some keys ∧ ∀ k ∈ req.query, k ∈ keys
  /-- No media type is declared, or the request's has the same normal form. -/
  contentType : r.contentType = [] ∨
    ∃ t, normaliseMediaType (req.header.get [] (ascii "Content-Type")) = .ok t ∧
      normaliseMediaType r.contentType = .ok t
  /-- The body's length is known and within the ceiling. -/
  body : 0 ≤ req.judgedLen ∧
    req.judgedLen ≤ (if 0 < r.maxBodyKB
      then min r.maxBodyKB (if 0 < requestBodyKB then requestBodyKB else 64)
      else (if 0 < requestBodyKB then requestBodyKB else 64)) * 1024

/-- **A grant covers a request**: some manifest route and some approved route do, and
the slot's connection, if it restricts paths, has one of them above the request's. -/
def Grant.Permitted (g : Grant) (req : HTTPRequest) (use : UseKind) : Prop :=
  ∃ path, canonicalise req.path = .ok path ∧
    (∃ r ∈ g.manifestRoutes, r.Grants req path use g.limits.requestBodyKB) ∧
    (∃ r ∈ g.approvedRoutes, r.Grants req path use g.limits.requestBodyKB) ∧
    (g.connectionPolicy.lookup req.slot = none ∨
      ∃ policy, g.connectionPolicy.lookup req.slot = some policy ∧
        (policy.allowedPaths = [] ∨
          ∃ allowed ∈ policy.allowedPaths, ∃ canonicalAllowed,
            canonicalise allowed = .ok canonicalAllowed ∧
              segments canonicalAllowed <+: segments path))

theorem kib_of_fits {kb : Int} (hpos : 0 < kb) (hfits : kb * 1024 < 2 ^ 63) :
    kib kb = kb * 1024 := by
  rw [kib, Int.bmod_def]
  split_ifs <;> omega

theorem ceilingKB_pos (routeMaxKB requestBodyKB : Int) :
    0 < ceilingKB routeMaxKB requestBodyKB := by
  simp only [ceilingKB, coreDefaultBodyKB]
  split_ifs <;> omega

theorem ceilingKB_le (routeMaxKB requestBodyKB : Int) :
    ceilingKB routeMaxKB requestBodyKB ≤ max requestBodyKB 64 := by
  simp only [ceilingKB, coreDefaultBodyKB]
  split_ifs <;> omega

theorem Route.permits_iff_grants (r : Route) (req : HTTPRequest) {path : Bytes} (use : UseKind)
    {requestBodyKB : Int} (hpath : Canonical path) (hfits : requestBodyKB * 1024 < 2 ^ 63) :
    r.Permits req path use requestBodyKB ↔ r.Grants req path use requestBodyKB := by
  have hglob : ∀ pattern, canonicalise r.path = .ok pattern →
      (matchPath pattern path = true ↔ Generates star slash pattern path) := fun pattern hc =>
    matchPath_iff (canonical_of_canonicalise hc).rooted hpath.rooted
  have hkib : kib (ceilingKB r.maxBodyKB requestBodyKB) =
      ceilingKB r.maxBodyKB requestBodyKB * 1024 := by
    have hle := ceilingKB_le r.maxBodyKB requestBodyKB
    exact kib_of_fits (ceilingKB_pos _ _) (by omega)
  constructor
  · intro h
    refine ⟨h.slot, h.method, h.use, ?_, ?_, ?_, h.body.1, hkib ▸ h.body.2⟩
    · obtain ⟨pattern, hc, hm⟩ := h.path
      exact ⟨pattern, hc, (hglob pattern hc).mp hm⟩
    · cases hk : r.queryKeys with
      | none => exact Or.inl rfl
      | some keys => exact Or.inr ⟨keys, rfl, fun k hmem => h.query keys hk k hmem⟩
    · by_cases hct : r.contentType = []
      · exact Or.inl hct
      · exact Or.inr (h.contentType hct)
  · intro h
    refine ⟨h.slot, h.method, h.use, ?_, ?_, ?_, h.body.1, hkib ▸ h.body.2⟩
    · obtain ⟨pattern, hc, hm⟩ := h.path
      exact ⟨pattern, hc, (hglob pattern hc).mpr hm⟩
    · intro keys hk k hmem
      rcases h.query with hnone | ⟨keys', hk', hall⟩
      · rw [hnone] at hk
        cases hk
      · rw [hk', Option.some.injEq] at hk
        exact hk ▸ hall k hmem
    · intro hct
      exact h.contentType.resolve_left hct

/-- **Sound and complete**: `authorize` accepts a request exactly when the grant's
policy covers it.  The grants are those a lock can hold: `requestBodyKB_fits` keeps the
body ceiling in bytes within an `int64`, as the maximum of 1024 KiB does. -/
theorem authorize_eq_ok_iff_permitted (g : Grant) (req : HTTPRequest) (use : UseKind) :
    g.authorize req use = .ok () ↔ g.Permitted req use := by
  rw [Grant.authorize_iff, Grant.Permitted]
  refine exists_congr fun path => and_congr_right fun hc => ?_
  have hpath := canonical_of_canonicalise hc
  have hroutes : ∀ routes, anyRouteAllows routes req path use g.limits.requestBodyKB = true ↔
      ∃ r ∈ routes, r.Grants req path use g.limits.requestBodyKB := fun routes => by
    rw [anyRouteAllows_iff]
    exact exists_congr fun r => and_congr_right fun _ =>
      r.permits_iff_grants req use hpath g.limits.requestBodyKB_fits
  rw [hroutes, hroutes]
  refine and_congr_right fun _ => and_congr_right fun _ => ?_
  cases hp : g.connectionPolicy.lookup req.slot with
  | none => simp
  | some policy => simp [connectionAllows_iff policy hpath, InSubtrees]

end Veduta.Capabilities
