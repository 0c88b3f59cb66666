import Veduta.Integrations.Identity

/-!
# Approval

Package `integrations`: the second step of the digest-bound approval.  Every granted
route must have the identity of a manifest route, every granted capability and limit
must be one the manifest asks for; what comes out is the entry to record.

An approval is meant never to widen what the manifest asks for.  One thing escapes its
checks: a granted `requestBodyKB` that is zero or negative is not above the manifest's,
but the broker reads it as unset, and puts the core default of 64 KiB in its place.
-/

namespace Veduta.Integrations

open Go Lib Routepath Capabilities

/-- The part of a plugin manifest that approval needs. -/
structure Manifest where
  id : Bytes
  name : Bytes
  version : Bytes
  runtime : Bytes
  capabilities : List Bytes
  limits : Limits
  routes : List Route
  moduleSHA256 : Bytes := []
  digest : Bytes

structure OperationDef where
  id : Bytes
  routes : List Route
  deriving DecidableEq, Repr

structure ManifestDoc where
  id : Bytes
  name : Bytes
  version : Bytes
  runtime : Bytes
  capabilities : List Bytes
  limits : Limits
  operations : List OperationDef
  sha256 : Bytes := []

/-- What approval sees of a manifest: the routes of all operations, pooled. -/
def loadManifest (doc : ManifestDoc) (digest : Bytes) : Manifest where
  id := doc.id
  name := doc.name
  version := doc.version
  runtime := doc.runtime
  capabilities := doc.capabilities
  limits := doc.limits
  routes := dedupeRoutes (doc.operations.flatMap OperationDef.routes)
  moduleSHA256 := doc.sha256
  digest := digest

structure Grants where
  capabilities : List Bytes
  routes : List Route
  limits : Limits := .empty

inductive ApproveError where
  | digestChanged (expected current : Bytes)
  | capability (c : Bytes)
  | manifestRoute (e : IdentityError)
  | grantRoute (e : IdentityError)
  | route (method path : Bytes)
  | limit (name : LimitField)
  deriving DecidableEq, Repr

def identitySet (routes : List Route) (requestBodyKB : Int) :
    Except IdentityError (List Identity) :=
  routes.mapM fun r => r.identity requestBodyKB

def checkGrantRoutes (manifestRoutes : List Identity) (requestBodyKB : Int) :
    List Route → Except ApproveError Unit
  | [] => .ok ()
  | r :: routes =>
    match r.identity requestBodyKB with
    | .error e => .error (.grantRoute e)
    | .ok id =>
      if id ∈ manifestRoutes then checkGrantRoutes manifestRoutes requestBodyKB routes
      else .error (.route r.method r.path)

/-- Refuse a grant that is more than the manifest asks for, else build the entry.  The
time of the approval comes as the text that the entry records. -/
def approve (m : Manifest) (expectedManifestSHA256 : Bytes) (grants : Grants)
    (approvedBy approvedAt : Bytes) : Except ApproveError LockEntry :=
  if m.digest ≠ expectedManifestSHA256 then
    .error (.digestChanged expectedManifestSHA256 m.digest)
  else
    match grants.capabilities.find? fun c => !m.capabilities.contains c with
    | some c => .error (.capability c)
    | none =>
      let manifestReqBodyKB := requested .requestBodyKB m.limits
      match identitySet m.routes manifestReqBodyKB with
      | .error e => .error (.manifestRoute e)
      | .ok manifestRoutes =>
        match checkGrantRoutes manifestRoutes manifestReqBodyKB grants.routes with
        | .error e => .error e
        | .ok () =>
          match limitFieldOrder.find? fun name =>
              (grants.limits.field name).any fun v => v > requested name m.limits with
          | some name => .error (.limit name)
          | none =>
            .ok {
              manifestSHA256 := m.digest
              moduleSHA256 := m.moduleSHA256
              version := m.version
              runtime := m.runtime
              approvedAt := approvedAt
              approvedBy := approvedBy
              capabilities := grants.capabilities
              routes := grants.routes.map fun r => { r with reason := [] }
              limits := if grants.limits.isZero then none else some grants.limits
              effectiveLimits := reconcileAtApproval m.limits grants.limits }

theorem checkGrantRoutes_ok {ids : List Identity} {b : Int} {routes : List Route}
    (h : checkGrantRoutes ids b routes = .ok ()) :
    ∀ r ∈ routes, ∃ i ∈ ids, r.identity b = .ok i := by
  induction routes with
  | nil => simp
  | cons r routes ih =>
    rw [checkGrantRoutes] at h
    split at h
    · cases h
    next i hi =>
      split at h
      next hmem =>
        intro r' hr'
        rcases List.mem_cons.mp hr' with rfl | hr'
        · exact ⟨i, hmem, hi⟩
        · exact ih h r' hr'
      next => cases h

/-- The facts behind an entry that `approve` returns. -/
structure Approved (m : Manifest) (expected : Bytes) (grants : Grants) (entry : LockEntry) :
    Prop where
  digest : expected = m.digest
  capabilities : ∀ c ∈ grants.capabilities, c ∈ m.capabilities
  routes : ∀ r ∈ grants.routes, ∃ s ∈ m.routes, ∃ i,
    r.identity (requested .requestBodyKB m.limits) = .ok i ∧
      s.identity (requested .requestBodyKB m.limits) = .ok i
  limits : ∀ name v, grants.limits.field name = some v → v ≤ requested name m.limits
  entry_capabilities : entry.capabilities = grants.capabilities
  entry_routes : entry.routes = grants.routes.map fun r => { r with reason := [] }
  entry_limits : entry.effectiveLimits = reconcileAtApproval m.limits grants.limits

theorem approved_of_approve {m : Manifest} {expected : Bytes} {grants : Grants}
    {approvedBy approvedAt : Bytes} {entry : LockEntry}
    (h : approve m expected grants approvedBy approvedAt = .ok entry) :
    Approved m expected grants entry := by
  rw [approve] at h
  split at h
  · cases h
  next hdigest =>
    split at h
    · cases h
    next hcaps =>
      dsimp only at h
      split at h
      · cases h
      next ids hids =>
        split at h
        · cases h
        next hroutes =>
          split at h
          · cases h
          next hlimits =>
            cases h
            refine ⟨(not_not.mp hdigest).symm, ?_, ?_, ?_, rfl, rfl, rfl⟩
            · intro c hc
              simpa using List.find?_eq_none.mp hcaps c hc
            · intro r hr
              obtain ⟨i, hi, hri⟩ := checkGrantRoutes_ok hroutes r hr
              obtain ⟨s, hs, hsi⟩ := exists_of_mem_mapM_ok hids hi
              exact ⟨s, hs, i, hri, hsi⟩
            · intro name v hv
              have := List.find?_eq_none.mp hlimits name (mem_limitFieldOrder name)
              simpa [hv] using this

/-- No key is empty, and none holds a NUL byte. -/
def CleanKeys (r : Route) : Prop := ∀ k, r.queryKeys = some k → ∀ key ∈ k, key ≠ [] ∧ 0 ∉ key

theorem not_keysCollide_of_clean {r s : Route} (hr : CleanKeys r) (hs : CleanKeys s) :
    ¬ KeysCollide r.queryKeys s.queryKeys := by
  rintro ⟨k, l, hk, hl, heq, key, hkey⟩
  have hkeys : ∀ {t : Route} {ks : List Bytes}, CleanKeys t → t.queryKeys = some ks →
      ([0].intercalate (sortedKeys ks)).splitOn 0 =
        if sortedKeys ks = [] then [[]] else sortedKeys ks := by
    intro t ks ht hks
    by_cases hnil : sortedKeys ks = []
    · simp [hnil]
    · rw [if_neg hnil]
      refine List.splitOn_intercalate 0 (fun b hb => ?_) hnil
      exact (ht ks hks b (mem_sortedKeys.mp hb)).2
  have hne : ∀ {t : Route} {ks : List Bytes}, CleanKeys t → t.queryKeys = some ks →
      sortedKeys ks ≠ [[]] := by
    intro t ks ht hks hbad
    exact (ht ks hks [] (mem_sortedKeys.mp (by simp [hbad]))).1 rfl
  have hsorted : sortedKeys k = sortedKeys l := by
    have hsplit := hkeys hr hk
    rw [heq, hkeys hs hl] at hsplit
    have hk' := hne hr hk
    have hl' := hne hs hl
    split_ifs at hsplit with h₁ h₂ h₂
    · rw [h₁, h₂]
    · exact absurd hsplit.symm hk'
    · exact absurd hsplit hl'
    · exact hsplit.symm
  refine hkey ?_
  rw [← @mem_sortedKeys key k, hsorted, mem_sortedKeys]

theorem kib_ceilingKB {routeMaxKB b : Int} (hb : b ≤ 1024) :
    kib (ceilingKB routeMaxKB b) = ceilingKB routeMaxKB b * 1024 := by
  have hle := ceilingKB_le routeMaxKB b
  exact kib_of_fits (ceilingKB_pos _ _) (by omega)

theorem ceilingKB_congr {x y b : Int} (h : effectiveMaxBodyKB x b = effectiveMaxBodyKB y b) :
    ceilingKB x b = ceilingKB y b := by
  by_cases hb : 0 < b
  · rw [ceilingKB_eq_min x hb, ceilingKB_eq_min y hb, h]
  · rw [ceilingKB_of_nonpos x (by omega), ceilingKB_of_nonpos y (by omega), h]

theorem effectiveLimit_requestBodyKB {m g : Limits}
    (h : ∀ v, g.field .requestBodyKB = some v → v ≤ requested .requestBodyKB m) :
    effectiveLimit .requestBodyKB m g =
      match g.field .requestBodyKB with
      | some v => v
      | none => min (requested .requestBodyKB m) 64 := by
  have hmax := requested_le_max .requestBodyKB m
  rw [effectiveLimit_eq_min]
  rcases hg : g.field .requestBodyKB with _ | v
  · rw [requested_of_none hg]
    rfl
  · have hv := h v hg
    rw [requested_of_some hg]
    simp only [limitBounds] at hmax ⊢
    omega

/-- How a route's body ceiling escapes the manifest's: the grant sets `requestBodyKB` to
zero or less, the manifest asks for less than the core default, and the route has no
ceiling of its own within the manifest's. -/
def CeilingEscapes (m g : Limits) (routeMaxKB : Int) : Prop :=
  (∃ v ≤ 0, g.field .requestBodyKB = some v) ∧
    0 < requested .requestBodyKB m ∧ requested .requestBodyKB m < 64 ∧
    (routeMaxKB ≤ 0 ∨ requested .requestBodyKB m < routeMaxKB)

/-- **The ceiling in force grows exactly when it escapes.** -/
theorem ceilingKB_effective_le_iff {m g : Limits} (routeMaxKB : Int)
    (h : ∀ v, g.field .requestBodyKB = some v → v ≤ requested .requestBodyKB m) :
    ceilingKB routeMaxKB (effectiveLimit .requestBodyKB m g) ≤
      ceilingKB routeMaxKB (requested .requestBodyKB m) ↔ ¬ CeilingEscapes m g routeMaxKB := by
  rw [effectiveLimit_requestBodyKB h, CeilingEscapes]
  generalize requested .requestBodyKB m = R at h ⊢
  rcases hg : g.field .requestBodyKB with _ | v
  · simp only [ceilingKB, coreDefaultBodyKB, reduceCtorEq, and_false, exists_false, false_and,
      not_false_eq_true, iff_true]
    split_ifs <;> omega
  · have hv := h v hg
    simp only [ceilingKB, coreDefaultBodyKB, Option.some.injEq, exists_eq_right']
    split_ifs <;> omega

/-! ## Approval never widens -/

section

variable {m : Manifest} {expected : Bytes} {grants : Grants} {entry : LockEntry}

theorem Approved.requestBodyKB_le (happ : Approved m expected grants entry) :
    entry.effectiveLimits.field .requestBodyKB ≤ 1024 := by
  rw [happ.entry_limits, field_reconcileAtApproval]
  exact (effectiveLimit_le _ _ _).trans (requested_le_max _ _)

theorem Approved.map_runtime (happ : Approved m expected grants entry) :
    entry.routes.map Route.runtime = grants.routes.map Route.runtime := by
  rw [happ.entry_routes, List.map_map]
  rfl

/-- A route whose ceiling does not escape is covered by a manifest route. -/
theorem Approved.permits_manifest (happ : Approved m expected grants entry)
    (hclean : ∀ r, r ∈ m.routes ∨ r ∈ grants.routes → CleanKeys r) {r : Route}
    (hr : r ∈ grants.routes) (hok : ¬ CeilingEscapes m.limits grants.limits r.maxBodyKB)
    {req : HTTPRequest} {path : Bytes} {use : UseKind}
    (h : r.runtime.Permits req path use (entry.effectiveLimits.field .requestBodyKB)) :
    ∃ s ∈ m.routes, s.runtime.Permits req path use (requested .requestBodyKB m.limits) := by
  obtain ⟨s, hs, i, hri, hsi⟩ := happ.routes r hr
  obtain ⟨-, -, -, -, -, hrk, hrbody⟩ := (r.identity_eq_ok_iff _ i).mp hri
  obtain ⟨-, -, -, -, -, hsk, hsbody⟩ := (s.identity_eq_ok_iff _ i).mp hsi
  have hkeys := keys_of_canonicalQueryKeys (hrk.symm.trans hsk)
    (not_keysCollide_of_clean (hclean r (Or.inr hr)) (hclean s (Or.inl hs)))
  have hceil := (ceilingKB_effective_le_iff r.maxBodyKB (happ.limits .requestBodyKB)).mpr hok
  refine ⟨s, hs, permits_of_identity hri hsi hkeys ?_ h⟩
  rw [kib_ceilingKB happ.requestBodyKB_le, kib_ceilingKB (requested_le_max .requestBodyKB m.limits),
    ceilingKB_congr (hsbody.symm.trans hrbody), happ.entry_limits, field_reconcileAtApproval]
  omega

/-- A route whose ceiling escapes permits a body that no manifest route does. -/
theorem Approved.exists_widened (happ : Approved m expected grants entry) {r : Route}
    (hr : r ∈ grants.routes) (hescapes : CeilingEscapes m.limits grants.limits r.maxBodyKB) :
    ∃ req path use, canonicalise req.path = .ok path ∧
      r.runtime.Permits req path use (entry.effectiveLimits.field .requestBodyKB) ∧
      ∀ s ∈ m.routes, ¬ s.runtime.Permits req path use (requested .requestBodyKB m.limits) := by
  obtain ⟨s, hs, i, hri, hsi⟩ := happ.routes r hr
  have hmax := requested_le_max .requestBodyKB m.limits
  have hcanonical := canonical_of_canonicalise ((r.identity_eq_ok_iff _ i).mp hri).1
  have hpos : 0 < requested .requestBodyKB m.limits := hescapes.2.1
  -- one byte more than the manifest asks for
  have hceil : requested .requestBodyKB m.limits <
      ceilingKB r.maxBodyKB (entry.effectiveLimits.field .requestBodyKB) := by
    obtain ⟨⟨v, hv, hg⟩, -, hlt, hroute⟩ := hescapes
    rw [happ.entry_limits, field_reconcileAtApproval,
      effectiveLimit_requestBodyKB (happ.limits .requestBodyKB), hg]
    simp only [ceilingKB, coreDefaultBodyKB]
    split_ifs <;> omega
  refine ⟨r.probe i.path ∅ (requested .requestBodyKB m.limits * 1024 + 1), i.path,
    runtimeUse r.use, hcanonical, ?_, ?_⟩
  · refine Route.permits_probe hri (by simp) (by omega) ?_
    rw [kib_ceilingKB happ.requestBodyKB_le]
    omega
  · intro s' _ hpermits
    have hbody := hpermits.body.2
    rw [Route.judgedLen_probe, kib_ceilingKB hmax, ceilingKB_eq_min _ hpos] at hbody
    omega

end

/-- **When an approval does not widen what the manifest asks for.**  The digest, the
capabilities and the limits are always within it; the routes are exactly when no granted
route's body ceiling escapes. -/
theorem approve_never_widens_iff (m : Manifest) (expected : Bytes) (grants : Grants)
    (approvedBy approvedAt : Bytes) (entry : LockEntry)
    (hclean : ∀ r, r ∈ m.routes ∨ r ∈ grants.routes → CleanKeys r)
    (h : approve m expected grants approvedBy approvedAt = .ok entry) :
    (expected = m.digest ∧
      (∀ c ∈ entry.capabilities, c ∈ m.capabilities) ∧
      (∀ name, entry.effectiveLimits.field name ≤
          (m.limits.field name).getD (limitBounds name).default ∧
        entry.effectiveLimits.field name ≤ (limitBounds name).max) ∧
      ∀ req path use, canonicalise req.path = .ok path →
        anyRouteAllows (entry.routes.map Route.runtime) req path use
          (entry.effectiveLimits.field .requestBodyKB) = true →
        anyRouteAllows (m.routes.map Route.runtime) req path use
          (requested .requestBodyKB m.limits) = true) ↔
    ∀ r ∈ grants.routes, ¬ CeilingEscapes m.limits grants.limits r.maxBodyKB := by
  have happ := approved_of_approve h
  simp only [happ.map_runtime, anyRouteAllows_iff, List.mem_map, exists_exists_and_eq_and]
  constructor
  · rintro ⟨-, -, -, hroutes⟩ r hr hescapes
    obtain ⟨req, path, use, hc, hpermits, hnone⟩ := happ.exists_widened hr hescapes
    obtain ⟨s, hs, hpermits'⟩ := hroutes req path use hc ⟨r, hr, hpermits⟩
    exact hnone s hs hpermits'
  · intro hok
    refine ⟨happ.digest, ?_, ?_, ?_⟩
    · rw [happ.entry_capabilities]
      exact happ.capabilities
    · intro name
      rw [happ.entry_limits, field_reconcileAtApproval]
      have hle := effectiveLimit_le name m.limits grants.limits
      exact ⟨hle.trans (requested_le_getD _ _), hle.trans (requested_le_max _ _)⟩
    · rintro req path use - ⟨r, hr, hpermits⟩
      exact happ.permits_manifest hclean hr (hok r hr) hpermits

/-- A manifest that asks to upload at most 16 KiB. -/
def uploadManifest : Manifest where
  id := ascii "upload"
  name := ascii "Upload"
  version := ascii "1.0.0"
  runtime := ascii "declarative"
  capabilities := [ascii "http"]
  limits := ⟨fun name => if name = .requestBodyKB then some 16 else none⟩
  routes := [{ slot := ascii "server", method := ascii "POST", path := ascii "/items" }]
  digest := ascii "digest"

/-- A grant of all of it, with `requestBodyKB: 0`. -/
def uploadGrants : Grants where
  capabilities := uploadManifest.capabilities
  routes := uploadManifest.routes
  limits := ⟨fun name => if name = .requestBodyKB then some 0 else none⟩

/-- An upload of 20 KiB. -/
def upload : HTTPRequest where
  slot := ascii "server"
  method := ascii "POST"
  path := ascii "/items"
  bodyLen := 20 * 1024

theorem approve_upload :
    ∃ entry, approve uploadManifest (ascii "digest") uploadGrants (ascii "admin")
        (ascii "2026-01-02T03:04:05Z") = .ok entry ∧
      entry.routes = uploadManifest.routes ∧ entry.effectiveLimits.field .requestBodyKB = 0 := by
  have hentry : (approve uploadManifest (ascii "digest") uploadGrants (ascii "admin")
      (ascii "2026-01-02T03:04:05Z")).toOption.map
        (fun e => (e.routes, e.effectiveLimits.field .requestBodyKB)) =
      some (uploadManifest.routes, 0) := by decide +kernel
  rcases h : approve uploadManifest (ascii "digest") uploadGrants (ascii "admin")
    (ascii "2026-01-02T03:04:05Z") with e | entry
  · rw [h] at hentry
    cases hentry
  · rw [h] at hentry
    exact ⟨entry, rfl, congrArg Prod.fst (Option.some.inj hentry),
      congrArg Prod.snd (Option.some.inj hentry)⟩

/-- The approved entry permits the upload, and the manifest does not. -/
theorem approve_widens_upload :
    ∃ entry, approve uploadManifest (ascii "digest") uploadGrants (ascii "admin")
        (ascii "2026-01-02T03:04:05Z") = .ok entry ∧
      canonicalise upload.path = .ok (ascii "/items") ∧
      anyRouteAllows (entry.routes.map Route.runtime) upload (ascii "/items") useData
        (entry.effectiveLimits.field .requestBodyKB) = true ∧
      anyRouteAllows (uploadManifest.routes.map Route.runtime) upload (ascii "/items") useData
        (requested .requestBodyKB uploadManifest.limits) = false := by
  obtain ⟨entry, h, hroutes, hlimit⟩ := approve_upload
  refine ⟨entry, h, by decide +kernel, ?_, by decide +kernel⟩
  rw [hroutes, hlimit]
  decide +kernel

theorem approve_never_widens_iff_upload :
    ∃ entry, approve uploadManifest (ascii "digest") uploadGrants (ascii "admin")
        (ascii "2026-01-02T03:04:05Z") = .ok entry ∧
      ((ascii "digest" = uploadManifest.digest ∧
        (∀ c ∈ entry.capabilities, c ∈ uploadManifest.capabilities) ∧
        (∀ name, entry.effectiveLimits.field name ≤
            (uploadManifest.limits.field name).getD (limitBounds name).default ∧
          entry.effectiveLimits.field name ≤ (limitBounds name).max) ∧
        ∀ req path use, canonicalise req.path = .ok path →
          anyRouteAllows (entry.routes.map Route.runtime) req path use
            (entry.effectiveLimits.field .requestBodyKB) = true →
          anyRouteAllows (uploadManifest.routes.map Route.runtime) req path use
            (requested .requestBodyKB uploadManifest.limits) = true) ↔
      ∀ r ∈ uploadGrants.routes,
        ¬ CeilingEscapes uploadManifest.limits uploadGrants.limits r.maxBodyKB) := by
  obtain ⟨entry, h, -, -⟩ := approve_upload
  have hclean : ∀ r, r ∈ uploadManifest.routes ∨ r ∈ uploadGrants.routes → CleanKeys r := by
    intro r hr k hk
    have hmem : r ∈ uploadManifest.routes := hr.elim id id
    rw [uploadManifest, List.mem_singleton] at hmem
    rw [hmem] at hk
    cases hk
  exact ⟨entry, h, approve_never_widens_iff uploadManifest _ uploadGrants _ _ entry hclean h⟩

end Veduta.Integrations
