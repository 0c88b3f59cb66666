import Mathlib.Data.Fintype.EquivFin
import Veduta.Integrations.Lock

/-!
# What a lock is after a round trip

Writing a lock and reading it back returns every entry as `LockEntry.persisted` says:
as it was, except that a route's empty query-key allowlist is gone, which the broker
reads as no allowlist at all.  So the authority of an entry survives exactly when each
route with an empty allowlist is covered by routes that have none.
-/

namespace Veduta.Integrations

open Go Lib Routepath Capabilities

/-- A route after a round trip: an empty allowlist is left out. -/
def Route.persisted (r : Route) : Route :=
  { r with queryKeys := if r.queryKeys = some [] then none else r.queryKeys }

def LockEntry.persisted (e : LockEntry) : LockEntry :=
  { e with routes := e.routes.map Route.persisted }

/-! ## Decoding what was encoded -/

theorem Route.field?_encode (r : Route) :
    r.encode.field? (ascii "slot") = some (.str r.slot) ∧
      r.encode.field? (ascii "method") = some (.str r.method) ∧
      r.encode.field? (ascii "path") = some (.str r.path) ∧
      r.encode.field? (ascii "use") = (if r.use != [] then some (.str r.use) else none) ∧
      r.encode.field? (ascii "reason") = (if r.reason != [] then some (.str r.reason) else none) ∧
      r.encode.field? (ascii "queryKeys") =
        (if r.queryKeys.getD [] != [] then some (.arr ((r.queryKeys.getD []).map .str))
          else none) ∧
      r.encode.field? (ascii "contentType") =
        (if r.contentType != [] then some (.str r.contentType) else none) ∧
      r.encode.field? (ascii "maxBodyKB") =
        (if r.maxBodyKB != 0 then some (.int r.maxBodyKB) else none) := by
  -- each name is compared with those before it
  simp +decide only [Route.encode, Doc.field?, List.cons_append, List.nil_append,
    List.lookup_cons_self, lookup_cons_of_ne, lookup_omitEmpty, lookup_omitEmpty_self,
    lookup_omitEmpty_of_ne, lookup_omitEmpty_eq_none, and_self]

theorem Route.decode_encode (r : Route) : Route.decode r.encode = some r.persisted := by
  obtain ⟨hslot, hmethod, hpath, huse, hreason, hkeys, hct, hbody⟩ := r.field?_encode
  have hqueryKeys : r.encode.getStrings (ascii "queryKeys") = some r.persisted.queryKeys := by
    rcases hk : r.queryKeys with _ | keys
    · simp [Doc.getStrings, hkeys, hk, Route.persisted]
    · by_cases hnil : keys = []
      · simp [Doc.getStrings, hkeys, hk, hnil, Route.persisted]
      · simp [Doc.getStrings, hkeys, hk, hnil, Route.persisted]
  simp [Route.decode, Doc.getStr_of_str hslot, Doc.getStr_of_str hmethod, Doc.getStr_of_str hpath,
    Doc.getStr_of_field? huse, Doc.getStr_of_field? hreason, Doc.getStr_of_field? hct,
    Doc.getInt_of_field? hbody, hqueryKeys, Route.persisted]

theorem lookup_encode_limits (l : Limits) (f : LimitField) (fs : List LimitField) :
    (fs.flatMap fun g => omitEmpty g.name (l.field g).isSome (.int ((l.field g).getD 0))).lookup
      f.name = if f ∈ fs then (l.field f).map Doc.int else none := by
  induction fs with
  | nil => rfl
  | cons g fs ih =>
    rw [List.flatMap_cons]
    by_cases hfg : f = g
    · subst hfg
      rw [lookup_omitEmpty_self, ih]
      rcases hf : l.field f with _ | v <;> simp
    · have hne : f.name ≠ g.name := fun h => hfg (LimitField.name_injective h)
      rw [lookup_omitEmpty_of_ne hne, ih]
      simp [hfg]

theorem Limits.decode_encode (l : Limits) : Limits.decode l.encode = some l := by
  have hget : ∀ f, l.encode.getIntPtr f.name = some (l.field f) := by
    intro f
    have hfield : l.encode.field? f.name = (l.field f).map Doc.int := by
      rw [Limits.encode, Doc.field?, lookup_encode_limits, if_pos (mem_limitFieldOrder f)]
    rcases hf : l.field f with _ | v <;> simp [Doc.getIntPtr, hfield, hf]
  simp [Limits.decode, hget]

theorem EffectiveLimits.decode_encode (l : EffectiveLimits) :
    EffectiveLimits.decode l.encode = some l := by
  have hlookup : ∀ (f : LimitField) (fs : List LimitField), f ∈ fs →
      (fs.map fun g => (g.name, Doc.int (l.field g))).lookup f.name = some (.int (l.field f)) := by
    intro f fs
    induction fs with
    | nil => simp
    | cons g fs ih =>
      intro hmem
      by_cases hfg : f = g
      · simp [hfg]
      · have hne : f.name ≠ g.name := fun h => hfg (LimitField.name_injective h)
        rw [List.map_cons, lookup_cons_of_ne hne]
        exact ih (List.mem_of_ne_of_mem hfg hmem)
  have hget : ∀ f, l.encode.getInt f.name = some (l.field f) := by
    intro f
    simp [Doc.getInt, EffectiveLimits.encode, Doc.field?, hlookup f _ (mem_limitFieldOrder f)]
  simp [EffectiveLimits.decode, hget]

theorem LockEntry.field?_encode (e : LockEntry) :
    e.encode.field? (ascii "manifestSha256") = some (.str e.manifestSHA256) ∧
      e.encode.field? (ascii "moduleSha256") =
        (if e.moduleSHA256 != [] then some (.str e.moduleSHA256) else none) ∧
      e.encode.field? (ascii "version") =
        (if e.version != [] then some (.str e.version) else none) ∧
      e.encode.field? (ascii "runtime") =
        (if e.runtime != [] then some (.str e.runtime) else none) ∧
      e.encode.field? (ascii "approvedAt") = some (.str e.approvedAt) ∧
      e.encode.field? (ascii "approvedBy") =
        (if e.approvedBy != [] then some (.str e.approvedBy) else none) ∧
      e.encode.field? (ascii "capabilities") = some (.arr (e.capabilities.map .str)) ∧
      e.encode.field? (ascii "routes") = some (.arr (e.routes.map Route.encode)) ∧
      e.encode.field? (ascii "limits") =
        (if e.limits.isSome then some ((e.limits.map Limits.encode).getD .null) else none) ∧
      e.encode.field? (ascii "effectiveLimits") = some e.effectiveLimits.encode := by
  simp +decide only [LockEntry.encode, Doc.field?, List.cons_append, List.nil_append,
    List.lookup_cons_self, lookup_cons_of_ne, lookup_omitEmpty_self, lookup_omitEmpty_of_ne,
    List.lookup_nil, and_self]

theorem LockEntry.decode_encode (e : LockEntry) : LockEntry.decode e.encode = some e.persisted := by
  obtain ⟨hmanifest, hmodule, hversion, hruntime, hat, hby, hcaps, hroutes, hlimits,
    heffective⟩ := e.field?_encode
  have hroutes' : e.encode.getList (ascii "routes") Route.decode =
      some (e.routes.map Route.persisted) := by
    rw [Doc.getList_of_arr hroutes, List.mapM_map]
    exact mapM_eq_some_map Route.decode_encode e.routes
  have hlimits' : e.encode.getPtr (ascii "limits") Limits.decode = some e.limits := by
    cases hl : e.limits with
    | none => simp [Doc.getPtr, hlimits, hl]
    | some l =>
      rw [hl] at hlimits
      exact (Doc.getPtr_of_obj hlimits _).trans (congrArg _ (Limits.decode_encode l))
  have heffective' := (Doc.getStruct_of_obj heffective ⟨fun _ => 0⟩ EffectiveLimits.decode).trans
    (EffectiveLimits.decode_encode _)
  simp [LockEntry.decode, LockEntry.persisted, Doc.getStr_of_str hmanifest,
    Doc.getStr_of_field? hmodule, Doc.getStr_of_field? hversion, Doc.getStr_of_field? hruntime,
    Doc.getStr_of_str hat, Doc.getStr_of_field? hby, Doc.getList_of_arr hcaps, hroutes',
    hlimits', heffective']

theorem Lock.decode_encode (l : Lock) : ∃ l', Lock.decode l.encode = some l' ∧
    ∀ id, l'.integrations.lookup id = (l.integrations.lookup id).map LockEntry.persisted := by
  have hversion : l.encode.getInt (ascii "version") = some l.version := by
    simp [Doc.getInt, Doc.field?, Lock.encode]
  have hfield : l.encode.field? (ascii "integrations") =
      some (.obj (l.integrations.entries.map fun x => (x.1, x.2.encode))) := by
    simp +decide [Doc.field?, Lock.encode, lookup_cons_of_ne]
  have hall := mapM_eq_some_map
    (f := fun x : Σ _ : Bytes, LockEntry => (LockEntry.decode x.2.encode).map (x.1, ·))
    (fun x => by rw [LockEntry.decode_encode]; rfl) l.integrations.entries
  refine ⟨⟨l.version, .ofList (l.integrations.entries.map fun x => (x.1, x.2.persisted))⟩, ?_, ?_⟩
  · simp [Lock.decode, hversion, hfield, Function.comp_def, hall]
  · intro id
    rw [GoMap.ofList, AList.lookup_to_alist, List.map_map]
    exact List.dlookup_map₂ (f := fun _ => LockEntry.persisted) id

/-- **A lock that is written can be read**, and each entry comes back persisted. -/
theorem readLock_writeLock {lock : Lock} {doc : Doc} (hw : writeLock lock = .ok doc) :
    ∃ lock', readLock (some doc) = .ok lock' ∧
      ∀ id, lock'.integrations.lookup id =
        (lock.integrations.lookup id).map LockEntry.persisted := by
  rw [writeLock] at hw
  split at hw
  next hschema =>
    cases hw
    obtain ⟨lock', hdecode, hlookup⟩ := lock.decode_encode
    exact ⟨lock', by simp [readLock, hschema, hdecode], hlookup⟩
  next => cases hw

/-! ## Authority -/

/-- The two entries record the same capabilities and limits, and their routes permit
the same requests, whatever the body ceiling. -/
structure SameAuthority (e e' : LockEntry) : Prop where
  capabilities : e'.capabilities = e.capabilities
  effectiveLimits : e'.effectiveLimits = e.effectiveLimits
  routes : ∀ req path use b, canonicalise req.path = .ok path →
    anyRouteAllows (e'.routes.map Route.runtime) req path use b =
      anyRouteAllows (e.routes.map Route.runtime) req path use b

/-- Every request that the route permits is permitted by one of the routes that have
no allowlist. -/
def Route.CoveredWithoutKeys (r : Route) (routes : List Route) : Prop :=
  ∀ req path use b, canonicalise req.path = .ok path →
    anyRouteAllows [r.runtime] req path use b = true →
      anyRouteAllows ((routes.filter fun r' => r'.queryKeys.isNone).map Route.runtime) req path use
        b = true

variable {r : Route} {req : HTTPRequest} {path : Bytes} {use : UseKind} {e : LockEntry}

theorem Route.permits_persisted {b : Int} (h : r.runtime.Permits req path use b) :
    r.persisted.runtime.Permits req path use b where
  slot := h.slot
  method := h.method
  use := h.use
  path := h.path
  query := by
    intro keys hkeys
    simp only [Route.persisted, Route.runtime, ite_eq_iff, reduceCtorEq, and_false, false_or]
      at hkeys
    exact h.query keys hkeys.2
  contentType := h.contentType
  body := h.body

theorem Route.permits_of_persisted {b : Int} (h : r.persisted.runtime.Permits req path use b) :
    r.runtime.Permits { req with query := ∅ } path use b where
  slot := h.slot
  method := h.method
  use := h.use
  path := h.path
  query := fun keys _ k hk => by simp at hk
  contentType := h.contentType
  body := h.body

theorem Route.persisted_of_ne (h : r.queryKeys ≠ some []) : r.persisted = r := by
  simp [Route.persisted, h]

theorem exists_unlisted_key (routes : List Route) :
    ∃ key, ∀ r ∈ routes, ∀ keys, r.queryKeys = some keys → key ∉ keys := by
  obtain ⟨key, hkey⟩ : ∃ k, k ∉ (routes.flatMap fun r => r.queryKeys.getD []).toFinset :=
    Infinite.exists_notMem_finset _
  simp only [List.mem_toFinset, List.mem_flatMap, not_exists, not_and] at hkey
  refine ⟨key, fun r hr keys hkeys hmem => hkey r hr ?_⟩
  simpa [hkeys] using hmem

/-- An empty allowlist that was dropped without effect was covered: ask with a key that
no allowlist holds. -/
theorem SameAuthority.covered (hsame : SameAuthority e e.persisted) (hr : r ∈ e.routes)
    (hkeys : r.queryKeys = some []) : r.CoveredWithoutKeys e.routes := by
  intro req path use b hc hallow
  obtain ⟨fresh, hfresh⟩ := exists_unlisted_key e.routes
  simp only [anyRouteAllows_iff, List.mem_singleton, exists_eq_left] at hallow
  have hkeyless : r.persisted.runtime.queryKeys = none := by
    simp [Route.runtime, Route.persisted, hkeys]
  have hnew : r.persisted.runtime.Permits { req with query := .ofList [(fresh, [])] } path use
      b := (Route.permits_persisted hallow).of_keyless hkeyless _
  have hold := hsame.routes { req with query := .ofList [(fresh, [])] } path use b hc
  have hmem : r.persisted.runtime ∈ e.persisted.routes.map Route.runtime :=
    List.mem_map_of_mem (List.mem_map_of_mem hr)
  rw [(anyRouteAllows_iff _ _ _ _ _).mpr ⟨_, hmem, hnew⟩, eq_comm, anyRouteAllows_iff] at hold
  obtain ⟨c, hc', hpermits⟩ := hold
  obtain ⟨r', hr', rfl⟩ := List.mem_map.mp hc'
  have hnone : r'.queryKeys = none := by
    cases hk : r'.queryKeys with
    | none => rfl
    | some keys => exact absurd (hpermits.query keys hk fresh (by simp)) (hfresh r' hr' keys hk)
  rw [anyRouteAllows_iff]
  refine ⟨r'.runtime, List.mem_map_of_mem ?_, hpermits.of_keyless hnone req.query⟩
  simp [hr', hnone]

theorem sameAuthority_of_covered
    (hcovered : ∀ r ∈ e.routes, r.queryKeys = some [] → r.CoveredWithoutKeys e.routes) :
    SameAuthority e e.persisted := by
  refine ⟨rfl, rfl, fun req path use b hc => ?_⟩
  rw [Bool.eq_iff_iff, anyRouteAllows_iff, anyRouteAllows_iff]
  simp only [LockEntry.persisted, List.mem_map, exists_exists_and_eq_and]
  constructor
  · rintro ⟨r, hr, hpermits⟩
    by_cases hkeys : r.queryKeys = some []
    · have hempty := hcovered r hr hkeys { req with query := ∅ } path use b hc
        ((anyRouteAllows_iff _ _ _ _ _).mpr
          ⟨_, List.mem_singleton_self _, Route.permits_of_persisted hpermits⟩)
      rw [anyRouteAllows_iff] at hempty
      obtain ⟨c, hc', hpermits'⟩ := hempty
      obtain ⟨r', hr', rfl⟩ := List.mem_map.mp hc'
      rw [List.mem_filter, Option.isNone_iff_eq_none] at hr'
      exact ⟨r', hr'.1, hpermits'.of_keyless hr'.2 req.query⟩
    · exact ⟨r, hr, by rwa [Route.persisted_of_ne hkeys] at hpermits⟩
  · rintro ⟨r, hr, hpermits⟩
    exact ⟨r, hr, Route.permits_persisted hpermits⟩

/-- **An entry keeps its authority** exactly when its empty allowlists are covered. -/
theorem sameAuthority_persisted_iff (e : LockEntry) :
    SameAuthority e e.persisted ↔
      ∀ r ∈ e.routes, r.queryKeys = some [] → r.CoveredWithoutKeys e.routes :=
  ⟨fun hsame _ hr hkeys => hsame.covered hr hkeys, sameAuthority_of_covered⟩

/-- **What the lock file preserves.**  A lock that is written is read back with the same
entries, and every entry keeps its authority exactly when each of its routes with an
empty allowlist is covered by its routes without one. -/
theorem lock_roundTrip_iff (lock : Lock) (doc : Doc) (hw : writeLock lock = .ok doc) :
    ∃ lock', readLock (some doc) = .ok lock' ∧
      (((∀ id, id ∈ lock'.integrations ↔ id ∈ lock.integrations) ∧
        ∀ id e e', lock.integrations.lookup id = some e → lock'.integrations.lookup id = some e' →
          SameAuthority e e') ↔
      ∀ id e, lock.integrations.lookup id = some e →
        ∀ r ∈ e.routes, r.queryKeys = some [] → r.CoveredWithoutKeys e.routes) := by
  obtain ⟨lock', hread, hlookup⟩ := readLock_writeLock hw
  refine ⟨lock', hread, ?_⟩
  have hmem : ∀ id, id ∈ lock'.integrations ↔ id ∈ lock.integrations := by
    intro id
    rw [← AList.lookup_isSome, ← AList.lookup_isSome, hlookup]
    simp
  rw [and_iff_right hmem]
  constructor
  · intro h id e he
    have he' : lock'.integrations.lookup id = some e.persisted := by rw [hlookup, he]; rfl
    exact (sameAuthority_persisted_iff e).mp (h id e e.persisted he he')
  · intro h id e e' he he'
    rw [hlookup, he, Option.map_some, Option.some.injEq] at he'
    subst he'
    exact (sameAuthority_persisted_iff e).mpr (h id e he)

/-- An approval of `GET /items` without any query parameter. -/
def itemsEntry : LockEntry where
  manifestSHA256 := List.replicate 64 (chr 'a')
  approvedAt := ascii "2026-01-02T03:04:05Z"
  capabilities := [ascii "http"]
  routes := [{ slot := ascii "server", method := ascii "GET", path := ascii "/items",
               queryKeys := some [] }]
  effectiveLimits := ⟨fun f => (limitBounds f).default⟩

def itemsLock : Lock := ⟨1, .ofList [(ascii "demo", itemsEntry)]⟩

/-- A request for `/items` with a query parameter. -/
def itemsSearch : HTTPRequest where
  slot := ascii "server"
  method := ascii "GET"
  path := ascii "/items"
  query := .ofList [(ascii "admin", ascii "1")]

/-- The approval is written and read back, and then permits a query parameter that it
did not. -/
theorem emptyAllowlist_widened :
    ∃ doc lock' e', writeLock itemsLock = .ok doc ∧ readLock (some doc) = .ok lock' ∧
      lock'.integrations.lookup (ascii "demo") = some e' ∧
      anyRouteAllows (itemsEntry.routes.map Route.runtime) itemsSearch (ascii "/items") useData 64 =
        false ∧
      anyRouteAllows (e'.routes.map Route.runtime) itemsSearch (ascii "/items") useData 64 = true ∧
      ¬ SameAuthority itemsEntry e' := by
  have hw : writeLock itemsLock = .ok itemsLock.encode := if_pos (by decide +kernel)
  obtain ⟨lock', hread, hlookup⟩ := readLock_writeLock hw
  have hbefore : anyRouteAllows (itemsEntry.routes.map Route.runtime) itemsSearch (ascii "/items")
      useData 64 = false := by decide +kernel
  have hafter : anyRouteAllows (itemsEntry.persisted.routes.map Route.runtime) itemsSearch
      (ascii "/items") useData 64 = true := by decide +kernel
  refine ⟨_, lock', itemsEntry.persisted, hw, hread, (hlookup _).trans rfl, hbefore, hafter, ?_⟩
  intro hsame
  have hc : canonicalise itemsSearch.path = .ok (ascii "/items") := by decide +kernel
  rw [hsame.routes itemsSearch (ascii "/items") useData 64 hc, hbefore] at hafter
  cases hafter

theorem lock_roundTrip_iff_items :
    writeLock itemsLock = .ok itemsLock.encode ∧
      ∃ lock', readLock (some itemsLock.encode) = .ok lock' ∧
        (((∀ id, id ∈ lock'.integrations ↔ id ∈ itemsLock.integrations) ∧
          ∀ id e e', itemsLock.integrations.lookup id = some e →
            lock'.integrations.lookup id = some e' → SameAuthority e e') ↔
        ∀ id e, itemsLock.integrations.lookup id = some e →
          ∀ r ∈ e.routes, r.queryKeys = some [] → r.CoveredWithoutKeys e.routes) :=
  ⟨if_pos (by decide +kernel), lock_roundTrip_iff itemsLock _ (if_pos (by decide +kernel))⟩

end Veduta.Integrations
