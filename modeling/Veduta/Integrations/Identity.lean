import Veduta.Integrations.Lock

/-!
# Identity and authority

The approval flow compares identity tuples; the broker enforces routes.  Two routes
with one identity permit the same requests, provided their key lists hold the same
keys.  The tuple's key string does not settle that: joined with NUL bytes, `[]` and
`[""]` read alike, and so do `["a", "b"]` and `["a\0b"]`.
-/

namespace Veduta.Integrations

open Go Lib Routepath Capabilities

/-- A route that the manifest schema admits, with its document. -/
structure ManifestRoute where
  doc : Doc
  route : Route
  admitted : manifestRouteSchema doc = true
  decoded : Route.decode doc = some route

theorem ManifestRoute.maxBodyKB_bounds (r : ManifestRoute) :
    r.route.maxBodyKB = 0 ∨ 1 ≤ r.route.maxBodyKB ∧ r.route.maxBodyKB ≤ 1024 := by
  have hget : r.doc.getInt (ascii "maxBodyKB") = some r.route.maxBodyKB := by
    have h := r.decoded
    simp only [Route.decode, bind, Option.bind_eq_some_iff] at h
    obtain ⟨_, _, _, _, _, _, _, _, _, _, _, _, _, _, n, hn, h⟩ := h
    rw [← Option.some.inj h]
    exact hn
  rcases hfield : r.doc.field? (ascii "maxBodyKB") with _ | v
  · left
    simpa [Doc.getInt, hfield, eq_comm] using hget
  · have hv : Schema.integer 1 1024 v = true :=
      Schema.object_lookup r.admitted
        (by simp +decide [routeProperties, lookup_cons_of_ne]) hfield
    cases v with
    | int n =>
      right
      obtain rfl : n = r.route.maxBodyKB := by simpa [Doc.getInt, hfield] using hget
      simpa [Schema.integer] using hv
    | _ => simp [Schema.integer] at hv

theorem normaliseMediaType_ne_nil {v t : Bytes} (h : normaliseMediaType v = .ok t) : t ≠ [] := by
  simp only [normaliseMediaType] at h
  split at h
  · cases h
  · split_ifs at h with hout
    cases h
    exact hout

theorem contentType_of_normaliseContentType {u v t header : Bytes}
    (hu : normaliseContentType u = .ok t) (hv : normaliseContentType v = .ok t)
    (h : u ≠ [] → ∃ s, normaliseMediaType header = .ok s ∧ normaliseMediaType u = .ok s) :
    v ≠ [] → ∃ s, normaliseMediaType header = .ok s ∧ normaliseMediaType v = .ok s := by
  intro hne
  rw [normaliseContentType, if_neg hne] at hv
  have hune : u ≠ [] := by
    rintro rfl
    cases hu
    exact normaliseMediaType_ne_nil hv rfl
  rw [normaliseContentType, if_neg hune] at hu
  obtain ⟨s, hheader, hs⟩ := h hune
  rw [hu, Except.ok.injEq] at hs
  subst hs
  exact ⟨t, hheader, hv⟩

variable {r s : Route} {b b₀ : Int} {i : Identity} {k l : Option (List Bytes)}

/-- **What one identity carries over** from a route to another: everything but the query
keys and the ceiling in force, which the last two hypotheses supply. -/
theorem permits_of_identity {b' : Int} {req : HTTPRequest} {path : Bytes} {use : UseKind}
    (hr : r.identity b₀ = .ok i) (hs : s.identity b₀ = .ok i)
    (hkeys : ∀ l, s.queryKeys = some l → ∃ k, r.queryKeys = some k ∧ ∀ key ∈ k, key ∈ l)
    (hbody : kib (ceilingKB r.maxBodyKB b) ≤ kib (ceilingKB s.maxBodyKB b'))
    (h : r.runtime.Permits req path use b) : s.runtime.Permits req path use b' := by
  obtain ⟨hrp, hrt, hrslot, hrmethod, hruse, _, _⟩ := (r.identity_eq_ok_iff b₀ i).mp hr
  obtain ⟨hsp, hst, hsslot, hsmethod, hsuse, _, _⟩ := (s.identity_eq_ok_iff b₀ i).mp hs
  have huse : runtimeUse s.use = runtimeUse r.use :=
    (runtimeUse_eq_iff _ _).mpr (hsuse.symm.trans hruse)
  refine ⟨?_, ?_, huse.trans h.use, ?_, ?_, ?_, h.body.1, h.body.2.trans hbody⟩
  · exact (hsslot.symm.trans hrslot).trans h.slot
  · exact (hsmethod.symm.trans hrmethod).trans h.method
  · obtain ⟨pattern, hc, hm⟩ := h.path
    have heq : pattern = i.path := Except.ok.inj (hc.symm.trans hrp)
    exact ⟨i.path, hsp, heq ▸ hm⟩
  · intro l hl key hkey
    obtain ⟨k, hk, hsub⟩ := hkeys l hl
    exact hsub key (h.query k hk key hkey)
  · exact contentType_of_normaliseContentType hrt hst h.contentType

/-- Two key lists that the tuple writes alike although they differ. -/
def KeysCollide (k l : Option (List Bytes)) : Prop :=
  ∃ k' l', k = some k' ∧ l = some l' ∧
    [0].intercalate (sortedKeys k') = [0].intercalate (sortedKeys l') ∧
    ∃ key, ¬ (key ∈ k' ↔ key ∈ l')

theorem keys_of_canonicalQueryKeys (h : canonicalQueryKeys k = canonicalQueryKeys l)
    (hcollide : ¬ KeysCollide k l) :
    ∀ l', l = some l' → ∃ k', k = some k' ∧ ∀ key ∈ k', key ∈ l' := by
  rintro l' rfl
  cases k with
  | none =>
    have hhead := congrArg List.head? h
    simp [canonicalQueryKeys, ascii] at hhead
  | some k' =>
    refine ⟨k', rfl, fun key hkey => ?_⟩
    by_contra hnot
    exact hcollide ⟨k', l', rfl, rfl, List.tail_eq_of_cons_eq h, key, by tauto⟩

theorem KeysCollide.symm (h : KeysCollide k l) : KeysCollide l k := by
  obtain ⟨k', l', hk, hl, heq, key, hkey⟩ := h
  exact ⟨l', k', hl, hk, heq.symm, key, fun hiff => hkey hiff.symm⟩

/-! ## A request that tells two routes apart -/

/-- A request made for a route: its own pattern as the path and its own media type,
with a query and a body length to choose. -/
def Route.probe (r : Route) (path : Bytes) (query : GoMap Bytes Bytes) (bodyLen : Int) :
    HTTPRequest where
  slot := r.slot
  method := r.method
  path := path
  query := query
  header := .ofList [(ascii "Content-Type", r.contentType)]
  bodyLen := bodyLen

@[simp] theorem Route.judgedLen_probe (r : Route) (path : Bytes) (query : GoMap Bytes Bytes)
    (bodyLen : Int) : (r.probe path query bodyLen).judgedLen = bodyLen := by
  simp only [HTTPRequest.judgedLen, Route.probe]
  split_ifs <;> simp_all

/-- A route with an identity permits its probe if it permits the query and the length. -/
theorem Route.permits_probe (hi : r.identity b₀ = .ok i) {query : GoMap Bytes Bytes} {bodyLen : Int}
    (hquery : ∀ k, r.queryKeys = some k → ∀ key ∈ query.keys, key ∈ k) (hpos : 0 ≤ bodyLen)
    (hle : bodyLen ≤ kib (ceilingKB r.maxBodyKB b)) :
    r.runtime.Permits (r.probe i.path query bodyLen) i.path (runtimeUse r.use) b := by
  obtain ⟨hc, ht, -⟩ := (r.identity_eq_ok_iff b₀ i).mp hi
  have hcanonical := canonical_of_canonicalise hc
  refine ⟨rfl, rfl, rfl, ⟨i.path, hc, ?_⟩, hquery, ?_, ?_⟩
  · exact (matchPath_iff hcanonical.rooted hcanonical.rooted).mpr (Generates.refl (by decide) _)
  · intro hne
    have hne : r.contentType ≠ [] := hne
    rw [normaliseContentType, if_neg hne] at ht
    exact ⟨i.contentType, ht, ht⟩
  · rw [judgedLen_probe]
    exact ⟨hpos, hle⟩

/-- The two routes agree on everything that the tuple holds, for some body ceiling, with
their key lists left aside. -/
structure SameButKeys (r s : Route) : Prop where
  slot : r.slot = s.slot
  method : r.method = s.method
  use : runtimeUse r.use = runtimeUse s.use
  path : ∃ c, canonicalise r.path = .ok c ∧ canonicalise s.path = .ok c
  contentType : ∃ t, normaliseContentType r.contentType = .ok t ∧
    normaliseContentType s.contentType = .ok t
  maxBodyKB : r.maxBodyKB = s.maxBodyKB ∨ r.maxBodyKB = 0 ∨ s.maxBodyKB = 0

theorem SameButKeys.exists_identity {r s : ManifestRoute} (h : SameButKeys r.route s.route)
    (hkeys : KeysCollide r.route.queryKeys s.route.queryKeys) :
    ∃ b i, 1 ≤ b ∧ b ≤ 1024 ∧ r.route.identity b = .ok i ∧ s.route.identity b = .ok i := by
  obtain ⟨c, hrc, hsc⟩ := h.path
  obtain ⟨t, hrt, hst⟩ := h.contentType
  have hrb := r.maxBodyKB_bounds
  have hsb := s.maxBodyKB_bounds
  obtain ⟨b, hb1, hb2, hbody⟩ : ∃ b : Int, 1 ≤ b ∧ b ≤ 1024 ∧
      effectiveMaxBodyKB r.route.maxBodyKB b = effectiveMaxBodyKB s.route.maxBodyKB b := by
    have hmax := h.maxBodyKB
    simp only [effectiveMaxBodyKB]
    by_cases hr0 : r.route.maxBodyKB = 0
    · refine ⟨if s.route.maxBodyKB = 0 then 64 else s.route.maxBodyKB, ?_, ?_, ?_⟩ <;>
        split_ifs <;> omega
    · exact ⟨r.route.maxBodyKB, by omega, by omega, by split_ifs <;> omega⟩
  have hk : canonicalQueryKeys r.route.queryKeys = canonicalQueryKeys s.route.queryKeys := by
    obtain ⟨k, l, hk, hl, heq, _⟩ := hkeys
    rw [hk, hl, canonicalQueryKeys, canonicalQueryKeys, heq]
  let i : Identity :=
    ⟨r.route.slot, r.route.method, c, if r.route.use = [] then ascii "data" else r.route.use,
      canonicalQueryKeys r.route.queryKeys, t, effectiveMaxBodyKB r.route.maxBodyKB b⟩
  refine ⟨b, i, hb1, hb2, ?_, ?_⟩
  · exact (r.route.identity_eq_ok_iff b i).mpr ⟨hrc, hrt, rfl, rfl, rfl, rfl, rfl⟩
  · exact (s.route.identity_eq_ok_iff b i).mpr
      ⟨hsc, hst, h.slot, h.method, (runtimeUse_eq_iff _ _).mp h.use, hk, hbody⟩

theorem sameButKeys_of_identity (hr : r.identity b = .ok i) (hs : s.identity b = .ok i)
    (hrb : 0 ≤ r.maxBodyKB) (hsb : 0 ≤ s.maxBodyKB) : SameButKeys r s := by
  obtain ⟨hrp, hrt, hrslot, hrmethod, hruse, _, hrbody⟩ := (r.identity_eq_ok_iff b i).mp hr
  obtain ⟨hsp, hst, hsslot, hsmethod, hsuse, _, hsbody⟩ := (s.identity_eq_ok_iff b i).mp hs
  refine ⟨hrslot.symm.trans hsslot, hrmethod.symm.trans hsmethod, ?_, ⟨_, hrp, hsp⟩,
    ⟨_, hrt, hst⟩, ?_⟩
  · exact (runtimeUse_eq_iff _ _).mpr (hruse.symm.trans hsuse)
  · rw [hrbody] at hsbody
    simp only [effectiveMaxBodyKB] at hsbody
    split_ifs at hsbody <;> omega

/-- A key that only the first of two routes lists tells them apart. -/
theorem anyRouteAllows_ne_of_key (hr : r.identity b = .ok i) (hb : 1 ≤ b ∧ b ≤ 1024)
    {k l : List Bytes} (hk : r.queryKeys = some k) (hl : s.queryKeys = some l) {key : Bytes}
    (hmem : key ∈ k) (hnot : key ∉ l) :
    anyRouteAllows [r.runtime] (r.probe i.path (.ofList [(key, [])]) 0) i.path (runtimeUse r.use)
        b ≠
      anyRouteAllows [s.runtime] (r.probe i.path (.ofList [(key, [])]) 0) i.path (runtimeUse r.use)
        b := by
  intro heq
  have hpos := ceilingKB_pos r.maxBodyKB b
  have hle := ceilingKB_le r.maxBodyKB b
  have hkib := kib_of_fits hpos (by omega)
  have hyes : r.runtime.Permits (r.probe i.path (.ofList [(key, [])]) 0) i.path (runtimeUse r.use)
      b := by
    refine Route.permits_probe hr ?_ (Int.le_refl 0) (by omega)
    intro k' hk' key' hkey'
    obtain rfl : k = k' := Option.some.inj (hk.symm.trans hk')
    obtain rfl : key' = key := by simpa using hkey'
    exact hmem
  rw [(anyRouteAllows_iff _ _ _ _ _).mpr ⟨_, List.mem_singleton_self _, hyes⟩, eq_comm,
    anyRouteAllows_iff] at heq
  obtain ⟨c, hc, hpermits⟩ := heq
  rw [List.mem_singleton] at hc
  subst hc
  exact hnot (hpermits.query l hl key (by simp [Route.probe]))

/-- **When an identity determines authority.**  For two routes that the manifest schema
admits, one identity under a body ceiling means one answer to every request under it,
unless only their keys tell the routes apart and the tuple's key string does not. -/
theorem identity_determines_authority_iff (r s : ManifestRoute) :
    (∀ b : Int, 1 ≤ b → ∀ i, r.route.identity b = .ok i → s.route.identity b = .ok i →
      ∀ req path use, canonicalise req.path = .ok path →
        anyRouteAllows [r.route.runtime] req path use b =
          anyRouteAllows [s.route.runtime] req path use b) ↔
    ¬ (SameButKeys r.route s.route ∧ KeysCollide r.route.queryKeys s.route.queryKeys) := by
  constructor
  · rintro h ⟨hsame, hcollide⟩
    obtain ⟨b, i, hb1, hb2, hr, hs⟩ := hsame.exists_identity hcollide
    obtain ⟨k, l, hk, hl, -, key, hkey⟩ := hcollide
    have hcanonical := canonical_of_canonicalise ((r.route.identity_eq_ok_iff b i).mp hr).1
    -- whichever list has the key, the other route refuses that route's probe
    by_cases hmem : key ∈ k
    · have hnot : key ∉ l := by tauto
      exact anyRouteAllows_ne_of_key hr ⟨hb1, hb2⟩ hk hl hmem hnot
        (h b hb1 i hr hs _ _ _ hcanonical)
    · have hmem' : key ∈ l := by tauto
      have hprobe := h b hb1 i hr hs (s.route.probe i.path (.ofList [(key, [])]) 0) i.path
        (runtimeUse s.route.use) hcanonical
      exact anyRouteAllows_ne_of_key hs ⟨hb1, hb2⟩ hl hk hmem' hmem hprobe.symm
  · intro h b hb i hr hs req path use _
    have hrb := r.maxBodyKB_bounds
    have hsb := s.maxBodyKB_bounds
    have hsame := sameButKeys_of_identity hr hs (by omega) (by omega)
    have hcollide : ¬ KeysCollide r.route.queryKeys s.route.queryKeys := fun hc => h ⟨hsame, hc⟩
    obtain ⟨-, -, -, -, -, hrk, hrbody⟩ := (r.route.identity_eq_ok_iff b i).mp hr
    obtain ⟨-, -, -, -, -, hsk, hsbody⟩ := (s.route.identity_eq_ok_iff b i).mp hs
    have hceiling : ceilingKB r.route.maxBodyKB b = ceilingKB s.route.maxBodyKB b := by
      rw [ceilingKB_eq_min _ (by omega), ceilingKB_eq_min _ (by omega), ← hrbody, ← hsbody]
    rw [Bool.eq_iff_iff, anyRouteAllows_iff, anyRouteAllows_iff]
    simp only [List.mem_singleton, exists_eq_left]
    constructor
    · exact permits_of_identity hr hs
        (keys_of_canonicalQueryKeys (hrk.symm.trans hsk) hcollide) (by rw [hceiling])
    · exact permits_of_identity hs hr
        (keys_of_canonicalQueryKeys (hsk.symm.trans hrk) (fun hc => hcollide hc.symm))
        (by rw [hceiling])

/-- `GET /items` with `queryKeys: []`. -/
def noKeysRoute : ManifestRoute where
  doc := .obj [(ascii "slot", .str (ascii "server")), (ascii "method", .str (ascii "GET")),
    (ascii "path", .str (ascii "/items")), (ascii "queryKeys", .arr [])]
  route := { slot := ascii "server", method := ascii "GET", path := ascii "/items",
             queryKeys := some [] }
  admitted := by decide +kernel
  decoded := by decide +kernel

/-- `GET /items` with `queryKeys: [""]`. -/
def emptyKeyRoute : ManifestRoute where
  doc := .obj [(ascii "slot", .str (ascii "server")), (ascii "method", .str (ascii "GET")),
    (ascii "path", .str (ascii "/items")), (ascii "queryKeys", .arr [.str []])]
  route := { slot := ascii "server", method := ascii "GET", path := ascii "/items",
             queryKeys := some [[]] }
  admitted := by decide +kernel
  decoded := by decide +kernel

/-- A request for `/items` whose one query key is empty. -/
def emptyKeyRequest : HTTPRequest where
  slot := ascii "server"
  method := ascii "GET"
  path := ascii "/items"
  query := .ofList [([], [])]

/-- The two have one identity, and only the second permits a request with an empty key. -/
theorem identity_noKeys_eq_emptyKey :
    (∃ i, noKeysRoute.route.identity 64 = .ok i ∧ emptyKeyRoute.route.identity 64 = .ok i) ∧
      canonicalise emptyKeyRequest.path = .ok (ascii "/items") ∧
      anyRouteAllows [noKeysRoute.route.runtime] emptyKeyRequest (ascii "/items") useData 64 =
        false ∧
      anyRouteAllows [emptyKeyRoute.route.runtime] emptyKeyRequest (ascii "/items") useData 64 =
        true := by
  refine ⟨⟨⟨ascii "server", ascii "GET", ascii "/items", ascii "data", [0], [], 64⟩, ?_, ?_⟩,
    ?_, ?_, ?_⟩ <;> decide +kernel

end Veduta.Integrations
