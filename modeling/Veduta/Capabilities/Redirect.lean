import Veduta.Capabilities.Broker

/-!
# Redirects are authorised like requests

A redirect's destination passes the connection's `allowedPaths` in `redirectPolicy`, on
the absolute path, and then the grant's `authorize`, on the path relative to the base URL,
which checks the same `allowedPaths` again.  A fresh request passes only the second.  For
a base URL with a path of its own the first check is one a fresh request never meets.
-/

namespace Veduta.Capabilities

open Go Lib Routepath Connections

/-- Two requests that agree on all a grant looks at, their paths apart. -/
structure Alike (a b : HTTPRequest) : Prop where
  slot : a.slot = b.slot
  method : a.method = b.method
  query : ∀ k, k ∈ a.query.keys ↔ k ∈ b.query.keys
  contentType : a.header.get [] (ascii "Content-Type") = b.header.get [] (ascii "Content-Type")
  body : a.judgedLen = b.judgedLen ∨ a.judgedLen < 0 ∧ b.judgedLen < 0

namespace Alike

variable {a b : HTTPRequest} {path : Bytes} {use : UseKind} {kb : Int}

theorem symm (h : Alike a b) : Alike b a where
  slot := h.slot.symm
  method := h.method.symm
  query k := (h.query k).symm
  contentType := h.contentType.symm
  body := h.body.imp Eq.symm And.symm

theorem permits {r : Route} (h : Alike a b) (hr : r.Permits a path use kb) :
    r.Permits b path use kb where
  slot := hr.slot.trans h.slot
  method := hr.method.trans h.method
  use := hr.use
  path := hr.path
  query keys hkeys k hk := hr.query keys hkeys k ((h.query k).mpr hk)
  contentType hct := h.contentType ▸ hr.contentType hct
  body := by
    have hbody := hr.body
    rcases h.body with heq | hneg
    · rwa [← heq]
    · omega

theorem anyRouteAllows (h : Alike a b) (routes : List Route) :
    anyRouteAllows routes a path use kb = true ↔ anyRouteAllows routes b path use kb = true := by
  rw [anyRouteAllows_iff, anyRouteAllows_iff]
  exact ⟨fun ⟨r, hr, hp⟩ => ⟨r, hr, h.permits hp⟩, fun ⟨r, hr, hp⟩ => ⟨r, hr, h.symm.permits hp⟩⟩

theorem authorize (h : Alike a b) (g : Grant) (hpath : canonicalise a.path = canonicalise b.path) :
    g.authorize a use = .ok () ↔ g.authorize b use = .ok () := by
  rw [g.authorize_iff, g.authorize_iff, hpath, h.slot]
  refine exists_congr fun path => and_congr_right fun _ => ?_
  rw [h.anyRouteAllows, h.anyRouteAllows]

end Alike

theorem any_inAllowedPath_iff {allowedPaths : List Bytes} {path : Bytes} (hpath : Canonical path) :
    allowedPaths.any (inAllowedPath path) = true ↔ InSubtrees allowedPaths path :=
  any_hasPathPrefix_iff hpath

section

variable {ε : Type} {base : URL} {maxRedirects : Int} {allowedPaths : List Bytes} {auth : Auth}
variable {statics : GoMap Bytes Bytes} {dest : Outgoing} {via : List Outgoing}

/-- What reaches the authorizer. -/
def redirectRequest (auth : Auth) (statics : GoMap Bytes Bytes) (dest : Outgoing)
    (relative : Bytes) : RedirectRequest where
  method := dest.method
  path := relative
  query := firstQueryValues (parseQuery dest.url.rawQuery) (ownedNames auth statics).query
  header := singleHeaderValues dest.header (ownedNames auth statics).header
  bodyLen := redirectBodyLen dest

/-- **What `redirectPolicy` accepts**, in terms of its parts. -/
theorem redirectPolicy_eq_ok_iff (authorize : RedirectRequest → Except ε Unit) :
    redirectPolicy base maxRedirects allowedPaths auth statics (some authorize) dest via = .ok () ↔
      (via.length : Int) ≤ maxRedirects ∧ dest.url.host = base.host ∧
        dest.url.scheme = base.scheme ∧
        ∃ c, canonicalise dest.url.path = .ok c ∧
          (allowedPaths = [] ∨ InSubtrees allowedPaths c) ∧
          ∃ relative, relativeRedirectPath base c = .ok relative ∧
            authorize (redirectRequest auth statics dest relative) = .ok () := by
  rw [redirectPolicy]
  by_cases hvia : (via.length : Int) ≤ maxRedirects
  swap
  · simp [hvia, not_le.mp hvia]
  by_cases hhost : dest.url.host = base.host
  swap
  · simp [hvia, hhost, not_lt.mpr hvia]
  by_cases hscheme : dest.url.scheme = base.scheme
  swap
  · simp [hvia, hhost, hscheme, not_lt.mpr hvia]
  rw [if_neg (not_lt.mpr hvia), if_neg (not_not.mpr hhost), if_neg (not_not.mpr hscheme)]
  cases hc : canonicalise dest.url.path with
  | error e => simp
  | ok c =>
    have hpolicy : (allowedPaths ≠ [] ∧ (!allowedPaths.any (inAllowedPath c)) = true) ↔
        ¬ (allowedPaths = [] ∨ InSubtrees allowedPaths c) := by
      rw [← any_inAllowedPath_iff (canonical_of_canonicalise hc), not_or, Bool.not_eq_true,
        Bool.not_eq_true']
    simp only [hvia, hhost, hscheme, true_and, Except.ok.injEq, exists_eq_left']
    by_cases hin : allowedPaths = [] ∨ InSubtrees allowedPaths c
    · rw [if_neg fun h => hpolicy.mp h hin]
      simp only [hin, true_and]
      cases hrel : relativeRedirectPath base c with
      | error e => simp
      | ok relative =>
        simp only [Except.ok.injEq, exists_eq_left', redirectRequest]
        split
        · rename_i e he
          simp [he]
        · rename_i he
          simp [he]
    · rw [if_pos (hpolicy.mpr hin)]
      simp [hin]

end

/-! ## Agreement -/

/-- A redirect destination under the base URL, with nothing the connection owns, and the
fresh request for the same thing.  Under the base means that the base's path was joined
with a rooted one. -/
structure Destination (base : URL) (slot : Bytes) (owned : OwnedNameSet) (dest : Outgoing)
    (fresh : HTTPRequest) : Prop where
  host : dest.url.host = base.host
  scheme : dest.url.scheme = base.scheme
  path : dest.url.path = joinCanonical (orRoot base.path) fresh.path
  rooted : [slash] <+: fresh.path
  noEscape : NoEscape dest.url.path
  query_unowned : ∀ k ∈ (parseQuery dest.url.rawQuery).keys, k ∉ owned.query
  header_unowned : ∀ k ∈ dest.header.keys, toLower k ∉ owned.header
  slot : fresh.slot = slot
  method : fresh.method = dest.method
  query : ∀ k, k ∈ fresh.query.keys ↔ k ∈ (parseQuery dest.url.rawQuery).keys
  header : ∀ k, fresh.header.lookup k = (dest.header.lookup k).bind List.head?
  body : fresh.judgedLen = dest.contentLength

/-- The paths of which a policy admits the subtrees. -/
def admittedPaths : Option ConnectionPolicy → List Bytes
  | some p => if p.allowedPaths = [] then [[slash]] else p.allowedPaths
  | none => [[slash]]

/-- Each path that a policy names without an escape, or the root if it names none, lies under an
allowed path once the base path is put in front of it. -/
def AllowedUnder (base : URL) (allowedPaths : List Bytes) (policy : Option ConnectionPolicy) :
    Prop :=
  ∀ path ∈ admittedPaths policy, ∀ c, canonicalise path = .ok c → percent ∉ c →
    InSubtrees allowedPaths (joinCanonical (orRoot base.path) c)

section

variable {base : URL} {slot : Bytes} {auth : Auth} {statics : GoMap Bytes Bytes}
variable {dest : Outgoing} {fresh : HTTPRequest}

theorem mem_keys_firstQueryValues {owned : List Bytes} {query : Bytes}
    (h : ∀ k ∈ (parseQuery query).keys, k ∉ owned) (k : Bytes) :
    k ∈ (firstQueryValues (parseQuery query) owned).keys ↔ k ∈ (parseQuery query).keys := by
  rw [GoMap.mem_keys_iff, GoMap.mem_keys_iff, firstQueryValues, GoMap.lookup_filterMap]
  cases hv : (parseQuery query).lookup k with
  | none => simp
  | some v =>
    have hk : k ∈ (parseQuery query).keys := by simp [GoMap.mem_keys_iff, hv]
    simpa [h k hk] using lookup_parseQuery_ne_nil hv

theorem lookup_singleHeaderValues {owned : List Bytes} {header : Header}
    (h : ∀ k ∈ header.keys, toLower k ∉ owned) (k : Bytes) :
    (singleHeaderValues header owned).lookup k = (header.lookup k).bind List.head? := by
  rw [singleHeaderValues, GoMap.lookup_filterMap]
  cases hv : header.lookup k with
  | none => rfl
  | some v =>
    have hk : k ∈ header.keys := by simp [GoMap.mem_keys_iff, hv]
    simp [h k hk]

theorem Destination.alike (h : Destination base slot (ownedNames auth statics) dest fresh)
    (relative : Bytes) :
    let r := redirectRequest auth statics dest relative
    Alike { slot := slot, method := r.method, path := r.path, query := r.query,
            header := r.header, bodyLen := r.bodyLen } fresh where
  slot := h.slot.symm
  method := h.method.symm
  query k := (mem_keys_firstQueryValues h.query_unowned k).trans (h.query k).symm
  contentType := by
    rw [GoMap.get, GoMap.get, h.header]
    exact congrArg (Option.getD · []) (lookup_singleHeaderValues h.header_unowned _)
  body := by
    rw [h.body]
    simp only [HTTPRequest.judgedLen, redirectRequest, redirectBodyLen]
    split_ifs <;> simp_all

/-- **A redirect passes both checks**: the absolute path's, and the fresh request's. -/
theorem Destination.redirectPolicy_iff {maxRedirects : Int} {allowedPaths : List Bytes}
    {via : List Outgoing} (h : Destination base slot (ownedNames auth statics) dest fresh)
    (hbase : base.path = [] ∨ Canonical base.path) (hvia : (via.length : Int) ≤ maxRedirects)
    (g : Grant) :
    redirectPolicy base maxRedirects allowedPaths auth statics (some (g.redirectAuthorizer slot))
        dest via = .ok () ↔
      g.authorize fresh useData = .ok () ∧
        (allowedPaths = [] ∨ ∀ r, canonicalise fresh.path = .ok r →
          InSubtrees allowedPaths (joinCanonical (orRoot base.path) r)) := by
  have hroot := canonical_orRoot hbase
  rw [redirectPolicy_eq_ok_iff]
  simp only [hvia, h.host, h.scheme, true_and, h.path, canonicalise_joinCanonical hroot h.rooted]
  cases hr : canonicalise fresh.path with
  | error e =>
    have hden : g.authorize fresh useData ≠ .ok () := by
      rw [Ne, g.authorize_iff]
      rintro ⟨path, hpath, -⟩
      rw [hr] at hpath
      cases hpath
    simp [hden]
  | ok r =>
    have hcr := canonical_of_canonicalise hr
    have hrel := relativeRedirectPath_joinCanonical hbase hcr
    have hauth : g.redirectAuthorizer slot (redirectRequest auth statics dest r) = .ok () ↔
        g.authorize fresh useData = .ok () :=
      (h.alike r).authorize g (hcr.trans hr.symm)
    simp only [Except.ok.injEq, exists_eq_left', existsAndEq, true_and, hrel, forall_eq']
    rw [and_comm, hauth]

theorem percent_mem_iff {x : Bytes} (h : x = [] ∨ Canonical x) :
    percent ∈ x ↔ ∃ s ∈ segments x, percent ∈ s := by
  rcases h with rfl | h
  · simp [segments]
  · rw [← mem_pathOf_iff (by decide), h.pathOf_segments]

theorem inSubtrees_admittedPaths_iff {policy : Option ConnectionPolicy} {c : Bytes}
    (hc : Canonical c) :
    InSubtrees (admittedPaths policy) c ↔ ∀ p, policy = some p → connectionAllows p c = true := by
  have hroot : InSubtrees [[slash]] c :=
    ⟨[slash], List.mem_singleton_self _, [slash], canonical_slash, List.nil_prefix⟩
  cases policy with
  | none => exact iff_of_true hroot (by simp)
  | some p =>
    simp only [admittedPaths, Option.some.injEq, forall_eq', connectionAllows_iff p hc]
    by_cases hnil : p.allowedPaths = []
    · rw [if_pos hnil]
      exact iff_of_true hroot (Or.inl hnil)
    · rw [if_neg hnil, or_iff_right hnil]

/-- It is enough to look at the paths that the policy names. -/
theorem allowedUnder_iff {allowedPaths : List Bytes} {policy : Option ConnectionPolicy}
    (hbase : base.path = [] ∨ Canonical base.path) :
    AllowedUnder base allowedPaths policy ↔
      ∀ c, Canonical c → percent ∉ c → (∀ p, policy = some p → connectionAllows p c = true) →
        InSubtrees allowedPaths (joinCanonical (orRoot base.path) c) := by
  have hroot := canonical_orRoot hbase
  constructor
  · intro h c hc hpc hadmits
    obtain ⟨path, hpath, start, hstart, hprefix⟩ := (inSubtrees_admittedPaths_iff hc).mpr hadmits
    have hcs := canonical_of_canonicalise hstart
    have hps : percent ∉ start := by
      intro hmem
      obtain ⟨s, hs, hmem⟩ := (percent_mem_iff (Or.inr hcs)).mp hmem
      exact hpc ((percent_mem_iff (Or.inr hc)).mpr ⟨s, hprefix.subset hs, hmem⟩)
    obtain ⟨allowed, hallowed, top, htop, hunder⟩ := h path hpath start hstart hps
    refine ⟨allowed, hallowed, top, htop, hunder.trans ?_⟩
    rw [(canonical_joinCanonical hroot hcs).2, (canonical_joinCanonical hroot hc).2,
      List.prefix_append_right_inj]
    exact hprefix
  · intro h path hpath c hc hpc
    have hcc := canonical_of_canonicalise hc
    refine h c hcc hpc ((inSubtrees_admittedPaths_iff hcc).mp ?_)
    exact ⟨path, hpath, c, hc, List.prefix_refl _⟩

/-- Such a destination, once it is acceptable, holds no `%`. -/
theorem Destination.percent_notMem (h : Destination base slot (ownedNames auth statics) dest fresh)
    (hbase : base.path = [] ∨ Canonical base.path) {r : Bytes}
    (hr : canonicalise fresh.path = .ok r) :
    ∀ s ∈ segments base.path ++ segments r, percent ∉ s := by
  have hroot := canonical_orRoot hbase
  have hcanonical : canonicalise dest.url.path = .ok (joinCanonical (orRoot base.path) r) := by
    rw [h.path, canonicalise_joinCanonical hroot h.rooted]
    exact ⟨r, hr, rfl⟩
  obtain ⟨hself, hnot⟩ := canonicalise_of_noEscape hcanonical h.noEscape
  obtain ⟨hjoin, hsegments⟩ := canonical_joinCanonical hroot (canonical_of_canonicalise hr)
  rw [← hself, percent_mem_iff (Or.inr hjoin), hsegments, segments_orRoot] at hnot
  exact fun s hs hmem => hnot ⟨s, hs, hmem⟩

end

/-! ### The destination that tells the two apart -/

/-- A grant for one path, on one slot. -/
def pathGrant (slot path : Bytes) (policy : Option ConnectionPolicy) : Grant :=
  { demoGrant slot [{ slot := slot, method := ascii "GET", path := path, use := useData }] with
    connectionPolicy := (policy.map fun p => GoMap.ofList [(slot, p)]).getD ∅ }

def pathRequest (slot path : Bytes) : HTTPRequest :=
  { slot := slot, method := ascii "GET", path := path }

def pathDestination (base : URL) (path : Bytes) : Outgoing where
  method := ascii "GET"
  url := { base with path := joinCanonical (orRoot base.path) path, rawQuery := [] }
  header := ∅
  contentLength := 0

theorem pathGrant_policy (slot path : Bytes) (policy : Option ConnectionPolicy) :
    (pathGrant slot path policy).connectionPolicy.lookup slot = policy := by
  cases policy with
  | none => rfl
  | some p => exact GoMap.lookup_ofList_singleton_eq_some.mpr ⟨rfl, rfl⟩

theorem pathGrant_authorize {slot c : Bytes} {policy : Option ConnectionPolicy} (hc : Canonical c)
    (hadmits : ∀ p, policy = some p → connectionAllows p c = true) :
    (pathGrant slot c policy).authorize (pathRequest slot c) useData = .ok () := by
  have hpermits : anyRouteAllows (pathGrant slot c policy).manifestRoutes
      (pathRequest slot c) c useData 64 = true := by
    refine (anyRouteAllows_iff _ _ _ _ _).mpr ⟨_, List.mem_singleton_self _, ?_⟩
    have hbody : (0 : Int) ≤ 0 ∧ (0 : Int) ≤ kib (ceilingKB 0 64) := by decide
    refine ⟨rfl, rfl, rfl, ⟨c, hc, ?_⟩, by simp, by simp, hbody⟩
    exact (matchPath_iff hc.rooted hc.rooted).mpr (Generates.refl (by decide) c)
  refine (Grant.authorize_iff _ _ _).mpr ⟨c, hc, hpermits, hpermits, fun p hp => ?_⟩
  exact hadmits p ((pathGrant_policy slot c policy).symm.trans hp)

theorem destination_pathRequest {base : URL} {slot c : Bytes} {owned : OwnedNameSet}
    (hbase : base.path = [] ∨ Canonical base.path) (hc : Canonical c)
    (hpb : percent ∉ base.path) (hpc : percent ∉ c) :
    Destination base slot owned (pathDestination base c) (pathRequest slot c) where
  host := rfl
  scheme := rfl
  path := rfl
  rooted := hc.rooted
  noEscape := by
    refine noEscape_of_notMem fun hmem => ?_
    obtain ⟨hjoin, hsegments⟩ := canonical_joinCanonical (canonical_orRoot hbase) hc
    obtain ⟨s, hs, hmem⟩ := (percent_mem_iff (Or.inr hjoin)).mp hmem
    rw [hsegments, segments_orRoot, List.mem_append] at hs
    rcases hs with hs | hs
    · exact hpb ((percent_mem_iff hbase).mpr ⟨s, hs, hmem⟩)
    · exact hpc ((percent_mem_iff (Or.inr hc)).mpr ⟨s, hs, hmem⟩)
  query_unowned := by simp [pathDestination, parseQuery_nil]
  header_unowned := by simp [pathDestination]
  slot := rfl
  method := rfl
  query := by simp [pathDestination, pathRequest, parseQuery_nil]
  header := by simp [pathDestination, pathRequest]
  body := rfl

/-- **On which connections a redirect is authorised like a request.**  For a connection
with the base URL and the `allowedPaths` given, a count of redirects within its bound, and
the grants with a given policy for the slot: `redirectPolicy` accepts the destinations that
are accepted as fresh requests, exactly when no destination without an escape lies under
the base path, or there is no list of allowed paths, or each path that the policy names lies
under an allowed path once the base path is put in front of it. -/
theorem redirect_agrees_iff (base : URL) (slot : Bytes) (maxRedirects : Int)
    (allowedPaths : List Bytes) (auth : Auth) (statics : GoMap Bytes Bytes) (via : List Outgoing)
    (policy : Option ConnectionPolicy) (hbase : base.path = [] ∨ Canonical base.path)
    (hvia : (via.length : Int) ≤ maxRedirects) :
    (∀ (g : Grant) (dest : Outgoing) (fresh : HTTPRequest),
        g.connectionPolicy.lookup slot = policy →
        Destination base slot (ownedNames auth statics) dest fresh →
        (redirectPolicy base maxRedirects allowedPaths auth statics
            (some (g.redirectAuthorizer slot)) dest via = .ok () ↔
          g.authorize fresh useData = .ok ())) ↔
      percent ∈ base.path ∨ allowedPaths = [] ∨ AllowedUnder base allowedPaths policy := by
  rw [allowedUnder_iff hbase]
  constructor
  · intro h
    by_cases hpb : percent ∈ base.path
    · exact Or.inl hpb
    by_cases hnil : allowedPaths = []
    · exact Or.inr (Or.inl hnil)
    refine Or.inr (Or.inr fun c hc hpc hadmits => ?_)
    have hdest : Destination base slot (ownedNames auth statics) (pathDestination base c)
      (pathRequest slot c) := destination_pathRequest hbase hc hpb hpc
    have hredirect :=
      (h _ _ _ (pathGrant_policy slot c policy) hdest).mpr (pathGrant_authorize hc hadmits)
    rw [hdest.redirectPolicy_iff hbase hvia, or_iff_right hnil] at hredirect
    exact hredirect.2 c hc
  · intro hcond g dest fresh hpolicy hdest
    rw [hdest.redirectPolicy_iff hbase hvia, and_iff_left_iff_imp]
    intro hauth
    obtain ⟨r, hr, -, -, hallows⟩ := (g.authorize_iff _ _).mp hauth
    have hcr := canonical_of_canonicalise hr
    have hfree := hdest.percent_notMem hbase hr
    rcases hcond with hpb | hnil | hadmits
    · obtain ⟨s, hs, hmem⟩ := (percent_mem_iff hbase).mp hpb
      exact absurd hmem (hfree s (List.mem_append_left _ hs))
    · exact Or.inl hnil
    · refine Or.inr fun r' hr' => ?_
      obtain rfl : r = r' := Except.ok.inj (hr.symm.trans hr')
      have hpr : percent ∉ r := by
        intro hmem
        obtain ⟨s, hs, hmem⟩ := (percent_mem_iff (Or.inr hcr)).mp hmem
        exact hfree s (List.mem_append_right _ hs) hmem
      refine hadmits r hcr hpr fun p hp => hallows p ?_
      rw [hdest.slot, hpolicy, hp]

/-! ### A base path and an allowed path -/

def itemsPolicy : ConnectionPolicy := ⟨[ascii "/items"]⟩

/-- Under the base `/api` with `/items` allowed, `/items/1` may be requested and not be
redirected to. -/
theorem redirect_refused_items :
    (pathGrant (ascii "api") (ascii "/items/1") (some itemsPolicy)).connectionPolicy.lookup
        (ascii "api") = some ⟨[ascii "/items"]⟩ ∧
      Destination apiBase (ascii "api") (ownedNames {} ∅)
        (pathDestination apiBase (ascii "/items/1"))
        (pathRequest (ascii "api") (ascii "/items/1")) ∧
      (pathGrant (ascii "api") (ascii "/items/1") (some itemsPolicy)).authorize
        (pathRequest (ascii "api") (ascii "/items/1")) useData = .ok () ∧
      redirectPolicy apiBase 1 [ascii "/items"] {} ∅
        (some ((pathGrant (ascii "api") (ascii "/items/1") (some itemsPolicy)).redirectAuthorizer
          (ascii "api")))
        (pathDestination apiBase (ascii "/items/1")) [pathDestination apiBase (ascii "/")] =
          .error (.allowedPaths (ascii "/api/items/1")) := by
  refine ⟨by decide +kernel, ?_, by decide +kernel, by decide +kernel⟩
  exact destination_pathRequest (Or.inr (by decide +kernel)) (by decide +kernel)
    (by decide +kernel) (by decide +kernel)

/-- Under the same base with `/api` allowed as well, it may be both. -/
theorem redirect_agrees_iff_api :
    redirectPolicy apiBase 1 [ascii "/items", ascii "/api"] {} ∅
        (some ((pathGrant (ascii "api") (ascii "/items/1") (some itemsPolicy)).redirectAuthorizer
          (ascii "api")))
        (pathDestination apiBase (ascii "/items/1")) [pathDestination apiBase (ascii "/")] =
      .ok () := by
  have hbase : apiBase.path = [] ∨ Canonical apiBase.path := Or.inr (by decide +kernel)
  have hadmits : AllowedUnder apiBase [ascii "/items", ascii "/api"] (some itemsPolicy) := by
    intro path _ c hc _
    refine ⟨ascii "/api", by decide, ascii "/api", by decide +kernel, ?_⟩
    rw [(canonical_joinCanonical (canonical_orRoot hbase) (canonical_of_canonicalise hc)).2]
    exact List.prefix_append _ _
  have hagrees := (redirect_agrees_iff apiBase (ascii "api") 1 [ascii "/items", ascii "/api"] {} ∅
    [pathDestination apiBase (ascii "/")] (some itemsPolicy) hbase (by decide)).mpr
    (Or.inr (Or.inr hadmits))
  refine (hagrees _ _ (pathRequest (ascii "api") (ascii "/items/1")) (by decide +kernel) ?_).mpr
    (by decide +kernel)
  exact destination_pathRequest hbase (by decide +kernel) (by decide +kernel) (by decide +kernel)

end Veduta.Capabilities
