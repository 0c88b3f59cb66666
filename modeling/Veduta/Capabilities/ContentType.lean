import Veduta.Capabilities.Broker

/-!
# The content type that is checked and the content type that is sent

A route's content type is compared with the header under the exact name `Content-Type`.
The filter keeps a header under any spelling of that name, and the client sets them all
under one, in the order the map is ranged over: the last one is sent.
-/

namespace Veduta.Capabilities

open Go Lib Routepath Connections

/-- Two values with one normal form. -/
def SameMediaType (v w : Bytes) : Prop :=
  ∃ t, normaliseMediaType v = .ok t ∧ normaliseMediaType w = .ok t

/-- A route of a grant, asked for or approved, that permits a request. -/
def Grant.Permitting (g : Grant) (req : HTTPRequest) (r : Route) : Prop :=
  r ∈ g.manifestRoutes ++ g.approvedRoutes ∧
    ∃ c, canonicalise req.path = .ok c ∧ r.Permits req c useData g.limits.requestBodyKB

def Forwarded.owned (fwd : Forwarded) : ConnectionOwnership :=
  newConnectionOwnership fwd.cfg.auth.type fwd.cfg.auth.name fwd.cfg.headers.keys

section

variable (parseAuthority : AuthorityParser) (reparse : URL → Except URLError URL)

/-- A request that the registry may send for a forwarded call: the maps are ranged over in
some order. -/
def Sends (registry : Registry) (fwd : Forwarded) (out : Outgoing) : Prop :=
  ∃ headers statics limit, fwd.request.headers.Order headers ∧ fwd.cfg.headers.Order statics ∧
    registry.doRequest parseAuthority reparse fwd.connID fwd.request headers statics =
      .ok (out, limit)

end

theorem normaliseMediaType_nil : normaliseMediaType [] = .error (.parse .noMediaType) := by
  decide +kernel

theorem canonicalMIMEHeaderKey_eq_contentType_iff (name : Bytes) :
    canonicalMIMEHeaderKey name = ascii "Content-Type" ↔ toLower name = ascii "content-type" := by
  have hkey : canonicalMIMEHeaderKey (ascii "content-type") = ascii "Content-Type" := by
    decide +kernel
  rw [← hkey]
  exact canonicalMIMEHeaderKey_eq_iff (by decide +kernel) (by decide +kernel) (by decide)
    (by decide) name

/-- A credential goes into a header of its own. -/
theorem lookup_injectAuth {auth : Auth} {statics : List Bytes}
    (howned : ascii "content-type" ∉ (newConnectionOwnership auth.type auth.name statics).headers)
    (header : Header) (query : Values) :
    (injectAuth header query auth).1.lookup (ascii "Content-Type") =
      header.lookup (ascii "Content-Type") := by
  have hauthorization : ascii "Content-Type" ≠ canonicalMIMEHeaderKey (ascii "Authorization") := by
    decide +kernel
  cases htype : auth.type with
  | header =>
    simp only [injectAuth, htype]
    refine Header.lookup_set_of_ne _ _ fun hkey => ?_
    have hlower := (canonicalMIMEHeaderKey_eq_contentType_iff _).mp hkey.symm
    have hne : auth.name ≠ [] := by
      intro hnil
      rw [hnil] at hlower
      exact absurd hlower (by decide)
    simp [newConnectionOwnership, htype, hne, hlower] at howned
  | query | none => simp [injectAuth, htype]
  | bearer | basic =>
    simp only [injectAuth, htype]
    exact Header.lookup_set_of_ne _ _ hauthorization

/-- A static header that the connection does not own as a content type is not one. -/
theorem lookup_setAll_statics {cfg : HTTPConfig} {statics : List (Σ _ : Bytes, Bytes)}
    (horder : cfg.headers.Order statics)
    (howned : ascii "content-type" ∉
      (newConnectionOwnership cfg.auth.type cfg.auth.name cfg.headers.keys).headers)
    (header : Header) :
    (header.setAll statics).lookup (ascii "Content-Type") =
      header.lookup (ascii "Content-Type") := by
  refine Header.lookup_setAll_of_forall_ne _ fun x hx hkey => ?_
  have hlower := (canonicalMIMEHeaderKey_eq_contentType_iff _).mp hkey.symm
  have hmem : x.1 ∈ cfg.headers.keys := List.mem_map_of_mem (horder.mem_iff.mp hx)
  apply howned
  rw [← hlower]
  exact toLower_mem_newConnectionOwnership hmem _ _

variable {header : GoMap Bytes Bytes}

theorem mem_filterHeaders_iff {owned : ConnectionOwnership} {x : Σ _ : Bytes, Bytes}
    (howned : ascii "content-type" ∉ owned.headers) (hlower : toLower x.1 = ascii "content-type") :
    x ∈ (filterHeaders header owned).entries ↔ header.lookup x.1 = some x.2 := by
  have hcase : alwaysStrippedHeaders.contains (canonicalHeaderCase (ascii "content-type")) = false ∧
      pluginHeaderAllowlist.contains (canonicalHeaderCase (ascii "content-type")) = true := by
    decide +kernel
  rw [filterHeaders, GoMap.mem_entries_filter, hlower, hcase.1, hcase.2, GoMap.lookup_eq_some_iff]
  simp [howned]

/-! ## What is sent -/

section

variable {parseAuthority : AuthorityParser} {reparse : URL → Except URLError URL}
  {registry : Registry} {fwd : Forwarded}
variable {out : Outgoing} {headers statics : List (Σ _ : Bytes, Bytes)}

theorem newRequest_header {method body : Bytes} {target : URL}
    (h : newRequest reparse method target body = .ok out) : out.header = ∅ := by
  rw [newRequest] at h
  split_ifs at h
  all_goals
    split at h <;> cases h
    rfl

theorem injectAuth_snd (header header' : Header) (query : Values) (auth : Auth) :
    (injectAuth header query auth).2 = (injectAuth header' query auth).2 := by
  unfold injectAuth
  cases auth.type <;> rfl

/-- The orders in which the maps are ranged over decide the headers and nothing else. -/
theorem build_reorder {c : Client} {req : Request}
    (h : c.build parseAuthority reparse req headers statics = .ok out)
    (headers' statics' : List (Σ _ : Bytes, Bytes)) :
    ∃ query : Values, c.build parseAuthority reparse req headers' statics' = .ok { out with
      header :=
        (injectAuth ((Header.setAll ∅ headers').setAll statics') query c.cfg.auth).1 } := by
  rw [Client.build] at h ⊢
  split at h
  · cases h
  rename_i target htarget
  simp only at h ⊢
  generalize req.query.entries.foldl (fun q x => q.set x.1 x.2) (parseQuery target.rawQuery) =
    query at h ⊢
  split at h
  · cases h
  rename_i httpReq hnew
  have hempty : httpReq.header = ∅ := newRequest_header hnew
  refine ⟨query, ?_⟩
  cases h
  simp only [hempty, injectAuth_snd ((Header.setAll ∅ headers').setAll statics')
    ((Header.setAll ∅ headers).setAll statics)]

theorem sends_iff (hcfg : (registry.connections.lookup fwd.connID).bind Connection.http =
      some fwd.cfg) (out : Outgoing) :
    Sends parseAuthority reparse registry fwd out ↔
      ∃ c headers statics, registry.clients.lookup fwd.connID = some c ∧ c.cfg = fwd.cfg ∧
        fwd.request.headers.Order headers ∧ fwd.cfg.headers.Order statics ∧
        c.build parseAuthority reparse fwd.request headers statics = .ok out := by
  constructor
  · intro h
    obtain ⟨headers, statics, limit, hheaders, hstatics, hdo⟩ := h
    rw [Registry.doRequest] at hdo
    split at hdo
    · split_ifs at hdo
    rename_i c hclient
    obtain ⟨conn, hconn, hhttp⟩ := registry.cfg_of_client _ _ hclient
    rw [hconn, Option.bind_some, hhttp] at hcfg
    split at hdo
    · cases hdo
    rename_i out' hbuild
    cases hdo
    exact ⟨c, headers, statics, hclient, Option.some.inj hcfg, hheaders, hstatics, hbuild⟩
  · intro h
    obtain ⟨c, headers, statics, hclient, -, hheaders, hstatics, hbuild⟩ := h
    refine ⟨headers, statics, responseLimit c.cfg fwd.request, hheaders, hstatics, ?_⟩
    rw [Registry.doRequest, hclient]
    simp only [hbuild]

/-- The content type that a client sends is the one the plugin's headers leave. -/
theorem build_contentType {c : Client} (hcfg : c.cfg = fwd.cfg)
    (howned : ascii "content-type" ∉ fwd.owned.headers) (hstatics : fwd.cfg.headers.Order statics)
    (hbuild : c.build parseAuthority reparse fwd.request headers statics = .ok out) :
    out.header.lookup (ascii "Content-Type") =
      (Header.setAll ∅ headers).lookup (ascii "Content-Type") := by
  obtain ⟨query, hbuild'⟩ := build_reorder hbuild headers statics
  have hheader := congrArg Outgoing.header (Except.ok.inj (hbuild.symm.trans hbuild'))
  rw [hheader, hcfg]
  exact (lookup_injectAuth howned _ _).trans (lookup_setAll_statics hstatics howned _)

/-- **What is sent is one of the spellings**, if there is one at all. -/
theorem lookup_contentType_of_sends
    (hcfg : (registry.connections.lookup fwd.connID).bind Connection.http = some fwd.cfg)
    (howned : ascii "content-type" ∉ fwd.owned.headers)
    (hexists : ∃ x ∈ fwd.request.headers.entries, toLower x.1 = ascii "content-type")
    (hsends : Sends parseAuthority reparse registry fwd out) :
    ∃ x ∈ fwd.request.headers.entries, toLower x.1 = ascii "content-type" ∧
      out.header.lookup (ascii "Content-Type") = some [x.2] := by
  obtain ⟨c, headers, statics, -, hc, horder, hstatics, hbuild⟩ := (sends_iff hcfg out).mp hsends
  have hkey : ∃ x ∈ headers, canonicalMIMEHeaderKey x.1 = ascii "Content-Type" := by
    obtain ⟨x, hx, hlower⟩ := hexists
    exact ⟨x, horder.mem_iff.mpr hx, (canonicalMIMEHeaderKey_eq_contentType_iff _).mpr hlower⟩
  obtain ⟨x, hx, hname, hvalue⟩ := Header.exists_lookup_setAll ∅ hkey
  refine ⟨x, horder.mem_iff.mp hx, (canonicalMIMEHeaderKey_eq_contentType_iff _).mp hname, ?_⟩
  rw [build_contentType hc howned hstatics hbuild, hvalue]

/-- **Each spelling is sent under some order**: the one that visits it last. -/
theorem exists_sends_of_spelling {out₀ : Outgoing} {x : Σ _ : Bytes, Bytes}
    (hcfg : (registry.connections.lookup fwd.connID).bind Connection.http = some fwd.cfg)
    (howned : ascii "content-type" ∉ fwd.owned.headers)
    (hx : x ∈ fwd.request.headers.entries) (hlower : toLower x.1 = ascii "content-type")
    (hsends : Sends parseAuthority reparse registry fwd out₀) :
    ∃ out, Sends parseAuthority reparse registry fwd out ∧
      out.header.lookup (ascii "Content-Type") = some [x.2] := by
  obtain ⟨c, headers, statics, hclient, hc, -, hstatics, hbuild⟩ := (sends_iff hcfg out₀).mp hsends
  obtain ⟨before, after, hentries⟩ := List.append_of_mem hx
  have horder : fwd.request.headers.Order (before ++ after ++ [x]) := by
    rw [GoMap.Order, hentries, List.append_assoc]
    exact List.Perm.append_left before List.perm_append_comm
  obtain ⟨query, hbuild'⟩ := build_reorder hbuild (before ++ after ++ [x]) statics
  refine ⟨_, (sends_iff hcfg _).mpr ⟨c, _, statics, hclient, hc, horder, hstatics, hbuild'⟩, ?_⟩
  rw [build_contentType hc howned hstatics hbuild']
  exact Header.lookup_setAll_append_cons ∅
    ((canonicalMIMEHeaderKey_eq_contentType_iff _).mpr hlower) (by simp)

end

/-- **When the content type that is sent is the one that was checked.**  Let a grant's
routes that permit a request all declare a content type, and let the broker forward the
request over a connection that owns no such header.  Under every order of the header maps
the one that is sent agrees with each of those routes, exactly when every spelling of the
header in the request has a value with the normal form of the exact one's. -/
theorem contentType_checked_eq_sent_iff
    (parseAuthority : AuthorityParser) (reparse : URL → Except URLError URL)
    (registry : Registry) (g : Grant) (b : Budget)
    (req : HTTPRequest) (fwd : Forwarded)
    (hdeclared : ∀ r, g.Permitting req r → r.contentType ≠ [])
    (hforwarded : (brokerHTTP registry g b req).1 = .ok fwd)
    (howned : ascii "content-type" ∉ fwd.owned.headers)
    (hsent : ∃ out, Sends parseAuthority reparse registry fwd out) :
    (∀ out, Sends parseAuthority reparse registry fwd out →
        ∃ v, out.header.lookup (ascii "Content-Type") = some [v] ∧
          ∀ r, g.Permitting req r → SameMediaType v r.contentType) ↔
      ∀ name value, req.header.lookup name = some value → toLower name = ascii "content-type" →
        SameMediaType value (req.header.get [] (ascii "Content-Type")) := by
  obtain ⟨hauth, -, hcfg, hheaders⟩ := brokerHTTP_eq_ok hforwarded
  obtain ⟨c, hc, hmanifest, -⟩ := (g.authorize_iff _ _).mp hauth
  obtain ⟨r₀, hr₀, hpermits₀⟩ := (anyRouteAllows_iff _ _ _ _ _).mp hmanifest
  have hpermitting₀ : g.Permitting req r₀ := ⟨List.mem_append_left _ hr₀, c, hc, hpermits₀⟩
  obtain ⟨t, hgot, -⟩ := hpermits₀.contentType (hdeclared r₀ hpermitting₀)
  -- every permitting route was compared with the one exact header
  have hroutes : ∀ r, g.Permitting req r → normaliseMediaType r.contentType = .ok t := by
    intro r hr
    have hne := hdeclared r hr
    obtain ⟨-, c', -, hpermits⟩ := hr
    obtain ⟨t', hgot', hdecl⟩ := hpermits.contentType hne
    rw [hdecl, ← hgot', hgot]
  have hspelling : ∀ x : Σ _ : Bytes, Bytes, toLower x.1 = ascii "content-type" →
      (x ∈ fwd.request.headers.entries ↔ req.header.lookup x.1 = some x.2) := by
    intro x hlower
    rw [hheaders]
    exact mem_filterHeaders_iff howned hlower
  constructor
  · intro h name value hlookup hlower
    obtain ⟨out₀, hsent₀⟩ := hsent
    obtain ⟨out, hout, hvalue⟩ := exists_sends_of_spelling hcfg howned
      ((hspelling ⟨name, value⟩ hlower).mpr hlookup) hlower hsent₀
    obtain ⟨v, hv, hsame⟩ := h out hout
    obtain rfl : value = v := by simpa using hvalue.symm.trans hv
    obtain ⟨t', hvalue', hdecl⟩ := hsame r₀ hpermitting₀
    refine ⟨t, ?_, hgot⟩
    rw [hvalue', ← hdecl, hroutes r₀ hpermitting₀]
  · intro h out hout
    have hexact : ∃ v, req.header.lookup (ascii "Content-Type") = some v := by
      cases hlookup : req.header.lookup (ascii "Content-Type") with
      | some v => exact ⟨v, rfl⟩
      | none =>
        rw [GoMap.get, hlookup, Option.getD_none, normaliseMediaType_nil] at hgot
        cases hgot
    obtain ⟨v₀, hv₀⟩ := hexact
    have hlower₀ : toLower (ascii "Content-Type") = ascii "content-type" := by decide +kernel
    obtain ⟨x, hx, hlower, hvalue⟩ := lookup_contentType_of_sends hcfg howned
      ⟨⟨_, v₀⟩, (hspelling ⟨_, v₀⟩ hlower₀).mpr hv₀, hlower₀⟩ hout
    refine ⟨x.2, hvalue, fun r hr => ?_⟩
    obtain ⟨t', hx', hgot'⟩ := h x.1 x.2 ((hspelling x hlower).mp hx) hlower
    refine ⟨t, ?_, hroutes r hr⟩
    rw [hx', ← hgot', hgot]

/-! ## Two spellings -/

def jsonRoute : Route :=
  { slot := ascii "api", method := ascii "POST", path := ascii "/items", use := useData,
    contentType := ascii "application/json" }

/-- A grant to post JSON. -/
def jsonGrant : Grant := demoGrant (ascii "api") [jsonRoute]

def jsonRequest (header : GoMap Bytes Bytes) : HTTPRequest :=
  { slot := ascii "api", method := ascii "POST", path := ascii "/items", header := header }

/-- One connection, without credentials or headers of its own. -/
def plainRegistry : Registry where
  connections := GoMap.ofList [(ascii "demo-api", ⟨ascii "demo-api", some {}⟩)]
  clients := GoMap.ofList
    [(ascii "demo-api", ⟨{}, { scheme := ascii "https", host := ascii "host" }⟩)]
  cfg_of_client id c h := by
    obtain ⟨rfl, rfl⟩ := GoMap.lookup_ofList_singleton_eq_some.mp h
    exact ⟨_, GoMap.lookup_ofList_singleton_eq_some.mpr ⟨rfl, rfl⟩, rfl⟩

def exactHeader : GoMap Bytes Bytes :=
  GoMap.ofList [(ascii "Content-Type", ascii "application/json")]

def twoHeaders : GoMap Bytes Bytes :=
  GoMap.ofList [(ascii "Content-Type", ascii "application/json"),
    (ascii "content-type", ascii "text/plain")]

theorem jsonGrant_permitting {req : HTTPRequest} {r : Route} (h : jsonGrant.Permitting req r) :
    r = jsonRoute := by
  simpa [jsonGrant, demoGrant] using h.1

def jsonForwarded (header : GoMap Bytes Bytes) : Forwarded where
  connID := ascii "demo-api"
  cfg := {}
  request :=
    { method := ascii "POST", path := ascii "/items", query := filterQuery ∅ ⟨[], []⟩,
      headers := filterHeaders header ⟨[], []⟩, body := [], maxResponseBytes := 1 * 2 ^ 20 }

theorem brokerHTTP_json {b : Budget}
    (h : jsonGrant.admitHTTP (jsonRequest header) {} = (.ok (ascii "demo-api"), b)) :
    (brokerHTTP plainRegistry jsonGrant {} (jsonRequest header)).1 =
      .ok (jsonForwarded header) := by
  have hconn : (plainRegistry.connections.lookup (ascii "demo-api")).bind Connection.http =
      some {} := by
    rw [plainRegistry, GoMap.lookup_ofList_singleton_eq_some.mpr ⟨rfl, rfl⟩]
    rfl
  rw [brokerHTTP, h]
  simp only [hconn]
  rfl

theorem sends_json (header : GoMap Bytes Bytes)
    (h : (plainRegistry.doRequest (fun _ => .error .authority) .ok (ascii "demo-api")
      (jsonForwarded header).request (jsonForwarded header).request.headers.entries []).isOk =
        true) :
    ∃ out, Sends (fun _ => .error .authority) .ok plainRegistry (jsonForwarded header) out := by
  cases hdo : plainRegistry.doRequest (fun _ => .error .authority) .ok (ascii "demo-api")
      (jsonForwarded header).request (jsonForwarded header).request.headers.entries [] with
  | error e => simp [hdo, Except.isOk, Except.toBool] at h
  | ok x => exact ⟨x.1, _, [], x.2, GoMap.order_entries _, List.Perm.refl _, hdo⟩

/-- With a second header `content-type: text/plain`, JSON is checked and text is sent. -/
theorem second_contentType_sent :
    (∀ r, jsonGrant.Permitting (jsonRequest twoHeaders) r → r.contentType ≠ []) ∧
      (brokerHTTP plainRegistry jsonGrant {} (jsonRequest twoHeaders)).1 =
        .ok (jsonForwarded twoHeaders) ∧
      ascii "content-type" ∉ (jsonForwarded twoHeaders).owned.headers ∧
      jsonGrant.Permitting (jsonRequest twoHeaders) jsonRoute ∧
      ∃ out, Sends (fun _ => .error .authority) .ok plainRegistry (jsonForwarded twoHeaders) out ∧
        out.header.lookup (ascii "Content-Type") = some [ascii "text/plain"] ∧
        ¬ SameMediaType (ascii "text/plain") jsonRoute.contentType := by
  have hadmitted : jsonGrant.admitHTTP (jsonRequest twoHeaders) {} =
      (.ok (ascii "demo-api"), ⟨1, 1⟩) := by decide +kernel
  have hforwarded := brokerHTTP_json hadmitted
  have howned : ascii "content-type" ∉ (jsonForwarded twoHeaders).owned.headers := by decide
  have hpermits : anyRouteAllows [jsonRoute] (jsonRequest twoHeaders) (ascii "/items") useData 64 =
      true := by decide +kernel
  obtain ⟨r, hr, hpermits⟩ := (anyRouteAllows_iff _ _ _ _ _).mp hpermits
  obtain rfl := List.mem_singleton.mp hr
  obtain ⟨out₀, hout₀⟩ := sends_json twoHeaders (by decide +kernel)
  obtain ⟨out, hout, hvalue⟩ := exists_sends_of_spelling
    (brokerHTTP_eq_ok hforwarded).2.2.1 howned
    (x := ⟨ascii "content-type", ascii "text/plain"⟩) (by decide +kernel) (by decide +kernel) hout₀
  refine ⟨fun r hr => ?_, hforwarded, howned, ?_, out, hout, hvalue, ?_⟩
  · rw [jsonGrant_permitting hr]
    decide
  · exact ⟨List.mem_append_left _ List.mem_cons_self, ascii "/items", by decide +kernel, hpermits⟩
  · have hne : normaliseMediaType (ascii "text/plain") = .ok (ascii "text/plain") ∧
        normaliseMediaType jsonRoute.contentType = .ok (ascii "application/json") := by
      decide +kernel
    intro hsame
    obtain ⟨t, hv, hw⟩ := hsame
    rw [hne.1] at hv
    rw [hne.2, ← hv] at hw
    exact absurd hw (by decide)

theorem contentType_checked_eq_sent_iff_exact :
    ∃ out, Sends (fun _ => .error .authority) .ok plainRegistry (jsonForwarded exactHeader) out ∧
      ∃ v, out.header.lookup (ascii "Content-Type") = some [v] ∧
        ∀ r, jsonGrant.Permitting (jsonRequest exactHeader) r → SameMediaType v r.contentType := by
  have hadmitted : jsonGrant.admitHTTP (jsonRequest exactHeader) {} =
      (.ok (ascii "demo-api"), ⟨1, 1⟩) := by decide +kernel
  obtain ⟨out, hout⟩ := sends_json exactHeader (by decide +kernel)
  have hagrees := contentType_checked_eq_sent_iff (fun _ => .error .authority) .ok plainRegistry
    jsonGrant {} (jsonRequest exactHeader) (jsonForwarded exactHeader)
    (fun r hr => jsonGrant_permitting hr ▸ by decide) (brokerHTTP_json hadmitted) (by decide)
    ⟨out, hout⟩
  refine ⟨out, hout, hagrees.mpr (fun name value hlookup _ => ?_) out hout⟩
  obtain ⟨-, rfl⟩ := GoMap.lookup_ofList_singleton_eq_some.mp hlookup
  exact ⟨ascii "application/json", by decide +kernel⟩

end Veduta.Capabilities
