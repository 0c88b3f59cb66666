import Veduta.Capabilities.ContentType
import Veduta.Go.Query

/-!
# What a connection owns, on two requests

The plugin's headers are set first, then the connection's static ones and last its credential,
and every `Set` replaces what stood under the name.  So nothing a plugin sends shows in a value
that the connection owns: two calls over one connection carry the same ones.  What can show is
the order in which the static headers are ranged over, when two of them have one name.
-/

namespace Veduta.Capabilities

open Go Lib Routepath Connections

/-- The header that a connection's credential goes into, if it goes into one. -/
def credentialHeader (auth : Auth) : Option Bytes :=
  match auth.type with
  | .header => some auth.name
  | .bearer => some (ascii "Authorization")
  | .basic => some (ascii "Authorization")
  | .query => none
  | .none => none

/-- Two lookups that yield the same single value. -/
def OneValue (x y : Option (List Bytes)) : Prop := ∃ v, x = some [v] ∧ y = some [v]

/-- Two requests over one connection that agree on what it owns: its static headers, the header
of its credential and the query parameter of its credential. -/
structure SameOwned (cfg : HTTPConfig) (out₁ out₂ : Outgoing) : Prop where
  statics : ∀ name ∈ cfg.headers.keys,
    OneValue (out₁.header.lookup (canonicalMIMEHeaderKey name))
      (out₂.header.lookup (canonicalMIMEHeaderKey name))
  credential : ∀ name, credentialHeader cfg.auth = some name →
    OneValue (out₁.header.lookup (canonicalMIMEHeaderKey name))
      (out₂.header.lookup (canonicalMIMEHeaderKey name))
  parameter : cfg.auth.type = .query →
    OneValue ((parseQuery out₁.url.rawQuery).lookup cfg.auth.name)
      ((parseQuery out₂.url.rawQuery).lookup cfg.auth.name)

/-- The credential goes into the header that a name stands for. -/
def HidesHeader (auth : Auth) (name : Bytes) : Prop :=
  (credentialHeader auth).map canonicalMIMEHeaderKey = some (canonicalMIMEHeaderKey name)

/-- Two static headers whose names are two spellings of one have one value, unless the
credential goes into that header. -/
def Unambiguous (cfg : HTTPConfig) : Prop :=
  ∀ x ∈ cfg.headers.entries, ∀ y ∈ cfg.headers.entries,
    canonicalMIMEHeaderKey x.1 = canonicalMIMEHeaderKey y.1 →
      HidesHeader cfg.auth x.1 ∨ x.2 = y.2

theorem lookup_injectAuth_credential {auth : Auth} {name : Bytes}
    (h : credentialHeader auth = some name) :
    ∃ v, ∀ (header : Header) (query : Values),
      (injectAuth header query auth).1.lookup (canonicalMIMEHeaderKey name) = some [v] := by
  rw [credentialHeader] at h
  cases htype : auth.type with
  | header =>
    rw [htype] at h
    cases h
    refine ⟨auth.value, fun header query => ?_⟩
    simp [injectAuth, htype]
  | bearer =>
    rw [htype] at h
    cases h
    refine ⟨ascii "Bearer " ++ auth.value, fun header query => ?_⟩
    simp [injectAuth, htype]
  | basic =>
    rw [htype] at h
    cases h
    refine ⟨basicAuthHeader auth.user auth.pass, fun header query => ?_⟩
    simp [injectAuth, htype]
  | query | none => simp [htype] at h

theorem lookup_injectAuth_of_not_hides {auth : Auth} {name : Bytes} (h : ¬ HidesHeader auth name)
    (header : Header) (query : Values) :
    (injectAuth header query auth).1.lookup (canonicalMIMEHeaderKey name) =
      header.lookup (canonicalMIMEHeaderKey name) := by
  rw [HidesHeader, credentialHeader] at h
  cases htype : auth.type with
  | header | bearer | basic =>
    simp only [htype, Option.map_some, Option.some.injEq] at h
    simp only [injectAuth, htype]
    exact Header.lookup_set_of_ne _ _ (Ne.symm h)
  | query | none => simp only [injectAuth, htype]

/-! ## What is sent -/

section

variable {parseAuthority : AuthorityParser} {reparse : URL → Except URLError URL}
  {registry : Registry} {fwd : Forwarded}
variable {out : Outgoing}

theorem build_eq_ok {c : Client} {req : Request} {headers statics : List (Σ _ : Bytes, Bytes)}
    (h : c.build parseAuthority reparse req headers statics = .ok out) :
    ∃ query : Values,
      out.header = (injectAuth ((Header.setAll ∅ headers).setAll statics) query c.cfg.auth).1 ∧
      out.url.rawQuery =
        (injectAuth ((Header.setAll ∅ headers).setAll statics) query c.cfg.auth).2.encode := by
  rw [Client.build] at h
  split at h
  · cases h
  rename_i target htarget
  simp only at h
  split at h
  · cases h
  rename_i httpReq hnew
  have hempty : httpReq.header = ∅ := newRequest_header hnew
  rw [hempty] at h
  cases h
  exact ⟨_, rfl, rfl⟩

variable (hcfg : (registry.connections.lookup fwd.connID).bind Connection.http = some fwd.cfg)

include hcfg

/-- Every request carries the one credential in its header. -/
theorem lookup_of_sends_credential {name v : Bytes}
    (hv : ∀ (header : Header) (query : Values),
      (injectAuth header query fwd.cfg.auth).1.lookup (canonicalMIMEHeaderKey name) = some [v])
    (hsends : Sends parseAuthority reparse registry fwd out) :
    out.header.lookup (canonicalMIMEHeaderKey name) = some [v] := by
  obtain ⟨c, headers, statics, -, hc, -, -, hbuild⟩ := (sends_iff hcfg out).mp hsends
  obtain ⟨query, hheader, -⟩ := build_eq_ok hbuild
  rw [hheader, hc]
  exact hv _ _

theorem parameter_of_sends (htype : fwd.cfg.auth.type = .query)
    (hsends : Sends parseAuthority reparse registry fwd out) :
    (parseQuery out.url.rawQuery).lookup fwd.cfg.auth.name = some [fwd.cfg.auth.value] := by
  obtain ⟨c, headers, statics, -, hc, -, -, hbuild⟩ := (sends_iff hcfg out).mp hsends
  obtain ⟨query, -, hquery⟩ := build_eq_ok hbuild
  rw [hquery, hc]
  simp only [injectAuth, htype]
  exact lookup_parseQuery_encode (AList.lookup_insert _) (by simp)

/-- A request carries, under the name of a static header that no credential hides, the value of
some static header with that name. -/
theorem lookup_of_sends_static {name : Bytes} (hname : name ∈ fwd.cfg.headers.keys)
    (hhides : ¬ HidesHeader fwd.cfg.auth name)
    (hsends : Sends parseAuthority reparse registry fwd out) :
    ∃ x ∈ fwd.cfg.headers.entries, canonicalMIMEHeaderKey x.1 = canonicalMIMEHeaderKey name ∧
      out.header.lookup (canonicalMIMEHeaderKey name) = some [x.2] := by
  obtain ⟨c, headers, statics, -, hc, -, horder, hbuild⟩ := (sends_iff hcfg out).mp hsends
  obtain ⟨query, hheader, -⟩ := build_eq_ok hbuild
  have hwritten : ∃ x ∈ statics,
      canonicalMIMEHeaderKey x.1 = canonicalMIMEHeaderKey name := by
    obtain ⟨x, hx, rfl⟩ := List.mem_map.mp hname
    exact ⟨x, horder.mem_iff.mpr hx, rfl⟩
  obtain ⟨x, hx, hkey, hvalue⟩ := Header.exists_lookup_setAll (Header.setAll ∅ headers) hwritten
  refine ⟨x, horder.mem_iff.mp hx, hkey, ?_⟩
  rw [hheader, hc, lookup_injectAuth_of_not_hides hhides, hvalue]

/-- **Each static header is sent under some order**, unless the credential hides it: the order
that visits it last. -/
theorem exists_sends_of_static {x : Σ _ : Bytes, Bytes} (hx : x ∈ fwd.cfg.headers.entries)
    (hhides : ¬ HidesHeader fwd.cfg.auth x.1)
    (hsends : Sends parseAuthority reparse registry fwd out) :
    ∃ out', Sends parseAuthority reparse registry fwd out' ∧
      out'.header.lookup (canonicalMIMEHeaderKey x.1) = some [x.2] := by
  obtain ⟨c, headers, statics, hclient, hc, hheaders, -, hbuild⟩ := (sends_iff hcfg out).mp hsends
  obtain ⟨before, after, hentries⟩ := List.append_of_mem hx
  have horder : fwd.cfg.headers.Order (before ++ after ++ [x]) := by
    rw [GoMap.Order, hentries, List.append_assoc]
    exact List.Perm.append_left before List.perm_append_comm
  obtain ⟨query, hbuild'⟩ := build_reorder hbuild headers (before ++ after ++ [x])
  refine ⟨_, (sends_iff hcfg _).mpr ⟨c, headers, _, hclient, hc, hheaders, horder, hbuild'⟩, ?_⟩
  rw [hc, lookup_injectAuth_of_not_hides hhides]
  exact Header.lookup_setAll_append_cons _ rfl (by simp)

end

/-- **When two calls carry the same owned values.**  Let the broker forward two calls, of any
grants, over one connection, and let a request be sent for each.  Under every order in which the
maps are ranged over the two carry each static header, the header of the credential and its query
parameter once and with the same value, exactly when the connection's static headers are
unambiguous: what the two plugins ask for plays no part. -/
theorem sameOwned_iff_unambiguous
    (parseAuthority : AuthorityParser) (reparse : URL → Except URLError URL)
    (registry : Registry) (g₁ g₂ : Grant) (b₁ b₂ : Budget)
    (req₁ req₂ : HTTPRequest) (fwd₁ fwd₂ : Forwarded)
    (hforwarded₁ : (brokerHTTP registry g₁ b₁ req₁).1 = .ok fwd₁)
    (hforwarded₂ : (brokerHTTP registry g₂ b₂ req₂).1 = .ok fwd₂)
    (hconn : fwd₁.connID = fwd₂.connID)
    (hsent₁ : ∃ out, Sends parseAuthority reparse registry fwd₁ out)
    (hsent₂ : ∃ out, Sends parseAuthority reparse registry fwd₂ out) :
    (∀ out₁ out₂, Sends parseAuthority reparse registry fwd₁ out₁ →
        Sends parseAuthority reparse registry fwd₂ out₂ → SameOwned fwd₁.cfg out₁ out₂) ↔
      Unambiguous fwd₁.cfg := by
  obtain ⟨-, -, hcfg₁, -⟩ := brokerHTTP_eq_ok hforwarded₁
  obtain ⟨-, -, hcfg₂, -⟩ := brokerHTTP_eq_ok hforwarded₂
  have hcfg : fwd₂.cfg = fwd₁.cfg := by
    rw [← hconn, hcfg₁] at hcfg₂
    exact (Option.some.inj hcfg₂).symm
  constructor
  · intro h x hx y hy hkey
    by_contra hneither
    obtain ⟨hhides, hne⟩ := not_or.mp hneither
    have hhides' : ¬ HidesHeader fwd₁.cfg.auth y.1 := by
      rw [HidesHeader, ← hkey]
      exact hhides
    -- one request visits the first of the two last, the other one the second
    obtain ⟨out₁, hout₁⟩ := hsent₁
    obtain ⟨out₂, hout₂⟩ := hsent₂
    obtain ⟨out₁', hsends₁, hx'⟩ := exists_sends_of_static hcfg₁ hx hhides hout₁
    obtain ⟨out₂', hsends₂, hy'⟩ := exists_sends_of_static hcfg₂ (hcfg ▸ hy) (hcfg ▸ hhides') hout₂
    obtain ⟨v, hv₁, hv₂⟩ := (h out₁' out₂' hsends₁ hsends₂).statics x.1 (List.mem_map_of_mem hx)
    rw [hx'] at hv₁
    rw [hkey, hy'] at hv₂
    apply hne
    simpa using hv₁.trans hv₂.symm
  · intro h out₁ out₂ hsends₁ hsends₂
    have hcredential : ∀ name, credentialHeader fwd₁.cfg.auth = some name →
        OneValue (out₁.header.lookup (canonicalMIMEHeaderKey name))
          (out₂.header.lookup (canonicalMIMEHeaderKey name)) := by
      intro name hname
      obtain ⟨v, hv⟩ := lookup_injectAuth_credential hname
      refine ⟨v, lookup_of_sends_credential hcfg₁ hv hsends₁, ?_⟩
      exact lookup_of_sends_credential hcfg₂ (hcfg ▸ hv) hsends₂
    refine ⟨fun name hname => ?_, hcredential, fun htype => ?_⟩
    · by_cases hhides : HidesHeader fwd₁.cfg.auth name
      · obtain ⟨owner, howner, hkey⟩ := Option.map_eq_some_iff.mp hhides
        rw [← hkey]
        exact hcredential owner howner
      · obtain ⟨x, hx, hkeyx, hvaluex⟩ := lookup_of_sends_static hcfg₁ hname hhides hsends₁
        obtain ⟨y, hy, hkeyy, hvaluey⟩ :=
          lookup_of_sends_static hcfg₂ (hcfg ▸ hname) (hcfg ▸ hhides) hsends₂
        rw [hcfg] at hy
        have hsame : x.2 = y.2 := by
          refine (h x hx y hy (hkeyx.trans hkeyy.symm)).resolve_left fun hidden => hhides ?_
          rwa [HidesHeader, hkeyx] at hidden
        exact ⟨x.2, hvaluex, hsame ▸ hvaluey⟩
    · refine ⟨fwd₁.cfg.auth.value, parameter_of_sends hcfg₁ htype hsends₁, ?_⟩
      have hvalue := parameter_of_sends hcfg₂ (hcfg ▸ htype) hsends₂
      rwa [hcfg] at hvalue

/-! ## Two spellings of one header -/

/-- One connection with static headers. -/
def staticRegistry (headers : GoMap Bytes Bytes) : Registry where
  connections := GoMap.ofList
    [(ascii "demo-api", ⟨ascii "demo-api", some { headers := headers }⟩)]
  clients := GoMap.ofList
    [(ascii "demo-api",
      ⟨{ headers := headers }, { scheme := ascii "https", host := ascii "host" }⟩)]
  cfg_of_client id c h := by
    obtain ⟨rfl, rfl⟩ := GoMap.lookup_ofList_singleton_eq_some.mp h
    exact ⟨_, GoMap.lookup_ofList_singleton_eq_some.mpr ⟨rfl, rfl⟩, rfl⟩

def oneSpelling : GoMap Bytes Bytes := GoMap.ofList [(ascii "X-Api-Key", ascii "one")]

def twoSpellings : GoMap Bytes Bytes :=
  GoMap.ofList [(ascii "X-Api-Key", ascii "one"), (ascii "x-api-key", ascii "two")]

/-- A plugin's headers that name the connection's own in another case. -/
def owningHeader : GoMap Bytes Bytes := exactHeader.insert (ascii "x-API-key") (ascii "mine")

/-- What is forwarded over such a connection. -/
def staticForwarded (headers : GoMap Bytes Bytes) (header : GoMap Bytes Bytes := exactHeader) :
    Forwarded :=
  { jsonForwarded header with
    cfg := { headers := headers }
    request :=
      { (jsonForwarded header).request with
        headers := filterHeaders header (newConnectionOwnership .none [] headers.keys) } }

theorem brokerHTTP_static (headers : GoMap Bytes Bytes) {header : GoMap Bytes Bytes}
    (hadmitted : jsonGrant.admitHTTP (jsonRequest header) {} = (.ok (ascii "demo-api"), ⟨1, 1⟩)) :
    (brokerHTTP (staticRegistry headers) jsonGrant {} (jsonRequest header)).1 =
      .ok (staticForwarded headers header) := by
  have hconn : ((staticRegistry headers).connections.lookup (ascii "demo-api")).bind
      Connection.http = some { headers := headers } := by
    rw [staticRegistry, GoMap.lookup_ofList_singleton_eq_some.mpr ⟨rfl, rfl⟩]
    rfl
  rw [brokerHTTP, hadmitted]
  simp only [hconn]
  rfl

theorem sends_static {headers header : GoMap Bytes Bytes}
    (h : ((staticRegistry headers).doRequest (fun _ => .error .authority) .ok (ascii "demo-api")
      (staticForwarded headers header).request
      (staticForwarded headers header).request.headers.entries headers.entries).isOk = true) :
    ∃ out, Sends (fun _ => .error .authority) .ok (staticRegistry headers)
      (staticForwarded headers header) out := by
  cases hdo : (staticRegistry headers).doRequest (fun _ => .error .authority) .ok
      (ascii "demo-api") (staticForwarded headers header).request
      (staticForwarded headers header).request.headers.entries headers.entries with
  | error e => simp [hdo, Except.isOk, Except.toBool] at h
  | ok x => exact ⟨x.1, _, _, x.2, GoMap.order_entries _, GoMap.order_entries _, hdo⟩

/-- Two static headers `X-Api-Key` and `x-api-key`: one call sends the first value, the same call
made again the second. -/
theorem spelling_decides_static :
    (brokerHTTP (staticRegistry twoSpellings) jsonGrant {} (jsonRequest exactHeader)).1 =
        .ok (staticForwarded twoSpellings) ∧
      ∃ out₁ out₂,
        Sends (fun _ => .error .authority) .ok (staticRegistry twoSpellings)
          (staticForwarded twoSpellings) out₁ ∧
        Sends (fun _ => .error .authority) .ok (staticRegistry twoSpellings)
          (staticForwarded twoSpellings) out₂ ∧
        out₁.header.lookup (ascii "X-Api-Key") = some [ascii "one"] ∧
        out₂.header.lookup (ascii "X-Api-Key") = some [ascii "two"] ∧
        ¬ SameOwned (staticForwarded twoSpellings).cfg out₁ out₂ := by
  have hforwarded := @brokerHTTP_static twoSpellings exactHeader (by decide +kernel)
  have hcfg := (brokerHTTP_eq_ok hforwarded).2.2.1
  have hkey : canonicalMIMEHeaderKey (ascii "X-Api-Key") = ascii "X-Api-Key" ∧
      canonicalMIMEHeaderKey (ascii "x-api-key") = ascii "X-Api-Key" := by decide +kernel
  have hhides : ∀ name, ¬ HidesHeader (staticForwarded twoSpellings).cfg.auth name := by
    simp [HidesHeader, credentialHeader, staticForwarded]
  obtain ⟨out, hout⟩ := @sends_static twoSpellings exactHeader (by decide +kernel)
  obtain ⟨out₁, hsends₁, hone⟩ := exists_sends_of_static hcfg
    (x := ⟨ascii "X-Api-Key", ascii "one"⟩) (by decide +kernel) (hhides _) hout
  obtain ⟨out₂, hsends₂, htwo⟩ := exists_sends_of_static hcfg
    (x := ⟨ascii "x-api-key", ascii "two"⟩) (by decide +kernel) (hhides _) hout
  rw [hkey.1] at hone
  rw [hkey.2] at htwo
  refine ⟨hforwarded, out₁, out₂, hsends₁, hsends₂, hone, htwo, fun hsame => ?_⟩
  obtain ⟨v, hv₁, hv₂⟩ := hsame.statics (ascii "X-Api-Key") (by decide +kernel)
  rw [hkey.1, hone] at hv₁
  rw [hkey.1, htwo, ← hv₁] at hv₂
  exact absurd hv₂ (by decide)

/-- With one spelling a request that names the header sends the same value as one that does not. -/
theorem sameOwned_oneSpelling :
    ∃ out₁ out₂, Sends (fun _ => .error .authority) .ok (staticRegistry oneSpelling)
        (staticForwarded oneSpelling) out₁ ∧
      Sends (fun _ => .error .authority) .ok (staticRegistry oneSpelling)
        (staticForwarded oneSpelling owningHeader) out₂ ∧
      SameOwned (staticForwarded oneSpelling).cfg out₁ out₂ := by
  obtain ⟨out₁, hout₁⟩ := @sends_static oneSpelling exactHeader (by decide +kernel)
  obtain ⟨out₂, hout₂⟩ := @sends_static oneSpelling owningHeader (by decide +kernel)
  have hsame := sameOwned_iff_unambiguous (fun _ => .error .authority) .ok
    (staticRegistry oneSpelling) jsonGrant jsonGrant {} {} (jsonRequest exactHeader)
    (jsonRequest owningHeader) (staticForwarded oneSpelling)
    (staticForwarded oneSpelling owningHeader) (brokerHTTP_static oneSpelling (by decide +kernel))
    (brokerHTTP_static oneSpelling (by decide +kernel)) rfl ⟨out₁, hout₁⟩ ⟨out₂, hout₂⟩
  refine ⟨out₁, out₂, hout₁, hout₂,
    hsame.mpr (fun x hx y hy _ => Or.inr ?_) out₁ out₂ hout₁ hout₂⟩
  have hentries : (staticForwarded oneSpelling).cfg.headers.entries =
      [⟨ascii "X-Api-Key", ascii "one"⟩] := rfl
  rw [hentries, List.mem_singleton] at hx hy
  rw [hx, hy]

end Veduta.Capabilities
