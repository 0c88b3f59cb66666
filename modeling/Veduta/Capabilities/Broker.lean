import Veduta.Capabilities.Authorize
import Veduta.Connections.Registry

/-!
# The broker's HTTP call

Package `capabilities`: the one place where a plugin's request becomes an upstream call.
The preamble checks capability, slot, route and budgets in that order; what passes is
stripped of the headers and query keys the connection owns and handed to the registry,
together with an authorizer that judges redirects by the same grant.
-/

namespace Veduta.Capabilities

open Go Lib Connections

open Config (AuthType)

inductive BrokerError where
  | capDenied
  | slotDenied
  | routeDenied (e : Denial)
  | budgetExceeded
  | notHTTPConnection (id : Bytes)
  deriving DecidableEq, Repr

/-- The counters of one invocation. -/
structure Budget where
  hostCallsUsed : Int := 0
  httpRequestsUsed : Int := 0
  deriving DecidableEq, Repr

/-- One more host call, if the ceiling leaves room; zero is no ceiling. -/
def Grant.consumeHostCall (g : Grant) (b : Budget) : Except BrokerError Budget :=
  if g.limits.hostCalls > 0 ∧ b.hostCallsUsed ≥ g.limits.hostCalls then .error .budgetExceeded
  else .ok { b with hostCallsUsed := b.hostCallsUsed + 1 }

def Grant.consumeHTTPRequest (g : Grant) (b : Budget) : Except BrokerError Budget :=
  if g.limits.httpRequests > 0 ∧ b.httpRequestsUsed ≥ g.limits.httpRequests then
    .error .budgetExceeded
  else .ok { b with httpRequestsUsed := b.httpRequestsUsed + 1 }

def pluginHeaderAllowlist : List Bytes :=
  [ascii "Accept", ascii "Accept-Language", ascii "Content-Type", ascii "If-None-Match",
    ascii "If-Modified-Since", ascii "Range"]

def alwaysStrippedHeaders : List Bytes :=
  [ascii "Host", ascii "Content-Length", ascii "Transfer-Encoding", ascii "Connection",
    ascii "Upgrade"]

/-- A known header name from its lower-case form; the empty string is on neither list. -/
def canonicalHeaderCase (lower : Bytes) : Bytes :=
  if lower = ascii "accept" then ascii "Accept"
  else if lower = ascii "accept-language" then ascii "Accept-Language"
  else if lower = ascii "content-type" then ascii "Content-Type"
  else if lower = ascii "if-none-match" then ascii "If-None-Match"
  else if lower = ascii "if-modified-since" then ascii "If-Modified-Since"
  else if lower = ascii "range" then ascii "Range"
  else if lower = ascii "host" then ascii "Host"
  else if lower = ascii "content-length" then ascii "Content-Length"
  else if lower = ascii "transfer-encoding" then ascii "Transfer-Encoding"
  else if lower = ascii "connection" then ascii "Connection"
  else if lower = ascii "upgrade" then ascii "Upgrade"
  else []

/-- The lower-case header names and the query keys a connection owns. -/
structure ConnectionOwnership where
  headers : List Bytes
  queryKeys : List Bytes

def newConnectionOwnership (authType : AuthType) (authName : Bytes)
    (staticHeaderNames : List Bytes) : ConnectionOwnership :=
  let static := staticHeaderNames.map toLower
  match authType with
  | .header => ⟨if authName ≠ [] then toLower authName :: static else static, []⟩
  | .query => ⟨static, if authName ≠ [] then [authName] else []⟩
  | _ => ⟨static, []⟩

/-- The headers on the allowlist that are neither stripped nor owned.  Each keeps the
spelling of its name. -/
def filterHeaders (header : GoMap Bytes Bytes) (owned : ConnectionOwnership) : GoMap Bytes Bytes :=
  header.filter fun name _ =>
    !alwaysStrippedHeaders.contains (canonicalHeaderCase (toLower name)) &&
      !owned.headers.contains (toLower name) &&
      pluginHeaderAllowlist.contains (canonicalHeaderCase (toLower name))

def filterQuery (query : GoMap Bytes Bytes) (owned : ConnectionOwnership) : GoMap Bytes Bytes :=
  query.filter fun k _ => !owned.queryKeys.contains k

/-- The preamble: the connection's id, and the counters as it leaves them.  A call that
runs out of upstream requests has still used a host call. -/
def Grant.admitHTTP (g : Grant) (req : HTTPRequest) (b : Budget) :
    Except BrokerError Bytes × Budget :=
  if !g.caps.has (ascii "http") then (.error .capDenied, b)
  else
    match g.slots.lookup req.slot with
    | none => (.error .slotDenied, b)
    | some connID =>
      match g.authorize req useData with
      | .error e => (.error (.routeDenied e), b)
      | .ok () =>
        match g.consumeHostCall b with
        | .error e => (.error e, b)
        | .ok b =>
          match g.consumeHTTPRequest b with
          | .error e => (.error e, b)
          | .ok b => (.ok connID, b)

/-- The authorizer that goes into the request's context: the same grant and slot, on the
destination of the redirect. -/
def Grant.redirectAuthorizer (g : Grant) (slot : Bytes) (dest : RedirectRequest) :
    Except Denial Unit :=
  g.authorize
    { slot := slot, method := dest.method, path := dest.path, query := dest.query,
      header := dest.header, bodyLen := dest.bodyLen } useData

/-- What the registry is asked for: a connection, and a request to it. -/
structure Forwarded where
  connID : Bytes
  cfg : HTTPConfig
  request : Request

/-- **The broker's HTTP call**, up to the registry. -/
def brokerHTTP (registry : Registry) (g : Grant) (b : Budget) (req : HTTPRequest) :
    Except BrokerError Forwarded × Budget :=
  match g.admitHTTP req b with
  | (.error e, b) => (.error e, b)
  | (.ok connID, b) =>
    match (registry.connections.lookup connID).bind Connection.http with
    | none => (.error (.notHTTPConnection connID), b)
    | some cfg =>
      let owned := newConnectionOwnership cfg.auth.type cfg.auth.name cfg.headers.keys
      (.ok { connID := connID, cfg := cfg,
             request :=
              { method := req.method, path := req.path,
                query := filterQuery req.query owned,
                headers := filterHeaders req.header owned, body := req.body,
                maxResponseBytes :=
                  if g.limits.responseMB > 0 then g.limits.responseMB * 2 ^ 20 else 0 } }, b)

theorem toLower_mem_newConnectionOwnership {name : Bytes} {statics : List Bytes}
    (h : name ∈ statics) (authType : AuthType) (authName : Bytes) :
    toLower name ∈ (newConnectionOwnership authType authName statics).headers := by
  have hmem : toLower name ∈ statics.map toLower := List.mem_map_of_mem h
  cases authType with
  | header =>
    simp only [newConnectionOwnership]
    split_ifs
    · exact List.mem_cons_of_mem _ hmem
    · exact hmem
  | query | bearer | basic | none => exact hmem

theorem Grant.admitHTTP_eq_ok {g : Grant} {req : HTTPRequest} {b : Budget} {connID : Bytes}
    (h : (g.admitHTTP req b).1 = .ok connID) :
    g.caps.has (ascii "http") = true ∧ g.slots.lookup req.slot = some connID ∧
      g.authorize req useData = .ok () := by
  rw [Grant.admitHTTP] at h
  split_ifs at h with hcap
  rw [Bool.not_eq_true, Bool.not_eq_false'] at hcap
  cases hslot : g.slots.lookup req.slot with
  | none => simp [hslot] at h
  | some id =>
    cases hauth : g.authorize req useData with
    | error e => simp [hslot, hauth] at h
    | ok u =>
      simp only [hslot, hauth] at h
      split at h
      · cases h
      · split at h
        · cases h
        · cases h
          exact ⟨hcap, rfl, rfl⟩

/-- **What is forwarded was authorised**, and goes to the connection bound to the slot. -/
theorem brokerHTTP_eq_ok {registry : Registry} {g : Grant} {b : Budget} {req : HTTPRequest}
    {fwd : Forwarded} (h : (brokerHTTP registry g b req).1 = .ok fwd) :
    g.authorize req useData = .ok () ∧ g.slots.lookup req.slot = some fwd.connID ∧
      (registry.connections.lookup fwd.connID).bind Connection.http = some fwd.cfg ∧
      fwd.request.headers = filterHeaders req.header
        (newConnectionOwnership fwd.cfg.auth.type fwd.cfg.auth.name fwd.cfg.headers.keys) := by
  rw [brokerHTTP] at h
  split at h
  · cases h
  rename_i connID b' hadmitted
  obtain ⟨-, hslot, hauth⟩ := Grant.admitHTTP_eq_ok (congrArg Prod.fst hadmitted)
  split at h
  · cases h
  rename_i cfg hcfg
  cases h
  exact ⟨hauth, hslot, hcfg, rfl⟩

end Veduta.Capabilities
