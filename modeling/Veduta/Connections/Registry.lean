import Veduta.Connections.Client
import Veduta.Go.Base64

/-!
# Building an upstream request

Package `connections`: `Registry.Do` up to the moment the request is handed to the
transport.  The caller's headers are set in whatever order the map is ranged over, then
the connection's own, then its credential, so that what the connection owns wins.
-/

namespace Veduta.Connections

open Go Lib

/-- What a caller asks a connection for; a positive `maxResponseBytes` narrows the
connection's own. -/
structure Request where
  method : Bytes
  path : Bytes
  query : GoMap Bytes Bytes
  headers : GoMap Bytes Bytes
  body : Bytes
  maxResponseBytes : Int

/-- One connection's configuration and parsed base URL. -/
structure Client where
  cfg : HTTPConfig
  base : URL

/-- The client of a Docker connection: where it dials, if that is a socket, and the URL it
sends requests for. -/
structure DockerClient where
  base : URL
  socket : Option Bytes
  timeout : ℤ

/-- A client is built for each HTTP connection, from that connection's configuration. -/
structure Registry where
  connections : GoMap Bytes Connection
  clients : GoMap Bytes Client
  docker : GoMap Bytes DockerClient := ∅
  cfg_of_client : ∀ id c, clients.lookup id = some c →
    ∃ conn, connections.lookup id = some conn ∧ conn.http = some c.cfg

def emptyRegistry : Registry where
  connections := ∅
  clients := ∅
  cfg_of_client := by
    intro id c h
    cases h

def basicAuthHeader (user pass : Bytes) : Bytes :=
  ascii "Basic " ++ encodeBase64Std (user ++ chr ':' :: pass)

/-- The connection's credential, over whatever a caller put in its place. -/
def injectAuth (header : Header) (query : Values) (auth : Auth) : Header × Values :=
  match auth.type with
  | .header => (header.set auth.name auth.value, query)
  | .query => (header, query.set auth.name auth.value)
  | .bearer => (header.set (ascii "Authorization") (ascii "Bearer " ++ auth.value), query)
  | .basic => (header.set (ascii "Authorization") (basicAuthHeader auth.user auth.pass), query)
  | .none => (header, query)

inductive DoError where
  | unknownConnection
  | notHTTP
  | join (e : JoinError)
  | invalidMethod (method : Bytes)
  | url (e : URLError)
  deriving DecidableEq, Repr

/-- `http.NewRequest`, for a URL that is written out and parsed again. -/
def newRequest (reparse : URL → Except URLError URL) (method : Bytes) (target : URL)
    (body : Bytes) : Except DoError Outgoing :=
  let method := if method = [] then ascii "GET" else method
  if !method.all validHeaderFieldByte then .error (.invalidMethod method)
  else
    match reparse target with
    | .error e => .error (.url e)
    | .ok url => .ok { method := method, url := url, header := ∅, contentLength := body.length }

def defaultMaxResponseBytes : Int := 8 * 2 ^ 20

/-- How much of the response is read: the narrower of the two limits. -/
def responseLimit (cfg : HTTPConfig) (req : Request) : Int :=
  let limit :=
    if cfg.maxResponseBytes ≤ 0 then defaultMaxResponseBytes else cfg.maxResponseBytes
  if req.maxResponseBytes > 0 ∧ req.maxResponseBytes < limit then req.maxResponseBytes else limit

section

variable (parseAuthority : AuthorityParser) (reparse : URL → Except URLError URL)

/-- The request a client builds.  `headers` and `statics` are the orders in which the two
header maps are ranged over; the keys of a query are distinct, so its order is not seen. -/
def Client.build (c : Client) (req : Request) (headers statics : List (Σ _ : Bytes, Bytes)) :
    Except DoError Outgoing :=
  match joinPath parseAuthority c.base req.path with
  | .error e => .error (.join e)
  | .ok target =>
    let query := req.query.entries.foldl (fun q x => q.set x.1 x.2) (parseQuery target.rawQuery)
    match newRequest reparse req.method target req.body with
    | .error e => .error e
    | .ok httpReq =>
      let header := (httpReq.header.setAll headers).setAll statics
      let (header, query) := injectAuth header query c.cfg.auth
      .ok { httpReq with header := header, url := { httpReq.url with rawQuery := query.encode } }

/-- **`Registry.Do`**, up to the transport: the request that is sent, and how much of the
response is read. -/
def Registry.doRequest (r : Registry) (id : Bytes) (req : Request)
    (headers statics : List (Σ _ : Bytes, Bytes)) : Except DoError (Outgoing × Int) :=
  match r.clients.lookup id with
  | none => if (r.connections.lookup id).isSome then .error .notHTTP else .error .unknownConnection
  | some c =>
    match c.build parseAuthority reparse req headers statics with
    | .error e => .error e
    | .ok out => .ok (out, responseLimit c.cfg req)

end

end Veduta.Connections
