import Veduta.Config.Connections
import Veduta.Connections.JoinPath
import Veduta.Go.Header

/-!
# Following a redirect

Package `connections`: what one connection is configured with, and the policy its client
consults before it follows a redirect.  The destination is judged twice: against the
connection's own `allowedPaths`, on the absolute path, and by the authorizer that the
request's context carries, on the path relative to the base URL and without the names the
connection owns.
-/

namespace Veduta.Connections

open Go Lib Routepath

open Config (AuthType TLSConfig RateLimit)

/-- A connection's credential; `name` is a header or a query parameter. -/
structure Auth where
  type : AuthType := .none
  name : Bytes := []
  value : Bytes := []
  user : Bytes := []
  pass : Bytes := []
  deriving DecidableEq, Repr

/-- The configuration of an HTTP connection, with its secrets resolved. -/
structure HTTPConfig where
  auth : Auth := {}
  headers : GoMap Bytes Bytes := ∅
  maxResponseBytes : Int := 0
  maxRedirects : Int := 0
  allowedPaths : List Bytes := []
  baseURL : Bytes := []
  tls : TLSConfig := {}
  timeout : ℤ := 0
  rateLimit : RateLimit := {}
  concurrency : Int := 0

/-- A connection; one that is not HTTP has no such configuration. -/
structure Connection where
  id : Bytes
  http : Option HTTPConfig

/-- An `http.Request`; a negative content length is unknown. -/
structure Outgoing where
  method : Bytes
  url : URL
  header : Header
  contentLength : Int

/-- The destination of a redirect in the caller's coordinates. -/
structure RedirectRequest where
  method : Bytes
  path : Bytes
  query : GoMap Bytes Bytes
  header : GoMap Bytes Bytes
  bodyLen : Int

/-- The query keys and lower-case header names a connection owns. -/
structure OwnedNameSet where
  query : List Bytes
  header : List Bytes

/-- The names no caller supplies, and none is judged on. -/
def ownedNames (auth : Auth) (staticHeaders : GoMap Bytes Bytes) : OwnedNameSet :=
  let static := staticHeaders.keys.map toLower
  match auth.type with
  | .header => ⟨[], if auth.name ≠ [] then toLower auth.name :: static else static⟩
  | .query => ⟨if auth.name ≠ [] then [auth.name] else [], static⟩
  | .bearer => ⟨[], ascii "authorization" :: static⟩
  | .basic => ⟨[], ascii "authorization" :: static⟩
  | .none => ⟨[], static⟩

/-- The first value of each query key the connection does not own. -/
def firstQueryValues (q : Values) (owned : List Bytes) : GoMap Bytes Bytes :=
  q.filterMap fun k v => if owned.contains k then none else v.head?

/-- The first value of each header the connection does not own. -/
def singleHeaderValues (h : Header) (owned : List Bytes) : GoMap Bytes Bytes :=
  h.filterMap fun k v => if owned.contains (toLower k) then none else v.head?

/-- The size of the destination's body, or `-1`. -/
def redirectBodyLen (req : Outgoing) : Int :=
  if req.contentLength < 0 then -1 else req.contentLength

/-- One turn of the loop over `allowedPaths`; an entry that is not canonicalisable is
passed over. -/
def inAllowedPath (canonicalPath p : Bytes) : Bool :=
  match canonicalise p with
  | .error _ => false
  | .ok canonicalAllowed => hasPathPrefix canonicalPath canonicalAllowed

inductive RedirectError (ε : Type) where
  | tooMany (maxRedirects : Int)
  | host (host : Bytes)
  | scheme (base dest : Bytes)
  | path (path : Bytes) (e : Routepath.Error)
  | allowedPaths (path : Bytes)
  | relative (e : RelativeError)
  | refused (method relative : Bytes) (e : ε)
  deriving DecidableEq, Repr

section

variable {ε : Type}

/-- **Whether a redirect is followed.**  `via` holds the requests made so far, and the
authorizer is the one in the request's context. -/
def redirectPolicy (base : URL) (maxRedirects : Int) (allowedPaths : List Bytes) (auth : Auth)
    (staticHeaders : GoMap Bytes Bytes) (authorizer : Option (RedirectRequest → Except ε Unit))
    (req : Outgoing) (via : List Outgoing) : Except (RedirectError ε) Unit :=
  if (via.length : Int) > maxRedirects then .error (.tooMany maxRedirects)
  else if req.url.host ≠ base.host then .error (.host req.url.host)
  else if req.url.scheme ≠ base.scheme then .error (.scheme base.scheme req.url.scheme)
  else
    match canonicalise req.url.path with
    | .error e => .error (.path req.url.path e)
    | .ok canonicalPath =>
      if allowedPaths ≠ [] ∧ !allowedPaths.any (inAllowedPath canonicalPath) then
        .error (.allowedPaths req.url.path)
      else
        match authorizer with
        | none => .ok ()
        | some authorize =>
          match relativeRedirectPath base canonicalPath with
          | .error e => .error (.relative e)
          | .ok relative =>
            let owned := ownedNames auth staticHeaders
            match authorize
              { method := req.method, path := relative,
                query := firstQueryValues (parseQuery req.url.rawQuery) owned.query,
                header := singleHeaderValues req.header owned.header,
                bodyLen := redirectBodyLen req } with
            | .error e => .error (.refused req.method relative e)
            | .ok () => .ok ()

end

end Veduta.Connections
