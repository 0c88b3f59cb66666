import Veduta.Auth.Attempts
import Veduta.Auth.Password
import Veduta.Lib.RWLock
import Veduta.Lib.Transition

/-!
# The session service as a system

Package `auth`: calls of `Login`, `OpenSudo`, `Authenticate`, `CheckCSRF`, `Logout`,
`AllowsPrivileged` and `Reconfigure` interleave on one service, which `New` makes when the process
starts.  An event is one atomic step: a section under a mutex, a statement of the database, which
may fail, or something from outside, such as a crash.  `Login` and `OpenSudo` hold the
configuration's lock for reading from before the verification to the end, `Reconfigure` holds it for
writing.

What the source does not keep: each session and each window remembers the credentials that were
verified for it (`Issue`), and the world remembers how often the credentials were changed, and with
which `New` or `Reconfigure` last returned success.  Columns that nothing reads are left out.
-/

namespace Veduta.Auth

open Go Lib

/-- The credentials that a call verifies a password against, and how often they were changed
before. -/
structure Issue where
  credentials : Credentials
  rotation : ℕ
  deriving DecidableEq

/-- A row of the table of sessions. -/
structure SessionRow where
  csrfToken : Bytes
  expiresAt : Bytes
  issued : Issue
  deriving DecidableEq

structure Window where
  ends : ℤ
  issued : Issue
  deriving DecidableEq

/-- The row of the administrator, if there is one yet, and the sessions by their ids. -/
structure Db where
  users : Option User
  sessions : GoMap Bytes SessionRow
  deriving DecidableEq

/-- The pool of verifications: who waits or verifies, who verifies, and how many ever did. -/
structure Verifier where
  waiting : ℕ
  running : ℕ
  admitted : ℕ
  deriving DecidableEq

def maxConcurrentVerifications : ℕ := 2

def maxQueuedVerifications : ℕ := 8

structure Service where
  credentials : Credentials
  ttl : ℤ
  verifier : Verifier
  attempts : Table
  sudoUntil : GoMap Bytes Window
  deriving DecidableEq

/-- What `New` returns. -/
def Service.new (p : Accepted) : Service := ⟨p.credentials, p.ttl, ⟨0, 0, 0⟩, ∅, ∅⟩

structure State where
  db : Db
  service : Service
  rotations : ℕ
  last : Option Credentials
  deriving DecidableEq

inductive Request where
  | login (username password ip : Bytes)
  | authenticate (token : Bytes)
  | checkCSRF (token cookie header : Bytes)
  | openSudo (token password ip : Bytes)
  | logout (token : Bytes)
  | allowsPrivileged (sessionID : Bytes)
  | reconfigure (cfg : Config)

inductive Result where
  | ok
  | session (token csrf : Bytes) (expiresAt : ℤ)
  | identity (username : Bytes) (row : SessionRow)
  | privileged (b : Bool)
  | error (e : AuthError)
  deriving DecidableEq

/-- What `Login` and `OpenSudo` read once they hold the lock. -/
structure Admission where
  issue : Issue
  ttl : ℤ
  key : Bytes
  now : ℤ
  deriving DecidableEq

inductive Reading where
  | lockout
  | enqueue
  | refused
  | acquire
  | hash
  | dequeue (valid : Bool)
  | verified (valid : Bool)
  | token
  | insert (token csrf : Bytes)
  | prune (token csrf : Bytes)
  | grant
  | release (r : Result)
  deriving DecidableEq

/-- What a `Reconfigure` configures, and what a call would have verified against just before. -/
structure Rotating where
  next : Accepted
  previous : Issue
  deriving DecidableEq

inductive Writing where
  | differ
  | update (changed : Bool)
  | revoke
  | clearSudo
  | unlock (r : Result)
  deriving DecidableEq

inductive Pc where
  | start
  | selected (username : Bytes) (row : SessionRow)
  | expired
  | authenticated
  | lock (p : Accepted)
  | reading (a : Admission) (p : Reading)
  | writing (t : Rotating) (p : Writing)
  | forget (r : Result)
  | done (r : Result)
  deriving DecidableEq

structure Call where
  request : Request
  pc : Pc

def Call.reading (c : Call) : Bool :=
  match c.pc with
  | .reading _ _ => true
  | _ => false

def Call.writing (c : Call) : Bool :=
  match c.pc with
  | .writing _ _ => true
  | _ => false

/-- What the environment chooses at a step: whether a statement succeeds, in which order a map is
visited, and the two random tokens. -/
structure Choice where
  ok : Bool
  order : List (Σ _ : Bytes, Attempt)
  random : Option (Bytes × Bytes)

/-! ## Steps -/

def loginKey (env : Env) (username ip : Bytes) : Bytes := env.fold username ++ 0 :: ip

def sudoKey (sessionID ip : Bytes) : Bytes := ascii "sudo" ++ 0 :: sessionID ++ 0 :: ip

def Request.token : Request → Bytes
  | .authenticate token => token
  | .checkCSRF token _ _ => token
  | .openSudo token _ _ => token
  | .logout token => token
  | _ => []

def Request.ip : Request → Bytes
  | .login _ _ ip => ip
  | .openSudo _ _ ip => ip
  | _ => []

/-- The answer to a request whose session was found. -/
def Request.answer (r : Request) (username : Bytes) (row : SessionRow) : Pc :=
  match r with
  | .checkCSRF _ cookie header =>
    if cookie = [] ∨ header = [] ∨ row.csrfToken ≠ cookie ∨ row.csrfToken ≠ header then
      .done (.error .csrf)
    else .done (.identity username row)
  | .openSudo _ _ _ => .authenticated
  | _ => .done (.identity username row)

namespace State

variable (σ : State)

/-- What is configured. -/
def issue : Issue := ⟨σ.service.credentials, σ.rotations⟩

/-- The configuration under the lock, and the time. -/
def admission (now : ℤ) (key : Bytes) : Admission := ⟨σ.issue, σ.service.ttl, key, now⟩

def deleteSession (id : Bytes) : State :=
  { σ with db := { σ.db with sessions := σ.db.sessions.erase id } }

def setVerifier (v : Verifier) : State := { σ with service := { σ.service with verifier := v } }

def setAttempts (t : Table) : State := { σ with service := { σ.service with attempts := t } }

def setSudo (m : GoMap Bytes Window) : State :=
  { σ with service := { σ.service with sudoUntil := m } }

end State

/-- The first step of a call. -/
def start (env : Env) (x : Choice) (now : ℤ) (noWriter : Bool) (σ : State) (request : Request) :
    Option (State × Pc) :=
  match request with
  | .login username _ ip =>
    if noWriter then some (σ, .reading (σ.admission now (loginKey env username ip)) .lockout)
    else none
  | .logout token =>
    if token = [] then some (σ, .done .ok)
    else if x.ok then some (σ.deleteSession (env.tokenHash token), .forget .ok)
    else some (σ, .forget (.error .storage))
  | .allowsPrivileged sessionID =>
    match σ.service.sudoUntil.lookup sessionID with
    | some window =>
      if now < window.ends then some (σ, .done (.privileged true))
      else some (σ.setSudo (σ.service.sudoUntil.erase sessionID), .done (.privileged false))
    | none => some (σ, .done (.privileged false))
  | .reconfigure cfg =>
    match cfg.reconfigured with
    | .error e => some ({ σ with last := none }, .done (.error e))
    | .ok p => some (σ, .lock p)
  | .authenticate token => select token
  | .checkCSRF token _ _ => select token
  | .openSudo token _ _ => select token
where
  /-- `Authenticate` looks the session up. -/
  select (token : Bytes) : Option (State × Pc) :=
    if token = [] then some (σ, .done (.error .noSession))
    else if !x.ok then some (σ, .done (.error .storage))
    else
      match σ.db.users, σ.db.sessions.lookup (env.tokenHash token) with
      | some user, some row => some (σ, .selected user.username row)
      | _, _ => some (σ, .done (.error .noSession))

/-- The other steps without the lock. -/
def outside (env : Env) (x : Choice) (now : ℤ) (noWriter noHolder : Bool) (σ : State)
    (request : Request) (pc : Pc) : Option (State × Pc) :=
  match pc with
  | .start => start env x now noWriter σ request
  | .selected username row =>
    match parseTime row.expiresAt with
    | some t => if now < t then some (σ, request.answer username row) else some (σ, .expired)
    | none => some (σ, .expired)
  | .expired =>
    some (if x.ok then σ.deleteSession (env.tokenHash request.token) else σ,
      .done (.error .noSession))
  | .authenticated =>
    if noWriter then
      some (σ, .reading (σ.admission now (sudoKey (env.tokenHash request.token) request.ip)) .lockout)
    else none
  | .lock p => if noHolder then some (σ, .writing ⟨p, σ.issue⟩ .differ) else none
  | .forget r =>
    some (σ.setSudo (σ.service.sudoUntil.erase (env.tokenHash request.token)), .done r)
  | _ => none

/-- Whether the request is verified: its password, and for a login also its username. -/
def Request.matches (r : Request) (issue : Issue) (valid : Bool) : Bool :=
  match r with
  | .login username _ _ => valid && username = issue.credentials.username
  | _ => valid

def Request.password : Request → Bytes
  | .login _ password _ => password
  | .openSudo _ password _ => password
  | _ => []

/-- A step under the lock for reading. -/
def read (env : Env) (x : Choice) (now : ℤ) (σ : State) (request : Request) (a : Admission)
    (p : Reading) : Option (State × Pc) :=
  let v := σ.service.verifier
  match p with
  | .lockout =>
    if a.now < (σ.service.attempts.get .zero a.key).lockedUntil then
      some (σ, .reading a (.release (.error .rateLimited)))
    else some (σ, .reading a .enqueue)
  | .enqueue =>
    let σ := σ.setVerifier { v with waiting := v.waiting + 1 }
    if v.waiting + 1 > maxQueuedVerifications + maxConcurrentVerifications then
      some (σ, .reading a .refused)
    else some (σ, .reading a .acquire)
  | .refused =>
    some (σ.setVerifier { v with waiting := v.waiting - 1 },
      .reading a (.release (.error .busy)))
  | .acquire =>
    if v.running < maxConcurrentVerifications then
      some (σ.setVerifier { v with running := v.running + 1, admitted := v.admitted + 1 },
        .reading a .hash)
    else none
  | .hash =>
    some (σ.setVerifier { v with running := v.running - 1 },
      .reading a (.dequeue (verifyPassword env a.issue.credentials.params request.password)))
  | .dequeue valid =>
    some (σ.setVerifier { v with waiting := v.waiting - 1 }, .reading a (.verified valid))
  | .verified valid =>
    if request.matches a.issue valid then
      let next :=
        match request with
        | .login _ _ _ => .token
        | _ => .grant
      some (σ.setAttempts (σ.service.attempts.erase a.key), .reading a next)
    else
      (recordFailure x.order a.key a.now σ.service.attempts).map fun t =>
        (σ.setAttempts t, .reading a (.release (.error .invalidCredentials)))
  | .token =>
    match x.random with
    | none => some (σ, .reading a (.release (.error .random)))
    | some (token, csrf) => some (σ, .reading a (.insert token csrf))
  | .insert token csrf =>
    let id := env.tokenHash token
    -- A row refers to the administrator's, and its id is a primary key.
    if !x.ok || σ.db.users.isNone || (σ.db.sessions.lookup id).isSome then
      some (σ, .reading a (.release (.error .storage)))
    else
      let row : SessionRow := ⟨csrf, formatTime (a.now + a.ttl), a.issue⟩
      some ({ σ with db := { σ.db with sessions := σ.db.sessions.insert id row } },
        .reading a (.prune token csrf))
  | .prune token csrf =>
    let kept := σ.db.sessions.filter fun _ row => formatTime now < row.expiresAt
    some (if x.ok then { σ with db := { σ.db with sessions := kept } } else σ,
      .reading a (.release (.session token csrf (a.now + a.ttl))))
  | .grant =>
    some (σ.setSudo (σ.service.sudoUntil.insert (env.tokenHash request.token)
      ⟨now + 5 * minute, a.issue⟩), .reading a (.release .ok))
  | .release r => some (σ, .done r)

/-- Whether the stored administrator differs; there is none at the first start. -/
def credentialsDiffer (users : Option User) (c : Credentials) : Bool :=
  match users with
  | none => false
  | some u => u ≠ c.user

/-- A step under the lock for writing. -/
def write (x : Choice) (σ : State) (t : Rotating) (p : Writing) : State × Pc :=
  match p with
  | .differ =>
    if x.ok then (σ, .writing t (.update (credentialsDiffer σ.db.users t.next.credentials)))
    else (σ, .writing t (.unlock (.error .storage)))
  | .update changed =>
    if x.ok then
      ({ σ with
          db := { σ.db with users := σ.db.users.map fun _ => t.next.credentials.user }
          service := { σ.service with credentials := t.next.credentials, ttl := t.next.ttl }
          rotations := if changed then σ.rotations + 1 else σ.rotations },
        .writing t (if changed then .revoke else .unlock .ok))
    else (σ, .writing t (.unlock (.error .storage)))
  | .revoke =>
    if x.ok then ({ σ with db := { σ.db with sessions := ∅ } }, .writing t .clearSudo)
    else (σ, .writing t (.unlock (.error .storage)))
  | .clearSudo => (σ.setSudo ∅, .writing t (.unlock .ok))
  | .unlock r =>
    ({ σ with last := if r = .ok then some t.next.credentials else none }, .done r)

def act (env : Env) (x : Choice) (now : ℤ) (noWriter noHolder : Bool) (σ : State) (c : Call) :
    Option (State × Call) :=
  let next :=
    match c.pc with
    | .reading a p => read env x now σ c.request a p
    | .writing t p => some (write x σ t p)
    | pc => outside env x now noWriter noHolder σ c.request pc
  next.map fun (σ, pc) => (σ, { c with pc })

inductive Boot where
  | differ (p : Accepted)
  | upsert (p : Accepted) (changed : Bool)
  | revoke (p : Accepted)
  deriving DecidableEq

structure World where
  db : Db
  rotations : ℕ
  last : Option Credentials
  now : ℤ
  boot : Option Boot
  service : Option Service
  calls : List Call

/-- A new database, before the first start. -/
def World.new (now : ℤ) : World := ⟨⟨none, ∅⟩, 0, none, now, none, none, []⟩

inductive Event where
  | tick (duration : ℕ)
  | new (cfg : Config)
  | boot (ok : Bool)
  | call (r : Request)
  | act (call : ℕ) (x : Choice)
  | crash

namespace World

/-- `New` returns an error, and the process ends. -/
def fail (w : World) : World := { w with boot := none, last := none }

/-- `New` returns a service. -/
def serve (w : World) (p : Accepted) : World :=
  { w with boot := none, service := some (.new p), last := some p.credentials }

/-- The next statement of `New`. -/
def bootStep (w : World) (b : Boot) (ok : Bool) : World :=
  if !ok then w.fail
  else
    match b with
    | .differ p =>
      { w with boot := some (.upsert p (credentialsDiffer w.db.users p.credentials)) }
    | .upsert p changed =>
      let w := { w with db := { w.db with users := some p.credentials.user } }
      if changed then { w with rotations := w.rotations + 1, boot := some (.revoke p) }
      else w.serve p
    | .revoke p => { w with db := { w.db with sessions := ∅ } }.serve p

/-- What a step of a call sees and changes. -/
def state (w : World) (s : Service) : State := ⟨w.db, s, w.rotations, w.last⟩

/-- The world after a step of a call. -/
def after (w : World) (i : ℕ) (σ : State) (c : Call) : World :=
  { w with
    db := σ.db, rotations := σ.rotations, last := σ.last, service := some σ.service
    calls := w.calls.set i c }

end World

/-- The world after an event, or `none` if it cannot happen. -/
def step (env : Env) (e : Event) (w : World) : Option World :=
  match e with
  | .tick duration => some { w with now := w.now + duration }
  | .new cfg =>
    if w.boot.isSome || w.service.isSome then none
    else
      match cfg.created with
      | .error _ => some w.fail
      | .ok p => some { w with boot := some (.differ p) }
  | .boot ok => w.boot.map fun b => w.bootStep b ok
  | .call r =>
    if w.service.isSome then some { w with calls := w.calls ++ [⟨r, .start⟩] } else none
  | .act i x => do
    let s ← w.service
    let c ← w.calls[i]?
    let (σ, c) ← act env x w.now (noWriter Call.writing w.calls)
      (noHolder Call.reading Call.writing w.calls) (w.state s) c
    some (w.after i σ c)
  | .crash => some { w with boot := none, service := none, calls := [] }

end Veduta.Auth
