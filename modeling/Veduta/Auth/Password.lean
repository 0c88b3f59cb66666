import Veduta.Go.Base64
import Veduta.Go.Duration
import Veduta.Go.Map
import Veduta.Lib.Except

/-!
# The configured administrator

Package `auth`: the password hash in PHC format, the lifetime of a session, and the configuration
that `New` and `Reconfigure` accept.  The key derivation is a parameter.
-/

namespace Veduta.Auth

open Go Lib

/-- What the package takes from elsewhere. -/
structure Env where
  /-- `argon2.IDKey`, by password, salt, iterations, memory, parallelism and length. -/
  idKey : Bytes → Bytes → ℕ → ℕ → ℕ → ℕ → Bytes
  /-- The hexadecimal SHA-256 of a token. -/
  tokenHash : Bytes → Bytes
  /-- `strings.ToLower(strings.TrimSpace(username))`. -/
  fold : Bytes → Bytes

/-- Why a call fails; a fault of the store or of the random source is without its text. -/
inductive AuthError where
  | invalidCredentials
  | rateLimited
  | noSession
  | csrf
  | busy
  | config (message : Bytes)
  | storage
  | random
  deriving DecidableEq, Repr

structure ArgonParams where
  memory : ℕ
  iterations : ℕ
  parallelism : ℕ
  salt : Bytes
  hash : Bytes
  deriving DecidableEq, Repr

def parseCost (out : ArgonParams) (field : Bytes) : Except AuthError ArgonParams :=
  let malformed := .error (.config (ascii "auth: malformed Argon2id parameters"))
  let (key, value, found) := cut field (chr '=')
  if !found then malformed
  else
    match parseUint32 value with
    | none => malformed
    | some n =>
      if key = ascii "m" then .ok { out with memory := n }
      else if key = ascii "t" then .ok { out with iterations := n }
      else if key = ascii "p" then
        if n > 255 then .error (.config (ascii "auth: Argon2id parallelism is too large"))
        else .ok { out with parallelism := n }
      else .error (.config (ascii "auth: unknown Argon2id parameter " ++ quote key))

def checkCost (p : ArgonParams) : Except AuthError Unit :=
  if p.memory < 8 * 1024 ∨ p.memory > 256 * 1024 ∨ p.iterations < 1 ∨ p.iterations > 10 ∨
      p.parallelism < 1 ∨ p.parallelism > 16 then
    .error (.config (ascii "auth: Argon2id parameters are outside safe limits"))
  else .ok ()

/-- The salt or the hash, of at least 16 and at most 64 bytes. -/
def parseBlob (message : String) (s : Bytes) : Except AuthError Bytes :=
  match (decodeBase64Strict s).filter fun b => 16 ≤ b.length && b.length ≤ 64 with
  | none => .error (.config (ascii message))
  | some b => .ok b

def parseArgon2ID (encoded : Bytes) : Except AuthError ArgonParams :=
  match encoded.splitOn (chr '$') with
  | [empty, name, version, costs, salt, hash] => do
    if empty ≠ [] ∨ name ≠ ascii "argon2id" ∨ version ≠ ascii "v=19" then notPHC else
    let out ← (costs.splitOn (chr ',')).foldlM parseCost ⟨0, 0, 0, [], []⟩
    checkCost out
    let salt ← parseBlob "auth: invalid Argon2id salt" salt
    let hash ← parseBlob "auth: invalid Argon2id hash" hash
    return { out with salt := salt, hash := hash }
  | _ => notPHC
where
  notPHC : Except AuthError ArgonParams :=
    .error (.config (ascii "auth: passwordHash must be an Argon2id PHC string at version 19"))

def verifyPassword (env : Env) (params : ArgonParams) (password : Bytes) : Bool :=
  env.idKey password params.salt params.iterations params.memory params.parallelism
    params.hash.length = params.hash

/-- `parseTTL`: thirty days by default; a number of days is multiplied with 64 bits. -/
def parseTTL (value : Bytes) : Except AuthError ℤ :=
  let invalid := .error (.config (ascii "auth: invalid sessionTTL"))
  if value = [] then .ok (30 * 24 * hour)
  else if hasSuffix value (ascii "d") then
    match parseUint32 (trimSuffix value (ascii "d")) with
    | none => invalid
    | some days => if days = 0 then invalid else .ok ((days * (24 * hour)).bmod (2 ^ 64))
  else
    match parseDuration value with
    | none => invalid
    | some ttl => if ttl ≤ 0 then invalid else .ok ttl

/-- The configured inputs; the store and the clock belong to the system. -/
structure Config where
  username : Bytes
  passwordHash : Bytes
  resolvedSecrets : GoMap Bytes Bytes
  sessionTTL : Bytes

/-- The name in a text that is one reference to a secret. -/
def secretPlaceholder (s : Bytes) : Option Bytes :=
  let opening := ascii "$\x7bsecret:"
  let name := (s.drop opening.length).dropLast
  if hasPrefix s opening ∧ s.getLast? = some (chr '\x7d') ∧ opening.length < s.length ∧ name ≠ [] ∧
      name.all fun b => isDigit b || 0x41 ≤ b && b ≤ 0x5a || 0x61 ≤ b && b ≤ 0x7a || b = chr '_'
  then some name
  else none

def resolvePasswordHash (configured : Bytes) (resolved : GoMap Bytes Bytes) :
    Except AuthError Bytes :=
  match secretPlaceholder configured with
  | none => .ok configured
  | some name =>
    match resolved.lookup name with
    | none => .error (.config (ascii "auth: configured password hash secret is unresolved"))
    | some value => .ok value

structure User where
  username : Bytes
  passwordHash : Bytes
  deriving DecidableEq, Repr

/-- A username and a password hash, with what the hash parses to. -/
structure Credentials where
  username : Bytes
  passwordHash : Bytes
  params : ArgonParams
  parsed : parseArgon2ID passwordHash = .ok params
  deriving DecidableEq

/-- What the store keeps of them. -/
def Credentials.user (c : Credentials) : User := ⟨c.username, c.passwordHash⟩

theorem Credentials.user_injective : Function.Injective Credentials.user := by
  intro c d h
  obtain ⟨username, hash, params, hparsed⟩ := c
  obtain ⟨username', hash', params', hparsed'⟩ := d
  cases h
  cases Except.ok.inj (hparsed.symm.trans hparsed')
  rfl

def Credentials.parse (username passwordHash : Bytes) : Except AuthError Credentials :=
  match h : parseArgon2ID passwordHash with
  | .error e => .error e
  | .ok params => .ok ⟨username, passwordHash, params, h⟩

structure Accepted where
  credentials : Credentials
  ttl : ℤ
  deriving DecidableEq

/-- What `Reconfigure` accepts. -/
def Config.reconfigured (cfg : Config) : Except AuthError Accepted := do
  let hash ← resolvePasswordHash cfg.passwordHash cfg.resolvedSecrets
  let credentials ← Credentials.parse cfg.username hash
  let ttl ← parseTTL cfg.sessionTTL
  if trimSpace cfg.username = [] then .error (.config (ascii "auth: username is required"))
  else .ok ⟨credentials, ttl⟩

/-- What `New` accepts: the username is looked at before the lifetime. -/
def Config.created (cfg : Config) : Except AuthError Accepted := do
  let hash ← resolvePasswordHash cfg.passwordHash cfg.resolvedSecrets
  let credentials ← Credentials.parse cfg.username hash
  if trimSpace cfg.username = [] then
    .error (.config (ascii "auth: store and username are required"))
  else
    let ttl ← parseTTL cfg.sessionTTL
    .ok ⟨credentials, ttl⟩

end Veduta.Auth
