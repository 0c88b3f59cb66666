import Veduta.Connections.Registry
import Veduta.Go.Duration

/-!
# Building connections

Package `connections`: a registry from the configured connections and the secrets that are
already resolved.  A reference to a secret that is not among them is an error, so that no
connection is built with an empty credential; a connection that is switched off is passed over
before any of its references is looked at.
-/

namespace Veduta.Connections

open Go Lib

open Config (AuthType SecretRef ConnectionAuth HTTPConnection DockerConnection Settings)

inductive BuildError where
  | unresolved (id field name : Bytes)
  | timeout (id : Bytes)
  | baseURL (id : Bytes) (e : URLError)
  | baseURLScheme (id : Bytes)
  | caFile (id : Bytes)
  | noCertificates (id : Bytes)
  | dockerEndpoint (id : Bytes)
  | dockerSocket (id : Bytes)
  | dockerAddress (id : Bytes)
  | dockerScheme (id : Bytes)
  deriving DecidableEq, Repr

def notResolved {α : Type} (id field name : Bytes) : Except BuildError α :=
  .error (.unresolved id field name)

/-- The names of a template are replaced one after the other, each in the text that the one
before left. -/
def compose (id field : Bytes) (resolved : GoMap Bytes Bytes) :
    Bytes → List Bytes → Except BuildError Bytes
  | composed, [] => .ok composed
  | composed, name :: names =>
    match resolved.lookup name with
    | none => notResolved id field name
    | some v =>
      compose id field resolved (replaceFirst composed (SecretRef.placeholder name) v) names

/-- The value of a text that may name secrets. -/
def resolveRef (id field : Bytes) (ref : SecretRef) (resolved : GoMap Bytes Bytes) :
    Except BuildError Bytes :=
  if !ref.isSecret then .ok ref.literal
  else if ref.template ≠ [] then compose id field resolved ref.template ref.names
  else
    match resolved.lookup ref.name with
    | none => notResolved id field ref.name
    | some v => .ok v

/-- The names are all among the secrets that are resolved. -/
def Resolves (resolved : GoMap Bytes Bytes) (names : List Bytes) : Prop :=
  ∀ name ∈ names, (resolved.lookup name).isSome = true

instance (resolved : GoMap Bytes Bytes) (names : List Bytes) :
    Decidable (Resolves resolved names) :=
  inferInstanceAs (Decidable (∀ name ∈ names, (resolved.lookup name).isSome = true))

theorem resolves_append {resolved : GoMap Bytes Bytes} {xs ys : List Bytes} :
    Resolves resolved (xs ++ ys) ↔ Resolves resolved xs ∧ Resolves resolved ys := by
  simp [Resolves, or_imp, forall_and]

theorem isOk_compose_iff {id field composed : Bytes} {resolved : GoMap Bytes Bytes}
    {names : List Bytes} :
    (compose id field resolved composed names).isOk = true ↔ Resolves resolved names := by
  induction names generalizing composed with
  | nil => simp [compose, Resolves]
  | cons name names ih =>
    cases hname : resolved.lookup name with
    | none => simp [compose, hname, notResolved, Resolves]
    | some v =>
      rw [compose, hname]
      simpa [Resolves, hname] using ih

theorem isOk_resolveRef_iff {id field : Bytes} {ref : SecretRef} {resolved : GoMap Bytes Bytes} :
    (resolveRef id field ref resolved).isOk = true ↔ Resolves resolved ref.references := by
  rw [resolveRef, SecretRef.references]
  by_cases hsecret : ref.isSecret = true
  · by_cases htemplate : ref.template = []
    · cases hname : resolved.lookup ref.name <;>
        simp [hsecret, htemplate, Resolves, hname, notResolved]
    · simp [hsecret, htemplate, isOk_compose_iff]
  · simp [hsecret, Resolves]

/-! ## Connections -/

def defaultTimeout : ℤ := 10 * 10 ^ 9

def parseDurationDefault (s : Bytes) (default : ℤ) : Option ℤ :=
  if s = [] then some default else parseDuration s

def buildTimeout (id s : Bytes) : Except BuildError ℤ :=
  match parseDurationDefault s defaultTimeout with
  | none => .error (.timeout id)
  | some d => .ok d

structure DockerConfig where
  endpoint : Bytes
  allowActions : Bool
  timeout : ℤ

/-- The configuration of a connection with its secrets, by its kind. -/
inductive Built where
  | http (cfg : HTTPConfig)
  | docker (cfg : DockerConfig)

def buildAuth (id : Bytes) (cfg : ConnectionAuth) (resolved : GoMap Bytes Bytes) :
    Except BuildError Auth := do
  let value ← resolveRef id (ascii "auth.value") cfg.value resolved
  let pass ← resolveRef id (ascii "auth.password") cfg.password resolved
  pure { type := cfg.type.getD .none, name := cfg.name, value := value, user := cfg.username,
         pass := pass }

def buildHTTPConfig (id : Bytes) (cfg : HTTPConnection) (resolved : GoMap Bytes Bytes) :
    Except BuildError HTTPConfig := do
  let auth ← buildAuth id cfg.auth resolved
  let timeout ← buildTimeout id cfg.timeout
  let headers ← cfg.headers.traverse fun name ref =>
    some <$> resolveRef id (ascii "headers." ++ name) ref resolved
  pure { baseURL := cfg.baseURL, auth := auth, headers := headers, tls := cfg.tls,
         timeout := timeout, maxResponseBytes := cfg.maxResponseBytes,
         maxRedirects := cfg.maxRedirects, allowedPaths := cfg.allowedPaths,
         rateLimit := cfg.rateLimit, concurrency := cfg.concurrency }

def buildDockerConfig (id : Bytes) (cfg : DockerConnection) : Except BuildError DockerConfig := do
  let timeout ← buildTimeout id cfg.timeout
  pure { endpoint := cfg.endpoint, allowActions := cfg.allowActions, timeout := timeout }

def buildConnection (id : Bytes) (cfg : Config.Connection) (resolved : GoMap Bytes Bytes) :
    Except BuildError Built :=
  match cfg.settings with
  | .http h => .http <$> buildHTTPConfig id h resolved
  | .docker d => .docker <$> buildDockerConfig id d

def timeoutText : Settings → Bytes
  | .http h => h.timeout
  | .docker d => d.timeout

/-- The timeout of a connection is absent or a duration. -/
def Timed (s : Settings) : Prop :=
  (parseDurationDefault (timeoutText s) defaultTimeout).isSome = true

instance (s : Settings) : Decidable (Timed s) :=
  inferInstanceAs (Decidable ((parseDurationDefault (timeoutText s) defaultTimeout).isSome = true))

theorem isOk_buildTimeout_iff {id s : Bytes} :
    (buildTimeout id s).isOk = true ↔ (parseDurationDefault s defaultTimeout).isSome = true := by
  rw [buildTimeout]
  cases parseDurationDefault s defaultTimeout <;> simp

section

variable {id : Bytes} {resolved : GoMap Bytes Bytes}

theorem isOk_buildAuth_iff {cfg : ConnectionAuth} :
    (buildAuth id cfg resolved).isOk = true ↔
      Resolves resolved cfg.value.references ∧ Resolves resolved cfg.password.references := by
  rw [buildAuth, isOk_bind_iff_of (P := Resolves resolved cfg.password.references)]
  · rw [isOk_resolveRef_iff]
  · intro value _
    rw [isOk_bind_iff_of (P := True), isOk_resolveRef_iff, and_true]
    intro pass _
    simp [pure, Except.pure]

theorem isOk_headers_iff {headers : GoMap Bytes SecretRef} :
    (headers.traverse fun name ref =>
        some <$> resolveRef id (ascii "headers." ++ name) ref resolved).isOk = true ↔
      Resolves resolved (headers.entries.flatMap fun x => x.2.references) := by
  simp only [GoMap.isOk_traverse_iff, isOk_map, isOk_resolveRef_iff, GoMap.lookup_eq_some_iff]
  constructor
  · intro h name hname
    obtain ⟨x, hx, hmem⟩ := List.mem_flatMap.mp hname
    exact h x.1 x.2 hx name hmem
  · intro h k ref hmem name hname
    exact h name (List.mem_flatMap.mpr ⟨⟨k, ref⟩, hmem, hname⟩)

/-- **A connection can be built when its secrets are resolved and its timeout is a duration.** -/
theorem isOk_buildConnection_iff {cfg : Config.Connection} :
    (buildConnection id cfg resolved).isOk = true ↔
      Resolves resolved cfg.references ∧ Timed cfg.settings := by
  rw [buildConnection, Config.Connection.references, Timed]
  cases cfg.settings with
  | http h =>
    simp only [isOk_map, buildHTTPConfig, timeoutText, resolves_append]
    rw [isOk_bind_iff_of (P := (parseDurationDefault h.timeout defaultTimeout).isSome = true ∧
      Resolves resolved (h.headers.entries.flatMap fun x => x.2.references)),
      isOk_buildAuth_iff]
    · tauto
    · intro auth _
      rw [isOk_bind_iff_of
        (P := Resolves resolved (h.headers.entries.flatMap fun x => x.2.references)),
        isOk_buildTimeout_iff]
      intro timeout _
      rw [isOk_bind_iff_of (P := True), isOk_headers_iff, and_true]
      intro headers _
      simp [pure, Except.pure]
  | docker d =>
    simp only [isOk_map, buildDockerConfig, timeoutText]
    rw [isOk_bind_iff_of (P := True), isOk_buildTimeout_iff]
    · simp [Resolves]
    · intro timeout _
      simp [pure, Except.pure]

end

/-- What clients are built with: the parser of an authority, the files of the machine, and
whether a file has a certificate in it. -/
structure Machine where
  parseAuthority : AuthorityParser
  readFile : Bytes → Option Bytes
  hasCertificate : Bytes → Bool

variable (machine : Machine)

def newHTTPClient (id : Bytes) (cfg : HTTPConfig) : Except BuildError Client :=
  match URL.parseReference machine.parseAuthority cfg.baseURL with
  | .error e => .error (.baseURL id e)
  | .ok base =>
    if base.scheme ≠ ascii "http" ∧ base.scheme ≠ ascii "https" then .error (.baseURLScheme id)
    else if cfg.tls.caFile = [] then .ok { cfg := cfg, base := base }
    else
      match machine.readFile cfg.tls.caFile with
      | none => .error (.caFile id)
      | some pem =>
        if machine.hasCertificate pem then .ok { cfg := cfg, base := base }
        else .error (.noCertificates id)

def newDockerClient (id : Bytes) (cfg : DockerConfig) : Except BuildError DockerClient :=
  match URL.parseReference machine.parseAuthority cfg.endpoint with
  | .error _ => .error (.dockerEndpoint id)
  | .ok endpoint =>
    if endpoint.user.isSome ∨ endpoint.rawQuery ≠ [] ∨ endpoint.fragment ≠ [] then
      .error (.dockerEndpoint id)
    else if endpoint.scheme = ascii "unix" then
      if endpoint.path = [] ∨ endpoint.host ≠ [] then .error (.dockerSocket id)
      else .ok { base := { scheme := ascii "http", host := ascii "docker" },
                 socket := some endpoint.path, timeout := cfg.timeout }
    else if endpoint.scheme = ascii "tcp" then
      if endpoint.host = [] ∨ endpoint.path ≠ [] then .error (.dockerAddress id)
      else .ok { base := { scheme := ascii "http", host := endpoint.host }, socket := none,
                 timeout := cfg.timeout }
    else .error (.dockerScheme id)

inductive Entry where
  | http (c : Client)
  | docker (c : DockerClient)

def Entry.client? : Entry → Option Client
  | .http c => some c
  | .docker _ => none

def Entry.docker? : Entry → Option DockerClient
  | .http _ => none
  | .docker c => some c

def Entry.connection (id : Bytes) (e : Entry) : Connection := ⟨id, e.client?.map Client.cfg⟩

def Registry.ofEntries (m : GoMap Bytes Entry) : Registry where
  connections := m.filterMap fun id e => some (e.connection id)
  clients := m.filterMap fun _ e => e.client?
  docker := m.filterMap fun _ e => e.docker?
  cfg_of_client id c h := by
    rw [GoMap.lookup_filterMap, Option.bind_eq_some_iff] at h
    obtain ⟨e, he, hc⟩ := h
    refine ⟨e.connection id, ?_, ?_⟩
    · rw [GoMap.lookup_filterMap, he]
      rfl
    · simp [Entry.connection, hc]

def newClient (id : Bytes) : Built → Except BuildError Entry
  | .http cfg => .http <$> newHTTPClient machine id cfg
  | .docker cfg => .docker <$> newDockerClient machine id cfg

/-- One turn of the loop of `New`. -/
def newEntry (resolved : GoMap Bytes Bytes) (id : Bytes) (cfg : Config.Connection) :
    Except BuildError (Option Entry) :=
  if !cfg.isEnabled then .ok none
  else do
    let conn ← buildConnection id cfg resolved
    some <$> newClient machine id conn

/-- **`New`.** -/
def new (connections : GoMap Bytes Config.Connection) (resolved : GoMap Bytes Bytes) :
    Except BuildError Registry :=
  .ofEntries <$> connections.traverse (newEntry machine resolved)

/-! ## When a registry is built -/

/-- The address of a connection is one that a client can be built for, and so are the
certificates it is to trust. -/
def Usable : Settings → Prop
  | .http h =>
    (∃ base, URL.parseReference machine.parseAuthority h.baseURL = .ok base ∧
      (base.scheme = ascii "http" ∨ base.scheme = ascii "https")) ∧
    (h.tls.caFile = [] ∨ ∃ pem, machine.readFile h.tls.caFile = some pem ∧
      machine.hasCertificate pem = true)
  | .docker d =>
    ∃ endpoint, URL.parseReference machine.parseAuthority d.endpoint = .ok endpoint ∧
      endpoint.user = none ∧ endpoint.rawQuery = [] ∧ endpoint.fragment = [] ∧
      (endpoint.scheme = ascii "unix" ∧ endpoint.path ≠ [] ∧ endpoint.host = [] ∨
        endpoint.scheme = ascii "tcp" ∧ endpoint.host ≠ [] ∧ endpoint.path = [])

section

variable {machine : Machine} {id : Bytes} {resolved : GoMap Bytes Bytes}

theorem isOk_newHTTPClient_iff {h : HTTPConnection} {cfg : HTTPConfig}
    (hbase : cfg.baseURL = h.baseURL) (htls : cfg.tls = h.tls) :
    (newHTTPClient machine id cfg).isOk = true ↔ Usable machine (.http h) := by
  rw [newHTTPClient, Usable, hbase, htls]
  cases URL.parseReference machine.parseAuthority h.baseURL with
  | error e => simp
  | ok base =>
    by_cases hscheme : base.scheme ≠ ascii "http" ∧ base.scheme ≠ ascii "https"
    · simp [hscheme]
    · have hscheme' : base.scheme = ascii "http" ∨ base.scheme = ascii "https" := by tauto
      by_cases hfile : h.tls.caFile = []
      · simp [hscheme, hscheme', hfile]
      · cases machine.readFile h.tls.caFile with
        | none => simp [hscheme, hscheme', hfile]
        | some pem =>
          cases hcert : machine.hasCertificate pem <;>
            simp [hscheme, hscheme', hfile, hcert]

theorem isOk_newDockerClient_iff {d : DockerConnection} {cfg : DockerConfig}
    (hendpoint : cfg.endpoint = d.endpoint) :
    (newDockerClient machine id cfg).isOk = true ↔ Usable machine (.docker d) := by
  rw [newDockerClient, Usable, hendpoint]
  cases URL.parseReference machine.parseAuthority d.endpoint with
  | error e => simp
  | ok endpoint =>
    have hschemes : ascii "unix" ≠ ascii "tcp" := by decide
    simp only [Except.ok.injEq, exists_eq_left', Option.isSome_iff_ne_none]
    split
    · simp only [isOk_error, Bool.false_eq_true, false_iff]
      grind
    · split
      · split <;> simp only [isOk_ok, isOk_error, Bool.false_eq_true, true_iff, false_iff] <;>
          grind
      · split
        · split <;> simp only [isOk_ok, isOk_error, Bool.false_eq_true, true_iff, false_iff] <;>
            grind
        · simp only [isOk_error, Bool.false_eq_true, false_iff]
          grind

theorem isOk_newEntry_iff {cfg : Config.Connection} :
    (newEntry machine resolved id cfg).isOk = true ↔ (cfg.isEnabled = true →
      Resolves resolved cfg.references ∧ Timed cfg.settings ∧ Usable machine cfg.settings) := by
  rw [newEntry]
  cases hon : cfg.isEnabled with
  | false => simp
  | true =>
    rw [if_neg (by simp), isOk_bind_iff_of (P := Usable machine cfg.settings),
      isOk_buildConnection_iff]
    · simp [and_assoc]
    · intro conn hconn
      rw [isOk_map]
      rw [buildConnection] at hconn
      cases hset : cfg.settings with
      | http h =>
        rw [hset] at hconn
        cases hcfg : buildHTTPConfig id h resolved with
        | error e => simp [hcfg] at hconn
        | ok http =>
          simp only [hcfg, Except.map_ok, Except.ok.injEq] at hconn
          subst hconn
          simp only [buildHTTPConfig, bind_eq_ok_iff] at hcfg
          obtain ⟨auth, -, timeout, -, headers, -, hhttp⟩ := hcfg
          cases hhttp
          simp only [newClient, isOk_map]
          exact isOk_newHTTPClient_iff rfl rfl
      | docker d =>
        rw [hset] at hconn
        cases hcfg : buildDockerConfig id d with
        | error e => simp [hcfg] at hconn
        | ok docker =>
          simp only [hcfg, Except.map_ok, Except.ok.injEq] at hconn
          subst hconn
          simp only [buildDockerConfig, bind_eq_ok_iff] at hcfg
          obtain ⟨timeout, -, hdocker⟩ := hcfg
          cases hdocker
          simp only [newClient, isOk_map]
          exact isOk_newDockerClient_iff rfl

/-- **A registry is built when every connection that is switched on can be.** -/
theorem isOk_new_iff {connections : GoMap Bytes Config.Connection} :
    (new machine connections resolved).isOk = true ↔
      ∀ id cfg, connections.lookup id = some cfg → cfg.isEnabled = true →
        Resolves resolved cfg.references ∧ Timed cfg.settings ∧ Usable machine cfg.settings := by
  simp only [new, isOk_map, GoMap.isOk_traverse_iff, isOk_newEntry_iff]

end

end Veduta.Connections
