import Veduta.Connections.Build
import Veduta.Go.Fmt

/-!
# Fingerprints of connections

Package `connections`, `MaterialHMACs`, and the stage of `buildRuntime` that builds the
connections: a registry, and a fingerprint of each connection under the key of the instance.
The registry passes over a connection that is switched off; the fingerprints do not, and to
take one is to build the connection.
-/

namespace Veduta.Connections

open Go Lib

open Config (AuthType SecretRef)

def authTypeText : AuthType → Bytes
  | .none => ascii "none"
  | .header => ascii "header"
  | .query => ascii "query"
  | .bearer => ascii "bearer"
  | .basic => ascii "basic"

/-- A value after its length in eight bytes. -/
def writeValue (value : Bytes) : Bytes :=
  (List.range 8).map (fun i => UInt8.ofNat (value.length / 256 ^ (7 - i) % 256)) ++ value

def writeMaterial (values : List Bytes) : Bytes := values.flatMap writeValue

/-- What is hashed for an HTTP connection, after its id and kind. -/
def httpMaterial (h : HTTPConfig) : List Bytes :=
  [h.baseURL, authTypeText h.auth.type, h.auth.name, h.auth.value, h.auth.user, h.auth.pass,
    h.tls.caFile, h.tls.serverName, sprintBool h.tls.insecureSkipVerify,
    durationString h.timeout, formatInt h.maxResponseBytes, formatInt h.maxRedirects,
    sprintFloat h.rateLimit.rps, formatInt h.rateLimit.burst, formatInt h.concurrency] ++
  (h.headers.keys.insertionSort (· ≤ ·)).flatMap (fun k => [k, h.headers.get [] k]) ++
  h.allowedPaths.insertionSort (· ≤ ·)

def dockerMaterial (d : DockerConfig) : List Bytes :=
  [d.endpoint, sprintBool d.allowActions, durationString d.timeout]

def material (id : Bytes) : Built → Bytes
  | .http h => writeMaterial (id :: ascii "http" :: httpMaterial h)
  | .docker d => writeMaterial (id :: ascii "docker" :: dockerMaterial d)

section

variable (hmac : Bytes → Bytes → Bytes)

/-- **`MaterialHMACs`.** -/
def materialHMACs (configs : GoMap Bytes Config.Connection) (resolved : GoMap Bytes Bytes)
    (key : Bytes) : Except BuildError (GoMap Bytes Bytes) :=
  configs.traverse fun id cfg =>
    (fun conn => some (hmac key (material id conn))) <$> buildConnection id cfg resolved

variable (machine : Machine)

/-- The registry and the fingerprints, as `buildRuntime` asks for them. -/
def connectionStage (connections : GoMap Bytes Config.Connection)
    (resolved : GoMap Bytes Bytes) (key : Bytes) :
    Except BuildError (Registry × GoMap Bytes Bytes) := do
  let registry ← new machine connections resolved
  let fingerprints ← materialHMACs hmac connections resolved key
  pure (registry, fingerprints)

end

variable {hmac : Bytes → Bytes → Bytes} {machine : Machine}
variable {connections : GoMap Bytes Config.Connection} {resolved : GoMap Bytes Bytes} {key : Bytes}
variable {id : Bytes} {cfg : Config.Connection}

theorem isOk_materialHMACs_iff :
    (materialHMACs hmac connections resolved key).isOk = true ↔
      ∀ id cfg, connections.lookup id = some cfg →
        Resolves resolved cfg.references ∧ Timed cfg.settings := by
  simp only [materialHMACs, GoMap.isOk_traverse_iff, isOk_map, isOk_buildConnection_iff]

/-- **The stage looks up the secrets of the connections that are switched off.**  All that is
needed of the others holds, and so do the settings that are no secrets. -/
theorem isOk_connectionStage_iff
    (hresolved : ∀ id cfg, connections.lookup id = some cfg → cfg.isEnabled = true →
      Resolves resolved cfg.references)
    (hvalid : ∀ id cfg, connections.lookup id = some cfg →
      Timed cfg.settings ∧ (cfg.isEnabled = true → Usable machine cfg.settings)) :
    (connectionStage hmac machine connections resolved key).isOk = true ↔
      ∀ id cfg, connections.lookup id = some cfg → cfg.isEnabled = false →
        Resolves resolved cfg.references := by
  have hnew : (new machine connections resolved).isOk = true := by
    rw [isOk_new_iff]
    intro id cfg hcfg hon
    exact ⟨hresolved id cfg hcfg hon, (hvalid id cfg hcfg).1, (hvalid id cfg hcfg).2 hon⟩
  have hstage : (connectionStage hmac machine connections resolved key).isOk = true ↔
      (materialHMACs hmac connections resolved key).isOk = true := by
    rw [connectionStage,
      isOk_bind_iff_of (P := (materialHMACs hmac connections resolved key).isOk = true)]
    · simp [hnew]
    · intro registry _
      rw [isOk_bind_iff_of (P := True), and_true]
      intro fingerprints _
      simp [pure, Except.pure]
  rw [hstage, isOk_materialHMACs_iff]
  constructor
  · intro h id cfg hcfg _
    exact (h id cfg hcfg).1
  · intro h id cfg hcfg
    refine ⟨?_, (hvalid id cfg hcfg).1⟩
    cases hon : cfg.isEnabled with
    | true => exact hresolved id cfg hcfg hon
    | false => exact h id cfg hcfg hon

/-- A machine without files, on which a host is whatever stands in its place. -/
def plainMachine : Machine where
  parseAuthority host := .ok (none, host)
  readFile _ := none
  hasCertificate _ := false

/-- A connection with a bearer token. -/
def bearerConnection (enabled : Bool) (secret : Bytes) : Config.Connection where
  enabled := some enabled
  settings := .http
    { baseURL := ascii "http://service.example.test"
      auth := { type := some .bearer, value := .ofScalar (SecretRef.placeholder secret) } }

theorem usable_bearerConnection (enabled : Bool) (secret : Bytes) :
    Usable plainMachine (bearerConnection enabled secret).settings := by
  refine ⟨⟨{ scheme := ascii "http", host := ascii "service.example.test" }, ?_, .inl rfl⟩, .inl rfl⟩
  change URL.parseReference plainMachine.parseAuthority (ascii "http://service.example.test") = _
  decide +kernel

theorem timed_bearerConnection (enabled : Bool) (secret : Bytes) :
    Timed (bearerConnection enabled secret).settings :=
  rfl

/-- One connection that is switched on, and one that is not. -/
def reviewedConnections : GoMap Bytes Config.Connection :=
  GoMap.ofList [(ascii "live", bearerConnection true (ascii "TOKEN")),
    (ascii "imported", bearerConnection false (ascii "NOT_SET_UNTIL_REVIEWED"))]

def tokenOnly : GoMap Bytes Bytes := GoMap.ofList [(ascii "TOKEN", ascii "t0k3n")]

theorem mem_reviewedConnections (h : reviewedConnections.lookup id = some cfg) :
    cfg = bearerConnection true (ascii "TOKEN") ∨
      cfg = bearerConnection false (ascii "NOT_SET_UNTIL_REVIEWED") := by
  have hmem := GoMap.mem_of_lookup_ofList h
  simp only [List.mem_cons, Prod.mk.injEq, List.not_mem_nil, or_false] at hmem
  exact hmem.imp And.right And.right

theorem resolves_reviewedConnections (h : reviewedConnections.lookup id = some cfg)
    (hon : cfg.isEnabled = true) : Resolves tokenOnly cfg.references := by
  rcases mem_reviewedConnections h with rfl | rfl
  · decide +kernel
  · cases hon

theorem valid_reviewedConnections (h : reviewedConnections.lookup id = some cfg) :
    Timed cfg.settings ∧ (cfg.isEnabled = true → Usable plainMachine cfg.settings) := by
  rcases mem_reviewedConnections h with rfl | rfl
  · exact ⟨timed_bearerConnection _ _, fun _ => usable_bearerConnection _ _⟩
  · exact ⟨timed_bearerConnection _ _, fun _ => usable_bearerConnection _ _⟩

/-- The registry is built without the connection that is switched off; the fingerprints are not
taken, for want of its secret. -/
theorem disabled_secret_required :
    (∀ id cfg, reviewedConnections.lookup id = some cfg → cfg.isEnabled = true →
      Resolves tokenOnly cfg.references) ∧
    (∀ id cfg, reviewedConnections.lookup id = some cfg →
      Timed cfg.settings ∧ (cfg.isEnabled = true → Usable plainMachine cfg.settings)) ∧
    (new plainMachine reviewedConnections tokenOnly).isOk = true ∧
    (connectionStage (fun _ text => text) plainMachine reviewedConnections tokenOnly []).isOk =
      false := by
  refine ⟨fun _ _ => resolves_reviewedConnections, fun _ _ => valid_reviewedConnections, ?_, ?_⟩
  · decide +kernel
  · decide +kernel

theorem isOk_connectionStage_iff_reviewed :
    (connectionStage (fun _ text => text) plainMachine reviewedConnections tokenOnly []).isOk =
        true ↔
      ∀ id cfg, reviewedConnections.lookup id = some cfg → cfg.isEnabled = false →
        Resolves tokenOnly cfg.references :=
  isOk_connectionStage_iff (fun _ _ => resolves_reviewedConnections)
    (fun _ _ => valid_reviewedConnections)

end Veduta.Connections
