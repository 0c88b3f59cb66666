import Veduta.App.Assets
import Veduta.Go.Duration
import Veduta.Manifestload.HttpJson
import Veduta.Scheduler.Manager
import Veduta.Storage.DefinitionHash

/-!
# Building a generation

Package `app`: every card of the configuration becomes a definition that the scheduler runs,
or one that says why it is disabled.  Cards whose definitions have one key share a flight: a
document that one of them asked for is handed to the other.

The key is a hash of the manifest's digest, the operation, the slots, the revisions and the
parameters.  Three things that a run depends on are not in it: the view of an http-json card,
what such a card reads from its parameters as strings, and the approval of a plugin.
-/

namespace Veduta.App

open Go Lib Config Storage Connections
open Manifestload (HTTPJSONCard Template httpJSONDigest synthesizeHTTPJSON)
open Scheduler (Definition)

/-- A signal that an operation declares. -/
structure SignalDecl where
  name : Bytes
  type : Bytes
  history : Bool

structure Operation extends Integrations.OperationDef where
  signals : List SignalDecl

/-- A manifest that was loaded: its digest is a sum in hexadecimal, and the schema keeps the
ids of its operations in ASCII. -/
structure Plugin where
  id : Bytes
  version : Bytes
  digest : Bytes
  runtime : Bytes
  operations : List Operation
  digest_length : digest.length = 64
  digest_hex : digest.all isHex = true
  ids_valid : ∀ o ∈ operations, validString o.id = true

/-- What the grant is built from. -/
def Plugin.manifest (p : Plugin) : Manifest where
  id := p.id
  version := p.version
  digest := p.digest
  operations := p.operations.map Operation.toOperationDef

inductive FileError where
  | missing
  | invalid

/-- What a generation is built from.  The runtimes and the parser of expressions are given by
what they accept. -/
structure Inputs where
  snap : Snapshot
  files : Bytes → Except FileError Plugin
  lock : GoMap Bytes LoadedEntry
  reg : Registry
  revisions : GoMap Bytes Bytes
  generation : ℕ
  sum256 : Bytes → Bytes
  compileView : GoMap Bytes AnyVal → Option (Template × ℕ)
  loadsView : Manifestload.Manifest → Template → Bool
  loads : Plugin → LoadedEntry → Bool

/-! ## The definition of a card -/

/-- What the function of a definition runs. -/
inductive Runs where
  | docker (connectionID : Bytes)
  | httpJSON (slot connectionID : Bytes) (card : HTTPJSONCard) (params : Bytes)
  | plugin (plugin : Plugin) (entry : LoadedEntry) (operation params : Bytes)

inductive BuildError where
  | marshal
  | load

/-- `stringParam`: what is not a string is empty. -/
def stringParam (params : GoMap Bytes AnyVal) (k : Bytes) : Bytes :=
  match params.lookup k with
  | some (.str s) => s
  | _ => []

/-- `stringMapParam`: what is not a string is left out. -/
def stringMapParam (params : GoMap Bytes AnyVal) (k : Bytes) : GoMap Bytes Bytes :=
  match params.lookup k with
  | some (.obj members) =>
    .ofList (members.filterMap fun x =>
      match x.2 with
      | .str s => some (x.1, s)
      | _ => none)
  | _ => ∅

/-- The first slot in the order of names, with its connection. -/
def firstSlot (slots : GoMap Bytes Bytes) : Bytes × Bytes :=
  (sortedEntries slots).headD (ascii "server", [])

def httpJSONCard (card : Config.Card) : HTTPJSONCard where
  path := stringParam card.params (ascii "path")
  method := stringParam card.params (ascii "method")
  query := stringMapParam card.params (ascii "query")
  view := card.view

/-- `parseDuration`, with a default for what is malformed or not positive. -/
def durationOr (text : Bytes) (default : ℤ) : ℤ :=
  match parseDuration text with
  | some d => if d ≤ 0 then default else d
  | none => default

/-- The text that the key of a flight is the hash of. -/
def keyText (digest op : Bytes) (slots revisions : GoMap Bytes Bytes) (params : Bytes) : Bytes :=
  structText
    [(ascii "Digest", quoteJson digest), (ascii "Operation", quoteJson op),
      (ascii "Slots", stringMapText (sortedEntries slots)),
      (ascii "Revisions", stringMapText (sortedEntries revisions)), (ascii "Params", params)]

/-- **The key of a flight.** -/
def definitionKey (sum256 : Bytes → Bytes) (digest op : Bytes)
    (slots revisions : GoMap Bytes Bytes) (params : GoMap Bytes AnyVal) : Bytes :=
  match marshalParams params with
  | some text => definitionHash sum256 (keyText digest op slots revisions text)
  | none => digest ++ ascii ":" ++ op

section

variable (i : Inputs) (card : Config.Card)

/-- The part that every card has; `params` is the text of its parameters. -/
def baseDefinition (params : Bytes) : Definition Runs where
  id := card.id
  hash := definitionHash i.sum256 (structText
    [(ascii "Integration", quoteJson card.integration),
      (ascii "Operation", quoteJson card.operation),
      (ascii "Slots", stringMapText (sortedEntries card.slots)), (ascii "Params", params)])
  key := []
  manifestDigest := []
  approvalRevision := []
  slotRevisions := stringMapText (sortedEntries (revisionsFor card.slots i.revisions))
  refresh := durationOr card.refresh (60 * second)
  timeout := 10 * second
  source := ⟨card.integration, [], [], card.operation, some card.slots⟩
  run := none
  disabled := []
  historySignals := ∅
  generation := 0

def cardKey (digest : Bytes) : Bytes :=
  definitionKey i.sum256 digest card.operation card.slots (revisionsFor card.slots i.revisions)
    card.params

def disable (d : Definition Runs) (reason : Bytes) : Definition Runs :=
  { d with disabled := reason }

def dockerDigest : Bytes := ascii "docker-builtin-v1"

/-- A card of the builtin integration `docker`. -/
def buildDocker (d : Definition Runs) : Definition Runs :=
  match i.snap.integrationsByID.lookup (ascii "docker"), card.slots.lookup (ascii "server") with
  | some declared, some connectionID =>
    if declared.source ≠ ascii "builtin" ∨ card.operation ≠ ascii "containers" ∨
        (i.reg.connections.lookup connectionID).any (fun c => c.http.isNone) = false then
      disable d (ascii "config-error")
    else
      { d with
        source := { d.source with runtime := ascii "builtin", integrationVersion := ascii "1.0.0" }
        manifestDigest := dockerDigest
        key := cardKey i card dockerDigest
        run := some (.docker connectionID) }
  | _, _ => disable d (ascii "config-error")

/-- A card of the builtin integration `http-json`. -/
def buildHTTPJSON (d : Definition Runs) (params : Bytes) : Except BuildError (Definition Runs) :=
  let slot := firstSlot card.slots
  match synthesizeHTTPJSON i.compileView slot.1 (httpJSONCard card) with
  | .error _ => .ok (disable d (ascii "config-error"))
  | .ok (m, output) =>
    if !i.loadsView m output then .error .load
    else
      .ok { d with
        source := { d.source with runtime := ascii "builtin", integrationVersion := ascii "1.0.0" }
        manifestDigest := httpJSONDigest
        key := cardKey i card httpJSONDigest
        run := some (.httpJSON slot.1 slot.2 (httpJSONCard card) params) }

def historicalSignals (signals : List SignalDecl) : GoMap Bytes Unit :=
  .ofList ((signals.filter fun s => s.history && s.type == ascii "number").map
    fun s => (s.name, ()))

/-- The manifest in the directory of an integration that is enabled. -/
def resolvePlugin : Except Bytes Plugin :=
  match i.snap.integrationsByID.lookup card.integration with
  | none => .error (ascii "integration-missing")
  | some declared =>
    if !declared.isEnabled then .error (ascii "integration-missing")
    else
      match resolveSource declared.source with
      | some (.dir path) =>
        match i.files path with
        | .error .missing => .error (ascii "integration-missing")
        | .error .invalid => .error (ascii "config-error")
        | .ok p => .ok p
      | _ => .error (ascii "integration-missing")

def buildPlugin (d : Definition Runs) (params : Bytes) : Except BuildError (Definition Runs) :=
  match resolvePlugin i card with
  | .error reason => .ok (disable d reason)
  | .ok p =>
    match p.operations.find? fun o => o.id == card.operation with
    | none => .ok (disable d (ascii "config-error"))
    | some op =>
      let d := { d with historySignals := historicalSignals op.signals }
      match i.lock.lookup card.integration with
      | none => .ok (disable d (ascii "unapproved"))
      | some entry =>
        if entry.manifestSHA256 ≠ p.digest then .ok (disable d (ascii "permissions-changed"))
        else
          let d := { d with
            approvalRevision := definitionHash i.sum256 (marshalDoc entry.toLockEntry.encode) }
          if p.runtime ≠ ascii "declarative" ∧ p.runtime ≠ ascii "wasm" then
            .ok (disable d (ascii "config-error"))
          else if !i.loads p entry then .error .load
          else
            .ok { d with
              source := { d.source with runtime := p.runtime, integrationVersion := p.version }
              manifestDigest := p.digest
              key := cardKey i card p.digest
              timeout := entry.effectiveLimits.field .timeoutMs * 1000000
              run := some (.plugin p entry card.operation params) }

/-- **The definition of one card.** -/
def buildCard : Except BuildError (Definition Runs) :=
  match marshalParams card.params with
  | none => .error .marshal
  | some params =>
    let d := baseDefinition i card params
    if card.integration = ascii "docker" then .ok (buildDocker i card d)
    else if card.integration = ascii "http-json" then buildHTTPJSON i card d params
    else buildPlugin i card d params

end

def buildDefinitions (i : Inputs) : Except BuildError (List (Definition Runs)) :=
  i.snap.cards.mapM (buildCard i)

/-! ## What a card runs -/

/-- Two http-json cards read the same request and carry the same view. -/
structure SameRequest (c₁ c₂ : HTTPJSONCard) : Prop where
  path : c₁.path = c₂.path
  method : c₁.method = c₂.method
  query : SameMap c₁.query c₂.query
  view : c₁.view = c₂.view

/-- Two approvals allow the same; when and by whom they were given is not compared. -/
structure SameTerms (e₁ e₂ : LoadedEntry) : Prop where
  module : e₁.moduleSHA256 = e₂.moduleSHA256
  capabilities : e₁.capabilities = e₂.capabilities
  routes : e₁.routes = e₂.routes
  effectiveLimits : e₁.effectiveLimits = e₂.effectiveLimits

/-- Two runs do the same with the same parameters. -/
def SameRun : Runs → Runs → Prop
  | .docker id₁, .docker id₂ => id₁ = id₂
  | .httpJSON slot₁ id₁ c₁ params₁, .httpJSON slot₂ id₂ c₂ params₂ =>
    slot₁ = slot₂ ∧ id₁ = id₂ ∧ SameRequest c₁ c₂ ∧ params₁ = params₂
  | .plugin p₁ e₁ op₁ params₁, .plugin p₂ e₂ op₂ params₂ =>
    p₁ = p₂ ∧ SameTerms e₁ e₂ ∧ op₁ = op₂ ∧ params₁ = params₂
  | _, _ => False

/-- **Two definitions run the same thing** on the same connections at the same revisions. -/
structure SameWork (d₁ d₂ : Definition Runs) : Prop where
  run : ∀ r₁ r₂, d₁.run = some r₁ → d₂.run = some r₂ → SameRun r₁ r₂
  slots : ∀ m₁ m₂, d₁.source.slots = some m₁ → d₂.source.slots = some m₂ → SameMap m₁ m₂
  revisions : d₁.slotRevisions = d₂.slotRevisions

/-- The manifest and the approval of a card of a plugin. -/
structure Resolves (i : Inputs) (card : Config.Card) (p : Plugin) (e : LoadedEntry) : Prop where
  not_docker : card.integration ≠ ascii "docker"
  not_httpJSON : card.integration ≠ ascii "http-json"
  manifest : resolvePlugin i card = .ok p
  approval : i.lock.lookup card.integration = some e

/-- **Two cards agree on what the key leaves out**: the bytes of slots that are not UTF-8, the
request and the view of an http-json card, and what stands behind the digest of a plugin. -/
structure SameBeyondKey (i : Inputs) (c₁ c₂ : Config.Card) : Prop where
  slots : (ValidStrings c₁.slots ∧ ValidStrings c₂.slots) ∨ SameMap c₁.slots c₂.slots
  httpJSON : c₁.integration = ascii "http-json" → c₂.integration = ascii "http-json" →
    SameRequest (httpJSONCard c₁) (httpJSONCard c₂)
  plugin : ∀ p₁ p₂ e₁ e₂, Resolves i c₁ p₁ e₁ → Resolves i c₂ p₂ e₂ → p₁.digest = p₂.digest →
    p₁ = p₂ ∧ SameTerms e₁ e₂

/-- The three kinds of cards that run, each with the digest in its key. -/
inductive Enabled (i : Inputs) (card : Config.Card) (params : Bytes) : Bytes → Runs → Prop
  | docker {connectionID : Bytes} (hkind : card.integration = ascii "docker")
      (hslot : card.slots.lookup (ascii "server") = some connectionID) :
      Enabled i card params dockerDigest (.docker connectionID)
  | httpJSON (hkind : card.integration = ascii "http-json") :
      Enabled i card params httpJSONDigest
        (.httpJSON (firstSlot card.slots).1 (firstSlot card.slots).2 (httpJSONCard card) params)
  | plugin {p : Plugin} {e : LoadedEntry} (hkind : Resolves i card p e)
      (hop : validString card.operation = true) :
      Enabled i card params p.digest (.plugin p e card.operation params)

section

variable {i : Inputs} {card : Config.Card} {d : Definition Runs} {params : Bytes} {r : Runs}

/-- What the definition of an enabled card says. -/
structure Built (i : Inputs) (card : Config.Card) (d : Definition Runs) (r : Runs) : Prop where
  slots : d.source.slots = some card.slots
  revisions : d.slotRevisions = stringMapText (sortedEntries (revisionsFor card.slots i.revisions))
  run : ∃ params digest, marshalParams card.params = some params ∧
    Enabled i card params digest r ∧ d.key = cardKey i card digest

theorem built_docker (hp : marshalParams card.params = some params)
    (hkind : card.integration = ascii "docker")
    (h : (buildDocker i card (baseDefinition i card params)).run = some r) :
    Built i card (buildDocker i card (baseDefinition i card params)) r := by
  revert h
  rw [buildDocker]
  split
  · rename_i declared connectionID _ hslot
    split_ifs
    · intro h
      cases h
    · intro h
      cases h
      exact ⟨rfl, rfl, params, dockerDigest, hp, .docker hkind hslot, rfl⟩
  · intro h
    cases h

theorem built_httpJSON (hp : marshalParams card.params = some params)
    (hkind : card.integration = ascii "http-json")
    (h : buildHTTPJSON i card (baseDefinition i card params) params = .ok d)
    (hr : d.run = some r) : Built i card d r := by
  unfold buildHTTPJSON at h
  dsimp only at h
  split at h
  · cases h
    cases hr
  · split_ifs at h
    cases h
    cases hr
    exact ⟨rfl, rfl, params, httpJSONDigest, hp, .httpJSON hkind, rfl⟩

theorem built_plugin (hp : marshalParams card.params = some params)
    (hdocker : card.integration ≠ ascii "docker")
    (hhttp : card.integration ≠ ascii "http-json")
    (h : buildPlugin i card (baseDefinition i card params) params = .ok d)
    (hr : d.run = some r) : Built i card d r := by
  unfold buildPlugin at h
  dsimp only at h
  split at h
  · cases h
    cases hr
  · rename_i p hresolve
    split at h
    · cases h
      cases hr
    · rename_i op hfind
      split at h
      · cases h
        cases hr
      · rename_i entry hentry
        split_ifs at h
        · cases h
          cases hr
        · cases h
          cases hr
        · cases h
          cases hr
          have hid : op.id = card.operation := by simpa using List.find?_some hfind
          have hvalid := p.ids_valid op (List.mem_of_find?_eq_some hfind)
          rw [hid] at hvalid
          exact ⟨rfl, rfl, params, p.digest, hp,
            .plugin ⟨hdocker, hhttp, hresolve, hentry⟩ hvalid, rfl⟩

/-- **A card that runs is of one of the three kinds.** -/
theorem built_of_buildCard (h : buildCard i card = .ok d) (hr : d.run = some r) :
    Built i card d r := by
  unfold buildCard at h
  split at h
  · cases h
  · rename_i params hp
    dsimp only at h
    split_ifs at h with hdocker hhttp
    · cases h
      exact built_docker hp hdocker hr
    · exact built_httpJSON hp hhttp h hr
    · exact built_plugin hp hdocker hhttp h hr

end

/-! ## What the key determines -/

section

variable {digest₁ digest₂ op₁ op₂ params₁ params₂ : Bytes}
  {slots₁ slots₂ revisions₁ revisions₂ : GoMap Bytes Bytes}

/-- What two texts of a key have in common when they are equal. -/
structure SameKeyText (digest₁ digest₂ op₁ op₂ params₁ params₂ : Bytes)
    (slots₁ slots₂ revisions₁ revisions₂ : GoMap Bytes Bytes) : Prop where
  digest : jsonChars digest₁ = jsonChars digest₂
  operation : jsonChars op₁ = jsonChars op₂
  slots : (sortedEntries slots₁).map (Prod.map jsonChars jsonChars) =
    (sortedEntries slots₂).map (Prod.map jsonChars jsonChars)
  revisions : stringMapText (sortedEntries revisions₁) = stringMapText (sortedEntries revisions₂)
  params : params₁ = params₂

/-- **The text of a key is read back**, field by field. -/
theorem sameKeyText_of_eq
    (h : keyText digest₁ op₁ slots₁ revisions₁ params₁ =
      keyText digest₂ op₂ slots₂ revisions₂ params₂) :
    SameKeyText digest₁ digest₂ op₁ op₂ params₁ params₂ slots₁ slots₂ revisions₁ revisions₂ := by
  simp only [keyText, structText, List.map_cons, List.map_nil, commas, List.cons_append,
    List.append_assoc, List.cons.injEq, true_and, List.append_cancel_left_eq] at h
  obtain ⟨hdigest, h⟩ := read_quoteJson h
  simp only [List.cons.injEq, true_and, List.append_cancel_left_eq] at h
  obtain ⟨hop, h⟩ := read_quoteJson h
  simp only [List.cons.injEq, true_and, List.append_cancel_left_eq] at h
  obtain ⟨hslots, h⟩ := read_stringMapText h
  simp only [List.cons.injEq, true_and, List.append_cancel_left_eq] at h
  obtain ⟨-, hrest⟩ := read_stringMapText h
  have hrevisions := h
  rw [hrest] at hrevisions
  simp only [List.cons.injEq, true_and, List.append_cancel_left_eq] at hrest
  exact ⟨hdigest, hop, hslots, List.append_cancel_right hrevisions, List.append_cancel_right hrest⟩

end

section

variable {i : Inputs} {c₁ c₂ : Config.Card} {d₁ d₂ : Definition Runs} {params₁ params₂ : Bytes}
  {digest₁ digest₂ : Bytes} {r₁ r₂ : Runs}

/-- Equal keys have equal texts, if the sum has no collisions. -/
theorem sameKeyText_of_cardKey_eq (hinj : Function.Injective i.sum256)
    (hp₁ : marshalParams c₁.params = some params₁) (hp₂ : marshalParams c₂.params = some params₂)
    (h : cardKey i c₁ digest₁ = cardKey i c₂ digest₂) :
    SameKeyText digest₁ digest₂ c₁.operation c₂.operation params₁ params₂ c₁.slots c₂.slots
      (revisionsFor c₁.slots i.revisions) (revisionsFor c₂.slots i.revisions) := by
  simp only [cardKey, definitionKey, hp₁, hp₂, definitionHash] at h
  exact sameKeyText_of_eq (hinj (hexString_injective h))

theorem Enabled.validString_digest (h : Enabled i c₁ params₁ digest₁ r₁) :
    validString digest₁ = true := by
  have hhex : ∀ b : UInt8, isHex b = true → b < 0x80 := by decide +kernel
  cases h with
  | docker | httpJSON => exact validString_of_lt (by decide +kernel)
  | @plugin p _ _ _ =>
    exact validString_of_lt fun b hb => hhex b (List.all_eq_true.mp p.digest_hex b hb)

theorem sameRun_of_sameBeyondKey (h₁ : Enabled i c₁ params₁ digest₁ r₁)
    (h₂ : Enabled i c₂ params₂ digest₂ r₂) (hdigest : digest₁ = digest₂)
    (hop : jsonChars c₁.operation = jsonChars c₂.operation) (hparams : params₁ = params₂)
    (hslots : SameMap c₁.slots c₂.slots) (h : SameBeyondKey i c₁ c₂) : SameRun r₁ r₂ := by
  have hfirst : firstSlot c₁.slots = firstSlot c₂.slots := by
    rw [firstSlot, firstSlot, sortedEntries_congr hslots]
  have hlength := congrArg List.length hdigest
  -- the digests of the three kinds have different lengths
  cases h₁ with
  | docker hkind₁ hslot₁ =>
    cases h₂ with
    | docker hkind₂ hslot₂ =>
      rw [hslots, hslot₂] at hslot₁
      exact (Option.some.inj hslot₁).symm
    | httpJSON => exact absurd hlength (by decide)
    | @plugin p => exact absurd (hlength.trans p.digest_length) (by decide)
  | httpJSON hkind₁ =>
    cases h₂ with
    | docker => exact absurd hlength (by decide)
    | httpJSON hkind₂ =>
      exact ⟨congrArg Prod.fst hfirst, congrArg Prod.snd hfirst, h.httpJSON hkind₁ hkind₂,
        hparams⟩
    | @plugin p => exact absurd (hlength.trans p.digest_length) (by decide)
  | @plugin p₁ e₁ hkind₁ hop₁ =>
    cases h₂ with
    | docker | httpJSON => exact absurd (hlength.symm.trans p₁.digest_length) (by decide)
    | @plugin p₂ e₂ hkind₂ hop₂ =>
      have hsame := h.plugin p₁ p₂ e₁ e₂ hkind₁ hkind₂ hdigest
      exact ⟨hsame.1, hsame.2, eq_of_jsonChars_eq hop₁ hop₂ hop, hparams⟩

theorem Enabled.eq_httpJSON (h : Enabled i c₁ params₁ digest₁ r₁)
    (hkind : c₁.integration = ascii "http-json") :
    r₁ = .httpJSON (firstSlot c₁.slots).1 (firstSlot c₁.slots).2 (httpJSONCard c₁) params₁ := by
  cases h with
  | docker hdocker => exact absurd (hdocker.symm.trans hkind) (by decide)
  | httpJSON => rfl
  | plugin hplugin => exact absurd hkind hplugin.not_httpJSON

theorem Enabled.eq_plugin (h : Enabled i c₁ params₁ digest₁ r₁) {p : Plugin} {e : LoadedEntry}
    (hkind : Resolves i c₁ p e) : r₁ = .plugin p e c₁.operation params₁ := by
  cases h with
  | docker hdocker => exact absurd hdocker hkind.not_docker
  | httpJSON hhttp => exact absurd hhttp hkind.not_httpJSON
  | plugin hplugin =>
    cases hplugin.manifest.symm.trans hkind.manifest
    cases hplugin.approval.symm.trans hkind.approval
    rfl

/-- **Cards with one key run the same thing exactly when they agree on what the key leaves
out**, if the sum has no collisions. -/
theorem sameWork_iff (hinj : Function.Injective i.sum256) (hb₁ : buildCard i c₁ = .ok d₁)
    (hb₂ : buildCard i c₂ = .ok d₂) (hr₁ : d₁.run = some r₁) (hr₂ : d₂.run = some r₂)
    (hkey : d₁.key = d₂.key) : SameWork d₁ d₂ ↔ SameBeyondKey i c₁ c₂ := by
  have hbuilt₁ := built_of_buildCard hb₁ hr₁
  have hbuilt₂ := built_of_buildCard hb₂ hr₂
  obtain ⟨params₁, digest₁, hp₁, hrun₁, hkey₁⟩ := hbuilt₁.run
  obtain ⟨params₂, digest₂, hp₂, hrun₂, hkey₂⟩ := hbuilt₂.run
  rw [hkey₁, hkey₂] at hkey
  have htext := sameKeyText_of_cardKey_eq hinj hp₁ hp₂ hkey
  constructor
  · intro h
    have hrun := h.run r₁ r₂ hr₁ hr₂
    refine ⟨.inr (h.slots _ _ hbuilt₁.slots hbuilt₂.slots), ?_, ?_⟩
    · intro hkind₁ hkind₂
      rw [hrun₁.eq_httpJSON hkind₁, hrun₂.eq_httpJSON hkind₂] at hrun
      exact hrun.2.2.1
    · intro p₁ p₂ e₁ e₂ hkind₁ hkind₂ _
      rw [hrun₁.eq_plugin hkind₁, hrun₂.eq_plugin hkind₂] at hrun
      exact ⟨hrun.1, hrun.2.1⟩
  · intro h
    have hdigest : digest₁ = digest₂ :=
      eq_of_jsonChars_eq hrun₁.validString_digest hrun₂.validString_digest htext.digest
    have hslots : SameMap c₁.slots c₂.slots := by
      rcases h.slots with hvalid | hsame
      · exact sameMap_of_jsonChars_eq hvalid.1 hvalid.2 htext.slots
      · exact hsame
    refine ⟨?_, ?_, ?_⟩
    · intro s₁ s₂ hs₁ hs₂
      cases hr₁.symm.trans hs₁
      cases hr₂.symm.trans hs₂
      exact sameRun_of_sameBeyondKey hrun₁ hrun₂ hdigest htext.operation htext.params hslots h
    · intro m₁ m₂ hm₁ hm₂
      cases hbuilt₁.slots.symm.trans hm₁
      cases hbuilt₂.slots.symm.trans hm₂
      exact hslots
    · rw [hbuilt₁.revisions, hbuilt₂.revisions]
      exact htext.revisions

end

/-! ## Two cards with different views -/

/-- A card that shows the same status under a title of its own. -/
def statusCard (id title : Bytes) : Config.Card where
  id := id
  integration := ascii "http-json"
  operation := ascii "request"
  slots := .ofList [(ascii "server", ascii "home")]
  params := .ofList [(ascii "path", .str (ascii "/status"))]
  view := .ofList [(ascii "title", .str title)]
  refresh := ascii "1m"

/-- A configuration with the given cards, and no integration beyond the builtin ones. -/
def statusInputs (cards : List Config.Card) : Inputs where
  snap := ⟨[⟨cards⟩], ∅⟩
  files := fun _ => .error .missing
  lock := ∅
  reg := emptyRegistry
  revisions := .ofList [(ascii "home", ascii "1")]
  generation := 1
  sum256 := id
  compileView := fun view => some (.object (view.entries.map fun x => (x.1, .literal x.2)), 0)
  loadsView := fun _ _ => true
  loads := fun _ _ => false

theorem isOk_synthesizeHTTPJSON_status (compileView : GoMap Bytes AnyVal → Option (Template × ℕ))
    (view : GoMap Bytes AnyVal) {output : Template} (h : compileView view = some (output, 0)) :
    (synthesizeHTTPJSON compileView (ascii "server")
      ⟨ascii "/status", [], ∅, view⟩).isOk = true := by
  have hpath : Routepath.canonicalise (ascii "/status") = .ok (ascii "/status") := by
    decide +kernel
  have hload : ((Manifestload.loadOperation
      { id := ascii "http-json", version := [], digest := httpJSONDigest,
        capabilities := [ascii "http"], slots := [⟨ascii "server", ascii "http", true⟩],
        operations := [Manifestload.httpJSONOperation (ascii "server") (ascii "GET")
          (ascii "/status") ∅] }
      (Manifestload.httpJSONOperation (ascii "server") (ascii "GET") (ascii "/status") ∅)).isOk) =
        true := by
    decide +kernel
  obtain ⟨op, hop⟩ := exists_eq_ok hload
  have hget : ¬ (ascii "GET" ≠ ascii "GET" ∧ ascii "GET" ≠ ascii "POST") := fun hne => hne.1 rfl
  simp only [synthesizeHTTPJSON, if_pos, if_neg hget, hpath, hop, h]
  rfl

theorem exists_buildCard_httpJSON {i : Inputs} {card : Config.Card} {params : Bytes}
    (hp : marshalParams card.params = some params)
    (hkind : card.integration = ascii "http-json")
    (hm : (synthesizeHTTPJSON i.compileView (firstSlot card.slots).1
      (httpJSONCard card)).isOk = true)
    (hloads : ∀ m output, i.loadsView m output = true) :
    ∃ d, buildCard i card = .ok d ∧ d.key = cardKey i card httpJSONDigest ∧
      d.run = some (.httpJSON (firstSlot card.slots).1 (firstSlot card.slots).2
        (httpJSONCard card) params) := by
  obtain ⟨⟨m, output⟩, hm⟩ := exists_eq_ok hm
  have hdocker : card.integration ≠ ascii "docker" := by
    rw [hkind]
    decide
  refine ⟨{ baseDefinition i card params with
      source := ⟨card.integration, ascii "1.0.0", ascii "builtin", card.operation, some card.slots⟩
      manifestDigest := httpJSONDigest
      key := cardKey i card httpJSONDigest
      run := some (.httpJSON (firstSlot card.slots).1 (firstSlot card.slots).2
        (httpJSONCard card) params) }, ?_, rfl, rfl⟩
  rw [buildCard, hp]
  simp only [if_neg hdocker, if_pos hkind, buildHTTPJSON, hm, hloads]
  rfl

theorem exists_buildCard_statusCard (cards : List Config.Card) (id title : Bytes) :
    ∃ d params, buildCard (statusInputs cards) (statusCard id title) = .ok d ∧
      d.key = cardKey (statusInputs cards) (statusCard id title) httpJSONDigest ∧
      d.run = some (.httpJSON (ascii "server") (ascii "home")
        (httpJSONCard (statusCard id title)) params) := by
  have hslot : firstSlot (statusCard id title).slots = (ascii "server", ascii "home") := by
    have h : firstSlot (.ofList [(ascii "server", ascii "home")]) =
        (ascii "server", ascii "home") := by decide +kernel
    exact h
  have hparams : marshalParams (statusCard id title).params =
      some (ascii "\x7b\"path\":\"/status\"\x7d") := by
    have h : marshalParams (.ofList [(ascii "path", .str (ascii "/status"))]) =
      some (ascii "\x7b\"path\":\"/status\"\x7d") := by decide +kernel
    exact h
  have hm := isOk_synthesizeHTTPJSON_status (statusInputs cards).compileView
    (statusCard id title).view rfl
  obtain ⟨d, hd⟩ := exists_buildCard_httpJSON (i := statusInputs cards) hparams rfl
    (by rw [hslot]; exact hm) fun _ _ => rfl
  rw [hslot] at hd
  exact ⟨d, _, hd⟩

/-- **Two cards with different views share a flight.** -/
theorem views_share_key :
    ∃ c₁ c₂ d₁ d₂ r₁ r₂, buildDefinitions (statusInputs [c₁, c₂]) = .ok [d₁, d₂] ∧
      d₁.run = some r₁ ∧ d₂.run = some r₂ ∧ d₁.key = d₂.key ∧ ¬ SameWork d₁ d₂ := by
  let c₁ := statusCard (ascii "cpu") (ascii "CPU")
  let c₂ := statusCard (ascii "mem") (ascii "Memory")
  obtain ⟨d₁, params₁, hb₁, hk₁, hr₁⟩ :=
    exists_buildCard_statusCard [c₁, c₂] (ascii "cpu") (ascii "CPU")
  obtain ⟨d₂, params₂, hb₂, hk₂, hr₂⟩ :=
    exists_buildCard_statusCard [c₁, c₂] (ascii "mem") (ascii "Memory")
  refine ⟨c₁, c₂, d₁, d₂, _, _, ?_, hr₁, hr₂, hk₁.trans hk₂.symm, ?_⟩
  · rw [buildDefinitions]
    exact (mapM_eq_ok_iff _ _ _).mpr (.cons hb₁ (.cons hb₂ .nil))
  · intro h
    have hview := (h.run _ _ hr₁ hr₂).2.2.1.view
    have htitle := congrArg (fun view => stringParam view (ascii "title")) hview
    exact absurd htitle (by decide +kernel)

theorem sameWork_iff_status :
    ∃ d₁ d₂, buildDefinitions (statusInputs [statusCard (ascii "a") (ascii "CPU"),
        statusCard (ascii "b") (ascii "CPU")]) = .ok [d₁, d₂] ∧ SameWork d₁ d₂ := by
  obtain ⟨d₁, params₁, hb₁, hk₁, hr₁⟩ := exists_buildCard_statusCard
    [statusCard (ascii "a") (ascii "CPU"), statusCard (ascii "b") (ascii "CPU")]
    (ascii "a") (ascii "CPU")
  obtain ⟨d₂, params₂, hb₂, hk₂, hr₂⟩ := exists_buildCard_statusCard
    [statusCard (ascii "a") (ascii "CPU"), statusCard (ascii "b") (ascii "CPU")]
    (ascii "b") (ascii "CPU")
  refine ⟨d₁, d₂, (mapM_eq_ok_iff _ _ _).mpr (.cons hb₁ (.cons hb₂ .nil)), ?_⟩
  refine (sameWork_iff Function.injective_id hb₁ hb₂ hr₁ hr₂ (hk₁.trans hk₂.symm)).mpr ?_
  refine ⟨.inr fun _ => rfl, fun _ _ => ⟨rfl, rfl, fun _ => rfl, rfl⟩, ?_⟩
  intro p₁ p₂ e₁ e₂ h
  exact absurd rfl h.not_httpJSON

end Veduta.App
