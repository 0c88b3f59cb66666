import Veduta.App.Grant
import Veduta.Capabilities.AssetRef
import Veduta.Config.Snapshot

/-!
# Serving assets

Packages `app` and `api`: a token that the browser sends back is judged against the
configuration, the manifest and the lock as they are now.  The grant is built again for every
card that binds the connection, and the request is authorised with it; the checks that `AssetRef`
makes before it authorises a request are not made again.
-/

namespace Veduta.App

open Go Lib Routepath Capabilities Connections
open Config (Snapshot Integration)

/-- Where the manifest of an integration is. -/
inductive Source where
  | builtin
  | dir (path : Bytes)

/-- `ResolveSource`, up to the directory that a path is relative to. -/
def resolveSource (raw : Bytes) : Option Source :=
  if raw = ascii "builtin" then some .builtin
  else if hasPrefix raw (ascii "path:") ∧ raw ≠ ascii "path:" then some (.dir (raw.drop 5))
  else none

/-- What is on disk: the manifest in a directory, if one can be loaded, and the lock. -/
structure Files where
  manifest : Bytes → Option Manifest
  lock : Option Doc

/-- A card as the grant is built from it. -/
def ofConfig (c : Config.Card) : Card := ⟨c.id, c.operation, c.slots⟩

/-- `url.ParseQuery`, which refuses what `URL.Query` passes over. -/
def parseQueryStrict (query : Bytes) : Option Values :=
  if (query.splitOn (chr '&')).all fun pair =>
      pair == [] || (!pair.contains (chr ';') && (queryUnescape (cut pair (chr '=')).1).isSome &&
        (queryUnescape (cut pair (chr '=')).2.1).isSome)
  then some (parseQuery query)
  else none

/-- The manifest of a plugin and its entry in the lock, where they agree with a version. -/
def approvedManifest (snap : Snapshot) (files : Files) (pluginID version : Bytes) :
    Option (Integration × Manifest × LoadedEntry) := do
  let declared ← snap.integrationsByID.lookup pluginID
  match ← resolveSource declared.source with
  | .builtin => none
  | .dir path =>
    let m ← files.manifest path
    if m.version ≠ version then none
    else
      let entry ← (loadEntry files.lock pluginID).toOption
      let entry ← entry
      if entry.manifestSHA256 ≠ m.digest then none else some (declared, m, entry)

/-- **`AssetAuthorized`**; an error is a refusal as well. -/
def assetAuthorized (snap : Snapshot) (files : Files) (reg : Registry) (p : Payload) : Bool :=
  let (pluginID, version, found) := cut p.plugin (chr '@')
  if !found then false
  else
    match approvedManifest snap files pluginID version, parseQueryStrict p.query with
    | some (_, m, entry), some query =>
      snap.cards.any fun card => card.integration == pluginID &&
        card.slots.entries.any fun x => x.2 == p.connection &&
          ((grant m entry (ofConfig card) reg ∅ 0 [] []).authorize
            (assetRequest x.1 p.path query) useAsset).isOk
    | _, _ => false

/-- **What the handler checks before it fetches**: the token, the revision of the connection, the
normal forms of path and query, the transform, and the judgement. -/
def assetServed (mac : Bytes → Bytes) (now : ℤ) (revision : Bytes → Option Bytes)
    (snap : Snapshot) (files : Files) (reg : Registry) (token : Bytes) : Option Payload := do
  let p ← verify mac now token
  let current ← revision p.connection
  if current ≠ p.connectionRevision then none
  else if canonicalise p.path ≠ .ok p.path then none
  else
    let query ← parseQueryStrict p.query
    if query.encode ≠ p.query ∨ !transformPattern.contains p.transform then none
    else if assetAuthorized snap files reg p then some p else none

/-- **`AssetRef` would give a token now**: the integration is declared and enabled, and under the
grant of a card that binds the connection to a slot the call is permitted. -/
def Mintable (mac : Bytes → Bytes) (fallbackRevision : Bytes) (now : ℤ) (snap : Snapshot)
    (files : Files) (reg : Registry) (revisions : GoMap Bytes Bytes) (generation : ℕ)
    (p : Payload) : Prop :=
  ∃ pluginID version declared m entry query,
    cut p.plugin (chr '@') = (pluginID, version, true) ∧
    approvedManifest snap files pluginID version = some (declared, m, entry) ∧
    declared.isEnabled = true ∧ parseQueryStrict p.query = some query ∧
    ∃ card ∈ snap.cards, card.integration = pluginID ∧
      ∃ slot t, card.slots.lookup slot = some p.connection ∧ transformString t = p.transform ∧
        ∃ approvalRevision cardHash token,
          (assetRef mac fallbackRevision now
            (grant m entry (ofConfig card) reg revisions generation approvalRevision cardHash) {}
            slot p.path query t).1 = .ok token

/-! ## What is served could be minted -/

section

variable {mac : Bytes → Bytes} {now : ℤ} {revision : Bytes → Option Bytes} {snap : Snapshot}
variable {files : Files} {reg : Registry} {p : Payload}

def pluginOf (p : Payload) : Bytes := (cut p.plugin (chr '@')).1

theorem approvedManifest_eq_some {pluginID version : Bytes} {declared : Integration}
    {m : Manifest} {entry : LoadedEntry}
    (h : approvedManifest snap files pluginID version = some (declared, m, entry)) :
    snap.integrationsByID.lookup pluginID = some declared ∧
      loadEntry files.lock pluginID = .ok (some entry) := by
  simp only [approvedManifest, Option.bind_eq_bind, Option.bind_eq_some_iff] at h
  obtain ⟨d, hd, source, _, h⟩ := h
  cases source with
  | builtin => cases h
  | dir path =>
    obtain ⟨m', _, hm⟩ := Option.bind_eq_some_iff.mp h
    split at hm
    · cases hm
    obtain ⟨found, hfound, hlock⟩ := Option.bind_eq_some_iff.mp hm
    obtain ⟨e, rfl, he⟩ := Option.bind_eq_some_iff.mp hlock
    split at he
    · cases he
    cases he
    refine ⟨hd, ?_⟩
    cases hload : loadEntry files.lock pluginID with
    | error err =>
      rw [hload] at hfound
      cases hfound
    | ok found =>
      rw [hload] at hfound
      cases hfound
      rfl

theorem assetAuthorized_eq_true (h : assetAuthorized snap files reg p = true) :
    ∃ version declared m entry query,
      cut p.plugin (chr '@') = (pluginOf p, version, true) ∧
      approvedManifest snap files (pluginOf p) version = some (declared, m, entry) ∧
      parseQueryStrict p.query = some query ∧
      ∃ card ∈ snap.cards, card.integration = pluginOf p ∧
        ∃ slot, card.slots.lookup slot = some p.connection ∧
          (grant m entry (ofConfig card) reg ∅ 0 [] []).authorize
            (assetRequest slot p.path query) useAsset = .ok () := by
  rw [assetAuthorized] at h
  rcases hcut : cut p.plugin (chr '@') with ⟨pluginID, version, found⟩
  have hplugin : pluginOf p = pluginID := by
    rw [pluginOf, hcut]
  rw [hcut] at h
  dsimp only at h
  split_ifs at h with hfound
  rw [Bool.not_eq_true, Bool.not_eq_false'] at hfound
  split at h
  · rename_i declared m entry query happroved hquery
    simp only [List.any_eq_true, Bool.and_eq_true, beq_iff_eq] at h
    obtain ⟨card, hcard, hid, ⟨slot, id⟩, hslot, hconn, hauth⟩ := h
    refine ⟨version, declared, m, entry, query, ?_, ?_, hquery, card, hcard, ?_, slot, ?_, ?_⟩
    · rw [hplugin, hfound]
    · rw [hplugin, happroved]
    · rw [hid, hplugin]
    · rw [GoMap.lookup_eq_some_iff, ← hconn]
      exact hslot
    · rcases hroute : Grant.authorize _ _ _ with e | u
      · rw [hroute] at hauth
        cases hauth
      · rfl
  · cases h

theorem assetServed_eq_some {token : Bytes}
    (h : assetServed mac now revision snap files reg token = some p) :
    canonicalise p.path = .ok p.path ∧ p.transform ∈ transformPattern ∧
      assetAuthorized snap files reg p = true := by
  simp only [assetServed, Option.bind_eq_bind, Option.bind_eq_some_iff] at h
  obtain ⟨p', _, current, _, h⟩ := h
  split at h
  · cases h
  split at h
  · cases h
  rename_i hpath
  obtain ⟨query, _, h⟩ := Option.bind_eq_some_iff.mp h
  split_ifs at h with hform hauth
  cases h
  rw [not_or, Bool.not_eq_true, Bool.not_eq_false'] at hform
  exact ⟨not_not.mp hpath, List.contains_iff_mem.mp hform.2, hauth⟩

/-- What can be minted is of an enabled integration with the capability. -/
theorem Mintable.conditions {fallbackRevision : Bytes} {revisions : GoMap Bytes Bytes}
    {generation : ℕ} (hpath : canonicalise p.path = .ok p.path)
    (h : Mintable mac fallbackRevision now snap files reg revisions generation p) :
    (∀ declared, snap.integrationsByID.lookup (pluginOf p) = some declared →
        declared.isEnabled = true) ∧
      (∀ entry, loadEntry files.lock (pluginOf p) = .ok (some entry) →
        ascii "assets" ∈ entry.capabilities) ∧
      p.transform.head? ≠ some (chr ',') := by
  obtain ⟨pluginID, version, declared, m, entry, query, hcut, happroved, henabled, _, card, _, _,
    slot, t, _, ht, approvalRevision, cardHash, htoken⟩ := h
  obtain ⟨hdeclared, hentry⟩ := approvedManifest_eq_some happroved
  obtain ⟨hcap, _, _, hvalid⟩ := (assetRef_fresh_iff hpath).mp htoken
  have hplugin : pluginOf p = pluginID := by
    rw [pluginOf, hcut]
  rw [hplugin]
  refine ⟨?_, ?_, (exists_transform_iff.mp ⟨t, ht, hvalid⟩).2⟩
  · intro d hd
    cases hdeclared.symm.trans hd
    exact henabled
  · intro e he
    cases hentry.symm.trans he
    exact has_newCapSet.mp hcap

/-- **When what is served could be minted**: exactly if the integration is enabled, the lock grants
it assets, and the transform does not begin with the format. -/
theorem served_mintable_iff {token : Bytes} (fallbackRevision : Bytes)
    (revisions : GoMap Bytes Bytes) (generation : ℕ)
    (h : assetServed mac now revision snap files reg token = some p) :
    Mintable mac fallbackRevision now snap files reg revisions generation p ↔
      (∀ declared, snap.integrationsByID.lookup (pluginOf p) = some declared →
          declared.isEnabled = true) ∧
        (∀ entry, loadEntry files.lock (pluginOf p) = .ok (some entry) →
          ascii "assets" ∈ entry.capabilities) ∧
        p.transform.head? ≠ some (chr ',') := by
  obtain ⟨hpath, htransform, hauthorized⟩ := assetServed_eq_some h
  constructor
  · exact Mintable.conditions hpath
  · intro hcond
    obtain ⟨henabled, hcap, hhead⟩ := hcond
    obtain ⟨version, declared, m, entry, query, hcut, happroved, hquery, card, hcard, hid, slot,
      hslot, hauth⟩ := assetAuthorized_eq_true hauthorized
    obtain ⟨hdeclared, hentry⟩ := approvedManifest_eq_some happroved
    obtain ⟨t, ht, hvalid⟩ := exists_transform_iff.mpr ⟨htransform, hhead⟩
    refine ⟨pluginOf p, version, declared, m, entry, query, hcut, happroved,
      henabled declared hdeclared, hquery, card, hcard, hid, slot, t, hslot, ht, [], [], ?_⟩
    refine (assetRef_fresh_iff hpath).mpr ⟨has_newCapSet.mpr (hcap entry hentry), ?_, hauth, hvalid⟩
    rw [show (grant m entry (ofConfig card) reg revisions generation [] []).slots = card.slots
      from rfl, hslot]
    rfl

end

/-! ## Photos -/

def photosRoute : Integrations.Route :=
  { slot := ascii "img", method := ascii "GET", path := ascii "/a", use := ascii "asset" }

def photosManifest : Manifest where
  id := ascii "photos"
  version := ascii "1"
  digest := List.replicate 64 (chr 'a')
  operations := [⟨ascii "recent", [photosRoute]⟩]

/-- The lock approves the route, under some capabilities. -/
def photosFiles (capabilities : List Bytes) : Files where
  manifest _ := some photosManifest
  lock := some (Integrations.Lock.encode ⟨1, .ofList [(ascii "photos",
    { manifestSHA256 := List.replicate 64 (chr 'a')
      approvedAt := ascii "2026-01-02T03:04:05Z"
      capabilities := capabilities
      routes := [photosRoute]
      effectiveLimits := ⟨fun f => (Integrations.limitBounds f).default⟩ })]⟩)

/-- A card that shows photos of a connection. -/
def photosSnapshot (enabled : Option Bool) : Snapshot where
  sections := [⟨[⟨ascii "c", ascii "photos", ascii "recent",
    .ofList [(ascii "img", ascii "nas")], ∅, ∅, []⟩]⟩]
  integrationsByID := .ofList [(ascii "photos", ⟨ascii "photos", ascii "path:p", enabled⟩)]

def photosPayload : Payload :=
  ⟨1, ascii "nas", ascii "r", ascii "/a", [], ascii "w=160", ascii "photos@1", 100⟩

def photosServed (enabled : Option Bool) (capabilities : List Bytes) : Option Payload :=
  assetServed id 0 (fun _ => some (ascii "r")) (photosSnapshot enabled) (photosFiles capabilities)
    emptyRegistry (mint id photosPayload)

/-- The capabilities that the lock grants a plugin. -/
def approvedCapabilities (files : Files) (pluginID : Bytes) : Option (List Bytes) :=
  match loadEntry files.lock pluginID with
  | .ok (some entry) => some entry.capabilities
  | _ => none

theorem approvedCapabilities_eq_some {files : Files} {pluginID : Bytes} {entry : LoadedEntry}
    (h : loadEntry files.lock pluginID = .ok (some entry)) :
    approvedCapabilities files pluginID = some entry.capabilities := by
  rw [approvedCapabilities, h]

theorem loadEntry_of_approvedCapabilities {files : Files} {pluginID : Bytes} {caps : List Bytes}
    (h : approvedCapabilities files pluginID = some caps) :
    ∃ entry, loadEntry files.lock pluginID = .ok (some entry) ∧ entry.capabilities = caps := by
  rw [approvedCapabilities] at h
  split at h
  · rename_i entry hload
    exact ⟨entry, hload, Option.some.inj h⟩
  · cases h

/-- An enabled integration with the capability: what is served could be minted. -/
theorem served_mintable_iff_photos :
    Mintable id [] 0 (photosSnapshot none) (photosFiles [ascii "http", ascii "assets"])
      emptyRegistry ∅ 1 photosPayload := by
  have hserved : photosServed none [ascii "http", ascii "assets"] = some photosPayload := by
    decide +kernel
  refine (served_mintable_iff [] ∅ 1 hserved).mpr ⟨?_, ?_, by decide +kernel⟩
  · intro declared hdeclared
    have henabled : ∀ d ∈ (photosSnapshot none).integrationsByID.lookup (pluginOf photosPayload),
        d.isEnabled = true := by
      decide +kernel
    exact henabled declared hdeclared
  · intro entry hentry
    have hcap : approvedCapabilities (photosFiles [ascii "http", ascii "assets"])
        (pluginOf photosPayload) = some [ascii "http", ascii "assets"] := by
      decide +kernel
    have hcapabilities : entry.capabilities = _ :=
      Option.some.inj ((approvedCapabilities_eq_some hentry).symm.trans hcap)
    rw [hcapabilities]
    exact List.mem_cons_of_mem _ List.mem_cons_self

/-- **What is revoked is served**: the integration is disabled, or the lock no longer grants assets;
the asset is served, and no token could be minted for it. -/
theorem revoked_asset_served :
    (photosServed (some false) [ascii "http", ascii "assets"] = some photosPayload ∧
        ¬ Mintable id [] 0 (photosSnapshot (some false))
          (photosFiles [ascii "http", ascii "assets"]) emptyRegistry ∅ 1 photosPayload) ∧
      photosServed none [ascii "http"] = some photosPayload ∧
        ¬ Mintable id [] 0 (photosSnapshot none) (photosFiles [ascii "http"]) emptyRegistry ∅ 1
          photosPayload := by
  have hpath : canonicalise photosPayload.path = .ok photosPayload.path := by decide +kernel
  refine ⟨⟨by decide +kernel, ?_⟩, by decide +kernel, ?_⟩
  · intro hmint
    have henabled := (hmint.conditions hpath).1
    have hdisabled : ((photosSnapshot (some false)).integrationsByID.lookup
        (pluginOf photosPayload)).map Integration.isEnabled = some false := by
      decide +kernel
    obtain ⟨d, hd, hfalse⟩ := Option.map_eq_some_iff.mp hdisabled
    rw [henabled d hd] at hfalse
    cases hfalse
  · intro hmint
    have hassets := (hmint.conditions hpath).2.1
    have hcap : approvedCapabilities (photosFiles [ascii "http"]) (pluginOf photosPayload) =
        some [ascii "http"] := by
      decide +kernel
    obtain ⟨entry, hload, hcapabilities⟩ := loadEntry_of_approvedCapabilities hcap
    have hmem := hassets entry hload
    rw [hcapabilities] at hmem
    exact absurd hmem (by decide)

end Veduta.App
