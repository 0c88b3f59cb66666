import Veduta.Connections.Registry
import Veduta.Integrations.Approve

/-!
# The grant of a card

Package `app`: how the runtime turns a manifest, its entry in the lock and a card of the
configuration into the grant that the card's runs are given.  A card names one operation;
its grant carries the routes of all of them, so what `authorize` compares a request with
is the whole manifest.
-/

namespace Veduta.App

open Go Lib Routepath Capabilities Connections
open Integrations (OperationDef LockEntry LockError readLock readLock_bounds)

/-- An entry of a lock that was read. -/
structure LoadedEntry extends LockEntry where
  requestBodyKB_le : effectiveLimits.field .requestBodyKB ≤ 1024

/-- The entry of an integration in the lock of a file; the schema bounds its limits. -/
def loadEntry (file : Option Doc) (id : Bytes) : Except LockError (Option LoadedEntry) :=
  match hread : readLock file with
  | .error e => .error e
  | .ok lock =>
    match hentry : lock.integrations.lookup id with
    | none => .ok none
    | some e => .ok (some ⟨e, (readLock_bounds hread hentry .requestBodyKB).2⟩)

/-- What the runtime loads of a manifest. -/
structure Manifest where
  id : Bytes
  version : Bytes
  digest : Bytes
  operations : List OperationDef

structure Card where
  id : Bytes
  operation : Bytes
  slots : GoMap Bytes Bytes

def newCapSet (caps : List Bytes) : GoMap Bytes Bool := caps.foldl (fun s c => s.insert c true) ∅

theorem has_newCapSet {caps : List Bytes} {c : Bytes} :
    (newCapSet caps).has c = true ↔ c ∈ caps := by
  have hfold : ∀ (caps : List Bytes) (s : GoMap Bytes Bool),
      (caps.foldl (fun s c => s.insert c true) s).has c = true ↔ c ∈ caps ∨ s.has c = true := by
    intro caps
    induction caps with
    | nil => simp
    | cons x caps ih =>
      intro s
      rw [List.foldl_cons, ih, List.mem_cons]
      by_cases hx : c = x
      · subst hx
        simp [GoMap.has, GoMap.get]
      · simp [GoMap.has, GoMap.get, hx]
  rw [newCapSet, hfold]
  simp [GoMap.has, GoMap.get]

/-- The allowed paths of each slot that is bound to an HTTP connection. -/
def connectionPolicies (slots : GoMap Bytes Bytes) (reg : Registry) :
    GoMap Bytes ConnectionPolicy :=
  slots.filterMap fun _ id =>
    ((reg.connections.lookup id).bind Connection.http).map fun http => ⟨http.allowedPaths⟩

def revisionsFor (slots revisions : GoMap Bytes Bytes) : GoMap Bytes Bytes :=
  slots.filterMap fun _ connectionID => some (revisions.get [] connectionID)

/-- **The grant of a card.**  The manifest's routes are those of all its operations. -/
def grant (m : Manifest) (l : LoadedEntry) (c : Card) (reg : Registry)
    (revisions : GoMap Bytes Bytes) (generation : ℕ) (approvalRevision cardHash : Bytes) :
    Grant where
  pluginID := m.id
  version := m.version
  instanceID := c.id
  slots := c.slots
  caps := newCapSet l.capabilities
  manifestRoutes := m.operations.flatMap fun o => o.routes.map Integrations.Route.runtime
  approvedRoutes := l.routes.map Integrations.Route.runtime
  connectionPolicy := connectionPolicies c.slots reg
  limits :=
    { httpRequests := l.effectiveLimits.field .httpRequests
      responseMB := l.effectiveLimits.field .responseMB
      cacheEntries := l.effectiveLimits.field .cacheEntries
      cacheBytesKB := l.effectiveLimits.field .cacheBytesKB
      hostCalls := l.effectiveLimits.field .hostCalls
      requestBodyKB := l.effectiveLimits.field .requestBodyKB
      requestBodyKB_fits := by
        have := l.requestBodyKB_le
        omega }
  ident :=
    { snapshotGen := generation
      cardHash := cardHash
      manifestDigest := m.digest
      approvalRevision := approvalRevision
      slotRevisions := revisionsFor c.slots revisions }

def operation (m : Manifest) (id : Bytes) : Option OperationDef :=
  m.operations.find? fun o => o.id == id

inductive Disabled where
  | configError
  | unapproved
  | permissionsChanged
  deriving DecidableEq, Repr

/-- A card has a grant when its operation exists and the lock approves this manifest. -/
def cardGrant (m : Manifest) (entry : Option LoadedEntry) (c : Card) (reg : Registry)
    (revisions : GoMap Bytes Bytes) (generation : ℕ) (approvalRevision cardHash : Bytes) :
    Except Disabled (OperationDef × Grant) :=
  match operation m c.operation with
  | none => .error .configError
  | some op =>
    match entry with
    | none => .error .unapproved
    | some entry =>
      if entry.manifestSHA256 ≠ m.digest then .error .permissionsChanged
      else .ok (op, grant m entry c reg revisions generation approvalRevision cardHash)

/-- A route declares all that another one declares. -/
structure Covers (s r : Route) (requestBodyKB : Int) : Prop where
  slot : s.slot = r.slot
  method : s.method = r.method
  use : s.use = r.use
  path : ∀ path, canonicalise r.path = .ok path →
    ∃ pattern, canonicalise s.path = .ok pattern ∧ matchPath pattern path = true
  query : ∀ keys, s.queryKeys = some keys → ∃ asked, r.queryKeys = some asked ∧ asked ⊆ keys
  contentType : s.contentType ≠ [] → r.contentType ≠ [] ∧
    normaliseMediaType s.contentType = normaliseMediaType r.contentType
  body : kib (ceilingKB r.maxBodyKB requestBodyKB) ≤ kib (ceilingKB s.maxBodyKB requestBodyKB)

theorem Covers.permits {s r : Route} {requestBodyKB : Int} {req : HTTPRequest} {use : UseKind}
    {c : Bytes} (h : Covers s r requestBodyKB) (hc : Canonical c)
    (hpermits : r.Permits req c use requestBodyKB) : s.Permits req c use requestBodyKB where
  slot := h.slot.trans hpermits.slot
  method := h.method.trans hpermits.method
  use := h.use.trans hpermits.use
  path := by
    obtain ⟨path, hpath, hmatch⟩ := hpermits.path
    obtain ⟨pattern, hpattern, hcovers⟩ := h.path path hpath
    have hrooted := (canonical_of_canonicalise hpath).rooted
    have hrooted' := (canonical_of_canonicalise hpattern).rooted
    rw [matchPath_iff hrooted hc.rooted] at hmatch
    rw [matchPath_iff hrooted' hrooted] at hcovers
    exact ⟨pattern, hpattern, (matchPath_iff hrooted' hc.rooted).mpr (hcovers.trans hmatch)⟩
  query := by
    intro keys hkeys k hk
    obtain ⟨asked, hasked, hsub⟩ := h.query keys hkeys
    exact hsub (hpermits.query asked hasked k hk)
  contentType := by
    intro hdeclared
    obtain ⟨hne, heq⟩ := h.contentType hdeclared
    rw [heq]
    exact hpermits.contentType hne
  body := ⟨hpermits.body.1, hpermits.body.2.trans h.body⟩

theorem Covers.refl (r : Route) (requestBodyKB : Int) : Covers r r requestBodyKB where
  slot := rfl
  method := rfl
  use := rfl
  path path h := ⟨path, h, (matchPath_iff (canonical_of_canonicalise h).rooted
    (canonical_of_canonicalise h).rooted).mpr (.refl (by decide) path)⟩
  query keys h := ⟨keys, h, fun _ => id⟩
  contentType h := ⟨h, rfl⟩
  body := le_refl _

section

variable {m : Manifest} {l : LoadedEntry} {card : Card} {reg : Registry}
variable {revisions : GoMap Bytes Bytes} {generation : ℕ} {approvalRevision cardHash : Bytes}

/-- **What a card's grant authorises**: a route of any operation, an approved route, and the
policy of the slot's connection. -/
theorem grant_authorize_iff (req : HTTPRequest) (use : UseKind) :
    (grant m l card reg revisions generation approvalRevision cardHash).authorize req use = .ok () ↔
      ∃ c, canonicalise req.path = .ok c ∧
        (∃ o ∈ m.operations, ∃ r ∈ o.routes,
          r.runtime.Permits req c use (l.effectiveLimits.field .requestBodyKB)) ∧
        (∃ a ∈ l.routes.map Integrations.Route.runtime,
          a.Permits req c use (l.effectiveLimits.field .requestBodyKB)) ∧
        ∀ policy, (connectionPolicies card.slots reg).lookup req.slot = some policy →
          connectionAllows policy c = true := by
  rw [Grant.authorize_iff]
  refine exists_congr fun c => and_congr_right fun _ => ?_
  rw [anyRouteAllows_iff, anyRouteAllows_iff]
  refine and_congr ?_ Iff.rfl
  simp only [grant, List.mem_flatMap, List.mem_map]
  constructor
  · intro h
    obtain ⟨_, ⟨o, ho, r, hr, rfl⟩, hpermits⟩ := h
    exact ⟨o, ho, r, hr, hpermits⟩
  · intro h
    obtain ⟨o, ho, r, hr, hpermits⟩ := h
    exact ⟨_, ⟨o, ho, r, hr, rfl⟩, hpermits⟩

theorem cardGrant_eq_ok {g : Grant} {o : OperationDef}
    (h : cardGrant m (some l) card reg revisions generation approvalRevision cardHash =
      .ok (o, g)) :
    operation m card.operation = some o ∧ l.manifestSHA256 = m.digest ∧
      g = grant m l card reg revisions generation approvalRevision cardHash := by
  rw [cardGrant] at h
  split at h
  · cases h
  rename_i op hop
  dsimp only at h
  split_ifs at h with hdigest
  cases h
  exact ⟨hop, not_not.mp hdigest, rfl⟩

/-- **When a card's grant stays within its operation.**  If each route of another operation, and
each approved route for the same slot, method and use, has one of the two declared by the card's own
operation, every request that the grant authorises is one that a route of that operation permits. -/
theorem grant_within_operation (g : Grant) (o : OperationDef)
    (hg : cardGrant m (some l) card reg revisions generation approvalRevision cardHash =
      .ok (o, g))
    (hcovers : ∀ o' ∈ m.operations, o' ≠ o → ∀ r ∈ o'.routes, ∀ a ∈ l.routes, r.slot = a.slot →
      r.method = a.method → r.runtime.use = a.runtime.use →
      ∃ s ∈ o.routes, Covers s.runtime r.runtime (l.effectiveLimits.field .requestBodyKB) ∨
        Covers s.runtime a.runtime (l.effectiveLimits.field .requestBodyKB))
    (req : HTTPRequest) (use : UseKind) (hauth : g.authorize req use = .ok ()) :
    ∃ c, canonicalise req.path = .ok c ∧
      ∃ r ∈ o.routes, r.runtime.Permits req c use g.limits.requestBodyKB := by
  obtain ⟨-, -, rfl⟩ := cardGrant_eq_ok hg
  obtain ⟨c, hc, ⟨o', ho', r, hr, hpermits⟩, ⟨_, hmem, happroved⟩, -⟩ :=
    (grant_authorize_iff req use).mp hauth
  obtain ⟨a, ha, rfl⟩ := List.mem_map.mp hmem
  refine ⟨c, hc, ?_⟩
  by_cases ho : o' = o
  · exact ⟨r, ho ▸ hr, hpermits⟩
  · obtain ⟨s, hs, hcovers⟩ := hcovers o' ho' ho r hr a ha (hpermits.slot.trans happroved.slot.symm)
      (hpermits.method.trans happroved.method.symm) (hpermits.use.trans happroved.use.symm)
    have hpath := canonical_of_canonicalise hc
    exact ⟨s, hs, hcovers.elim (·.permits hpath hpermits) (·.permits hpath happroved)⟩

end

def readRoute (path : Bytes) : Integrations.Route :=
  { slot := ascii "api", method := ascii "GET", path := path }

/-- A manifest whose two operations read different paths. -/
def twoOperations : Manifest where
  id := ascii "demo"
  version := ascii "1.0.0"
  digest := ascii "digest"
  operations := [⟨ascii "a", [readRoute (ascii "/a")]⟩, ⟨ascii "b", [readRoute (ascii "/b")]⟩]

/-- An approval of some routes. -/
def approval (routes : List Integrations.Route) : LoadedEntry where
  manifestSHA256 := ascii "digest"
  approvedAt := ascii "2026-01-01T00:00:00Z"
  capabilities := [ascii "http"]
  routes := routes
  effectiveLimits := ⟨fun f => (Integrations.limitBounds f).default⟩
  requestBodyKB_le := by decide

def cardA : Card := ⟨ascii "card", ascii "a", GoMap.ofList [(ascii "api", ascii "demo-api")]⟩

def readB : HTTPRequest := { slot := ascii "api", method := ascii "GET", path := ascii "/b" }

def grantA (routes : List Integrations.Route) : Grant :=
  grant twoOperations (approval routes) cardA emptyRegistry ∅ 1 [] []

/-- A card for the operation `a` is granted the path of the operation `b`. -/
theorem grant_beyond_operation :
    cardGrant twoOperations (some (approval [readRoute (ascii "/a"), readRoute (ascii "/b")])) cardA
        emptyRegistry ∅ 1 [] [] =
      .ok (⟨ascii "a", [readRoute (ascii "/a")]⟩,
        grantA [readRoute (ascii "/a"), readRoute (ascii "/b")]) ∧
      (grantA [readRoute (ascii "/a"), readRoute (ascii "/b")]).authorize readB useData = .ok () ∧
      ¬ ∃ c, canonicalise readB.path = .ok c ∧
        ∃ r ∈ [readRoute (ascii "/a")], r.runtime.Permits readB c useData
          (grantA [readRoute (ascii "/a"), readRoute (ascii "/b")]).limits.requestBodyKB := by
  refine ⟨rfl, by decide +kernel, ?_⟩
  intro h
  obtain ⟨c, hc, r, hr, hpermits⟩ := h
  have hallows : anyRouteAllows [(readRoute (ascii "/a")).runtime] readB c useData 64 = true := by
    obtain rfl := List.mem_singleton.mp hr
    exact (anyRouteAllows_iff _ _ _ _ _).mpr ⟨_, List.mem_cons_self, hpermits⟩
  have hcb : canonicalise readB.path = .ok (ascii "/b") := by decide +kernel
  rw [Except.ok.inj (hc.symm.trans hcb)] at hallows
  exact absurd hallows (by decide +kernel)

theorem grant_within_operation_approved :
    ∃ c, canonicalise (ascii "/a") = .ok c ∧
      ∃ r ∈ [readRoute (ascii "/a")], r.runtime.Permits { readB with path := ascii "/a" } c useData
        (grantA [readRoute (ascii "/a")]).limits.requestBodyKB := by
  have hgrant : cardGrant twoOperations (some (approval [readRoute (ascii "/a")])) cardA
      emptyRegistry ∅ 1 [] [] =
        .ok (⟨ascii "a", [readRoute (ascii "/a")]⟩, grantA [readRoute (ascii "/a")]) := rfl
  refine grant_within_operation _ _ hgrant ?_ { readB with path := ascii "/a" } useData
    (by decide +kernel)
  -- what is approved is what the operation declares
  intro o' _ _ r _ a ha _ _ _
  exact ⟨a, ha, .inr (Covers.refl _ _)⟩

end Veduta.App
