import Veduta.Capabilities.Retention
import Veduta.Go.Query

/-!
# Namespaces of the cache

All plugins share one map.  A key may hold any bytes, also the colon that separates it from its
namespace; but the parts of a namespace have none, so that a full key is read in one way.
-/

namespace Veduta.Capabilities

open Go

/-- As the patterns of ids and the digits of a digest have it. -/
structure Grant.Plain (g : Grant) : Prop where
  pluginID : chr ':' ∉ g.pluginID
  manifestDigest : chr ':' ∉ g.ident.manifestDigest
  instanceID : chr ':' ∉ g.instanceID

/-- A call of some plugin, with the counters and the clock it finds. -/
structure Invoked where
  grant : Grant
  session : Session
  call : BrokerCall

def Broker.leaves (b : Broker) (c : MemCache) (e : Invoked) : MemCache :=
  (b.call e.grant { e.session with cache := c } e.call).2.cache

def Broker.cacheAfter (b : Broker) (es : List Invoked) : MemCache := es.foldl b.leaves ∅

theorem fullKey_injective {g g' : Grant} (hg : g.Plain) (hg' : g'.Plain) {key key' : Bytes}
    (h : fullKey (cacheNamespace g) key = fullKey (cacheNamespace g') key') :
    g.pluginID = g'.pluginID ∧ g.ident.manifestDigest = g'.ident.manifestDigest ∧
      g.instanceID = g'.instanceID ∧ key = key' := by
  have hcut : ∀ {x y r r' : Bytes}, chr ':' ∉ x → chr ':' ∉ y →
      x ++ chr ':' :: r = y ++ chr ':' :: r' → x = y ∧ r = r' := by
    intro x y r r' hx hy heq
    have hparts := congrArg (cut · (chr ':')) heq
    simpa only [cut_append_cons hx, cut_append_cons hy, Prod.mk.injEq, and_true] using hparts
  simp only [fullKey, cacheNamespace, List.append_assoc, List.cons_append] at h
  obtain ⟨hplugin, h⟩ := hcut hg.pluginID hg'.pluginID (List.append_cancel_left h)
  obtain ⟨hdigest, h⟩ := hcut hg.manifestDigest hg'.manifestDigest h
  obtain ⟨hinstance, h⟩ := hcut hg.instanceID hg'.instanceID h
  exact ⟨hplugin, hdigest, hinstance, h⟩

section

variable {b : Broker} {full : Bytes} {item : CacheItem}

/-- **What a call leaves in the cache** was there, or the call has written it. -/
theorem lookup_leaves {c : MemCache} {e : Invoked} (h : (b.leaves c e).lookup full = some item) :
    c.lookup full = some item ∨ ∃ key ttl, e.call = .cachePut key item.value ttl ∧
      full = fullKey (cacheNamespace e.grant) key := by
  by_cases hput : ∃ key val ttl, e.call = .cachePut key val ttl
  · obtain ⟨key, val, ttl, hcall⟩ := hput
    simp only [Broker.leaves, Broker.call, Broker.cachePut, hcall] at h
    split at h
    · exact .inl h
    · split at h
      · exact .inl h
      · rcases GoMap.lookup_of_insert h with ⟨rfl, rfl⟩ | hold
        · exact .inr ⟨key, ttl, hcall, rfl⟩
        · exact .inl hold
  · left
    have hsub := (cache_call_sublist (b := b) (g := e.grant) (s := { e.session with cache := c })
      fun key val ttl hcall => hput ⟨key, val, ttl, hcall⟩).1
    exact GoMap.lookup_eq_some_iff.mpr (hsub.subset (GoMap.lookup_eq_some_iff.mp h))

theorem exists_put_of_lookup {es : List Invoked} (h : (b.cacheAfter es).lookup full = some item) :
    ∃ e ∈ es, ∃ key ttl, e.call = .cachePut key item.value ttl ∧
      full = fullKey (cacheNamespace e.grant) key := by
  induction es using List.reverseRecOn with
  | nil => cases h
  | append_singleton es e ih =>
    rw [Broker.cacheAfter, List.foldl_append] at h
    rcases lookup_leaves h with hold | hput
    · obtain ⟨e', he', hput⟩ := ih hold
      exact ⟨e', List.mem_append_left _ he', hput⟩
    · exact ⟨e, by simp, hput⟩

end

/-- **Cache isolation.**  After any calls of any plugins, a read returns only what was written under
the same plugin id, manifest digest, card instance and key. -/
theorem cacheGet_isolated (b : Broker) {es : List Invoked} (hes : ∀ e ∈ es, e.grant.Plain)
    {g : Grant} (hg : g.Plain) {s s' : Session} {key v : Bytes}
    (h : Broker.cacheGet g { s with cache := b.cacheAfter es } key = (.ok (.value (some v)), s')) :
    ∃ e ∈ es, ∃ ttl, e.call = .cachePut key v ttl ∧ e.grant.pluginID = g.pluginID ∧
      e.grant.ident.manifestDigest = g.ident.manifestDigest ∧
      e.grant.instanceID = g.instanceID := by
  simp only [Broker.cacheGet, MemCache.get] at h
  split at h
  · cases h
  · split at h
    · cases h
    · rename_i item hitem
      split_ifs at h
      · cases h
      · cases h
        obtain ⟨e, he, key', ttl, hcall, hfull⟩ := exists_put_of_lookup hitem
        obtain ⟨hplugin, hdigest, hinstance, rfl⟩ := fullKey_injective hg (hes e he) hfull
        exact ⟨e, he, ttl, hcall, hplugin.symm, hdigest.symm, hinstance.symm⟩

/-- A card, another plugin and another card write under one key with a colon. -/
def threeWrites : List Invoked :=
  [⟨oneEntry, .new ∅ 0, .cachePut (ascii "a:b") (ascii "v") 0⟩,
    ⟨{ oneEntry with pluginID := ascii "other" }, .new ∅ 0,
      .cachePut (ascii "a:b") (ascii "w") 0⟩,
    ⟨{ oneEntry with instanceID := ascii "other" }, .new ∅ 0,
      .cachePut (ascii "a:b") (ascii "x") 0⟩]

/-- The card reads back what it has written. -/
theorem cacheGet_isolated_colon :
    ∃ e ∈ threeWrites, ∃ ttl,
      e.call = .cachePut (ascii "a:b") (ascii "v") ttl ∧ e.grant.pluginID = oneEntry.pluginID ∧
        e.grant.ident.manifestDigest = oneEntry.ident.manifestDigest ∧
        e.grant.instanceID = oneEntry.instanceID := by
  have hplain : ∀ e ∈ threeWrites, e.grant.Plain := by
    simp only [threeWrites, List.forall_mem_cons]
    exact ⟨⟨by decide, by decide, by decide⟩, ⟨by decide, by decide, by decide⟩,
      ⟨by decide, by decide, by decide⟩, by simp⟩
  exact cacheGet_isolated emptyBroker hplain (hplain _ List.mem_cons_self) (s := .new ∅ 0) rfl

end Veduta.Capabilities
