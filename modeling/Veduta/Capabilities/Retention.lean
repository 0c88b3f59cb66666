import Veduta.Capabilities.Calls

/-!
# What the cache keeps of a card

The counters of cache writes are those of one invocation, and the cache outlives it.  So the
live entries of a card instance are within its approval only as long as every write finds room
beside what earlier invocations left.
-/

namespace Veduta.Capabilities

open Go Lib

/-- A card is invoked with fresh counters, or something happens during an invocation. -/
inductive CardEvent where
  | fresh
  | during (e : BrokerEvent)

/-- `Fresh`: the next invocation has the same authority and new counters. -/
def Broker.cardStep (b : Broker) (g : Grant) (e : CardEvent) (s : Session) : Option Session :=
  match e with
  | .fresh => some { s with budget := {} }
  | .during e => b.step g e s

def Session.entries (g : Grant) (s : Session) : List (Σ _ : Bytes, CacheItem) :=
  MemCache.live s.now s.cache (cacheNamespace g)

/-- Some entries are within the approval of a grant. -/
def Grant.holds (g : Grant) (count bytes : ℕ) : Prop :=
  count ≤ g.limits.cacheEntries ∧ bytes ≤ g.limits.cacheBytesKB * 1024

/-- **The live entries of the card are within its approval.** -/
def Retained (g : Grant) (s : Session) : Prop :=
  g.holds (s.entries g).length (liveBytes (s.entries g))

instance (g : Grant) (count bytes : ℕ) : Decidable (g.holds count bytes) :=
  inferInstanceAs (Decidable (_ ∧ _))

instance (g : Grant) (s : Session) : Decidable (Retained g s) :=
  inferInstanceAs (Decidable (g.holds _ _))

/-- The preamble of a cache write: capability, host call, and the counters of the cache. -/
def Grant.admitsWrite (g : Grant) (b : BudgetState) (val : Bytes) : Bool :=
  ((g.admits (ascii "cache") b).bind fun b => g.consumeCacheWrite b val.length).isOk

/-- There is room for a value beside what is live under other keys. -/
def Room (g : Grant) (s : Session) (key val : Bytes) : Prop :=
  g.holds ((others (fullKey (cacheNamespace g) key) (s.entries g)).length + 1)
    (liveBytes (others (fullKey (cacheNamespace g) key) (s.entries g)) + val.length)

/-- Every write that the counters admit finds room. -/
def LeavesRoom (g : Grant) (s : Session) (e : CardEvent) : Prop :=
  ∀ key val ttl, e = .during (.call (.cachePut key val ttl)) →
    g.admitsWrite s.budget val = true → Room g s key val

section

variable {b : Broker} {g : Grant} {s s' : Session}

theorem Grant.holds.mono {count count' bytes bytes' : ℕ} (h : g.holds count bytes)
    (hcount : count' ≤ count) (hbytes : bytes' ≤ bytes) : g.holds count' bytes' := by
  obtain ⟨h1, h2⟩ := h
  constructor <;> omega

theorem Retained.of_sublist (h : Retained g s) (hsub : (s'.entries g).Sublist (s.entries g)) :
    Retained g s' :=
  Grant.holds.mono h hsub.length_le (liveBytes_le_of_sublist hsub)

theorem entries_cachePut (key : Bytes) {val : Bytes} (h : g.admitsWrite s.budget val = true)
    (ttl : ℤ) :
    ∃ item : CacheItem, item.value = val ∧
      (Broker.cachePut g s key val ttl).2.entries g =
        ⟨fullKey (cacheNamespace g) key, item⟩ ::
          others (fullKey (cacheNamespace g) key) (s.entries g) := by
  rw [Broker.cachePut]
  cases hadmitted : g.admits (ascii "cache") s.budget with
  | error e =>
    rw [Grant.admitsWrite, hadmitted] at h
    cases h
  | ok budget =>
    cases hwrite : g.consumeCacheWrite budget val.length with
    | error e =>
      simp only [Grant.admitsWrite, hadmitted, Except.bind, hwrite] at h
      cases h
    | ok budget' =>
      simp only [hwrite]
      exact ⟨_, rfl, MemCache.live_put key val ttl⟩

theorem entries_cachePut_of_refused {key val : Bytes} (h : g.admitsWrite s.budget val = false)
    (ttl : ℤ) : (Broker.cachePut g s key val ttl).2.entries g = s.entries g := by
  rw [Broker.cachePut]
  cases hadmitted : g.admits (ascii "cache") s.budget with
  | error e => rfl
  | ok budget =>
    cases hwrite : g.consumeCacheWrite budget val.length with
    | error e =>
      simp only [hwrite]
      rfl
    | ok budget' =>
      simp only [Grant.admitsWrite, hadmitted, Except.bind, hwrite] at h
      cases h

theorem cache_call_sublist {c : BrokerCall} (h : ∀ key val ttl, c ≠ .cachePut key val ttl) :
    (b.call g s c).2.cache.entries.Sublist s.cache.entries ∧ (b.call g s c).2.now = s.now := by
  have hsame : s.cache.entries.Sublist s.cache.entries ∧ s.now = s.now :=
    ⟨List.Sublist.refl _, rfl⟩
  cases c with
  | http req answer =>
    simp only [Broker.call, Broker.http]
    rcases brokerHTTP b.registry g s.budget.toBudget req with ⟨e | fwd, used⟩
    · dsimp only
      split_ifs <;> exact hsame
    · dsimp only
      split <;> exact hsame
  | cacheGet key =>
    simp only [Broker.call, Broker.cacheGet]
    split
    · exact hsame
    · exact ⟨MemCache.entries_get_sublist key, rfl⟩
  | cachePut key val ttl => exact absurd rfl (h key val ttl)
  | assetRef slot path query t =>
    simp only [Broker.call, Broker.assetRef]
    split <;> exact hsame
  | log level msg fields =>
    simp only [Broker.call, Broker.log]
    split <;> exact hsame
  | emit e sink =>
    simp only [Broker.call, Broker.emit]
    split
    · exact hsame
    · split_ifs
      · exact hsame
      · split <;> exact hsame

theorem entries_call_sublist {c : BrokerCall} (h : ∀ key val ttl, c ≠ .cachePut key val ttl) :
    ((b.call g s c).2.entries g).Sublist (s.entries g) := by
  obtain ⟨hsub, hnow⟩ := cache_call_sublist (b := b) (g := g) (s := s) h
  rw [Session.entries, hnow]
  exact hsub.filter _

theorem entries_step_sublist {e : CardEvent} (hstep : b.cardStep g e s = some s')
    (h : ∀ key val ttl, e ≠ .during (.call (.cachePut key val ttl))) :
    (s'.entries g).Sublist (s.entries g) := by
  cases e with
  | fresh =>
    cases hstep
    exact List.Sublist.refl _
  | during e =>
    cases e with
    | tick duration =>
      cases hstep
      exact MemCache.live_sublist_of_le (show s.now ≤ s.now + duration by omega)
    | call c =>
      cases hstep
      exact entries_call_sublist fun key val ttl hc => h key val ttl (by rw [hc])

/-- **One step** keeps the entries within the approval exactly if a write finds room. -/
theorem retained_step_iff {e : CardEvent} (h : Retained g s) (hstep : b.cardStep g e s = some s') :
    Retained g s' ↔ LeavesRoom g s e := by
  by_cases hput : ∃ key val ttl, e = .during (.call (.cachePut key val ttl))
  · obtain ⟨key, val, ttl, rfl⟩ := hput
    cases hstep
    cases hadmitted : g.admitsWrite s.budget val with
    | true =>
      obtain ⟨item, rfl, hentries⟩ := entries_cachePut key hadmitted ttl
      have hafter : Retained g (b.call g s (.cachePut key item.value ttl)).2 ↔
          Room g s key item.value := by
        rw [Retained, Broker.call, hentries, liveBytes_cons, List.length_cons, Room,
          add_comm item.value.length]
      rw [hafter]
      constructor
      · intro hroom key' val' ttl' heq _
        cases heq
        exact hroom
      · intro hleaves
        exact hleaves key item.value ttl rfl hadmitted
    | false =>
      refine iff_of_true ?_ ?_
      · refine h.of_sublist ?_
        rw [Broker.call, entries_cachePut_of_refused hadmitted]
      · intro key' val' ttl' heq hadmitted'
        cases heq
        rw [hadmitted] at hadmitted'
        cases hadmitted'
  · refine iff_of_true (h.of_sublist (entries_step_sublist hstep ?_)) ?_
    · intro key val ttl heq
      exact hput ⟨key, val, ttl, heq⟩
    · intro key val ttl heq
      exact absurd ⟨key, val, ttl, heq⟩ hput

/-- **When the cache of a card stays within its approval**: exactly in the runs in which every
write that the counters admit finds room beside what is live. -/
theorem retained_iff_room (b : Broker) (g : Grant) (now : ℤ) (es : List CardEvent)
    (hentries : 0 ≤ g.limits.cacheEntries) (hbytes : 0 ≤ g.limits.cacheBytesKB) :
    Along (b.cardStep g) (fun _ _ s' => Retained g s') (Session.new ∅ now) es ↔
      Along (b.cardStep g) (fun s e _ => LeavesRoom g s e) (Session.new ∅ now) es := by
  refine along_iff (I := Retained g) retained_step_iff (fun _ _ hnext => hnext) es ?_
  have hempty : (Session.new ∅ now).entries g = [] := rfl
  rw [Retained, hempty]
  exact ⟨hentries, mul_nonneg hbytes (by decide)⟩

end

/-- A card that may keep one entry of a KiB. -/
def oneEntry : Grant :=
  { demoGrant (ascii "api") [] with
    caps := GoMap.ofList [(ascii "cache", true)]
    limits := ⟨8, 4, 1, 1, 256, 64, Limits.default_fits⟩
    ident := ⟨1, [], ascii "digest", [], ∅⟩ }

def write (key : Bytes) : CardEvent := .during (.call (.cachePut key (ascii "v") 0))

/-- Two invocations that write the same entry find room. -/
theorem retained_iff_room_rewrite :
    Along (emptyBroker.cardStep oneEntry) (fun s e _ => LeavesRoom oneEntry s e)
      (Session.new ∅ 0) [.fresh, write (ascii "a"), .fresh, write (ascii "a")] :=
  (retained_iff_room emptyBroker oneEntry 0 _ (by decide) (by decide)).mp (by decide +kernel)

/-- Each of two invocations writes an entry of its own, and the cache holds both. -/
theorem retention_exceeded_by_second_invocation :
    ¬ Along (emptyBroker.cardStep oneEntry) (fun _ _ s' => Retained oneEntry s')
      (Session.new ∅ 0) [.fresh, write (ascii "a"), .fresh, write (ascii "b")] := by
  decide +kernel

end Veduta.Capabilities
