import Mathlib.Algebra.Order.BigOperators.Group.List
import Veduta.Capabilities.Authorize
import Veduta.Go.Time

/-!
# The broker's cache

Package `capabilities`: a map in memory that lives as long as the broker.  The keys of a card
instance begin with its namespace.  An entry that has expired is dropped when it is next read,
so the map may hold more than is live.
-/

namespace Veduta.Capabilities

open Go

/-- A cached value; the zero time is no expiry. -/
structure CacheItem where
  value : Bytes
  expiresAt : ℤ

def CacheItem.expired (now : ℤ) (item : CacheItem) : Bool :=
  item.expiresAt ≠ zeroTime && item.expiresAt < now

abbrev MemCache := GoMap Bytes CacheItem

def cacheNamespace (g : Grant) : Bytes :=
  ascii "plugin:" ++ g.pluginID ++ chr ':' :: g.ident.manifestDigest ++ chr ':' :: g.instanceID

/-- The key of an entry in the map. -/
def fullKey (ns key : Bytes) : Bytes := ns ++ chr ':' :: key

namespace MemCache

def get (now : ℤ) (c : MemCache) (ns key : Bytes) : Option Bytes × MemCache :=
  match c.lookup (fullKey ns key) with
  | none => (none, c)
  | some item =>
    if item.expired now then (none, c.erase (fullKey ns key)) else (some item.value, c)

def put (now : ℤ) (c : MemCache) (ns key val : Bytes) (ttl : ℤ) : MemCache :=
  c.insert (fullKey ns key) ⟨val, if 0 < ttl then now + ttl else zeroTime⟩

/-- An entry of the namespace that has not expired. -/
def isLive (now : ℤ) (ns : Bytes) (x : Σ _ : Bytes, CacheItem) : Bool :=
  hasPrefix x.1 (fullKey ns []) && !x.2.expired now

/-- The entries of a namespace that have not expired. -/
def live (now : ℤ) (c : MemCache) (ns : Bytes) : List (Σ _ : Bytes, CacheItem) :=
  c.entries.filter (isLive now ns)

end MemCache

def liveBytes (entries : List (Σ _ : Bytes, CacheItem)) : ℕ :=
  (entries.map fun x => x.2.value.length).sum

/-- The entries under other keys. -/
def others (full : Bytes) (entries : List (Σ _ : Bytes, CacheItem)) :
    List (Σ _ : Bytes, CacheItem) :=
  entries.filter fun x => x.1 ≠ full

@[simp] theorem liveBytes_cons (x : Σ _ : Bytes, CacheItem)
    (entries : List (Σ _ : Bytes, CacheItem)) :
    liveBytes (x :: entries) = x.2.value.length + liveBytes entries := by
  simp [liveBytes]

theorem liveBytes_le_of_sublist {xs ys : List (Σ _ : Bytes, CacheItem)} (h : xs.Sublist ys) :
    liveBytes xs ≤ liveBytes ys :=
  (h.map _).sum_le_sum (by simp)

namespace MemCache

variable {now : ℤ} {c : MemCache} {ns : Bytes}

/-- A write is live, beside what was live under other keys. -/
theorem live_put (key val : Bytes) (ttl : ℤ) :
    live now (c.put now ns key val ttl) ns =
      ⟨fullKey ns key, val, if 0 < ttl then now + ttl else zeroTime⟩ ::
        others (fullKey ns key) (live now c ns) := by
  have hprefix : hasPrefix (fullKey ns key) (fullKey ns []) = true := by
    simp [fullKey, hasPrefix]
  have hfresh : CacheItem.expired now ⟨val, if 0 < ttl then now + ttl else zeroTime⟩ = false := by
    rw [CacheItem.expired]
    split_ifs with h
    · simp only [Bool.and_eq_false_imp, decide_eq_true_eq, decide_eq_false_iff_not]
      omega
    · simp
  rw [live, put, GoMap.entries_insert, List.filter_cons, if_pos]
  · rw [others, live, List.filter_filter, List.filter_filter]
    congr 1
    refine List.filter_congr fun x _ => ?_
    exact Bool.and_comm _ _
  · rw [isLive, hprefix, hfresh]
    rfl

theorem live_sublist_of_le {now' : ℤ} (h : now ≤ now') :
    (live now' c ns).Sublist (live now c ns) := by
  have hfilter : live now' c ns = (live now c ns).filter (isLive now' ns) := by
    rw [live, live, List.filter_filter]
    refine List.filter_congr fun x _ => ?_
    rw [Bool.eq_iff_iff, Bool.and_eq_true]
    refine (and_iff_left_of_imp fun hlive => ?_).symm
    simp only [isLive, CacheItem.expired, Bool.and_eq_true, Bool.not_eq_true', Bool.and_eq_false_imp,
      decide_eq_true_eq, decide_eq_false_iff_not] at hlive ⊢
    refine ⟨hlive.1, fun hne => ?_⟩
    have hlt := hlive.2 hne
    omega
  rw [hfilter]
  exact List.filter_sublist

theorem entries_get_sublist (key : Bytes) :
    (c.get now ns key).2.entries.Sublist c.entries := by
  rw [get]
  split
  · exact List.Sublist.refl _
  · split_ifs
    · exact List.kerase_sublist _ _
    · exact List.Sublist.refl _

end MemCache

end Veduta.Capabilities
