import Veduta.Go.Map
import Veduta.Go.Time

/-!
# Failed attempts

Package `auth`: failures are counted by key in windows of ten minutes, and the fifth locks the key
for fifteen.  The table of counts is bounded; past the bound an entry is evicted, locked or not.
-/

namespace Veduta.Auth

open Go

structure Attempt where
  count : ℕ
  windowStart : ℤ
  lockedUntil : ℤ
  deriving DecidableEq, Repr

def Attempt.zero : Attempt := ⟨0, zeroTime, zeroTime⟩

abbrev Table := GoMap Bytes Attempt

def maxTrackedSources : ℕ := 4096

/-- The window is over, and the key is not locked. -/
def Attempt.expired (now : ℤ) (a : Attempt) : Bool :=
  10 * minute ≤ now - a.windowStart && !(now < a.lockedUntil)

/-- One more entry in the search for the oldest window. -/
def older (acc : Bytes × ℤ) (x : Σ _ : Bytes, Attempt) : Bytes × ℤ :=
  if acc.2 = zeroTime ∨ x.2.windowStart < acc.2 then (x.1, x.2.windowStart) else acc

/-- The key of the first entry with the oldest window. -/
def oldestKey (order : List (Σ _ : Bytes, Attempt)) : Bytes :=
  (order.foldl older ([], zeroTime)).1

/-- The entries that the first loop leaves. -/
def Table.live (now : ℤ) (t : Table) : Table := t.filter fun _ a => !a.expired now

/-- Room for one new entry; `none` if the table cannot be visited in this order. -/
def evictLocked (order : List (Σ _ : Bytes, Attempt)) (now : ℤ) (t : Table) : Option Table :=
  if t.size < maxTrackedSources then some t
  else if (t.live now).size < maxTrackedSources then some (t.live now)
  else if order.Perm (t.live now).entries then some ((t.live now).erase (oldestKey order))
  else none

/-- An entry after one more failure. -/
def Attempt.fail (now : ℤ) (a : Attempt) : Attempt :=
  let a := if a.windowStart = zeroTime ∨ 10 * minute ≤ now - a.windowStart then
    ⟨0, now, zeroTime⟩ else a
  let a := { a with count := a.count + 1 }
  if 5 ≤ a.count then { a with lockedUntil := now + 15 * minute } else a

def recordFailure (order : List (Σ _ : Bytes, Attempt)) (key : Bytes) (now : ℤ) (t : Table) :
    Option Table :=
  let room := if (t.lookup key).isSome then some t else evictLocked order now t
  room.map fun t => t.insert key ((t.get .zero key).fail now)

theorem foldl_older_mem (order : List (Σ _ : Bytes, Attempt)) (acc : Bytes × ℤ) :
    order.foldl older acc = acc ∨ ∃ x ∈ order, order.foldl older acc = (x.1, x.2.windowStart) := by
  induction order generalizing acc with
  | nil => exact .inl rfl
  | cons x order ih =>
    rw [List.foldl_cons]
    rcases ih (older acc x) with hacc | ⟨y, hy, heq⟩
    · rw [hacc, older]
      split
      · exact .inr ⟨x, List.mem_cons_self, rfl⟩
      · exact .inl rfl
    · exact .inr ⟨y, List.mem_cons_of_mem x hy, heq⟩

variable {order : List (Σ _ : Bytes, Attempt)} {key : Bytes} {now : ℤ} {t t' : Table} {a : Attempt}

theorem oldestKey_mem (h : order ≠ []) : oldestKey order ∈ order.keys := by
  cases order with
  | nil => exact absurd rfl h
  | cons x order =>
    have hfirst : older ([], zeroTime) x = (x.1, x.2.windowStart) := if_pos (.inl rfl)
    rw [oldestKey, List.foldl_cons, hfirst]
    rcases foldl_older_mem order (x.1, x.2.windowStart) with hacc | ⟨y, hy, heq⟩
    · rw [hacc]
      exact List.mem_keys_of_mem List.mem_cons_self
    · rw [heq]
      exact List.mem_keys_of_mem (List.mem_cons_of_mem x hy)

theorem foldl_older_of_le {t : ℤ} (hzero : t ≠ zeroTime) (hle : ∀ x ∈ order, t ≤ x.2.windowStart) :
    order.foldl older (key, t) = (key, t) := by
  induction order with
  | nil => rfl
  | cons x order ih =>
    obtain ⟨hx, hle⟩ := List.forall_mem_cons.mp hle
    have hstay : older (key, t) x = (key, t) := by
      refine if_neg ?_
      intro hor
      rcases hor with hz | hlt
      · exact hzero hz
      · exact absurd hx (not_le.mpr hlt)
    rw [List.foldl_cons, hstay]
    exact ih hle

theorem foldl_older_eq {t : ℤ} {acc : Bytes × ℤ} (hzero : t ≠ zeroTime) (hkey : key ∈ order.keys)
    (hstart : ∀ x ∈ order, x.1 = key → x.2.windowStart = t)
    (hlater : ∀ x ∈ order, x.1 ≠ key → t < x.2.windowStart) (hacc : acc.2 = zeroTime ∨ t < acc.2) :
    order.foldl older acc = (key, t) := by
  induction order generalizing acc with
  | nil => cases hkey
  | cons x order ih =>
    obtain ⟨hx, hstart⟩ := List.forall_mem_cons.mp hstart
    obtain ⟨hx', hlater⟩ := List.forall_mem_cons.mp hlater
    rw [List.foldl_cons]
    by_cases hxkey : x.1 = key
    · have htake : older acc x = (key, t) := by
        rw [older, if_pos, hxkey, hx hxkey]
        rw [hx hxkey]
        exact hacc
      rw [htake]
      refine foldl_older_of_le hzero ?_
      intro y hy
      by_cases hykey : y.1 = key
      · exact (hstart y hy hykey).ge
      · exact (hlater y hy hykey).le
    · refine ih ?_ hstart hlater ?_
      · rw [List.keys_cons, List.mem_cons] at hkey
        exact hkey.resolve_left (Ne.symm hxkey)
      · rw [older]
        split
        · exact .inr (hx' hxkey)
        · exact hacc

/-- A key whose window is older than all others. -/
theorem oldestKey_eq {t : ℤ} (hzero : t ≠ zeroTime) (hkey : key ∈ order.keys)
    (hstart : ∀ x ∈ order, x.1 = key → x.2.windowStart = t)
    (hlater : ∀ x ∈ order, x.1 ≠ key → t < x.2.windowStart) : oldestKey order = key := by
  rw [oldestKey, foldl_older_eq hzero hkey hstart hlater (.inl rfl)]

theorem size_evictLocked_lt (hsize : t.size ≤ maxTrackedSources)
    (h : evictLocked order now t = some t') : t'.size < maxTrackedSources := by
  rw [evictLocked] at h
  split at h
  · cases h
    assumption
  · split at h
    · cases h
      assumption
    · rename_i hfull
      split at h
      · rename_i hperm
        cases h
        have hne : order ≠ [] := by
          intro hnil
          have hempty : (t.live now).size = 0 := by
            rw [GoMap.size, AList.keys, List.keys, List.length_map, ← hperm.length_eq, hnil]
            rfl
          rw [hempty] at hfull
          exact hfull (by decide)
        have hmem : oldestKey order ∈ (t.live now).keys :=
          (hperm.map Sigma.fst).mem_iff.mp (oldestKey_mem hne)
        calc GoMap.size ((t.live now).erase (oldestKey order))
          _ < (t.live now).size := GoMap.size_erase_lt hmem
          _ ≤ t.size := GoMap.size_filter_le t _
          _ ≤ maxTrackedSources := hsize
      · cases h

/-- **The table stays within its bound.** -/
theorem size_recordFailure_le (hsize : t.size ≤ maxTrackedSources)
    (h : recordFailure order key now t = some t') : t'.size ≤ maxTrackedSources := by
  rw [recordFailure, Option.map_eq_some_iff] at h
  obtain ⟨room, hroom, rfl⟩ := h
  split at hroom
  · rename_i htracked
    cases hroom
    rw [GoMap.size_insert_of_isSome htracked]
    exact hsize
  · have hlt := size_evictLocked_lt hsize hroom
    have hle := GoMap.size_insert_le room key ((room.get .zero key).fail now)
    omega

/-- The table is full of entries that are not expired, and the key is the oldest. -/
def Evicts (order : List (Σ _ : Bytes, Attempt)) (now : ℤ) (t : Table) (key : Bytes) : Prop :=
  maxTrackedSources ≤ (t.live now).size ∧ oldestKey order = key

instance (order : List (Σ _ : Bytes, Attempt)) (now : ℤ) (t : Table) (key : Bytes) :
    Decidable (Evicts order now t key) :=
  inferInstanceAs (Decidable (_ ∧ _))

theorem lookup_live (h : t.lookup key = some a) (hlive : a.expired now = false) :
    (t.live now).lookup key = some a := by
  rw [GoMap.lookup_eq_some_iff] at h ⊢
  rw [Table.live, GoMap.mem_entries_filter]
  exact ⟨h, by simp [hlive]⟩

/-- An entry that is not expired stays, unless it is evicted. -/
theorem lookup_evictLocked (hroom : evictLocked order now t = some t') (h : t.lookup key = some a)
    (hlive : a.expired now = false) (hspared : ¬ Evicts order now t key) :
    t'.lookup key = some a := by
  rw [evictLocked] at hroom
  split at hroom
  · cases hroom
    exact h
  · split at hroom
    · cases hroom
      exact lookup_live h hlive
    · rename_i hfull
      split at hroom
      · cases hroom
        have hne : key ≠ oldestKey order := fun heq => hspared ⟨by omega, heq.symm⟩
        rw [AList.lookup_erase_ne hne]
        exact lookup_live h hlive
      · cases hroom

/-- **A failure of another key** leaves an entry that is not expired, unless the other key is new
and the entry is evicted. -/
theorem lookup_recordFailure_of_ne {other : Bytes}
    (hfail : recordFailure order other now t = some t') (h : t.lookup key = some a)
    (hne : key ≠ other) (hlive : a.expired now = false)
    (hspared : t.lookup other = none → ¬ Evicts order now t key) : t'.lookup key = some a := by
  rw [recordFailure, Option.map_eq_some_iff] at hfail
  obtain ⟨room, hroom, rfl⟩ := hfail
  rw [AList.lookup_insert_ne hne]
  split at hroom
  · cases hroom
    exact h
  · rename_i hnew
    exact lookup_evictLocked hroom h hlive (hspared (by simpa using hnew))

theorem lookup_recordFailure_self (hfail : recordFailure order key now t = some t')
    (h : t.lookup key = some a) : t'.lookup key = some (a.fail now) := by
  rw [recordFailure, Option.map_eq_some_iff] at hfail
  obtain ⟨room, hroom, rfl⟩ := hfail
  rw [if_pos (by rw [h]; rfl)] at hroom
  cases hroom
  rw [AList.lookup_insert, GoMap.get, h]
  rfl

end Veduta.Auth
