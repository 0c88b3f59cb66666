import Veduta.App.Grant
import Veduta.Capabilities.Calls

/-!
# The budget of an approval

The limits that an approval records bound every invocation of a card: the broker's counters
stop at a ceiling, and by the schema every ceiling but `cacheEntries` is positive.  A ceiling
of zero entries is one that the approval can record, and that the counter takes for none.
-/

namespace Veduta.App

open Go Lib Capabilities Connections
open Integrations (LimitField limitBounds requested effectiveLimit reconcileAtApproval)

/-- No value is below the minimum of the schema. -/
def Admissible (l : Integrations.Limits) : Prop := ∀ f v, l.field f = some v → f.minimum ≤ v

theorem minimum_le_requested {l : Integrations.Limits} (h : Admissible l) (f : LimitField) :
    f.minimum ≤ requested f l := by
  have hdefault : ∀ f : LimitField, f.minimum ≤ (limitBounds f).default := by decide
  have hmax := Integrations.default_le_max f
  cases hf : l.field f with
  | none =>
    rw [Integrations.requested_of_none hf]
    exact hdefault f
  | some v =>
    have hv := h f v hf
    have hd := hdefault f
    rw [Integrations.requested_of_some hf]
    omega

theorem minimum_le_effectiveLimit {manifest approved : Integrations.Limits}
    (hm : Admissible manifest) (ha : Admissible approved) (f : LimitField) :
    f.minimum ≤ effectiveLimit f manifest approved := by
  rw [Integrations.effectiveLimit_eq_min]
  exact le_min (minimum_le_requested hm f) (minimum_le_requested ha f)

/-- **Every invocation stays within the limits of its grant**: the calls that succeed, the
upstream requests and cache writes among them, and the bytes written. -/
def Enforced (g : Grant) : Prop :=
  ∀ (b : Broker) (cache : MemCache) (now : ℤ) (es : List BrokerEvent) (m : Meter),
    total (b.step g) (spent b g m) (Session.new cache now) es ≤ m.unit * m.limit g.limits

theorem spent_cacheEntries_of_denied {b : Broker} {g : Grant} {s s' : Session} {e : BrokerEvent}
    (h : g.caps.has (ascii "cache") = false) : spent b g .cacheEntries s e s' = 0 := by
  cases e with
  | tick duration => rfl
  | call c =>
    rw [spent]
    split_ifs with hok
    · cases c with
      | cachePut key val ttl =>
        simp [Broker.call, Broker.cachePut, Grant.admits, h, Except.isOk, Except.toBool] at hok
      | _ => rfl
    · rfl

theorem total_spent_of_denied {g : Grant} (h : g.caps.has (ascii "cache") = false) (b : Broker)
    (cache : MemCache) (now : ℤ) (es : List BrokerEvent) :
    total (b.step g) (spent b g .cacheEntries) (Session.new cache now) es ≤ 0 :=
  total_le 0 (I := fun _ => True) (φ := fun _ => 0) (fun _ _ => trivial)
    (fun _ _ => ((zero_add _).trans (spent_cacheEntries_of_denied h)).le) (fun _ => le_refl _) es
    trivial

theorem cachePut_of_unset {g : Grant} (hcap : g.caps.has (ascii "cache") = true)
    (hentries : g.limits.cacheEntries ≤ 0) (cache : MemCache) (now : ℤ) (key : Bytes) (ttl : ℤ) :
    (Broker.cachePut g (Session.new cache now) key [] ttl).1.isOk = true := by
  have hcall : g.consumeHostCall {} = .ok { hostCallsUsed := 1 } := by
    rw [Grant.consumeHostCall, if_neg]
    · rfl
    · intro h
      exact absurd h.2 (not_le.mpr h.1)
  have hwrite : g.consumeCacheWrite { hostCallsUsed := 1 } 0 =
      .ok { hostCallsUsed := 1, cacheEntriesUsed := 1 } := by
    rw [Grant.consumeCacheWrite, if_neg, if_neg]
    · rfl
    · intro h
      exact absurd h.2 (not_lt.mpr h.1.le)
    · intro h
      exact absurd h.1 (not_lt.mpr hentries)
  simp [Broker.cachePut, Grant.admits, hcap, Session.new, hcall, hwrite, Except.isOk, Except.toBool]

section

variable {m : Manifest} {l : LoadedEntry} {card : Card} {reg : Registry}
variable {revisions : GoMap Bytes Bytes} {generation : ℕ} {approvalRevision cardHash : Bytes}
variable {manifest approved : Integrations.Limits}

/-- **When an approval bounds every invocation**: exactly if it records a positive number of cache
entries, or does not grant the cache. -/
theorem budget_enforced_iff (hm : Admissible manifest) (ha : Admissible approved)
    (hl : l.effectiveLimits = reconcileAtApproval manifest approved) :
    Enforced (grant m l card reg revisions generation approvalRevision cardHash) ↔
      0 < l.effectiveLimits.field .cacheEntries ∨ ascii "cache" ∉ l.capabilities := by
  have hmin : ∀ f, f.minimum ≤ l.effectiveLimits.field f := by
    intro f
    rw [hl]
    exact minimum_le_effectiveLimit hm ha f
  have hcap : (grant m l card reg revisions generation approvalRevision cardHash).caps.has
      (ascii "cache") = true ↔ ascii "cache" ∈ l.capabilities := has_newCapSet
  constructor
  · intro henforced
    by_contra hnot
    rw [not_or, not_not, not_lt] at hnot
    -- one empty value, with an unlimited number of entries
    have hone := henforced emptyBroker ∅ 0 [.call (.cachePut [] [] 0)] .cacheEntries
    rw [total_cons (u := _) _ rfl] at hone
    have hok := cachePut_of_unset (hcap.mpr hnot.2) hnot.1 ∅ 0 [] 0
    simp only [spent, Broker.call, hok, total, Meter.amount, Meter.unit, Meter.limit] at hone
    change _ ≤ 1 * l.effectiveLimits.field .cacheEntries at hone
    have hle := hnot.1
    simp only [if_true] at hone
    omega
  · intro hpos b cache now es meter
    have hfree : ∀ f : LimitField, f ≠ .cacheEntries → 0 < l.effectiveLimits.field f := by
      intro f hf
      have hpos : 0 < f.minimum := by
        cases f <;> first | exact absurd rfl hf | decide
      exact hpos.trans_le (hmin f)
    cases meter with
    | hostCalls =>
      apply total_spent_le
      exact hfree .hostCalls (by simp)
    | httpRequests =>
      apply total_spent_le
      exact hfree .httpRequests (by simp)
    | cacheBytesKB =>
      apply total_spent_le
      exact hfree .cacheBytesKB (by simp)
    | cacheEntries =>
      rcases hpos with hpos | hdenied
      · apply total_spent_le
        exact hpos
      · have hnone := Bool.eq_false_iff.mpr (mt hcap.mp hdenied)
        refine (total_spent_of_denied hnone b cache now es).trans ?_
        change 0 ≤ 1 * l.effectiveLimits.field .cacheEntries
        rw [one_mul]
        exact hmin .cacheEntries

end

/-- A manifest that asks for no cache entries, as its approval records it. -/
def noEntries : Integrations.Limits := ⟨fun f => if f = .cacheEntries then some 0 else none⟩

/-- An approval of a cache, under limits of the manifest and of the approval. -/
def cacheApproval (manifest approved : Integrations.Limits) : LoadedEntry where
  manifestSHA256 := ascii "digest"
  approvedAt := ascii "2026-01-01T00:00:00Z"
  capabilities := [ascii "cache"]
  routes := []
  effectiveLimits := reconcileAtApproval manifest approved
  requestBodyKB_le := (Integrations.effectiveLimit_le .requestBodyKB manifest approved).trans
    (Integrations.requested_le_max .requestBodyKB manifest)

def cacheGrant (manifest : Integrations.Limits) (approved : Integrations.Limits := .empty) :
    Grant :=
  grant twoOperations (cacheApproval manifest approved) cardA emptyRegistry ∅ 1 [] []

/-- The manifest asks for no entries, and writes one. -/
theorem budget_exceeded_by_zero_entries : ¬ Enforced (cacheGrant noEntries) := by
  intro h
  have hone := h emptyBroker ∅ 0 [.call (.cachePut (ascii "k") (ascii "v") 0)]
    .cacheEntries
  exact absurd hone (by decide +kernel)

/-- A manifest that asks for a few entries and requests. -/
def fewEntries : Integrations.Limits :=
  ⟨fun f => if f = .cacheEntries then some 3 else if f = .httpRequests then some 5 else none⟩

/-- An approval that grants fewer requests. -/
def fewerRequests : Integrations.Limits := ⟨fun f => if f = .httpRequests then some 2 else none⟩

/-- A plugin stays within its three entries and two requests. -/
theorem budget_enforced_iff_few :
    Enforced (cacheGrant fewEntries fewerRequests) ∧
      (cacheGrant fewEntries fewerRequests).limits.cacheEntries = 3 ∧
      (cacheGrant fewEntries fewerRequests).limits.httpRequests = 2 := by
  have hmanifest : Admissible fewEntries := by
    intro f v hf
    cases f <;> cases hf <;> decide
  have happroved : Admissible fewerRequests := by
    intro f v hf
    cases f <;> cases hf
    decide
  exact ⟨(budget_enforced_iff hmanifest happroved rfl).mpr (.inl (by decide)), by decide,
    by decide⟩

end Veduta.App
