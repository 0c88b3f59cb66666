import Veduta.Capabilities.Calls

/-!
# Denied calls

The preamble of an upstream request looks at the counters last, so a call that is refused for
its capability, slot or route is not counted, and it is refused for that reason also when
the counters are at their end.
-/

namespace Veduta.Capabilities

open Go Connections

/-- An upstream request, and what the registry answers if it is asked. -/
structure HTTPCall where
  req : HTTPRequest
  answer : Except UpstreamError Response

def Broker.results (b : Broker) (g : Grant) : Session → List HTTPCall → List (Except CallError Reply)
  | _, [] => []
  | s, c :: calls =>
    (b.http g s c.req c.answer).1 :: b.results g (b.http g s c.req c.answer).2 calls

def isBudgetError : Except CallError Reply → Bool
  | .error e => e.isBudgetExceeded
  | .ok _ => false

/-- **Every call beyond the ceiling fails with the budget error**, whatever the earlier ones
were. -/
def DeniedCharged (b : Broker) (g : Grant) (s : Session) (calls : List HTTPCall) : Prop :=
  ∀ (k : ℕ) r, g.limits.hostCalls ≤ k → (b.results g s calls)[k]? = some r →
    isBudgetError r = true

/-! ## What decides -/

/-- The capability, slot and route of a request. -/
def Grant.permits (g : Grant) (req : HTTPRequest) : Bool :=
  g.caps.has (ascii "http") && (g.slots.lookup req.slot).isSome && (g.authorize req useData).isOk

/-- The counters are at an end after this many permitted calls. -/
def Grant.exhausted (g : Grant) (n : ℕ) : Prop :=
  0 < g.limits.hostCalls ∧ g.limits.hostCalls ≤ n ∨
    0 < g.limits.httpRequests ∧ g.limits.httpRequests ≤ n

def isTooLarge : Except UpstreamError Response → Bool
  | .error .responseTooLarge => true
  | _ => false

/-- The answer of the connection is too large, which is the budget error as well. -/
def Broker.tooLarge (b : Broker) (g : Grant) (c : HTTPCall) : Prop :=
  isTooLarge c.answer = true ∧
    ((g.slots.lookup c.req.slot).bind fun id =>
      (b.registry.connections.lookup id).bind Connection.http).isSome = true

/-- A counter after some charges, under a ceiling if it is positive. -/
def counted (limit : ℤ) (n : ℤ) : ℤ := if 0 < limit then min n limit else n

/-- The counters after this many permitted calls. -/
def Counted (g : Grant) (n : ℕ) (b : Budget) : Prop :=
  b.hostCallsUsed = counted g.limits.hostCalls n ∧
    b.httpRequestsUsed = counted g.limits.httpRequests (counted g.limits.hostCalls n)

/-- The part of the preamble that looks at the counters. -/
def Grant.chargeRequest (g : Grant) (connID : Bytes) (b : Budget) :
    Except BrokerError Bytes × Budget :=
  match g.consumeHostCall b with
  | .error e => (.error e, b)
  | .ok b =>
    match g.consumeHTTPRequest b with
    | .error e => (.error e, b)
    | .ok b => (.ok connID, b)

section

variable {g : Grant} {n : ℕ} {b : Budget}
variable {req : HTTPRequest}

theorem consumeHostCall_of_counted (h : b.hostCallsUsed = counted g.limits.hostCalls n) :
    if 0 < g.limits.hostCalls ∧ g.limits.hostCalls ≤ n then
      g.consumeHostCall b = .error .budgetExceeded
    else g.consumeHostCall b = .ok { b with hostCallsUsed := b.hostCallsUsed + 1 } := by
  rw [counted] at h
  split_ifs with hfull
  · rw [Grant.consumeHostCall, if_pos]
    rw [if_pos hfull.1] at h
    omega
  · rw [Grant.consumeHostCall, if_neg]
    split_ifs at h <;> omega

theorem consumeHTTPRequest_of_counted (h : b.httpRequestsUsed = counted g.limits.httpRequests n) :
    if 0 < g.limits.httpRequests ∧ g.limits.httpRequests ≤ n then
      g.consumeHTTPRequest b = .error .budgetExceeded
    else g.consumeHTTPRequest b = .ok { b with httpRequestsUsed := b.httpRequestsUsed + 1 } := by
  rw [counted] at h
  split_ifs with hfull
  · rw [Grant.consumeHTTPRequest, if_pos]
    rw [if_pos hfull.1] at h
    omega
  · rw [Grant.consumeHTTPRequest, if_neg]
    split_ifs at h <;> omega

theorem counted_succ (limit : ℤ) :
    counted limit (n + 1 : ℕ) =
      if 0 < limit ∧ limit ≤ n then counted limit n else counted limit n + 1 := by
  simp only [counted]
  split_ifs <;> omega

theorem counted_of_not_full {limit : ℤ} (h : ¬ (0 < limit ∧ limit ≤ n)) : counted limit n = n := by
  rw [counted]
  split_ifs <;> omega

theorem admitHTTP_of_permits (h : g.permits req = true) (b : Budget) :
    ∃ connID, g.slots.lookup req.slot = some connID ∧
      g.admitHTTP req b = g.chargeRequest connID b := by
  simp only [Grant.permits, Bool.and_eq_true] at h
  obtain ⟨⟨hcap, hslot⟩, hauth⟩ := h
  obtain ⟨connID, hslot⟩ := Option.isSome_iff_exists.mp hslot
  cases hroute : g.authorize req useData with
  | error e =>
    rw [hroute] at hauth
    cases hauth
  | ok u =>
    refine ⟨connID, hslot, ?_⟩
    simp only [Grant.admitHTTP, hcap, hslot, hroute]
    rfl

theorem admitHTTP_of_not_permits (h : g.permits req = false) (b : Budget) :
    ∃ e, e ≠ .budgetExceeded ∧ g.admitHTTP req b = (.error e, b) := by
  cases hcap : g.caps.has (ascii "http") with
  | false => exact ⟨.capDenied, by simp, by simp [Grant.admitHTTP, hcap]⟩
  | true =>
    cases hslot : g.slots.lookup req.slot with
    | none => exact ⟨.slotDenied, by simp, by simp [Grant.admitHTTP, hcap, hslot]⟩
    | some connID =>
      cases hroute : g.authorize req useData with
      | error e => exact ⟨.routeDenied e, by simp, by simp [Grant.admitHTTP, hcap, hslot, hroute]⟩
      | ok u => simp [Grant.permits, hcap, hslot, hroute, Except.isOk, Except.toBool] at h

/-- **The preamble**, by the number of calls that were permitted before. -/
theorem admitHTTP_of_counted (h : g.permits req = true) (hcount : Counted g n b) :
    ∃ connID b', g.slots.lookup req.slot = some connID ∧ Counted g (n + 1) b' ∧
      (g.exhausted n ∧ g.admitHTTP req b = (.error .budgetExceeded, b') ∨
        ¬ g.exhausted n ∧ g.admitHTTP req b = (.ok connID, b')) := by
  obtain ⟨connID, hslot, heq⟩ := admitHTTP_of_permits h b
  obtain ⟨hhost, hhttp⟩ := hcount
  have hcall := consumeHostCall_of_counted hhost
  have hsucc := counted_succ (n := n) g.limits.hostCalls
  by_cases hfull : 0 < g.limits.hostCalls ∧ g.limits.hostCalls ≤ n
  · rw [if_pos hfull] at hcall hsucc
    rw [Grant.chargeRequest, hcall] at heq
    refine ⟨connID, b, hslot, ⟨?_, ?_⟩, .inl ⟨.inl hfull, heq⟩⟩
    · rw [hsucc, hhost]
    · rw [hsucc, hhttp]
  · rw [if_neg hfull] at hcall hsucc
    rw [counted_of_not_full hfull] at hhttp hhost hsucc
    have hrequest := consumeHTTPRequest_of_counted (g := g) (n := n)
      (b := { b with hostCallsUsed := b.hostCallsUsed + 1 }) hhttp
    have hsucc' := counted_succ (n := n) g.limits.httpRequests
    have hcast : ((n : ℤ) + 1) = (n + 1 : ℕ) := rfl
    by_cases hfull' : 0 < g.limits.httpRequests ∧ g.limits.httpRequests ≤ n
    · rw [if_pos hfull'] at hrequest hsucc'
      simp only [Grant.chargeRequest, hcall, hrequest] at heq
      refine ⟨connID, _, hslot, ⟨?_, ?_⟩, .inl ⟨.inr hfull', heq⟩⟩
      · rw [hsucc, hhost]
      · rw [hsucc, hcast, hsucc', hhttp]
    · rw [if_neg hfull'] at hrequest hsucc'
      simp only [Grant.chargeRequest, hcall, hrequest] at heq
      refine ⟨connID, _, hslot, ⟨?_, ?_⟩, .inr ⟨?_, heq⟩⟩
      · rw [hsucc, hhost]
      · rw [hsucc, hcast, hsucc', hhttp]
      · intro hex
        exact hex.elim hfull hfull'

end

/-! ## Calls -/

section

variable {b : Broker} {g : Grant} {s : Session} {n : ℕ}

/-- **One call.** -/
theorem http_of_counted (hcount : Counted g n s.budget.toBudget) (c : HTTPCall) :
    (isBudgetError (b.http g s c.req c.answer).1 = true ↔
        g.permits c.req = true ∧ (g.exhausted n ∨ b.tooLarge g c)) ∧
      Counted g (if g.permits c.req then n + 1 else n)
        (b.http g s c.req c.answer).2.budget.toBudget := by
  cases hpermits : g.permits c.req with
  | false =>
    obtain ⟨e, hne, heq⟩ := admitHTTP_of_not_permits hpermits s.budget.toBudget
    have hbroker : brokerHTTP b.registry g s.budget.toBudget c.req =
        (.error e, s.budget.toBudget) := by
      rw [brokerHTTP, heq]
    have hbudget : isBudgetError (b.http g s c.req c.answer).1 = false := by
      rw [Broker.http, hbroker]
      cases e with
      | budgetExceeded => exact absurd rfl hne
      | _ => rfl
    have hused : (b.http g s c.req c.answer).2.budget.toBudget = s.budget.toBudget := by
      rw [Broker.http, hbroker]
      dsimp only
      split_ifs <;> rfl
    rw [hbudget, hused]
    exact ⟨by simp, hcount⟩
  | true =>
    obtain ⟨connID, used, hslot, hcount', ⟨hex, heq⟩ | ⟨hex, heq⟩⟩ :=
      admitHTTP_of_counted hpermits hcount
    · have hbroker : brokerHTTP b.registry g s.budget.toBudget c.req =
          (.error .budgetExceeded, used) := by
        rw [brokerHTTP, heq]
      rw [Broker.http, hbroker]
      exact ⟨iff_of_true rfl ⟨rfl, .inl hex⟩, hcount'⟩
    · cases hhttp : (b.registry.connections.lookup connID).bind Connection.http with
      | none =>
        have hlarge : ¬ b.tooLarge g c := by
          intro hlarge
          rw [Broker.tooLarge, hslot, Option.bind_some, hhttp] at hlarge
          cases hlarge.2
        simp only [Broker.http, brokerHTTP, heq, hhttp]
        exact ⟨iff_of_false Bool.false_ne_true fun h => h.2.elim hex hlarge, hcount'⟩
      | some cfg =>
        have hlarge : b.tooLarge g c ↔ isTooLarge c.answer = true := by
          rw [Broker.tooLarge, hslot, Option.bind_some, hhttp]
          exact and_iff_left rfl
        have hbudget : isBudgetError (b.http g s c.req c.answer).1 = isTooLarge c.answer ∧
            (b.http g s c.req c.answer).2.budget.toBudget = used := by
          simp only [Broker.http, brokerHTTP, heq, hhttp]
          rcases c.answer with e | response
          · cases e <;> exact ⟨rfl, rfl⟩
          · exact ⟨rfl, rfl⟩
        rw [hbudget.1, hbudget.2, hlarge]
        exact ⟨by simp [hex], hcount'⟩

/-- The number of calls that capability, slot and route permit. -/
def Grant.permitted (g : Grant) (calls : List HTTPCall) : ℕ :=
  (calls.filter fun c => g.permits c.req).length

/-- **Any sequence of calls**, from the counters of some earlier ones. -/
theorem results_of_counted (hcount : Counted g n s.budget.toBudget) (calls : List HTTPCall)
    (k : ℕ) :
    ((b.results g s calls)[k]?).map isBudgetError = some true ↔
      ∃ c, calls[k]? = some c ∧ g.permits c.req = true ∧
        (g.exhausted (n + g.permitted (calls.take k)) ∨ b.tooLarge g c) := by
  induction calls generalizing s n k with
  | nil => simp [Broker.results]
  | cons c calls ih =>
    obtain ⟨hone, hnext⟩ := http_of_counted (b := b) hcount c
    cases k with
    | zero =>
      simp only [Broker.results, List.getElem?_cons_zero, Option.map_some, Option.some.injEq,
        hone, List.take_zero]
      simp [Grant.permitted]
    | succ k =>
      have hcounts : (if g.permits c.req then n + 1 else n) + g.permitted (calls.take k) =
          n + g.permitted ((c :: calls).take (k + 1)) := by
        rw [Grant.permitted, Grant.permitted, List.take_succ_cons, List.filter_cons]
        split_ifs
        · rw [List.length_cons]
          omega
        · rfl
      rw [Broker.results, List.getElem?_cons_succ, List.getElem?_cons_succ, ih hnext k, hcounts]

theorem length_results (s : Session) (calls : List HTTPCall) :
    (b.results g s calls).length = calls.length := by
  induction calls generalizing s with
  | nil => rfl
  | cons c calls ih => rw [Broker.results, List.length_cons, List.length_cons, ih]

theorem counted_new (cache : MemCache) (now : ℤ) :
    Counted g 0 (Session.new cache now).budget.toBudget := by
  have hzero : ∀ limit : ℤ, counted limit 0 = 0 := by
    intro limit
    rw [counted]
    split_ifs <;> omega
  refine ⟨(hzero _).symm, ?_⟩
  rw [Nat.cast_zero, hzero, hzero]
  rfl

/-- **When denied calls are charged.**  Every call beyond the ceiling fails with the budget error
exactly if each of them is one that capability, slot and route permit and comes after enough calls
that they permit, or has too large an answer. -/
theorem denied_charged_iff (b : Broker) (g : Grant) (cache : MemCache) (now : ℤ)
    (calls : List HTTPCall) :
    DeniedCharged b g (Session.new cache now) calls ↔
      ∀ (k : ℕ) c, g.limits.hostCalls ≤ k → calls[k]? = some c → g.permits c.req = true ∧
        (g.exhausted (g.permitted (calls.take k)) ∨ b.tooLarge g c) := by
  have hresults := results_of_counted (b := b) (counted_new (g := g) cache now) calls
  simp only [zero_add] at hresults
  constructor
  · intro hcharged k c hle hc
    have hlt : k < (b.results g (Session.new cache now) calls).length := by
      rw [length_results]
      exact (List.getElem?_eq_some_iff.mp hc).1
    have hr := List.getElem?_eq_getElem hlt
    have hbudget := hcharged k _ hle hr
    obtain ⟨c', hc', hdone⟩ := (hresults k).mp (by rw [hr, Option.map_some, hbudget])
    cases hc.symm.trans hc'
    exact hdone
  · intro hcond k r hle hr
    have hlt : k < calls.length := by
      rw [← length_results (b := b) (g := g) (Session.new cache now)]
      exact (List.getElem?_eq_some_iff.mp hr).1
    have hc := List.getElem?_eq_getElem hlt
    have hbudget := (hresults k).mpr ⟨_, hc, hcond k _ hle hc⟩
    rw [hr, Option.map_some] at hbudget
    exact Option.some.inj hbudget

end

/-- A plugin that may make one call, to one slot. -/
def oneCall : Grant :=
  { demoGrant (ascii "api") [] with limits := ⟨8, 4, 64, 256, 1, 64, Limits.default_fits⟩ }

/-- Three requests to paths that no route covers. -/
def probes : List HTTPCall :=
  [ascii "/a", ascii "/b", ascii "/c"].map fun path =>
    ⟨{ slot := ascii "api", method := ascii "GET", path := path }, .error (.failed [])⟩

/-- The ceiling is one call, but none of the three is refused for it, and each is on record. -/
theorem probes_never_charged :
    ¬ DeniedCharged emptyBroker oneCall (Session.new ∅ 0) probes ∧
      (probes.foldl (fun s c => (emptyBroker.http oneCall s c.req c.answer).2)
        (Session.new ∅ 0)).audit.length = 3 := by
  constructor
  · intro h
    have hbudget : ((emptyBroker.results oneCall (Session.new ∅ 0) probes)[2]?).map isBudgetError =
        some false := by
      decide +kernel
    obtain ⟨r, hr, hbudget⟩ := Option.map_eq_some_iff.mp hbudget
    rw [h 2 r (by decide) hr] at hbudget
    cases hbudget
  · decide +kernel

end Veduta.Capabilities
