import Veduta.Capabilities.AssetRef
import Veduta.Capabilities.Cache
import Veduta.Lib.Transition

/-!
# The calls of an invocation

Package `capabilities`: the six methods of the broker, each with its preamble.  A card is
invoked with a grant whose counters are fresh; the cache lives on between invocations.  What
the registry, the event sink and the clock answer is part of the event.
-/

namespace Veduta.Capabilities

open Go Lib Connections

/-- The counters of one invocation, with those of the cache. -/
structure BudgetState extends Budget where
  cacheEntriesUsed : Int := 0
  cacheBytesKBUsed : Int := 0

/-- The size of a value in KiB, rounded up. -/
def sizeKB (valueBytes : ℕ) : ℤ := ((valueBytes + 1023) / 1024 : ℕ)

/-- One more cache write; zero is no ceiling. -/
def Grant.consumeCacheWrite (g : Grant) (b : BudgetState) (valueBytes : ℕ) :
    Except BrokerError BudgetState :=
  if g.limits.cacheEntries > 0 ∧ b.cacheEntriesUsed ≥ g.limits.cacheEntries then
    .error .budgetExceeded
  else if g.limits.cacheBytesKB > 0 ∧
      b.cacheBytesKBUsed + sizeKB valueBytes > g.limits.cacheBytesKB then
    .error .budgetExceeded
  else
    .ok { b with
      cacheEntriesUsed := b.cacheEntriesUsed + 1
      cacheBytesKBUsed := b.cacheBytesKBUsed + sizeKB valueBytes }

/-! ## Calls -/

structure Response where
  statusCode : ℤ
  header : Header
  body : Bytes

inductive UpstreamError where
  | responseTooLarge
  | failed (message : Bytes)

structure Event where
  type : Bytes
  data : GoMap Bytes JVal

/-- A call of a plugin; `http` carries what the registry answers if it is asked, and `emit`
what the sink does, if there is one. -/
inductive BrokerCall where
  | http (req : HTTPRequest) (answer : Except UpstreamError Response)
  | cacheGet (key : Bytes)
  | cachePut (key val : Bytes) (ttl : ℤ)
  | assetRef (slot path : Bytes) (query : Values) (t : Transform)
  | log (level msg : Bytes) (fields : GoMap Bytes JVal)
  | emit (e : Event) (sink : Option (Except Bytes Unit))

inductive Reply where
  | response (r : Response)
  | value (v : Option Bytes)
  | token (t : Bytes)
  | done

inductive CallError where
  | refused (e : BrokerError)
  | responseTooLarge
  | upstream (message : Bytes)
  | asset (e : AssetRefError)
  | eventType
  | sink (message : Bytes)

/-- The error wraps `ErrBudgetExceeded`. -/
def CallError.isBudgetExceeded : CallError → Bool
  | .refused .budgetExceeded | .responseTooLarge | .asset (.refused .budgetExceeded) => true
  | _ => false

inductive LogLevel where
  | debug
  | info
  | warn
  | error
  deriving DecidableEq

def logLevel (level : Bytes) : LogLevel :=
  if level = ascii "warn" then .warn
  else if level = ascii "error" then .error
  else if level = ascii "debug" then .debug
  else .info

structure LogLine where
  plugin : Bytes
  level : LogLevel
  msg : Bytes
  fields : GoMap Bytes JVal

/-- A denial in the audit log. -/
structure Denied where
  plugin : Bytes
  method : Bytes
  error : CallError

/-- What the calls of a card work on: its counters, the cache, the clock and the logs. -/
structure Session where
  budget : BudgetState
  cache : MemCache
  now : ℤ
  audit : List Denied
  logs : List LogLine

def Session.new (cache : MemCache) (now : ℤ) : Session := ⟨{}, cache, now, [], []⟩

structure Broker where
  registry : Registry
  mac : Bytes → Bytes
  fallbackRevision : Bytes

def emptyBroker : Broker := ⟨emptyRegistry, id, []⟩

/-- The preamble of the methods without slot and route. -/
def Grant.admits (g : Grant) (cap : Bytes) (b : BudgetState) : Except BrokerError BudgetState :=
  if !g.caps.has cap then .error .capDenied
  else
    match g.consumeHostCall b.toBudget with
    | .error e => .error e
    | .ok used => .ok { b with toBudget := used }

def Session.deny (s : Session) (g : Grant) (method : Bytes) (e : CallError) : Session :=
  { s with audit := s.audit ++ [⟨g.pluginID, method, e⟩] }

/-- What the registry is asked for is an HTTP connection; this is found out after the preamble,
so it is no denial. -/
def BrokerError.audited : BrokerError → Bool
  | .notHTTPConnection _ => false
  | _ => true

def Session.spend (s : Session) (used : Budget) : Session :=
  { s with budget := { s.budget with toBudget := used } }

def Broker.http (b : Broker) (g : Grant) (s : Session) (req : HTTPRequest)
    (answer : Except UpstreamError Response) : Except CallError Reply × Session :=
  match brokerHTTP b.registry g s.budget.toBudget req with
  | (.error e, used) =>
    let s := s.spend used
    (.error (.refused e), if e.audited then s.deny g (ascii "HTTP") (.refused e) else s)
  | (.ok _, used) =>
    let s := s.spend used
    match answer with
    | .error .responseTooLarge =>
      (.error .responseTooLarge, s.deny g (ascii "HTTP") (.refused .budgetExceeded))
    | .error (.failed message) => (.error (.upstream message), s)
    | .ok response => (.ok (.response response), s)

def Broker.cacheGet (g : Grant) (s : Session) (key : Bytes) : Except CallError Reply × Session :=
  match g.admits (ascii "cache") s.budget with
  | .error e => (.error (.refused e), s.deny g (ascii "CacheGet") (.refused e))
  | .ok budget =>
    let (value, cache) := MemCache.get s.now s.cache (cacheNamespace g) key
    (.ok (.value value), { s with budget, cache })

def Broker.cachePut (g : Grant) (s : Session) (key val : Bytes) (ttl : ℤ) :
    Except CallError Reply × Session :=
  match g.admits (ascii "cache") s.budget with
  | .error e => (.error (.refused e), s.deny g (ascii "CachePut") (.refused e))
  | .ok budget =>
    match g.consumeCacheWrite budget val.length with
    -- the host call is spent
    | .error e => (.error (.refused e), { s with budget }.deny g (ascii "CachePut") (.refused e))
    | .ok budget =>
      (.ok .done,
        { s with budget, cache := MemCache.put s.now s.cache (cacheNamespace g) key val ttl })

def Broker.assetRef (b : Broker) (g : Grant) (s : Session) (slot path : Bytes) (query : Values)
    (t : Transform) : Except CallError Reply × Session :=
  match Capabilities.assetRef b.mac b.fallbackRevision s.now g s.budget.toBudget slot path query t
    with
  | (.error (.refused e), used) =>
    (.error (.asset (.refused e)), (s.spend used).deny g (ascii "AssetRef") (.refused e))
  | (.error e, used) => (.error (.asset e), s.spend used)
  | (.ok token, used) => (.ok (.token token), s.spend used)

def Broker.log (g : Grant) (s : Session) (level msg : Bytes) (fields : GoMap Bytes JVal) :
    Except CallError Reply × Session :=
  match g.admits (ascii "log") s.budget with
  | .error e => (.error (.refused e), s.deny g (ascii "Log") (.refused e))
  | .ok budget =>
    (.ok .done, { s with budget, logs := s.logs ++ [⟨g.pluginID, logLevel level, msg, fields⟩] })

def Broker.emit (g : Grant) (s : Session) (e : Event) (sink : Option (Except Bytes Unit)) :
    Except CallError Reply × Session :=
  match g.admits (ascii "events") s.budget with
  | .error e => (.error (.refused e), s.deny g (ascii "Emit") (.refused e))
  | .ok budget =>
    if e.type = [] then (.error .eventType, { s with budget })
    else
      match sink with
      | some (.error message) => (.error (.sink message), { s with budget })
      | _ => (.ok .done, { s with budget })

def Broker.call (b : Broker) (g : Grant) (s : Session) : BrokerCall → Except CallError Reply × Session
  | .http req answer => b.http g s req answer
  | .cacheGet key => Broker.cacheGet g s key
  | .cachePut key val ttl => Broker.cachePut g s key val ttl
  | .assetRef slot path query t => b.assetRef g s slot path query t
  | .log level msg fields => Broker.log g s level msg fields
  | .emit e sink => Broker.emit g s e sink

/-! ## What a call costs -/

/-- The call is neither an upstream request nor a cache write. -/
def BrokerCall.plain : BrokerCall → Bool
  | .http _ _ | .cachePut _ _ _ => false
  | _ => true

/-- What a call takes from the counters, and whether it may then succeed. -/
inductive Charge (g : Grant) : BrokerCall → Bool → BudgetState → BudgetState → Prop
  | free (c : BrokerCall) (b : BudgetState) : Charge g c false b b
  | hostCall {c : BrokerCall} {ok : Bool} {b : BudgetState} {used : Budget}
      (hcall : g.consumeHostCall b.toBudget = .ok used) (hok : ok = true → c.plain = true) :
      Charge g c ok b { b with toBudget := used }
  | request (req : HTTPRequest) (answer : Except UpstreamError Response) {ok : Bool}
      {b : BudgetState} {used used' : Budget} (hcall : g.consumeHostCall b.toBudget = .ok used)
      (hrequest : g.consumeHTTPRequest used = .ok used') :
      Charge g (.http req answer) ok b { b with toBudget := used' }
  | write (key val : Bytes) (ttl : ℤ) {ok : Bool} {b b' : BudgetState} {used : Budget}
      (hcall : g.consumeHostCall b.toBudget = .ok used)
      (hwrite : g.consumeCacheWrite { b with toBudget := used } val.length = .ok b') :
      Charge g (.cachePut key val ttl) ok b b'

section

variable {g : Grant}

theorem Grant.admit_eq_ok {cap : Bytes} {b b' : BudgetState} (h : g.admits cap b = .ok b') :
    g.caps.has cap = true ∧
      ∃ used, g.consumeHostCall b.toBudget = .ok used ∧ b' = { b with toBudget := used } := by
  rw [Grant.admits] at h
  split_ifs at h with hcap
  rw [Bool.not_eq_true, Bool.not_eq_false'] at hcap
  split at h
  · cases h
  · cases h
    exact ⟨hcap, _, ‹_›, rfl⟩

theorem charge_admitHTTP (req : HTTPRequest) (answer : Except UpstreamError Response)
    (b : BudgetState) :
    Charge g (.http req answer) (g.admitHTTP req b.toBudget).1.isOk b
      { b with toBudget := (g.admitHTTP req b.toBudget).2 } := by
  rw [Grant.admitHTTP]
  split_ifs
  · exact .free _ _
  · split
    · exact .free _ _
    · split
      · exact .free _ _
      · split
        · exact .free _ _
        · rename_i used hcall
          split
          · exact .hostCall hcall (by simp)
          · exact .request req answer hcall ‹_›

theorem Charge.weaken {c : BrokerCall} {ok ok' : Bool} {b b' : BudgetState}
    (h : Charge g c ok b b') (hok : ok' = true → ok = true) : Charge g c ok' b b' := by
  cases h with
  | free =>
    have hfalse : ok' = false := Bool.eq_false_iff.mpr fun h => Bool.false_ne_true (hok h)
    rw [hfalse]
    exact .free c b
  | hostCall hcall hplain => exact .hostCall hcall fun h => hplain (hok h)
  | request req answer hcall hrequest => exact .request req answer hcall hrequest
  | write key val ttl hcall hwrite => exact .write key val ttl hcall hwrite

theorem charge_brokerHTTP (registry : Registry) (req : HTTPRequest)
    (answer : Except UpstreamError Response) (b : BudgetState) :
    Charge g (.http req answer) (brokerHTTP registry g b.toBudget req).1.isOk b
      { b with toBudget := (brokerHTTP registry g b.toBudget req).2 } := by
  have hadmitted := charge_admitHTTP (g := g) req answer b
  rw [brokerHTTP]
  revert hadmitted
  rcases g.admitHTTP req b.toBudget with ⟨e | connID, used⟩ <;> intro hadmitted
  · exact hadmitted
  · dsimp only
    split
    · exact hadmitted.weaken (by simp)
    · exact hadmitted

theorem charge_http (b : Broker) (s : Session) (req : HTTPRequest)
    (answer : Except UpstreamError Response) :
    Charge g (.http req answer) (b.http g s req answer).1.isOk s.budget
      (b.http g s req answer).2.budget := by
  have hbroker := charge_brokerHTTP (g := g) b.registry req answer s.budget
  rw [Broker.http]
  revert hbroker
  rcases brokerHTTP b.registry g s.budget.toBudget req with ⟨e | fwd, used⟩ <;> intro hbroker
  · dsimp only
    split_ifs <;> exact hbroker
  · dsimp only
    split
    · exact hbroker.weaken (by simp)
    · exact hbroker.weaken (by simp)
    · exact hbroker

theorem charge_admitAssetRef (slot path : Bytes) (query : Values) (t : Transform)
    (b : BudgetState) :
    Charge g (.assetRef slot path query t) (g.admitAssetRef slot path query b.toBudget).1.isOk b
      { b with toBudget := (g.admitAssetRef slot path query b.toBudget).2 } := by
  rw [Grant.admitAssetRef]
  split_ifs
  · exact .free _ _
  · split
    · exact .free _ _
    · split
      · exact .free _ _
      · split
        · exact .free _ _
        · exact .hostCall ‹_› fun _ => rfl

theorem charge_assetRef (b : Broker) (s : Session) (slot path : Bytes) (query : Values)
    (t : Transform) :
    Charge g (.assetRef slot path query t) (b.assetRef g s slot path query t).1.isOk s.budget
      (b.assetRef g s slot path query t).2.budget := by
  have hadmitted := charge_admitAssetRef (g := g) slot path query t s.budget
  rw [Broker.assetRef, Capabilities.assetRef]
  revert hadmitted
  rcases g.admitAssetRef slot path query s.budget.toBudget with ⟨e | connID, used⟩ <;> intro hadmitted
  · exact hadmitted
  · dsimp only
    cases Routepath.canonicalise path with
    | error e => exact hadmitted.weaken (by simp)
    | ok canonicalPath =>
      dsimp only
      cases validateTransform t with
      | false => exact hadmitted.weaken (by simp)
      | true => exact hadmitted

/-- **What a call costs.** -/
theorem charge_call (b : Broker) (g : Grant) (s : Session) (c : BrokerCall) :
    Charge g c (b.call g s c).1.isOk s.budget (b.call g s c).2.budget := by
  cases c with
  | http req answer => exact charge_http b s req answer
  | cacheGet key =>
    simp only [Broker.call, Broker.cacheGet]
    split
    · exact .free _ _
    · obtain ⟨_, used, hcall, rfl⟩ := Grant.admit_eq_ok ‹_›
      exact .hostCall hcall fun _ => rfl
  | cachePut key val ttl =>
    simp only [Broker.call, Broker.cachePut]
    split
    · exact .free _ _
    · obtain ⟨_, used, hcall, rfl⟩ := Grant.admit_eq_ok ‹_›
      split
      · exact .hostCall hcall (by simp)
      · exact .write key val ttl hcall ‹_›
  | assetRef slot path query t => exact charge_assetRef b s slot path query t
  | log level msg fields =>
    simp only [Broker.call, Broker.log]
    split
    · exact .free _ _
    · obtain ⟨_, used, hcall, rfl⟩ := Grant.admit_eq_ok ‹_›
      exact .hostCall hcall fun _ => rfl
  | emit e sink =>
    simp only [Broker.call, Broker.emit]
    split
    · exact .free _ _
    · obtain ⟨_, used, hcall, rfl⟩ := Grant.admit_eq_ok ‹_›
      split_ifs
      · exact .hostCall hcall fun _ => rfl
      · split <;> exact .hostCall hcall fun _ => rfl

end

/-! ## Meters -/

/-- The four counters with a ceiling. -/
inductive Meter where
  | hostCalls
  | httpRequests
  | cacheEntries
  | cacheBytesKB

namespace Meter

def limit (l : Limits) : Meter → ℤ
  | hostCalls => l.hostCalls
  | httpRequests => l.httpRequests
  | cacheEntries => l.cacheEntries
  | cacheBytesKB => l.cacheBytesKB

def used (b : BudgetState) : Meter → ℤ
  | hostCalls => b.hostCallsUsed
  | httpRequests => b.httpRequestsUsed
  | cacheEntries => b.cacheEntriesUsed
  | cacheBytesKB => b.cacheBytesKBUsed

/-- How much one of what is counted is: the size of values is in KiB. -/
def unit : Meter → ℤ
  | cacheBytesKB => 1024
  | _ => 1

/-- How much a call is that succeeds: one host call, one request, one entry, and the size of the
value in bytes. -/
def amount : Meter → BrokerCall → ℤ
  | hostCalls, _ => 1
  | httpRequests, .http _ _ => 1
  | cacheEntries, .cachePut _ _ _ => 1
  | cacheBytesKB, .cachePut _ val _ => val.length
  | _, _ => 0

theorem amount_of_plain {c : BrokerCall} (h : c.plain = true) :
    httpRequests.amount c = 0 ∧ cacheEntries.amount c = 0 ∧ cacheBytesKB.amount c = 0 := by
  cases c with
  | http | cachePut => cases h
  | _ => exact ⟨rfl, rfl, rfl⟩

end Meter

theorem le_sizeKB (n : ℕ) : (n : ℤ) ≤ 1024 * sizeKB n := by
  rw [sizeKB]
  omega

section

variable {g : Grant}

theorem consumeHostCall_eq_ok {b b' : Budget} (h : g.consumeHostCall b = .ok b') :
    b' = { b with hostCallsUsed := b.hostCallsUsed + 1 } ∧
      (0 < g.limits.hostCalls → b.hostCallsUsed < g.limits.hostCalls) := by
  rw [Grant.consumeHostCall] at h
  split_ifs at h with hfull
  cases h
  exact ⟨rfl, fun hpos => lt_of_not_ge fun hge => hfull ⟨hpos, hge⟩⟩

theorem consumeHTTPRequest_eq_ok {b b' : Budget} (h : g.consumeHTTPRequest b = .ok b') :
    b' = { b with httpRequestsUsed := b.httpRequestsUsed + 1 } ∧
      (0 < g.limits.httpRequests → b.httpRequestsUsed < g.limits.httpRequests) := by
  rw [Grant.consumeHTTPRequest] at h
  split_ifs at h with hfull
  cases h
  exact ⟨rfl, fun hpos => lt_of_not_ge fun hge => hfull ⟨hpos, hge⟩⟩

theorem consumeCacheWrite_eq_ok {b b' : BudgetState} {n : ℕ}
    (h : g.consumeCacheWrite b n = .ok b') :
    b' = { b with
        cacheEntriesUsed := b.cacheEntriesUsed + 1
        cacheBytesKBUsed := b.cacheBytesKBUsed + sizeKB n } ∧
      (0 < g.limits.cacheEntries → b.cacheEntriesUsed < g.limits.cacheEntries) ∧
      (0 < g.limits.cacheBytesKB → b.cacheBytesKBUsed + sizeKB n ≤ g.limits.cacheBytesKB) := by
  rw [Grant.consumeCacheWrite] at h
  split_ifs at h with hfull hlarge
  cases h
  exact ⟨rfl, fun hpos => lt_of_not_ge fun hge => hfull ⟨hpos, hge⟩,
    fun hpos => le_of_not_gt fun hgt => hlarge ⟨hpos, hgt⟩⟩

/-- **A meter runs** by at least what a call is that succeeds, and not past a ceiling. -/
theorem Charge.meter {c : BrokerCall} {ok : Bool} {b b' : BudgetState} (h : Charge g c ok b b')
    (m : Meter) :
    m.unit * m.used b + (if ok then m.amount c else 0) ≤ m.unit * m.used b' ∧
      (0 < m.limit g.limits → m.used b ≤ m.limit g.limits → m.used b' ≤ m.limit g.limits) := by
  cases h with
  | free => simp
  | hostCall hcall hplain =>
    obtain ⟨rfl, hlt⟩ := consumeHostCall_eq_ok hcall
    have hamount : ok = true → _ := fun h => Meter.amount_of_plain (hplain h)
    cases m with
    | hostCalls =>
      simp only [Meter.unit, Meter.used, Meter.amount, Meter.limit]
      split_ifs <;> omega
    | httpRequests | cacheEntries | cacheBytesKB =>
      simp only [Meter.unit, Meter.used, Meter.limit]
      split_ifs with h
      · have := hamount h
        omega
      · omega
  | request req answer hcall hrequest =>
    obtain ⟨rfl, hlt⟩ := consumeHostCall_eq_ok hcall
    obtain ⟨rfl, hlt'⟩ := consumeHTTPRequest_eq_ok hrequest
    dsimp only at hlt'
    cases m <;> simp only [Meter.unit, Meter.used, Meter.amount, Meter.limit] <;>
      split_ifs <;> omega
  | write key val ttl hcall hwrite =>
    obtain ⟨rfl, hlt⟩ := consumeHostCall_eq_ok hcall
    obtain ⟨rfl, hlt', hle⟩ := consumeCacheWrite_eq_ok hwrite
    dsimp only at hlt' hle
    have hsize := le_sizeKB val.length
    cases m <;> simp only [Meter.unit, Meter.used, Meter.amount, Meter.limit] <;>
      split_ifs <;> omega

end

/-- Time passes, or the plugin calls the broker. -/
inductive BrokerEvent where
  | tick (duration : ℕ)
  | call (c : BrokerCall)

/-- One invocation of a card. -/
def Broker.step (b : Broker) (g : Grant) (e : BrokerEvent) (s : Session) : Option Session :=
  match e with
  | .tick duration => some { s with now := s.now + duration }
  | .call c => some (b.call g s c).2

/-- How much of what a meter counts a step is. -/
def spent (b : Broker) (g : Grant) (m : Meter) (s : Session) (e : BrokerEvent) (_ : Session) : ℤ :=
  match e with
  | .tick _ => 0
  | .call c => if (b.call g s c).1.isOk then m.amount c else 0

section

variable {b : Broker} {g : Grant} {s s' : Session} {e : BrokerEvent}

/-- **One step** runs a meter by at least what is spent, and not past a ceiling. -/
theorem meter_step (h : b.step g e s = some s') (m : Meter) :
    m.unit * m.used s.budget + spent b g m s e s' ≤ m.unit * m.used s'.budget ∧
      (0 < m.limit g.limits → m.used s.budget ≤ m.limit g.limits →
        m.used s'.budget ≤ m.limit g.limits) := by
  cases e with
  | tick duration =>
    cases h
    exact ⟨(add_zero _).le, fun _ hle => hle⟩
  | call c =>
    cases h
    exact (charge_call b g s c).meter m

/-- **A ceiling holds** over every invocation. -/
theorem total_spent_le (b : Broker) (g : Grant) (m : Meter) (hpos : 0 < m.limit g.limits)
    (cache : MemCache) (now : ℤ) (es : List BrokerEvent) :
    total (b.step g) (spent b g m) (Session.new cache now) es ≤ m.unit * m.limit g.limits := by
  have hfresh : m.used (Session.new cache now).budget = 0 := by
    cases m <;> rfl
  have hunit : 0 ≤ m.unit := by
    cases m <;> decide
  have hle : m.used (Session.new cache now).budget ≤ m.limit g.limits := hfresh ▸ hpos.le
  have htotal := total_le (g := spent b g m) (I := fun s => m.used s.budget ≤ m.limit g.limits)
    (φ := fun s => m.unit * m.used s.budget) (m.unit * m.limit g.limits)
    (fun hle h => (meter_step (b := b) h m).2 hpos hle) (fun _ h => (meter_step h m).1)
    (fun hle => mul_le_mul_of_nonneg_left hle hunit) es hle
  rwa [hfresh, mul_zero, sub_zero] at htotal

end

end Veduta.Capabilities
