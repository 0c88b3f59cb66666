import Veduta.Go.Map
import Veduta.Go.Strconv
import Veduta.Lib.Transition

/-!
# Event streams

Package `api`, for the hub of the server-sent events.  An event that is broadcast gets the next
number of the process, joins a ring of the last 256, and goes to the channel of every client; a
client whose channel of 32 is full is dropped.  A client that comes back with the id of the last
event it has seen gets what the ring has after it before what is broadcast from then on; without
such an id, or if the ring no longer has it, it is told to fetch everything again.

A stream is the handler of one request with its channel: what it has still to write of the ring,
what is in the channel, and what it has written.  Channels are numbered in the order in which
they were made.
-/

namespace Veduta.Api

open Go Lib

def replaySize : ℕ := 256
def maxSSEClients : ℕ := 128
def maxSSEClientsPerSession : ℕ := 4

def clientBuffer : ℕ := 32

structure SseEvent where
  id : Bytes
  event : Bytes
  data : Bytes
  deriving DecidableEq

/-- The handler of one request: whether it writes the reset first, what is still to be written of
the ring, what is in its channel, and what it has written. -/
structure Stream where
  reset : Bool
  replay : List SseEvent
  queue : List SseEvent
  sent : List SseEvent
  closed : Bool
  returned : Bool
  deriving DecidableEq

/-- The hub: the session of each client, the number of clients of each session, and the streams
that ever were. -/
structure Hub where
  nonce : Bytes
  next : ℕ
  ring : List SseEvent
  clients : GoMap ℕ Bytes
  sessions : GoMap Bytes ℤ
  streams : List Stream

namespace Hub

/-- `newSSEHub`. -/
def new (nonce : Bytes) : Hub := ⟨nonce, 0, [], ∅, ∅, []⟩

/-- The id of the event with a number. -/
def eventID (nonce : Bytes) (n : ℕ) : Bytes := nonce ++ chr '-' :: formatNat n

/-- The slot of a session is free again. -/
def release (sessions : GoMap Bytes ℤ) (sessionID : Bytes) : GoMap Bytes ℤ :=
  if sessionID = [] then sessions
  else
    let n := sessions.get 0 sessionID - 1
    if n ≤ 0 then sessions.erase sessionID else sessions.insert sessionID n

/-- A client is removed and its channel closed. -/
def removeClient (h : Hub) (ch : ℕ) : Hub :=
  match h.clients.lookup ch with
  | none => h
  | some sessionID =>
    { h with
      clients := h.clients.erase ch
      sessions := release h.sessions sessionID
      streams := h.streams.modify ch fun s => { s with closed := true } }

/-- An event for one client, which is dropped if its channel is full. -/
def offer (e : SseEvent) (h : Hub) (ch : ℕ) : Hub :=
  match h.streams[ch]? with
  | none => h
  | some s =>
    if s.queue.length < clientBuffer then
      { h with streams := h.streams.modify ch fun s => { s with queue := s.queue ++ [e] } }
    else h.removeClient ch

/-- The counter is a `uint64`. -/
def increment (n : ℕ) : ℕ := (n + 1) % 2 ^ 64

def nextEvent (h : Hub) (event data : Bytes) : SseEvent :=
  ⟨eventID h.nonce (increment h.next), event, data⟩

/-- The last events of the ring. -/
def trim (ring : List SseEvent) : List SseEvent := ring.drop (ring.length - replaySize)

/-- `broadcast`, with the order in which the map yields the clients. -/
def broadcast (h : Hub) (event data : Bytes) (order : List ℕ) : Hub :=
  let e := h.nextEvent event data
  order.foldl (offer e) { h with next := increment h.next, ring := trim (h.ring ++ [e]) }

def accepts (h : Hub) (sessionID : Bytes) : Bool :=
  !(maxSSEClients ≤ h.clients.keys.length ||
    (sessionID ≠ [] && (maxSSEClientsPerSession : ℤ) ≤ h.sessions.get 0 sessionID))

/-- Where the ring goes on after an id. -/
def startAfter (ring : List SseEvent) (last : Bytes) : Option ℕ :=
  if last = [] then none else (ring.findIdx? fun e => e.id = last).map (· + 1)

/-- `subscribe` and the start of its handler. -/
def subscribe (h : Hub) (last sessionID : Bytes) : Hub :=
  let start := startAfter h.ring last
  { h with
    clients := h.clients.insert h.streams.length sessionID
    sessions :=
      if sessionID = [] then h.sessions
      else h.sessions.insert sessionID (h.sessions.get 0 sessionID + 1)
    streams := h.streams ++
      [⟨start.isNone, h.ring.drop (start.getD h.ring.length), [], [], false, false⟩] }

/-- The handler writes the next event, of the ring first and then of its channel. -/
def write (h : Hub) (ch : ℕ) : Option Hub := do
  let s ← h.streams[ch]?
  if s.returned then none
  else
    match s.replay, s.queue with
    | e :: replay, _ =>
      some { h with streams := h.streams.set ch { s with replay, sent := s.sent ++ [e] } }
    | [], e :: queue =>
      some { h with streams := h.streams.set ch { s with queue, sent := s.sent ++ [e] } }
    | [], [] => none

/-- The handler returns, once it has written the ring: the request is over, or its channel is
closed and empty. -/
def finish (h : Hub) (ch : ℕ) : Option Hub := do
  let s ← h.streams[ch]?
  if s.returned ∨ s.replay ≠ [] then none
  else some ({ h with streams := h.streams.set ch { s with returned := true } }.removeClient ch)

end Hub

inductive Event where
  /-- A card state is published. -/
  | publish (data : Bytes) (order : List ℕ)
  /-- A configuration is live. -/
  | publishConfig (generation : ℕ) (order : List ℕ)
  | subscribe (last sessionID : Bytes)
  | write (ch : ℕ)
  | finish (ch : ℕ)

/-- The name and the data of what an event broadcasts. -/
def Event.content : Event → Option (Bytes × Bytes × List ℕ)
  | .publish data order => some (ascii "card", data, order)
  | .publishConfig generation order =>
    some (ascii "config",
      ascii "\x7b\"generation\":" ++ formatNat generation ++ ascii "\x7d", order)
  | _ => none

/-- The hub after an event, or `none` if it cannot happen. -/
def step (e : Event) (h : Hub) : Option Hub :=
  match e with
  | .subscribe last sessionID =>
    if h.accepts sessionID then some (h.subscribe last sessionID) else some h
  | .write ch => h.write ch
  | .finish ch => h.finish ch
  | e => do
    let (event, data, order) ← e.content
    if order.Perm h.clients.keys then some (h.broadcast event data order) else none

def broadcasted (h : Hub) (e : Event) : Option SseEvent :=
  e.content.map fun x => h.nextEvent x.1 x.2.1

/-! ## One broadcast -/

def Stream.HasRoom (s : Stream) : Prop := s.queue.length < clientBuffer

instance (s : Stream) : Decidable s.HasRoom := inferInstanceAs (Decidable (_ < _))

/-- A stream after an event for it. -/
def Stream.offered (e : SseEvent) (s : Stream) : Stream :=
  if s.HasRoom then { s with queue := s.queue ++ [e] } else { s with closed := true }

/-- What a broadcast to some clients changes. -/
structure Offered (e : SseEvent) (order : List ℕ) (h h' : Hub) : Prop where
  nonce : h'.nonce = h.nonce
  next : h'.next = h.next
  ring : h'.ring = h.ring
  streams : ∀ j, h'.streams[j]? = h.streams[j]?.map fun s => if j ∈ order then s.offered e else s
  clients : ∀ j, (h'.clients.lookup j).isSome = true ↔ (h.clients.lookup j).isSome = true ∧
    ∀ s, h.streams[j]? = some s → j ∈ order → s.HasRoom

section

variable {h h' : Hub} {e : SseEvent} {order : List ℕ} {ch j : ℕ} {s : Stream}

theorem Offered.cons {h₁ : Hub} (hnot : ch ∉ order) (hfirst : Offered e [ch] h h₁)
    (hrest : Offered e order h₁ h') : Offered e (ch :: order) h h' where
  nonce := hrest.nonce.trans hfirst.nonce
  next := hrest.next.trans hfirst.next
  ring := hrest.ring.trans hfirst.ring
  streams j := by
    rw [hrest.streams, hfirst.streams, Option.map_map]
    congr 1
    funext s
    by_cases hj : j = ch
    · subst hj
      simp [hnot]
    · simp [hj]
  clients j := by
    rw [hrest.clients, hfirst.clients, hfirst.streams, and_assoc]
    refine and_congr_right fun _ => ?_
    constructor
    · rintro ⟨hself, hothers⟩ s hs hmem
      rcases List.mem_cons.mp hmem with rfl | hmem
      · exact hself s hs (by simp)
      · have hne : j ≠ ch := fun heq => hnot (heq ▸ hmem)
        exact hothers s (by simp [hs, hne]) hmem
    · intro hall
      refine ⟨fun s hs hmem => hall s hs (by simp_all), fun s hs hmem => ?_⟩
      have hne : j ≠ ch := fun heq => hnot (heq ▸ hmem)
      exact hall s (by simpa [hne] using hs) (by simp [hmem])

namespace Hub

theorem removeClient_of_isSome (hclient : (h.clients.lookup ch).isSome = true) :
    ∃ sessions, h.removeClient ch = { h with
      clients := h.clients.erase ch
      sessions := sessions
      streams := h.streams.modify ch fun s => { s with closed := true } } := by
  obtain ⟨sessionID, hsession⟩ := Option.isSome_iff_exists.mp hclient
  exact ⟨release h.sessions sessionID, by rw [removeClient, hsession]⟩

theorem isSome_lookup_erase :
    ((h.clients.erase ch).lookup j).isSome = true ↔
      (h.clients.lookup j).isSome = true ∧ j ≠ ch := by
  by_cases hj : j = ch
  · subst hj
    simp
  · simp [AList.lookup_erase_ne hj, hj]

theorem offered_offer (hclient : (h.clients.lookup ch).isSome = true)
    (hs : h.streams[ch]? = some s) : Offered e [ch] h (offer e h ch) := by
  have hmodify (f : Stream → Stream) (j : ℕ) :
      (h.streams.modify ch f)[j]? = h.streams[j]?.map fun s => if j ∈ [ch] then f s else s := by
    rw [List.getElem?_modify]
    by_cases hj : ch = j
    · simp [hj]
    · simp [hj, Ne.symm hj]
  rw [offer, hs]
  dsimp only
  split_ifs with hroom
  · refine ⟨rfl, rfl, rfl, fun j => ?_, fun j => ?_⟩
    · rw [hmodify]
      by_cases hj : j = ch
      · subst hj
        simp [hs, Stream.offered, Stream.HasRoom, hroom]
      · simp [hj]
    · refine (and_iff_left fun x hx hj => ?_).symm
      rw [List.mem_singleton.mp hj, hs] at hx
      cases hx
      exact hroom
  · obtain ⟨sessions, hremove⟩ := removeClient_of_isSome hclient
    rw [hremove]
    refine ⟨rfl, rfl, rfl, fun j => ?_, fun j => ?_⟩
    · rw [hmodify]
      by_cases hj : j = ch
      · subst hj
        simp [hs, Stream.offered, Stream.HasRoom, hroom]
      · simp [hj]
    · rw [isSome_lookup_erase]
      refine and_congr_right fun _ => ⟨fun hj x _ hmem => ?_, fun hall hj => ?_⟩
      · exact absurd (List.mem_singleton.mp hmem) hj
      · subst hj
        exact hroom (hall s hs (by simp))

/-- **A broadcast goes to each client once.** -/
theorem offered_foldl (hnodup : order.Nodup)
    (hclients : ∀ ch ∈ order,
      (h.clients.lookup ch).isSome = true ∧ ∃ s, h.streams[ch]? = some s) :
    Offered e order h (order.foldl (offer e) h) := by
  induction order generalizing h with
  | nil => exact ⟨rfl, rfl, rfl, by simp, by simp⟩
  | cons ch order ih =>
    obtain ⟨hnot, hnodup⟩ := List.nodup_cons.mp hnodup
    obtain ⟨hclient, s, hs⟩ := hclients ch (by simp)
    have hfirst := offered_offer (e := e) hclient hs
    refine hfirst.cons hnot (ih hnodup fun j hj => ?_)
    have hne : j ≠ ch := fun heq => hnot (heq ▸ hj)
    obtain ⟨hclient, s, hs⟩ := hclients j (by simp [hj])
    exact ⟨(hfirst.clients j).mpr ⟨hclient, by simp [hne]⟩, s, by
      rw [hfirst.streams, hs]
      simp [hne]⟩

end Hub

/-! ## What was broadcast -/

/-- The clients are the streams whose channel is open. -/
def Tracked (h : Hub) : Prop :=
  ∀ ch, (h.clients.lookup ch).isSome = true ↔ ∃ s, h.streams[ch]? = some s ∧ s.closed = false

/-- The hub after what was broadcast: events are numbered, the ring has the last of them, and the
clients are the streams whose channel is open. -/
structure Numbered (h : Hub) (past : List SseEvent) : Prop where
  next : h.next = past.length % 2 ^ 64
  ring : h.ring = Hub.trim past
  ids : ∀ i x, past[i]? = some x → x.id = Hub.eventID h.nonce (Hub.increment i)
  clients : Tracked h

theorem trim_trim_append (past : List SseEvent) (x : SseEvent) :
    Hub.trim (Hub.trim past ++ [x]) = Hub.trim (past ++ [x]) := by
  rcases Nat.lt_or_ge past.length replaySize with hlt | hge
  · have hzero : past.length - replaySize = 0 := by omega
    rw [Hub.trim, Hub.trim, Hub.trim, hzero, List.drop_zero]
  · have hlength : (past.drop (past.length - replaySize)).length = replaySize := by
      rw [List.length_drop]
      omega
    have hdrop : past.length + 1 - replaySize = past.length - replaySize + 1 := by omega
    simp only [Hub.trim, List.length_append, List.length_singleton, hlength,
      Nat.add_sub_cancel_left, hdrop]
    rw [List.drop_append_of_le_length (by rw [hlength, replaySize]; omega), List.drop_drop,
      List.drop_append_of_le_length (by rw [replaySize] at hge ⊢; omega)]

variable {past : List SseEvent}

theorem Numbered.congr (hn : Numbered h past) (hnonce : h'.nonce = h.nonce)
    (hnext : h'.next = h.next) (hring : h'.ring = h.ring)
    (hclients : Tracked h') : Numbered h' past := by
  refine ⟨by rw [hnext, hn.next], by rw [hring, hn.ring], ?_, hclients⟩
  rw [hnonce]
  exact hn.ids

theorem Numbered.increment_next (hn : Numbered h past) :
    Hub.increment h.next = (past.length + 1) % 2 ^ 64 := by
  rw [Hub.increment, hn.next]
  omega

theorem Numbered.broadcast (hn : Numbered h past) (event data : Bytes)
    (horder : order.Perm h.clients.keys) :
    Offered (h.nextEvent event data) order
        { h with
          next := Hub.increment h.next
          ring := Hub.trim (h.ring ++ [h.nextEvent event data]) }
        (h.broadcast event data order) ∧
      Numbered (h.broadcast event data order) (past ++ [h.nextEvent event data]) := by
  have hmem (ch : ℕ) : ch ∈ order ↔ (h.clients.lookup ch).isSome = true := by
    rw [horder.mem_iff, ← AList.mem_keys, AList.lookup_isSome]
  have hoffered : Offered (h.nextEvent event data) order
      { h with
          next := Hub.increment h.next
          ring := Hub.trim (h.ring ++ [h.nextEvent event data]) }
      (h.broadcast event data order) := by
    refine Hub.offered_foldl (horder.nodup_iff.mpr (AList.keys_nodup _)) fun ch hch => ?_
    have hclient := (hmem ch).mp hch
    obtain ⟨s, hs, -⟩ := (hn.clients ch).mp hclient
    exact ⟨hclient, s, hs⟩
  refine ⟨hoffered, ?_, ?_, fun i x hx => ?_, fun ch => ?_⟩
  · rw [hoffered.next, List.length_append, List.length_singleton]
    exact hn.increment_next
  · rw [hoffered.ring, hn.ring, trim_trim_append]
  · rw [hoffered.nonce]
    rw [List.getElem?_append] at hx
    split_ifs at hx with hi
    · exact hn.ids i x hx
    · obtain ⟨hlt, hx⟩ := List.getElem?_eq_some_iff.mp hx
      rw [List.length_singleton] at hlt
      have hi : i = past.length := by omega
      simp only [List.getElem_singleton] at hx
      rw [← hx, Hub.nextEvent, hn.increment_next, hi, Hub.increment]
  · rw [hoffered.clients, hoffered.streams, hn.clients]
    constructor
    · rintro ⟨⟨s, hs, hopen⟩, hroom⟩
      have hch : ch ∈ order := (hmem ch).mpr ((hn.clients ch).mpr ⟨s, hs, hopen⟩)
      refine ⟨s.offered (h.nextEvent event data), by simp [hs, hch], ?_⟩
      rw [Stream.offered, if_pos (hroom s hs hch)]
      exact hopen
    · rintro ⟨s, hs, hopen⟩
      obtain ⟨old, hold, heq⟩ := Option.map_eq_some_iff.mp hs
      by_cases hch : ch ∈ order
      · rw [if_pos hch, Stream.offered] at heq
        split_ifs at heq with hroom
        · subst heq
          refine ⟨⟨old, hold, hopen⟩, fun x hx _ => ?_⟩
          cases hold.symm.trans hx
          exact hroom
        · subst heq
          cases hopen
      · rw [if_neg hch] at heq
        subst heq
        exact ⟨⟨old, hold, hopen⟩, fun _ _ hmem => absurd hmem hch⟩

/-- What a stream has written, with what it has still to write. -/
def Stream.contents (s : Stream) : List SseEvent := s.sent ++ s.replay ++ s.queue

/-- A stream gets what it missed and then what is broadcast later, until its channel is closed. -/
def Follows (ch : ℕ) (reset : Bool) (missed : List SseEvent) (h : Hub) (later : List SseEvent) :
    Prop :=
  ∃ s, h.streams[ch]? = some s ∧ s.reset = reset ∧ s.contents <+: missed ++ later ∧
    (s.closed = false → s.contents = missed ++ later)

variable {reset : Bool} {missed later : List SseEvent}

theorem Follows.broadcast (hf : Follows ch reset missed h later) (hn : Numbered h past)
    (event data : Bytes) (horder : order.Perm h.clients.keys) :
    Follows ch reset missed (h.broadcast event data order)
      (later ++ [h.nextEvent event data]) := by
  obtain ⟨s, hs, hreset, hsub, hopen⟩ := hf
  have hoffered := (hn.broadcast event data horder).1
  have hstream := hoffered.streams ch
  rw [hs, Option.map_some] at hstream
  have hmem : ch ∈ order ↔ s.closed = false := by
    rw [horder.mem_iff, ← AList.mem_keys, ← AList.lookup_isSome, hn.clients, hs]
    simp
  have happend : missed ++ (later ++ [h.nextEvent event data]) =
      missed ++ later ++ [h.nextEvent event data] := (List.append_assoc ..).symm
  rw [Follows, hstream, happend]
  by_cases hch : ch ∈ order
  · have heq := hopen (hmem.mp hch)
    refine ⟨_, rfl, ?_⟩
    rw [if_pos hch, Stream.offered]
    split_ifs with hroom
    · have hcontents : s.contents ++ [h.nextEvent event data] =
          s.sent ++ s.replay ++ (s.queue ++ [h.nextEvent event data]) := List.append_assoc ..
      rw [heq] at hcontents
      exact ⟨hreset, by rw [Stream.contents, ← hcontents], fun _ => hcontents.symm⟩
    · exact ⟨hreset, hsub.trans (List.prefix_append ..), fun hc => by cases hc⟩
  · refine ⟨s, by rw [if_neg hch], hreset, hsub.trans (List.prefix_append ..), fun hc => ?_⟩
    exact absurd (hmem.mpr hc) hch

/-- What the other steps leave: the numbers and the ring, and of each stream what it has still to
write with what it has written. -/
structure Keeps (h h' : Hub) : Prop where
  nonce : h'.nonce = h.nonce
  next : h'.next = h.next
  ring : h'.ring = h.ring
  streams : ∀ (ch : ℕ) (s : Stream), h.streams[ch]? = some s → ∃ s', h'.streams[ch]? = some s' ∧
    s'.reset = s.reset ∧ s'.contents = s.contents ∧ (s'.closed = false → s.closed = false)
  clients : Tracked h'

theorem Follows.keep (hf : Follows ch reset missed h later) (hk : Keeps h h') :
    Follows ch reset missed h' later := by
  obtain ⟨s, hs, hreset, hsub, hopen⟩ := hf
  obtain ⟨s', hs', hreset', hcontents, hclosed⟩ := hk.streams ch s hs
  refine ⟨s', hs', hreset'.trans hreset, by rw [hcontents]; exact hsub, fun hc => ?_⟩
  rw [hcontents]
  exact hopen (hclosed hc)

theorem Numbered.keep (hn : Numbered h past) (hk : Keeps h h') : Numbered h' past :=
  hn.congr hk.nonce hk.next hk.ring hk.clients

theorem keeps_set {s' : Stream} (hs : h.streams[ch]? = some s)
    (hclients : Tracked h) (hreset : s'.reset = s.reset) (hcontents : s'.contents = s.contents)
    (hclosed : s'.closed = s.closed) : Keeps h { h with streams := h.streams.set ch s' } := by
  have hlt : ch < h.streams.length := (List.getElem?_eq_some_iff.mp hs).1
  refine ⟨rfl, rfl, rfl, fun j x hx => ?_, fun j => ?_⟩
  · by_cases hj : ch = j
    · subst hj
      cases hs.symm.trans hx
      exact ⟨s', by simp [hlt], hreset, hcontents, fun hc => hclosed ▸ hc⟩
    · exact ⟨x, by simp [List.getElem?_set_ne hj, hx], rfl, rfl, id⟩
  · rw [hclients]
    by_cases hj : ch = j
    · subst hj
      rw [List.getElem?_set_self hlt, hs]
      simp [hclosed]
    · simp [List.getElem?_set_ne hj]

theorem keeps_removeClient (hclients : Tracked h) (ch : ℕ) : Keeps h (h.removeClient ch) := by
  by_cases hclient : (h.clients.lookup ch).isSome = true
  · obtain ⟨sessions, hremove⟩ := Hub.removeClient_of_isSome hclient
    rw [hremove]
    refine ⟨rfl, rfl, rfl, fun j x hx => ?_, fun j => ?_⟩
    · by_cases hj : ch = j
      · exact ⟨{ x with closed := true }, by simp [hj, hx], rfl, rfl,
          fun hc => by cases hc⟩
      · exact ⟨x, by simp [hj, hx], rfl, rfl, id⟩
    · rw [Hub.isSome_lookup_erase, hclients]
      by_cases hj : ch = j
      · subst hj
        simp
      · simp [hj, Ne.symm hj]
  · have hnone : h.clients.lookup ch = none := by simpa using hclient
    rw [Hub.removeClient, hnone]
    exact ⟨rfl, rfl, rfl, fun j x hx => ⟨x, hx, rfl, rfl, id⟩, hclients⟩

theorem Keeps.trans {h₁ : Hub} (hfirst : Keeps h h₁) (hnext : Keeps h₁ h') : Keeps h h' where
  nonce := hnext.nonce.trans hfirst.nonce
  next := hnext.next.trans hfirst.next
  ring := hnext.ring.trans hfirst.ring
  clients := hnext.clients
  streams ch s hs := by
    obtain ⟨s₁, hs₁, hreset₁, hcontents₁, hclosed₁⟩ := hfirst.streams ch s hs
    obtain ⟨s', hs', hreset', hcontents', hclosed'⟩ := hnext.streams ch s₁ hs₁
    exact ⟨s', hs', hreset'.trans hreset₁, hcontents'.trans hcontents₁,
      fun hc => hclosed₁ (hclosed' hc)⟩

theorem keeps_subscribe (hn : Numbered h past) (last sessionID : Bytes) :
    Keeps h (h.subscribe last sessionID) := by
  refine ⟨rfl, rfl, rfl, fun j x hx => ?_, fun j => ?_⟩
  · have hlt : j < h.streams.length := (List.getElem?_eq_some_iff.mp hx).1
    exact ⟨x, by simp [Hub.subscribe, List.getElem?_append_left hlt, hx], rfl, rfl, id⟩
  · simp only [Hub.subscribe]
    by_cases hj : j = h.streams.length
    · subst hj
      simp
    · rw [AList.lookup_insert_ne hj, hn.clients]
      rcases Nat.lt_or_ge j h.streams.length with hlt | hge
      · rw [List.getElem?_append_left hlt]
      · rw [List.getElem?_append_right hge, List.getElem?_eq_none hge,
          List.getElem?_eq_none (by simp; omega)]

theorem keeps_write (hn : Numbered h past) (hstep : h.write ch = some h') : Keeps h h' := by
  obtain ⟨s, hs, hstep⟩ := Option.bind_eq_some_iff.mp hstep
  split_ifs at hstep
  split at hstep
  case h_1 _ _ e replay hreplay =>
    cases hstep
    exact keeps_set hs hn.clients rfl (by simp [Stream.contents, hreplay]) rfl
  case h_2 e queue hreplay hqueue =>
    cases hstep
    exact keeps_set hs hn.clients rfl (by simp [Stream.contents, hreplay, hqueue]) rfl
  case h_3 => cases hstep

theorem keeps_finish (hn : Numbered h past) (hstep : h.finish ch = some h') : Keeps h h' := by
  obtain ⟨s, hs, hstep⟩ := Option.bind_eq_some_iff.mp hstep
  split_ifs at hstep
  cases hstep
  have hset : Keeps h { h with streams := h.streams.set ch { s with returned := true } } :=
    keeps_set hs hn.clients rfl rfl rfl
  exact hset.trans (keeps_removeClient hset.clients ch)

end

/-! ## Runs -/

/-- **What a step does**: it broadcasts an event, or it keeps what was broadcast. -/
theorem step_cases {h h' : Hub} {e : Event} {past : List SseEvent} (hn : Numbered h past)
    (hstep : step e h = some h') :
    (∃ event data order, order.Perm h.clients.keys ∧ h' = h.broadcast event data order ∧
        broadcasted h e = some (h.nextEvent event data)) ∨
      (Keeps h h' ∧ broadcasted h e = none) := by
  have hsame : Keeps h h := ⟨rfl, rfl, rfl, fun j x hx => ⟨x, hx, rfl, rfl, id⟩, hn.clients⟩
  cases e with
  | publish data order | publishConfig generation order =>
    simp only [step, Event.content, Option.bind_eq_bind, Option.bind_some] at hstep
    split_ifs at hstep with horder
    cases hstep
    exact .inl ⟨_, _, order, horder, rfl, rfl⟩
  | subscribe last sessionID =>
    simp only [step] at hstep
    split_ifs at hstep
    · cases hstep
      exact .inr ⟨keeps_subscribe hn last sessionID, rfl⟩
    · cases hstep
      exact .inr ⟨hsame, rfl⟩
  | write ch => exact .inr ⟨keeps_write hn hstep, rfl⟩
  | finish ch => exact .inr ⟨keeps_finish hn hstep, rfl⟩

theorem numbered_step {h h' : Hub} {e : Event} {past : List SseEvent} (hn : Numbered h past)
    (hstep : step e h = some h') : Numbered h' (past ++ (broadcasted h e).toList) := by
  rcases step_cases hn hstep with ⟨event, data, order, horder, rfl, hevent⟩ | ⟨hk, hevent⟩
  · rw [hevent]
    exact (hn.broadcast event data horder).2
  · rw [hevent, Option.toList_none, List.append_nil]
    exact hn.keep hk

theorem follows_step {h h' : Hub} {e : Event} {past later missed : List SseEvent} {ch : ℕ}
    {reset : Bool} (hn : Numbered h past) (hf : Follows ch reset missed h later)
    (hstep : step e h = some h') :
    Follows ch reset missed h' (later ++ (broadcasted h e).toList) := by
  rcases step_cases hn hstep with ⟨event, data, order, horder, rfl, hevent⟩ | ⟨hk, hevent⟩
  · rw [hevent]
    exact hf.broadcast hn event data horder
  · rw [hevent, Option.toList_none, List.append_nil]
    exact hf.keep hk

theorem numbered_new (nonce : Bytes) : Numbered (.new nonce) [] where
  next := rfl
  ring := rfl
  ids i x hx := by cases hx
  clients ch := by simp [Hub.new]

/-- **The ring is the end of what was broadcast, and events are numbered.** -/
theorem numbered_run {nonce : Bytes} {es : List Event} {h : Hub}
    (hrun : run step (.new nonce) es = some h) :
    Numbered h (trace step broadcasted (.new nonce) es) :=
  invariant_trace (C := fun _ _ _ => True) (fun hn hstep _ => numbered_step hn hstep)
    (numbered_new nonce) (along_true _ _) hrun

theorem eventID_injective (nonce : Bytes) : Function.Injective (Hub.eventID nonce) := by
  intro m n heq
  have htail := List.append_cancel_left heq
  exact formatNat_injective (List.tail_eq_of_cons_eq htail)

theorem Numbered.nodup {h : Hub} {past : List SseEvent} (hn : Numbered h past)
    (hcount : past.length < 2 ^ 64) : (past.map SseEvent.id).Nodup := by
  rw [List.nodup_iff_getElem?_ne_getElem?]
  intro i j hij hj heq
  rw [List.length_map] at hj
  have hi := hn.ids i _ (List.getElem?_eq_getElem (hij.trans hj))
  have hj' := hn.ids j _ (List.getElem?_eq_getElem hj)
  rw [List.getElem?_map, List.getElem?_map, List.getElem?_eq_getElem (hij.trans hj),
    List.getElem?_eq_getElem hj, Option.map_some, Option.map_some, hi, hj'] at heq
  have hindex := eventID_injective _ (Option.some.inj heq)
  rw [Hub.increment, Hub.increment] at hindex
  omega

theorem Numbered.id_ne_nil {h : Hub} {past : List SseEvent} (hn : Numbered h past) :
    ∀ e ∈ past, e.id ≠ [] := by
  intro e he
  obtain ⟨i, hi⟩ := List.getElem?_of_mem he
  rw [hn.ids i e hi, Hub.eventID]
  simp

theorem startAfter_cases (ring : List SseEvent) (last : Bytes) (hids : ∀ e ∈ ring, e.id ≠ []) :
    (Hub.startAfter ring last = none ∧ ∀ e ∈ ring, e.id ≠ last) ∨
      ∃ old e missed, ring = old ++ e :: missed ∧ e.id = last ∧
        Hub.startAfter ring last = some (old.length + 1) := by
  rw [Hub.startAfter]
  by_cases hlast : last = []
  · rw [if_pos hlast, hlast]
    exact .inl ⟨rfl, hids⟩
  · rw [if_neg hlast]
    cases hfind : ring.findIdx? fun e => decide (e.id = last) with
    | none =>
      refine .inl ⟨rfl, fun e he => ?_⟩
      simpa using List.findIdx?_eq_none_iff.mp hfind e he
    | some i =>
      obtain ⟨hi, hid, -⟩ := List.findIdx?_eq_some_iff_getElem.mp hfind
      refine .inr ⟨ring.take i, ring[i], ring.drop (i + 1), ?_, by simpa using hid, ?_⟩
      · rw [← List.drop_eq_getElem_cons, List.take_append_drop]
      · rw [List.length_take_of_le hi.le]
        rfl

theorem follows_subscribe (h : Hub) (last sessionID : Bytes) :
    Follows h.streams.length (Hub.startAfter h.ring last).isNone
      (h.ring.drop ((Hub.startAfter h.ring last).getD h.ring.length))
      (h.subscribe last sessionID) [] := by
  refine ⟨⟨_, _, [], [], false, false⟩, List.getElem?_concat_length, rfl, ?_, fun _ => ?_⟩
  · simp [Stream.contents]
  · simp [Stream.contents]

/-- What a stream that starts with the id of the last event a client has seen gets: it is told
to fetch everything again, if the id is not among the last that were broadcast, and gets what is
broadcast later; or it gets what was broadcast after the event with that id, before and after the
stream started.  In both cases all of it, as long as its channel is not closed. -/
def Replayed (last : Bytes) (past later : List SseEvent) (s : Stream) : Prop :=
  (s.reset = true ∧ (∀ e ∈ past.drop (past.length - replaySize), e.id ≠ last) ∧
    s.sent <+: later ∧ (s.closed = false → s.sent ++ s.replay ++ s.queue = later)) ∨
  (s.reset = false ∧ ∃ old e missed, past = old ++ e :: missed ∧ e.id = last ∧
    missed.length < replaySize ∧ (∀ x ∈ old ++ missed ++ later, x.id ≠ last) ∧
    s.sent <+: missed ++ later ∧
    (s.closed = false → s.sent ++ s.replay ++ s.queue = missed ++ later))

/-- A write takes what is next of the ring, or else of the channel. -/
theorem write_next {h : Hub} {ch : ℕ} {s : Stream} {e : SseEvent} {rest : List SseEvent}
    (hs : h.streams[ch]? = some s) (hruns : s.returned = false)
    (hnext : s.replay ++ s.queue = e :: rest) :
    ∃ h' s', step (.write ch) h = some h' ∧ h'.streams[ch]? = some s' ∧ s'.returned = false ∧
      s'.sent = s.sent ++ [e] ∧ s'.replay ++ s'.queue = rest := by
  have hset (s' : Stream) : (h.streams.set ch s')[ch]? = some s' :=
    List.getElem?_set_self (List.getElem?_eq_some_iff.mp hs).1
  simp only [step, Hub.write, hs, hruns, Option.bind_eq_bind, Option.bind_some]
  cases hreplay : s.replay with
  | nil =>
    rw [hreplay, List.nil_append] at hnext
    exact ⟨_, _, by rw [hnext]; rfl, hset _, rfl, rfl, by simp⟩
  | cons x replay =>
    rw [hreplay] at hnext
    cases hnext
    exact ⟨_, _, rfl, hset _, rfl, rfl, rfl⟩

/-- **Writes deliver** what the stream has still to write, one by one. -/
def Delivers (h : Hub) (ch : ℕ) (s : Stream) : Prop :=
  s.returned = false → ∀ n ≤ (s.replay ++ s.queue).length, ∃ h' s',
    run step h (List.replicate n (.write ch)) = some h' ∧ h'.streams[ch]? = some s' ∧
      s'.sent = s.sent ++ (s.replay ++ s.queue).take n

theorem delivers {h : Hub} {ch : ℕ} {s : Stream} (hs : h.streams[ch]? = some s) :
    Delivers h ch s := by
  intro hruns n hn
  induction n generalizing h s with
  | zero => exact ⟨h, s, rfl, hs, by simp⟩
  | succ n ih =>
    obtain ⟨e, rest, hnext⟩ := List.exists_cons_of_length_pos (Nat.lt_of_succ_le hn).pos
    obtain ⟨h₁, s₁, hwrite, hs₁, hruns₁, hsent, hrest⟩ := write_next hs hruns hnext
    rw [hnext] at hn
    obtain ⟨h', s', hrun, hs', heq⟩ := ih hs₁ hruns₁ (hrest ▸ Nat.le_of_succ_le_succ hn)
    refine ⟨h', s', by rw [List.replicate_succ, run, hwrite]; exact hrun, hs', ?_⟩
    rw [heq, hsent, hrest, hnext, List.take_succ_cons, List.append_assoc]
    rfl

/-- **Replay is gap-free**, for a stream that starts after any sequence of broadcasts, streams,
disconnections and drops, and through any that follows, as long as the counter of the events is not
exhausted. -/
theorem replay_gap_free (nonce last sessionID : Bytes) (before after : List Event) (h₁ h : Hub)
    (hbefore : run step (.new nonce) before = some h₁) (haccepts : h₁.accepts sessionID = true)
    (hafter : run step (.new nonce) (before ++ .subscribe last sessionID :: after) = some h)
    (hcount : (trace step broadcasted (.new nonce) before ++
      trace step broadcasted (h₁.subscribe last sessionID) after).length < 2 ^ 64) :
    ∃ s, h.streams[h₁.streams.length]? = some s ∧ Delivers h h₁.streams.length s ∧
      Replayed last (trace step broadcasted (.new nonce) before)
        (trace step broadcasted (h₁.subscribe last sessionID) after) s := by
  generalize hp : trace step broadcasted (.new nonce) before = past at hcount ⊢
  generalize hl : trace step broadcasted (h₁.subscribe last sessionID) after = later at hcount ⊢
  have hsubscribe : step (.subscribe last sessionID) h₁ = some (h₁.subscribe last sessionID) := by
    rw [step, if_pos haccepts]
  have hrun : run step (h₁.subscribe last sessionID) after = some h := by
    rw [run_append hbefore, run, hsubscribe] at hafter
    exact hafter
  have hn₁ : Numbered h₁ past := hp ▸ numbered_run hbefore
  have hn₂ : Numbered (h₁.subscribe last sessionID) past :=
    hn₁.keep (keeps_subscribe hn₁ last sessionID)
  -- What the stream follows from its start on.
  obtain ⟨hn, hfollows⟩ : Numbered h (past ++ later) ∧
      Follows h₁.streams.length (Hub.startAfter h₁.ring last).isNone
        (h₁.ring.drop ((Hub.startAfter h₁.ring last).getD h₁.ring.length)) h later := by
    have hstart : Numbered (h₁.subscribe last sessionID) (past ++ []) ∧
        Follows h₁.streams.length (Hub.startAfter h₁.ring last).isNone
          (h₁.ring.drop ((Hub.startAfter h₁.ring last).getD h₁.ring.length))
          (h₁.subscribe last sessionID) [] :=
      ⟨by simpa using hn₂, follows_subscribe h₁ last sessionID⟩
    rw [← hl]
    refine invariant_trace (C := fun _ _ _ => True)
      (I := fun w l => Numbered w (past ++ l) ∧ Follows h₁.streams.length _ _ w l)
      (fun hI hstep _ => ⟨?_, follows_step hI.1 hI.2 hstep⟩) hstart (along_true _ _) hrun
    rw [← List.append_assoc]
    exact numbered_step hI.1 hstep
  obtain ⟨s, hs, hreset, hsub, hopen⟩ := hfollows
  have hsent : s.sent <+: s.contents :=
    (List.prefix_append s.sent s.replay).trans (List.prefix_append ..)
  have hring : h₁.ring = past.drop (past.length - replaySize) := hn₁.ring
  refine ⟨s, hs, delivers hs, ?_⟩
  rcases startAfter_cases h₁.ring last
    (fun e he => hn₁.id_ne_nil e (List.mem_of_mem_drop (hring ▸ he))) with
    ⟨hstart, hunknown⟩ | ⟨old, e, missed, heq, hid, hstart⟩
  · rw [hstart, Option.getD_none, List.drop_length, List.nil_append] at hsub hopen
    rw [hstart] at hreset
    exact .inl ⟨hreset, hring ▸ hunknown, hsent.trans hsub, hopen⟩
  · have hmissed : h₁.ring.drop (old.length + 1) = missed := by
      rw [heq, ← List.drop_drop, List.drop_left]
      rfl
    rw [hstart, Option.getD_some, hmissed] at hsub hopen
    rw [hstart] at hreset
    have hpast : past = past.take (past.length - replaySize) ++ old ++ e :: missed := by
      rw [List.append_assoc, ← heq, hring, List.take_append_drop]
    have hlength : missed.length < replaySize := by
      have hlen := congrArg List.length (heq.symm.trans hring)
      simp only [List.length_append, List.length_cons, List.length_drop] at hlen
      omega
    refine .inr ⟨hreset, past.take (past.length - replaySize) ++ old, e, missed, hpast, hid,
      hlength, ?_, hsent.trans hsub, hopen⟩
    have hnodup := hn.nodup hcount
    rw [hpast, List.append_assoc, List.cons_append, List.map_append, List.map_cons,
      List.nodup_middle, List.nodup_cons, ← List.map_append, hid, ← List.append_assoc] at hnodup
    intro x hx heq
    exact hnodup.1 (List.mem_map.mpr ⟨x, hx, heq⟩)

/-- Two cards change. -/
def twoChanges : List Event := [.publish (ascii "1") [], .publish (ascii "2") []]

/-- A client is written to, a third card changes, and the client is written to again. -/
def thirdChange : List Event := [.write 0, .publish (ascii "3") [0], .write 0]

/-- Two cards change, a client that has seen the first comes back, and a third changes. -/
theorem replay_gap_free_two :
    ∃ h₁ h, run step (.new (ascii "n")) twoChanges = some h₁ ∧ h₁.accepts [] = true ∧
      run step (.new (ascii "n"))
        (twoChanges ++ Event.subscribe (ascii "n-1") [] :: thirdChange) = some h ∧
      ∃ s, h.streams[h₁.streams.length]? = some s ∧ Delivers h h₁.streams.length s ∧
        Replayed (ascii "n-1") (trace step broadcasted (.new (ascii "n")) twoChanges)
          (trace step broadcasted (h₁.subscribe (ascii "n-1") []) thirdChange) s := by
  have hfirst : (run step (.new (ascii "n")) twoChanges).any (fun h => h.accepts [] &&
      decide ((trace step broadcasted (.new (ascii "n")) twoChanges ++
        trace step broadcasted (h.subscribe (ascii "n-1") []) thirdChange).length < 2 ^ 64)) =
      true := by
    decide +kernel
  have hall : (run step (.new (ascii "n"))
      (twoChanges ++ Event.subscribe (ascii "n-1") [] :: thirdChange)).isSome = true := by
    decide +kernel
  simp only [Option.any_eq_true, Bool.and_eq_true, decide_eq_true_eq] at hfirst
  obtain ⟨h₁, hbefore, haccepts, hcount⟩ := hfirst
  obtain ⟨h, hafter⟩ := Option.isSome_iff_exists.mp hall
  exact ⟨h₁, h, hbefore, haccepts, hafter,
    replay_gap_free _ _ _ _ _ h₁ h hbefore haccepts hafter hcount⟩

end Veduta.Api
