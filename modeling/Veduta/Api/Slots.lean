import Veduta.Api.Stream

/-!
# The slots of the event streams

Package `api`: a session may hold four streams and the hub a hundred and twenty-eight.  A client
leaves by being dropped from a broadcast or by the `done` of its handler, in either order and any
number of times; both go through `removeClient`, which does nothing for a client that has left.
-/

namespace Veduta.Api

open Go Lib

inductive Op where
  | event (e : Event)
  | done (ch : ℕ)

def perform (op : Op) (h : Hub) : Option Hub :=
  match op with
  | .event e => step e h
  | .done ch => some (h.removeClient ch)

/-- The number of live clients of a session. -/
def live (h : Hub) (sessionID : Bytes) : ℕ := h.clients.entries.countP fun x => x.2 = sessionID

/-- What holds of the counters after every run. -/
structure Accounted (h : Hub) : Prop where
  fresh : ∀ ch, (h.clients.lookup ch).isSome = true → ch < h.streams.length
  count : ∀ id ≠ [], h.sessions.get 0 id = live h id
  session_le : ∀ id ≠ [], live h id ≤ maxSSEClientsPerSession
  clients_le : h.clients.size ≤ maxSSEClients

variable {h h' : Hub} {ch : ℕ}

theorem live_erase {v : Bytes} (hv : h.clients.lookup ch = some v) (id : Bytes) :
    (h.clients.erase ch).entries.countP (fun x => x.2 = id) + (if v = id then 1 else 0) =
      live h id := by
  obtain ⟨b, l₁, l₂, -, heq, hk⟩ :=
    List.exists_of_kerase (GoMap.mem_keys_iff.mpr (by rw [hv]; rfl) : ch ∈ h.clients.keys)
  have hb : h.clients.lookup ch = some b :=
    GoMap.lookup_eq_some_iff.mpr (heq ▸ by simp)
  cases hv.symm.trans hb
  change (List.kerase ch h.clients.entries).countP _ + _ = _
  rw [live, hk, heq]
  simp [List.countP_cons]
  omega

theorem get_release (sessions : GoMap Bytes ℤ) (v : Bytes) {id : Bytes} (hid : id ≠ []) :
    (Hub.release sessions v).get 0 id =
      if v = id then max (sessions.get 0 id - 1) 0 else sessions.get 0 id := by
  rw [Hub.release]
  by_cases hv : v = id
  · subst hv
    rw [if_neg hid, if_pos rfl]
    dsimp only
    split_ifs with hn
    · rw [max_eq_right hn, GoMap.get, AList.lookup_erase]
      rfl
    · rw [max_eq_left (by omega), GoMap.get, AList.lookup_insert]
      rfl
  · rw [if_neg hv]
    dsimp only
    split_ifs
    · rfl
    · rw [GoMap.get, AList.lookup_erase_ne (Ne.symm hv)]
      rfl
    · rw [GoMap.get, AList.lookup_insert_ne (Ne.symm hv)]
      rfl

/-- A client that leaves gives its slot back, once. -/
theorem Accounted.removeClient (ha : Accounted h) (ch : ℕ) : Accounted (h.removeClient ch) := by
  rw [Hub.removeClient]
  cases hv : h.clients.lookup ch with
  | none => exact ha
  | some v =>
    have hlive := live_erase hv
    refine ⟨fun j hj => ?_, fun id hid => ?_, fun id hid => ?_, ?_⟩
    · rw [List.length_modify]
      exact ha.fresh j (Hub.isSome_lookup_erase.mp hj).1
    · have hcount := ha.count id hid
      rw [← hlive id] at hcount
      rw [get_release _ _ hid, hcount, live]
      split_ifs
      · push_cast
        rw [add_sub_cancel_right]
        exact max_eq_left (Int.natCast_nonneg _)
      · simp
    · have := ha.session_le id hid
      rw [← hlive id] at this
      exact le_trans (Nat.le_add_right _ _) this
    · exact le_trans (GoMap.size_erase_le _ _) ha.clients_le

theorem Accounted.congr (ha : Accounted h) (hclients : h'.clients = h.clients)
    (hsessions : h'.sessions = h.sessions) (hlength : h'.streams.length = h.streams.length) :
    Accounted h' := by
  refine ⟨?_, ?_, ?_, ?_⟩
  · rw [hclients, hlength]
    exact ha.fresh
  · simp only [live, hclients, hsessions]
    exact ha.count
  · simp only [live, hclients]
    exact ha.session_le
  · rw [hclients]
    exact ha.clients_le

theorem Accounted.offer (ha : Accounted h) (e : SseEvent) (ch : ℕ) :
    Accounted (Hub.offer e h ch) := by
  rw [Hub.offer]
  split
  · exact ha
  · split_ifs
    · exact ha.congr rfl rfl (List.length_modify ..)
    · exact ha.removeClient ch

theorem Accounted.broadcast (ha : Accounted h) (event data : Bytes) (order : List ℕ) :
    Accounted (h.broadcast event data order) := by
  rw [Hub.broadcast]
  have hring : Accounted { h with
      next := Hub.increment h.next, ring := Hub.trim (h.ring ++ [h.nextEvent event data]) } :=
    ha.congr rfl rfl rfl
  exact List.foldlRecOn order _ hring fun _ hb ch _ => hb.offer _ ch

theorem Accounted.subscribe (ha : Accounted h) {sessionID : Bytes}
    (hok : h.accepts sessionID = true) (last : Bytes) : Accounted (h.subscribe last sessionID) := by
  have hnew : h.clients.lookup h.streams.length = none := by
    by_contra hsome
    have := ha.fresh _ (Option.isSome_iff_ne_none.mpr hsome)
    omega
  have hentries : (h.clients.insert h.streams.length sessionID).entries =
      ⟨h.streams.length, sessionID⟩ :: h.clients.entries :=
    AList.entries_insert_of_notMem (AList.lookup_eq_none.mp hnew)
  simp only [Hub.accepts, Bool.not_eq_true', Bool.or_eq_false_iff, decide_eq_false_iff_not,
    not_le] at hok
  have hlive (id : Bytes) : live (h.subscribe last sessionID) id =
      live h id + if sessionID = id then 1 else 0 := by
    rw [live, Hub.subscribe, hentries, List.countP_cons]
    simp [live]
  refine ⟨fun ch hch => ?_, fun id hid => ?_, fun id hid => ?_, ?_⟩
  · rw [Hub.subscribe, List.length_append, List.length_singleton]
    by_cases heq : ch = h.streams.length
    · omega
    · have := ha.fresh ch ((AList.lookup_insert_ne heq).symm ▸ hch)
      omega
  · rw [hlive id, Hub.subscribe]
    by_cases heq : sessionID = id
    · subst heq
      rw [if_neg hid, if_pos rfl, GoMap.get, AList.lookup_insert, Option.getD_some, ha.count _ hid]
      rfl
    · rw [if_neg heq, Nat.add_zero, ← ha.count id hid]
      split_ifs
      · rfl
      · rw [GoMap.get, AList.lookup_insert_ne (Ne.symm heq)]
        rfl
  · rw [hlive id]
    have hle := ha.session_le id hid
    split_ifs with heq
    · subst heq
      have hroom := hok.2
      rw [ha.count _ hid] at hroom
      simp [hid] at hroom
      omega
    · exact hle
  · rw [Hub.subscribe, GoMap.size_insert_of_lookup_eq_none hnew]
    exact hok.1

/-- **One operation keeps the slots exact.** -/
theorem Accounted.perform {op : Op} (ha : Accounted h) (hop : perform op h = some h') :
    Accounted h' := by
  cases op with
  | done ch =>
    cases hop
    exact ha.removeClient ch
  | event e =>
    cases e with
    | subscribe last sessionID =>
      simp only [Api.perform, step] at hop
      split_ifs at hop with hok
      · cases hop
        exact ha.subscribe hok last
      · cases hop
        exact ha
    | write ch =>
      obtain ⟨s, -, hwrite⟩ := Option.bind_eq_some_iff.mp hop
      split_ifs at hwrite
      split at hwrite
      · cases hwrite
        exact ha.congr rfl rfl List.length_set
      · cases hwrite
        exact ha.congr rfl rfl List.length_set
      · cases hwrite
    | finish ch =>
      obtain ⟨s, -, hfinish⟩ := Option.bind_eq_some_iff.mp hop
      split_ifs at hfinish
      cases hfinish
      have hset : Accounted { h with streams := h.streams.set ch { s with returned := true } } :=
        ha.congr rfl rfl List.length_set
      exact hset.removeClient ch
    | publish data order | publishConfig generation order =>
      simp only [Api.perform, step, Event.content, Option.bind_eq_bind, Option.bind_some] at hop
      split_ifs at hop
      cases hop
      exact ha.broadcast _ _ order

/-- **The slots are exact** after every run: a session's counter is the number of its live clients,
the limits hold, and a refused subscription changes nothing. -/
theorem slots_exact {nonce : Bytes} {ops : List Op} (hrun : run perform (.new nonce) ops = some h) :
    (∀ id ≠ [], h.sessions.get 0 id = live h id ∧ live h id ≤ 4) ∧ h.clients.size ≤ 128 ∧
      ∀ last sessionID, h.accepts sessionID = false →
        perform (.event (.subscribe last sessionID)) h = some h := by
  have hnew : Accounted (.new nonce) := by
    refine ⟨fun ch hch => ?_, fun _ _ => rfl, fun _ _ => Nat.zero_le _, Nat.zero_le _⟩
    cases hch
  have ha := invariant_run Accounted.perform hnew hrun
  refine ⟨fun id hid => ⟨ha.count id hid, ha.session_le id hid⟩, ha.clients_le, ?_⟩
  intro last sessionID hno
  simp [perform, step, hno]

/-- Two streams of a session, and two calls of the `done` of the first. -/
theorem slots_exact_done_twice :
    ∃ h, run perform (.new []) [.event (.subscribe [] (ascii "s")),
        .event (.subscribe [] (ascii "s")), .done 0, .done 0] = some h ∧
      h.sessions.get 0 (ascii "s") = live h (ascii "s") ∧ live h (ascii "s") = 1 := by
  obtain ⟨h, hrun, hlive⟩ : ∃ h, run perform (.new []) [.event (.subscribe [] (ascii "s")),
      .event (.subscribe [] (ascii "s")), .done 0, .done 0] = some h ∧
      live h (ascii "s") = 1 := ⟨_, rfl, by decide⟩
  exact ⟨h, hrun, ((slots_exact hrun).1 _ (by decide)).1, hlive⟩

end Veduta.Api
