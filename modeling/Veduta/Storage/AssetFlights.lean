import Veduta.Go.Base64
import Veduta.Go.Map
import Veduta.Lib.Transition

/-!
# Asset flights

Package `assetcache`: of the callers that ask for an asset at the same time one leads, and the
others wait for what it gets.  The leader reads the cache and fetches under its own context, and
takes its flight off the table where it returns.  So those who wait also get its cancellation, and
a fetch that panics leaves the flight on the table.
-/

namespace Veduta.Storage.AssetFlights

open Go Lib

structure Result where
  body : Bytes := []
  contentType : Bytes := []

/-- An error; `ctx.Err()` is that of some caller's context. -/
inductive Failure where
  | cancelled (caller : ℕ)
  | other (message : Bytes)

abbrev Answer := Result × Option Failure

/-- Where a caller of `GetOrFetch` stands; `left` once the flight is done, with what its leader
returns. -/
inductive Pc where
  | start
  | wait (leader : ℕ)
  | get
  | fetch
  | put (r : Result)
  | leave (a : Answer)
  | left (a : Answer)
  | returned (a : Answer)
  | panicked

structure Caller where
  key : Bytes
  hasFetch : Bool
  cancelled : Bool
  pc : Pc

structure World where
  callers : List Caller
  flights : GoMap Bytes ℕ

/-- What the cache and the fetch function do; `ok` also where a caller just goes on. -/
inductive Outcome where
  | ok (r : Result)
  | miss
  | fail (r : Result) (e : Failure)
  | panic

inductive Event where
  | call (key : Bytes) (hasFetch : Bool)
  | cancel (i : ℕ)
  | act (i : ℕ) (o : Outcome)

def refused (message : String) : Pc := .returned ({}, some (.other (ascii message)))

/-- A step of `GetOrFetch`. -/
def World.next (w : World) (i : ℕ) (c : Caller) : Pc → Outcome → Option (GoMap Bytes ℕ × Pc)
  | .start, .ok _ =>
    if !c.hasFetch then some (w.flights, refused "assetcache: nil fetch function")
    else if !(decodeBase64URL c.key).any (·.length == 32) then
      some (w.flights, refused "assetcache: invalid cache key")
    else
      match w.flights.lookup c.key with
      | some leader => some (w.flights, .wait leader)
      | none => some (w.flights.insert c.key i, .get)
  | .wait _, .fail _ (.cancelled j) => some (w.flights, .returned ({}, some (.cancelled j)))
  | .wait leader, .ok _ =>
    match (w.callers[leader]?).map Caller.pc with
    | some (.left a) => some (w.flights, .returned a)
    | _ => none
  | .get, .ok r | .put r, .ok _ => some (w.flights, .leave (r, none))
  | .get, .miss => some (w.flights, .fetch)
  | .get, .fail _ e => some (w.flights, .leave ({}, some e))
  | .fetch, .ok r => some (w.flights, .put r)
  | .fetch, .fail r e | .put r, .fail _ e => some (w.flights, .leave (r, some e))
  | .fetch, .panic => some (w.flights, .panicked)
  | .leave a, .ok _ => some (w.flights.erase c.key, .left a)
  | _, _ => none

/-- Nothing fails with a cancellation unless the caller's context is done. -/
def Caller.may (c : Caller) (i : ℕ) : Outcome → Bool
  | .fail _ (.cancelled j) => j == i && c.cancelled
  | _ => true

def step (e : Event) (w : World) : Option World :=
  match e with
  | .call key hasFetch =>
    some { w with callers := w.callers ++ [⟨key, hasFetch, false, .start⟩] }
  | .cancel i => (w.callers[i]?).map fun c =>
    { w with callers := w.callers.set i { c with cancelled := true } }
  | .act i o => (w.callers[i]?).bind fun c =>
    if c.may i o then (w.next i c c.pc o).map fun (flights, pc) =>
      ⟨w.callers.set i { c with pc := pc }, flights⟩
    else none

/-- The caller leads a flight. -/
def Pc.leads : Pc → Bool
  | .get | .fetch | .put _ | .leave _ => true
  | _ => false

/-- No leader is stopped by its own context, and no fetch panics. -/
def calm (w : World) : Event → Bool
  | .act i (.fail _ (.cancelled _)) => (w.callers[i]?).all fun c => !c.pc.leads
  | .act _ .panic => false
  | _ => true

/-- What the cache or the fetch function of a leader fails with. -/
def gave (w : World) : Event → Option (ℕ × Failure)
  | .act i (.fail _ e) => (w.callers[i]?).bind fun c => if c.pc.leads then some (i, e) else none
  | _ => none

/-- The call has no fetch function, or a key that is none. -/
def Caller.refusable (c : Caller) : Bool :=
  !c.hasFetch || !(decodeBase64URL c.key).any (·.length == 32)

/-- The caller `l` has the key, and has left its flight with the answer. -/
def Led (w : World) (key : Bytes) (l : ℕ) (a : Answer) : Prop :=
  ∃ x, w.callers[l]? = some x ∧ x.key = key ∧ x.pc = .left a

/-- Where the answer of a caller is from, after what was given. -/
def Fair (w : World) (past : List (ℕ × Failure)) (i : ℕ) (c : Caller) : Prop :=
  match c.pc with
  | .wait l => ∃ x, w.callers[l]? = some x ∧ x.key = c.key
  | .leave a | .left a => ∀ e, a.2 = some e → (i, e) ∈ past
  | .returned a => c.cancelled = false → c.refusable = true ∨ ∃ l, Led w c.key l a
  | _ => True

/-- Callers stay, and those that have left do not change their answers. -/
def Keeps (w w' : World) : Prop :=
  ∀ (l : ℕ) x, w.callers[l]? = some x →
    ∃ y, w'.callers[l]? = some y ∧ y.key = x.key ∧ ∀ a, x.pc = .left a → y.pc = .left a

structure Isolated (w : World) (past : List (ℕ × Failure)) : Prop where
  fair : ∀ {i : ℕ} {c}, w.callers[i]? = some c → Fair w past i c
  flights : ∀ {key l}, w.flights.lookup key = some l →
    ∃ c, w.callers[l]? = some c ∧ c.key = key ∧ c.pc.leads = true
  own : ∀ i j, (i, .cancelled j) ∉ past

section

variable {w w' : World} {e : Event} {i : ℕ} {c c' : Caller} {o : Outcome}
  {flights : GoMap Bytes ℕ} {pc : Pc} {past past' : List (ℕ × Failure)} {key : Bytes} {l : ℕ}

theorem exists_set {x : Caller} (hc : w.callers[i]? = some c) (hx : w.callers[l]? = some x)
    (c' : Caller) : ∃ y, (w.callers.set i c')[l]? = some y ∧ (y = x ∨ x = c ∧ y = c') := by
  by_cases heq : i = l
  · subst heq
    cases hc.symm.trans hx
    exact ⟨c', List.getElem?_set_self (List.getElem?_eq_some_iff.mp hc).1, .inr ⟨rfl, rfl⟩⟩
  · exact ⟨x, by rwa [List.getElem?_set_ne heq], .inl rfl⟩

theorem keeps_set (hc : w.callers[i]? = some c) (hkey : c'.key = c.key)
    (hleft : ∀ a, c.pc = .left a → c'.pc = .left a) : Keeps w ⟨w.callers.set i c', flights⟩ := by
  intro l x hx
  obtain ⟨y, hy, rfl | ⟨rfl, rfl⟩⟩ := exists_set hc hx c'
  · exact ⟨y, hy, rfl, fun _ => id⟩
  · exact ⟨y, hy, hkey, hleft⟩

theorem Fair.mono (h : Fair w past i c) (hkeeps : Keeps w w') (hpast : past ⊆ past') :
    Fair w' past' i c := by
  unfold Fair at h ⊢
  split at h
  · obtain ⟨x, hx, hkey⟩ := h
    obtain ⟨y, hy, hsame, -⟩ := hkeeps _ x hx
    exact ⟨y, hy, hsame.trans hkey⟩
  · exact fun e he => hpast (h e he)
  · exact fun e he => hpast (h e he)
  · intro hlive
    refine (h hlive).imp_right ?_
    rintro ⟨l, x, hx, hkey, hleft⟩
    obtain ⟨y, hy, hsame, hkept⟩ := hkeeps _ x hx
    exact ⟨l, y, hy, hsame.trans hkey, hkept _ hleft⟩
  · trivial

theorem fair_next (h : Isolated w past) (hc : w.callers[i]? = some c) (hmay : c.may i o = true)
    (hnext : w.next i c c.pc o = some (flights, pc)) :
    Fair w (past ++ (gave w (.act i o)).toList) i { c with pc := pc } := by
  have hfair := h.fair hc
  have hgave : ∀ r e, o = .fail r e → c.pc.leads = true →
      (i, e) ∈ past ++ (gave w (.act i o)).toList := by
    rintro r e rfl hleads
    simp [gave, hc, hleads]
  obtain ⟨key, hasFetch, cancelled, cpc⟩ := c
  dsimp only [Fair] at hnext hfair hgave ⊢
  unfold World.next at hnext
  split at hnext
  case h_1 =>
    split_ifs at hnext with hnil hkey
    · cases hnext
      exact fun _ => .inl (by simp [Caller.refusable, hnil])
    · cases hnext
      exact fun _ => .inl (by simp [Caller.refusable, hkey])
    · split at hnext
      · rename_i hl
        cases hnext
        obtain ⟨x, hx, hxkey, -⟩ := h.flights hl
        exact ⟨x, hx, hxkey⟩
      · cases hnext
        trivial
  case h_2 =>
    cases hnext
    intro hlive
    simp [Caller.may, hlive] at hmay
  case h_3 =>
    split at hnext
    · rename_i hleader
      cases hnext
      obtain ⟨x, hx, hkey⟩ := hfair
      refine fun _ => .inr ⟨_, x, hx, hkey, ?_⟩
      simpa [hx] using hleader
    · cases hnext
  case h_12 =>
    cases hnext
    exact fun e he => List.mem_append_left _ (hfair e he)
  all_goals cases hnext
  all_goals simp_all [Pc.leads]

/-- A flight begins with its leader, and goes when it leaves. -/
theorem flights_next (hcalm : calm w (.act i o) = true)
    (hnext : w.next i c c.pc o = some (flights, pc)) :
    (∀ a, c.pc ≠ .left a) ∧
      (flights = w.flights ∧ (c.pc.leads = true → pc.leads = true) ∨
        flights = w.flights.insert c.key i ∧ pc.leads = true ∨
        flights = w.flights.erase c.key) := by
  unfold World.next at hnext
  split at hnext
  case h_1 =>
    split_ifs at hnext
    · cases hnext
      simp_all [refused, Pc.leads]
    · cases hnext
      simp_all [refused, Pc.leads]
    · split at hnext <;> cases hnext <;> simp_all [Pc.leads]
  case h_3 =>
    split at hnext <;> cases hnext
    simp_all [Pc.leads]
  case h_11 => cases hcalm
  all_goals cases hnext
  all_goals simp_all [Pc.leads]

/-- The flights after one caller has gone on, as long as it leads what it led. -/
theorem leads_set (h : Isolated w past) (hc : w.callers[i]? = some c)
    (hl : w.flights.lookup key = some l) (hkey : c'.key = c.key)
    (hleads : c.key = key → c.pc.leads = true → c'.pc.leads = true) :
    ∃ x, (w.callers.set i c')[l]? = some x ∧ x.key = key ∧ x.pc.leads = true := by
  obtain ⟨x, hx, hxkey, hxleads⟩ := h.flights hl
  obtain ⟨y, hy, rfl | ⟨rfl, rfl⟩⟩ := exists_set hc hx c'
  · exact ⟨y, hy, hxkey, hxleads⟩
  · exact ⟨y, hy, hkey.trans hxkey, hleads hxkey hxleads⟩

theorem isolated_step (h : Isolated w past) (hstep : step e w = some w')
    (hcalm : calm w e = true) : Isolated w' (past ++ (gave w e).toList) := by
  cases e with
  | call key hasFetch =>
    cases hstep
    have hkeeps : Keeps w { w with callers := w.callers ++ [⟨key, hasFetch, false, .start⟩] } :=
      fun _ x hx => ⟨x, List.getElem?_append_left (List.getElem?_eq_some_iff.mp hx).1 ▸ hx, rfl,
        fun _ => id⟩
    refine ⟨fun hc => ?_, fun hl => ?_, by simpa [gave] using h.own⟩
    · rcases getElem?_append_cases hc with hold | rfl
      · exact (h.fair hold).mono hkeeps (by simp)
      · trivial
    · obtain ⟨c, hc, hkey⟩ := h.flights hl
      exact ⟨c, List.getElem?_append_left (List.getElem?_eq_some_iff.mp hc).1 ▸ hc, hkey⟩
  | cancel i =>
    obtain ⟨c, hc, rfl⟩ := Option.map_eq_some_iff.mp hstep
    have hkeeps : Keeps w ⟨w.callers.set i { c with cancelled := true }, w.flights⟩ :=
      keeps_set hc rfl fun _ => id
    refine ⟨fun hc' => ?_, fun hl => leads_set h hc hl rfl fun _ => id, by simpa [gave] using h.own⟩
    rcases getElem?_set_cases hc' with ⟨rfl, rfl⟩ | ⟨-, hold⟩
    · have hfair := (h.fair hc).mono hkeeps
        (List.subset_append_left past (gave w (.cancel i)).toList)
      unfold Fair at hfair ⊢
      dsimp only
      split <;> simp_all
    · exact (h.fair hold).mono hkeeps (by simp)
  | act i o =>
    obtain ⟨c, hc, hact⟩ := Option.bind_eq_some_iff.mp hstep
    split_ifs at hact with hmay
    obtain ⟨⟨flights, pc⟩, hnext, rfl⟩ := Option.map_eq_some_iff.mp hact
    obtain ⟨hleft, hflights⟩ := flights_next hcalm hnext
    have hkeeps : Keeps w ⟨w.callers.set i { c with pc := pc }, flights⟩ :=
      keeps_set hc rfl fun a ha => absurd ha (hleft a)
    refine ⟨fun hc' => ?_, fun {key l} hl => ?_, fun k j hmem => ?_⟩
    · rcases getElem?_set_cases hc' with ⟨rfl, rfl⟩ | ⟨-, hold⟩
      · exact (fair_next h hc hmay hnext).mono hkeeps (by simp)
      · exact (h.fair hold).mono hkeeps (by simp)
    · rcases hflights with ⟨rfl, hleads⟩ | ⟨rfl, hleads⟩ | rfl
      · exact leads_set h hc hl rfl fun _ => hleads
      · rcases GoMap.lookup_of_insert hl with ⟨rfl, rfl⟩ | hold
        · exact ⟨_, List.getElem?_set_self (List.getElem?_eq_some_iff.mp hc).1, rfl, hleads⟩
        · exact leads_set h hc hold rfl fun _ _ => hleads
      · obtain ⟨hkey, hold⟩ := GoMap.lookup_of_erase hl
        exact leads_set h hc hold rfl fun heq => absurd heq.symm hkey
    · -- a leader has no error of its context
      rcases List.mem_append.mp hmem with hold | hnew
      · exact h.own k j hold
      · cases o <;> simp_all [gave, calm]

end

/-- **Coalescing is isolated** along runs in which no leader is stopped by its own context and no
fetch panics: an error that a caller whose context is not done gets is no cancellation, and unless
the call itself is refused it is what the cache or the fetch function of its flight's leader failed
with; a key that is taken has a leader on its way. -/
theorem flights_isolated {es : List Event} {w : World}
    (hcalm : Along step (fun w e _ => calm w e = true) ⟨[], ∅⟩ es)
    (hrun : run step ⟨[], ∅⟩ es = some w) :
    (∀ (i : ℕ) c a e, w.callers[i]? = some c → c.pc = .returned a ∨ c.pc = .left a →
        c.cancelled = false → a.2 = some e → c.refusable = true ∨ (∀ j, e ≠ .cancelled j) ∧
          ∃ l, Led w c.key l a ∧ (l, e) ∈ trace step gave ⟨[], ∅⟩ es) ∧
      ∀ key l, w.flights.lookup key = some l →
        ∃ c, w.callers[l]? = some c ∧ c.key = key ∧ c.pc.leads = true := by
  have hstart : Isolated ⟨[], ∅⟩ [] := ⟨by simp, by simp, by simp⟩
  have h := invariant_trace isolated_step hstart hcalm hrun
  rw [List.nil_append] at h
  -- what a leader has left with was given
  have hled : ∀ {key l a e}, Led w key l a → a.2 = some e →
      (∀ j, e ≠ .cancelled j) ∧ ∃ l, Led w key l a ∧ (l, e) ∈ trace step gave ⟨[], ∅⟩ es := by
    rintro key l a e ⟨x, hx, hkey, hpc⟩ he
    have hfair := h.fair hx
    rw [Fair, hpc] at hfair
    exact ⟨fun j hj => h.own l j (hj ▸ hfair e he), l, ⟨x, hx, hkey, hpc⟩, hfair e he⟩
  refine ⟨fun i c a e hc hpc hlive he => ?_, fun key l hl => h.flights hl⟩
  rcases hpc with hpc | hpc
  · have hfair := h.fair hc
    rw [Fair, hpc] at hfair
    exact (hfair hlive).imp_right fun ⟨l, hl⟩ => hled hl he
  · exact .inr (hled ⟨c, hc, rfl, hpc⟩ he)

/-- Two callers share a flight, whose leader fetches. -/
def shared : List Event :=
  let key := List.replicate 43 (chr 'A')
  [.call key true, .call key true, .act 0 (.ok {}), .act 1 (.ok {}), .act 0 .miss]

/-- Both get what the fetch of their flight fails with. -/
theorem flights_isolated_failed :
    ∃ w l, run step ⟨[], ∅⟩ (shared ++ [Event.act 0 (.fail {} (.other [])), .act 0 (.ok {}),
        .act 1 (.ok {})]) = some w ∧
      Led w (List.replicate 43 (chr 'A')) l ({}, some (.other [])) := by
  have hcalm : Along step (fun w e _ => calm w e = true) ⟨[], ∅⟩ (shared ++
      [Event.act 0 (.fail {} (.other [])), .act 0 (.ok {}), .act 1 (.ok {})]) := by decide +kernel
  obtain ⟨-, l, hled, -⟩ := ((flights_isolated hcalm rfl).1 1 _ _ _ rfl (.inl rfl) rfl
    rfl).resolve_left (by decide)
  exact ⟨_, l, rfl, hled⟩

/-- A caller is given the cancellation of its leader; a fetch that panics keeps its key. -/
theorem flights_not_isolated :
    (∃ (w : World) (c : Caller), run step ⟨[], ∅⟩ (shared ++ [Event.cancel 0,
        .act 0 (.fail {} (.cancelled 0)), .act 0 (.ok {}), .act 1 (.ok {})]) = some w ∧
      w.callers[1]? = some c ∧ c.cancelled = false ∧
      c.pc = .returned ({}, some (.cancelled 0))) ∧
    ∃ (w : World) (c : Caller), run step ⟨[], ∅⟩ (shared ++ [Event.act 0 .panic]) = some w ∧
      w.callers[0]? = some c ∧ c.pc = .panicked ∧ w.flights.lookup c.key = some 0 :=
  ⟨⟨_, _, rfl, rfl, rfl, rfl⟩, _, _, rfl, rfl, rfl, rfl⟩

end Veduta.Storage.AssetFlights
