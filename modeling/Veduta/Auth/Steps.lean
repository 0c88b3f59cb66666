import Veduta.Auth.Service
import Veduta.Auth.Verifier

/-!
# Steps of the session service

What one step can do, once for all: which sessions and windows it leaves or adds, and what becomes
of the lock.  From that, what holds of the lock and of the configuration in every world.  The steps
of a call that verifies a password are those of the pool of `Auth.Verifier`.
-/

namespace Veduta.Auth

open Go Lib

/-- What a step that is no writer's leaves: the stored and the configured credentials; sessions and
windows, unless they are new ones of the issue. -/
structure Kept (issue : Option Issue) (σ σ' : State) : Prop where
  users : σ'.db.users = σ.db.users
  credentials : σ'.service.credentials = σ.service.credentials
  rotations : σ'.rotations = σ.rotations
  sessions : ∀ {id row}, σ'.db.sessions.lookup id = some row →
    σ.db.sessions.lookup id = some row ∨ issue = some row.issued
  windows : ∀ {id window}, σ'.service.sudoUntil.lookup id = some window →
    σ.service.sudoUntil.lookup id = some window ∨ issue = some window.issued

section

variable {issue : Option Issue} {σ : State}

theorem Kept.refl (issue : Option Issue) (σ : State) : Kept issue σ σ :=
  ⟨rfl, rfl, rfl, .inl, .inl⟩

theorem kept_deleteSession (id : Bytes) : Kept issue σ (σ.deleteSession id) :=
  ⟨rfl, rfl, rfl, fun h => .inl (GoMap.lookup_of_erase h).2, .inl⟩

theorem kept_setVerifier (v : Verifier) : Kept issue σ (σ.setVerifier v) :=
  ⟨rfl, rfl, rfl, .inl, .inl⟩

theorem kept_setAttempts (t : Table) : Kept issue σ (σ.setAttempts t) :=
  ⟨rfl, rfl, rfl, .inl, .inl⟩

theorem kept_eraseSudo (id : Bytes) :
    Kept issue σ (σ.setSudo (σ.service.sudoUntil.erase id)) :=
  ⟨rfl, rfl, rfl, .inl, fun h => .inl (GoMap.lookup_of_erase h).2⟩

theorem kept_insertSession (id : Bytes) {row : SessionRow} (h : issue = some row.issued) :
    Kept issue σ { σ with db := { σ.db with sessions := σ.db.sessions.insert id row } } := by
  refine ⟨rfl, rfl, rfl, ?_, .inl⟩
  intro k r hk
  rcases GoMap.lookup_of_insert hk with ⟨rfl, rfl⟩ | hold
  · exact .inr h
  · exact .inl hold

theorem kept_filterSessions (p : Bytes → SessionRow → Bool) :
    Kept issue σ { σ with db := { σ.db with sessions := σ.db.sessions.filter p } } := by
  refine ⟨rfl, rfl, rfl, ?_, .inl⟩
  intro k r hk
  rw [GoMap.lookup_eq_some_iff, GoMap.mem_entries_filter] at hk
  exact .inl (GoMap.lookup_eq_some_iff.mpr hk.1)

theorem kept_insertSudo (id : Bytes) {window : Window} (h : issue = some window.issued) :
    Kept issue σ (σ.setSudo (σ.service.sudoUntil.insert id window)) := by
  refine ⟨rfl, rfl, rfl, .inl, ?_⟩
  intro k v hk
  rcases GoMap.lookup_of_insert hk with ⟨rfl, rfl⟩ | hold
  · exact .inr h
  · exact .inl hold

end

section

variable {env : Env} {x : Choice} {now : ℤ} {noWriter noHolder : Bool} {σ σ' : State}
variable {request : Request} {pc pc' : Pc}

theorem kept_of_read {a : Admission} {p : Reading}
    (h : read env x now σ request a p = some (σ', pc')) :
    Kept (some a.issue) σ σ' ∧ σ'.last = σ.last ∧
      ((∃ p', pc' = .reading a p') ∨ ∃ r, pc' = .done r) := by
  cases p with
  | lockout | token =>
    simp only [read] at h
    split at h <;> cases h <;> exact ⟨.refl _ _, rfl, .inl ⟨_, rfl⟩⟩
  | enqueue =>
    simp only [read] at h
    split at h <;> cases h <;> exact ⟨kept_setVerifier _, rfl, .inl ⟨_, rfl⟩⟩
  | refused | hash | dequeue =>
    cases h
    exact ⟨kept_setVerifier _, rfl, .inl ⟨_, rfl⟩⟩
  | acquire =>
    simp only [read] at h
    split at h
    · cases h
      exact ⟨kept_setVerifier _, rfl, .inl ⟨_, rfl⟩⟩
    · cases h
  | verified valid =>
    simp only [read] at h
    split at h
    · cases h
      exact ⟨kept_setAttempts _, rfl, .inl ⟨_, rfl⟩⟩
    · rw [Option.map_eq_some_iff] at h
      obtain ⟨t, -, heq⟩ := h
      cases heq
      exact ⟨kept_setAttempts _, rfl, .inl ⟨_, rfl⟩⟩
  | insert token csrf =>
    simp only [read] at h
    split at h
    · cases h
      exact ⟨.refl _ _, rfl, .inl ⟨_, rfl⟩⟩
    · cases h
      exact ⟨kept_insertSession _ rfl, rfl, .inl ⟨_, rfl⟩⟩
  | prune token csrf =>
    simp only [read] at h
    cases h
    split
    · exact ⟨kept_filterSessions _, rfl, .inl ⟨_, rfl⟩⟩
    · exact ⟨.refl _ _, rfl, .inl ⟨_, rfl⟩⟩
  | grant =>
    cases h
    exact ⟨kept_insertSudo _ rfl, rfl, .inl ⟨_, rfl⟩⟩
  | release r =>
    cases h
    exact ⟨.refl _ _, rfl, .inr ⟨r, rfl⟩⟩

def Pc.holds : Pc → Bool
  | .reading _ _ => true
  | .writing _ _ => true
  | _ => false

/-- What a call without the lock becomes: one without it, a reader or a writer. -/
def Entered (now : ℤ) (noWriter noHolder : Bool) (σ σ' : State) (pc' : Pc) : Prop :=
  (pc'.holds = false ∧ (σ'.last = σ.last ∨ σ'.last = none)) ∨
    (noWriter = true ∧ σ' = σ ∧ ∃ key, pc' = .reading (σ.admission now key) .lockout) ∨
    (noHolder = true ∧ σ' = σ ∧ ∃ p, pc' = .writing ⟨p, σ.issue⟩ .differ)

theorem holds_of_reading {c : Call} (h : c.reading = true) : c.pc.holds = true := by
  rw [Call.reading] at h
  split at h
  · rename_i hpc
    rw [hpc]
    rfl
  · cases h

theorem holds_of_writing {c : Call} (h : c.writing = true) : c.pc.holds = true := by
  rw [Call.writing] at h
  split at h
  · rename_i hpc
    rw [hpc]
    rfl
  · cases h

theorem kept_of_select {token : Bytes} (h : start.select env x σ token = some (σ', pc')) :
    σ' = σ ∧ pc'.holds = false := by
  rw [start.select] at h
  split at h
  · cases h
    exact ⟨rfl, rfl⟩
  · split at h
    · cases h
      exact ⟨rfl, rfl⟩
    · split at h <;> cases h <;> exact ⟨rfl, rfl⟩

theorem kept_of_start (h : start env x now noWriter σ request = some (σ', pc')) :
    Kept none σ σ' ∧ Entered now noWriter noHolder σ σ' pc' := by
  have hselect : ∀ token, start.select env x σ token = some (σ', pc') →
      Kept none σ σ' ∧ Entered now noWriter noHolder σ σ' pc' := by
    intro token hselect
    obtain ⟨rfl, hpc⟩ := kept_of_select hselect
    exact ⟨.refl _ _, .inl ⟨hpc, .inl rfl⟩⟩
  cases request with
  | login username password ip =>
    simp only [start] at h
    split at h
    · rename_i hfree
      cases h
      exact ⟨.refl _ _, .inr (.inl ⟨hfree, rfl, _, rfl⟩)⟩
    · cases h
  | authenticate token | checkCSRF token | openSudo token => exact hselect token h
  | logout token =>
    simp only [start] at h
    split at h
    · cases h
      exact ⟨.refl _ _, .inl ⟨rfl, .inl rfl⟩⟩
    · split at h
      · cases h
        exact ⟨kept_deleteSession _, .inl ⟨rfl, .inl rfl⟩⟩
      · cases h
        exact ⟨.refl _ _, .inl ⟨rfl, .inl rfl⟩⟩
  | allowsPrivileged sessionID =>
    simp only [start] at h
    split at h
    · split at h
      · cases h
        exact ⟨.refl _ _, .inl ⟨rfl, .inl rfl⟩⟩
      · cases h
        exact ⟨kept_eraseSudo _, .inl ⟨rfl, .inl rfl⟩⟩
    · cases h
      exact ⟨.refl _ _, .inl ⟨rfl, .inl rfl⟩⟩
  | reconfigure cfg =>
    simp only [start] at h
    split at h
    · cases h
      exact ⟨⟨rfl, rfl, rfl, .inl, .inl⟩, .inl ⟨rfl, .inr rfl⟩⟩
    · cases h
      exact ⟨.refl _ _, .inl ⟨rfl, .inl rfl⟩⟩

theorem holds_answer (username : Bytes) (row : SessionRow) :
    (request.answer username row).holds = false := by
  cases request <;> simp only [Request.answer] <;> try rfl
  split <;> rfl

theorem kept_of_outside (h : outside env x now noWriter noHolder σ request pc = some (σ', pc')) :
    Kept none σ σ' ∧ Entered now noWriter noHolder σ σ' pc' := by
  cases pc with
  | start => exact kept_of_start h
  | selected username row =>
    simp only [outside] at h
    split at h
    · split at h
      · cases h
        exact ⟨.refl _ _, .inl ⟨holds_answer _ _, .inl rfl⟩⟩
      · cases h
        exact ⟨.refl _ _, .inl ⟨rfl, .inl rfl⟩⟩
    · cases h
      exact ⟨.refl _ _, .inl ⟨rfl, .inl rfl⟩⟩
  | expired =>
    simp only [outside] at h
    cases h
    split
    · exact ⟨kept_deleteSession _, .inl ⟨rfl, .inl rfl⟩⟩
    · exact ⟨.refl _ _, .inl ⟨rfl, .inl rfl⟩⟩
  | authenticated =>
    simp only [outside] at h
    split at h
    · rename_i hfree
      cases h
      exact ⟨.refl _ _, .inr (.inl ⟨hfree, rfl, _, rfl⟩)⟩
    · cases h
  | lock p =>
    simp only [outside] at h
    split at h
    · rename_i hfree
      cases h
      exact ⟨.refl _ _, .inr (.inr ⟨hfree, rfl, p, rfl⟩)⟩
    · cases h
  | forget r =>
    cases h
    exact ⟨kept_eraseSudo _, .inl ⟨rfl, .inl rfl⟩⟩
  | reading | writing | done => cases h

end

section

variable {x : Choice} {σ σ' : State} {t : Rotating} {p : Writing} {pc' : Pc}

theorem next_of_write (h : write x σ t p = (σ', pc')) :
    (∃ p', pc' = .writing t p') ∨ ∃ r, pc' = .done r := by
  cases p with
  | unlock r =>
    cases h
    exact .inr ⟨r, rfl⟩
  | differ | update
  | revoke => simp only [write] at h; split at h <;> cases h <;> exact .inl ⟨_, rfl⟩
  | clearSudo =>
    cases h
    exact .inl ⟨_, rfl⟩

theorem kept_of_write (h : write x σ t p = (σ', pc')) (hp : ∀ changed, p ≠ .update changed) :
    Kept none σ σ' := by
  cases p with
  | differ => simp only [write] at h; split at h <;> cases h <;> exact .refl _ _
  | update changed => exact absurd rfl (hp changed)
  | revoke =>
    simp only [write] at h
    split at h
    · cases h
      refine ⟨rfl, rfl, rfl, ?_, .inl⟩
      intro id row hid
      rw [AList.lookup_empty] at hid
      cases hid
    · cases h
      exact .refl _ _
  | clearSudo =>
    cases h
    refine ⟨rfl, rfl, rfl, .inl, ?_⟩
    intro id window hid
    rw [State.setSudo, AList.lookup_empty] at hid
    cases hid
  | unlock r =>
    cases h
    exact ⟨rfl, rfl, rfl, .inl, .inl⟩

end

section

variable {env : Env} {w w' : World}

theorem new_of_step {cfg : Config} (h : step env (.new cfg) w = some w') :
    w.boot = none ∧ w.service = none ∧
      (w' = w.fail ∨ ∃ p, w' = { w with boot := some (.differ p) }) := by
  simp only [step] at h
  split at h
  · cases h
  · rename_i hfree
    rw [Bool.not_eq_true, Bool.or_eq_false_iff] at hfree
    refine ⟨by simpa using hfree.1, by simpa using hfree.2, ?_⟩
    split at h
    · exact .inl (Option.some.inj h).symm
    · exact .inr ⟨_, (Option.some.inj h).symm⟩

theorem call_of_step {r : Request} (h : step env (.call r) w = some w') :
    w.service ≠ none ∧ w' = { w with calls := w.calls ++ [⟨r, .start⟩] } := by
  simp only [step] at h
  split at h
  · rename_i hserved
    exact ⟨Option.isSome_iff_ne_none.mp hserved, (Option.some.inj h).symm⟩
  · cases h

end

/-- **A step of a call**: it is a reader's, a writer's, or one without the lock. -/
inductive Acted (env : Env) (x : Choice) (w : World) (i : ℕ) (s : Service) (c : Call) :
    State → Pc → Prop where
  | read {σ pc} (a : Admission) (p : Reading) (hpc : c.pc = .reading a p)
      (hread : read env x w.now (w.state s) c.request a p = some (σ, pc)) : Acted env x w i s c σ pc
  | write {σ pc} (t : Rotating) (p : Writing) (hpc : c.pc = .writing t p)
      (hwrite : write x (w.state s) t p = (σ, pc)) : Acted env x w i s c σ pc
  | outside {σ pc} (hpc : c.pc.holds = false)
      (houtside : outside env x w.now (noWriter Call.writing w.calls)
        (noHolder Call.reading Call.writing w.calls) (w.state s) c.request c.pc = some (σ, pc)) :
      Acted env x w i s c σ pc

theorem acted_of_step {env : Env} {x : Choice} {i : ℕ} {w w' : World}
    (h : step env (.act i x) w = some w') :
    ∃ s c σ pc, w.service = some s ∧ w.calls[i]? = some c ∧ Acted env x w i s c σ pc ∧
      w' = w.after i σ { c with pc } := by
  simp only [step, Option.bind_eq_bind, Option.bind_eq_some_iff, act, Option.map_eq_some_iff] at h
  obtain ⟨s, hs, c, hc, ⟨σ, c'⟩, ⟨⟨σ₁, pc⟩, hnext, heq⟩, hafter⟩ := h
  cases heq
  refine ⟨s, c, σ₁, pc, hs, hc, ?_, (Option.some.inj hafter).symm⟩
  split at hnext
  · rename_i a p hpc
    exact .read a p hpc hnext
  · rename_i t p hpc
    exact .write t p hpc (Option.some.inj hnext)
  · rename_i hread hwrite
    refine .outside ?_ hnext
    cases hpc : c.pc with
    | reading a p => exact absurd hpc (hread a p)
    | writing t p => exact absurd hpc (hwrite t p)
    | _ => rfl

/-! ## What holds of the lock and the configuration -/

/-- What holds of every world that is reached: the service has the stored credentials, a writer is
alone, and a reader has read what is configured. -/
structure Sound (w : World) : Prop where
  users : ∀ s, w.service = some s → w.db.users = some s.credentials.user
  booted : ∀ p, w.boot = some (.revoke p) → w.db.users = some p.credentials.user
  unserved : w.boot.isSome = true → w.service = none
  idle : w.service = none → w.calls = []
  exclusive : Exclusive Call.reading Call.writing w.calls
  issued : ∀ (i : ℕ) c a p, w.calls[i]? = some c → c.pc = .reading a p →
    ∃ s, w.service = some s ∧ a.issue = ⟨s.credentials, w.rotations⟩

theorem sound_of_idle {w : World} (hs : w.service = none) (hc : w.calls = [])
    (hb : ∀ p, w.boot = some (.revoke p) → w.db.users = some p.credentials.user) : Sound w := by
  refine ⟨?_, hb, fun _ => hs, fun _ => hc, hc ▸ exclusive_nil, ?_⟩
  · intro s h
    rw [hs] at h
    cases h
  · intro i c a p h
    rw [hc] at h
    cases h

theorem sound_new (now : ℤ) : Sound (.new now) := by
  refine sound_of_idle rfl rfl ?_
  intro p h
  cases h

theorem sound_serve {w : World} {p : Accepted} (hc : w.calls = [])
    (hu : w.db.users = some p.credentials.user) : Sound (w.serve p) := by
  refine ⟨?_, ?_, ?_, ?_, hc ▸ exclusive_nil, ?_⟩
  · intro s h
    cases h
    exact hu
  · intro q h
    cases h
  · intro h
    cases h
  · intro h
    cases h
  · intro i c a q h
    rw [World.serve, hc] at h
    cases h

section

variable {w : World}

theorem Sound.bootStep (h : Sound w) {b : Boot} (hb : w.boot = some b) (ok : Bool) :
    Sound (w.bootStep b ok) := by
  have hs : w.service = none := h.unserved (by rw [hb]; rfl)
  have hc := h.idle hs
  rw [World.bootStep.eq_def]
  split
  · exact sound_of_idle hs hc fun p hp => by cases hp
  · cases b with
    | differ p => exact sound_of_idle hs hc fun q hq => by cases hq
    | upsert p changed =>
      dsimp only
      split
      · refine sound_of_idle hs hc ?_
        intro q hq
        cases hq
        rfl
      · exact sound_serve hc rfl
    | revoke p => exact sound_serve hc (h.booted p hb)

variable {s : Service} {i : ℕ} {c : Call} {σ : State} {pc : Pc}

theorem Sound.after (h : Sound w) (hs : w.service = some s) (hc : w.calls[i]? = some c)
    (husers : σ.db.users = w.db.users) (hcred : σ.service.credentials = s.credentials)
    (hrot : σ.rotations = w.rotations)
    (hw : ({ c with pc } : Call).writing = true →
      c.writing = true ∨ noHolder Call.reading Call.writing w.calls = true)
    (hr : ({ c with pc } : Call).reading = true →
      c.reading = true ∨ noWriter Call.writing w.calls = true)
    (ha : ∀ a p, pc = .reading a p → a.issue = ⟨s.credentials, w.rotations⟩) :
    Sound (w.after i σ { c with pc }) := by
  refine ⟨?_, ?_, ?_, ?_, h.exclusive.set hc hw hr, ?_⟩
  · intro s' hs'
    cases hs'
    rw [hcred]
    exact husers.trans (h.users s hs)
  · intro p hp
    rw [show (w.after i σ { c with pc }).db.users = w.db.users from husers]
    exact h.booted p hp
  · intro hb
    rw [h.unserved hb] at hs
    cases hs
  · intro hnone
    cases hnone
  · intro j d a p hd hpc
    refine ⟨σ.service, rfl, ?_⟩
    rw [hcred]
    rw [show (w.after i σ { c with pc }).rotations = w.rotations from hrot]
    rcases getElem?_set_cases hd with ⟨-, rfl⟩ | ⟨-, hold⟩
    · exact ha a p hpc
    · obtain ⟨s', hs', hissue⟩ := h.issued j d a p hold hpc
      cases hs.symm.trans hs'
      exact hissue

theorem Sound.acted {env : Env} {x : Choice} (h : Sound w) (hs : w.service = some s)
    (hc : w.calls[i]? = some c) (hacted : Acted env x w i s c σ pc) :
    Sound (w.after i σ { c with pc }) := by
  cases hacted with
  | read a p hpc hread =>
    obtain ⟨hkept, -, hnext⟩ := kept_of_read hread
    have hreading : c.reading = true := by rw [Call.reading, hpc]
    obtain ⟨s', hs', hissue⟩ := h.issued i c a p hc hpc
    cases hs.symm.trans hs'
    refine h.after hs hc hkept.users hkept.credentials hkept.rotations ?_ (fun _ => .inl hreading)
      ?_
    · intro hw
      rcases hnext with ⟨p', rfl⟩ | ⟨r, rfl⟩ <;> cases hw
    · intro b q hb
      rcases hnext with ⟨p', rfl⟩ | ⟨r, rfl⟩
      · cases hb
        exact hissue
      · cases hb
  | outside hpc houtside =>
    obtain ⟨hkept, hentered⟩ := kept_of_outside houtside
    refine h.after hs hc hkept.users hkept.credentials hkept.rotations ?_ ?_ ?_
    · intro hw
      rcases hentered with ⟨hholds, -⟩ | ⟨-, -, key, rfl⟩ | ⟨hfree, -⟩
      · rw [show pc.holds = true from holds_of_writing hw] at hholds
        cases hholds
      · cases hw
      · exact .inr hfree
    · intro hr
      rcases hentered with ⟨hholds, -⟩ | ⟨hfree, -⟩ | ⟨-, -, q, rfl⟩
      · rw [show pc.holds = true from holds_of_reading hr] at hholds
        cases hholds
      · exact .inr hfree
      · cases hr
    · intro a q ha
      rcases hentered with ⟨hholds, -⟩ | ⟨-, -, key, rfl⟩ | ⟨-, -, q', rfl⟩
      · rw [ha] at hholds
        cases hholds
      · cases ha
        rfl
      · cases ha
  | write t p hpc hwrite =>
    have hwriting : c.writing = true := by rw [Call.writing, hpc]
    have hnext := next_of_write hwrite
    have hr : ({ c with pc } : Call).reading ≠ true := by
      intro hr
      rcases hnext with ⟨p', rfl⟩ | ⟨r, rfl⟩ <;> cases hr
    have ha : ∀ a q, pc ≠ .reading a q := by
      intro a q ha
      rcases hnext with ⟨p', rfl⟩ | ⟨r, rfl⟩ <;> cases ha
    by_cases hp : ∃ changed, p = .update changed ∧ x.ok = true
    · -- The credentials change, and nobody else holds the lock.
      obtain ⟨changed, rfl, hok⟩ := hp
      simp only [write, hok, if_true] at hwrite
      cases hwrite
      refine ⟨?_, ?_, ?_, ?_, h.exclusive.set hc (fun _ => .inl hwriting) fun h => absurd h hr, ?_⟩
      · intro s' hs'
        cases hs'
        change w.db.users.map _ = _
        rw [h.users s hs]
        rfl
      · intro q hq
        rw [h.unserved (by rw [show w.boot = _ from hq]; rfl)] at hs
        cases hs
      · intro hb
        rw [h.unserved hb] at hs
        cases hs
      · intro hnone
        cases hnone
      · intro j d a q hd hdpc
        rcases getElem?_set_cases hd with ⟨-, rfl⟩ | ⟨hij, hold⟩
        · exact absurd hdpc (ha a q)
        · have hnot := (h.exclusive i j c d hc hold hij hwriting).2
          rw [Call.reading, hdpc] at hnot
          cases hnot
    · have hkept : Kept none (w.state s) σ := by
        cases p with
        | update changed =>
          have hfail : x.ok = false := by
            by_contra hok
            exact hp ⟨changed, rfl, by simpa using hok⟩
          simp only [write, hfail] at hwrite
          cases hwrite
          exact .refl _ _
        | _ => exact kept_of_write hwrite (by intro changed hq; cases hq)
      exact h.after hs hc hkept.users hkept.credentials hkept.rotations
        (fun _ => .inl hwriting) (fun h => absurd h hr) fun a q hq => absurd hq (ha a q)

/-- **Every step** keeps what holds. -/
theorem Sound.step {env : Env} {e : Event} {w' : World} (h : Sound w)
    (hstep : step env e w = some w') : Sound w' := by
  cases e with
  | tick duration =>
    cases hstep
    exact ⟨h.users, h.booted, h.unserved, h.idle, h.exclusive, h.issued⟩
  | new cfg =>
    obtain ⟨-, hs, rfl | ⟨p, rfl⟩⟩ := new_of_step hstep
    · exact sound_of_idle hs (h.idle hs) fun p hp => by cases hp
    · exact sound_of_idle hs (h.idle hs) fun p hp => by cases hp
  | boot ok =>
    obtain ⟨b, hb, rfl⟩ := Option.map_eq_some_iff.mp hstep
    exact h.bootStep hb ok
  | call r =>
    obtain ⟨hserved, rfl⟩ := call_of_step hstep
    refine ⟨h.users, h.booted, h.unserved, fun hs => absurd hs hserved, h.exclusive.append rfl rfl,
      ?_⟩
    intro i c a p hc hpc
    rcases getElem?_append_cases hc with hc | rfl
    · exact h.issued i c a p hc hpc
    · cases hpc
  | act i x =>
    obtain ⟨s, c, σ, pc, hs, hc, hacted, rfl⟩ := acted_of_step hstep
    exact h.acted hs hc hacted
  | crash =>
    cases hstep
    exact sound_of_idle rfl rfl fun p hp => by cases hp

end

/-! ## Admission -/

/-- Where a call under the lock stands in `verify`. -/
def Reading.stage : Reading → Option Verify.Stage
  | .enqueue => some .entered
  | .refused => some .refused
  | .acquire => some .queued
  | .hash => some .running
  | .dequeue valid => some (.leaving (some valid))
  | .verified valid => some (.ended (some valid))
  | .release (.error .busy) => some .busy
  | _ => none

/-- The counters of the service are those of a pool. -/
structure Verifier.Counts (v : Verifier) (p : Verify.Pool) : Prop where
  waiting : p.waiting = v.waiting
  slots : p.slots = v.running

section

variable {env : Env} {x : Choice} {now : ℤ} {σ σ' : State} {request : Request} {a : Admission}
  {p : Reading} {pc : Pc} {pool : Verify.Pool} {i : ℕ} {call : Verify.Call}

/-- **A call under the lock steps as `verify` does**: each of its steps in there is one of its call
in the pool. -/
theorem verify_step_of_read
    (hsound : Verify.Sound maxConcurrentVerifications maxQueuedVerifications pool)
    (hcounts : σ.service.verifier.Counts pool) (hcall : pool.calls[i]? = some call)
    (hstage : p.stage = some call.stage) (hopen : call.finished = false)
    (h : read env x now σ request a p = some (σ', pc)) :
    ∃ result pool' p',
      Verify.step maxConcurrentVerifications maxQueuedVerifications (.act i result) pool =
        some pool' ∧
      σ'.service.verifier.Counts pool' ∧ pc = .reading a p' ∧
      pool'.calls[i]?.map Verify.Call.stage = p'.stage := by
  obtain ⟨stage, ran⟩ := call
  have hlt : i < pool.calls.length := (List.getElem?_eq_some_iff.mp hcall).1
  have hat : ∀ y : Verify.Call, (pool.calls.set i y)[i]?.map Verify.Call.stage = some y.stage :=
    fun y => by rw [List.getElem?_set_self hlt, Option.map_some]
  have hwaiting := hcounts.waiting
  have hslots := hcounts.slots
  -- the natural number of the service can be decremented wherever the pool's counter is
  have hcounted : Verify.Call.counted ⟨stage, ran⟩ = true → 1 ≤ σ.service.verifier.waiting := by
    intro hc
    have hpos := List.countP_pos_iff.mpr ⟨_, List.mem_of_getElem? hcall, hc⟩
    have hcount := hsound.waiting
    omega
  have hstep : ∀ result, Verify.step maxConcurrentVerifications maxQueuedVerifications
      (.act i result) pool = _ := fun result => congrArg (Option.bind · _) hcall
  cases p with
  | enqueue =>
    cases hstage
    simp only [read] at h
    split_ifs at h with hfull <;> cases h
    · exact ⟨none, _, _, hstep none, ⟨congrArg (· + 1) hwaiting, hslots⟩, rfl,
        (hat _).trans (congrArg some (if_pos (by omega)))⟩
    · exact ⟨none, _, _, hstep none, ⟨congrArg (· + 1) hwaiting, hslots⟩, rfl,
        (hat _).trans (congrArg some (if_neg (by omega)))⟩
  | acquire =>
    cases hstage
    simp only [read] at h
    split_ifs at h with hfree
    cases h
    exact ⟨none, _, _, (hstep none).trans (if_pos (hslots ▸ hfree)),
      ⟨hwaiting, congrArg (· + 1) hslots⟩, rfl, hat _⟩
  | hash =>
    cases hstage
    cases h
    exact ⟨_, _, _, hstep (some _), ⟨hwaiting, congrArg (· - 1) hslots⟩, rfl, hat _⟩
  | refused | dequeue =>
    cases hstage
    cases h
    have hone := hcounted rfl
    refine ⟨none, _, _, hstep none, ⟨?_, hslots⟩, rfl, hat _⟩
    exact (congrArg (· - 1) hwaiting).trans (Nat.cast_pred hone).symm
  | verified valid =>
    cases hstage
    cases hopen
  | release r =>
    unfold Reading.stage at hstage
    split at hstage <;> first
      | contradiction
      | cases hstage
        cases hopen
  | lockout | token | insert | prune | grant => cases hstage

end

end Veduta.Auth
