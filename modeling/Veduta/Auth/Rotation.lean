import Veduta.Auth.Steps

/-!
# Rotating the credentials

A `Reconfigure` that changes the administrator's username or password hash drops every session and
every sudo window while it holds the lock that `Login` and `OpenSudo` hold while they verify.  So no
session outlives the credentials it was issued for, as long as the process lives.  The credentials
are stored before the sessions are deleted, and a later start or `Reconfigure` compares with what is
stored: if the rotation ends in between, the sessions stay.
-/

namespace Veduta.Auth

open Go Lib

/-! ## Inside a rotation -/

def Rotating.changes (t : Rotating) : Bool :=
  t.previous.credentials.user ≠ t.next.credentials.user

/-- What holds at each point of a `Reconfigure`. -/
def Writes (σ : State) (t : Rotating) : Writing → Prop
  | .differ => σ.issue = t.previous
  | .update changed => σ.issue = t.previous ∧ changed = t.changes
  | .revoke => σ.service.credentials = t.next.credentials ∧ t.previous.rotation < σ.rotations
  | .clearSudo => σ.service.credentials = t.next.credentials ∧
      t.previous.rotation < σ.rotations ∧ ∀ id, σ.db.sessions.lookup id = none
  | .unlock r => r = .ok → σ.service.credentials = t.next.credentials ∧
      (t.changes = true → t.previous.rotation < σ.rotations ∧
        (∀ id, σ.db.sessions.lookup id = none) ∧ ∀ id, σ.service.sudoUntil.lookup id = none)

/-- Every `Reconfigure` under way is as its point says, and so is `New`. -/
structure Writers (w : World) : Prop where
  writes : ∀ (i : ℕ) c t p, w.calls[i]? = some c → c.pc = .writing t p →
    ∃ s, w.service = some s ∧ Writes (w.state s) t p
  upserts : ∀ p changed, w.boot = some (.upsert p changed) →
    changed = credentialsDiffer w.db.users p.credentials

section

variable {σ σ' : State}
variable {t : Rotating}

theorem Kept.lookup_sessions (h : Kept none σ σ') {id : Bytes}
    (hid : σ.db.sessions.lookup id = none) : σ'.db.sessions.lookup id = none := by
  refine Option.eq_none_iff_forall_ne_some.mpr fun row hrow => ?_
  rcases h.sessions hrow with hold | hissue
  · cases hid.symm.trans hold
  · cases hissue

theorem Kept.lookup_windows (h : Kept none σ σ') {id : Bytes}
    (hid : σ.service.sudoUntil.lookup id = none) : σ'.service.sudoUntil.lookup id = none := by
  refine Option.eq_none_iff_forall_ne_some.mpr fun window hwindow => ?_
  rcases h.windows hwindow with hold | hissue
  · cases hid.symm.trans hold
  · cases hissue

theorem Kept.issue {issue : Option Issue} (h : Kept issue σ σ') : σ'.issue = σ.issue := by
  rw [State.issue, h.credentials, h.rotations]
  rfl

theorem Writes.kept {p : Writing} (h : Writes σ t p) (hkept : Kept none σ σ') : Writes σ' t p := by
  have hcred := hkept.credentials
  have hrot := hkept.rotations
  cases p with
  | differ => exact hkept.issue.trans h
  | update changed => exact ⟨hkept.issue.trans h.1, h.2⟩
  | revoke => exact ⟨hcred.trans h.1, hrot ▸ h.2⟩
  | clearSudo => exact ⟨hcred.trans h.1, hrot ▸ h.2.1, fun id => hkept.lookup_sessions (h.2.2 id)⟩
  | unlock r =>
    intro hr
    obtain ⟨hnext, hempty⟩ := h hr
    refine ⟨hcred.trans hnext, ?_⟩
    intro hchanged
    obtain ⟨hlater, hsessions, hwindows⟩ := hempty hchanged
    exact ⟨hrot ▸ hlater, fun id => hkept.lookup_sessions (hsessions id),
      fun id => hkept.lookup_windows (hwindows id)⟩

theorem writes_of_write {x : Choice} {p p' : Writing}
    (husers : σ.db.users = some σ.service.credentials.user) (h : Writes σ t p)
    (hwrite : write x σ t p = (σ', .writing t p')) : Writes σ' t p' := by
  cases p with
  | differ =>
    simp only [write] at hwrite
    split at hwrite
    · cases hwrite
      refine ⟨h, ?_⟩
      rw [husers, Rotating.changes, ← show σ.issue = t.previous from h]
      rfl
    · cases hwrite
      intro hr
      cases hr
  | update changed =>
    simp only [write] at hwrite
    split at hwrite
    · obtain ⟨hprevious, hchanged⟩ := h
      cases changed with
      | true =>
        cases hwrite
        refine ⟨rfl, ?_⟩
        rw [← hprevious]
        exact Nat.lt_succ_self _
      | false =>
        cases hwrite
        intro _
        refine ⟨rfl, ?_⟩
        intro hchanges
        cases hchanged.trans hchanges
    · cases hwrite
      intro hr
      cases hr
  | revoke =>
    simp only [write] at hwrite
    split at hwrite
    · cases hwrite
      exact ⟨h.1, h.2, fun id => AList.lookup_empty id⟩
    · cases hwrite
      intro hr
      cases hr
  | clearSudo =>
    cases hwrite
    intro _
    exact ⟨h.1, fun _ => ⟨h.2.1, h.2.2, fun id => AList.lookup_empty id⟩⟩
  | unlock r => cases hwrite

end

section

variable {env : Env} {w w' : World}
variable {s : Service}

theorem writers_of_idle (hc : w.calls = [])
    (hb : ∀ p changed, w.boot = some (.upsert p changed) →
      changed = credentialsDiffer w.db.users p.credentials) : Writers w := by
  refine ⟨?_, hb⟩
  intro i c t p h
  rw [hc] at h
  cases h

theorem writers_new (now : ℤ) : Writers (.new now) :=
  writers_of_idle rfl fun p changed h => by cases h

theorem Sound.outside_of_writer (h : Sound w) {i j : ℕ} {c d : Call} {t : Rotating} {p : Writing}
    (hc : w.calls[i]? = some c) (hd : w.calls[j]? = some d) (hij : j ≠ i)
    (hpc : d.pc = .writing t p) : c.pc.holds = false := by
  have hwriting : d.writing = true := by rw [Call.writing, hpc]
  obtain ⟨hw, hr⟩ := h.exclusive j i d c hd hc hij hwriting
  cases hcpc : c.pc with
  | reading a q =>
    rw [Call.reading, hcpc] at hr
    cases hr
  | writing u q =>
    rw [Call.writing, hcpc] at hw
    cases hw
  | _ => rfl

theorem Acted.kept {x : Choice} {i : ℕ} {c : Call} {σ : State} {pc : Pc}
    (h : Acted env x w i s c σ pc) (hholds : c.pc.holds = false) :
    Kept none (w.state s) σ ∧ Entered w.now (noWriter Call.writing w.calls)
      (noHolder Call.reading Call.writing w.calls) (w.state s) σ pc := by
  cases h with
  | read a p hpc | write t p hpc =>
    rw [hpc] at hholds
    cases hholds
  | outside hpc houtside => exact kept_of_outside houtside

theorem Writers.acted {x : Choice} {i : ℕ} {c : Call} {σ : State} {pc : Pc} (h : Writers w)
    (hsound : Sound w) (hs : w.service = some s) (hc : w.calls[i]? = some c)
    (hacted : Acted env x w i s c σ pc) : Writers (w.after i σ { c with pc }) := by
  constructor
  · intro j d t p hd hpc
    refine ⟨σ.service, rfl, ?_⟩
    rcases getElem?_set_cases hd with ⟨rfl, rfl⟩ | ⟨hij, hold⟩
    · cases hacted with
      | read a q hcpc hread =>
        obtain ⟨-, -, hnext⟩ := kept_of_read hread
        rcases hnext with ⟨q', rfl⟩ | ⟨r, rfl⟩ <;> cases hpc
      | write u q hcpc hwrite =>
        obtain ⟨s', hs', hwrites⟩ := h.writes i c u q hc hcpc
        cases hs.symm.trans hs'
        rcases next_of_write hwrite with ⟨q', rfl⟩ | ⟨r, rfl⟩
        · cases hpc
          exact writes_of_write (hsound.users s hs) hwrites hwrite
        · cases hpc
      | outside hholds houtside =>
        obtain ⟨-, hentered⟩ := kept_of_outside houtside
        rcases hentered with ⟨hpc', -⟩ | ⟨-, -, key, rfl⟩ | ⟨-, rfl, q, rfl⟩
        · rw [show pc = .writing t p from hpc] at hpc'
          cases hpc'
        · cases hpc
        · cases hpc
          rfl
    · obtain ⟨s', hs', hwrites⟩ := h.writes j d t p hold hpc
      cases hs.symm.trans hs'
      have hkept := (hacted.kept (hsound.outside_of_writer hc hold hij.symm hpc)).1
      exact hwrites.kept hkept
  · intro p changed hb
    have hnone := hsound.unserved (by rw [show w.boot = _ from hb]; rfl)
    rw [hs] at hnone
    cases hnone

theorem Writers.step {e : Event} (h : Writers w) (hsound : Sound w)
    (hstep : step env e w = some w') : Writers w' := by
  cases e with
  | tick duration =>
    cases hstep
    exact ⟨h.writes, h.upserts⟩
  | new cfg =>
    obtain ⟨-, -, rfl | ⟨p, rfl⟩⟩ := new_of_step hstep
    · exact ⟨h.writes, fun p changed hb => by cases hb⟩
    · exact ⟨h.writes, fun p changed hb => by cases hb⟩
  | boot ok =>
    obtain ⟨b, hb, rfl⟩ := Option.map_eq_some_iff.mp hstep
    have hs : w.service = none := hsound.unserved (by rw [hb]; rfl)
    have hc := hsound.idle hs
    rw [World.bootStep.eq_def]
    split
    · exact writers_of_idle hc fun p changed hb => by cases hb
    · cases b with
      | differ p =>
        refine writers_of_idle hc ?_
        intro q changed hq
        cases hq
        rfl
      | upsert p changed =>
        dsimp only
        split
        · exact writers_of_idle hc fun q changed hq => by cases hq
        · exact writers_of_idle hc fun q changed hq => by cases hq
      | revoke p => exact writers_of_idle hc fun q changed hq => by cases hq
  | call r =>
    obtain ⟨-, rfl⟩ := call_of_step hstep
    refine ⟨?_, h.upserts⟩
    intro i c t p hc hpc
    rcases getElem?_append_cases hc with hc | rfl
    · exact h.writes i c t p hc hpc
    · cases hpc
  | act i x =>
    obtain ⟨s, c, σ, pc, hs, hc, hacted, rfl⟩ := acted_of_step hstep
    exact h.acted hsound hs hc hacted
  | crash =>
    cases hstep
    exact writers_of_idle rfl fun p changed hb => by cases hb

end

/-! ## After a rotation -/

/-- An event of a process that goes on. -/
def Event.inProcess : Event → Bool
  | .tick _ => true
  | .call _ => true
  | .act _ _ => true
  | _ => false

/-- `New` has returned, and no call has begun; sessions may be left from before. -/
structure Started (w : World) : Prop where
  service : ∃ s, w.service = some s ∧ w.db.users = some s.credentials.user
  boot : w.boot = none
  calls : w.calls = []

theorem Started.sound {w : World} (h : Started w) : Sound w := by
  obtain ⟨s, hs, husers⟩ := h.service
  refine ⟨?_, ?_, ?_, fun _ => h.calls, h.calls ▸ exclusive_nil, ?_⟩
  · intro s' hs'
    cases hs.symm.trans hs'
    exact husers
  · intro p hp
    rw [h.boot] at hp
    cases hp
  · intro hb
    rw [h.boot] at hb
    cases hb
  · intro i c a p hc
    rw [h.calls] at hc
    cases hc

theorem Started.writers {w : World} (h : Started w) : Writers w := by
  refine writers_of_idle h.calls ?_
  intro p changed hp
  rw [h.boot] at hp
  cases hp

/-- The session that an answer is about. -/
def Result.found : Result → Option SessionRow
  | .identity _ row => some row
  | _ => none

/-- The session that a call has read. -/
def Pc.found : Pc → Option SessionRow
  | .selected _ row => some row
  | .reading _ (.release r) => r.found
  | .writing _ (.unlock r) => r.found
  | .forget r => r.found
  | .done r => r.found
  | _ => none

section

variable {env : Env} {x : Choice} {now : ℤ} {noWriter noHolder : Bool} {σ σ' : State}
variable {request : Request} {pc pc' : Pc} {row : SessionRow}

theorem found_of_read {a : Admission} {p : Reading}
    (h : read env x now σ request a p = some (σ', pc')) (hfound : pc'.found = some row) :
    (Pc.reading a p).found = some row := by
  cases p with
  | lockout | enqueue | token
  | insert => simp only [read] at h; split at h <;> cases h <;> cases hfound
  | refused | hash | dequeue | prune | grant => cases h; cases hfound
  | acquire => simp only [read] at h; split at h <;> cases h; cases hfound
  | verified valid =>
    simp only [read] at h
    split at h
    · cases h
      cases request <;> cases hfound
    · rw [Option.map_eq_some_iff] at h
      obtain ⟨t, -, heq⟩ := h
      cases heq
      cases hfound
  | release r => cases h; exact hfound

theorem found_of_write {t : Rotating} {p : Writing} (h : write x σ t p = (σ', pc'))
    (hfound : pc'.found = some row) : (Pc.writing t p).found = some row := by
  cases p with
  | differ | revoke => simp only [write] at h; split at h <;> cases h <;> cases hfound
  | update changed =>
    simp only [write] at h
    split at h
    · cases h
      cases changed <;> cases hfound
    · cases h
      cases hfound
  | clearSudo => cases h; cases hfound
  | unlock r => cases h; exact hfound

theorem found_of_select {token : Bytes} (h : start.select env x σ token = some (σ', pc'))
    (hfound : pc'.found = some row) : ∃ id, σ.db.sessions.lookup id = some row := by
  rw [start.select] at h
  split at h
  · cases h
    cases hfound
  · split at h
    · cases h
      cases hfound
    · split at h
      · rename_i user row' _ hrow
        cases h
        cases hfound
        exact ⟨_, hrow⟩
      · cases h
        cases hfound

theorem found_answer {username : Bytes} {row' : SessionRow}
    (hfound : (request.answer username row').found = some row) : row' = row := by
  cases request with
  | checkCSRF token cookie header =>
    simp only [Request.answer] at hfound
    split at hfound
    · cases hfound
    · exact Option.some.inj hfound
  | openSudo token password ip => cases hfound
  | _ => exact Option.some.inj hfound

/-- What a call without the lock has read was there when it read it. -/
theorem found_of_outside
    (h : outside env x now noWriter noHolder σ request pc = some (σ', pc'))
    (hfound : pc'.found = some row) :
    pc.found = some row ∨ ∃ id, σ.db.sessions.lookup id = some row := by
  cases pc with
  | start =>
    simp only [outside] at h
    cases request with
    | login username password ip =>
      simp only [start] at h
      split at h <;> cases h
      cases hfound
    | authenticate | checkCSRF | openSudo => exact .inr (found_of_select h hfound)
    | logout token =>
      simp only [start] at h
      split at h
      · cases h
        cases hfound
      · split at h <;> cases h <;> cases hfound
    | allowsPrivileged sessionID =>
      simp only [start] at h
      split at h
      · split at h <;> cases h <;> cases hfound
      · cases h
        cases hfound
    | reconfigure cfg =>
      simp only [start] at h
      split at h <;> cases h <;> cases hfound
  | selected username row' =>
    simp only [outside] at h
    split at h
    · split at h
      · cases h
        rw [found_answer hfound]
        exact .inl rfl
      · cases h
        cases hfound
    · cases h
      cases hfound
  | expired => cases h; cases hfound
  | authenticated | lock => simp only [outside] at h; split at h <;> cases h; cases hfound
  | forget r => cases h; exact .inl hfound
  | reading | writing | done => cases h

end

/-- Since rotation `k`: the sessions and windows there are, and the sessions that calls after the
first `n` have read, were issued later. -/
structure Since (k n : ℕ) (w : World) : Prop where
  rotations : k ≤ w.rotations
  sessions : ∀ {id row}, w.db.sessions.lookup id = some row → k ≤ row.issued.rotation
  windows : ∀ {s}, w.service = some s → ∀ {id window}, s.sudoUntil.lookup id = some window →
    k ≤ window.issued.rotation
  found : ∀ (j : ℕ) d, n ≤ j → w.calls[j]? = some d → ∀ row, d.pc.found = some row →
    k ≤ row.issued.rotation

section

variable {env : Env} {w w' : World} {k n : ℕ}
variable {i : ℕ} {c : Call} {s : Service} {es : List Event}

theorem issued_of_none (k : ℕ) :
    ∀ issued, (none : Option Issue) = some issued → k ≤ issued.rotation := by
  intro issued h
  cases h

theorem Since.after {σ : State} {pc : Pc} {issue : Option Issue} (h : Since k n w)
    (hs : w.service = some s) (hrot : w.rotations ≤ σ.rotations)
    (hissue : ∀ issued, issue = some issued → k ≤ issued.rotation)
    (hsessions : ∀ {id row}, σ.db.sessions.lookup id = some row →
      w.db.sessions.lookup id = some row ∨ issue = some row.issued)
    (hwindows : ∀ {id window}, σ.service.sudoUntil.lookup id = some window →
      s.sudoUntil.lookup id = some window ∨ issue = some window.issued)
    (hfound : ∀ row, pc.found = some row → (n ≤ i → k ≤ row.issued.rotation)) :
    Since k n (w.after i σ { c with pc }) := by
  refine ⟨h.rotations.trans hrot, ?_, ?_, ?_⟩
  · intro id row hrow
    rcases hsessions hrow with hold | hnew
    · exact h.sessions hold
    · exact hissue _ hnew
  · intro s' hs' id window hwindow
    cases hs'
    rcases hwindows hwindow with hold | hnew
    · exact h.windows hs hold
    · exact hissue _ hnew
  · intro j d hj hd row hrow
    rcases getElem?_set_cases hd with ⟨rfl, rfl⟩ | ⟨-, hold⟩
    · exact hfound row hrow hj
    · exact h.found j d hj hold row hrow

theorem Since.acted {x : Choice} {σ : State} {pc : Pc} (h : Since k n w) (hsound : Sound w)
    (hs : w.service = some s) (hc : w.calls[i]? = some c) (hacted : Acted env x w i s c σ pc) :
    Since k n (w.after i σ { c with pc }) := by
  have hbefore : ∀ row, c.pc.found = some row → n ≤ i → k ≤ row.issued.rotation :=
    fun row hrow hi => h.found i c hi hc row hrow
  cases hacted with
  | read a p hpc hread =>
    obtain ⟨hkept, -, -⟩ := kept_of_read hread
    obtain ⟨s', hs', hissue⟩ := hsound.issued i c a p hc hpc
    refine h.after hs hkept.rotations.ge ?_ hkept.sessions hkept.windows ?_
    · intro issued heq
      cases heq
      rw [hissue]
      exact h.rotations
    · intro row hrow
      exact hbefore row (hpc ▸ found_of_read hread hrow)
  | outside hholds houtside =>
    obtain ⟨hkept, -⟩ := kept_of_outside houtside
    refine h.after hs hkept.rotations.ge (issued_of_none k) hkept.sessions hkept.windows ?_
    intro row hrow
    rcases found_of_outside houtside hrow with hold | ⟨id, hid⟩
    · exact hbefore row hold
    · intro _
      exact h.sessions hid
  | write t p hpc hwrite =>
    have hfound : ∀ row, pc.found = some row → n ≤ i → k ≤ row.issued.rotation := by
      intro row hrow
      exact hbefore row (hpc ▸ found_of_write hwrite hrow)
    by_cases hp : ∃ changed, p = .update changed
    · obtain ⟨changed, rfl⟩ := hp
      simp only [write] at hwrite
      split at hwrite
      · cases hwrite
        refine h.after hs ?_ (issued_of_none k) .inl .inl hfound
        dsimp only [World.state]
        split <;> omega
      · cases hwrite
        exact h.after hs le_rfl (issued_of_none k) .inl .inl hfound
    · have hkept := kept_of_write hwrite fun changed heq => hp ⟨changed, heq⟩
      exact h.after hs hkept.rotations.ge (issued_of_none k) hkept.sessions hkept.windows
        hfound

theorem Since.step {e : Event} (h : Since k n w) (hsound : Sound w) (he : e.inProcess = true)
    (hstep : step env e w = some w') : Since k n w' := by
  cases e with
  | tick duration =>
    cases hstep
    exact ⟨h.rotations, h.sessions, h.windows, h.found⟩
  | call r =>
    obtain ⟨-, rfl⟩ := call_of_step hstep
    refine ⟨h.rotations, h.sessions, h.windows, ?_⟩
    intro j d hj hd row hrow
    rcases getElem?_append_cases hd with hd | rfl
    · exact h.found j d hj hd row hrow
    · cases hrow
  | act i x =>
    obtain ⟨s, c, σ, pc, hs, hc, hacted, rfl⟩ := acted_of_step hstep
    exact h.acted hsound hs hc hacted
  | new | boot | crash => cases he

/-- A rotation that returns leaves no session and no window. -/
theorem since_of_return {x : Choice} {t : Rotating} (hwriters : Writers w)
    (hc : w.calls[i]? = some c) (hpc : c.pc = .writing t (.unlock .ok))
    (hchanges : t.changes = true) (hstep : step env (.act i x) w = some w') :
    Since (t.previous.rotation + 1) w'.calls.length w' := by
  obtain ⟨s, c', σ, pc, hs, hc', hacted, rfl⟩ := acted_of_step hstep
  cases hc.symm.trans hc'
  obtain ⟨s', hs', hwrites⟩ := hwriters.writes i c t _ hc hpc
  cases hs.symm.trans hs'
  obtain ⟨hlater, hsessions, hwindows⟩ := (hwrites rfl).2 hchanges
  cases hacted with
  | read a p hpc' hread =>
    rw [hpc] at hpc'
    cases hpc'
  | outside hholds houtside =>
    rw [hpc] at hholds
    cases hholds
  | write u p hpc' hwrite =>
    rw [hpc] at hpc'
    cases hpc'
    cases hwrite
    refine ⟨hlater, ?_, ?_, ?_⟩
    · intro id row hrow
      cases (hsessions id).symm.trans hrow
    · intro s' hs' id window hwindow
      cases hs'
      cases (hwindows id).symm.trans hwindow
    · intro j d hj hd
      rw [List.getElem?_eq_none hj] at hd
      cases hd

theorem sound_run (h : Sound w ∧ Writers w) (hrun : run (step env) w es = some w') :
    Sound w' ∧ Writers w' :=
  invariant_run (I := fun w => Sound w ∧ Writers w)
    (fun h hstep => ⟨h.1.step hstep, h.2.step h.1 hstep⟩) h hrun

theorem since_run (h : Sound w ∧ Since k n w) (hes : ∀ e ∈ es, e.inProcess = true)
    (hrun : run (step env) w es = some w') : Since k n w' := by
  induction es generalizing w with
  | nil =>
    cases hrun
    exact h.2
  | cons e es ih =>
    obtain ⟨u, hu, hrun⟩ := run_cons hrun
    obtain ⟨he, hes⟩ := List.forall_mem_cons.mp hes
    exact ih ⟨h.1.step hu, h.2.step h.1 he hu⟩ hes hrun

end

/-- **No stale login.**  Calls interleave on a service that `New` has returned, and a `Reconfigure`
that changes the username or the password hash returns without error.  After that no `Authenticate`
that begins later accepts a session that was issued for the credentials of before, no window is open
that was opened for them, and nobody verifies against them. -/
theorem no_stale_login {env : Env} {w₀ w w₁ w₂ : World} {es es' : List Event} {i : ℕ} {x : Choice}
    {c : Call} {t : Rotating} (h₀ : Started w₀) (hrun : run (step env) w₀ es = some w)
    (hc : w.calls[i]? = some c) (hpc : c.pc = .writing t (.unlock .ok))
    (hchanged : t.previous.credentials.username ≠ t.next.credentials.username ∨
      t.previous.credentials.passwordHash ≠ t.next.credentials.passwordHash)
    (hret : step env (.act i x) w = some w₁) (hrun' : run (step env) w₁ es' = some w₂)
    (hes' : ∀ e ∈ es', e.inProcess = true) :
    (∀ (j : ℕ) d, w₁.calls.length ≤ j → w₂.calls[j]? = some d →
        ∀ username row, d.pc = .done (.identity username row) →
          t.previous.rotation < row.issued.rotation) ∧
      (∀ s, w₂.service = some s → ∀ id window, s.sudoUntil.lookup id = some window →
        t.previous.rotation < window.issued.rotation) ∧
      ∀ (j : ℕ) d a p, w₂.calls[j]? = some d → d.pc = .reading a p →
        t.previous.rotation < a.issue.rotation := by
  obtain ⟨hsound, hwriters⟩ := sound_run ⟨h₀.sound, h₀.writers⟩ hrun
  have hchanges : t.changes = true := by
    rw [Rotating.changes, decide_eq_true_eq]
    intro heq
    rcases hchanged with hne | hne
    · exact hne (congrArg User.username heq)
    · exact hne (congrArg User.passwordHash heq)
  have hsound₁ := hsound.step hret
  have hsince := since_run ⟨hsound₁, since_of_return hwriters hc hpc hchanges hret⟩ hes' hrun'
  have hsound₂ := (sound_run ⟨hsound₁, hwriters.step hsound hret⟩ hrun').1
  refine ⟨?_, ?_, ?_⟩
  · intro j d hj hd username row hdone
    exact hsince.found j d hj hd row (by rw [hdone]; rfl)
  · intro s hs id window hwindow
    exact hsince.windows hs hwindow
  · intro j d a p hd hreading
    obtain ⟨s, -, hissue⟩ := hsound₂.issued j d a p hd hreading
    rw [hissue]
    exact hsince.rotations

/-- A key derivation that tells two passwords apart. -/
def sampleEnv : Env where
  idKey password _ _ _ _ n := List.replicate n (if password = ascii "one" then 0 else 0xff)
  tokenHash := id
  fold := id

def sampleHash (hash : String) : Bytes :=
  ascii "$argon2id$v=19$m=8192,t=1,p=1$AAAAAAAAAAAAAAAAAAAAAA$" ++ ascii hash

def sampleParams (byte : UInt8) : ArgonParams :=
  ⟨8192, 1, 1, List.replicate 16 0, List.replicate 16 byte⟩

theorem parseArgon2ID_one :
    parseArgon2ID (sampleHash "AAAAAAAAAAAAAAAAAAAAAA") = .ok (sampleParams 0) := by
  decide +kernel

theorem parseArgon2ID_two :
    parseArgon2ID (sampleHash "/////////////////////w") = .ok (sampleParams 0xff) := by
  decide +kernel

def adminOne : Credentials := ⟨ascii "admin", _, _, parseArgon2ID_one⟩

def adminTwo : Credentials := ⟨ascii "admin", _, _, parseArgon2ID_two⟩

/-- The configuration of an administrator, with sessions of an hour. -/
def sampleConfig (c : Credentials) : Config := ⟨c.username, c.passwordHash, ∅, ascii "1h"⟩

/-- Some steps of a call, where statements succeed. -/
def steps (i n : ℕ) : List Event :=
  List.replicate n (.act i ⟨true, [], some (ascii "token", ascii "csrf")⟩)

/-- A login and a sudo window with the password `one`, and a `Reconfigure` up to its return. -/
def rotation : List Event :=
  .call (.login (ascii "admin") (ascii "one") (ascii "ip")) :: steps 0 11 ++
    .call (.openSudo (ascii "token") (ascii "one") (ascii "ip")) :: steps 1 11 ++
    .call (.reconfigure (sampleConfig adminTwo)) :: steps 2 6

def startedOne : World :=
  { World.new (second + zeroTime) with
    db := ⟨some adminOne.user, ∅⟩
    service := some (.new ⟨adminOne, hour⟩) }

theorem started_startedOne : Started startedOne := ⟨⟨_, rfl, rfl⟩, rfl, rfl⟩

def pcAfter (w : World) (es : List Event) (i : ℕ) : Option Pc :=
  (run (step sampleEnv) w es).bind fun w => w.calls[i]?.map Call.pc

theorem pcAfter_eq_some {w : World} {es : List Event} {i : ℕ} {pc : Pc}
    (h : pcAfter w es i = some pc) :
    ∃ w' c, run (step sampleEnv) w es = some w' ∧ w'.calls[i]? = some c ∧ c.pc = pc := by
  rw [pcAfter, Option.bind_eq_some_iff] at h
  obtain ⟨w', hrun, hpc⟩ := h
  obtain ⟨c, hc, rfl⟩ := Option.map_eq_some_iff.mp hpc
  exact ⟨w', c, hrun, hc, rfl⟩

/-- The rotation returns, and the window of the first password is not open. -/
theorem no_stale_login_sample :
    ∃ w w₁, run (step sampleEnv) startedOne rotation = some w ∧
      step sampleEnv (.act 2 ⟨true, [], none⟩) w = some w₁ ∧
      ∀ s, w₁.service = some s → ∀ id window, s.sudoUntil.lookup id = some window →
        0 < window.issued.rotation := by
  have hreturns : (run (step sampleEnv) startedOne
      (rotation ++ [Event.act 2 ⟨true, [], none⟩])).isSome = true := by
    decide +kernel
  obtain ⟨w₁, hrun⟩ := Option.isSome_iff_exists.mp hreturns
  obtain ⟨w, hw, hret⟩ := run_concat hrun
  have hpc : pcAfter startedOne rotation 2 =
      some (.writing ⟨⟨adminTwo, hour⟩, ⟨adminOne, 0⟩⟩ (.unlock .ok)) := by
    decide +kernel
  obtain ⟨w', c, hw', hc, hpc⟩ := pcAfter_eq_some hpc
  cases hw.symm.trans hw'
  have hstale := no_stale_login started_startedOne hw hc hpc (.inr (by decide +kernel)) hret
    (show run (step sampleEnv) w₁ [] = some w₁ from rfl) (by simp)
  exact ⟨w, w₁, hw, hret, hstale.2.1⟩

end Veduta.Auth
