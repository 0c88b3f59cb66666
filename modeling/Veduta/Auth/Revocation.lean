import Veduta.Auth.Rotation

/-!
# Sessions and the credentials they were issued for

`New` and `Reconfigure` store the new credentials, and then delete the sessions of the old ones if
what was stored before was different.  The two are separate statements: if the second fails, or the
process dies before it, the new credentials are stored and the old sessions are there, and whoever
tries again finds nothing different.
-/

namespace Veduta.Auth

open Go Lib

/-- The credentials are stored, and the sessions of the others are not deleted yet. -/
def Revoking (w : World) (c : Credentials) : Prop :=
  (∃ p, w.boot = some (.revoke p) ∧ c = p.credentials) ∨
    ∃ (i : ℕ) (d : Call) (t : Rotating), w.calls[i]? = some d ∧ d.pc = .writing t .revoke ∧
      c = t.next.credentials

/-- The process dies, or the deletion fails. -/
def Cuts (w : World) : Event → Prop
  | .crash => True
  | .boot ok => ok = false
  | .act i x => x.ok = false ∧ ∃ c t, w.calls[i]? = some c ∧ c.pc = .writing t .revoke
  | _ => False

/-- A rotation does not end before its deletion while there is a session of other credentials. -/
def Uncut (w : World) (e : Event) (_ : World) : Prop :=
  ∀ c, Revoking w c → Cuts w e →
    ∀ id row, w.db.sessions.lookup id = some row → row.issued.credentials = c

/-- Every session was issued for the credentials that `New` or `Reconfigure` last returned success
with. -/
def SessionsCurrent (w : World) : Prop :=
  ∀ c, w.last = some c →
    ∀ id row, w.db.sessions.lookup id = some row → row.issued.credentials = c

/-- What holds as long as no rotation is cut. -/
structure Revoked (w : World) : Prop where
  stored : (∀ c, ¬ Revoking w c) → ∀ id row, w.db.sessions.lookup id = some row →
    w.db.users = some row.issued.credentials.user
  current : SessionsCurrent w
  served : ∀ s c, w.service = some s → noWriter Call.writing w.calls = true → w.last = some c →
    s.credentials = c

section

variable {env : Env} {w w' : World}

theorem revoked_new (now : ℤ) : Revoked (.new now) := by
  refine ⟨?_, ?_, ?_⟩
  · intro _ id row hrow
    rw [World.new, AList.lookup_empty] at hrow
    cases hrow
  · intro c hc
    cases hc
  · intro s c hs
    cases hs

theorem Revoking.users {c : Credentials} (h : Revoking w c) (hsound : Sound w)
    (hwriters : Writers w) : w.db.users = some c.user := by
  rcases h with ⟨p, hp, rfl⟩ | ⟨i, d, t, hd, hpc, rfl⟩
  · exact hsound.booted p hp
  · obtain ⟨s, hs, hwrites⟩ := hwriters.writes i d t _ hd hpc
    rw [hsound.users s hs, show s.credentials = t.next.credentials from hwrites.1]

/-- After a cut, or without one, the sessions are those of the stored credentials. -/
theorem Revoked.users_of_cut (h : Revoked w) (hsound : Sound w) (hwriters : Writers w)
    (hcut : ∀ c, Revoking w c → ∀ id row, w.db.sessions.lookup id = some row →
      row.issued.credentials = c) (id : Bytes) (row : SessionRow)
    (hrow : w.db.sessions.lookup id = some row) :
    w.db.users = some row.issued.credentials.user := by
  by_cases hrevoking : ∃ c, Revoking w c
  · obtain ⟨c, hc⟩ := hrevoking
    rw [hcut c hc id row hrow]
    exact hc.users hsound hwriters
  · exact h.stored (fun c hc => hrevoking ⟨c, hc⟩) id row hrow

theorem revoked_of_idle (hs : w.service = none)
    (hstored : ∀ id row, w.db.sessions.lookup id = some row →
      w.db.users = some row.issued.credentials.user)
    (hcurrent : SessionsCurrent w) : Revoked w := by
  refine ⟨fun _ => hstored, hcurrent, ?_⟩
  intro s c hs'
  rw [hs] at hs'
  cases hs'

theorem revoked_serve {p : Accepted}
    (hrows : ∀ id row, w.db.sessions.lookup id = some row →
      row.issued.credentials = p.credentials)
    (husers : w.db.users = some p.credentials.user) : Revoked (w.serve p) := by
  refine ⟨?_, ?_, ?_⟩
  · intro _ id row hrow
    rw [hrows id row hrow]
    exact husers
  · intro c hc id row hrow
    cases hc
    exact hrows id row hrow
  · intro s c hs _ hc
    cases hs
    cases hc
    rfl

theorem Revoked.bootStep (h : Revoked w) (hsound : Sound w) (hwriters : Writers w) {b : Boot}
    (hb : w.boot = some b) (ok : Bool)
    (hcut : ok = false → ∀ c, Revoking w c → ∀ id row, w.db.sessions.lookup id = some row →
      row.issued.credentials = c) : Revoked (w.bootStep b ok) := by
  have hs : w.service = none := hsound.unserved (by rw [hb]; rfl)
  have hcalls := hsound.idle hs
  have hstored : (∀ p, b ≠ .revoke p) → ∀ id row, w.db.sessions.lookup id = some row →
      w.db.users = some row.issued.credentials.user := by
    intro hne
    refine h.stored ?_
    rintro c (⟨p, hp, -⟩ | ⟨i, d, t, hd, -⟩)
    · cases hb.symm.trans hp
      exact hne p rfl
    · rw [hcalls] at hd
      cases hd
  rw [World.bootStep.eq_def]
  split
  · rename_i hfail
    refine revoked_of_idle hs ?_ fun c hc => by cases hc
    exact h.users_of_cut hsound hwriters (hcut (by simpa using hfail))
  · cases b with
    | differ p => exact revoked_of_idle hs (hstored fun q hq => by cases hq) h.current
    | upsert p changed =>
      have hbefore := hstored fun q hq => by cases hq
      have hdiffer := hwriters.upserts p changed hb
      dsimp only
      split
      · refine ⟨?_, h.current, ?_⟩
        · intro hnone
          exact absurd (.inl ⟨p, rfl, rfl⟩) (hnone p.credentials)
        · intro s c hs'
          rw [show w.service = some s from hs'] at hs
          cases hs
      · rename_i hsame
        refine revoked_serve ?_ rfl
        intro id row hrow
        have husers := hbefore id row hrow
        rw [husers, credentialsDiffer] at hdiffer
        rw [hdiffer, decide_eq_true_eq, not_not] at hsame
        exact Credentials.user_injective hsame
    | revoke p =>
      refine revoked_serve ?_ (hsound.booted p hb)
      intro id row hrow
      rw [AList.lookup_empty] at hrow
      cases hrow

variable {s : Service} {i : ℕ} {c : Call} {σ : State} {pc : Pc}
variable {x : Choice} {t : Rotating} {p : Writing}

theorem Revoking.after {cr : Credentials} {c' : Call} (h : Revoking w cr)
    (hc : w.calls[i]? = some c) (hpc : ∀ t, c.pc ≠ .writing t .revoke) :
    Revoking (w.after i σ c') cr := by
  rcases h with hboot | ⟨j, d, t, hd, hrevoke, rfl⟩
  · exact .inl hboot
  · have hij : i ≠ j := by
      intro hij
      subst hij
      cases hc.symm.trans hd
      exact hpc t hrevoke
    refine .inr ⟨j, d, t, ?_, hrevoke, rfl⟩
    rw [World.after, List.getElem?_set_ne hij]
    exact hd

theorem Sound.not_revoking (hsound : Sound w) (hs : w.service = some s)
    (hc : w.calls[i]? = some c) (hholds : c.pc.holds = true)
    (hpc : ∀ t, c.pc ≠ .writing t .revoke) (cr : Credentials) : ¬ Revoking w cr := by
  rintro (⟨p, hp, -⟩ | ⟨j, d, t, hd, hrevoke, -⟩)
  · rw [hsound.unserved (by rw [hp]; rfl)] at hs
    cases hs
  · by_cases hij : j = i
    · subst hij
      cases hc.symm.trans hd
      exact hpc t hrevoke
    · rw [hsound.outside_of_writer hc hd hij hrevoke] at hholds
      cases hholds

theorem revoked_of_writing (hlt : i < w.calls.length)
    (hstored : (∀ cr, ¬ Revoking (w.after i σ { c with pc := .writing t p }) cr) →
      ∀ id row, σ.db.sessions.lookup id = some row →
        σ.db.users = some row.issued.credentials.user)
    (hcurrent : SessionsCurrent (w.after i σ { c with pc := .writing t p })) :
    Revoked (w.after i σ { c with pc := .writing t p }) := by
  refine ⟨hstored, hcurrent, ?_⟩
  intro s' cr _ hfree
  have hself : (w.after i σ { c with pc := .writing t p }).calls[i]? =
      some { c with pc := .writing t p } := List.getElem?_set_self hlt
  cases of_noWriter hfree hself

theorem Revoked.read {a : Admission} {p : Reading} (h : Revoked w) (hsound : Sound w)
    (hs : w.service = some s) (hc : w.calls[i]? = some c) (hpc : c.pc = .reading a p)
    (hread : read env x w.now (w.state s) c.request a p = some (σ, pc)) :
    Revoked (w.after i σ { c with pc }) := by
  obtain ⟨hkept, hlast, -⟩ := kept_of_read hread
  obtain ⟨s', hs', hissue⟩ := hsound.issued i c a p hc hpc
  cases hs.symm.trans hs'
  have hholds : c.pc.holds = true := by rw [hpc]; rfl
  have hreading : c.reading = true := by rw [Call.reading, hpc]
  have hfree : noWriter Call.writing w.calls = true := by
    refine noWriter_iff.mpr ?_
    intro j d hd
    by_cases hij : i = j
    · subst hij
      cases hc.symm.trans hd
      rw [Call.writing, hpc]
    · exact hsound.exclusive.writing_eq_false hc hd hij hreading
  have hnone := hsound.not_revoking hs hc hholds fun t ht => by rw [hpc] at ht; cases ht
  refine ⟨?_, ?_, ?_⟩
  · intro _ id row hrow
    change σ.db.users = _
    rw [hkept.users]
    rcases hkept.sessions hrow with hold | hnew
    · exact h.stored hnone id row hold
    · rw [← Option.some.inj hnew, hissue]
      exact hsound.users s hs
  · intro cr hcr id row hrow
    have hcr' : w.last = some cr := hlast.symm.trans hcr
    rcases hkept.sessions hrow with hold | hnew
    · exact h.current cr hcr' id row hold
    · rw [← Option.some.inj hnew, hissue]
      exact h.served s cr hs hfree hcr'
  · intro s' cr hs' _ hcr
    cases hs'
    rw [hkept.credentials]
    exact h.served s cr hs hfree (hlast.symm.trans hcr)

theorem Revoked.outside (h : Revoked w) (hs : w.service = some s) (hc : w.calls[i]? = some c)
    (hholds : c.pc.holds = false) (houtside : outside env x w.now (noWriter Call.writing w.calls)
      (noHolder Call.reading Call.writing w.calls) (w.state s) c.request c.pc = some (σ, pc)) :
    Revoked (w.after i σ { c with pc }) := by
  obtain ⟨hkept, hentered⟩ := kept_of_outside houtside
  have hlast : σ.last = w.last ∨ σ.last = none := by
    rcases hentered with ⟨-, hlast⟩ | ⟨-, rfl, -⟩ | ⟨-, rfl, -⟩
    · exact hlast
    · exact .inl rfl
    · exact .inl rfl
  have hbefore : ∀ cr, σ.last = some cr → w.last = some cr := by
    intro cr hcr
    rcases hlast with hsame | hnone
    · exact hsame.symm.trans hcr
    · rw [hnone] at hcr
      cases hcr
  have hrows : ∀ {id row}, σ.db.sessions.lookup id = some row →
      w.db.sessions.lookup id = some row := by
    intro id row hrow
    rcases hkept.sessions hrow with hold | hnew
    · exact hold
    · cases hnew
  have hpc : ∀ t p, c.pc ≠ .writing t p := by
    intro t p hpc
    rw [hpc] at hholds
    cases hholds
  refine ⟨?_, ?_, ?_⟩
  · intro hnone id row hrow
    change σ.db.users = _
    rw [hkept.users]
    exact h.stored (fun cr hcr => hnone cr (hcr.after hc fun t => hpc t _)) id row (hrows hrow)
  · intro cr hcr id row hrow
    exact h.current cr (hbefore cr hcr) id row (hrows hrow)
  · intro s' cr hs' hfree hcr
    cases hs'
    rw [hkept.credentials]
    have hwriting : c.writing = false := by
      by_contra hw
      have := holds_of_writing (c := c) (by simpa using hw)
      rw [hholds] at this
      cases this
    exact h.served s cr hs (noWriter_of_set hc hwriting hfree) (hbefore cr hcr)

/-- A writer's step, unless it is a deletion that fails while there are other sessions. -/
theorem Revoked.write (h : Revoked w) (hsound : Sound w) (hwriters : Writers w)
    (hs : w.service = some s) (hc : w.calls[i]? = some c) (hpc : c.pc = .writing t p)
    (hcut : p = .revoke → x.ok = false → ∀ id row, w.db.sessions.lookup id = some row →
      row.issued.credentials = t.next.credentials) (hwrite : write x (w.state s) t p = (σ, pc)) :
    Revoked (w.after i σ { c with pc }) := by
  have hlt := (List.getElem?_eq_some_iff.mp hc).1
  have husers := hsound.users s hs
  have hholds : c.pc.holds = true := by rw [hpc]; rfl
  obtain ⟨s', hs', hwrites⟩ := hwriters.writes i c t p hc hpc
  cases hs.symm.trans hs'
  have hstored : p ≠ .revoke → ∀ id row, w.db.sessions.lookup id = some row →
      w.db.users = some row.issued.credentials.user := by
    intro hp
    refine h.stored (hsound.not_revoking hs hc hholds ?_)
    intro u hu
    cases hpc.symm.trans hu
    exact hp rfl
  cases p with
  | differ =>
    have hrows := hstored (by decide)
    simp only [Auth.write] at hwrite
    split at hwrite <;> cases hwrite <;> exact revoked_of_writing hlt (fun _ => hrows) h.current
  | update changed =>
    have hrows := hstored (fun heq => by cases heq)
    simp only [Auth.write] at hwrite
    split at hwrite
    · cases hwrite
      obtain ⟨hprevious, hchanged⟩ := hwrites
      refine revoked_of_writing hlt ?_ h.current
      intro hnone id row hrow
      cases changed with
      | true =>
        refine absurd (.inr ⟨i, _, t, List.getElem?_set_self hlt, rfl, rfl⟩)
          (hnone t.next.credentials)
      | false =>
        -- Nothing changes, so the stored credentials are the same.
        have hsame : t.previous.credentials.user = t.next.credentials.user := by
          by_contra hne
          rw [Rotating.changes, decide_eq_true hne] at hchanged
          cases hchanged
        rw [← hprevious] at hsame
        change w.db.users.map _ = _
        rw [← hrows id row hrow, husers]
        exact congrArg some hsame.symm
    · cases hwrite
      exact revoked_of_writing hlt (fun _ => hrows) h.current
  | revoke =>
    simp only [Auth.write] at hwrite
    split at hwrite
    · cases hwrite
      refine revoked_of_writing hlt ?_ ?_
      · intro _ id row hrow
        rw [AList.lookup_empty] at hrow
        cases hrow
      · intro cr _ id row hrow
        rw [World.after, AList.lookup_empty] at hrow
        cases hrow
    · rename_i hfail
      cases hwrite
      refine revoked_of_writing hlt ?_ h.current
      intro _ id row hrow
      rw [hcut rfl (by simpa using hfail) id row hrow, ← hwrites.1]
      exact husers
  | clearSudo =>
    cases hwrite
    exact revoked_of_writing hlt (fun _ => hstored (by decide)) h.current
  | unlock r =>
    have hrows := hstored (fun heq => by cases heq)
    cases hwrite
    refine ⟨fun _ => hrows, ?_, ?_⟩
    · intro cr hcr id row hrow
      simp only [World.after] at hcr
      split at hcr
      · rename_i hok
        cases hcr
        have hnext : s.credentials = t.next.credentials := (hwrites hok).1
        apply Credentials.user_injective
        rw [← hnext]
        exact Option.some.inj ((hrows id row hrow).symm.trans husers)
      · cases hcr
    · intro s' cr hs' _ hcr
      cases hs'
      simp only [World.after] at hcr
      split at hcr
      · rename_i hok
        cases hcr
        exact (hwrites hok).1
      · cases hcr

/-- **A step that cuts no rotation** keeps the sessions to their credentials. -/
theorem Revoked.step {e : Event} (h : Revoked w) (hsound : Sound w) (hwriters : Writers w)
    (hstep : step env e w = some w') (huncut : Uncut w e w') : Revoked w' := by
  cases e with
  | tick duration =>
    cases hstep
    exact ⟨h.stored, h.current, h.served⟩
  | new cfg =>
    obtain ⟨hb, hs, hnew⟩ := new_of_step hstep
    have hstored := h.stored <| by
      rintro c (⟨p, hp, -⟩ | ⟨i, d, t, hd, -⟩)
      · rw [hb] at hp
        cases hp
      · rw [hsound.idle hs] at hd
        cases hd
    rcases hnew with rfl | ⟨p, rfl⟩
    · exact revoked_of_idle hs hstored fun c hc => by cases hc
    · exact revoked_of_idle hs hstored h.current
  | boot ok =>
    obtain ⟨b, hb, rfl⟩ := Option.map_eq_some_iff.mp hstep
    exact h.bootStep hsound hwriters hb ok fun hfail c hc => huncut c hc hfail
  | call r =>
    obtain ⟨-, rfl⟩ := call_of_step hstep
    refine ⟨?_, h.current, ?_⟩
    · intro hnone
      refine h.stored ?_
      rintro c (hboot | ⟨i, d, t, hd, hrevoke, heq⟩)
      · exact hnone c (.inl hboot)
      · have hlt := (List.getElem?_eq_some_iff.mp hd).1
        exact hnone c (.inr ⟨i, d, t, by rw [List.getElem?_append_left hlt]; exact hd, hrevoke,
          heq⟩)
    · intro s c hs hfree
      refine h.served s c hs ?_
      rw [noWriter, List.all_append, Bool.and_eq_true] at hfree
      exact hfree.1
  | act i x =>
    obtain ⟨s, c, σ, pc, hs, hc, hacted, rfl⟩ := acted_of_step hstep
    cases hacted with
    | read a p hpc hread => exact h.read hsound hs hc hpc hread
    | outside hholds houtside => exact h.outside hs hc hholds houtside
    | write t p hpc hwrite =>
      refine h.write hsound hwriters hs hc hpc ?_ hwrite
      intro hp hfail
      subst hp
      exact huncut t.next.credentials (.inr ⟨i, c, t, hc, hpc, rfl⟩)
        ⟨hfail, c, t, hc, hpc⟩
  | crash =>
    cases hstep
    exact revoked_of_idle rfl
      (h.users_of_cut hsound hwriters fun c hc => huncut c hc trivial) h.current

end

/-- **Sessions keep to their credentials** in every run in which no rotation is cut: whenever `New`
or `Reconfigure` has last returned success, every session in the store was issued by a login that
verified against the credentials it returned with. -/
theorem sessions_current {env : Env} {now : ℤ} {es : List Event} {w : World}
    (hrun : run (step env) (.new now) es = some w)
    (huncut : Along (step env) Uncut (.new now) es) : SessionsCurrent w := by
  have hall : (Sound w ∧ Writers w) ∧ Revoked w :=
    invariant_run_along (I := fun w => (Sound w ∧ Writers w) ∧ Revoked w) (C := Uncut)
      (fun h hstep hC => ⟨⟨h.1.1.step hstep, h.1.2.step h.1.1 hstep⟩,
        h.2.step h.1.1 h.1.2 hstep hC⟩)
      ⟨⟨sound_new now, writers_new now⟩, revoked_new now⟩ huncut hrun
  exact hall.2.current

/-- Every statement succeeds, and the process dies only when nothing rotates. -/
def undisturbed (w : World) : Event → Bool
  | .boot ok => ok
  | .act _ x => x.ok
  | .crash => w.boot.isNone && noWriter Call.writing w.calls
  | _ => true

theorem uncut_of_undisturbed {w w' : World} {e : Event} (h : undisturbed w e = true) :
    Uncut w e w' := by
  intro c hrevoking hcuts
  cases e with
  | tick | new | call => cases hcuts
  | boot ok => cases h.symm.trans hcuts
  | act i x => cases h.symm.trans hcuts.1
  | crash =>
    simp only [undisturbed, Bool.and_eq_true, Option.isNone_iff_eq_none] at h
    rcases hrevoking with ⟨p, hboot, -⟩ | ⟨i, d, t, hd, hpc, -⟩
    · cases h.1.symm.trans hboot
    · have hidle := List.all_eq_true.mp h.2 d (List.mem_of_getElem? hd)
      simp [Call.writing, hpc] at hidle

/-- A start and a login of the first administrator. -/
def firstLogin : List Event :=
  .new (sampleConfig adminOne) :: .boot true :: .boot true ::
    .call (.login (ascii "admin") (ascii "one") (ascii "ip")) :: steps 0 11

/-- Then a rotation to the second administrator, a login, and a restart. -/
def rotatedLogin : List Event :=
  firstLogin ++ Event.call (.reconfigure (sampleConfig adminTwo)) :: steps 1 7 ++
    Event.call (.login (ascii "admin") (ascii "two") (ascii "ip")) :: steps 2 11 ++
    [Event.crash, .new (sampleConfig adminTwo), .boot true, .boot true]

/-- The configured credentials, those that the sessions were issued for. -/
def World.summary (w : World) : Option User × List User :=
  (w.last.map Credentials.user, w.db.sessions.entries.map fun x => x.2.issued.credentials.user)

/-- The one session is that of the second login. -/
theorem sessions_current_rotatedLogin :
    ∃ w, run (step sampleEnv) (.new (second + zeroTime)) rotatedLogin = some w ∧
      w.summary = (some adminTwo.user, [adminTwo.user]) ∧ SessionsCurrent w := by
  have hruns : (run (step sampleEnv) (.new (second + zeroTime)) rotatedLogin).map World.summary =
      some (some adminTwo.user, [adminTwo.user]) := by
    decide +kernel
  have hundisturbed : Along (step sampleEnv) (fun w e _ => undisturbed w e = true)
      (.new (second + zeroTime)) rotatedLogin := by
    decide +kernel
  obtain ⟨w, hw, hsummary⟩ := Option.map_eq_some_iff.mp hruns
  refine ⟨w, hw, hsummary, sessions_current hw ?_⟩
  exact along_of_invariant (I := fun _ => True) (fun _ _ => trivial)
    (fun _ _ h => uncut_of_undisturbed h) trivial hundisturbed

/-- **The service has the credentials that are stored**, in every run, through restarts and
crashes: who verifies a password does so against them, and who changes them is alone. -/
theorem credentials_coherent {env : Env} {now : ℤ} {es : List Event} {w : World}
    (hrun : run (step env) (.new now) es = some w) :
    (∀ s, w.service = some s → w.db.users = some s.credentials.user) ∧
      (∀ (i : ℕ) c a p, w.calls[i]? = some c → c.pc = .reading a p →
        ∃ s, w.service = some s ∧ a.issue = ⟨s.credentials, w.rotations⟩) ∧
      Exclusive Call.reading Call.writing w.calls :=
  have h := invariant_run Sound.step (sound_new now) hrun
  ⟨h.users, h.issued, h.exclusive⟩

/-- After the restart the service has the second administrator, which is stored. -/
theorem credentials_coherent_rotatedLogin :
    ∃ w s, run (step sampleEnv) (.new (second + zeroTime)) rotatedLogin = some w ∧
      w.service = some s ∧ s.credentials.user = adminTwo.user ∧ w.db.users = some adminTwo.user ∧
      Exclusive Call.reading Call.writing w.calls := by
  have hruns : ((run (step sampleEnv) (.new (second + zeroTime)) rotatedLogin).bind
      World.service).map (fun s => s.credentials.user) = some adminTwo.user := by
    decide +kernel
  obtain ⟨s, hs, huser⟩ := Option.map_eq_some_iff.mp hruns
  obtain ⟨w, hw, hs⟩ := Option.bind_eq_some_iff.mp hs
  have hcoherent := credentials_coherent hw
  exact ⟨w, s, hw, hs, huser, huser ▸ hcoherent.1 s hs, hcoherent.2.2⟩

/-- **A failed deletion keeps the sessions**: the deletion of a rotation fails, the rotation is
tried again and returns without error, and the session of the old password is still there. -/
theorem retried_rotation_keeps_session :
    adminOne.user ≠ adminTwo.user ∧ (run (step sampleEnv) (.new (second + zeroTime)) (firstLogin ++
      .call (.reconfigure (sampleConfig adminTwo)) :: steps 1 4 ++
      .act 1 ⟨false, [], none⟩ :: steps 1 1 ++
      .call (.reconfigure (sampleConfig adminTwo)) :: steps 2 5)).map World.summary =
    some (some adminTwo.user, [adminOne.user]) := by
  constructor
  · decide +kernel
  · decide +kernel

end Veduta.Auth
