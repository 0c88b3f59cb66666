import Veduta.Auth.Rotation

/-!
# Lockout

The fifth failure within ten minutes locks a key for fifteen.  The table of failures is bounded, and
when it is full of entries that count the one with the oldest window makes room, also if its key is
locked.  An attempt that was let in before the lock may also undo it: if it succeeds the entry is
deleted, and if it fails the lock is set from the attempt's own time.
-/

namespace Veduta.Auth

open Go Lib

/-! ## What touches the table -/

section

variable {env : Env} {x : Choice} {now : ℤ} {noWriter noHolder : Bool} {σ σ' : State}
variable {request : Request} {pc pc' : Pc}
variable {a : Admission}

theorem attempts_of_read {p : Reading} (hp : ∀ valid, p ≠ .verified valid)
    (h : read env x now σ request a p = some (σ', pc')) :
    σ'.service.attempts = σ.service.attempts := by
  cases p with
  | lockout | enqueue | token | insert => simp only [read] at h; split at h <;> cases h <;> rfl
  | refused | hash | dequeue | grant | release => cases h; rfl
  | acquire => simp only [read] at h; split at h <;> cases h; rfl
  | verified valid => exact absurd rfl (hp valid)
  | prune token csrf => simp only [read] at h; cases h; split <;> rfl

theorem attempts_of_verified {valid : Bool}
    (h : read env x now σ request a (.verified valid) = some (σ', pc')) :
    if request.matches a.issue valid then
      σ'.service.attempts = σ.service.attempts.erase a.key
    else recordFailure x.order a.key a.now σ.service.attempts = some σ'.service.attempts := by
  simp only [read] at h
  split at h
  · rename_i hmatches
    rw [if_pos hmatches]
    cases h
    rfl
  · rename_i hmatches
    rw [if_neg hmatches]
    rw [Option.map_eq_some_iff] at h
    obtain ⟨t, ht, heq⟩ := h
    cases heq
    exact ht

theorem attempts_of_write {t : Rotating} {p : Writing} (h : write x σ t p = (σ', pc')) :
    σ'.service.attempts = σ.service.attempts := by
  cases p with
  | differ | update | revoke => simp only [write] at h; split at h <;> cases h <;> rfl
  | clearSudo | unlock => cases h; rfl

theorem attempts_of_select {token : Bytes} (h : start.select env x σ token = some (σ', pc')) :
    σ'.service.attempts = σ.service.attempts := by
  rw [(kept_of_select h).1]

theorem attempts_of_outside
    (h : outside env x now noWriter noHolder σ request pc = some (σ', pc')) :
    σ'.service.attempts = σ.service.attempts := by
  cases pc with
  | start =>
    simp only [outside] at h
    cases request with
    | login username password ip => simp only [start] at h; split at h <;> cases h; rfl
    | authenticate | checkCSRF | openSudo => exact attempts_of_select h
    | logout token =>
      simp only [start] at h
      split at h
      · cases h
        rfl
      · split at h <;> cases h <;> rfl
    | allowsPrivileged sessionID =>
      simp only [start] at h
      split at h
      · split at h <;> cases h <;> rfl
      · cases h
        rfl
    | reconfigure cfg => simp only [start] at h; split at h <;> cases h <;> rfl
  | selected username row =>
    simp only [outside] at h
    split at h
    · split at h <;> cases h <;> rfl
    · cases h
      rfl
  | expired => simp only [outside] at h; cases h; split <;> rfl
  | authenticated | lock => simp only [outside] at h; split at h <;> cases h; rfl
  | forget r => cases h; rfl
  | reading | writing | done => cases h

theorem attempts_of_acted {w : World} {i : ℕ} {s : Service} {c : Call} {σ : State}
    (h : Acted env x w i s c σ pc) :
    σ.service.attempts = s.attempts ∨
      ∃ a valid, c.pc = .reading a (.verified valid) ∧
        if c.request.matches a.issue valid then σ.service.attempts = s.attempts.erase a.key
        else recordFailure x.order a.key a.now s.attempts = some σ.service.attempts := by
  cases h with
  | read a p hpc hread =>
    by_cases hp : ∃ valid, p = .verified valid
    · obtain ⟨valid, rfl⟩ := hp
      exact .inr ⟨a, valid, hpc, attempts_of_verified hread⟩
    · exact .inl (attempts_of_read (fun valid heq => hp ⟨valid, heq⟩) hread)
  | write t p hpc hwrite => exact .inl (attempts_of_write hwrite)
  | outside hpc houtside => exact .inl (attempts_of_outside houtside)

end

/-! ## The bound -/

section

variable {env : Env} {w w' : World}
variable {s : Service}

/-- The table is within its bound, and no reader has read a time to come. -/
structure Bounded (w : World) : Prop where
  size : ∀ s, w.service = some s → s.attempts.size ≤ maxTrackedSources
  timely : ∀ (i : ℕ) c a p, w.calls[i]? = some c → c.pc = .reading a p → a.now ≤ w.now

theorem bounded_new (now : ℤ) : Bounded (.new now) := by
  refine ⟨?_, ?_⟩
  · intro s hs
    cases hs
  · intro i c a p hc
    cases hc

theorem size_empty : GoMap.size (∅ : Table) ≤ maxTrackedSources := Nat.zero_le _

theorem size_of_acted {x : Choice} {i : ℕ} {c : Call} {σ : State} {pc : Pc}
    (hsize : s.attempts.size ≤ maxTrackedSources) (h : Acted env x w i s c σ pc) :
    σ.service.attempts.size ≤ maxTrackedSources := by
  rcases attempts_of_acted h with hsame | ⟨a, valid, -, hchange⟩
  · rw [hsame]
    exact hsize
  · split at hchange
    · rw [hchange]
      exact (GoMap.size_erase_le s.attempts a.key).trans hsize
    · exact size_recordFailure_le hsize hchange

theorem timely_of_acted {x : Choice} {i : ℕ} {c : Call} {σ : State} {pc : Pc} (h : Bounded w)
    (hc : w.calls[i]? = some c) (hacted : Acted env x w i s c σ pc) {a : Admission} {p : Reading}
    (hpc : pc = .reading a p) : a.now ≤ w.now := by
  cases hacted with
  | read b q hcpc hread =>
    obtain ⟨-, -, hnext⟩ := kept_of_read hread
    rcases hnext with ⟨q', rfl⟩ | ⟨r, rfl⟩
    · cases hpc
      exact h.timely i c _ q hc hcpc
    · cases hpc
  | write t q hcpc hwrite =>
    rcases next_of_write hwrite with ⟨q', rfl⟩ | ⟨r, rfl⟩ <;> cases hpc
  | outside hholds houtside =>
    obtain ⟨-, hentered⟩ := kept_of_outside houtside
    rcases hentered with ⟨hholds', -⟩ | ⟨-, -, key, rfl⟩ | ⟨-, -, q, rfl⟩
    · rw [hpc] at hholds'
      cases hholds'
    · cases hpc
      exact le_rfl
    · cases hpc

theorem Bounded.step {e : Event} (h : Bounded w) (hstep : step env e w = some w') :
    Bounded w' := by
  cases e with
  | tick duration =>
    cases hstep
    refine ⟨h.size, ?_⟩
    intro i c a p hc hpc
    have := h.timely i c a p hc hpc
    dsimp only
    omega
  | new cfg =>
    obtain ⟨-, -, rfl | ⟨p, rfl⟩⟩ := new_of_step hstep
    · exact ⟨h.size, h.timely⟩
    · exact ⟨h.size, h.timely⟩
  | boot ok =>
    obtain ⟨b, -, rfl⟩ := Option.map_eq_some_iff.mp hstep
    rw [World.bootStep.eq_def]
    split
    · exact ⟨h.size, h.timely⟩
    · have hserve : ∀ (u : World) (p : Accepted), u.calls = w.calls → u.now = w.now →
          Bounded (u.serve p) := by
        intro u p hcalls hnow
        refine ⟨?_, ?_⟩
        · intro s hs
          cases hs
          exact size_empty
        · intro i c a q hc hpc
          rw [show (u.serve p).now = w.now from hnow]
          exact h.timely i c a q (hcalls ▸ hc) hpc
      cases b with
      | differ p => exact ⟨h.size, h.timely⟩
      | upsert p changed =>
        dsimp only
        split
        · exact ⟨h.size, h.timely⟩
        · exact hserve _ p rfl rfl
      | revoke p => exact hserve _ p rfl rfl
  | call r =>
    obtain ⟨-, rfl⟩ := call_of_step hstep
    refine ⟨h.size, ?_⟩
    intro i c a p hc hpc
    rcases getElem?_append_cases hc with hc | rfl
    · exact h.timely i c a p hc hpc
    · cases hpc
  | act i x =>
    obtain ⟨s, c, σ, pc, hs, hc, hacted, rfl⟩ := acted_of_step hstep
    refine ⟨?_, ?_⟩
    · intro s' hs'
      cases hs'
      exact size_of_acted (h.size s hs) hacted
    · intro j d a p hd hpc
      rcases getElem?_set_cases hd with ⟨-, rfl⟩ | ⟨-, hold⟩
      · exact timely_of_acted h hc hacted hpc
      · exact h.timely j d a p hold hpc
  | crash =>
    cases hstep
    refine ⟨?_, ?_⟩
    · intro s hs
      cases hs
    · intro i c a p hc
      cases hc

end

/-! ## A lock -/

/-- The key is locked until a time, or longer. -/
def Locked (w : World) (key : Bytes) (time : ℤ) : Prop :=
  ∃ s entry, w.service = some s ∧ s.attempts.lookup key = some entry ∧ time ≤ entry.lockedUntil

/-- The end of an attempt leaves the lock of a key: an attempt of the key itself, let in before the
lock, fails within the window and not so early that the lock gets shorter; a failure of a new key
does not evict it. -/
def SparesEntry (key : Bytes) (time : ℤ) (s : Service) (entry : Attempt) (x : Choice)
    (a : Admission) (success : Bool) : Prop :=
  if a.key = key then
    success = false ∧ entry.windowStart ≠ zeroTime ∧ a.now - entry.windowStart < 10 * minute ∧
      time ≤ a.now + 15 * minute
  else
    success = false → s.attempts.lookup a.key = none → ¬ Evicts x.order a.now s.attempts key

/-- A step leaves the lock of a key that is locked until a time to come. -/
def Spares (key : Bytes) (time : ℤ) (w : World) (e : Event) (_ : World) : Prop :=
  w.now < time → ∀ i x, e = .act i x →
    ∀ s entry c a valid, w.service = some s → s.attempts.lookup key = some entry →
      w.calls[i]? = some c → c.pc = .reading a (.verified valid) →
        SparesEntry key time s entry x a (c.request.matches a.issue valid)

section

variable {env : Env} {w w' : World} {key : Bytes} {time : ℤ}
variable {entry : Attempt} {a : Admission}

theorem lockedUntil_fail {now : ℤ} (hstart : entry.windowStart ≠ zeroTime)
    (hwindow : now - entry.windowStart < 10 * minute) (hlater : time ≤ now + 15 * minute)
    (h : time ≤ entry.lockedUntil) : time ≤ (entry.fail now).lockedUntil := by
  have hsame : ¬ (entry.windowStart = zeroTime ∨ 10 * minute ≤ now - entry.windowStart) := by
    intro hor
    rcases hor with hzero | hover
    · exact hstart hzero
    · omega
  rw [Attempt.fail, if_neg hsame]
  dsimp only
  split
  · exact hlater
  · exact h

theorem locked_of_spares {s : Service} {x : Choice} {success : Bool} {t : Table}
    (hentry : s.attempts.lookup key = some entry) (hlocked : time ≤ entry.lockedUntil)
    (hnow : a.now < time) (hspares : SparesEntry key time s entry x a success)
    (hchange : if success then t = s.attempts.erase a.key
      else recordFailure x.order a.key a.now s.attempts = some t) :
    ∃ entry', t.lookup key = some entry' ∧ time ≤ entry'.lockedUntil := by
  rw [SparesEntry] at hspares
  split at hspares
  · rename_i hkey
    obtain ⟨hfails, hstart, hwindow, hlater⟩ := hspares
    rw [hfails, hkey] at hchange
    exact ⟨_, lookup_recordFailure_self hchange hentry,
      lockedUntil_fail hstart hwindow hlater hlocked⟩
  · rename_i hkey
    refine ⟨entry, ?_, hlocked⟩
    cases success with
    | true =>
      rw [if_pos rfl] at hchange
      rw [hchange, AList.lookup_erase_ne (Ne.symm hkey)]
      exact hentry
    | false =>
      have hlive : entry.expired a.now = false := by
        rw [Attempt.expired, Bool.and_eq_false_iff]
        right
        simp only [Bool.not_eq_false', decide_eq_true_eq]
        omega
      exact lookup_recordFailure_of_ne hchange hentry (Ne.symm hkey) hlive (hspares rfl)

theorem locked_step {e : Event} (h : w.now < time → Locked w key time) (hbounded : Bounded w)
    (he : e.inProcess = true) (hstep : step env e w = some w') (hspares : Spares key time w e w') :
    w'.now < time → Locked w' key time := by
  cases e with
  | tick duration =>
    cases hstep
    intro hnow
    dsimp only at hnow
    exact h (by omega)
  | call r =>
    obtain ⟨-, rfl⟩ := call_of_step hstep
    exact h
  | act i x =>
    obtain ⟨s, c, σ, pc, hs, hc, hacted, rfl⟩ := acted_of_step hstep
    intro hnow
    have hnow' : w.now < time := hnow
    obtain ⟨s', entry, hs', hentry, hlocked⟩ := h hnow'
    cases hs.symm.trans hs'
    rcases attempts_of_acted hacted with hsame | ⟨a, valid, hpc, hchange⟩
    · exact ⟨σ.service, entry, rfl, by rw [hsame]; exact hentry, hlocked⟩
    · have htimely := hbounded.timely i c a _ hc hpc
      obtain ⟨entry', hentry', hlocked'⟩ := locked_of_spares hentry hlocked (by omega)
        (hspares hnow' i x rfl s entry c a valid hs hentry hc hpc) hchange
      exact ⟨σ.service, entry', rfl, hentry', hlocked'⟩
  | new | boot | crash => cases he

/-- A locked key is refused without a verification. -/
theorem step_admit_of_locked {i : ℕ} {c : Call} (h : Locked w key time) (hbounded : Bounded w)
    (hnow : w.now < time) (hc : w.calls[i]? = some c) (hpc : c.pc = .reading a .lockout)
    (hkey : a.key = key) (x : Choice) :
    step env (.act i x) w = some { w with
      calls := w.calls.set i { c with pc := .reading a (.release (.error .rateLimited)) } } := by
  obtain ⟨s, entry, hs, hentry, hlocked⟩ := h
  have htimely := hbounded.timely i c a _ hc hpc
  have hrefused : a.now < ((w.state s).service.attempts.get .zero a.key).lockedUntil := by
    rw [GoMap.get, hkey, show (w.state s).service.attempts = s.attempts from rfl, hentry]
    exact lt_of_le_of_lt htimely (lt_of_lt_of_le hnow hlocked)
  simp only [Auth.step, Option.bind_eq_bind, hs, hc, Option.bind_some, act, hpc, read, hrefused,
    if_true, Option.map_some]
  rw [World.after, World.state, ← hs]

theorem locked_run {es : List Event} (h : w.now < time → Locked w key time) (hbounded : Bounded w)
    (hes : ∀ e ∈ es, e.inProcess = true) (hspares : Along (step env) (Spares key time) w es)
    (hrun : run (step env) w es = some w') : w'.now < time → Locked w' key time := by
  induction es generalizing w with
  | nil =>
    cases hrun
    exact h
  | cons e es ih =>
    obtain ⟨u, hu, hrun⟩ := run_cons hrun
    obtain ⟨he, hes⟩ := List.forall_mem_cons.mp hes
    obtain ⟨hspare, hspares⟩ := hspares u hu
    exact ih (locked_step h hbounded he hu hspare) (hbounded.step hu) hes hspares hrun

end

/-- **A locked key stays locked** until its time, and is refused without a verification, in every
run of a process whose steps spare it; and the table stays within its bound. -/
theorem locked_refused {env : Env} {now : ℤ} {es es' : List Event} {w w' : World}
    (hrun : run (step env) (.new now) es = some w) (hrun' : run (step env) w es' = some w')
    (hes' : ∀ e ∈ es', e.inProcess = true) :
    (∀ s, w'.service = some s → s.attempts.size ≤ maxTrackedSources) ∧
      ∀ key time, Locked w key time → Along (step env) (Spares key time) w es' →
        w'.now < time → ∀ (i : ℕ) c a x, w'.calls[i]? = some c → c.pc = .reading a .lockout →
          a.key = key → step env (.act i x) w' = some { w' with
            calls := w'.calls.set i
              { c with pc := .reading a (.release (.error .rateLimited)) } } := by
  have hbounded : Bounded w := invariant_run Bounded.step (bounded_new now) hrun
  have hbounded' : Bounded w' := invariant_run Bounded.step hbounded hrun'
  refine ⟨hbounded'.size, ?_⟩
  intro key time hlocked hspares hnow i c a x hc hpc hkey
  have hlocked' := locked_run (fun _ => hlocked) hbounded hes' hspares hrun' hnow
  exact step_admit_of_locked hlocked' hbounded' hnow hc hpc hkey x

/-! ## A flood -/

/-- An attempt under some name with a password that nobody has, up to its answer. -/
def failedLogin (i : ℕ) (username : Bytes) (order : List (Σ _ : Bytes, Attempt)) : List Event :=
  .call (.login username [] (ascii "ip")) :: List.replicate 8 (.act i ⟨true, order, none⟩)

/-- A world with one more call, at some point. -/
def World.serving (w : World) (s : Service) (r : Request) (pc : Pc) : World :=
  { w with service := some s, calls := w.calls ++ [⟨r, pc⟩] }

section

variable {env : Env} {w : World} {s s' : Service} {r : Request} {pc pc' : Pc} {x : Choice}

theorem run_serving (es : List Event)
    (h : act env x w.now (noWriter Call.writing (w.serving s r pc).calls)
      (noHolder Call.reading Call.writing (w.serving s r pc).calls) (w.state s) ⟨r, pc⟩ =
        some (w.state s', ⟨r, pc'⟩)) :
    run (step env) (w.serving s r pc) (.act w.calls.length x :: es) =
      run (step env) (w.serving s' r pc') es := by
  have hcall : (w.serving s r pc).calls[w.calls.length]? = some ⟨r, pc⟩ := by
    rw [World.serving, List.getElem?_concat_length]
  have hset : (w.serving s r pc).calls.set w.calls.length ⟨r, pc'⟩ =
      w.calls ++ [⟨r, pc'⟩] := by
    rw [World.serving, List.set_append_right _ _ le_rfl, Nat.sub_self, List.set_cons_zero]
  have hstep : step env (.act w.calls.length x) (w.serving s r pc) =
      some (w.serving s' r pc') := by
    simp only [step, Option.bind_eq_bind, show (w.serving s r pc).service = some s from rfl, hcall,
      Option.bind_some, show (w.serving s r pc).now = w.now from rfl,
      show (w.serving s r pc).state s = w.state s from rfl, h]
    rw [World.after, hset]
    rfl
  rw [run, hstep, Option.bind_some]

theorem run_reading {a : Admission} {p : Reading} (es : List Event)
    (h : read env x w.now (w.state s) r a p = some (w.state s', pc')) :
    run (step env) (w.serving s r (.reading a p)) (.act w.calls.length x :: es) =
      run (step env) (w.serving s' r pc') es := by
  refine run_serving es ?_
  simp only [act, h, Option.map_some]

theorem run_login (username password ip : Bytes) (es : List Event) (hs : w.service = some s)
    (hfree : noWriter Call.writing w.calls = true)
    (hopen : ¬ w.now < (s.attempts.get .zero (loginKey env username ip)).lockedUntil) :
    run (step env) w (.call (.login username password ip) :: .act w.calls.length x ::
        .act w.calls.length x :: es) =
      run (step env) (w.serving s (.login username password ip)
        (.reading ⟨⟨s.credentials, w.rotations⟩, s.ttl, loginKey env username ip, w.now⟩
          .enqueue)) es := by
  have hcall : step env (.call (.login username password ip)) w =
      some (w.serving s (.login username password ip) .start) := by
    simp only [step, hs, Option.isSome_some, if_true, World.serving]
  have hfree' : noWriter Call.writing
      (w.serving s (.login username password ip) .start).calls = true := by
    rw [noWriter, World.serving, List.all_append, Bool.and_eq_true]
    exact ⟨hfree, rfl⟩
  have hlock : act env x w.now
      (noWriter Call.writing (w.serving s (.login username password ip) .start).calls)
      (noHolder Call.reading Call.writing
        (w.serving s (.login username password ip) .start).calls)
      (w.state s) ⟨.login username password ip, .start⟩ =
        some (w.state s, ⟨.login username password ip, .reading
          ⟨⟨s.credentials, w.rotations⟩, s.ttl, loginKey env username ip, w.now⟩ .lockout⟩) := by
    rw [hfree']
    rfl
  have hadmitted : read env x w.now (w.state s) (.login username password ip)
      ⟨⟨s.credentials, w.rotations⟩, s.ttl, loginKey env username ip, w.now⟩ .lockout =
        some (w.state s, .reading
          ⟨⟨s.credentials, w.rotations⟩, s.ttl, loginKey env username ip, w.now⟩ .enqueue) :=
    if_neg hopen
  rw [run, hcall, Option.bind_some, run_serving _ hlock, run_reading _ hadmitted]

end

theorem run_failedLogin {w : World} {s : Service} {t : Table} (username : Bytes)
    (order : List (Σ _ : Bytes, Attempt)) (hs : w.service = some s)
    (hidle : s.verifier.waiting = 0 ∧ s.verifier.running = 0) (hone : s.credentials = adminOne)
    (hfree : noWriter Call.writing w.calls = true)
    (hopen : ¬ w.now <
      (s.attempts.get .zero (loginKey sampleEnv username (ascii "ip"))).lockedUntil)
    (hfail : recordFailure order (loginKey sampleEnv username (ascii "ip")) w.now s.attempts =
      some t) :
    run (step sampleEnv) w (failedLogin w.calls.length username order) = some (w.serving
      { s with verifier := ⟨0, 0, s.verifier.admitted + 1⟩, attempts := t }
      (.login username [] (ascii "ip")) (.done (.error .invalidCredentials))) := by
  obtain ⟨credentials, ttl, ⟨waiting, running, admitted⟩, attempts, windows⟩ := s
  obtain ⟨rfl, rfl⟩ := hidle
  subst hone
  let service (v : Verifier) (t : Table) : Service := ⟨adminOne, ttl, v, t, windows⟩
  let r : Request := .login username [] (ascii "ip")
  let x : Choice := ⟨true, order, none⟩
  let a : Admission :=
    ⟨⟨adminOne, w.rotations⟩, ttl, loginKey sampleEnv username (ascii "ip"), w.now⟩
  have henqueue : read sampleEnv x w.now (w.state (service ⟨0, 0, admitted⟩ attempts)) r a
      .enqueue = some (w.state (service ⟨1, 0, admitted⟩ attempts), .reading a .acquire) := rfl
  have hacquire : read sampleEnv x w.now (w.state (service ⟨1, 0, admitted⟩ attempts)) r a
      .acquire = some (w.state (service ⟨1, 1, admitted + 1⟩ attempts), .reading a .hash) := rfl
  have hhash : read sampleEnv x w.now (w.state (service ⟨1, 1, admitted + 1⟩ attempts)) r a .hash =
      some (w.state (service ⟨1, 0, admitted + 1⟩ attempts), .reading a (.dequeue false)) := rfl
  have hdequeue : read sampleEnv x w.now (w.state (service ⟨1, 0, admitted + 1⟩ attempts)) r a
      (.dequeue false) = some (w.state (service ⟨0, 0, admitted + 1⟩ attempts),
        .reading a (.verified false)) := rfl
  have hverified : read sampleEnv x w.now (w.state (service ⟨0, 0, admitted + 1⟩ attempts)) r a
      (.verified false) = some (w.state (service ⟨0, 0, admitted + 1⟩ t),
        .reading a (.release (.error .invalidCredentials))) := by
    change (recordFailure order a.key a.now attempts).map _ = _
    rw [hfail]
    rfl
  have hrelease : read sampleEnv x w.now (w.state (service ⟨0, 0, admitted + 1⟩ t)) r a
      (.release (.error .invalidCredentials)) = some (w.state (service ⟨0, 0, admitted + 1⟩ t),
        .done (.error .invalidCredentials)) := rfl
  simp only [failedLogin, List.replicate]
  rw [run_login username [] (ascii "ip") _ hs hfree hopen, run_reading _ henqueue,
    run_reading _ hacquire, run_reading _ hhash, run_reading _ hdequeue, run_reading _ hverified,
    run_reading _ hrelease]
  rfl

/-- Names of one letter, again and again. -/
def floodKey (n : ℕ) : Bytes :=
  loginKey sampleEnv (List.replicate (n + 1) (chr 'x')) (ascii "ip")

def adminKey : Bytes := loginKey sampleEnv (ascii "admin") (ascii "ip")

theorem floodKey_injective : Function.Injective floodKey := by
  intro m n h
  have hlen := congrArg List.length h
  simpa [floodKey, loginKey, sampleEnv] using hlen

theorem floodKey_ne_adminKey (n : ℕ) : floodKey n ≠ adminKey := by
  intro h
  have hhead := congrArg List.head? h
  simp [floodKey, adminKey, loginKey, sampleEnv, List.replicate_succ] at hhead
  cases hhead

/-- When the administrator's key is locked. -/
def floodStart : ℤ := zeroTime + second

/-- The administrator is locked, and failures under so many other names have followed. -/
structure Flooded (n : ℕ) (w : World) (s : Service) : Prop where
  service : w.service = some s
  idle : s.verifier.waiting = 0 ∧ s.verifier.running = 0
  credentials : s.credentials = adminOne
  free : noWriter Call.writing w.calls = true
  now : w.now = floodStart + second
  size : s.attempts.size = n + 1
  locked : s.attempts.lookup adminKey = some ⟨5, floodStart, floodStart + 15 * minute⟩
  others : ∀ x ∈ s.attempts.entries, x.1 ≠ adminKey →
    (∃ m < n, x.1 = floodKey m) ∧ x.2 = ⟨1, floodStart + second, zeroTime⟩

section

variable {n : ℕ} {w : World} {s : Service}

theorem Flooded.lookup (h : Flooded n w s) : s.attempts.lookup (floodKey n) = none := by
  cases hentry : s.attempts.lookup (floodKey n) with
  | none => rfl
  | some a =>
    obtain ⟨⟨m, hm, heq⟩, -⟩ := h.others _ (GoMap.lookup_eq_some_iff.mp hentry)
      (floodKey_ne_adminKey n)
    have := floodKey_injective heq
    omega

theorem Flooded.run_next (h : Flooded n w s) {room : Table}
    {order : List (Σ _ : Bytes, Attempt)} (hroom : evictLocked order w.now s.attempts = some room)
    (hnone : room.lookup (floodKey n) = none) :
    run (step sampleEnv) w (failedLogin w.calls.length (List.replicate (n + 1) (chr 'x')) order) =
      some (w.serving
        { s with
          verifier := ⟨0, 0, s.verifier.admitted + 1⟩
          attempts := room.insert (floodKey n) ⟨1, floodStart + second, zeroTime⟩ }
        (.login (List.replicate (n + 1) (chr 'x')) [] (ascii "ip"))
        (.done (.error .invalidCredentials))) := by
  refine run_failedLogin _ order h.service h.idle h.credentials h.free ?_ ?_
  · change ¬ w.now < (s.attempts.get .zero (floodKey n)).lockedUntil
    rw [GoMap.get, h.lookup, h.now]
    decide
  · change recordFailure order (floodKey n) w.now s.attempts = _
    rw [recordFailure, h.lookup]
    simp only [Option.isSome_none, Bool.false_eq_true, if_false, hroom, Option.map_some]
    rw [GoMap.get, hnone, h.now]
    rfl

theorem Flooded.next (h : Flooded n w s) (hn : n + 1 < maxTrackedSources) :
    ∃ w' s', run (step sampleEnv) w
        (failedLogin w.calls.length (List.replicate (n + 1) (chr 'x')) []) = some w' ∧
      w'.calls.length = w.calls.length + 1 ∧ Flooded (n + 1) w' s' := by
  have hroom : evictLocked [] w.now s.attempts = some s.attempts :=
    if_pos (by rw [h.size]; exact hn)
  refine ⟨_, _, h.run_next hroom h.lookup, by simp [World.serving], rfl, ⟨rfl, rfl⟩,
    h.credentials, ?_, h.now, ?_, ?_, ?_⟩
  · rw [noWriter, World.serving, List.all_append, Bool.and_eq_true]
    exact ⟨h.free, rfl⟩
  · exact (GoMap.size_insert_of_lookup_eq_none h.lookup _).trans (congrArg (· + 1) h.size)
  · change (s.attempts.insert _ _).lookup adminKey = _
    rw [AList.lookup_insert_ne (Ne.symm (floodKey_ne_adminKey n))]
    exact h.locked
  · intro x hx hne
    change x ∈ (s.attempts.insert _ _).entries at hx
    rw [GoMap.entries_insert, List.mem_cons, List.mem_filter] at hx
    rcases hx with rfl | ⟨hx, -⟩
    · exact ⟨⟨n, Nat.lt_succ_self n, rfl⟩, rfl⟩
    · obtain ⟨⟨m, hm, heq⟩, hvalue⟩ := h.others x hx hne
      exact ⟨⟨m, Nat.lt_succ_of_lt hm, heq⟩, hvalue⟩

end

/-- Failures under the first names, one after the other. -/
def flood (first : ℕ) : ℕ → List Event
  | 0 => []
  | n + 1 => flood first n ++ failedLogin (first + n) (List.replicate (n + 1) (chr 'x')) []

theorem Flooded.run_flood {w : World} {s : Service} (h : Flooded 0 w s) {n : ℕ}
    (hn : n < maxTrackedSources) :
    ∃ w' s', run (step sampleEnv) w (flood w.calls.length n) = some w' ∧
      w'.calls.length = w.calls.length + n ∧ Flooded n w' s' := by
  induction n with
  | zero => exact ⟨w, s, rfl, rfl, h⟩
  | succ n ih =>
    obtain ⟨u, su, hrun, hlen, hflooded⟩ := ih (Nat.lt_of_succ_lt hn)
    obtain ⟨w', s', hnext, hlen', hflooded'⟩ := hflooded.next hn
    refine ⟨w', s', ?_, by omega, hflooded'⟩
    rw [hlen] at hnext
    rw [flood, run_append hrun]
    exact hnext

theorem Flooded.live {n : ℕ} {w : World} {s : Service} (h : Flooded n w s) :
    (s.attempts.live w.now).entries = s.attempts.entries := by
  refine List.filter_eq_self.mpr ?_
  intro x hx
  by_cases hkey : x.1 = adminKey
  · have hx' : x = ⟨adminKey, ⟨5, floodStart, floodStart + 15 * minute⟩⟩ := by
      obtain ⟨k, a⟩ := x
      cases hkey
      cases (GoMap.lookup_eq_some_iff.mpr hx).symm.trans h.locked
      rfl
    rw [hx', h.now]
    decide
  · rw [(h.others x hx hkey).2, h.now]
    change (!Attempt.expired (floodStart + second) ⟨1, floodStart + second, zeroTime⟩) = true
    decide

theorem Flooded.evict {w : World} {s : Service} (h : Flooded (maxTrackedSources - 1) w s) :
    evictLocked s.attempts.entries w.now s.attempts = some (s.attempts.erase adminKey) := by
  have hlive : s.attempts.live w.now = s.attempts := AList.ext h.live
  have hfull : ¬ s.attempts.size < maxTrackedSources := by
    rw [h.size]
    decide
  have hkeys : adminKey ∈ s.attempts.entries.keys :=
    List.mem_keys_of_mem (GoMap.lookup_eq_some_iff.mp h.locked)
  have hold : oldestKey s.attempts.entries = adminKey := by
    refine oldestKey_eq (t := floodStart) (by decide) hkeys ?_ ?_
    · intro x hx hkey
      obtain ⟨k, a⟩ := x
      cases hkey
      cases (GoMap.lookup_eq_some_iff.mpr hx).symm.trans h.locked
      rfl
    · intro x hx hkey
      rw [(h.others x hx hkey).2]
      decide
  rw [evictLocked, hlive, if_neg hfull, if_neg hfull, if_pos (List.Perm.refl _), hold]

theorem Flooded.overflow {w : World} {s : Service} (h : Flooded (maxTrackedSources - 1) w s) :
    ∃ w' s', run (step sampleEnv) w (failedLogin w.calls.length
        (List.replicate maxTrackedSources (chr 'x')) s.attempts.entries) = some w' ∧
      w'.service = some s' ∧ w'.now = w.now ∧ w'.calls.length = w.calls.length + 1 ∧
      noWriter Call.writing w'.calls = true ∧ s'.attempts.lookup adminKey = none := by
  have hnone : (s.attempts.erase adminKey).lookup (floodKey (maxTrackedSources - 1)) = none := by
    rw [AList.lookup_erase_ne (floodKey_ne_adminKey _)]
    exact h.lookup
  refine ⟨_, _, h.run_next h.evict hnone, rfl, rfl, by simp [World.serving], ?_, ?_⟩
  · rw [noWriter, World.serving, List.all_append, Bool.and_eq_true]
    exact ⟨h.free, rfl⟩
  · change ((s.attempts.erase adminKey).insert _ _).lookup adminKey = none
    rw [AList.lookup_insert_ne (Ne.symm (floodKey_ne_adminKey _)), AList.lookup_erase]

/-- Five failures of the administrator after the first start. -/
def lockAdmin : List Event :=
  .new (sampleConfig adminOne) :: .boot true :: .boot true ::
    (List.range 5).flatMap fun i => failedLogin i (ascii "admin") []

/-- What the flood needs to know of a world. -/
structure Facts where
  verifier : Verifier
  credentials : Credentials
  attempts : List (Bytes × Attempt)
  free : Bool
  now : ℤ
  calls : ℕ
  deriving DecidableEq

def World.facts (w : World) : Option Facts :=
  w.service.map fun s => ⟨s.verifier, s.credentials, s.attempts.entries.map fun x => (x.1, x.2),
    noWriter Call.writing w.calls, w.now, w.calls.length⟩

theorem lockAdmin_facts :
    (run (step sampleEnv) (.new floodStart) lockAdmin).bind World.facts =
      some ⟨⟨0, 0, 5⟩, adminOne, [(adminKey, ⟨5, floodStart, floodStart + 15 * minute⟩)], true,
        floodStart, 5⟩ := by
  decide +kernel

theorem lookup_of_facts {w : World} {f : Facts} (h : w.facts = some f)
    (hattempts : f.attempts = [(adminKey, ⟨5, floodStart, floodStart + 15 * minute⟩)]) :
    ∃ s, w.service = some s ∧ f = ⟨s.verifier, s.credentials, f.attempts,
        noWriter Call.writing w.calls, w.now, w.calls.length⟩ ∧
      s.attempts.entries = [⟨adminKey, ⟨5, floodStart, floodStart + 15 * minute⟩⟩] := by
  obtain ⟨s, hs, rfl⟩ := Option.map_eq_some_iff.mp h
  refine ⟨s, hs, rfl, ?_⟩
  obtain ⟨x, hx, hpair⟩ := List.map_eq_singleton_iff.mp hattempts
  rw [hx]
  cases x
  cases hpair
  rfl

theorem lookup_of_entries {t : Table} {key : Bytes} {a : Attempt} (h : t.entries = [⟨key, a⟩]) :
    t.lookup key = some a := by
  rw [GoMap.lookup_eq_some_iff, h]
  exact List.mem_singleton_self _

theorem exists_flooded_zero : ∃ w s, run (step sampleEnv) (.new floodStart) lockAdmin = some w ∧
    w.calls.length = 5 ∧ Locked w adminKey (floodStart + 15 * minute) ∧
      Flooded 0 { w with now := w.now + 1000000000 } s := by
  obtain ⟨w, hrun, hw⟩ := Option.bind_eq_some_iff.mp lockAdmin_facts
  obtain ⟨s, hs, hfacts, hentries⟩ := lookup_of_facts hw rfl
  simp only [Facts.mk.injEq] at hfacts
  obtain ⟨hverifier, hcredentials, -, hfree, hnow, hlen⟩ := hfacts
  have hlocked := lookup_of_entries hentries
  refine ⟨w, s, hrun, hlen.symm, ⟨s, _, hs, hlocked, le_rfl⟩, hs, ?_, hcredentials.symm, hfree.symm,
    ?_, ?_, hlocked, ?_⟩
  · rw [← hverifier]
    exact ⟨rfl, rfl⟩
  · dsimp only
    rw [← hnow]
    rfl
  · rw [GoMap.size, AList.keys, hentries]
    rfl
  · intro x hx hne
    rw [hentries, List.mem_singleton] at hx
    rw [hx] at hne
    exact absurd rfl hne

/-- An attempt ends for another key, and there is room for it. -/
def sparing (w : World) : Event → Bool
  | .act i x => w.service.all fun s => (w.calls[i]?).all fun c =>
    match c.pc with
    | .reading a (.verified _) =>
      decide (a.key ≠ adminKey ∧ ¬ Evicts x.order a.now s.attempts adminKey)
    | _ => true
  | _ => true

theorem spares_of_sparing {w w' : World} {e : Event} {time : ℤ} (h : sparing w e = true) :
    Spares adminKey time w e w' := by
  rintro - i x rfl s entry c a valid hs - hc hpc
  simp only [sparing, hs, hc, hpc, Option.all_some, decide_eq_true_eq] at h
  rw [SparesEntry, if_neg h.1]
  exact fun _ _ => h.2

/-- A second later somebody else fails, and the administrator comes again. -/
def nextAttempt : List Event :=
  .tick 1000000000 :: failedLogin 5 (ascii "bob") [] ++
    .call (.login (ascii "admin") (ascii "one") (ascii "ip")) :: steps 6 1

/-- The administrator is refused at the next attempt. -/
theorem locked_refused_admin : ∃ (w w' : World) (c : Call) (a : Admission) (x : Choice),
    run (step sampleEnv) (.new floodStart) lockAdmin = some w ∧
      run (step sampleEnv) w nextAttempt = some w' ∧
      step sampleEnv (.act 6 x) w' = some { w' with
        calls := w'.calls.set 6 { c with pc := .reading a (.release (.error .rateLimited)) } } := by
  have hnext : (run (step sampleEnv) (.new floodStart) lockAdmin).any (fun w =>
      decide (Along (step sampleEnv) (fun w e _ => sparing w e = true) w nextAttempt) &&
      (run (step sampleEnv) w nextAttempt).any fun w' =>
        decide (w'.now < floodStart + 15 * minute) && (w'.calls[6]?).any fun c => decide
          (c.pc = .reading ⟨⟨adminOne, 0⟩, hour, adminKey, floodStart + second⟩ .lockout)) =
      true := by
    decide +kernel
  simp only [Option.any_eq_true, Bool.and_eq_true, decide_eq_true_eq] at hnext
  obtain ⟨w, hrun, hsparing, w', hrun', hnow, c, hc, hpc⟩ := hnext
  obtain ⟨w₁, _, hlock, -, hlocked, -⟩ := exists_flooded_zero
  cases hrun.symm.trans hlock
  have hspares : Along (step sampleEnv) (Spares adminKey (floodStart + 15 * minute)) w nextAttempt :=
    along_of_invariant (I := fun _ => True) (fun _ _ => trivial)
      (fun _ _ h => spares_of_sparing h) trivial hsparing
  have hrefused := locked_refused hrun hrun' (by decide +kernel)
  exact ⟨w, w', c, _, ⟨true, [], none⟩, hrun, hrun',
    hrefused.2 adminKey _ hlocked hspares hnow 6 c _ _ hc hpc rfl⟩

/-- **A flood unlocks.**  Five failures lock the administrator's key for fifteen minutes; within a
second as many failures under other names as the table has entries; and the next attempt is let in
to be verified. -/
theorem flood_unlocks : ∃ order w₁ w₂ w₃ a,
    run (step sampleEnv) (.new floodStart) lockAdmin = some w₁ ∧
      Locked w₁ adminKey (floodStart + 15 * minute) ∧
      run (step sampleEnv) w₁ (.tick 1000000000 :: flood 5 4095 ++
        failedLogin 4100 (List.replicate 4096 (chr 'x')) order) = some w₂ ∧
      w₂.now < floodStart + 15 * minute ∧
      run (step sampleEnv) w₂
        (.call (.login (ascii "admin") (ascii "one") (ascii "ip")) :: steps 4101 2) = some w₃ ∧
      a.key = adminKey ∧ w₃.calls[4101]? =
        some ⟨.login (ascii "admin") (ascii "one") (ascii "ip"), .reading a .enqueue⟩ := by
  obtain ⟨w₁, s₁, hlock, hlen₁, hlocked, hflooded⟩ := exists_flooded_zero
  obtain ⟨w, s, hflood, hlen, hfull⟩ := hflooded.run_flood (n := 4095) (by decide)
  have hlen' : w.calls.length = 4100 := by
    rw [hlen]
    simp only [hlen₁]
  obtain ⟨w₂, s₂, hlast, hs₂, hnow₂, hlen₂, hfree₂, hnone⟩ := hfull.overflow
  have htick : step sampleEnv (.tick 1000000000) w₁ =
      some { w₁ with now := w₁.now + 1000000000 } := rfl
  have hopen : ¬ w₂.now < (s₂.attempts.get .zero adminKey).lockedUntil := by
    rw [GoMap.get, hnone, hnow₂, hfull.now]
    decide
  have hlogin := run_login (x := ⟨true, [], some (ascii "token", ascii "csrf")⟩) (ascii "admin")
    (ascii "one") (ascii "ip") [] hs₂ hfree₂ hopen
  rw [show w₂.calls.length = 4101 by omega] at hlogin
  refine ⟨s.attempts.entries, w₁, w₂, _,
    ⟨⟨s₂.credentials, w₂.rotations⟩, s₂.ttl, adminKey, w₂.now⟩, hlock, hlocked, ?_, ?_, hlogin, rfl,
    ?_⟩
  · rw [hlen'] at hlast
    rw [List.cons_append, run, htick, Option.bind_some, ← hlast]
    refine run_append ?_ _
    rw [← hflood]
    exact congrArg (fun n => run (step sampleEnv) _ (flood n 4095)) hlen₁.symm
  · rw [hnow₂, hfull.now]
    decide
  · rw [World.serving, show 4101 = w₂.calls.length by omega, List.getElem?_concat_length]
    rfl

end Veduta.Auth
