import Veduta.Scheduler.Flight
import Veduta.Scheduler.Restore

/-!
# The loops of cards

An `Apply` starts one loop for each card, and a loop goes on with one call at a time: it refreshes,
sleeps and wakes up to a new call.  The calls of the current generation are those of the current
definitions.
-/

namespace Veduta.Scheduler

open Go State Storage Secrets Lib

variable {R : Type}
variable {w w' : World R} {c c' : Call R} {e : Event R} {i k j : ℕ} {p : Prepared R}
  {a : Applying R}

/-- The map holds each definition under its id. -/
def Keyed (defs : GoMap Bytes (Definition R)) : Prop :=
  ∀ id d, defs.lookup id = some d → d.id = id

/-- The call is one of a loop that goes on with it. -/
def Call.awake (c : Call R) : Prop := c.scheduled = true ∧ c.pc ≠ .woken

/-- The definitions belong to one loop. -/
def SameLoop (d d' : Definition R) : Prop := d.id = d'.id ∧ d.generation = d'.generation

/-- A loop goes on with one call at a time. -/
def Alone (calls : List (Call R)) : Prop :=
  ∀ {i j : ℕ} {c c' : Call R}, calls[i]? = some c → calls[j]? = some c' → c.awake → c'.awake →
    SameLoop c.d c'.d → i = j

/-- What holds of the loops of a reachable world. -/
structure Loops (w : World R) : Prop where
  current : Current w.manager
  keyed : Keyed w.manager.defs
  prepared : ∀ {i : ℕ} {a : Applying R}, w.applies[i]? = some a → Keyed a.prepared.defs
  generation : ∀ {i : ℕ} {c : Call R}, w.calls[i]? = some c →
    c.d.generation ≤ w.manager.generation
  own : ∀ {i : ℕ} {c : Call R}, w.calls[i]? = some c → c.d.generation = w.manager.generation →
    w.manager.defs.lookup c.d.id = some c.d
  sleeping : ∀ {i : ℕ} {c : Call R} {t : ℤ}, w.calls[i]? = some c → c.pc = .sleeping t →
    c.scheduled = true
  alone : Alone w.calls

theorem keyed_empty : Keyed (∅ : GoMap Bytes (Definition R)) := by
  intro id d h
  cases h

theorem loops_new (store : Option Store) (secrets : Option Registry) (now : ℤ) :
    Loops (World.new store secrets now : World R) where
  current := current_new store secrets
  keyed := keyed_empty
  prepared h := by simp [World.new] at h
  generation h := by simp [World.new] at h
  own h := by simp [World.new] at h
  sleeping h := by simp [World.new] at h
  alone h := by simp [World.new] at h

theorem keyed_add (h : Keyed p.defs) (d : Definition R) : Keyed (p.add d).defs := by
  intro id d' hd'
  rw [Prepared.add] at hd'
  rcases GoMap.lookup_of_insert hd' with ⟨rfl, rfl⟩ | hold
  · rfl
  · exact h id d' hold

theorem keyed_swap (h : Keyed p.defs) (m : Manager R) : Keyed (m.swap p).defs := by
  intro id d hd
  obtain ⟨d', hd', rfl⟩ := lookup_swap hd
  exact h id d' hd'

theorem keyed_read (h : Keyed a.prepared.defs) (secrets : Option Registry) (now : ℤ)
    (store : Option Store) (d : Definition R) (todo : List (Definition R)) (readable : Bool) :
    Keyed (a.read secrets now store d todo readable).prepared.defs := by
  unfold Applying.read
  split
  · exact h
  · rename_i p hp
    obtain ⟨-, rfl⟩ := accept_eq_ok hp
    have hadd : Keyed (a.prepared.add d.withDefaults).defs := keyed_add h _
    split
    · exact hadd
    · split_ifs
      · split
        · exact hadd
        · split_ifs
          · exact hadd
          · split
            · exact h
            · rw [defs_found]
              exact hadd
      · exact h

theorem Acted.scheduled {now : ℤ} {m m' : Manager R} {a : Action} (h : Acted now m c a m' c') :
    c'.scheduled = c.scheduled ∧ c.pc ≠ .woken := by
  cases h with
  | check hpc =>
    refine ⟨?_, by rw [hpc]; simp⟩
    rw [Scheduler.check]
    split_ifs <;> rfl
  | _ => exact ⟨rfl, by simp_all⟩

theorem Rests.awake (h : Rests c c') (hawake : c'.awake) : c.awake := by
  refine ⟨h.scheduled ▸ hawake.1, fun hpc => ?_⟩
  rcases h.pc with heq | ⟨-, hwoken⟩
  · exact hawake.2 (heq.trans hpc)
  · exact hawake.2 hwoken

theorem ne_of_length {calls calls' : List (Call R)} (hi : calls.length ≤ i)
    (hlen : calls'.length = calls.length) : calls'[i]? ≠ some c := by
  rw [List.getElem?_eq_none (hlen ▸ hi)]
  simp

/-- Where the new calls of loops come from: a loop wakes up, or it is started. -/
theorem new_of_step (h : step e w = some w') (hi : w.calls.length ≤ i) (hc : w'.calls[i]? = some c)
    (hcall : c.scheduled = true) :
    (∃ j x t, e = .wake j ∧ w.calls[j]? = some x ∧ x.pc = .sleeping t ∧ t ≤ w.now ∧
      c = .start x.d true x.ctx ∧ i = w.calls.length) ∨
    ∃ j a x, e = .swap j ∧ w.applies[j]? = some a ∧ w'.manager = w.manager.swap a.prepared ∧
      w'.manager.defs.entries[i - w.calls.length]? = some x ∧ c = .start x.2 true none := by
  have hlast : ∀ {calls : List (Call R)} {x : Call R}, calls.length = w.calls.length →
      (calls ++ [x])[i]? = some c → c = x ∧ i = w.calls.length := by
    intro calls x hlen hget
    rw [List.getElem?_append_right (by omega), List.getElem?_singleton] at hget
    split_ifs at hget with hzero
    cases hget
    exact ⟨rfl, by omega⟩
  cases stepped_of_step h with
  | refresh | refreshNow =>
    obtain ⟨rfl, -⟩ := hlast rfl hc
    cases hcall
  | cancel hx hmanual hctx => exact absurd hc (ne_of_length hi (by simp [World.setCall]))
  | wake hx hpc hdue =>
    obtain ⟨rfl, hlen⟩ := hlast (by simp [World.setCall]) hc
    exact .inl ⟨_, _, _, rfl, hx, hpc, hdue, rfl, hlen⟩
  | act | close => exact absurd hc (ne_of_length hi (by simp))
  | swap ha hphase htodo =>
    rw [World.swap] at hc
    simp only [World.setApply] at hc
    rw [List.getElem?_append_right (by simpa using hi), List.getElem?_map, List.length_map] at hc
    obtain ⟨x, hx, rfl⟩ := Option.map_eq_some_iff.mp hc
    exact .inr ⟨_, _, x, rfl, ha, rfl, hx, rfl⟩
  | _ => exact absurd hc (ne_of_length hi rfl)

/-- A loop that wakes up goes on with the new call only. -/
theorem alone_wake (h : Loops w) (hstep : step (.wake k) w = some w')
    (hgoes : Goes w.calls w'.calls) (hi : w.calls.length ≤ i) (hc : w'.calls[i]? = some c)
    (hc' : w'.calls[j]? = some c') (hawake : c.awake) (hawake' : c'.awake)
    (hsame : SameLoop c.d c'.d) : i = j := by
  rcases new_of_step hstep hi hc hawake.1 with
    ⟨_, x, t, he, hx, hpc, -, rfl, rfl⟩ | ⟨_, _, _, he, _⟩
  · cases he
    rcases hgoes.new hc' with ⟨x', hx', hrests⟩ | ⟨hj, -⟩
    · -- the old call of the loop is the one that woke up, and no longer awake
      have hxawake : x.awake := ⟨h.sleeping hx hpc, by rw [hpc]; simp⟩
      have hkj := h.alone hx hx' hxawake (hrests.awake hawake') (hrests.d ▸ hsame)
      subst hkj
      cases stepped_of_step hstep with
      | wake hx₀ hpc₀ hdue =>
        have hlt := (List.getElem?_eq_some_iff.mp hx₀).1
        rw [World.start, World.setCall] at hc'
        simp only at hc'
        rw [List.getElem?_append_left (by simpa using hlt), List.getElem?_set_self hlt] at hc'
        cases hc'
        exact absurd rfl hawake'.2
    · rcases new_of_step hstep hj hc' hawake'.1 with
        ⟨_, _, _, _, _, _, _, _, rfl⟩ | ⟨_, _, _, he, _⟩
      · rfl
      · cases he
  · cases he

/-- A swap starts one loop for each card, of a generation of their own. -/
theorem alone_swap (h : Loops w) (hstep : step (.swap k) w = some w')
    (hgoes : Goes w.calls w'.calls) (hi : w.calls.length ≤ i) (hc : w'.calls[i]? = some c)
    (hc' : w'.calls[j]? = some c') (hawake : c.awake) (hawake' : c'.awake)
    (hsame : SameLoop c.d c'.d) : i = j := by
  rcases new_of_step hstep hi hc hawake.1 with
    ⟨_, _, _, he, _⟩ | ⟨_, a, y, he, ha, hswap, hy, rfl⟩
  · cases he
  · have hkeyed : Keyed w'.manager.defs := hswap ▸ keyed_swap (h.prepared ha) w.manager
    have hcur : Current w'.manager := hswap ▸ current_swap w.manager a.prepared
    have hgen : w'.manager.generation = w.manager.generation + 1 := by rw [hswap]; rfl
    have hof : ∀ {n : ℕ} {z}, w'.manager.defs.entries[n]? = some z →
        z.2.id = z.1 ∧ z.2.generation = w.manager.generation + 1 := by
      intro n z hz
      have hlookup := GoMap.lookup_eq_some_iff.mpr (List.mem_of_getElem? hz)
      exact ⟨hkeyed _ _ hlookup, (hcur _ _ hlookup).trans hgen⟩
    rcases hgoes.new hc' with ⟨x', hx', hrests⟩ | ⟨hj, -⟩
    · have hle := h.generation hx'
      have heq : y.2.generation = x'.d.generation := hsame.2.trans (by rw [hrests.d])
      have := (hof hy).2
      omega
    · rcases new_of_step hstep hj hc' hawake'.1 with
        ⟨_, _, _, he, _⟩ | ⟨_, _, z, -, -, -, hz, rfl⟩
      · cases he
      · have hkey : y.1 = z.1 := (hof hy).1.symm.trans (hsame.1.trans (hof hz).1)
        have hkeys : w'.manager.defs.keys[i - w.calls.length]? =
            w'.manager.defs.keys[j - w.calls.length]? := by
          rw [AList.keys, List.keys, List.getElem?_map, List.getElem?_map, hy, hz]
          simp [hkey]
        have hlt : i - w.calls.length < w'.manager.defs.keys.length := by
          rw [AList.keys, List.keys, List.length_map]
          exact (List.getElem?_eq_some_iff.mp hy).1
        have := (List.getElem?_inj hlt (AList.keys_nodup _)).mp hkeys
        omega

theorem alone_rest (h : Loops w) (hstep : step e w = some w') (hgoes : Goes w.calls w'.calls) :
    Alone w'.calls := by
  have hnew : ∀ {i j : ℕ} {c c' : Call R}, w.calls.length ≤ i → w'.calls[i]? = some c →
      w'.calls[j]? = some c' → c.awake → c'.awake → SameLoop c.d c'.d → i = j := by
    intro i j c c' hi hc hc' hawake hawake' hsame
    rcases new_of_step hstep hi hc hawake.1 with ⟨_, _, _, rfl, _⟩ | ⟨_, _, _, rfl, _⟩
    · exact alone_wake h hstep hgoes hi hc hc' hawake hawake' hsame
    · exact alone_swap h hstep hgoes hi hc hc' hawake hawake' hsame
  intro i j c c' hc hc' hawake hawake' hsame
  rcases hgoes.new hc with ⟨x, hx, hrests⟩ | ⟨hi, -⟩
  · rcases hgoes.new hc' with ⟨x', hx', hrests'⟩ | ⟨hj, -⟩
    · rw [hrests.d, hrests'.d] at hsame
      exact h.alone hx hx' (hrests.awake hawake) (hrests'.awake hawake') hsame
    · exact (hnew hj hc' hc hawake' hawake ⟨hsame.1.symm, hsame.2.symm⟩).symm
  · exact hnew hi hc hc' hawake hawake' hsame

theorem loops_act (h : Loops w) {a : Action} {m' : Manager R} (hc : w.calls[i]? = some c)
    (hacted : Acted w.now w.manager c a m' c') :
    Loops { w with manager := m', calls := w.calls.set i c' } where
  current := by
    intro id d hd
    rw [hacted.defs.1] at hd
    exact (h.current id d hd).trans hacted.defs.2.symm
  keyed := by
    rw [hacted.defs.1]
    exact h.keyed
  prepared := h.prepared
  generation := by
    intro j x hx
    rw [hacted.defs.2]
    rcases getElem?_set_cases hx with ⟨-, rfl⟩ | ⟨-, hx⟩
    · rw [hacted.d]
      exact h.generation hc
    · exact h.generation hx
  own := by
    intro j x hx hgen
    rw [hacted.defs.2] at hgen
    rw [hacted.defs.1]
    rcases getElem?_set_cases hx with ⟨-, rfl⟩ | ⟨-, hx⟩
    · rw [hacted.d] at hgen ⊢
      exact h.own hc hgen
    · exact h.own hx hgen
  sleeping := by
    intro j x t hx hpc
    rcases getElem?_set_cases hx with ⟨-, rfl⟩ | ⟨-, hx⟩
    · cases hacted with
      | sleep hpc' hcall hresult => exact hcall
      | check hpc' =>
        rw [Scheduler.check] at hpc
        split_ifs at hpc <;> cases hpc
      | fail hpc' hout heval =>
        simp only [failedPc] at hpc
        split_ifs at hpc
      | _ => cases hpc
    · exact h.sleeping hx hpc
  alone := by
    -- a call after the action is one before it of the same loop
    have hback : ∀ {j : ℕ} {x : Call R}, (w.calls.set i c')[j]? = some x → x.awake →
        ∃ y, w.calls[j]? = some y ∧ y.awake ∧ y.d = x.d := by
      intro j x hx hawake
      rcases getElem?_set_cases hx with ⟨rfl, rfl⟩ | ⟨-, hx⟩
      · obtain ⟨hcall, hpc⟩ := hacted.scheduled
        exact ⟨c, hc, ⟨hcall ▸ hawake.1, hpc⟩, hacted.d.symm⟩
      · exact ⟨x, hx, hawake, rfl⟩
    intro j k x x' hx hx' hawake hawake' hsame
    obtain ⟨y, hy, hyawake, hyd⟩ := hback hx hawake
    obtain ⟨y', hy', hyawake', hyd'⟩ := hback hx' hawake'
    rw [← hyd, ← hyd'] at hsame
    exact h.alone hy hy' hyawake hyawake' hsame

/-- What reading a row keeps of the maps of an `Apply` holds of them after every step. -/
theorem prepared_of_step {P : Prepared R → Prop}
    (h : ∀ {i : ℕ} {a : Applying R}, w.applies[i]? = some a → P a.prepared) (hempty : P .empty)
    (hread : ∀ {i : ℕ} {a : Applying R} {d : Definition R} {todo : List (Definition R)}
      {readable : Bool}, e = .read i readable → w.applies[i]? = some a → a.todo = d :: todo →
      P (a.read w.manager.secrets w.now w.manager.store d todo readable).prepared)
    (hstep : step e w = some w') (ha : w'.applies[i]? = some a) : P a.prepared := by
  have hset : ∀ {i j : ℕ} {a b : Applying R}, (w.applies.set i a)[j]? = some b →
      P a.prepared → P b.prepared := by
    intro i j a b hb ha
    rcases getElem?_set_cases hb with ⟨-, rfl⟩ | ⟨-, hb⟩
    · exact ha
    · exact h hb
  cases stepped_of_step hstep with
  | apply defs =>
    rcases List.mem_append.mp (List.mem_of_getElem? ha) with hmem | hmem
    · obtain ⟨j, hj⟩ := List.getElem?_of_mem hmem
      exact h hj
    · rw [List.mem_singleton] at hmem
      subst hmem
      exact hempty
  | read hb hphase htodo => exact hset ha (hread rfl hb htodo)
  | delete hb | deleteFailed hb | swap hb =>
    have hprepared := h hb
    exact hset ha hprepared
  | _ => exact h ha

theorem keyed_step (h : Loops w) (hstep : step e w = some w') (hact : ∀ i a, e ≠ .act i a) :
    Keyed w'.manager.defs := by
  cases stepped_of_step hstep with
  | act hc hacted => exact absurd rfl (hact _ _)
  | swap ha hphase htodo => exact keyed_swap (h.prepared ha) _
  | _ => exact h.keyed

theorem generation_of_step (hstep : step e w = some w') :
    w.manager.generation ≤ w'.manager.generation := by
  rcases act_or_rest hstep with ⟨i, a, c, m', c', rfl, -, hacted, rfl⟩ | ⟨-, hrest⟩
  · exact hacted.defs.2.ge
  · rcases hrest.defs with ⟨-, hgen⟩ | ⟨p, hswap⟩
    · exact hgen.ge
    · rw [hswap]
      exact Nat.le_succ _

/-- A new call that is no loop's is one of a current definition, and no definition changes. -/
theorem lookup_of_step (h : step e w = some w') (hi : w.calls.length ≤ i)
    (hc : w'.calls[i]? = some c) (hcall : c.scheduled = false) :
    w'.manager.defs = w.manager.defs ∧ ∃ id, w.manager.defs.lookup id = some c.d := by
  have hmem : ∀ {calls new : List (Call R)}, calls.length = w.calls.length →
      (calls ++ new)[i]? = some c → c ∈ new := by
    intro calls new hlen hget
    rw [List.getElem?_append_right (by omega)] at hget
    exact List.mem_of_getElem? hget
  cases stepped_of_step h with
  | refresh hid | refreshNow hid =>
    cases List.mem_singleton.mp (hmem rfl hc)
    exact ⟨rfl, _, hid⟩
  | cancel hx hmanual hctx => exact absurd hc (ne_of_length hi (by simp [World.setCall]))
  | wake hx hpc hdue =>
    cases List.mem_singleton.mp (hmem (by simp [World.setCall]) hc)
    cases hcall
  | act | close => exact absurd hc (ne_of_length hi (by simp))
  | swap ha hphase htodo =>
    obtain ⟨x, -, rfl⟩ := List.mem_map.mp (hmem (by simp [World.setApply]) hc)
    cases hcall
  | _ => exact absurd hc (ne_of_length hi rfl)

/-- The calls that are not superseded are those of the current definitions. -/
theorem own_rest (h : Loops w) (hstep : step e w = some w') (hact : ∀ i a, e ≠ .act i a)
    (hc : w'.calls[i]? = some c) :
    c.d.generation ≤ w'.manager.generation ∧
      (c.d.generation = w'.manager.generation → w'.manager.defs.lookup c.d.id = some c.d) := by
  have hrest := rest_of_step hstep hact
  have hcur := current_step h.current hstep
  have hkeyed := keyed_step h hstep hact
  -- a definition of the manager is the current one
  have hdef : ∀ {id : Bytes} {d : Definition R}, w'.manager.defs.lookup id = some d →
      d.generation ≤ w'.manager.generation ∧
        (d.generation = w'.manager.generation → w'.manager.defs.lookup d.id = some d) :=
    fun {id d} hd => ⟨(hcur id d hd).le, fun _ => (hkeyed id d hd).symm ▸ hd⟩
  -- an old call is one still, unless a swap has replaced its generation
  have hold : ∀ {d : Definition R}, d.generation ≤ w.manager.generation →
      (d.generation = w.manager.generation → w.manager.defs.lookup d.id = some d) →
      d.generation ≤ w'.manager.generation ∧
        (d.generation = w'.manager.generation → w'.manager.defs.lookup d.id = some d) := by
    intro d hle hown
    refine ⟨hle.trans (generation_of_step hstep), fun hgen => ?_⟩
    rcases hrest.defs with ⟨hdefs, hsame⟩ | ⟨p, hswap⟩
    · rw [hdefs]
      exact hown (hgen.trans hsame)
    · have hnext : w'.manager.generation = w.manager.generation + 1 := by rw [hswap]; rfl
      omega
  rcases hrest.calls.new hc with ⟨x, hx, hrests⟩ | ⟨hi, d, scheduled, ctx, rfl⟩
  · rw [hrests.d]
    exact hold (h.generation hx) (h.own hx)
  · cases scheduled with
    | false =>
      obtain ⟨hdefs, id, hid⟩ := lookup_of_step hstep hi hc rfl
      exact hdef (hdefs ▸ hid)
    | true =>
      rcases new_of_step hstep hi hc rfl with
        ⟨_, x, _, -, hx, -, -, heq, -⟩ | ⟨_, _, x, -, -, -, hx, heq⟩
      · cases heq
        have hle := h.generation hx
        have hown := h.own hx
        exact hold hle hown
      · cases heq
        exact hdef (GoMap.lookup_eq_some_iff.mpr (List.mem_of_getElem? hx))

/-- **A step leaves every loop one call.** -/
theorem loops_step (h : Loops w) (hstep : step e w = some w') : Loops w' := by
  rcases act_or_rest hstep with ⟨i, a, c, m', c', rfl, hc, hacted, rfl⟩ | ⟨hother, hrest⟩
  · exact loops_act h hc hacted
  · have hgoes := hrest.calls
    refine ⟨current_step h.current hstep, keyed_step h hstep hother,
      prepared_of_step (P := fun p => Keyed p.defs) h.prepared keyed_empty
        (fun _ ha _ => keyed_read (h.prepared ha) _ _ _ _ _ _) hstep,
      fun hc => (own_rest h hstep hother hc).1, fun hc => (own_rest h hstep hother hc).2, ?_,
      alone_rest h hstep hgoes⟩
    intro i c t hc hpc
    obtain ⟨x, hx, hrests, heq⟩ := hgoes.of_pc hc (by simp [hpc]) (by simp [hpc])
    rw [hrests.scheduled]
    exact h.sleeping hx (heq ▸ hpc)

/-- **One loop for each card.**  In every run, a refresh of the current generation is one of the
manager's definition of its card, and the loop of a card has one call at a time. -/
theorem one_loop_per_card {store : Option Store} {secrets : Option Registry} {now : ℤ}
    {es : List (Event R)} (hrun : run step (World.new store secrets now) es = some w) :
    (∀ (i : ℕ) c, w.calls[i]? = some c → c.d.generation = w.manager.generation →
        w.manager.defs.lookup c.d.id = some c.d) ∧ Alone w.calls :=
  have h := invariant_run loops_step (loops_new store secrets now) hrun
  ⟨fun _ _ => h.own, h.alone⟩

theorem one_loop_per_card_sharedRun :
    ∃ w : World Unit, run step (World.new none none zeroTime) (sharedRun.take 15) = some w ∧
      Alone w.calls := by
  refine (Option.isSome_iff_exists.mp ?_).imp fun _ hw => ⟨hw, (one_loop_per_card hw).2⟩
  decide +kernel

end Veduta.Scheduler
