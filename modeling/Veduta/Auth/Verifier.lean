import Mathlib.Tactic.Common
import Veduta.Lib.Transition
import Mathlib.Data.List.Count

/-!
# Admission to password verification

Package `auth`: `verify` counts its caller first and looks at the count afterwards; a caller above
the limit takes itself off again and is refused.  An admitted caller waits for one of the slots, and
gives it back in a deferred call, so also when its verification panics.
-/

namespace Veduta.Auth.Verify

open Lib

/-- Where a call of `verify` stands.  A verification returns, or panics (`none`). -/
inductive Stage where
  | entered
  | refused
  | queued
  | running
  | leaving (result : Option Bool)
  | busy
  | ended (result : Option Bool)
  deriving DecidableEq

structure Call where
  stage : Stage
  ran : Bool
  deriving DecidableEq

/-- The slots that are taken, the atomic counter, and the calls. -/
structure Pool where
  slots : ℕ
  waiting : ℤ
  calls : List Call
  deriving DecidableEq

def Pool.new : Pool := ⟨0, 0, []⟩

/-- A call begins, or takes its next step; what its verification does is part of the event. -/
inductive Event where
  | call
  | act (i : ℕ) (result : Option Bool)

variable (c q : ℕ)

/-- **`verify`**, one atomic step; a send to the channel waits for a free slot. -/
def step (e : Event) (p : Pool) : Option Pool :=
  match e with
  | .call => some { p with calls := p.calls ++ [⟨.entered, false⟩] }
  | .act i result => do
    let call ← p.calls[i]?
    let next (stage : Stage) : List Call := p.calls.set i { call with stage }
    match call.stage with
    | .entered =>
      let stage := if p.waiting + 1 > q + c then .refused else .queued
      some { p with waiting := p.waiting + 1, calls := next stage }
    | .refused => some { p with waiting := p.waiting - 1, calls := next .busy }
    | .queued =>
      if p.slots < c then
        some { p with slots := p.slots + 1, calls := p.calls.set i ⟨.running, true⟩ }
      else none
    | .running => some { p with slots := p.slots - 1, calls := next (.leaving result) }
    | .leaving result => some { p with waiting := p.waiting - 1, calls := next (.ended result) }
    | .busy | .ended _ => none

/-! ## Counting -/

namespace Call

/-- The call is past its increment, and has not taken it back. -/
def counted (x : Call) : Bool :=
  match x.stage with
  | .refused | .queued | .running | .leaving _ => true
  | _ => false

/-- The call was not refused, and has not returned. -/
def admitted (x : Call) : Bool := x.counted && x.stage ≠ .refused

def verifying (x : Call) : Bool := x.stage = .running

def began (x : Call) : Bool :=
  match x.stage with
  | .running | .leaving _ | .ended _ => true
  | _ => false

def finished (x : Call) : Bool :=
  match x.stage with
  | .busy | .ended _ => true
  | _ => false

end Call

structure Sound (p : Pool) : Prop where
  waiting : p.waiting = p.calls.countP Call.counted
  slots : p.slots = p.calls.countP Call.verifying
  slots_le : p.slots ≤ c
  admitted_le : p.calls.countP Call.admitted ≤ c + q
  ran : ∀ x ∈ p.calls, x.ran = true → x.began = true

variable {c q} {p p' : Pool} {e : Event} {i : ℕ} {x : Call}

theorem countP_set (f : Call → Bool) (hx : p.calls[i]? = some x) (y : Call) :
    ((p.calls.set i y).countP f : ℤ) =
      p.calls.countP f - (if f x then 1 else 0) + if f y then 1 else 0 := by
  obtain ⟨hlt, rfl⟩ := List.getElem?_eq_some_iff.mp hx
  rw [List.countP_set hlt]
  by_cases hf : f p.calls[i] = true
  · have hpos := List.countP_pos_iff.mpr ⟨_, List.getElem_mem hlt, hf⟩
    rw [if_pos hf, if_pos hf]
    split_ifs <;> omega
  · rw [if_neg hf, if_neg hf]
    split_ifs <;> omega

theorem Sound.set (h : Sound c q p) (hx : p.calls[i]? = some x) (y : Call) {slots : ℕ}
    {waiting : ℤ}
    (hwaiting : waiting = p.waiting - (if x.counted then 1 else 0) + if y.counted then 1 else 0)
    (hslots : (slots : ℤ) =
      p.slots - (if x.verifying then 1 else 0) + if y.verifying then 1 else 0)
    (hle : slots ≤ c) (hadmitted : y.admitted = true → x.admitted = true ∨ p.waiting + 1 ≤ q + c)
    (hran : y.ran = true → y.began = true) : Sound c q ⟨slots, waiting, p.calls.set i y⟩ := by
  have hcounted : p.calls.countP Call.admitted ≤ p.calls.countP Call.counted :=
    List.countP_mono_left fun _ _ h => (Bool.and_eq_true_iff.mp h).1
  have hbefore := h.waiting
  have hadm := h.admitted_le
  refine ⟨?_, ?_, hle, ?_, fun z hz => ?_⟩
  · rw [hwaiting, countP_set _ hx, h.waiting]
  · have := countP_set Call.verifying hx y
    have := h.slots
    dsimp only
    omega
  · have hset := countP_set Call.admitted hx y
    dsimp only
    split_ifs at hset with hx' hy hy
    · omega
    · omega
    · have := (hadmitted hy).resolve_left hx'
      omega
    · omega
  · rcases List.mem_or_eq_of_mem_set hz with hz | rfl
    · exact h.ran z hz
    · exact hran

/-- **A step keeps the counters exact.** -/
theorem Sound.step (h : Sound c q p) (hstep : step c q e p = some p') : Sound c q p' := by
  cases e with
  | call =>
    cases hstep
    refine ⟨?_, ?_, h.slots_le, ?_, ?_⟩
    · simp [h.waiting, Call.counted]
    · simp [h.slots, Call.verifying]
    · simpa [Call.admitted, Call.counted] using h.admitted_le
    · intro x hx
      rcases List.mem_append.mp hx with hx | hx
      · exact h.ran x hx
      · simp_all
  | act i result =>
    obtain ⟨⟨stage, ran⟩, hx, hact⟩ := Option.bind_eq_some_iff.mp hstep
    have hran := h.ran _ (List.mem_of_getElem? hx)
    have hle := h.slots_le
    cases stage with
    | entered =>
      cases hact
      by_cases hlimit : p.waiting + 1 > q + c
      · rw [if_pos hlimit]
        apply h.set hx <;> simp_all [Call.counted, Call.verifying, Call.admitted, Call.began]
      · rw [if_neg hlimit]
        apply h.set hx <;> simp_all [Call.counted, Call.verifying, Call.admitted, Call.began]
    | refused | leaving =>
      cases hact
      apply h.set hx <;> simp_all [Call.counted, Call.verifying, Call.admitted, Call.began]
    | queued =>
      dsimp only at hact
      split_ifs at hact with hfree
      cases hact
      have hroom : p.slots + 1 ≤ c := hfree
      apply h.set hx <;> simp_all [Call.counted, Call.verifying, Call.admitted, Call.began]
    | running =>
      cases hact
      have hpos : 0 < p.slots :=
        h.slots ▸ List.countP_pos_iff.mpr ⟨_, List.mem_of_getElem? hx, rfl⟩
      apply h.set hx <;> simp [Call.counted, Call.verifying, Call.admitted, Call.began]
      all_goals omega
    | busy | ended => cases hact

/-- **Admission is bounded** over every interleaving of calls. -/
theorem admission_bounded {es : List Event} (hrun : run (step c q) .new es = some p) :
    p.calls.countP Call.verifying ≤ c ∧ p.calls.countP Call.admitted ≤ c + q ∧
      (∀ x ∈ p.calls, x.stage = .busy → x.ran = false) ∧
      (p.calls.all Call.finished = true → p.waiting = 0 ∧ p.slots = 0) := by
  have hnew : Sound c q .new := ⟨rfl, rfl, Nat.zero_le _, Nat.zero_le _, nofun⟩
  have h := invariant_run Sound.step hnew hrun
  refine ⟨h.slots ▸ h.slots_le, h.admitted_le, fun x hx hbusy => ?_, fun hover => ?_⟩
  · by_contra hran
    have hbegan := h.ran x hx (Bool.not_eq_false _ ▸ hran)
    simp [Call.began, hbusy] at hbegan
  · have hnone : ∀ f : Call → Bool, (∀ x, x.finished = true → f x = false) →
        p.calls.countP f = 0 := by
      intro f hf
      refine List.countP_eq_zero.mpr fun x hx => ?_
      simp [hf x (List.all_eq_true.mp hover x hx)]
    rw [h.waiting, h.slots, hnone, hnone]
    · simp
    all_goals
      rintro ⟨stage, ran⟩ hx
      cases stage <;> first | rfl | cases hx

/-- One slot and no queue: the second caller is refused, the verification of the first panics. -/
theorem admission_bounded_panic :
    run (step 1 0) .new [.call, .call, .act 0 none, .act 1 none, .act 0 none, .act 1 none,
        .act 0 none, .act 0 none] = some ⟨0, 0, [⟨.ended none, true⟩, ⟨.busy, false⟩]⟩ ∧
      ([⟨.ended none, true⟩, ⟨.busy, false⟩] : List Call).countP Call.admitted ≤ 1 + 0 := by
  refine ⟨?run, (admission_bounded ?run).2.1⟩
  decide

end Veduta.Auth.Verify
