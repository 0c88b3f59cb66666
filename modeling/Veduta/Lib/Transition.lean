import Mathlib.Tactic.TypeStar
import Mathlib.Data.Int.Notation
import Mathlib.Data.Nat.Notation

/-!
# Runs of a transition system

A system whose steps are labelled by events: `step e w` is the state after the event, or
`none` if the event cannot happen.  A run is a list of events; what the environment chooses
is part of the event, so the step itself is a function.

## Main definitions

* `run` — the state after a list of events.
* `Along` — a property of every step of a run.
* `invariant_run` — what every step preserves holds after every run.
* `along_of_invariant`, `along_iff` — a condition on every step, from an invariant and one step.
* `of_run` — what can only hold at the end if it held before.
* `trace` — what the steps of a run leave behind; `invariant_trace`.
* `total` — the sum of a quantity over the steps of a run; `total_eq`, `total_le` for a potential.
-/

namespace Veduta.Lib

variable {W E : Type*} (step : E → W → Option W)

/-- The state after a list of events. -/
def run : W → List E → Option W
  | w, [] => some w
  | w, e :: es => (step e w).bind fun w' => run w' es

/-- Every step of the run has the property. -/
def Along (P : W → E → W → Prop) : W → List E → Prop
  | _, [] => True
  | w, e :: es => ∀ w', step e w = some w' → P w e w' ∧ Along P w' es

/-- Along a given run, a property that can be decided can be. -/
instance decidableAlong {P : W → E → W → Prop} [∀ w e w', Decidable (P w e w')] :
    (w : W) → (es : List E) → Decidable (Along step P w es)
  | _, [] => .isTrue trivial
  | w, e :: es =>
    match h : step e w with
    | none => .isTrue fun w' hw' => by rw [h] at hw'; cases hw'
    | some u =>
      have : Decidable (Along step P u es) := decidableAlong u es
      decidable_of_iff (P w e u ∧ Along step P u es) <| by
        constructor
        · intro hu w' hw'
          rw [h] at hw'
          cases hw'
          exact hu
        · intro hall
          exact hall u h

/-- The sum of a quantity over the steps of a run. -/
def total (g : W → E → W → ℤ) : W → List E → ℤ
  | _, [] => 0
  | w, e :: es =>
    match step e w with
    | none => 0
    | some w' => g w e w' + total g w' es

/-- What the steps of a run leave behind, in order. -/
def trace {α : Type*} (f : W → E → Option α) : W → List E → List α
  | _, [] => []
  | w, e :: es =>
    match step e w with
    | none => []
    | some w' => (f w e).toList ++ trace f w' es

variable {step}
variable {w w' u : W} {es : List E} {I K : W → Prop} {P C : W → E → W → Prop} {e : E}
  {g : W → E → W → ℤ} {S : E → Prop} {φ : W → ℤ}

theorem run_cons (h : run step w (e :: es) = some w') :
    ∃ u, step e w = some u ∧ run step u es = some w' :=
  Option.bind_eq_some_iff.mp h

theorem run_append (h : run step w es = some u) (es' : List E) :
    run step w (es ++ es') = run step u es' := by
  induction es generalizing w with
  | nil => cases h; rfl
  | cons e es ih =>
    obtain ⟨v, hv, hrun⟩ := run_cons h
    rw [List.cons_append, run, hv]
    exact ih hrun

theorem run_concat (h : run step w (es ++ [e]) = some w') :
    ∃ u, run step w es = some u ∧ step e u = some w' := by
  induction es generalizing w with
  | nil =>
    obtain ⟨u, hu, hrun⟩ := run_cons h
    cases hrun
    exact ⟨w, rfl, hu⟩
  | cons e₀ es ih =>
    obtain ⟨v, hv, hrun⟩ := run_cons h
    obtain ⟨u, hu, hlast⟩ := ih hrun
    exact ⟨u, by rw [run, hv]; exact hu, hlast⟩

theorem total_cons (es : List E) (h : step e w = some u) :
    total step g w (e :: es) = g w e u + total step g u es := by
  rw [total, h]

theorem Along.next {u' : W} (h : Along step P w (es ++ [e])) (hrun : run step w es = some u)
    (hu : step e u = some u') : P u e u' := by
  induction es generalizing w with
  | nil =>
    cases hrun
    exact (h u' hu).1
  | cons e₀ es ih =>
    obtain ⟨v, hv, hrun⟩ := run_cons hrun
    exact ih (h v hv).2 hrun

theorem invariant_run (hstep : ∀ {w e w'}, I w → step e w = some w' → I w') (h : I w)
    (hrun : run step w es = some w') : I w' := by
  induction es generalizing w with
  | nil => cases hrun; exact h
  | cons e es ih =>
    obtain ⟨u, hu, hrun⟩ := run_cons hrun
    exact ih (hstep h hu) hrun

theorem invariant_run_along (hstep : ∀ {w e w'}, I w → step e w = some w' → C w e w' → I w')
    (h : I w) (hC : Along step C w es) (hrun : run step w es = some w') : I w' := by
  induction es generalizing w with
  | nil => cases hrun; exact h
  | cons e es ih =>
    obtain ⟨u, hu, hrun⟩ := run_cons hrun
    obtain ⟨hCu, hC⟩ := hC u hu
    exact ih (hstep h hu hCu) hC hrun

theorem along_true (w : W) (es : List E) : Along step (fun _ _ _ => True) w es := by
  induction es generalizing w with
  | nil => trivial
  | cons e es ih => exact fun u _ => ⟨trivial, ih u⟩

theorem Along.and_mem (h : Along step P w es) (hS : ∀ e ∈ es, S e) :
    Along step (fun w e w' => P w e w' ∧ S e) w es := by
  induction es generalizing w with
  | nil => trivial
  | cons e es ih =>
    intro u hu
    obtain ⟨hP, h⟩ := h u hu
    exact ⟨⟨hP, hS e (by simp)⟩, ih h fun e he => hS e (by simp [he])⟩

/-- What every step preserves with what has been left behind so far. -/
theorem invariant_trace {α : Type*} {f : W → E → Option α} {I : W → List α → Prop}
    (hstep : ∀ {w e w' h}, I w h → step e w = some w' → C w e w' → I w' (h ++ (f w e).toList))
    {past : List α} (h : I w past) (hC : Along step C w es) (hrun : run step w es = some w') :
    I w' (past ++ trace step f w es) := by
  induction es generalizing w past with
  | nil =>
    cases hrun
    simpa [trace] using h
  | cons e es ih =>
    obtain ⟨u, hu, hrun⟩ := run_cons hrun
    obtain ⟨hCu, hC⟩ := hC u hu
    have hnext := ih (hstep h hu hCu) hC hrun
    rw [trace, hu]
    simpa using hnext

/-- A property of one step that follows from an invariant and a condition on the step. -/
theorem along_of_invariant (hstep : ∀ {w e w'}, I w → step e w = some w' → I w')
    (hP : ∀ {w e w'}, I w → step e w = some w' → C w e w' → P w e w') (h : I w)
    (hC : Along step C w es) : Along step P w es := by
  induction es generalizing w with
  | nil => trivial
  | cons e es ih =>
    intro u hu
    obtain ⟨hCu, hC⟩ := hC u hu
    exact ⟨hP h hu hCu, ih (hstep h hu) hC⟩

/-- Two properties of a step that are the same as long as one of them held so far, in a run of
events of a kind. -/
theorem along_iff_of_mem (hiff : ∀ {w e w'}, S e → I w → step e w = some w' → (P w e w' ↔ C w e w'))
    (hnext : ∀ {w e w'}, I w → step e w = some w' → P w e w' → I w') (hS : ∀ e ∈ es, S e)
    (h : I w) :
    Along step P w es ↔ Along step C w es := by
  induction es generalizing w with
  | nil => exact Iff.rfl
  | cons e es ih =>
    refine forall_congr' fun u => forall_congr' fun hu => ?_
    rw [← hiff (hS e (by simp)) h hu]
    exact and_congr_right fun hP => ih (fun e he => hS e (by simp [he])) (hnext h hu hP)

/-- Two properties of a step that are the same as long as one of them held so far. -/
theorem along_iff (hiff : ∀ {w e w'}, I w → step e w = some w' → (P w e w' ↔ C w e w'))
    (hnext : ∀ {w e w'}, I w → step e w = some w' → P w e w' → I w') (es : List E) (h : I w) :
    Along step P w es ↔ Along step C w es :=
  along_iff_of_mem (S := fun _ => True) (fun _ => hiff) hnext (fun _ _ => trivial) h

theorem of_run (hstep : ∀ {w e w'}, I w → step e w = some w' → I w')
    (hK : ∀ {w e w'}, I w → step e w = some w' → K w' → K w) (h : I w)
    (hrun : run step w es = some w') (hend : K w') : K w := by
  induction es generalizing w with
  | nil => cases hrun; exact hend
  | cons e es ih =>
    obtain ⟨u, hu, hrun⟩ := run_cons hrun
    exact hK h hu (ih (hstep h hu) hrun)

/-- A quantity that every step on the way to a property adds to a potential sums up to what the
run adds to it. -/
theorem total_eq (hstep : ∀ {w e w'}, I w → step e w = some w' → I w')
    (hK : ∀ {w e w'}, I w → step e w = some w' → K w' → K w)
    (hφ : ∀ {w e w'}, I w → K w' → step e w = some w' → C w e w' → φ w' = φ w + g w e w')
    (h : I w) (hC : Along step C w es) (hrun : run step w es = some w') (hend : K w') :
    total step g w es = φ w' - φ w := by
  induction es generalizing w with
  | nil => cases hrun; simp [total]
  | cons e es ih =>
    obtain ⟨u, hu, hrun⟩ := run_cons hrun
    obtain ⟨hCu, hC⟩ := hC u hu
    have hKu := of_run hstep hK (hstep h hu) hrun hend
    rw [total_cons es hu, ih (hstep h hu) hC hrun, hφ h hKu hu hCu]
    omega

/-- A quantity that no step adds more of than to a potential sums up to at most what the potential
can reach. -/
theorem total_le (bound : ℤ) (hstep : ∀ {w e w'}, I w → step e w = some w' → I w')
    (hφ : ∀ {w e w'}, I w → step e w = some w' → φ w + g w e w' ≤ φ w')
    (hbound : ∀ {w}, I w → φ w ≤ bound) (es : List E) (h : I w) :
    total step g w es ≤ bound - φ w := by
  induction es generalizing w with
  | nil =>
    have := hbound h
    simp only [total]
    omega
  | cons e es ih =>
    cases hu : step e w with
    | none =>
      have := hbound h
      simp only [total, hu]
      omega
    | some u =>
      have hnext := ih (hstep h hu)
      have hgain := hφ h hu
      rw [total_cons es hu]
      omega

section

variable {C : Type*} {calls : List C} {c d : C} {i j : ℕ}

theorem getElem?_set_cases (h : (calls.set i c)[j]? = some d) :
    i = j ∧ d = c ∨ i ≠ j ∧ calls[j]? = some d := by
  rw [List.getElem?_set] at h
  split at h
  · rename_i hij
    split at h
    · exact .inl ⟨hij, (Option.some.inj h).symm⟩
    · cases h
  · rename_i hij
    exact .inr ⟨hij, h⟩

theorem getElem?_append_cases (h : (calls ++ [c])[j]? = some d) : calls[j]? = some d ∨ d = c := by
  rw [List.getElem?_append] at h
  split at h
  · exact .inl h
  · exact .inr (List.mem_singleton.mp (List.mem_of_getElem? h))

end

end Veduta.Lib
