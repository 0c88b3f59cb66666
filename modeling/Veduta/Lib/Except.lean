import Mathlib.Data.List.Basic
import Mathlib.Data.List.Forall2

/-!
# Fallible traversals

Sequences of steps that may fail, and loops that stop at the first error: these are
`List.mapM` in `Except`, and the result, when there is one, is related to the input
element by element.
-/

namespace Veduta.Lib

variable {ε α β : Type}
variable {x : Except ε α} {f : α → Except ε β} {xs : List α} {ys : List β}

@[simp] theorem ok_bind (a : α) (f : α → Except ε β) : ((.ok a : Except ε α) >>= f) = f a := rfl

@[simp] theorem error_bind (e : ε) (f : α → Except ε β) :
    ((.error e : Except ε α) >>= f) = .error e :=
  rfl

theorem bind_eq_ok_iff {b : β} : x >>= f = .ok b ↔ ∃ a, x = .ok a ∧ f a = .ok b := by
  cases x with
  | error | ok => simp

@[simp] theorem exists_map_eq_ok_iff {γ : Type} {f : α → γ} :
    (∃ c, f <$> x = .ok c) ↔ ∃ a, x = .ok a := by
  cases x with
  | error | ok => simp

@[simp] theorem isOk_ok (a : α) : (.ok a : Except ε α).isOk = true := rfl

@[simp] theorem isOk_error (e : ε) : (.error e : Except ε α).isOk = false := rfl

theorem exists_eq_ok (h : x.isOk = true) : ∃ a, x = .ok a := by
  cases x with
  | error e => cases h
  | ok a => exact ⟨a, rfl⟩

@[simp] theorem isOk_map (f : α → β) (x : Except ε α) : (f <$> x).isOk = x.isOk := by
  cases x <;> rfl

theorem isOk_bind_iff_of {P : Prop} (h : ∀ a, x = .ok a → ((f a).isOk = true ↔ P)) :
    (x >>= f).isOk = true ↔ x.isOk = true ∧ P := by
  cases hx : x with
  | error e => simp
  | ok a => simpa using h a hx

theorem mapError_eq_error_iff {ε' : Type} {f : ε → ε'} {e : ε'} :
    x.mapError f = .error e ↔ ∃ e', x = .error e' ∧ f e' = e := by
  cases x with
  | error | ok => simp [Except.mapError]

theorem mapM_eq_ok_iff (f : α → Except ε β) (xs : List α) (ys : List β) :
    xs.mapM f = .ok ys ↔ List.Forall₂ (fun x y => f x = .ok y) xs ys := by
  induction xs generalizing ys with
  | nil =>
    simp only [List.mapM_nil, List.forall₂_nil_left_iff]
    exact ⟨fun h => (Except.ok.inj h).symm, fun h => congrArg Except.ok h.symm⟩
  | cons x xs ih =>
    rw [List.mapM_cons, List.forall₂_cons_left_iff]
    cases hx : f x with
    | error e =>
      constructor
      · intro h; cases h
      · rintro ⟨y, us, hy, _⟩
        cases hy
    | ok y =>
      cases hxs : xs.mapM f with
      | error e =>
        constructor
        · intro h; cases h
        · rintro ⟨y', us, _, hus, _⟩
          rw [← ih, hxs] at hus
          cases hus
      | ok us =>
        constructor
        · intro h
          exact ⟨y, us, rfl, (ih us).mp hxs, (Except.ok.inj h).symm⟩
        · rintro ⟨y', us', hy, hus, rfl⟩
          have hu := (ih us').mpr hus
          rw [hxs] at hu
          obtain rfl := Except.ok.inj hu
          obtain rfl := Except.ok.inj hy
          rfl

theorem exists_of_mapM_eq_error (f : α → Except ε β) {e : ε} (h : xs.mapM f = .error e) :
    ∃ x ∈ xs, f x = .error e := by
  induction xs with
  | nil => cases h
  | cons x xs ih =>
    rw [List.mapM_cons] at h
    cases hx : f x with
    | error e' =>
      rw [hx] at h
      obtain rfl := Except.error.inj h
      exact ⟨x, by simp, hx⟩
    | ok y =>
      rw [hx] at h
      cases hxs : xs.mapM f with
      | error e' =>
        rw [hxs] at h
        obtain rfl := Except.error.inj h
        obtain ⟨z, hz, hfz⟩ := ih hxs
        exact ⟨z, by simp [hz], hfz⟩
      | ok ys =>
        rw [hxs] at h
        cases h

theorem exists_of_forall₂ {α : Type*} {β : Type*} {R : α → β → Prop} {xs : List α} {ys : List β}
    (h : List.Forall₂ R xs ys) {x : α} (hx : x ∈ xs) : ∃ y ∈ ys, R x y := by
  induction h with
  | nil => cases hx
  | cons hR _ ih =>
    rcases List.mem_cons.mp hx with rfl | hx
    · exact ⟨_, List.mem_cons_self, hR⟩
    · obtain ⟨y, hy, hR⟩ := ih hx
      exact ⟨y, List.mem_cons_of_mem _ hy, hR⟩

theorem exists_of_mem_mapM_ok (h : xs.mapM f = .ok ys) {y : β} (hy : y ∈ ys) :
    ∃ x ∈ xs, f x = .ok y := by
  rw [mapM_eq_ok_iff] at h
  exact exists_of_forall₂ h.flip hy

theorem exists_ok_of_mem_mapM (h : xs.mapM f = .ok ys) {x : α} (hx : x ∈ xs) :
    ∃ y ∈ ys, f x = .ok y := by
  rw [mapM_eq_ok_iff] at h
  exact exists_of_forall₂ h hx

theorem exists_mapM_eq_ok_iff : (∃ ys, xs.mapM f = .ok ys) ↔ ∀ x ∈ xs, ∃ y, f x = .ok y := by
  constructor
  · intro h x hx
    obtain ⟨ys, hys⟩ := h
    obtain ⟨y, -, hy⟩ := exists_ok_of_mem_mapM hys hx
    exact ⟨y, hy⟩
  · intro h
    cases hxs : xs.mapM f with
    | error e =>
      obtain ⟨x, hx, he⟩ := exists_of_mapM_eq_error f hxs
      obtain ⟨y, hy⟩ := h x hx
      rw [hy] at he
      cases he
    | ok ys => exact ⟨ys, rfl⟩

end Veduta.Lib
