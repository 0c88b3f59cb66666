import Mathlib.Data.List.Basic
import Mathlib.Data.Fintype.Basic

/-!
# The past of a list of events

Two operators of linear temporal logic with past, over a finite list in which the newest event
is the last one, with the rules for a list that grows by one event.
-/

namespace Veduta.Lib

variable {α : Type*} {p q r : α → Prop} {φ : List α → α → Prop} {h : List α} {x : α}

/-- Some event has `p`, and every later one has `q`. -/
def Since (p q : α → Prop) (h : List α) : Prop :=
  ∃ before x after, h = before ++ x :: after ∧ p x ∧ ∀ z ∈ after, q z

/-- Every event has `φ` with what came before it. -/
def Always (φ : List α → α → Prop) (h : List α) : Prop :=
  ∀ before x after, h = before ++ x :: after → φ before x

theorem concat_eq_append_cons_iff {before after : List α} {y : α} :
    h ++ [x] = before ++ y :: after ↔
      (h = before ∧ x = y ∧ after = []) ∨
        ∃ rest, after = rest ++ [x] ∧ h = before ++ y :: rest := by
  constructor
  · intro heq
    rcases List.eq_nil_or_concat after with hnil | ⟨rest, z, hrest⟩
    · subst hnil
      obtain ⟨hh, hx⟩ := List.append_inj' heq rfl
      exact .inl ⟨hh, List.head_eq_of_cons_eq hx, rfl⟩
    · subst hrest
      rw [List.concat_eq_append] at heq ⊢
      have heq : h ++ [x] = (before ++ y :: rest) ++ [z] := by simpa using heq
      obtain ⟨hh, hx⟩ := List.append_inj' heq rfl
      exact .inr ⟨rest, by rw [List.head_eq_of_cons_eq hx], hh⟩
  · rintro (⟨rfl, rfl, rfl⟩ | ⟨rest, rfl, rfl⟩)
    · rfl
    · simp

theorem since_cons {t : List α} :
    Since p q (x :: t) ↔ (p x ∧ ∀ z ∈ t, q z) ∨ Since p q t := by
  constructor
  · rintro ⟨before, y, after, heq, hp, hq⟩
    cases before with
    | nil =>
      cases heq
      exact .inl ⟨hp, hq⟩
    | cons b before =>
      cases heq
      exact .inr ⟨before, y, after, rfl, hp, hq⟩
  · rintro (⟨hp, hq⟩ | ⟨before, y, after, rfl, hp, hq⟩)
    · exact ⟨[], x, t, rfl, hp, hq⟩
    · exact ⟨x :: before, y, after, rfl, hp, hq⟩

theorem not_since_nil : ¬Since p q ([] : List α) := by
  rintro ⟨before, x, after, heq, -⟩
  simp at heq

@[simp] theorem since_concat : Since p q (h ++ [x]) ↔ p x ∨ (Since p q h ∧ q x) := by
  constructor
  · rintro ⟨before, y, after, heq, hp, hq⟩
    rcases concat_eq_append_cons_iff.mp heq with ⟨-, rfl, -⟩ | ⟨rest, rfl, rfl⟩
    · exact .inl hp
    · exact .inr ⟨⟨before, y, rest, rfl, hp, fun z hz => hq z (by simp [hz])⟩, hq x (by simp)⟩
  · rintro (hp | ⟨⟨before, y, rest, rfl, hp, hq⟩, hx⟩)
    · exact ⟨h, x, [], rfl, hp, by simp⟩
    · refine ⟨before, y, rest ++ [x], by simp, hp, fun z hz => ?_⟩
      rcases List.mem_append.mp hz with hz | hz
      · exact hq z hz
      · rw [List.mem_singleton.mp hz]
        exact hx

instance decidableSince [DecidablePred p] [DecidablePred q] :
    (h : List α) → Decidable (Since p q h)
  | [] => .isFalse not_since_nil
  | _ :: t =>
    have : Decidable (Since p q t) := decidableSince t
    decidable_of_iff' _ since_cons

theorem Since.imp (hpr : ∀ x, p x → r x) (hs : Since p q h) : Since r q h := by
  obtain ⟨before, x, after, heq, hp, hq⟩ := hs
  exact ⟨before, x, after, heq, hpr x hp, hq⟩

theorem always_nil : Always φ [] := by
  intro before x after heq
  simp at heq

theorem always_iff : Always φ h ↔ ∀ i : Fin h.length, φ (h.take i) (h.get i) := by
  constructor
  · intro hall i
    refine hall (h.take i) (h.get i) (h.drop (i + 1)) ?_
    rw [List.get_eq_getElem, ← List.drop_eq_getElem_cons, List.take_append_drop]
  · intro hall before x after heq
    subst heq
    simpa using hall ⟨before.length, by simp⟩

instance decidableAlways [∀ past x, Decidable (φ past x)] (h : List α) : Decidable (Always φ h) :=
  decidable_of_iff' _ always_iff

theorem Always.concat (hall : Always φ h) (hx : φ h x) : Always φ (h ++ [x]) := by
  intro before y after heq
  rcases concat_eq_append_cons_iff.mp heq with ⟨rfl, rfl, -⟩ | ⟨rest, -, rfl⟩
  · exact hx
  · exact hall before y rest rfl

end Veduta.Lib
