import Mathlib.Tactic.Common
import Mathlib.Data.List.Forall2
import Mathlib.Data.List.Infix

/-!
# Globs with one wildcard that stays inside a segment

A glob is a string over any alphabet with two distinguished letters: a wildcard,
which stands for any string, the empty one included, that holds no separator; and
the separator.  `Generates` is the language of a glob.  The rest are the facts a
matcher needs: a glob generates segment by segment, a single segment is a matter of
literal parts in order, and looking for each part at its leftmost place is enough.
-/

namespace Veduta.Lib

variable {α : Type} {star sep : α}
variable {s t part : List α} {ps : List (List α)}

/-- The strings a glob stands for. -/
inductive Generates (star sep : α) : List α → List α → Prop
  /-- The empty glob stands for the empty string. -/
  | nil : Generates star sep [] []
  /-- A literal letter stands for itself. -/
  | lit {b : α} {p s : List α} (hb : b ≠ star) :
      Generates star sep p s → Generates star sep (b :: p) (b :: s)
  /-- The wildcard stands for any string without a separator. -/
  | wild {w p s : List α} (hw : sep ∉ w) :
      Generates star sep p s → Generates star sep (star :: p) (w ++ s)

/-- `s` is the parts in order, with any string between two neighbours. -/
def Fits : List (List α) → List α → Prop
  | [], s => s = []
  | [p], s => s = p
  | p :: q :: ps, s => ∃ w t, s = p ++ (w ++ t) ∧ Fits (q :: ps) t

/-- The parts occur in `s` in order, without overlap, with gaps anywhere. -/
def InOrder : List (List α) → List α → Prop
  | [], _ => True
  | p :: ps, s => ∃ pre post, s = pre ++ (p ++ post) ∧ InOrder ps post

theorem InOrder.mono (h : InOrder ps s) (hst : s <:+ t) : InOrder ps t := by
  cases ps with
  | nil => trivial
  | cons p ps =>
    obtain ⟨pre, post, rfl, hpost⟩ := h
    obtain ⟨u, rfl⟩ := hst
    exact ⟨u ++ pre, post, by simp, hpost⟩

theorem inOrder_nil_cons (ps : List (List α)) (s : List α) :
    InOrder ([] :: ps) s ↔ InOrder ps s := by
  constructor
  · rintro ⟨pre, post, rfl, h⟩
    exact h.mono ⟨pre, by simp⟩
  · intro h
    exact ⟨[], s, by simp, h⟩

/-- **The leftmost occurrence is enough.**  A part that can be found so that the
rest follow can be found at its first place so that the rest follow. -/
theorem inOrder_cons_leftmost {i : ℕ} (hat : part <+: s.drop i)
    (hfirst : ∀ j < i, ¬ part <+: s.drop j) :
    InOrder (part :: ps) s ↔ InOrder ps (s.drop (i + part.length)) := by
  constructor
  · rintro ⟨pre, post, rfl, h⟩
    have hle : i ≤ pre.length := by
      by_contra hlt
      exact hfirst pre.length (by omega) (by simp)
    -- the chosen occurrence ends no earlier than the first one
    refine h.mono ?_
    have hpost : post = (pre ++ (part ++ post)).drop (pre.length + part.length) := by
      rw [← List.append_assoc, List.drop_left' (by simp)]
    obtain ⟨k, hk⟩ := Nat.exists_eq_add_of_le hle
    have hsplit : pre.length + part.length = (i + part.length) + k := by omega
    rw [hsplit, ← List.drop_drop] at hpost
    exact ⟨_, (congrArg _ hpost).trans (List.take_append_drop k _)⟩
  · intro h
    obtain ⟨t, ht⟩ := hat
    refine ⟨s.take i, s.drop (i + part.length), ?_, h⟩
    have hrest : s.drop (i + part.length) = t := by
      rw [← List.drop_drop, ← ht, List.drop_left]
    rw [hrest, ht, List.take_append_drop]

theorem not_inOrder_cons (h : ∀ j, ¬ part <+: s.drop j) : ¬ InOrder (part :: ps) s := by
  rintro ⟨pre, post, rfl, _⟩
  exact h pre.length (by simp)

theorem fits_cons_append_singleton (first last : List α) (middle : List (List α)) (s : List α) :
    Fits (first :: (middle ++ [last])) s ↔
      ∃ m, s = first ++ (m ++ last) ∧ InOrder middle m := by
  induction middle generalizing first s with
  | nil =>
    constructor
    · rintro ⟨w, t, rfl, rfl⟩
      exact ⟨w, rfl, trivial⟩
    · rintro ⟨m, rfl, _⟩
      exact ⟨m, last, rfl, rfl⟩
  | cons q middle ih =>
    constructor
    · rintro ⟨w, t, rfl, h⟩
      obtain ⟨m, rfl, hm⟩ := (ih q t).mp h
      exact ⟨w ++ (q ++ m), by simp, w, m, rfl, hm⟩
    · rintro ⟨m, rfl, pre, post, rfl, h⟩
      exact ⟨pre, q ++ (post ++ last), by simp, (ih q _).mpr ⟨post, rfl, h⟩⟩

theorem fits_modifyHead_cons {parts : List (List α)} (hne : parts ≠ []) (b : α) (s : List α) :
    Fits (parts.modifyHead (b :: ·)) s ↔ ∃ t, s = b :: t ∧ Fits parts t := by
  match parts, hne with
  | [p], _ =>
    constructor
    · rintro rfl
      exact ⟨p, rfl, rfl⟩
    · rintro ⟨t, rfl, rfl⟩
      rfl
  | p :: q :: ps, _ =>
    constructor
    · rintro ⟨w, t, rfl, h⟩
      exact ⟨p ++ (w ++ t), rfl, w, t, rfl, h⟩
    · rintro ⟨_, rfl, w, t, rfl, h⟩
      exact ⟨w, t, rfl, h⟩

/-- What a glob without a separator in front of another one stands for. -/
theorem Generates.split {w q : List α} (hw : sep ∉ w) (h : Generates star sep (w ++ q) s) :
    ∃ v t, s = v ++ t ∧ sep ∉ v ∧ Generates star sep q t := by
  induction w generalizing s with
  | nil => exact ⟨[], s, rfl, by simp, h⟩
  | cons b w ih =>
    rw [List.mem_cons, not_or] at hw
    cases h with
    | lit hb h =>
      obtain ⟨v, t, rfl, hv, ht⟩ := ih hw.2 h
      exact ⟨b :: v, t, rfl, by simp [hw.1, hv], ht⟩
    | @wild u _ _ hu h =>
      obtain ⟨v, t, rfl, hv, ht⟩ := ih hw.2 h
      exact ⟨u ++ v, t, by simp, by simp [hu, hv], ht⟩

/-- A glob that stands for the text of another stands for all that the other stands for. -/
theorem Generates.trans {p q : List α} (h : Generates star sep p q) (h' : Generates star sep q s) :
    Generates star sep p s := by
  induction h generalizing s with
  | nil => exact h'
  | lit hb _ ih =>
    cases h' with
    | lit _ h' => exact .lit hb (ih h')
    | wild => exact absurd rfl hb
  | wild hw _ ih =>
    obtain ⟨v, t, rfl, hv, ht⟩ := Generates.split hw h'
    exact .wild hv (ih ht)

variable [DecidableEq α]

/-- **A glob without separators is its literal parts in order.** -/
theorem generates_iff_fits (pattern s : List α) (hs : sep ∉ s) :
    Generates star sep pattern s ↔ Fits (pattern.splitOn star) s := by
  induction pattern generalizing s with
  | nil =>
    rw [List.splitOn_nil]
    constructor
    · intro h
      cases h
      rfl
    · intro h
      obtain rfl : s = [] := h
      exact .nil
  | cons b pattern ih =>
    rw [List.splitOn_cons_eq_if_modifyHead]
    by_cases hb : b = star
    · subst hb
      rw [if_pos (by simp)]
      obtain ⟨q, ps, hq⟩ := List.exists_cons_of_ne_nil (List.splitOn_ne_nil b pattern)
      rw [hq]
      constructor
      · intro h
        cases h with
        | lit hb => exact absurd rfl hb
        | @wild w p t hw h =>
          have ht : sep ∉ t := fun hm => hs (by simp [hm])
          exact ⟨w, t, rfl, hq ▸ (ih t ht).mp h⟩
      · rintro ⟨w, t, rfl, h⟩
        rw [List.nil_append] at hs ⊢
        rw [List.mem_append, not_or] at hs
        exact .wild hs.1 ((ih t hs.2).mpr (hq ▸ h))
    · rw [if_neg (by simpa using hb), fits_modifyHead_cons (List.splitOn_ne_nil _ _)]
      constructor
      · intro h
        cases h with
        | @lit _ _ t _ h =>
          have ht : sep ∉ t := fun hm => hs (by simp [hm])
          exact ⟨t, rfl, (ih t ht).mp h⟩
        | wild => exact absurd rfl hb
      · rintro ⟨t, rfl, h⟩
        simp only [List.mem_cons, not_or] at hs
        exact .lit hb ((ih t hs.2).mpr h)

omit [DecidableEq α] in
theorem Generates.append {p q : List α} (h : Generates star sep p s) (h' : Generates star sep q t) :
    Generates star sep (p ++ q) (s ++ t) := by
  induction h with
  | nil => exact h'
  | lit hb _ ih => exact .lit hb ih
  | @wild w p s hw _ ih =>
    rw [List.append_assoc]
    exact .wild hw ih

theorem splitOn_append_of_notMem {w : List α} (hw : sep ∉ w) (s : List α) :
    (w ++ s).splitOn sep = (s.splitOn sep).modifyHead (w ++ ·) := by
  induction w with
  | nil =>
    obtain ⟨q, ps, hq⟩ := List.exists_cons_of_ne_nil (List.splitOn_ne_nil sep s)
    simp [hq]
  | cons b w ih =>
    simp only [List.mem_cons, not_or] at hw
    have hb : ¬ (b == sep) = true := by simpa using Ne.symm hw.1
    rw [List.cons_append, List.splitOn_cons_eq_if_modifyHead, if_neg hb, ih hw.2]
    obtain ⟨q, ps, hq⟩ := List.exists_cons_of_ne_nil (List.splitOn_ne_nil sep s)
    simp [hq]

/-- **A glob generates segment by segment**, since its wildcard crosses no separator. -/
theorem generates_iff_forall₂ (hne : star ≠ sep) (pattern s : List α) :
    Generates star sep pattern s ↔
      List.Forall₂ (Generates star sep) (pattern.splitOn sep) (s.splitOn sep) := by
  constructor
  · intro h
    induction h with
    | nil => simp [Generates.nil]
    | @lit b p s hb _ ih =>
      rw [List.splitOn_cons_eq_if_modifyHead, List.splitOn_cons_eq_if_modifyHead]
      by_cases hsep : b = sep
      · rw [if_pos (by simpa using hsep), if_pos (by simpa using hsep)]
        exact .cons .nil ih
      · rw [if_neg (by simpa using hsep), if_neg (by simpa using hsep)]
        obtain ⟨q, ps, hq⟩ := List.exists_cons_of_ne_nil (List.splitOn_ne_nil sep p)
        obtain ⟨r, rs, hr⟩ := List.exists_cons_of_ne_nil (List.splitOn_ne_nil sep s)
        rw [hq, hr, List.forall₂_cons] at ih
        rw [hq, hr]
        exact .cons (.lit hb ih.1) ih.2
    | @wild w p s hw _ ih =>
      rw [List.splitOn_cons_eq_if_modifyHead, if_neg (by simpa using hne),
        splitOn_append_of_notMem hw]
      obtain ⟨q, ps, hq⟩ := List.exists_cons_of_ne_nil (List.splitOn_ne_nil sep p)
      obtain ⟨r, rs, hr⟩ := List.exists_cons_of_ne_nil (List.splitOn_ne_nil sep s)
      rw [hq, hr, List.forall₂_cons] at ih
      rw [hq, hr]
      exact .cons (.wild hw ih.1) ih.2
  · intro h
    have join : ∀ ps ss : List (List α), List.Forall₂ (Generates star sep) ps ss →
        Generates star sep ([sep].intercalate ps) ([sep].intercalate ss) := by
      intro ps ss hf
      induction hf with
      | nil => exact .nil
      | @cons p s ps ss hps hrest ih =>
        cases hrest with
        | nil => simpa [List.intercalate] using hps
        | cons hqs hrest =>
          rw [List.intercalate_cons_cons, List.intercalate_cons_cons, List.append_assoc,
            List.append_assoc]
          exact hps.append (.lit (Ne.symm hne) ih)
    have := join _ _ h
    rwa [List.intercalate_splitOn, List.intercalate_splitOn] at this

theorem Generates.refl (hne : star ≠ sep) (s : List α) :
    Generates star sep s s := by
  induction s with
  | nil => exact .nil
  | cons b s ih =>
    by_cases hb : b = star
    · subst hb
      have hw : sep ∉ [b] := by simpa using Ne.symm hne
      exact .wild hw ih
    · exact .lit hb ih

end Veduta.Lib
