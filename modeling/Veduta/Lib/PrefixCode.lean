import Mathlib.Tactic.Common
import Mathlib.Data.List.Basic

/-!
# Codes that can be read from the front

A writer that turns symbols into words is a prefix code on a set of symbols if the first
symbol of a text can be told whatever comes after its word.  Sequences of words can then
be read back, up to an end mark that no word starts with.
-/

namespace Veduta.Lib

variable {α β : Type} {S : α → Prop} {f : α → List β}

/-- The first symbol of a text is determined, whatever follows its word. -/
structure PrefixCode (S : α → Prop) (f : α → List β) : Prop where
  ne_nil : ∀ {a}, S a → f a ≠ []
  read : ∀ {a b x y}, S a → S b → f a ++ x = f b ++ y → a = b

namespace PrefixCode

theorem of_reader (g : List β → α) (hne : ∀ a, S a → f a ≠ [])
    (hread : ∀ a x, S a → g (f a ++ x) = a) : PrefixCode S f where
  ne_nil := hne _
  read := by
    intro a b x y ha hb h
    rw [← hread a x ha, h, hread b y hb]

variable {x y : List β} {as bs : List α}

theorem read_append (h : PrefixCode S f) {a b : α} (ha : S a) (hb : S b)
    (heq : f a ++ x = f b ++ y) : a = b ∧ x = y := by
  have hab := h.read ha hb heq
  rw [hab, List.append_cancel_left_eq] at heq
  exact ⟨hab, heq⟩

theorem append_ne_cons (h : PrefixCode S f) {e : β} (hend : ∀ a, S a → (f a).head? ≠ some e)
    {a : α} (ha : S a) (rest z : List β) : f a ++ rest ≠ e :: z := by
  intro hz
  obtain ⟨b, w, hw⟩ := List.exists_cons_of_ne_nil (h.ne_nil ha)
  rw [hw, List.cons_append] at hz
  refine hend a ha ?_
  rw [hw, List.head?_cons, (List.cons.inj hz).1]

/-- **Sequences of words are told apart.** -/
theorem flatMap_inj (h : PrefixCode S f) (has : ∀ a ∈ as, S a) (hbs : ∀ b ∈ bs, S b)
    (heq : as.flatMap f = bs.flatMap f) : as = bs := by
  induction as generalizing bs with
  | nil =>
    cases bs with
    | nil => rfl
    | cons b bs =>
      have hnil := (List.append_eq_nil_iff.mp heq.symm).1
      exact absurd hnil (h.ne_nil (hbs b List.mem_cons_self))
  | cons a as ih =>
    have ha := has a List.mem_cons_self
    cases bs with
    | nil => exact absurd (List.append_eq_nil_iff.mp heq).1 (h.ne_nil ha)
    | cons b bs =>
      obtain ⟨rfl, hrest⟩ := h.read_append ha (hbs b List.mem_cons_self) heq
      rw [ih (fun c hc => has c (List.mem_cons_of_mem _ hc))
        (fun c hc => hbs c (List.mem_cons_of_mem _ hc)) hrest]

/-- **A sequence of words is read back**, up to an end mark. -/
theorem read_flatMap (h : PrefixCode S f) {e : β} (hend : ∀ a, S a → (f a).head? ≠ some e)
    (has : ∀ a ∈ as, S a) (hbs : ∀ b ∈ bs, S b)
    (heq : as.flatMap f ++ e :: x = bs.flatMap f ++ e :: y) : as = bs ∧ x = y := by
  induction as generalizing bs with
  | nil =>
    cases bs with
    | nil => exact ⟨rfl, (List.cons.inj heq).2⟩
    | cons b bs =>
      rw [List.flatMap_cons, List.append_assoc] at heq
      exact absurd heq.symm (h.append_ne_cons hend (hbs b List.mem_cons_self) _ _)
  | cons a as ih =>
    have ha := has a List.mem_cons_self
    cases bs with
    | nil =>
      rw [List.flatMap_cons, List.append_assoc] at heq
      exact absurd heq (h.append_ne_cons hend ha _ _)
    | cons b bs =>
      simp only [List.flatMap_cons, List.append_assoc] at heq
      obtain ⟨rfl, hrest⟩ := h.read_append ha (hbs b List.mem_cons_self) heq
      obtain ⟨rfl, hxy⟩ := ih (fun c hc => has c (List.mem_cons_of_mem _ hc))
        (fun c hc => hbs c (List.mem_cons_of_mem _ hc)) hrest
      exact ⟨rfl, hxy⟩

theorem intercalate_map_cons (sep : β) (a : α) (as : List α) :
    [sep].intercalate ((a :: as).map f) = f a ++ as.flatMap fun b => sep :: f b := by
  induction as generalizing a with
  | nil => simp [List.intercalate]
  | cons b as ih =>
    rw [List.map_cons, List.map_cons, List.intercalate_cons_cons, ← List.map_cons, ih b]
    simp

/-- **A list of words with separators is read back**, up to an end mark. -/
theorem read_intercalate (h : PrefixCode S f) {sep e : β} (hsep : sep ≠ e)
    (hend : ∀ a, S a → (f a).head? ≠ some e) (has : ∀ a ∈ as, S a) (hbs : ∀ b ∈ bs, S b)
    (heq : [sep].intercalate (as.map f) ++ e :: x = [sep].intercalate (bs.map f) ++ e :: y) :
    as = bs ∧ x = y := by
  -- a separator and a word after it are a word of another prefix code
  have hcode : PrefixCode S fun b => sep :: f b :=
    ⟨fun _ => List.cons_ne_nil _ _, fun ha hb hab => h.read ha hb (List.cons.inj hab).2⟩
  have hcons : ∀ a : α, S a → (sep :: f a).head? ≠ some e := by
    intro a _ ha
    exact hsep (Option.some.inj ha)
  cases as with
  | nil =>
    cases bs with
    | nil => exact ⟨rfl, (List.cons.inj heq).2⟩
    | cons b bs =>
      rw [intercalate_map_cons, List.append_assoc] at heq
      exact absurd heq.symm (h.append_ne_cons hend (hbs b List.mem_cons_self) _ _)
  | cons a as =>
    have ha := has a List.mem_cons_self
    cases bs with
    | nil =>
      rw [intercalate_map_cons, List.append_assoc] at heq
      exact absurd heq (h.append_ne_cons hend ha _ _)
    | cons b bs =>
      rw [intercalate_map_cons, intercalate_map_cons, List.append_assoc,
        List.append_assoc] at heq
      obtain ⟨rfl, hrest⟩ := h.read_append ha (hbs b List.mem_cons_self) heq
      obtain ⟨rfl, hxy⟩ := hcode.read_flatMap hcons
        (fun c hc => has c (List.mem_cons_of_mem _ hc))
        (fun c hc => hbs c (List.mem_cons_of_mem _ hc)) hrest
      exact ⟨rfl, hxy⟩

end PrefixCode

end Veduta.Lib
