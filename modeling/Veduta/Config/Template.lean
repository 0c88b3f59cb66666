import Mathlib.Data.List.TakeWhile
import Veduta.Config.Connections
import Veduta.Go.Replace

/-!
# Texts with references in them

To substitute is to put a value in the place of each reference that a text had when it was written,
and nothing else.  A reference has one dollar, at its start, so no two of them overlap.
-/

namespace Veduta.Config

open Go

namespace SecretRef

/-- The loop, with the number of bytes that the last reference still covers. -/
def expandLoop (f : Bytes → Bytes) : ℕ → Bytes → Bytes
  | _, [] => []
  | skip + 1, _ :: s => expandLoop f skip s
  | 0, b :: s =>
    match referenceAt (b :: s) with
    | some (name, rest) => f name ++ expandLoop f (s.length - rest.length) s
    | none => b :: expandLoop f 0 s

/-- A text with each of its references replaced, all at once. -/
def expand (f : Bytes → Bytes) (s : Bytes) : Bytes := expandLoop f 0 s

/-- A text with the values of secrets in the place of their names. -/
def substitute (resolved : GoMap Bytes Bytes) (s : Bytes) : Bytes := expand (resolved.get []) s

/-- A name that a reference can have. -/
def IsName (name : Bytes) : Prop := name ≠ [] ∧ ∀ b ∈ name, isNameByte b = true

/-- A reference after its dollar. -/
def placeholderTail (name : Bytes) : Bytes := ascii "\x7bsecret:" ++ name ++ ascii "\x7d"

theorem placeholder_eq (name : Bytes) : placeholder name = chr '$' :: placeholderTail name := rfl

theorem placeholder_ne_nil (name : Bytes) : placeholder name ≠ [] := by simp [placeholder_eq]

theorem dollar_notMem_placeholderTail {name : Bytes} (h : IsName name) :
    chr '$' ∉ placeholderTail name := by
  intro hmem
  simp only [placeholderTail, List.mem_append] at hmem
  rcases hmem with (hmem | hmem) | hmem
  · revert hmem
    decide
  · exact absurd (h.2 _ hmem) (by decide)
  · revert hmem
    decide

/-- **A reference is read where one is written.** -/
theorem referenceAt_eq_some_iff {s name rest : Bytes} :
    referenceAt s = some (name, rest) ↔ IsName name ∧ s = placeholder name ++ rest := by
  rw [referenceAt]
  constructor
  · intro h
    split_ifs at h with hcond
    obtain ⟨hopen, hne, hclose⟩ := hcond
    obtain ⟨t, rfl⟩ := (hasPrefix_iff _ _).mp hopen
    rw [List.drop_left] at hne hclose h
    obtain ⟨rfl, hrest⟩ := Prod.mk.inj (Option.some.inj h)
    obtain ⟨rest', hdrop⟩ := List.head?_eq_some_iff.mp hclose
    rw [hdrop, List.tail_cons] at hrest
    subst hrest
    refine ⟨⟨hne, fun b => List.mem_takeWhile_imp⟩, ?_⟩
    have ht := List.takeWhile_append_dropWhile (p := isNameByte) (l := t)
    rw [hdrop] at ht
    rw [placeholder, List.append_assoc, List.append_assoc]
    exact congrArg _ ht.symm
  · intro h
    obtain ⟨hname, rfl⟩ := h
    have hopen : hasPrefix (placeholder name ++ rest) (ascii "$\x7bsecret:") = true := by
      rw [hasPrefix_iff, placeholder, List.append_assoc, List.append_assoc]
      exact List.prefix_append _ _
    have hdrop : (placeholder name ++ rest).drop (ascii "$\x7bsecret:").length =
        name ++ chr '\x7d' :: rest := by
      rw [placeholder, List.append_assoc, List.append_assoc, List.drop_left]
      rfl
    have hbrace : isNameByte (chr '\x7d') = false := by decide
    have htake : (name ++ chr '\x7d' :: rest).takeWhile isNameByte = name := by
      rw [List.takeWhile_append_of_pos hname.2, List.takeWhile_cons_of_neg (by simp [hbrace]),
        List.append_nil]
    have hleft : (name ++ chr '\x7d' :: rest).dropWhile isNameByte = chr '\x7d' :: rest := by
      rw [List.dropWhile_append_of_pos hname.2, List.dropWhile_cons_of_neg (by simp [hbrace])]
    rw [hdrop, htake, hleft, if_pos ⟨hopen, hname.1, rfl⟩]
    rfl

theorem referenceAt_placeholder {name : Bytes} (h : IsName name) (rest : Bytes) :
    referenceAt (placeholder name ++ rest) = some (name, rest) :=
  referenceAt_eq_some_iff.mpr ⟨h, rfl⟩

theorem referenceAt_of_ne {b : UInt8} (h : b ≠ chr '$') (s : Bytes) :
    referenceAt (b :: s) = none := by
  cases href : referenceAt (b :: s) with
  | none => rfl
  | some found =>
    obtain ⟨-, heq⟩ := (@referenceAt_eq_some_iff _ found.1 found.2).mp href
    rw [placeholder_eq, List.cons_append] at heq
    exact absurd (List.cons.inj heq).1 h

/-- **A text is bytes and references.** -/
theorem reference_induction {P : Bytes → Prop} (hnil : P [])
    (hbyte : ∀ b s, referenceAt (b :: s) = none → P s → P (b :: s))
    (href : ∀ name s, IsName name → P s → P (placeholder name ++ s)) (s : Bytes) : P s := by
  induction hlen : s.length using Nat.strong_induction_on generalizing s with
  | _ n ih =>
    cases s with
    | nil => exact hnil
    | cons b s =>
      cases hat : referenceAt (b :: s) with
      | none => exact hbyte b s hat (ih s.length (by rw [← hlen]; simp) s rfl)
      | some found =>
        obtain ⟨hname, heq⟩ := (@referenceAt_eq_some_iff _ found.1 found.2).mp hat
        have hlength := congrArg List.length heq
        have hpos := List.length_pos_iff.mpr (placeholder_ne_nil found.1)
        rw [List.length_append] at hlength
        rw [heq]
        exact href found.1 found.2 hname (ih found.2.length (by omega) found.2 rfl)

theorem occurrences_cons (b : UInt8) (s : Bytes) :
    occurrences (b :: s) = ((referenceAt (b :: s)).map Prod.fst).toList ++ occurrences s := by
  rw [occurrences, occurrences, List.tails_cons, List.filterMap_cons]
  cases referenceAt (b :: s) <;> rfl

theorem occurrences_append {w : Bytes} (h : chr '$' ∉ w) (s : Bytes) :
    occurrences (w ++ s) = occurrences s := by
  induction w with
  | nil => rfl
  | cons b w ih =>
    rw [List.mem_cons, not_or] at h
    rw [List.cons_append, occurrences_cons, referenceAt_of_ne (Ne.symm h.1), ih h.2]
    rfl

theorem occurrences_placeholder {name : Bytes} (h : IsName name) (s : Bytes) :
    occurrences (placeholder name ++ s) = name :: occurrences s := by
  have href := referenceAt_placeholder h s
  rw [placeholder_eq, List.cons_append] at href ⊢
  rw [occurrences_cons, href, occurrences_append (dollar_notMem_placeholderTail h)]
  rfl

section

variable (f : Bytes → Bytes)

@[simp] theorem expand_nil : expand f [] = [] := rfl

theorem expandLoop_skip (s rest : Bytes) : expandLoop f s.length (s ++ rest) = expand f rest := by
  induction s with
  | nil => rfl
  | cons b s ih => exact ih

theorem expand_placeholder {name : Bytes} (h : IsName name) (rest : Bytes) :
    expand f (placeholder name ++ rest) = f name ++ expand f rest := by
  have href := referenceAt_placeholder h rest
  rw [placeholder_eq, List.cons_append] at href ⊢
  rw [expand, expandLoop, href]
  dsimp only
  rw [List.length_append, Nat.add_sub_cancel, expandLoop_skip]

theorem expand_byte {b : UInt8} {s : Bytes} (h : referenceAt (b :: s) = none) :
    expand f (b :: s) = b :: expand f s := by
  rw [expand, expandLoop, h]
  rfl

theorem expand_congr {g : Bytes → Bytes} {s : Bytes} (h : ∀ n ∈ occurrences s, f n = g n) :
    expand f s = expand g s := by
  induction s using reference_induction with
  | hnil => rfl
  | hbyte b s hat ih =>
    rw [occurrences_cons, hat] at h
    rw [expand_byte f hat, expand_byte g hat, ih h]
  | href name s hname ih =>
    rw [occurrences_placeholder hname] at h
    rw [expand_placeholder f hname, expand_placeholder g hname, h name List.mem_cons_self,
      ih fun n hn => h n (List.mem_cons_of_mem _ hn)]

theorem expand_self (s : Bytes) : expand placeholder s = s := by
  induction s using reference_induction with
  | hnil => rfl
  | hbyte b s hat ih => rw [expand_byte _ hat, ih]
  | href name s hname ih => rw [expand_placeholder _ hname, ih]

end

theorem isName_of_mem_occurrences {s name : Bytes} (h : name ∈ occurrences s) : IsName name := by
  induction s using reference_induction with
  | hnil => cases h
  | hbyte b s hat ih =>
    rw [occurrences_cons, hat] at h
    exact ih h
  | href n s hname ih =>
    rw [occurrences_placeholder hname] at h
    rcases List.mem_cons.mp h with rfl | h
    · exact hname
    · exact ih h

end SecretRef

end Veduta.Config
