import Mathlib.Data.List.Infix
import Veduta.Go.Strings

/-!
# Replacing text

`strings.Replace` and `strings.ReplaceAll`, for a text to replace that is not empty.  Both go from
left to right; the second goes on after each match, so what it put in is not looked at again.
-/

namespace Veduta.Go

/-- The loop, with the number of bytes that the last match still covers. -/
def replaceLoop (old new : Bytes) : ℕ → Bytes → Bytes
  | _, [] => []
  | skip + 1, _ :: s => replaceLoop old new skip s
  | 0, b :: s =>
    if old.isPrefixOf (b :: s) then new ++ replaceLoop old new (old.length - 1) s
    else b :: replaceLoop old new 0 s

/-- `strings.ReplaceAll`, for a text to replace that is not empty. -/
def replaceAll (s old new : Bytes) : Bytes := replaceLoop old new 0 s

example : replaceAll (ascii "aabaab") (ascii "aab") (ascii "ab") = ascii "abab" ∧
    replaceAll (ascii "aaa") (ascii "aa") (ascii "b") = ascii "ba" := by
  decide

theorem contains_iff {s sub : Bytes} : contains s sub = true ↔ sub <:+: s := by
  rw [contains]
  constructor
  · intro h
    obtain ⟨i, hi⟩ := Option.isSome_iff_exists.mp h
    exact (index_eq_some hi).1.isInfix.trans (List.drop_suffix i s).isInfix
  · intro h
    obtain ⟨a, b, rfl⟩ := h
    cases hi : index (a ++ sub ++ b) sub with
    | some i => rfl
    | none =>
      refine absurd ?_ (index_eq_none hi a.length)
      rw [List.append_assoc, List.drop_left]
      exact List.prefix_append sub b

/-- No match of `old` begins in `s`, if `rest` comes after it. -/
def NoMatch (old s rest : Bytes) : Prop := ∀ j < s.length, ¬ old <+: (s ++ rest).drop j

theorem noMatch_nil (old rest : Bytes) : NoMatch old [] rest := by simp [NoMatch]

theorem noMatch_cons {old s rest : Bytes} {b : UInt8} (hb : ¬ old <+: b :: (s ++ rest))
    (h : NoMatch old s rest) : NoMatch old (b :: s) rest := by
  intro j hj
  cases j with
  | zero => exact hb
  | succ j => exact h j (Nat.lt_of_succ_lt_succ hj)

theorem noMatch_of_forall {old s rest : Bytes}
    (h : ∀ a b c, s = a ++ b :: c → ¬ old <+: b :: (c ++ rest)) : NoMatch old s rest := by
  induction s with
  | nil => exact noMatch_nil old rest
  | cons b s ih =>
    refine noMatch_cons (h [] b s rfl) (ih fun a c d hs => h (b :: a) c d ?_)
    rw [hs, List.cons_append]

theorem replaceFirst_append {s old new rest : Bytes} (h : NoMatch old s (old ++ rest)) :
    replaceFirst (s ++ (old ++ rest)) old new = s ++ (new ++ rest) := by
  have hat : old <+: (s ++ (old ++ rest)).drop s.length := by
    rw [List.drop_left]
    exact List.prefix_append old rest
  rw [replaceFirst]
  cases hi : index (s ++ (old ++ rest)) old with
  | none => exact absurd hat (index_eq_none hi s.length)
  | some i =>
    obtain ⟨hmatch, hfirst⟩ := index_eq_some hi
    have hge : s.length ≤ i := by
      by_contra hlt
      exact h i (Nat.lt_of_not_le hlt) hmatch
    have hle : i ≤ s.length := by
      by_contra hlt
      exact hfirst s.length (Nat.lt_of_not_le hlt) hat
    obtain rfl : i = s.length := Nat.le_antisymm hle hge
    dsimp only
    rw [List.take_left, ← List.drop_drop, List.drop_left, List.drop_left, List.append_assoc]

theorem exists_first_match {s old : Bytes} (h : old <:+: s) :
    ∃ a b, s = a ++ (old ++ b) ∧ NoMatch old a (old ++ b) := by
  have hsome := contains_iff.mpr h
  obtain ⟨i, hi⟩ := Option.isSome_iff_exists.mp hsome
  obtain ⟨⟨b, hb⟩, hfirst⟩ := index_eq_some hi
  have hs : s = s.take i ++ (old ++ b) := by rw [hb, List.take_append_drop]
  refine ⟨s.take i, b, hs, fun j hj => ?_⟩
  rw [← hs]
  refine hfirst j (lt_of_lt_of_le hj ?_)
  rw [List.length_take]
  exact Nat.min_le_left i s.length

theorem replaceFirst_self (s old : Bytes) : replaceFirst s old old = s := by
  by_cases h : old <:+: s
  · obtain ⟨a, b, rfl, hno⟩ := exists_first_match h
    rw [replaceFirst_append hno]
  · rw [← contains_iff, contains, Bool.not_eq_true, Option.isSome_eq_false_iff,
      Option.isNone_iff_eq_none] at h
    rw [replaceFirst, h]

section

variable {s old new rest : Bytes}

theorem replaceLoop_skip (old new s rest : Bytes) :
    replaceLoop old new s.length (s ++ rest) = replaceAll rest old new := by
  induction s with
  | nil => rfl
  | cons b s ih => exact ih

/-- **A match is replaced**, and the rest after it. -/
theorem replaceAll_match (hne : old ≠ []) :
    replaceAll (old ++ rest) old new = new ++ replaceAll rest old new := by
  cases old with
  | nil => exact absurd rfl hne
  | cons b old =>
    have hmatch : (b :: old).isPrefixOf (b :: (old ++ rest)) = true := by
      rw [List.isPrefixOf_iff_prefix]
      exact List.prefix_append (b :: old) rest
    rw [replaceAll, List.cons_append, replaceLoop, if_pos hmatch, List.length_cons,
      Nat.add_sub_cancel, replaceLoop_skip]

/-- **A text in which no match begins stays.** -/
theorem replaceAll_append (h : NoMatch old s rest) :
    replaceAll (s ++ rest) old new = s ++ replaceAll rest old new := by
  induction s with
  | nil => rfl
  | cons b s ih =>
    have hmatch : ¬ old.isPrefixOf (b :: (s ++ rest)) = true := by
      rw [List.isPrefixOf_iff_prefix]
      exact h 0 (by simp)
    have htail : NoMatch old s rest := fun j hj => h (j + 1) (by simpa using hj)
    have hrest := ih htail
    rw [replaceAll] at hrest ⊢
    rw [List.cons_append, replaceLoop, if_neg hmatch, hrest]
    rfl

theorem replaceAll_self (hne : old ≠ []) (s : Bytes) : replaceAll s old old = s := by
  induction hlen : s.length using Nat.strong_induction_on generalizing s with
  | _ n ih =>
    cases s with
    | nil => rfl
    | cons b s =>
      by_cases hmatch : old <+: b :: s
      · obtain ⟨rest, hrest⟩ := hmatch
        have hpos := List.length_pos_iff.mpr hne
        have hlength := congrArg List.length hrest
        rw [List.length_append] at hlength
        rw [← hrest, replaceAll_match hne, ih rest.length (by omega) rest rfl]
      · have hno : NoMatch old [b] s := noMatch_cons hmatch (noMatch_nil old s)
        rw [← List.singleton_append, replaceAll_append hno,
          ih s.length (by rw [← hlen]; simp) s rfl]

end

end Veduta.Go
