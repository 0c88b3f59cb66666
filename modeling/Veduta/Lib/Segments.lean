import Veduta.Go.Strings

/-!
# Rooted paths as lists of segments

A rooted path is a `/` before each of its segments, and the bare root has none.
Everything a prefix test or a join of two paths does on strings is said here once
on segment lists, for segments that are non-empty and hold no `/`.
-/

namespace Veduta.Lib

open Go

abbrev slash : UInt8 := 0x2f

/-- The segments of a rooted path.  The bare root has zero segments, not one empty
segment, and so does the empty path. -/
def segments (p : Bytes) : List Bytes :=
  if p = [] ∨ p = [slash] then [] else (p.drop 1).splitOn slash

/-- The rooted path with the given segments. -/
def pathOf : List Bytes → Bytes
  | [] => [slash]
  | s :: segs => (s :: segs).flatMap (slash :: ·)

/-- A segment that a path can hold without changing its segment list. -/
structure Solid (s : Bytes) : Prop where
  ne_nil : s ≠ []
  slash_notMem : slash ∉ s

@[simp] theorem pathOf_nil : pathOf [] = [slash] := rfl

variable {segs a b : List Bytes}

theorem pathOf_of_ne_nil (h : segs ≠ []) : pathOf segs = segs.flatMap (slash :: ·) := by
  cases segs with
  | nil => exact absurd rfl h
  | cons s segs => rfl

theorem cons_intercalate (h : segs ≠ []) : slash :: [slash].intercalate segs = pathOf segs := by
  rw [pathOf_of_ne_nil h]
  induction segs with
  | nil => exact absurd rfl h
  | cons s segs ih =>
    cases segs with
    | nil => simp [List.intercalate]
    | cons t segs =>
      rw [List.flatMap_cons, ← ih (by simp), List.intercalate_cons_cons]
      simp

theorem slash_notMem_of_mem_splitOn {s seg : Bytes} (h : seg ∈ s.splitOn slash) :
    slash ∉ seg := by
  induction s generalizing seg with
  | nil =>
    simp only [List.splitOn_nil, List.mem_singleton] at h
    simp [h]
  | cons b s ih =>
    rw [List.splitOn_cons_eq_if_modifyHead] at h
    by_cases hb : b = slash
    · simp only [hb, beq_self_eq_true, if_true, List.mem_cons] at h
      rcases h with rfl | h
      · simp
      · exact ih h
    · have hb' : (b == slash) = false := by simpa using hb
      simp only [hb', Bool.false_eq_true, if_false] at h
      rcases hs : s.splitOn slash with _ | ⟨hd, tl⟩
      · exact absurd hs (List.splitOn_ne_nil _ _)
      · rw [hs, List.modifyHead_cons, List.mem_cons] at h
        rcases h with rfl | h
        · have hhd : slash ∉ hd := ih (by simp [hs])
          simp [Ne.symm hb, hhd]
        · exact ih (by simp [hs, h])

/-- **Rendering and splitting are inverse** on solid segments. -/
theorem segments_pathOf (h : ∀ s ∈ segs, Solid s) : segments (pathOf segs) = segs := by
  cases segs with
  | nil => simp [segments]
  | cons s segs =>
    have hne : (s :: segs) ≠ [] := by simp
    have hs := (h s (by simp)).ne_nil
    have hroot : pathOf (s :: segs) ≠ [slash] := by
      simp [pathOf, hs]
    have hempty : pathOf (s :: segs) ≠ [] := by simp [pathOf]
    rw [segments, if_neg (by simp [hroot, hempty]), ← cons_intercalate hne, List.drop_one,
      List.tail_cons, List.splitOn_intercalate _ (fun l hl => (h l hl).slash_notMem) hne]

theorem pathOf_injOn (ha : ∀ s ∈ a, Solid s) (hb : ∀ s ∈ b, Solid s) (h : pathOf a = pathOf b) :
    a = b := by
  rw [← segments_pathOf ha, ← segments_pathOf hb, h]

theorem pathOf_splitOn (s : Bytes) : pathOf (s.splitOn slash) = slash :: s := by
  rw [← cons_intercalate (List.splitOn_ne_nil _ _), List.intercalate_splitOn]

theorem pathOf_append (ha : a ≠ []) (hb : b ≠ []) : pathOf (a ++ b) = pathOf a ++ pathOf b := by
  rw [pathOf_of_ne_nil (by simp [ha]), pathOf_of_ne_nil ha, pathOf_of_ne_nil hb,
    List.flatMap_append]

theorem slash_mem_pathOf (segs : List Bytes) : ∃ t, pathOf segs = slash :: t := by
  cases segs with
  | nil => exact ⟨[], rfl⟩
  | cons s segs => exact ⟨s ++ segs.flatMap (slash :: ·), by simp [pathOf]⟩

theorem mem_pathOf_iff {b : UInt8} (hb : b ≠ slash) : b ∈ pathOf segs ↔ ∃ s ∈ segs, b ∈ s := by
  cases segs with
  | nil => simp [hb]
  | cons s segs => simp [pathOf_of_ne_nil, hb]

theorem infix_pathOf {s : Bytes} (hs : s ∈ segs) : s <:+: pathOf segs := by
  rw [pathOf_of_ne_nil (List.ne_nil_of_mem hs), List.flatMap_def]
  have hmem : slash :: s ∈ segs.map (slash :: ·) := List.mem_map_of_mem hs
  exact (List.suffix_cons slash s).isInfix.trans (List.infix_of_mem_flatten hmem)

theorem pathOf_eq_cons (h : ∀ s ∈ segs, Solid s) :
    ∃ t, pathOf segs = slash :: t ∧ ¬ [slash] <+: t := by
  cases segs with
  | nil => exact ⟨[], rfl, by simp⟩
  | cons s segs =>
    have hs := h s List.mem_cons_self
    refine ⟨s ++ segs.flatMap (slash :: ·), by simp [pathOf], ?_⟩
    obtain ⟨b, bs, rfl⟩ := List.exists_cons_of_ne_nil hs.ne_nil
    intro hpre
    rw [List.cons_append, List.cons_prefix_cons] at hpre
    exact hs.slash_notMem (hpre.1 ▸ List.mem_cons_self)

theorem not_slash_suffix_pathOf (hne : segs ≠ []) (h : ∀ s ∈ segs, Solid s) :
    ¬ [slash] <:+ pathOf segs := by
  obtain ⟨init, s, rfl⟩ : ∃ init s, segs = init ++ [s] :=
    ⟨segs.dropLast, segs.getLast hne, (List.dropLast_append_getLast hne).symm⟩
  have hs := h s (by simp)
  obtain ⟨s', b, rfl⟩ : ∃ s' b, s = s' ++ [b] :=
    ⟨s.dropLast, s.getLast hs.ne_nil, (List.dropLast_append_getLast hs.ne_nil).symm⟩
  have hlast : pathOf (init ++ [s' ++ [b]]) =
      (init.flatMap (slash :: ·) ++ slash :: s') ++ [b] := by
    rw [pathOf_of_ne_nil hne, List.flatMap_append]
    simp
  rintro ⟨t, ht⟩
  rw [hlast] at ht
  have hb : slash = b := by simpa using (List.append_inj' ht rfl).2
  exact hs.slash_notMem (by simp [hb])

/-- **A string prefix that ends at a `/` is a segment prefix.** -/
theorem prefix_pathOf_iff (ha : ∀ s ∈ a, Solid s) (hb : ∀ s ∈ b, Solid s) (hbne : b ≠ []) :
    (pathOf a = pathOf b ∨ pathOf b ++ [slash] <+: pathOf a) ↔ b <+: a := by
  constructor
  · rintro (h | ⟨t, ht⟩)
    · rw [pathOf_injOn ha hb h]
    · -- the rest of the string splits into the remaining segments
      have hsplit : pathOf a = pathOf (b ++ t.splitOn slash) := by
        rw [pathOf_append hbne (List.splitOn_ne_nil _ _), pathOf_splitOn, ← ht]
        simp
      have hane : a ≠ [] := by
        rintro rfl
        have hlen := congrArg List.length ht
        obtain ⟨u, hu⟩ := slash_mem_pathOf b
        simp [hu] at hlen
      have hseg : a = b ++ t.splitOn slash := by
        have hL := List.splitOn_intercalate slash (fun l hl => (ha l hl).slash_notMem) hane
        have hR : ([slash].intercalate (b ++ t.splitOn slash)).splitOn slash =
            b ++ t.splitOn slash := by
          refine List.splitOn_intercalate slash ?_ (by simp [hbne])
          intro l hl
          rcases List.mem_append.mp hl with hl | hl
          · exact (hb l hl).slash_notMem
          · exact slash_notMem_of_mem_splitOn hl
        have hi : [slash].intercalate a = [slash].intercalate (b ++ t.splitOn slash) := by
          have := hsplit
          rw [← cons_intercalate hane, ← cons_intercalate (by simp [hbne])] at this
          exact List.tail_eq_of_cons_eq this
        rw [← hL, hi, hR]
      exact ⟨_, hseg.symm⟩
  · rintro ⟨c, rfl⟩
    cases c with
    | nil => left; simp
    | cons s c =>
      right
      rw [pathOf_append hbne (by simp)]
      exact ⟨s ++ c.flatMap (slash :: ·), by simp [pathOf]⟩

end Veduta.Lib
