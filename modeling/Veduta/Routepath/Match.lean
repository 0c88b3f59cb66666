import Veduta.Lib.Glob
import Veduta.Routepath.NormalForm

/-!
# Route patterns and path subtrees

The two questions package `routepath` answers about canonical paths: whether a
route's glob covers a path, and whether a path lies in the subtree of another.  Both
are string computations; here each is tied to what it means, the language of the
glob and the prefix order on segment lists.
-/

namespace Veduta.Routepath

open Go Lib

abbrev star : UInt8 := 0x2a

/-- The loop of `matchSegment`: each middle part at its leftmost place. -/
def matchMiddle : List Bytes → Bytes → Bool
  | [], _ => true
  | part :: parts, seg =>
    if part = [] then matchMiddle parts seg
    else
      match index seg part with
      | none => false
      | some idx => matchMiddle parts (seg.drop (idx + part.length))

/-- One pattern segment against one path segment. -/
def matchSegment (pattern seg : Bytes) : Bool :=
  if !contains pattern [star] then pattern == seg
  else
    let parts := pattern.splitOn star
    let first := parts.headD []
    let last := parts.getLastD []
    if !hasPrefix seg first then false
    else
      let seg := seg.drop first.length
      if !hasSuffix seg last then false
      else matchMiddle (parts.drop 1).dropLast (seg.take (seg.length - last.length))

/-- `Match`: segment by segment, over equally many segments. -/
def matchPath (pattern path : Bytes) : Bool :=
  let patternSegs := (trimPrefix pattern [slash]).splitOn slash
  let pathSegs := (trimPrefix path [slash]).splitOn slash
  patternSegs.length == pathSegs.length &&
    (patternSegs.zip pathSegs).all fun x => matchSegment x.1 x.2

/-- `HasPathPrefix`: the same path, or the prefix followed by a `/`. -/
def hasPathPrefix (canonicalPath canonicalPrefix : Bytes) : Bool :=
  if canonicalPrefix = [slash] ∨ canonicalPath = canonicalPrefix then true
  else hasPrefix canonicalPath (trimSuffix canonicalPrefix [slash] ++ [slash])

theorem matchMiddle_iff (parts : List Bytes) (seg : Bytes) :
    matchMiddle parts seg = true ↔ InOrder parts seg := by
  induction parts generalizing seg with
  | nil => simp [matchMiddle, InOrder]
  | cons part parts ih =>
    by_cases hp : part = []
    · subst hp
      rw [inOrder_nil_cons, ← ih]
      simp [matchMiddle]
    · rcases hi : index seg part with _ | idx
      · have hno : ¬ InOrder (part :: parts) seg := not_inOrder_cons (index_eq_none hi)
        simp [matchMiddle, hp, hi, hno]
      · obtain ⟨hat, hfirst⟩ := index_eq_some hi
        rw [inOrder_cons_leftmost hat hfirst, ← ih]
        simp [matchMiddle, hp, hi]

theorem exists_middle_iff (first last seg : Bytes) (P : Bytes → Prop) :
    (∃ m, seg = first ++ (m ++ last) ∧ P m) ↔
      first <+: seg ∧ last <:+ seg.drop first.length ∧
        P ((seg.drop first.length).take ((seg.drop first.length).length - last.length)) := by
  constructor
  · rintro ⟨m, rfl, hm⟩
    simpa using hm
  · rintro ⟨⟨t, rfl⟩, hsuffix, hP⟩
    rw [List.drop_left] at hsuffix hP
    obtain ⟨m, rfl⟩ := hsuffix
    exact ⟨m, rfl, by simpa using hP⟩

variable {c pattern path : Bytes}

/-- **One segment matches exactly when the glob generates it.** -/
theorem matchSegment_iff {seg : Bytes} (hseg : slash ∉ seg) :
    matchSegment pattern seg = true ↔ Generates star slash pattern seg := by
  rw [generates_iff_fits pattern seg hseg]
  by_cases hstar : star ∈ pattern
  · obtain ⟨a, b, rfl⟩ := List.append_of_mem hstar
    obtain ⟨first, rest, hparts⟩ :=
      List.exists_cons_of_ne_nil (List.splitOn_ne_nil star (a ++ star :: b))
    -- a pattern with a wildcard splits into at least two parts
    have hrest : rest ≠ [] := by
      rintro rfl
      rw [List.splitOn_append_cons_self] at hparts
      have hlen := congrArg List.length hparts
      have ha := List.length_pos_iff.mpr (List.splitOn_ne_nil star a)
      have hb := List.length_pos_iff.mpr (List.splitOn_ne_nil star b)
      simp only [List.length_append, List.length_singleton] at hlen
      omega
    obtain ⟨middle, last, rfl⟩ : ∃ middle last, rest = middle ++ [last] :=
      ⟨_, _, (List.dropLast_append_getLast hrest).symm⟩
    have hcontains : contains (a ++ star :: b) [star] = true :=
      (contains_singleton _ _).mpr hstar
    rw [hparts, fits_cons_append_singleton, exists_middle_iff, ← matchMiddle_iff,
      ← hasPrefix_iff, ← hasSuffix_iff]
    simp [matchSegment, hcontains, hparts, List.getLastD]
  · have hcontains : contains pattern [star] = false := by
      rw [← Bool.not_eq_true, contains_singleton]
      exact hstar
    have hparts : pattern.splitOn star = [pattern] := by
      have := splitOn_append_of_notMem hstar []
      simpa using this
    rw [hparts]
    simp only [matchSegment, hcontains, Fits, Bool.not_false, if_true, beq_iff_eq]
    exact eq_comm

/-- **A rooted path matches exactly when the glob generates it.** -/
theorem matchPath_iff (hpattern : [slash] <+: pattern) (hpath : [slash] <+: path) :
    matchPath pattern path = true ↔ Generates star slash pattern path := by
  obtain ⟨p, rfl⟩ := hpattern
  obtain ⟨s, rfl⟩ := hpath
  have hroot : Generates star slash ([slash] ++ p) ([slash] ++ s) ↔ Generates star slash p s := by
    constructor
    · intro h
      cases h with
      | lit _ h => exact h
    · exact .lit (by decide)
  have hseg : ∀ x ∈ (p.splitOn slash).zip (s.splitOn slash),
      (matchSegment x.1 x.2 = true ↔ Generates star slash x.1 x.2) := by
    intro x hx
    exact matchSegment_iff (slash_notMem_of_mem_splitOn (List.of_mem_zip hx).2)
  rw [hroot, generates_iff_forall₂ (by decide), List.forall₂_iff_zip]
  simp only [matchPath, trimPrefix_append, Bool.and_eq_true, beq_iff_eq, List.all_eq_true]
  refine and_congr_right fun _ => ⟨fun h a b hab => ?_, fun h x hx => ?_⟩
  · exact (hseg _ hab).mp (h _ hab)
  · exact (hseg x hx).mpr (h hx)

theorem Canonical.rooted (h : Canonical c) : [slash] <+: c := by
  obtain ⟨p, rfl, _⟩ := (canonical_iff c).mp h
  obtain ⟨t, ht⟩ := slash_mem_pathOf (p.map Segment.bytes)
  exact ⟨t, ht.symm⟩

theorem Canonical.pathOf_segments (h : Canonical c) : pathOf (segments c) = c := by
  obtain ⟨p, rfl, _⟩ := (canonical_iff c).mp h
  rw [segments_spell]
  rfl

theorem Canonical.solid_segments (h : Canonical c) : ∀ s ∈ segments c, Solid s := by
  obtain ⟨p, rfl, _⟩ := (canonical_iff c).mp h
  rw [segments_spell]
  exact solid_map_bytes p

/-- **The string test is the prefix order on segments.** -/
theorem hasPathPrefix_iff {root : Bytes} (hpath : Canonical path) (hroot : Canonical root) :
    hasPathPrefix path root = true ↔ segments root <+: segments path := by
  by_cases hr : root = [slash]
  · subst hr
    simp [hasPathPrefix, segments]
  · have hne : segments root ≠ [] := by
      intro h
      have := hroot.pathOf_segments
      rw [h, pathOf_nil] at this
      exact hr this.symm
    have htrim : trimSuffix root [slash] = root := by
      refine trimSuffix_of_not _ _ ?_
      rw [← hroot.pathOf_segments]
      exact not_slash_suffix_pathOf hne hroot.solid_segments
    rw [← prefix_pathOf_iff hpath.solid_segments hroot.solid_segments hne,
      hpath.pathOf_segments, hroot.pathOf_segments]
    by_cases heq : path = root
    · simp [hasPathPrefix, heq]
    · simp [hasPathPrefix, hr, heq, htrim]

end Veduta.Routepath
