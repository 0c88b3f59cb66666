import Veduta.Go.Map
import Veduta.Routepath.Match

/-!
# Path templates

Package `routepath`: a request path in which whole segments may be placeholders for a
card's parameters.  A value fills exactly one segment, so the loader can decide before
anything runs whether every path of a template falls under a route's glob.
-/

namespace Veduta.Routepath

open Go Lib

/-- Why a template is refused, or does not expand. -/
inductive TemplateError where
  | path (e : Error)
  | brace (segment : Bytes)
  | placeholderName (name : Bytes)
  | placeholderAbsent (name : Bytes)
  | placeholderValue (name value : Bytes)
  deriving DecidableEq, Repr

/-- One segment: canonical text, or a placeholder with its name. -/
inductive TemplateSegment where
  | literal (segment : Bytes)
  | placeholder (name : Bytes)
  deriving DecidableEq, Repr

structure Template where
  raw : Bytes
  segments : List TemplateSegment
  deriving DecidableEq, Repr

/-- The expression `^[A-Za-z][A-Za-z0-9_]{0,31}$`. -/
def placeholderName (name : Bytes) : Bool :=
  let letter (b : UInt8) : Bool := (0x41 ≤ b && b ≤ 0x5a) || (0x61 ≤ b && b ≤ 0x7a)
  match name with
  | [] => false
  | b :: rest =>
    letter b && rest.length ≤ 31 &&
      rest.all fun c => letter c || (0x30 ≤ c && c ≤ 0x39) || c == 0x5f

def hasBrace (part : Bytes) : Bool := part.any fun b => b == 0x7b || b == 0x7d

/-- One part of the path: the placeholder in it, and the text that stands in for the part
while the path is canonicalised. -/
def parsePart (part : Bytes) : Except TemplateError (Option Bytes × Bytes) :=
  if hasBrace part then
    let name := (part.drop 1).dropLast
    if part.length < 3 ∨ part.head? ≠ some 0x7b ∨ part.getLast? ≠ some 0x7d ∨
        hasBrace name = true then
      .error (.brace part)
    else if !placeholderName name then .error (.placeholderName name)
    else .ok (some name, ascii "x")
  else .ok (none, part)

/-- A segment of the parsed template, from its placeholder and its canonical text. -/
def templateSegment : Option Bytes → Bytes → TemplateSegment
  | some name, _ => .placeholder name
  | none, seg => .literal seg

def parseTemplate (raw : Bytes) : Except TemplateError Template :=
  if raw = [slash] then
    match canonicalise raw with
    | .error e => .error (.path e)
    | .ok _ => .ok ⟨raw, []⟩
  else if !hasPrefix raw [slash] then .error (.path .notAbsolute)
  else
    match ((raw.drop 1).splitOn slash).mapM parsePart with
    | .error e => .error e
    | .ok parts =>
      match canonicalise (slash :: [slash].intercalate (parts.map Prod.snd)) with
      | .error e => .error (.path e)
      | .ok canonical =>
        .ok ⟨raw, List.zipWith templateSegment (parts.map Prod.fst)
          ((canonical.drop 1).splitOn slash)⟩

/-- The placeholder names in path order, repeats included. -/
def Template.placeholders (t : Template) : List Bytes :=
  t.segments.filterMap fun
    | .placeholder name => some name
    | .literal _ => none

/-- A literal is matched as in an ordinary path; a placeholder needs a whole `*`. -/
def TemplateSegment.coveredBy (globSegment : Bytes) : TemplateSegment → Bool
  | .placeholder _ => globSegment == [star]
  | .literal seg => matchSegment globSegment seg

/-- Whether every path of the template matches a glob, given as it is declared. -/
def Template.coveredBy (t : Template) (pattern : Bytes) : Bool :=
  match canonicalise pattern with
  | .error _ => false
  | .ok canonical =>
    if t.segments = [] then canonical == [slash]
    else
      let globSegments := (trimPrefix canonical [slash]).splitOn slash
      if canonical = [slash] ∨ globSegments.length ≠ t.segments.length then false
      else (globSegments.zip t.segments).all fun x => x.2.coveredBy x.1

/-- A value that fills one segment with no escaping and no second reading. -/
def validPlaceholderValue (v : Bytes) : Bool :=
  if v = [] ∨ v.length > 128 ∨ v = ascii "." ∨ v = ascii ".." then false
  else v.all fun b => isUnreserved b || b == 0x3a || b == 0x40

/-- The text of one segment under given values. -/
def TemplateSegment.fill (values : GoMap Bytes Bytes) :
    TemplateSegment → Except TemplateError Bytes
  | .literal seg => .ok seg
  | .placeholder name =>
    match values.lookup name with
    | none => .error (.placeholderAbsent name)
    | some v =>
      if !validPlaceholderValue v then .error (.placeholderValue name v) else .ok v

/-- The path for given values, canonicalised once more. -/
def Template.expand (t : Template) (values : GoMap Bytes Bytes) : Except TemplateError Bytes :=
  if t.segments = [] then .ok [slash]
  else
    match t.segments.mapM (TemplateSegment.fill values) with
    | .error e => .error e
    | .ok out =>
      match canonicalise (slash :: [slash].intercalate out) with
      | .error e => .error (.path e)
      | .ok path => .ok path

/-- Text that is one segment of a canonical path. -/
def IsNormal (b : Bytes) : Prop := ∃ s : Segment, s.bytes = b ∧ s.normalise = s

theorem render_map_lit (v : Bytes) : render (v.map Tok.lit) = v := by
  induction v with
  | nil => rfl
  | cons b v ih => rw [List.map_cons, render_cons, ih]; rfl

/-- **A value that a placeholder admits is one canonical segment.** -/
theorem isNormal_of_validPlaceholderValue {v : Bytes} (h : validPlaceholderValue v = true) :
    IsNormal v := by
  rw [validPlaceholderValue] at h
  split_ifs at h with hbad
  simp only [not_or] at hbad
  have hplain : ∀ b : UInt8, (isUnreserved b || b == 0x3a || b == 0x40) = true →
      plain b = true := by
    decide +kernel
  have hvalue : (v.map Tok.lit).map Tok.value = v := by simp [Function.comp_def, Tok.value]
  let s : Segment := {
    toks := v.map Tok.lit
    admitted := by
      intro t ht
      obtain ⟨b, hb, rfl⟩ := List.mem_map.mp ht
      exact hplain b (List.all_eq_true.mp h b hb)
    ne_nil := by simpa using hbad.1
    not_dot := by
      rw [hvalue]
      simp [isDot, hbad.2.2.1, hbad.2.2.2] }
  refine ⟨s, render_map_lit v, ?_⟩
  rw [normalise_eq_self_iff]
  intro t ht
  obtain ⟨b, _, rfl⟩ := List.mem_map.mp ht
  rfl

theorem canonicalise_of_isNormal {out : List Bytes} (hne : out ≠ [])
    (h : ∀ b ∈ out, IsNormal b) :
    canonicalise (slash :: [slash].intercalate out) = .ok (pathOf out) := by
  have hsegments : ∃ p : List Segment, p.map Segment.bytes = out ∧ p.map Segment.normalise = p := by
    clear hne
    induction out with
    | nil => exact ⟨[], rfl, rfl⟩
    | cons b out ih =>
      obtain ⟨p, hp, hn⟩ := ih fun c hc => h c (List.mem_cons_of_mem _ hc)
      obtain ⟨s, hs, hsn⟩ := h b List.mem_cons_self
      exact ⟨s :: p, by rw [List.map_cons, hs, hp], by rw [List.map_cons, hsn, hn]⟩
  obtain ⟨p, rfl, hnormal⟩ := hsegments
  rw [cons_intercalate hne]
  exact (canonicalise_spell p).trans (by rw [hnormal]; rfl)

theorem IsNormal.solid {b : Bytes} (h : IsNormal b) : Solid b := by
  obtain ⟨s, rfl, _⟩ := h
  exact s.solid

theorem eq_nil_of_parsePart {part : Bytes} {x : Option Bytes × Bytes}
    (h : parsePart part = .ok x) (hx : x.2 = []) : part = [] := by
  rw [parsePart] at h
  dsimp only at h
  split_ifs at h
  · cases h
    cases hx
  · cases h
    exact hx

theorem intercalate_ne_nil_of_parsePart {s : Bytes} {parts : List (Option Bytes × Bytes)}
    (h : (s.splitOn slash).mapM parsePart = .ok parts) (hs : s ≠ []) :
    [slash].intercalate (parts.map Prod.snd) ≠ [] := by
  rw [mapM_eq_ok_iff] at h
  have hjoin : [slash].intercalate (s.splitOn slash) = s := List.intercalate_splitOn slash
  intro hnil
  generalize s.splitOn slash = split at h hjoin
  cases h with
  | nil => exact hs hjoin.symm
  | @cons part x split parts hx hrest =>
    cases hrest with
    | nil =>
      have hx2 : x.2 = [] := by simpa [List.intercalate] using hnil
      rw [eq_nil_of_parsePart hx hx2] at hjoin
      exact hs hjoin.symm
    | cons _ _ =>
      rw [List.map_cons, List.map_cons, List.intercalate_cons_cons] at hnil
      simp at hnil

/-- **A literal of a parsed template is a segment of a canonical path.** -/
theorem isNormal_of_parseTemplate {raw : Bytes} {t : Template} (h : parseTemplate raw = .ok t)
    {seg : Bytes} (hseg : TemplateSegment.literal seg ∈ t.segments) : IsNormal seg := by
  rw [parseTemplate] at h
  split_ifs at h with hroot hslash
  · split at h
    · cases h
    · cases h
      cases hseg
  rw [Bool.not_eq_true, Bool.not_eq_false', hasPrefix_iff] at hslash
  obtain ⟨s, rfl⟩ := hslash
  have hs : s ≠ [] := by
    rintro rfl
    exact hroot rfl
  rw [List.singleton_append, List.drop_one, List.tail_cons] at h
  split at h
  · cases h
  rename_i parts hparts
  split at h
  · cases h
  rename_i canonical hcanonical
  cases h
  obtain ⟨p, hp, rfl⟩ := (canonicalise_eq_ok_iff _ _).mp hcanonical
  -- the stand-in path is not the bare root, so its canonical form splits into segments
  have hne : p ≠ [] := by
    rintro rfl
    have hjoin : [slash].intercalate (parts.map Prod.snd) = [] := by
      have htail := congrArg List.tail hp
      simpa [spell] using htail.symm
    exact intercalate_ne_nil_of_parsePart hparts hs hjoin
  have hmem : seg ∈ ((spell (p.map Segment.normalise)).drop 1).splitOn slash := by
    rw [← List.map_uncurry_zip_eq_zipWith, List.mem_map] at hseg
    obtain ⟨⟨name, text⟩, hzip, htext⟩ := hseg
    cases name with
    | some name => cases htext
    | none =>
      cases htext
      exact (List.of_mem_zip hzip).2
  have hne' : (p.map Segment.normalise).map Segment.bytes ≠ [] := by simpa using hne
  rw [spell, ← cons_intercalate hne', List.drop_one, List.tail_cons,
    List.splitOn_intercalate _ (fun l hl => (solid_map_bytes _ l hl).slash_notMem) hne',
    List.mem_map] at hmem
  obtain ⟨s, hs, rfl⟩ := hmem
  obtain ⟨g, _, rfl⟩ := List.mem_map.mp hs
  exact ⟨g.normalise, rfl, g.normalise_normalise⟩

section

variable {raw : Bytes} {t : Template} {values : GoMap Bytes Bytes}

theorem isNormal_of_fill (h : parseTemplate raw = .ok t) {s : TemplateSegment}
    (hs : s ∈ t.segments) {b : Bytes} (hb : s.fill values = .ok b) : IsNormal b := by
  cases s with
  | literal seg =>
    cases hb
    exact isNormal_of_parseTemplate h hs
  | placeholder name =>
    simp only [TemplateSegment.fill] at hb
    split at hb
    · cases hb
    · split_ifs at hb with hvalid
      cases hb
      exact isNormal_of_validPlaceholderValue (by simpa using hvalid)

theorem isNormal_of_forall₂_fill (h : parseTemplate raw = .ok t) {out : List Bytes}
    (hout : List.Forall₂ (fun s b => s.fill values = .ok b) t.segments out) :
    ∀ b ∈ out, IsNormal b := by
  intro b hb
  obtain ⟨i, hi, rfl⟩ := List.getElem_of_mem hb
  have hi' : i < t.segments.length := hout.length_eq ▸ hi
  exact isNormal_of_fill h (List.getElem_mem hi') (hout.get hi' hi)

/-- **When a parsed template expands, and to which path**: every placeholder has a value
that fills one segment, and the path has exactly those segments. -/
theorem expand_eq_ok_iff (h : parseTemplate raw = .ok t) (path : Bytes) :
    t.expand values = .ok path ↔
      ∃ out, List.Forall₂ (fun s b => TemplateSegment.fill values s = .ok b) t.segments out ∧
        path = pathOf out := by
  rw [Template.expand]
  by_cases hne : t.segments = []
  · rw [if_pos hne, hne]
    simp [eq_comm]
  · rw [if_neg hne]
    cases hfill : t.segments.mapM (TemplateSegment.fill values) with
    | error e =>
      simp only [reduceCtorEq, false_iff, not_exists, not_and]
      intro out hout
      rw [← mapM_eq_ok_iff, hfill] at hout
      cases hout
    | ok out =>
      have hout := (mapM_eq_ok_iff _ _ _).mp hfill
      have houtne : out ≠ [] := by
        rintro rfl
        exact hne (List.forall₂_nil_right_iff.mp hout)
      dsimp only
      rw [canonicalise_of_isNormal houtne (isNormal_of_forall₂_fill h hout)]
      constructor
      · intro hpath
        exact ⟨out, hout, (Except.ok.inj hpath).symm⟩
      · intro hpath
        obtain ⟨out', hout', rfl⟩ := hpath
        rw [← mapM_eq_ok_iff, hfill] at hout'
        rw [Except.ok.inj hout']

theorem canonical_of_expand (h : parseTemplate raw = .ok t) {path : Bytes}
    (hpath : t.expand values = .ok path) : Canonical path := by
  obtain ⟨out, hout, rfl⟩ := (expand_eq_ok_iff h path).mp hpath
  by_cases hne : out = []
  · subst hne
    decide
  · have hcanonical := canonicalise_of_isNormal hne (isNormal_of_forall₂_fill h hout)
    exact canonical_of_canonicalise hcanonical

theorem matchSegment_star {seg : Bytes} (h : slash ∉ seg) : matchSegment [star] seg = true := by
  have hwild : Generates star slash [star] (seg ++ []) := .wild h .nil
  rw [matchSegment_iff h]
  simpa using hwild

theorem splitOn_trimPrefix_pathOf {segs : List Bytes} (hne : segs ≠ [])
    (h : ∀ s ∈ segs, Solid s) : (trimPrefix (pathOf segs) [slash]).splitOn slash = segs := by
  rw [← cons_intercalate hne, ← List.singleton_append, trimPrefix_append,
    List.splitOn_intercalate _ (fun l hl => (h l hl).slash_notMem) hne]

theorem matchSegment_of_coveredBy {s : TemplateSegment} {globSegment b : Bytes}
    (hcovered : s.coveredBy globSegment = true) (hb : s.fill values = .ok b)
    (hnormal : IsNormal b) : matchSegment globSegment b = true := by
  cases s with
  | literal seg =>
    cases hb
    exact hcovered
  | placeholder name =>
    rw [TemplateSegment.coveredBy, beq_iff_eq] at hcovered
    rw [hcovered]
    exact matchSegment_star hnormal.solid.slash_notMem

/-- **Coverage is sound**: whatever the values, the path matches the canonical glob. -/
theorem matchPath_of_coveredBy (h : parseTemplate raw = .ok t) {pattern path : Bytes}
    (hcovered : t.coveredBy pattern = true) (hpath : t.expand values = .ok path) :
    ∃ canonical, canonicalise pattern = .ok canonical ∧ matchPath canonical path = true := by
  obtain ⟨out, hout, rfl⟩ := (expand_eq_ok_iff h path).mp hpath
  have hnormal := isNormal_of_forall₂_fill h hout
  rw [Template.coveredBy] at hcovered
  split at hcovered
  · cases hcovered
  rename_i canonical hcanonical
  refine ⟨canonical, hcanonical, ?_⟩
  by_cases hne : t.segments = []
  · rw [if_pos hne, beq_iff_eq] at hcovered
    rw [hne, List.forall₂_nil_left_iff] at hout
    rw [hcovered, hout]
    decide
  · rw [if_neg hne] at hcovered
    dsimp only at hcovered
    split_ifs at hcovered with hlen
    simp only [not_or, not_not] at hlen
    have houtne : out ≠ [] := by
      rintro rfl
      exact hne (List.forall₂_nil_right_iff.mp hout)
    rw [matchPath, splitOn_trimPrefix_pathOf houtne fun s hs => (hnormal s hs).solid]
    simp only [Bool.and_eq_true, beq_iff_eq, List.all_eq_true]
    refine ⟨hlen.2.trans hout.length_eq, ?_⟩
    intro x hx
    obtain ⟨i, hi, rfl⟩ := List.getElem_of_mem hx
    rw [List.length_zip, lt_inf_iff] at hi
    have hi' : i < t.segments.length := hlen.2 ▸ hi.1
    have hglob := List.all_eq_true.mp hcovered _
      (List.getElem_mem (by rw [List.length_zip, lt_inf_iff]; exact ⟨hi.1, hi'⟩))
    rw [List.getElem_zip] at hglob ⊢
    exact matchSegment_of_coveredBy hglob (hout.get hi' hi.2) (hnormal _ (List.getElem_mem hi.2))

end

end Veduta.Routepath
