import Veduta.Integrations.Schema
import Veduta.Routepath.Template

/-!
# The static test of a path template is exact

Package `routepath`, over the globs that the manifest schema admits.  A glob segment other than
`*` holds a byte of its own, since the schema admits no `**`; a value without that byte is then
refused.  So the loader's test of a template against a route refuses no template that is safe.
-/

namespace Veduta.Manifestload

open Go Lib Routepath Integrations

/-! ## Globs of the schema -/

/-- What the schema says of a route's path. -/
def schemaPath (pattern : Bytes) : Bool := maxLength 512 pattern && pathPattern pattern

theorem mem_of_generates {α : Type} {star sep c : α} {pattern s : List α}
    (h : Generates star sep pattern s) (hc : c ∈ pattern) (hne : c ≠ star) : c ∈ s := by
  induction h with
  | nil => cases hc
  | lit hb _ ih =>
    rcases List.mem_cons.mp hc with rfl | hc
    · exact List.mem_cons_self
    · exact List.mem_cons_of_mem _ (ih hc)
  | wild hw _ ih =>
    rcases List.mem_cons.mp hc with rfl | hc
    · exact absurd rfl hne
    · exact List.mem_append_right _ (ih hc)

theorem isPathByte_star : isPathByte star = false := by decide

theorem pathTail_spec {s : Bytes} (h : pathTail s = true) :
    percent ∉ s ∧ ¬ [star, star] <:+: s := by
  have hpercent : isPathByte percent = false := by decide
  have hchar : ∀ b : UInt8, (isPathByte b || b == chr '.' || b == chr '*') = true →
      b ≠ percent := by
    intro b hb heq
    rw [heq] at hb
    exact absurd hb (by decide)
  fun_induction pathTail s with
  | case1 => simp
  | case2 b =>
    refine ⟨?_, ?_⟩
    · rw [List.mem_singleton]
      exact fun heq => hchar b h heq.symm
    · intro hin
      have hlen := hin.length_le
      simp at hlen
  | case3 b c rest hb ih =>
    obtain ⟨hmem, hin⟩ := ih h
    refine ⟨?_, ?_⟩
    · rw [List.mem_cons, not_or]
      refine ⟨?_, hmem⟩
      rintro rfl
      rw [hpercent] at hb
      cases hb
    · rw [List.infix_cons_iff, not_or]
      refine ⟨?_, hin⟩
      intro hpre
      rw [← (List.cons_prefix_cons.mp hpre).1, isPathByte_star] at hb
      cases hb
  | case4 b c rest hb ih =>
    rw [Bool.and_eq_true, Bool.and_eq_true] at h
    obtain ⟨⟨hmark, hc⟩, hrest⟩ := h
    obtain ⟨hmem, hin⟩ := ih hrest
    have hcstar : star ≠ c := by
      rintro rfl
      rw [isPathByte_star] at hc
      cases hc
    refine ⟨?_, ?_⟩
    · rw [List.mem_cons, List.mem_cons, not_or, not_or]
      refine ⟨fun heq => hchar b ?_ heq.symm, ?_, hmem⟩
      · rw [Bool.or_assoc, hmark, Bool.or_true]
      · rintro rfl
        rw [hpercent] at hc
        cases hc
    · rw [List.infix_cons_iff, List.infix_cons_iff, not_or, not_or]
      refine ⟨fun hpre => ?_, fun hpre => hcstar (List.cons_prefix_cons.mp hpre).1, hin⟩
      exact hcstar (List.cons_prefix_cons.mp (List.cons_prefix_cons.mp hpre).2).1

/-- A path that the schema admits is its own canonical form, and holds no `**`. -/
theorem canonicalise_of_schemaPath {pattern canonical : Bytes} (h : schemaPath pattern = true)
    (hc : canonicalise pattern = .ok canonical) :
    canonical = pattern ∧ ¬ [star, star] <:+: pattern := by
  rw [schemaPath, Bool.and_eq_true] at h
  cases pattern with
  | nil => simp [pathPattern] at h
  | cons b rest =>
    have hslash : b = slash ∧ pathTail rest = true := by
      by_cases hb : b = 0x2f
      · subst hb
        exact ⟨rfl, h.2⟩
      · have hfalse : pathPattern (b :: rest) = false := by
          rw [pathPattern]
          intro rest' heq
          exact hb (List.cons.inj heq).1
        rw [hfalse] at h
        cases h.2
    obtain ⟨rfl, htail⟩ := hslash
    obtain ⟨hmem, hin⟩ := pathTail_spec htail
    have hpercent : percent ∉ slash :: rest := by
      rw [List.mem_cons, not_or]
      exact ⟨by decide, hmem⟩
    refine ⟨(canonicalise_of_noEscape hc (noEscape_of_notMem hpercent)).1, ?_⟩
    rw [List.infix_cons_iff, not_or]
    exact ⟨fun hpre => absurd (List.cons_prefix_cons.mp hpre).1 (by decide), hin⟩

theorem exists_mem_ne_star {g : Bytes} (hne : g ≠ []) (hstar : g ≠ [star])
    (hin : ¬ [star, star] <:+: g) : ∃ c ∈ g, c ≠ star := by
  match g, hne, hstar, hin with
  | [b], _, hstar, _ => exact ⟨b, List.mem_cons_self, fun heq => hstar (heq ▸ rfl)⟩
  | b :: c :: rest, _, _, hin =>
    by_cases hb : b = star
    · refine ⟨c, by simp, fun hc => hin ?_⟩
      rw [hb, hc]
      exact (List.prefix_append [star, star] rest).isInfix
    · exact ⟨b, List.mem_cons_self, hb⟩

/-! ## The test is exact -/

section

variable {raw : Bytes} {t : Routepath.Template}

/-- An assignment that has a valid value for every placeholder. -/
def Assigns (t : Routepath.Template) (values : GoMap Bytes Bytes) : Prop :=
  ∀ name ∈ t.placeholders, ∃ v, values.lookup name = some v ∧ validPlaceholderValue v = true

theorem exists_fill {values : GoMap Bytes Bytes} (h : Assigns t values) :
    ∃ out, List.Forall₂ (fun s b => TemplateSegment.fill values s = .ok b) t.segments out := by
  have hfill : ∀ s ∈ t.segments, ∃ b, s.fill values = .ok b := by
    intro s hs
    cases s with
    | literal seg => exact ⟨seg, rfl⟩
    | placeholder name =>
      obtain ⟨v, hv, hvalid⟩ := h name (List.mem_filterMap.mpr ⟨_, hs, rfl⟩)
      exact ⟨v, by simp [TemplateSegment.fill, hv, hvalid]⟩
  clear h
  generalize t.segments = segs at hfill ⊢
  induction segs with
  | nil => exact ⟨[], .nil⟩
  | cons s segs ih =>
    obtain ⟨b, hb⟩ := hfill s List.mem_cons_self
    obtain ⟨out, hout⟩ := ih fun s' hs' => hfill s' (List.mem_cons_of_mem _ hs')
    exact ⟨b :: out, .cons hb hout⟩

theorem exists_constant (names : List Bytes) (v : Bytes) :
    ∃ values : GoMap Bytes Bytes, ∀ name ∈ names, values.lookup name = some v := by
  induction names with
  | nil => exact ⟨∅, by simp⟩
  | cons a names ih =>
    obtain ⟨values, hvalues⟩ := ih
    refine ⟨values.insert a v, fun name hname => ?_⟩
    by_cases ha : name = a
    · rw [ha]
      exact AList.lookup_insert _
    · rw [AList.lookup_insert_ne ha]
      exact hvalues name ((List.mem_cons.mp hname).resolve_left ha)

/-- The segments of a canonical glob are those that the matcher splits it into; the root has
one that is empty. -/
theorem splitOn_trimPrefix_of_canonical {c : Bytes} (h : Canonical c) (hne : c ≠ [slash]) :
    (trimPrefix c [slash]).splitOn slash = segments c := by
  have hsegments : segments c ≠ [] := by
    intro hnil
    have hpath := h.pathOf_segments
    rw [hnil, pathOf_nil] at hpath
    exact hne hpath.symm
  rw [← h.pathOf_segments, splitOn_trimPrefix_pathOf hsegments h.solid_segments,
    segments_pathOf h.solid_segments]

/-- A path of solid segments matches a glob exactly if there are equally many segments and each
matches. -/
theorem matchPath_pathOf_iff {c : Bytes} {out : List Bytes} (hc : Canonical c)
    (hroot : c ≠ [slash]) (hout : ∀ s ∈ out, Solid s) (hne : out ≠ []) :
    matchPath c (pathOf out) = true ↔
      List.Forall₂ (fun g b => matchSegment g b = true) (segments c) out := by
  rw [matchPath, splitOn_trimPrefix_of_canonical hc hroot, splitOn_trimPrefix_pathOf hne hout,
    List.forall₂_iff_zip]
  simp only [Bool.and_eq_true, beq_iff_eq, List.all_eq_true]
  refine and_congr_right fun _ => ⟨fun h a b hab => h _ hab, fun h x hx => h hx⟩

theorem not_matchPath_root {out : List Bytes} (hout : ∀ s ∈ out, Solid s) (hne : out ≠ []) :
    ¬ matchPath [slash] (pathOf out) = true := by
  intro h
  have hroot : (trimPrefix [slash] [slash]).splitOn slash = [[]] := by decide
  rw [matchPath, hroot, splitOn_trimPrefix_pathOf hne hout, Bool.and_eq_true, beq_iff_eq] at h
  obtain ⟨hlen, hall⟩ := h
  obtain ⟨b, rfl⟩ := List.length_eq_one_iff.mp hlen.symm
  have hmatch : matchSegment [] b = true := by simpa using hall
  have hempty : ([] : Bytes) = b := by simpa [matchSegment, contains_singleton] using hmatch
  exact (hout b List.mem_cons_self).ne_nil hempty.symm

theorem coveredBy_of_forall {s : TemplateSegment} {g : Bytes} (hg : Solid g)
    (hin : ¬ [star, star] <:+: g)
    (h : ∀ v, validPlaceholderValue v = true → ∀ b, (∀ seg, s = .literal seg → b = seg) →
      (∀ name, s = .placeholder name → b = v) → matchSegment g b = true) :
    s.coveredBy g = true := by
  cases s with
  | literal seg =>
    exact h (ascii "a") (by decide) seg (fun _ heq => by cases heq; rfl) (by simp)
  | placeholder name =>
    rw [TemplateSegment.coveredBy, beq_iff_eq]
    by_contra hstar
    obtain ⟨c, hc, hne⟩ := exists_mem_ne_star hg.ne_nil hstar hin
    -- one of two values of one byte does not hold the byte of the glob
    obtain ⟨v, hv, hslash, hmem⟩ : ∃ v, validPlaceholderValue v = true ∧ slash ∉ v ∧ c ∉ v := by
      by_cases ha : c = 0x61
      · refine ⟨ascii "b", by decide, by decide, ?_⟩
        rw [ha]
        decide
      · exact ⟨ascii "a", by decide, by decide, by simpa [ascii] using ha⟩
    have hmatch := h v hv v (by simp) fun _ _ => rfl
    exact hmem (mem_of_generates ((matchSegment_iff hslash).mp hmatch) hc hne)

end

/-- **The static test of a template is exact.**  For a template with a segment and a glob that
the schema admits and that canonicalises, the test succeeds exactly if every assignment of valid
values expands to a canonical path, of equally many segments, that matches the glob. -/
theorem coveredBy_iff_forall_expand (raw pattern canonical : Bytes) (t : Routepath.Template)
    (hparse : parseTemplate raw = .ok t) (hne : t.segments ≠ [])
    (hschema : schemaPath pattern = true) (hcanonical : canonicalise pattern = .ok canonical) :
    t.coveredBy pattern = true ↔
      ∀ values, Assigns t values →
        ∃ path, t.expand values = .ok path ∧ Canonical path ∧
          (segments path).length = t.segments.length ∧ matchPath canonical path = true := by
  constructor
  · intro hcovered values hvalues
    obtain ⟨out, hout⟩ := exists_fill hvalues
    have hpath : t.expand values = .ok (pathOf out) :=
      (expand_eq_ok_iff hparse _).mpr ⟨out, hout, rfl⟩
    have hsolid : ∀ s ∈ out, Solid s :=
      fun s hs => (isNormal_of_forall₂_fill hparse hout s hs).solid
    obtain ⟨canonical', hcanonical', hmatch⟩ := matchPath_of_coveredBy hparse hcovered hpath
    refine ⟨pathOf out, hpath, canonical_of_expand hparse hpath, ?_, ?_⟩
    · rw [segments_pathOf hsolid, hout.length_eq]
    · rw [Except.ok.inj (hcanonical.symm.trans hcanonical')]
      exact hmatch
  · intro h
    obtain ⟨rfl, hin⟩ := canonicalise_of_schemaPath hschema hcanonical
    have hc : Canonical canonical := hcanonical
    -- what one value in the place of all placeholders shows
    have hall : ∀ v, validPlaceholderValue v = true →
        ∃ values out, List.Forall₂ (fun s b => TemplateSegment.fill values s = .ok b)
          t.segments out ∧ (∀ name ∈ t.placeholders, values.lookup name = some v) ∧
          (∀ s ∈ out, Solid s) ∧ matchPath canonical (pathOf out) = true := by
      intro v hv
      obtain ⟨values, hvalues⟩ := exists_constant t.placeholders v
      obtain ⟨path, hpath, -, -, hmatch⟩ :=
        h values fun name hname => ⟨v, hvalues name hname, hv⟩
      obtain ⟨out, hout, rfl⟩ := (expand_eq_ok_iff hparse path).mp hpath
      exact ⟨values, out, hout, hvalues,
        fun s hs => (isNormal_of_forall₂_fill hparse hout s hs).solid, hmatch⟩
    have houtne : ∀ {values out}, List.Forall₂
        (fun s b => TemplateSegment.fill values s = .ok b) t.segments out → out ≠ [] := by
      intro values out hout hnil
      rw [hnil] at hout
      exact hne (List.forall₂_nil_right_iff.mp hout)
    obtain ⟨values₀, out₀, hout₀, -, hsolid₀, hmatch₀⟩ := hall (ascii "a") (by decide)
    have hroot : canonical ≠ [slash] := by
      intro hroot
      rw [hroot] at hmatch₀
      exact not_matchPath_root hsolid₀ (houtne hout₀) hmatch₀
    have hlen : (segments canonical).length = t.segments.length := by
      have hforall := (matchPath_pathOf_iff hc hroot hsolid₀ (houtne hout₀)).mp hmatch₀
      rw [hforall.length_eq, hout₀.length_eq]
    rw [Routepath.Template.coveredBy, hcanonical]
    dsimp only
    rw [if_neg hne, splitOn_trimPrefix_of_canonical hc hroot,
      if_neg (by simp [hroot, hlen]), List.all_eq_true]
    intro x hx
    obtain ⟨i, hi, rfl⟩ := List.getElem_of_mem hx
    rw [List.length_zip, lt_inf_iff] at hi
    rw [List.getElem_zip]
    have hglob : (segments canonical)[i] ∈ segments canonical := List.getElem_mem hi.1
    have hinfix : (segments canonical)[i] <:+: canonical := by
      conv_rhs => rw [← hc.pathOf_segments]
      exact infix_pathOf hglob
    refine coveredBy_of_forall (hc.solid_segments _ hglob) (fun hss => hin (hss.trans hinfix)) ?_
    intro v hv b hliteral hplaceholder
    obtain ⟨values, out, hout, hvalues, hsolid, hmatch⟩ := hall v hv
    have hi' : i < out.length := hout.length_eq ▸ hi.2
    have hfill := hout.get hi.2 hi'
    have hb : out[i] = b := by
      simp only [List.get_eq_getElem] at hfill
      cases hs : t.segments[i] with
      | literal seg =>
        rw [hs] at hfill
        rw [hliteral seg hs]
        exact (Except.ok.inj hfill).symm
      | placeholder name =>
        have hname : name ∈ t.placeholders :=
          List.mem_filterMap.mpr ⟨_, List.getElem_mem hi.2, by rw [hs]⟩
        rw [hs] at hfill
        simp only [TemplateSegment.fill, hvalues name hname, hv, Bool.not_true,
          Bool.false_eq_true, if_false] at hfill
        rw [hplaceholder name hs]
        exact (Except.ok.inj hfill).symm
    rw [← hb]
    have hforall := (matchPath_pathOf_iff hc hroot hsolid (houtne hout)).mp hmatch
    exact hforall.get hi.1 hi'

/-- The template `/api/{id}` is covered by `/api/*`. -/
theorem coveredBy_iff_forall_expand_id :
    schemaPath (ascii "/api/*") = true ∧
      ∀ values, Assigns ⟨ascii "/api/\x7bid\x7d", [.literal (ascii "api"), .placeholder (ascii "id")]⟩
          values →
        ∃ path, Routepath.Template.expand ⟨ascii "/api/\x7bid\x7d",
            [.literal (ascii "api"), .placeholder (ascii "id")]⟩ values = .ok path ∧
          Canonical path ∧ (segments path).length = 2 ∧ matchPath (ascii "/api/*") path = true :=
  ⟨by decide +kernel, (coveredBy_iff_forall_expand (ascii "/api/\x7bid\x7d") (ascii "/api/*")
    (ascii "/api/*") _ (by decide +kernel) (by decide) (by decide +kernel)
    (by decide +kernel)).mp (by decide +kernel)⟩

end Veduta.Manifestload
