import Veduta.Routepath.Canonicalise

/-!
# The normal form of a path

What the one canonicalisation routine promises to the checks that call it: the
result is a fixed point, the segments are those of the input, each denoting the
same bytes, and nothing is left that a second decoding could change the meaning of.
-/

namespace Veduta.Routepath

open Go Lib

/-- The upper-case hexadecimal digits, which canonical form does not use. -/
def isUpperHex (b : UInt8) : Bool := 0x41 ≤ b && b ≤ 0x46

/-- A canonical path is its own canonical form. -/
def Canonical (c : Bytes) : Prop := canonicalise c = .ok c

instance (c : Bytes) : Decidable (Canonical c) := inferInstanceAs (Decidable (_ = _))

theorem canonicalise_spell (p : List Segment) :
    canonicalise (spell p) = .ok (spell (p.map Segment.normalise)) :=
  (canonicalise_eq_ok_iff _ _).mpr ⟨p, rfl, rfl⟩

theorem canonical_iff (c : Bytes) :
    Canonical c ↔ ∃ p : List Segment, spell p = c ∧ p.map Segment.normalise = p := by
  rw [Canonical, canonicalise_eq_ok_iff]
  constructor
  · rintro ⟨p, rfl, h⟩
    exact ⟨p, rfl, (spell_injective h).symm⟩
  · rintro ⟨p, rfl, h⟩
    exact ⟨p, rfl, by rw [h]⟩

@[simp] theorem map_normalise_normalise (p : List Segment) :
    (p.map Segment.normalise).map Segment.normalise = p.map Segment.normalise := by
  simp [Function.comp_def]

theorem normalise_eq_self_iff (s : Segment) : s.normalise = s ↔ ∀ t ∈ s.toks, Normal t := by
  have hmap : s.toks.map normaliseTok = s.toks.map id ↔ ∀ t ∈ s.toks, Normal t :=
    List.map_inj_left
  rw [Segment.ext_iff, ← hmap, List.map_id]
  rfl

theorem map_normalise_eq_self_iff (p : List Segment) :
    p.map Segment.normalise = p ↔ ∀ s ∈ p, ∀ t ∈ s.toks, Normal t := by
  have hmap : p.map Segment.normalise = p.map id ↔ ∀ s ∈ p, s.normalise = s := List.map_inj_left
  rw [List.map_id] at hmap
  exact hmap.trans (forall₂_congr fun s _ => normalise_eq_self_iff s)

theorem canonical_of_canonicalise {x y : Bytes} (h : canonicalise x = .ok y) : Canonical y := by
  obtain ⟨p, _, rfl⟩ := (canonicalise_eq_ok_iff _ _).mp h
  exact (canonical_iff _).mpr ⟨p.map Segment.normalise, rfl, map_normalise_normalise p⟩

/-- No `%` with two digits after it. -/
def NoEscape (s : Bytes) : Prop :=
  ∀ hi lo, isHex hi = true → isHex lo = true → ¬ [percent, hi, lo] <:+: s

theorem noEscape_of_notMem {s : Bytes} (h : percent ∉ s) : NoEscape s :=
  fun _ _ _ _ hin => h (hin.subset List.mem_cons_self)

theorem infix_spell {p : List Segment} {s : Segment} {t : Tok} (hs : s ∈ p) (ht : t ∈ s.toks) :
    t.bytes <:+: spell p := by
  have hbytes : t.bytes <:+: s.bytes := by
    rw [Segment.bytes, render, List.flatMap_def]
    exact List.infix_of_mem_flatten (List.mem_map_of_mem ht)
  exact hbytes.trans (infix_pathOf (List.mem_map_of_mem hs))

/-- **Without an escape there is nothing to normalise**, and no `%` at all: a lone one is
not acceptable. -/
theorem canonicalise_of_noEscape {x y : Bytes} (h : canonicalise x = .ok y) (hx : NoEscape x) :
    y = x ∧ percent ∉ x := by
  obtain ⟨p, rfl, rfl⟩ := (canonicalise_eq_ok_iff _ _).mp h
  have hlit : ∀ s ∈ p, ∀ t ∈ s.toks, ∃ b, t = .lit b ∧ b ≠ percent := by
    intro s hs t ht
    have hvalid := s.valid t ht
    cases t with
    | lit b => exact ⟨b, rfl, hvalid⟩
    | esc hi lo => exact absurd (infix_spell hs ht) (hx hi lo hvalid.1 hvalid.2)
  constructor
  · rw [(map_normalise_eq_self_iff p).mpr]
    intro s hs t ht
    obtain ⟨b, rfl, _⟩ := hlit s hs t ht
    rfl
  · intro hmem
    obtain ⟨w, hw, hmem⟩ := (mem_pathOf_iff (by decide)).mp hmem
    obtain ⟨s, hs, rfl⟩ := List.mem_map.mp hw
    obtain ⟨t, ht, hmem⟩ := List.mem_flatMap.mp hmem
    obtain ⟨b, rfl, hb⟩ := hlit s hs t ht
    exact hb (List.mem_singleton.mp hmem).symm

/-! ## The normal form -/

/-- Splitting a spelt path at every `/`: the empty string before the first one, and
then the segments; the bare root leaves an empty string on both sides. -/
theorem splitOn_spell (p : List Segment) :
    (spell p).splitOn slash = [] :: if p = [] then [[]] else p.map Segment.bytes := by
  by_cases hp : p = []
  · subst hp
    rfl
  · have hne : p.map Segment.bytes ≠ [] := by simpa using hp
    rw [if_neg hp, spell, ← cons_intercalate hne]
    have hsplit := List.splitOn_append_cons_self [] ([slash].intercalate (p.map Segment.bytes))
      (a := slash)
    rw [List.nil_append] at hsplit
    rw [hsplit, List.splitOn_nil, List.singleton_append,
      List.splitOn_intercalate _ (fun l hl => (solid_map_bytes p l hl).slash_notMem) hne]

/-- Two segments that percent-decode, and to the same bytes. -/
def SameDecoded (a b : Bytes) : Prop := ∃ d, unescape a = some d ∧ unescape b = some d

theorem sameDecoded_splitOn_spell (p : List Segment) :
    List.Forall₂ SameDecoded ((spell p).splitOn slash)
      ((spell (p.map Segment.normalise)).splitOn slash) := by
  have hnil : SameDecoded [] [] := ⟨[], rfl, rfl⟩
  rw [splitOn_spell, splitOn_spell, List.forall₂_cons]
  refine ⟨hnil, ?_⟩
  by_cases hp : p = []
  · simp [hp, hnil]
  · rw [if_neg hp, if_neg (by simpa using hp), List.map_map, List.forall₂_map_left_iff,
      List.forall₂_map_right_iff, List.forall₂_same]
    intro s _
    exact ⟨s.decoded, by simp, by simp⟩

theorem isUpperHex_lowerHex : ∀ b : UInt8,
    isUpperHex (lowerHex (b >>> 4)) = false ∧ isUpperHex (lowerHex (b &&& 0xf)) = false := by
  decide +kernel

theorem Normal.esc {hi lo : UInt8} (h : Normal (.esc hi lo)) :
    isUpperHex hi = false ∧ isUpperHex lo = false ∧ isUnreserved (hexByte hi lo) = false := by
  by_cases hu : isUnreserved (hexByte hi lo) = true
  · simp [Normal, normaliseTok, hu] at h
  · rw [Bool.not_eq_true] at hu
    have he : hexEscape (hexByte hi lo) = .esc hi lo := by
      simpa [Normal, normaliseTok, hu] using h
    have hup := isUpperHex_lowerHex (hexByte hi lo)
    obtain ⟨hhi, hlo⟩ := Tok.esc.inj he
    exact ⟨hhi ▸ hup.1, hlo ▸ hup.2, hu⟩

/-- Every escape that the reading of a canonical path finds is a normal one. -/
theorem scan_spell_normalise (p : List Segment) :
    ∃ ts, scan (spell (p.map Segment.normalise)) = some ts ∧ ∀ t ∈ ts, Normal t := by
  by_cases hp : p = []
  · subst hp
    exact ⟨[.lit slash], rfl, by simp [Normal, normaliseTok]⟩
  · have hne : p.map Segment.normalise ≠ [] := by simpa using hp
    have hnormal : ∀ s ∈ p.map Segment.normalise, ∀ t ∈ s.toks, Normal t := by
      intro s hs t ht
      obtain ⟨s', _, rfl⟩ := List.mem_map.mp hs
      obtain ⟨t', _, rfl⟩ := List.mem_map.mp ht
      exact normal_normaliseTok t'
    refine ⟨_, scan_spell hne, ?_⟩
    intro t ht
    obtain ⟨s, hs, ht⟩ := List.mem_flatMap.mp ht
    rcases List.mem_cons.mp ht with rfl | ht
    · rfl
    · exact hnormal s hs t ht

/-- **The canonical form is a normal form.**  For every byte string the routine
accepts: the result is a fixed point; it has as many segments, the `i`-th denoting
the bytes the `i`-th of the input does; no escape in it is in upper case or of an
unreserved byte; and, the bare root apart, no segment denotes `.`, `..` or nothing. -/
theorem canonicalise_normalForm (x y : Bytes) (h : canonicalise x = .ok y) :
    canonicalise y = .ok y ∧
      (y.splitOn slash).length = (x.splitOn slash).length ∧
      List.Forall₂ SameDecoded (x.splitOn slash) (y.splitOn slash) ∧
      (∃ ts, scan y = some ts ∧ ∀ hi lo, Tok.esc hi lo ∈ ts →
        isUpperHex hi = false ∧ isUpperHex lo = false ∧ isUnreserved (hexByte hi lo) = false) ∧
      (y = [slash] ∨ ∀ seg ∈ (y.drop 1).splitOn slash, ∃ d, unescape seg = some d ∧
        d ≠ [] ∧ d ≠ ascii "." ∧ d ≠ ascii "..") := by
  obtain ⟨p, rfl, rfl⟩ := (canonicalise_eq_ok_iff _ _).mp h
  have hsame := sameDecoded_splitOn_spell p
  refine ⟨canonical_of_canonicalise h, hsame.length_eq.symm, hsame, ?_, ?_⟩
  · obtain ⟨ts, hts, hn⟩ := scan_spell_normalise p
    exact ⟨ts, hts, fun hi lo hm => (hn _ hm).esc⟩
  · by_cases hp : p = []
    · left
      simp [hp, spell]
    · right
      have hne : p.map Segment.normalise ≠ [] := by simpa using hp
      have hb : (p.map Segment.normalise).map Segment.bytes ≠ [] := by simpa using hp
      rw [spell, ← cons_intercalate hb, List.drop_one, List.tail_cons,
        List.splitOn_intercalate _ (fun l hl => (solid_map_bytes _ l hl).slash_notMem) hb]
      intro seg hseg
      obtain ⟨s, _, rfl⟩ := List.mem_map.mp hseg
      have hdot := s.not_dot
      simp only [isDot, Bool.or_eq_false_iff, beq_eq_false_iff_ne] at hdot
      exact ⟨s.decoded, s.unescape_bytes, s.solid_decoded.ne_nil, hdot.1, hdot.2⟩

/-- An escape of a comma kept in lower case, next to one of a letter decoded. -/
theorem canonicalise_normalForm_comma :
    canonicalise (ascii "/a%41%2C") = .ok (ascii "/aA%2c") ∧
      canonicalise (ascii "/aA%2c") = .ok (ascii "/aA%2c") :=
  ⟨by decide +kernel, (canonicalise_normalForm (ascii "/a%41%2C") _ (by decide +kernel)).1⟩

/-- The segment loop only fails where a `%` is not followed by two bytes. -/
theorem canonicaliseSegment_ne_indexPanic {seg : Bytes} {ts : List Tok}
    (h : scan seg = some ts) : canonicaliseSegment seg ≠ .error .indexPanic := by
  rw [canonicaliseSegment, segmentLoop_eq h]
  intro he
  split at he
  · cases he
  · split at he
    · cases he
    · simp only [List.nil_append] at he
      split at he <;> cases he

theorem checkEscapesWellFormed_ne_indexPanic (raw : Bytes) :
    checkEscapesWellFormed raw ≠ .error .indexPanic := by
  fun_induction checkEscapesWellFormed raw <;> simp_all

/-- **No input makes the routine panic**: an escape whose digits lie past the end of
a segment was already refused, on the whole path. -/
theorem canonicalise_ne_indexPanic (raw : Bytes) : canonicalise raw ≠ .error .indexPanic := by
  intro h
  rw [canonicalise] at h
  split at h
  · cases h
  split at h
  · cases h
  split at h
  · cases h
  split at h
  · cases h
  next h1 _ _ _ =>
    cases hesc : checkEscapesWellFormed raw with
    | error e =>
      rw [hesc] at h
      obtain rfl := Except.error.inj h
      exact checkEscapesWellFormed_ne_indexPanic raw hesc
    | ok u =>
      simp only [hesc] at h
      split at h
      · cases h
      · obtain ⟨ts, hts, _⟩ := (checkEscapesWellFormed_eq_ok_iff raw).mp hesc
        obtain ⟨t, rfl⟩ : [slash] <+: raw := by simpa using h1
        cases hm : ((([slash] ++ t).drop 1).splitOn slash).mapM canonicaliseSegment with
        | ok out =>
          rw [hm] at h
          cases h
        | error e =>
          rw [hm] at h
          obtain rfl := Except.error.inj h
          obtain ⟨seg, hseg, hbad⟩ := exists_of_mapM_eq_error _ hm
          obtain ⟨us, hus, _⟩ := scan_of_mem_splitOn hts seg (by simpa using hseg)
          exact canonicaliseSegment_ne_indexPanic hus hbad

end Veduta.Routepath
