import Veduta.Go.Url
import Veduta.Routepath.Match

/-!
# Joining a request path onto a base URL

Package `connections`: how a caller's relative path becomes an upstream URL, and how the
destination of a redirect becomes a relative path again.  Both sides are canonical paths,
so the join is a concatenation of segment lists, and the way back drops the base's.
-/

namespace Veduta.Connections

open Go Lib Routepath

/-- Why a path is not joined.  The first three are `ErrPathTraversal`, alone or with a
cause. -/
inductive JoinError where
  | traversal
  | queryOrFragment
  | requestPath (e : Routepath.Error)
  | parse (e : URLError)
  | basePath (path : Bytes) (e : Routepath.Error)
  deriving DecidableEq, Repr

/-- An empty path stands for the root. -/
def orRoot (p : Bytes) : Bytes := if p = [] then [slash] else p

/-- The string that joins two canonical paths. -/
def joinCanonical (canonicalBase canonicalReq : Bytes) : Bytes :=
  if canonicalReq ≠ [slash] then trimSuffix canonicalBase [slash] ++ canonicalReq
  else canonicalBase

section

variable (parseAuthority : AuthorityParser)

/-- **The upstream URL of a request path**: neither an absolute URL nor a query, parsed
once, and canonicalised before it is appended. -/
def joinPath (base : URL) (p : Bytes) : Except JoinError URL :=
  if p = [] then .ok base
  else if contains p (ascii "://") || hasPrefix p (ascii "//") then .error .traversal
  else if p.contains (chr '?') || p.contains (chr '#') then .error .queryOrFragment
  else
    match URL.parse parseAuthority p with
    | .error e => .error (.parse e)
    | .ok parsed =>
      if parsed.scheme ≠ [] ∨ parsed.host ≠ [] then .error .traversal
      else
        match canonicalise (orRoot parsed.path) with
        | .error e => .error (.requestPath e)
        | .ok canonicalReq =>
          match canonicalise (orRoot base.path) with
          | .error e => .error (.basePath (orRoot base.path) e)
          | .ok canonicalBase =>
            .ok { base with path := joinCanonical canonicalBase canonicalReq,
                            rawQuery := parsed.rawQuery }

end

inductive RelativeError where
  | basePath (path : Bytes) (e : Routepath.Error)
  | escapes (canonicalPath canonicalBase : Bytes)
  deriving DecidableEq, Repr

/-- **The way back**: the caller's path for a canonical absolute one. -/
def relativeRedirectPath (base : URL) (canonicalPath : Bytes) : Except RelativeError Bytes :=
  match canonicalise (orRoot base.path) with
  | .error e => .error (.basePath (orRoot base.path) e)
  | .ok canonicalBase =>
    if canonicalBase = [slash] then .ok canonicalPath
    else if !hasPathPrefix canonicalPath canonicalBase then
      .error (.escapes canonicalPath canonicalBase)
    else .ok (orRoot (trimPrefix canonicalPath canonicalBase))

/-! ## Canonical paths compose -/

theorem canonical_slash : Canonical [slash] := by decide +kernel

@[simp] theorem segments_slash : segments [slash] = [] := rfl

@[simp] theorem segments_orRoot (p : Bytes) : segments (orRoot p) = segments p := by
  by_cases hp : p = [] <;> simp [orRoot, hp, segments]

/-- A base path that is empty or canonical canonicalises to itself, the empty one to the
root. -/
theorem canonical_orRoot {p : Bytes} (h : p = [] ∨ Canonical p) : Canonical (orRoot p) := by
  rcases h with rfl | h
  · exact canonical_slash
  · have hne : p ≠ [] := by
      rintro rfl
      exact absurd h (by decide)
    simpa [orRoot, hne] using h

variable {c b r rel : Bytes}

theorem segments_eq_nil_iff (h : Canonical c) : segments c = [] ↔ c = [slash] := by
  constructor
  · intro hs
    rw [← h.pathOf_segments, hs, pathOf_nil]
  · rintro rfl
    rfl

theorem canonical_spell {p : List Segment} (h : p.map Segment.normalise = p) :
    Canonical (spell p) :=
  (canonical_iff _).mpr ⟨p, rfl, h⟩

theorem trimSuffix_spell {p : List Segment} (hp : p ≠ []) :
    trimSuffix (spell p) [slash] = spell p :=
  trimSuffix_of_not _ _ (not_slash_suffix_pathOf (by simpa using hp) (solid_map_bytes p))

theorem joinCanonical_spell (p q : List Segment) :
    joinCanonical (spell p) (spell q) = spell (p ++ q) := by
  by_cases hq : q = []
  · subst hq
    simp [joinCanonical, spell]
  · have hqne : q.map Segment.bytes ≠ [] := by simpa using hq
    have hroot : spell q ≠ [slash] := by
      intro h
      have hsegments := congrArg segments h
      rw [segments_spell, segments_slash] at hsegments
      exact hqne hsegments
    rw [joinCanonical, if_pos hroot]
    by_cases hp : p = []
    · subst hp
      rfl
    · have hpne : p.map Segment.bytes ≠ [] := by simpa using hp
      rw [trimSuffix_spell hp, spell, spell, spell, List.map_append, pathOf_append hpne hqne]

/-- **A join of canonical paths is canonical**, and has the segments of both. -/
theorem canonical_joinCanonical (hb : Canonical b) (hr : Canonical r) :
    Canonical (joinCanonical b r) ∧ segments (joinCanonical b r) = segments b ++ segments r := by
  obtain ⟨p, rfl, hp⟩ := (canonical_iff b).mp hb
  obtain ⟨q, rfl, hq⟩ := (canonical_iff r).mp hr
  rw [joinCanonical_spell]
  refine ⟨canonical_spell ?_, by simp⟩
  rw [List.map_append, hp, hq]

theorem exists_spell_of_append {p whole : List Segment} (hp : p ≠ []) (hrel : [slash] <+: rel)
    (h : spell whole = spell p ++ rel) : ∃ q, rel = spell q := by
  have hpne : p.map Segment.bytes ≠ [] := by simpa using hp
  obtain ⟨t, rfl⟩ := hrel
  have hpre : spell p ++ [slash] <+: spell whole := ⟨t, by simp [h]⟩
  obtain ⟨rest, hrest⟩ :=
    (prefix_pathOf_iff (solid_map_bytes whole) (solid_map_bytes p) hpne).mp (Or.inr hpre)
  have hdrop : (whole.drop p.length).map Segment.bytes = rest := by
    rw [List.map_drop, ← hrest, List.drop_left' (by simp)]
  refine ⟨whole.drop p.length, ?_⟩
  by_cases hnil : rest = []
  · rw [hnil, List.append_nil] at hrest
    have hlen : spell p = spell p ++ ([slash] ++ t) := by rw [← h, spell, spell, hrest]
    simp at hlen
  · have happend : spell p ++ ([slash] ++ t) = spell p ++ pathOf rest := by
      rw [← h, spell, ← hrest, pathOf_append hpne hnil]
      rfl
    rw [spell, hdrop]
    exact List.append_cancel_left happend

/-- **Canonicalising a join** canonicalises what was appended. -/
theorem canonicalise_joinCanonical (hb : Canonical b) (hrel : [slash] <+: rel) :
    canonicalise (joinCanonical b rel) = .ok c ↔
      ∃ r, canonicalise rel = .ok r ∧ c = joinCanonical b r := by
  obtain ⟨p, rfl, hp⟩ := (canonical_iff b).mp hb
  constructor
  · intro h
    obtain ⟨q, rfl⟩ : ∃ q, rel = spell q := by
      by_cases hroot : rel = [slash]
      · exact ⟨[], hroot⟩
      obtain ⟨whole, hwhole, _⟩ := (canonicalise_eq_ok_iff _ _).mp h
      rw [joinCanonical, if_pos hroot] at hwhole
      by_cases hpnil : p = []
      · subst hpnil
        exact ⟨whole, hwhole.symm⟩
      rw [trimSuffix_spell hpnil] at hwhole
      exact exists_spell_of_append hpnil hrel hwhole
    rw [joinCanonical_spell, canonicalise_spell] at h
    refine ⟨_, canonicalise_spell q, ?_⟩
    have hpq := joinCanonical_spell p (q.map Segment.normalise)
    rw [hpq, ← Except.ok.inj h, List.map_append, hp]
  · rintro ⟨r, hr, rfl⟩
    obtain ⟨q, rfl, rfl⟩ := (canonicalise_eq_ok_iff _ _).mp hr
    rw [joinCanonical_spell, joinCanonical_spell, canonicalise_spell, List.map_append, hp]

theorem relativeRedirectPath_joinCanonical {base : URL}
    (hbase : base.path = [] ∨ Canonical base.path) (hr : Canonical r) :
    relativeRedirectPath base (joinCanonical (orRoot base.path) r) = .ok r := by
  have hb := canonical_orRoot hbase
  obtain ⟨hjoin, hsegments⟩ := canonical_joinCanonical hb hr
  have hcb : canonicalise (orRoot base.path) = .ok (orRoot base.path) := hb
  simp only [relativeRedirectPath, hcb]
  generalize orRoot base.path = b at hb hjoin hsegments
  by_cases hroot : b = [slash]
  · subst hroot
    by_cases hrr : r = [slash] <;> simp [joinCanonical, hrr, trimSuffix, hasSuffix]
  · have hpre : hasPathPrefix (joinCanonical b r) b = true := by
      rw [hasPathPrefix_iff hjoin hb, hsegments]
      exact List.prefix_append _ _
    have hne : segments b ≠ [] := fun h => hroot ((segments_eq_nil_iff hb).mp h)
    have htrim : trimSuffix b [slash] = b := by
      refine trimSuffix_of_not _ _ ?_
      rw [← hb.pathOf_segments]
      exact not_slash_suffix_pathOf hne hb.solid_segments
    rw [if_neg hroot, hpre]
    by_cases hrr : r = [slash]
    · have hself : trimPrefix b b = [] := by simpa using trimPrefix_append b []
      simp [joinCanonical, hrr, hself, orRoot]
    · have hrne : r ≠ [] := by
        rintro rfl
        exact absurd hr (by decide)
      simp [joinCanonical, hrr, htrim, orRoot, hrne]

/-! ## Confinement -/

theorem ne_dot_of_mem_segments {s : Bytes} (h : Canonical c) (hs : s ∈ segments c) :
    s ≠ ascii "." ∧ s ≠ ascii ".." := by
  obtain ⟨p, rfl, _⟩ := (canonical_iff c).mp h
  rw [segments_spell] at hs
  obtain ⟨t, _, rfl⟩ := List.mem_map.mp hs
  have key : ∀ w, unescape w = some w → isDot w = true → t.bytes ≠ w := by
    intro w hw hdot he
    have hdecoded : t.decoded = w := by
      rw [← Option.some_inj, ← t.unescape_bytes, he, hw]
    have hnot : isDot t.decoded = false := t.not_dot
    rw [hdecoded, hdot] at hnot
    cases hnot
  exact ⟨key _ (by decide +kernel) (by decide), key _ (by decide +kernel) (by decide)⟩

section

variable {parseAuthority : AuthorityParser}
variable {base u : URL} {p : Bytes}

theorem joinPath_eq_ok (hp : p ≠ []) (h : joinPath parseAuthority base p = .ok u) :
    ∃ parsed c b, URL.parse parseAuthority p = .ok parsed ∧ parsed.rawQuery = [] ∧
      canonicalise (orRoot parsed.path) = .ok c ∧ canonicalise (orRoot base.path) = .ok b ∧
      u = { base with path := joinCanonical b c, rawQuery := [] } := by
  rw [joinPath, if_neg hp] at h
  split_ifs at h with _ hquery
  rw [Bool.or_eq_true, not_or, List.contains_iff_mem, List.contains_iff_mem] at hquery
  split at h
  · cases h
  rename_i parsed hparsed
  have hraw := URL.parse_rawQuery hquery.1 hparsed
  split_ifs at h
  split at h
  · cases h
  rename_i c hc
  split at h
  · cases h
  rename_i b hb
  rw [hraw] at h
  exact ⟨parsed, c, b, hparsed, hraw, hc, hb, (Except.ok.inj h).symm⟩

/-- Over a canonical base, the URL is the base with the canonical request path joined on. -/
theorem joinPath_eq_joinCanonical (hbase : base.path = [] ∨ Canonical base.path) (hp : p ≠ [])
    (h : joinPath parseAuthority base p = .ok u) :
    ∃ parsed c, URL.parse parseAuthority p = .ok parsed ∧
      canonicalise (orRoot parsed.path) = .ok c ∧
      u = { base with path := joinCanonical (orRoot base.path) c, rawQuery := [] } ∧
      Canonical u.path ∧ segments u.path = segments base.path ++ segments c := by
  obtain ⟨parsed, c, b, hparsed, -, hc, hb, rfl⟩ := joinPath_eq_ok hp h
  have hroot := canonical_orRoot hbase
  obtain rfl : b = orRoot base.path := Except.ok.inj (hb.symm.trans hroot)
  obtain ⟨hcanonical, hsegments⟩ :=
    canonical_joinCanonical hroot (canonical_of_canonicalise hc)
  rw [segments_orRoot] at hsegments
  exact ⟨parsed, c, hparsed, hc, rfl, hcanonical, hsegments⟩

/-- **Upstream confinement**: an accepted path changes nothing of the base URL but the
path and, unless it is empty, the query; it only appends segments, none of which climbs;
and the way back recovers what was appended. -/
theorem joinPath_confined (hbase : base.path = [] ∨ Canonical base.path)
    (h : joinPath parseAuthority base p = .ok u) :
    u.scheme = base.scheme ∧ u.host = base.host ∧ u.user = base.user ∧
      u.rawQuery = (if p = [] then base.rawQuery else []) ∧
      u.fragment = base.fragment ∧ u.rawFragment = base.rawFragment ∧
      (∃ extra, segments u.path = segments base.path ++ extra ∧
        ∀ s ∈ extra, s ≠ [] ∧ s ≠ ascii "." ∧ s ≠ ascii "..") ∧
      (p ≠ [] → ∃ parsed c, URL.parse parseAuthority p = .ok parsed ∧
        canonicalise (orRoot parsed.path) = .ok c ∧
        segments u.path = segments base.path ++ segments c ∧
        relativeRedirectPath base u.path = .ok c) := by
  by_cases hp : p = []
  · rw [joinPath, if_pos hp] at h
    cases h
    refine ⟨rfl, rfl, rfl, by simp [hp], rfl, rfl, ⟨[], by simp⟩, fun hne => absurd hp hne⟩
  · obtain ⟨parsed, c, hparsed, hc, rfl, -, hsegments⟩ := joinPath_eq_joinCanonical hbase hp h
    have hcc := canonical_of_canonicalise hc
    refine ⟨rfl, rfl, rfl, by simp [hp], rfl, rfl, ⟨segments c, hsegments, fun s hs => ?_⟩,
      fun _ => ⟨parsed, c, hparsed, hc, hsegments, ?_⟩⟩
    · exact ⟨(hcc.solid_segments s hs).ne_nil, ne_dot_of_mem_segments hcc hs⟩
    · exact relativeRedirectPath_joinCanonical hbase hcc

end

def apiBase : URL := { scheme := ascii "https", host := ascii "host", path := ascii "/api" }

theorem joinPath_confined_api :
    joinPath (fun _ => .error .authority) apiBase (ascii "/items/%41") =
        .ok { apiBase with path := ascii "/api/items/A" } ∧
      ∃ extra, segments (ascii "/api/items/A") = segments apiBase.path ++ extra ∧
        ∀ s ∈ extra, s ≠ [] ∧ s ≠ ascii "." ∧ s ≠ ascii ".." := by
  have hjoin : joinPath (fun _ => .error .authority) apiBase (ascii "/items/%41") =
      .ok { apiBase with path := ascii "/api/items/A" } := by decide +kernel
  obtain ⟨-, -, -, -, -, -, hextra, -⟩ := joinPath_confined (by decide +kernel) hjoin
  exact ⟨hjoin, hextra⟩

end Veduta.Connections
