import Mathlib.Data.List.Sort
import Veduta.Go.Map
import Mathlib.Data.List.TakeWhile
import Veduta.Lib.Percent
import Veduta.Lib.Segments

/-!
# URLs

Package `net/url`, as far as the program uses it: parsing a reference, the encoded form
of a path, and query strings.  `URL.path` is the decoded path, and `URL.rawPath` a hint
at how it was written.  The parser of an authority, which no path of the program's own
requests reaches, is a parameter.
-/

namespace Veduta.Go

open Lib

/-- The user part of an authority. -/
structure Userinfo where
  username : Bytes
  password : Bytes
  passwordSet : Bool
  deriving DecidableEq, Repr

/-- `url.URL`. -/
structure URL where
  scheme : Bytes := []
  opaquePart : Bytes := []
  user : Option Userinfo := none
  host : Bytes := []
  path : Bytes := []
  rawPath : Bytes := []
  omitHost : Bool := false
  forceQuery : Bool := false
  rawQuery : Bytes := []
  fragment : Bytes := []
  rawFragment : Bytes := []
  deriving DecidableEq, Repr

inductive URLError where
  | controlCharacter
  | missingScheme
  | colonInFirstSegment
  | invalidEscape
  | authority
  deriving DecidableEq, Repr

/-- The bytes that the default encoding of a path escapes. -/
def shouldEscapePath (b : UInt8) : Bool :=
  !(isUnreserved b || [0x24, 0x26, 0x2b, 0x2c, 0x2f, 0x3a, 0x3b, 0x3d, 0x40].contains b)

/-- A path that may be sent as it is written. -/
def validEncodedPath (s : Bytes) : Bool :=
  s.all fun b =>
    [0x21, 0x24, 0x26, 0x27, 0x28, 0x29, 0x2a, 0x2b, 0x2c, 0x3b, 0x3d, 0x3a, 0x40, 0x5b, 0x5d,
      percent].contains b || !shouldEscapePath b

namespace URL

/-- Decode the path once, and keep the written form if the default encoding of the
decoded path differs from it. -/
def setPath (u : URL) (p : Bytes) : Except URLError URL :=
  match unescape p with
  | none => .error .invalidEscape
  | some path =>
    .ok { u with path := path,
                 rawPath := if p = escapeWith shouldEscapePath path then [] else p }

/-- The bytes that the default encoding of a fragment escapes. -/
def shouldEscapeFragment (b : UInt8) : Bool :=
  shouldEscapePath b && !([0x21, 0x28, 0x29, 0x2a, 0x3f].contains b)

/-- The same for a fragment. -/
def setFragment (u : URL) (f : Bytes) : Except URLError URL :=
  match unescape f with
  | none => .error .invalidEscape
  | some fragment =>
    .ok { u with fragment := fragment,
                 rawFragment := if f = escapeWith shouldEscapeFragment fragment then [] else f }

def escapedPath (u : URL) : Bytes :=
  if u.rawPath ≠ [] ∧ validEncodedPath u.rawPath = true ∧ unescape u.rawPath = some u.path then
    u.rawPath
  else if u.path = ascii "*" then ascii "*"
  else escapeWith shouldEscapePath u.path

end URL

/-- The loop of `getScheme`, with what was read before. -/
def schemeLoop (rawURL : Bytes) : Bytes → Bytes → Except URLError (Bytes × Bytes)
  | _, [] => .ok ([], rawURL)
  | before, c :: rest =>
    if isAlpha c then schemeLoop rawURL (before ++ [c]) rest
    else if (0x30 ≤ c && c ≤ 0x39) || c == chr '+' || c == chr '-' || c == chr '.' then
      if before = [] then .ok ([], rawURL) else schemeLoop rawURL (before ++ [c]) rest
    else if c = chr ':' then
      if before = [] then .error .missingScheme else .ok (before, rest)
    else .ok ([], rawURL)

/-- The scheme before the first colon, if it can be one, and the rest. -/
def getScheme (rawURL : Bytes) : Except URLError (Bytes × Bytes) := schemeLoop rawURL [] rawURL

/-- The reading of an authority: its user, if it names one, and its host. -/
abbrev AuthorityParser := Bytes → Except URLError (Option Userinfo × Bytes)

section

variable (parseAuthority : AuthorityParser)

namespace URL

/-- The part of `parse` that reads an authority, if there is one, and the path. -/
def parseHierarchy (u : URL) (rest : Bytes) : Except URLError URL :=
  if (u.scheme ≠ [] ∨ !hasPrefix rest (ascii "///")) ∧ hasPrefix rest (ascii "//") = true then
    let authority := (rest.drop 2).takeWhile (· != slash)
    match parseAuthority authority with
    | .error e => .error e
    | .ok (user, host) =>
      { u with user := user, host := host }.setPath ((rest.drop 2).drop authority.length)
  else if u.scheme ≠ [] ∧ hasPrefix rest [slash] = true then
    { u with omitHost := true }.setPath rest
  else u.setPath rest

/-- `url.Parse`, for a reference without a fragment. -/
def parse (rawURL : Bytes) : Except URLError URL :=
  if rawURL.any (fun b => b < 0x20 || b == 0x7f) then .error .controlCharacter
  else if rawURL = ascii "*" then .ok { path := ascii "*" }
  else
    match getScheme rawURL with
    | .error e => .error e
    | .ok (scheme, rest) =>
      let u : URL := { scheme := toLower scheme }
      let (u, rest) :=
        if hasSuffix rest (ascii "?") && rest.count (chr '?') == 1 then
          ({ u with forceQuery := true }, rest.dropLast)
        else
          ({ u with rawQuery := (cut rest (chr '?')).2.1 }, (cut rest (chr '?')).1)
      if !hasPrefix rest [slash] then
        if u.scheme ≠ [] then .ok { u with opaquePart := rest }
        else if (cut rest slash).1.contains (chr ':') then .error .colonInFirstSegment
        else u.parseHierarchy parseAuthority rest
      else u.parseHierarchy parseAuthority rest

/-- `url.Parse`, for any reference. -/
def parseReference (rawURL : Bytes) : Except URLError URL :=
  match parse parseAuthority (cut rawURL (chr '#')).1 with
  | .error e => .error e
  | .ok u =>
    if (cut rawURL (chr '#')).2.1 = [] then .ok u else u.setFragment (cut rawURL (chr '#')).2.1

end URL

end

/-! ## What parsing yields -/

theorem cut_of_notMem {s : Bytes} {sep : UInt8} (h : sep ∉ s) : cut s sep = (s, [], false) := by
  have hne : ∀ x ∈ s, (x != sep) = true := fun x hx => bne_iff_ne.mpr fun he => h (he ▸ hx)
  have hspan : s.span (· != sep) = (s, []) := by
    rw [List.span_eq_takeWhile_dropWhile, List.takeWhile_eq_self_iff.mpr hne,
      List.dropWhile_eq_nil_iff.mpr hne]
  rw [cut, hspan]

theorem schemeLoop_suffix {raw before s scheme rest : Bytes} (hraw : before ++ s = raw)
    (h : schemeLoop raw before s = .ok (scheme, rest)) : rest <:+ raw := by
  -- on what is left to read
  induction s generalizing before with
  | nil =>
    cases h
    exact List.suffix_refl raw
  | cons c cs ih =>
    have hstep : before ++ [c] ++ cs = raw := by simpa using hraw
    rw [schemeLoop] at h
    split_ifs at h
    · exact ih hstep h
    · cases h
      exact List.suffix_refl raw
    · exact ih hstep h
    · rw [← (Prod.mk.inj (Except.ok.inj h)).2]
      exact ⟨before ++ [c], hstep⟩
    · cases h
      exact List.suffix_refl raw

section

variable {parseAuthority : AuthorityParser}

namespace URL

theorem setPath_rawQuery {u v : URL} {p : Bytes} (h : u.setPath p = .ok v) :
    v.rawQuery = u.rawQuery := by
  rw [setPath] at h
  split at h <;> cases h
  rfl

theorem parseHierarchy_rawQuery {u v : URL} {rest : Bytes}
    (h : u.parseHierarchy parseAuthority rest = .ok v) : v.rawQuery = u.rawQuery := by
  rw [parseHierarchy] at h
  split_ifs at h
  · dsimp only at h
    split at h
    · cases h
    · rename_i user host _
      exact setPath_rawQuery (u := { u with user := user, host := host }) h
  · exact setPath_rawQuery (u := { u with omitHost := true }) h
  · exact setPath_rawQuery h

/-- **Only a `?` starts a query.** -/
theorem parse_rawQuery {raw : Bytes} {u : URL} (hq : chr '?' ∉ raw)
    (h : parse parseAuthority raw = .ok u) : u.rawQuery = [] := by
  rw [parse] at h
  split_ifs at h
  · cases h
    rfl
  · split at h
    · cases h
    · rename_i scheme rest hscheme
      have hrest : chr '?' ∉ rest := fun hmem =>
        hq ((schemeLoop_suffix (List.nil_append raw) hscheme).subset hmem)
      have hsuffix : hasSuffix rest (ascii "?") = false := by
        rw [← Bool.not_eq_true, hasSuffix_iff]
        exact fun hs => hrest (hs.subset (by decide))
      simp only [hsuffix, cut_of_notMem hrest, Bool.false_and, Bool.false_eq_true, if_false] at h
      split_ifs at h
      · cases h
        rfl
      all_goals exact parseHierarchy_rawQuery h

/-- **A rooted path is read as a path**: it has no scheme, no authority, and is decoded
once. -/
theorem parse_rooted {t : Bytes} (hslash : ¬ [slash] <+: t) (hq : chr '?' ∉ t)
    (hctl : ∀ b ∈ t, ¬ (b < 0x20 ∨ b = 0x7f)) :
    parse parseAuthority (slash :: t) = ({} : URL).setPath (slash :: t) := by
  have hany : (slash :: t).any (fun b => b < 0x20 || b == 0x7f) = false := by
    refine List.any_eq_false.mpr fun b hb => ?_
    rcases List.mem_cons.mp hb with rfl | hb
    · decide
    · simpa using hctl b hb
  have hmem : chr '?' ∉ slash :: t := by
    rw [List.mem_cons]
    rintro (h | h)
    · exact absurd h (by decide)
    · exact hq h
  have hsuffix : hasSuffix (slash :: t) (ascii "?") = false := by
    rw [← Bool.not_eq_true, hasSuffix_iff]
    exact fun hs => hmem (hs.subset (by decide))
  have hscheme : getScheme (slash :: t) = .ok ([], slash :: t) := rfl
  have hpre : hasPrefix (slash :: t) [slash] = true := by simp
  have htwo : hasPrefix (slash :: t) (ascii "//") = false := by
    rw [← Bool.not_eq_true, hasPrefix_iff]
    intro h
    exact hslash ((List.cons_prefix_cons.mp h).2)
  have hstar : slash :: t ≠ ascii "*" := by
    intro h
    exact absurd (List.cons.inj h).1 (by decide)
  simp [parse, hany, hstar, hscheme, hsuffix, cut_of_notMem hmem, hpre, parseHierarchy,
    htwo, toLower]

end URL

end

/-- `url.Values`. -/
abbrev Values := GoMap Bytes (List Bytes)

/-- `url.QueryUnescape`. -/
def queryUnescape (s : Bytes) : Option Bytes :=
  unescape (s.map fun b => if b = chr '+' then 0x20 else b)

/-- `url.QueryEscape`. -/
def queryEscape (s : Bytes) : Bytes :=
  (escapeWith (fun b => !(isUnreserved b || b == 0x20)) s).map
    fun b => if b = 0x20 then chr '+' else b

namespace Values

/-- `Values.Add`. -/
def add (m : Values) (key value : Bytes) : Values := m.insert key (m.get [] key ++ [value])

/-- `Values.Set`. -/
def set (m : Values) (key value : Bytes) : Values := m.insert key [value]

/-- `Values.Encode`: in order of the keys. -/
def encode (m : Values) : Bytes :=
  [chr '&'].intercalate ((m.keys.insertionSort (· ≤ ·)).flatMap fun k =>
    (m.get [] k).map fun v => queryEscape k ++ [chr '='] ++ queryEscape v)

end Values

/-- One `key=value` of a query; a malformed one is skipped. -/
def addPair (m : Values) (pair : Bytes) : Values :=
  if pair.contains (chr ';') || pair == [] then m
  else
    match queryUnescape (cut pair (chr '=')).1, queryUnescape (cut pair (chr '=')).2.1 with
    | some key, some value => m.add key value
    | _, _ => m

/-- `URL.Query`: what of the query string can be read. -/
def parseQuery (query : Bytes) : Values := (query.splitOn (chr '&')).foldl addPair ∅

@[simp] theorem parseQuery_nil : parseQuery [] = ∅ := rfl

theorem addPair_ne_nil {m : Values} (pair : Bytes) (hm : ∀ k v, m.lookup k = some v → v ≠ []) :
    ∀ k v, (addPair m pair).lookup k = some v → v ≠ [] := by
  intro k v hv
  rw [addPair] at hv
  split_ifs at hv
  · exact hm k v hv
  split at hv
  · rename_i key value _ _
    rw [Values.add] at hv
    rcases GoMap.lookup_of_insert hv with ⟨-, rfl⟩ | hold
    · simp
    · exact hm k v hold
  · exact hm k v hv

theorem lookup_parseQuery_ne_nil {query k : Bytes} {v : List Bytes}
    (h : (parseQuery query).lookup k = some v) : v ≠ [] := by
  refine List.foldlRecOn (motive := fun m : Values => ∀ k v, m.lookup k = some v → v ≠ []) _ _
    ?_ (fun m hm pair _ => addPair_ne_nil pair hm) k v h
  simp

end Veduta.Go
