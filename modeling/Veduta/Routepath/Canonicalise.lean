import Veduta.Lib.Except
import Veduta.Lib.Segments
import Veduta.Lib.Percent

/-!
# Route canonicalisation

Package `routepath`: the one routine that every authority check in the program
shares.  The first half is the code, byte loop by byte loop.  The second half says
what the code is for: an accepted path is a list of `Segment`s, whose fields are
the rejection rules, and canonicalisation normalises each segment's tokens.
`canonicalise_eq_ok_iff` connects the two, and every later fact about paths is
read off it.
-/

namespace Veduta.Routepath

open Go Lib

/-- The package's errors, one per rejection rule.  `indexPanic` is not one of them:
it stands for the run-time panic of a segment index past the end, which no path
reaches (`canonicalise_ne_indexPanic`). -/
inductive Error where
  | notAbsolute
  | backslash
  | controlOrSpace
  | malformedEscape
  | encodedSeparator
  | dotSegment
  | emptySegment
  | queryOrFragment
  | indexPanic
  deriving DecidableEq, Repr

/-- Reject a `%` without two hexadecimal digits, and an escape of `/` or `\`. -/
def checkEscapesWellFormed : Bytes → Except Error Unit
  | [] => .ok ()
  | b :: rest =>
    if b ≠ percent then checkEscapesWellFormed rest
    else
      match rest with
      | hi :: lo :: rest' =>
        if !isHex hi || !isHex lo then .error .malformedEscape
        else if hexByte hi lo == 0x2f || hexByte hi lo == 0x5c then .error .encodedSeparator
        else checkEscapesWellFormed rest'
      | _ => .error .malformedEscape

/-- The loop of `canonicaliseSegment`, with its two string builders. -/
def segmentLoop : Bytes → Bytes → Bytes → Except Error (Bytes × Bytes)
  | [], decodedForDotCheck, normalised => .ok (decodedForDotCheck, normalised)
  | b :: rest, decodedForDotCheck, normalised =>
    if b ≠ percent then segmentLoop rest (decodedForDotCheck ++ [b]) (normalised ++ [b])
    else
      match rest with
      | hi :: lo :: rest' =>
        let v := hexByte hi lo
        segmentLoop rest' (decodedForDotCheck ++ [v])
          (normalised ++ if isUnreserved v then [v] else (hexEscape v).bytes)
      | _ => .error .indexPanic

/-- The two segments a path may not hold, before or after decoding. -/
def isDot (s : Bytes) : Bool := s == ascii "." || s == ascii ".."

/-- Validate and normalise one segment. -/
def canonicaliseSegment (seg : Bytes) : Except Error Bytes :=
  if seg = [] then .error .emptySegment
  else if isDot seg then .error .dotSegment
  else
    match segmentLoop seg [] [] with
    | .error e => .error e
    | .ok (decodedForDotCheck, normalised) =>
      if isDot decodedForDotCheck then .error .dotSegment else .ok normalised

/-- The canonical form of a raw path, or the rule that rejects it. -/
def canonicalise (raw : Bytes) : Except Error Bytes :=
  if !hasPrefix raw [slash] then .error .notAbsolute
  else if raw.contains 0x5c then .error .backslash
  else if raw.contains 0x3f || raw.contains 0x23 then .error .queryOrFragment
  else if raw.any (fun b => b ≤ 0x20 || b == 0x7f) then .error .controlOrSpace
  else
    match checkEscapesWellFormed raw with
    | .error e => .error e
    | .ok () =>
      if raw = [slash] then .ok [slash]
      else
        match ((raw.drop 1).splitOn slash).mapM canonicaliseSegment with
        | .error e => .error e
        | .ok out => .ok (slash :: [slash].intercalate out)

/-- A byte an accepted path may hold literally, inside a segment. -/
def plain (b : UInt8) : Bool :=
  b != percent && b != slash && b != 0x5c && b != 0x3f && b != 0x23 &&
    !(b ≤ 0x20 || b == 0x7f)

/-- A token an accepted path may hold inside a segment. -/
def Admitted : Tok → Prop
  | .lit b => plain b = true
  | .esc hi lo =>
    isHex hi = true ∧ isHex lo = true ∧ hexByte hi lo ≠ 0x2f ∧ hexByte hi lo ≠ 0x5c

/-- What canonicalisation does to one token: an escape of an unreserved byte
becomes that byte, any other escape is written in lower case. -/
def normaliseTok : Tok → Tok
  | .lit b => .lit b
  | .esc hi lo =>
    if isUnreserved (hexByte hi lo) then .lit (hexByte hi lo) else hexEscape (hexByte hi lo)

/-- A token canonicalisation leaves alone. -/
def Normal (t : Tok) : Prop := normaliseTok t = t

instance (t : Tok) : Decidable (Normal t) := inferInstanceAs (Decidable (_ = _))

variable {ts : List Tok} {t : Tok} {seg s : Bytes}

theorem Admitted.valid (h : Admitted t) : t.Valid := by
  cases t with
  | lit b =>
    simp only [Admitted, plain, Bool.and_eq_true, bne_iff_ne] at h
    exact h.1.1.1.1.1
  | esc hi lo => exact ⟨h.1, h.2.1⟩

@[simp] theorem value_normaliseTok (t : Tok) : (normaliseTok t).value = t.value := by
  cases t with
  | lit b => rfl
  | esc hi lo =>
    simp only [normaliseTok]
    split
    · rfl
    · exact value_hexEscape _

theorem plain_of_isUnreserved : ∀ b : UInt8, isUnreserved b = true → plain b = true := by
  decide +kernel

theorem normaliseTok_hexEscape (v : UInt8) (h : isUnreserved v = false) :
    normaliseTok (hexEscape v) = hexEscape v := by
  have hv : hexByte (lowerHex (v >>> 4)) (lowerHex (v &&& 0xf)) = v := value_hexEscape v
  simp [normaliseTok, hexEscape, hv, h]

theorem normal_normaliseTok (t : Tok) : Normal (normaliseTok t) := by
  cases t with
  | lit b => rfl
  | esc hi lo =>
    by_cases hu : isUnreserved (hexByte hi lo) = true
    · simp [Normal, normaliseTok, hu]
    · rw [Bool.not_eq_true] at hu
      have hn : normaliseTok (.esc hi lo) = hexEscape (hexByte hi lo) := by
        simp [normaliseTok, hu]
      rw [hn]
      exact normaliseTok_hexEscape _ hu

theorem Admitted.normaliseTok (h : Admitted t) : Admitted (normaliseTok t) := by
  cases t with
  | lit b => exact h
  | esc hi lo =>
    by_cases hu : isUnreserved (hexByte hi lo) = true
    · simp only [Routepath.normaliseTok, hu, if_true]
      exact plain_of_isUnreserved _ hu
    · have hv := value_hexEscape (hexByte hi lo)
      have hhex := valid_hexEscape (hexByte hi lo)
      simp only [Routepath.normaliseTok, hu]
      refine ⟨hhex.1, hhex.2, ?_, ?_⟩
      · exact fun he => h.2.2.1 (hv.symm.trans he)
      · exact fun he => h.2.2.2 (hv.symm.trans he)

theorem Admitted.value_ne_slash (h : Admitted t) : t.value ≠ slash := by
  cases t with
  | lit b =>
    simp only [Admitted, plain, Bool.and_eq_true, bne_iff_ne] at h
    exact h.1.1.1.1.2
  | esc hi lo => exact h.2.2.1

/-- One segment of an acceptable path.  Its fields are the rejection rules, so a
segment that breaks one cannot be built. -/
structure Segment where
  /-- The segment, token by token. -/
  toks : List Tok
  admitted : ∀ t ∈ toks, Admitted t
  ne_nil : toks ≠ []
  not_dot : isDot (toks.map Tok.value) = false

namespace Segment

def bytes (s : Segment) : Bytes := render s.toks

def decoded (s : Segment) : Bytes := s.toks.map Tok.value

def normalise (s : Segment) : Segment where
  toks := s.toks.map normaliseTok
  admitted := by
    intro t ht
    obtain ⟨u, hu, rfl⟩ := List.mem_map.mp ht
    exact (s.admitted u hu).normaliseTok
  ne_nil := by simp [s.ne_nil]
  not_dot := by
    have h : (s.toks.map normaliseTok).map Tok.value = s.toks.map Tok.value := by simp
    rw [h]
    exact s.not_dot

theorem valid (s : Segment) : ∀ t ∈ s.toks, t.Valid := fun t ht => (s.admitted t ht).valid

theorem scan_bytes (s : Segment) : scan s.bytes = some s.toks := scan_render s.valid

@[simp] theorem unescape_bytes (s : Segment) : unescape s.bytes = some s.decoded :=
  unescape_render s.valid

@[simp] theorem decoded_normalise (s : Segment) : s.normalise.decoded = s.decoded := by
  simp [decoded, normalise]

@[simp] theorem normalise_normalise (s : Segment) : s.normalise.normalise = s.normalise := by
  have h : ∀ t, normaliseTok (normaliseTok t) = normaliseTok t := normal_normaliseTok
  simp [normalise, h]

variable {s t : Segment}

@[ext] theorem ext (h : s.toks = t.toks) : s = t := by
  cases s; cases t
  simpa using h

theorem bytes_injective (h : s.bytes = t.bytes) : s = t :=
  Segment.ext (render_injOn s.valid t.valid h)

/-- A spelt segment is non-empty and holds no `/`, so a path keeps it apart. -/
theorem solid (s : Segment) : Solid s.bytes where
  ne_nil := by
    obtain ⟨t, ts, hts⟩ := List.exists_cons_of_ne_nil s.ne_nil
    cases t <;> simp [bytes, hts, Tok.bytes]
  slash_notMem := by
    rw [bytes, render, List.mem_flatMap]
    rintro ⟨t, ht, hslash⟩
    have ha := s.admitted t ht
    cases t with
    | lit b =>
      have hb : slash = b := by simpa [Tok.bytes] using hslash
      exact ha.value_ne_slash hb.symm
    | esc hi lo =>
      simp only [Tok.bytes, List.mem_cons, List.not_mem_nil, or_false] at hslash
      rcases hslash with h | h | h
      · exact absurd h (by decide)
      · exact absurd ha.1 (by rw [← h]; decide)
      · exact absurd ha.2.1 (by rw [← h]; decide)

theorem solid_decoded (s : Segment) : Solid s.decoded where
  ne_nil := by simp [decoded, s.ne_nil]
  slash_notMem := by
    rw [decoded, List.mem_map]
    rintro ⟨t, ht, hslash⟩
    exact (s.admitted t ht).value_ne_slash hslash

end Segment

variable {p : List Segment}

/-- An acceptable path spelt out. -/
def spell (p : List Segment) : Bytes := pathOf (p.map Segment.bytes)

theorem solid_map_bytes (p : List Segment) : ∀ s ∈ p.map Segment.bytes, Solid s := by
  intro s hs
  obtain ⟨t, _, rfl⟩ := List.mem_map.mp hs
  exact t.solid

@[simp] theorem segments_spell (p : List Segment) : segments (spell p) = p.map Segment.bytes :=
  segments_pathOf (solid_map_bytes p)

theorem spell_injective {q : List Segment} (h : spell p = spell q) : p = q := by
  have := pathOf_injOn (solid_map_bytes p) (solid_map_bytes q) h
  exact List.map_injective_iff.mpr (fun s t => Segment.bytes_injective) this

/-! ## What the loops compute -/

/-- The segment loop reads tokens: it decodes them and normalises them. -/
theorem segmentLoop_eq (h : scan s = some ts) (d n : Bytes) :
    segmentLoop s d n = .ok (d ++ ts.map Tok.value, n ++ render (ts.map normaliseTok)) := by
  obtain ⟨rfl, hv⟩ := render_of_scan h
  clear h
  -- on the tokens; the two builders are the accumulators
  induction ts generalizing d n with
  | nil => simp [segmentLoop]
  | cons t ts ih =>
    have ih' := fun d n => ih d n (fun u hu => hv u (by simp [hu]))
    cases t with
    | lit b =>
      have hb : b ≠ percent := hv (.lit b) (by simp)
      simp only [render_cons, Tok.bytes, List.singleton_append]
      rw [segmentLoop.eq_def]
      simp [hb, ih', normaliseTok, Tok.value, Tok.bytes]
    | esc hi lo =>
      simp only [render_cons, Tok.bytes, List.cons_append, List.nil_append]
      rw [segmentLoop.eq_def]
      by_cases hu : isUnreserved (hexByte hi lo) = true <;>
        simp [hu, ih', normaliseTok, Tok.value, Tok.bytes, hexEscape]

/-- The escape check accepts exactly the strings that scan into tokens none of
which is an escaped separator. -/
theorem checkEscapesWellFormed_eq_ok_iff (raw : Bytes) :
    checkEscapesWellFormed raw = .ok () ↔
      ∃ ts, scan raw = some ts ∧
        ∀ hi lo, Tok.esc hi lo ∈ ts → hexByte hi lo ≠ 0x2f ∧ hexByte hi lo ≠ 0x5c := by
  fun_induction checkEscapesWellFormed raw with
  | case1 => simp
  | case2 b rest hb ih =>
    rw [ih, scan_lit hb]
    constructor
    · rintro ⟨ts, hts, hsep⟩
      exact ⟨.lit b :: ts, by simp [hts], by simpa using hsep⟩
    · rintro ⟨ts, hts, hsep⟩
      obtain ⟨us, hus, rfl⟩ := Option.map_eq_some_iff.mp hts
      exact ⟨us, hus, by simpa using hsep⟩
  | case3 b hb hi lo rest hhex =>
    obtain rfl : b = percent := not_not.mp hb
    rw [scan.eq_def]
    have hx : (isHex hi && isHex lo) = false := by
      cases h1 : isHex hi <;> cases h2 : isHex lo <;> simp_all
    simp [hx]
  | case4 b hb hi lo rest hhex hsep =>
    obtain rfl : b = percent := not_not.mp hb
    simp only [Bool.or_eq_true, Bool.not_eq_true', not_or, Bool.not_eq_false] at hhex
    rw [scan_esc hhex.1 hhex.2]
    constructor
    · intro h
      exact absurd h (by simp)
    · rintro ⟨ts, hts, hno⟩
      obtain ⟨us, _, rfl⟩ := Option.map_eq_some_iff.mp hts
      have := hno hi lo (by simp)
      simp [this.1, this.2] at hsep
  | case5 b hb hi lo rest hhex hsep ih =>
    obtain rfl : b = percent := not_not.mp hb
    simp only [Bool.or_eq_true, Bool.not_eq_true', not_or, Bool.not_eq_false] at hhex
    simp only [Bool.or_eq_true, beq_iff_eq, not_or] at hsep
    rw [ih, scan_esc hhex.1 hhex.2]
    constructor
    · rintro ⟨ts, hts, hno⟩
      refine ⟨.esc hi lo :: ts, by simp [hts], ?_⟩
      intro h l hm
      rcases List.mem_cons.mp hm with heq | hm
      · obtain ⟨rfl, rfl⟩ := Tok.esc.inj heq
        exact hsep
      · exact hno h l hm
    · rintro ⟨ts, hts, hno⟩
      obtain ⟨us, hus, rfl⟩ := Option.map_eq_some_iff.mp hts
      exact ⟨us, hus, fun h l hm => hno h l (by simp [hm])⟩
  | case6 b rest hb hrest =>
    obtain rfl : b = percent := not_not.mp hb
    rw [scan.eq_def]
    rcases rest with _ | ⟨x, _ | ⟨y, r⟩⟩
    · simp
    · simp
    · exact absurd rfl (hrest x y r)

theorem isDot_value_of_scan (h : scan seg = some ts) (hd : isDot seg = true) :
    isDot (ts.map Tok.value) = true := by
  have hcase : seg = ascii "." ∨ seg = ascii ".." := by simpa [isDot] using hd
  rcases hcase with rfl | rfl
  · rw [← Option.some.inj h]
    decide
  · rw [← Option.some.inj h]
    decide

/-- A segment of tokens that each may stand in a path is normalised, or rejected
for being empty or a dot segment. -/
theorem canonicaliseSegment_eq_ok_iff (h : scan seg = some ts) (ha : ∀ t ∈ ts, Admitted t)
    (out : Bytes) :
    canonicaliseSegment seg = .ok out ↔
      ∃ s : Segment, s.toks = ts ∧ out = s.normalise.bytes := by
  have hr := (render_of_scan h).1
  have hnil : seg = [] ↔ ts = [] := by
    constructor
    · rintro rfl
      simpa using h.symm
    · rintro rfl
      exact hr.symm
  rw [canonicaliseSegment, segmentLoop_eq h]
  by_cases hn : ts = []
  · rw [if_pos (hnil.mpr hn)]
    constructor
    · intro he; cases he
    · rintro ⟨s, rfl, _⟩
      exact absurd hn s.ne_nil
  · rw [if_neg (fun he => hn (hnil.mp he))]
    by_cases hd : isDot (ts.map Tok.value) = true
    · constructor
      · intro he
        split at he
        · cases he
        · simp [hd] at he
      · rintro ⟨s, rfl, _⟩
        exact absurd hd (by simp [s.not_dot])
    · rw [Bool.not_eq_true] at hd
      have hseg : isDot seg = false := by
        by_contra hc
        rw [Bool.not_eq_false] at hc
        simp [isDot_value_of_scan h hc] at hd
      simp only [hseg, Bool.false_eq_true, if_false, List.nil_append, hd, Except.ok.injEq]
      constructor
      · rintro rfl
        exact ⟨⟨ts, ha, hn, hd⟩, rfl, rfl⟩
      · rintro ⟨s, rfl, rfl⟩
        rfl

/-! ## The code against acceptable paths -/

/-- The byte rules, which read the whole path before it is split. -/
structure BytesAllowed (raw : Bytes) : Prop where
  no_backslash : 0x5c ∉ raw
  no_query : 0x3f ∉ raw
  no_fragment : 0x23 ∉ raw
  no_control : ∀ b ∈ raw, ¬ (b ≤ 0x20 ∨ b = 0x7f)

theorem canonicalise_eq_ok (raw y : Bytes) :
    canonicalise raw = .ok y ↔
      [slash] <+: raw ∧ BytesAllowed raw ∧ checkEscapesWellFormed raw = .ok () ∧
        if raw = [slash] then y = [slash]
        else ∃ out, ((raw.drop 1).splitOn slash).mapM canonicaliseSegment = .ok out ∧
          y = slash :: [slash].intercalate out := by
  rw [canonicalise]
  by_cases h1 : hasPrefix raw [slash] = true
  swap
  · have h1' := h1
    rw [hasPrefix_iff] at h1'
    simp [h1, h1']
  have hp := (hasPrefix_iff _ _).mp h1
  by_cases h2 : raw.contains 0x5c = true
  · have : ¬ BytesAllowed raw := fun hb => hb.no_backslash (by simpa using h2)
    simp [h1, this, show (0x5c : UInt8) ∈ raw by simpa using h2]
  by_cases h3 : (raw.contains 0x3f || raw.contains 0x23) = true
  · have : ¬ BytesAllowed raw := by
      intro hb
      have hq := hb.no_query
      have hf := hb.no_fragment
      simp [hq, hf] at h3
    simp only [h1, h2, h3, this]
    simp
  by_cases h4 : raw.any (fun b => b ≤ 0x20 || b == 0x7f) = true
  · have : ¬ BytesAllowed raw := by
      intro hb
      obtain ⟨b, hbm, hbc⟩ := List.any_eq_true.mp h4
      exact hb.no_control b hbm (by simpa using hbc)
    simp only [h1, h2, h3, h4, this]
    simp
  have hb : BytesAllowed raw := by
    simp only [Bool.or_eq_true, List.contains_iff_mem, not_or] at h2 h3
    refine ⟨h2, h3.1, h3.2, ?_⟩
    intro b hbm hbc
    exact h4 (List.any_eq_true.mpr ⟨b, hbm, by simpa using hbc⟩)
  simp only [h1, h2, h3, h4, hp, hb, true_and, Bool.not_true, Bool.false_eq_true, if_false]
  cases hc : checkEscapesWellFormed raw with
  | error e => simp
  | ok u =>
    by_cases hr : raw = [slash]
    · simp [hr, eq_comm]
    · simp only [hr, if_false, true_and]
      cases hm : ((raw.drop 1).splitOn slash).mapM canonicaliseSegment with
      | error e => simp
      | ok out => simp [eq_comm]

theorem scan_of_mem_segments {segs : List Bytes}
    (h : scan (s ++ segs.flatMap (slash :: ·)) = some ts) :
    ∀ seg ∈ s :: segs, ∃ us, scan seg = some us ∧ us ⊆ ts := by
  induction segs generalizing s ts with
  | nil =>
    intro seg hseg
    obtain rfl : seg = s := by simpa using hseg
    exact ⟨ts, by simpa using h, List.Subset.refl _⟩
  | cons t segs ih =>
    rw [List.flatMap_cons, List.cons_append,
      scan_append_sep (by decide) (by decide)] at h
    simp only [Option.bind_eq_some_iff, Option.map_eq_some_iff] at h
    obtain ⟨us, hus, vs, hvs, rfl⟩ := h
    intro seg hseg
    rcases List.mem_cons.mp hseg with rfl | hseg
    · exact ⟨us, hus, by simp⟩
    · obtain ⟨ws, hws, hsub⟩ := ih hvs seg hseg
      exact ⟨ws, hws, fun w hw => by simp [hsub hw]⟩

theorem scan_of_mem_splitOn {t : Bytes} (h : scan (slash :: t) = some ts) :
    ∀ seg ∈ t.splitOn slash, ∃ us, scan seg = some us ∧ us ⊆ ts := by
  rw [scan_lit (by decide)] at h
  obtain ⟨vs, hvs, rfl⟩ := Option.map_eq_some_iff.mp h
  obtain ⟨s, segs, hsplit⟩ := List.exists_cons_of_ne_nil (List.splitOn_ne_nil slash t)
  have htail : t = s ++ segs.flatMap (slash :: ·) := by
    have hpath := pathOf_splitOn t
    rw [hsplit] at hpath
    simpa [pathOf] using hpath.symm
  intro seg hseg
  rw [hsplit] at hseg
  obtain ⟨us, hus, hsub⟩ := scan_of_mem_segments (htail ▸ hvs) seg hseg
  exact ⟨us, hus, fun u hu => List.mem_cons_of_mem _ (hsub hu)⟩

theorem admitted_of_bytesAllowed {raw : Bytes} {us : List Tok} (hb : BytesAllowed raw)
    (hsub : ∀ b ∈ seg, b ∈ raw) (hslash : slash ∉ seg) (hscan : scan seg = some us) (hin : us ⊆ ts)
    (hsep : ∀ hi lo, Tok.esc hi lo ∈ ts → hexByte hi lo ≠ 0x2f ∧ hexByte hi lo ≠ 0x5c) :
    ∀ t ∈ us, Admitted t := by
  obtain ⟨rfl, hv⟩ := render_of_scan hscan
  intro t ht
  cases t with
  | lit b =>
    have hmem : b ∈ render us := List.mem_flatMap.mpr ⟨.lit b, ht, by simp [Tok.bytes]⟩
    have hraw := hsub b hmem
    have hp : b ≠ percent := hv _ ht
    have hs : b ≠ slash := fun he => hslash (he ▸ hmem)
    have h1 : b ≠ 0x5c := fun he => hb.no_backslash (he ▸ hraw)
    have h2 : b ≠ 0x3f := fun he => hb.no_query (he ▸ hraw)
    have h3 : b ≠ 0x23 := fun he => hb.no_fragment (he ▸ hraw)
    have h4 := hb.no_control b hraw
    simp only [Admitted, plain, Bool.and_eq_true, bne_iff_ne, Bool.not_eq_true',
      Bool.or_eq_false_iff, decide_eq_false_iff_not, beq_eq_false_iff_ne]
    exact ⟨⟨⟨⟨⟨hp, hs⟩, h1⟩, h2⟩, h3⟩, not_or.mp h4⟩
  | esc hi lo => exact ⟨(hv _ ht).1, (hv _ ht).2, hsep hi lo (hin ht)⟩

theorem bytesAllowed_spell (p : List Segment) : BytesAllowed (spell p) := by
  have key : ∀ b ∈ spell p, b = slash ∨ b = percent ∨ isHex b = true ∨ plain b = true := by
    intro b hb
    rw [spell] at hb
    by_cases hp : p.map Segment.bytes = []
    · rw [hp] at hb
      left; simpa using hb
    · rw [pathOf_of_ne_nil hp, List.mem_flatMap] at hb
      obtain ⟨_, hs, hb⟩ := hb
      obtain ⟨s, _, rfl⟩ := List.mem_map.mp hs
      rcases List.mem_cons.mp hb with rfl | hb
      · left; rfl
      · obtain ⟨t, ht, hbt⟩ := List.mem_flatMap.mp hb
        have ha := s.admitted t ht
        cases t with
        | lit c =>
          obtain rfl : b = c := by simpa [Tok.bytes] using hbt
          exact Or.inr (Or.inr (Or.inr ha))
        | esc hi lo =>
          simp only [Tok.bytes, List.mem_cons, List.not_mem_nil, or_false] at hbt
          rcases hbt with rfl | rfl | rfl
          · exact Or.inr (Or.inl rfl)
          · exact Or.inr (Or.inr (Or.inl ha.1))
          · exact Or.inr (Or.inr (Or.inl ha.2.1))
  have bad : ∀ b : UInt8, (b = slash ∨ b = percent ∨ isHex b = true ∨ plain b = true) →
      b ≠ 0x5c ∧ b ≠ 0x3f ∧ b ≠ 0x23 ∧ ¬ (b ≤ 0x20 ∨ b = 0x7f) := by
    decide +kernel
  refine ⟨?_, ?_, ?_, ?_⟩
  · exact fun h => (bad _ (key _ h)).1 rfl
  · exact fun h => (bad _ (key _ h)).2.1 rfl
  · exact fun h => (bad _ (key _ h)).2.2.1 rfl
  · exact fun b hb => (bad b (key b hb)).2.2.2

theorem spell_eq_render (hp : p ≠ []) :
    spell p = render (p.flatMap fun s => Tok.lit slash :: s.toks) := by
  rw [spell, pathOf_of_ne_nil (by simpa using hp)]
  clear hp
  induction p with
  | nil => rfl
  | cons s p ih => simp [ih, Segment.bytes, Tok.bytes]

theorem scan_spell (hp : p ≠ []) :
    scan (spell p) = some (p.flatMap fun s => Tok.lit slash :: s.toks) := by
  rw [spell_eq_render hp]
  refine scan_render fun t ht => ?_
  obtain ⟨s, _, ht⟩ := List.mem_flatMap.mp ht
  rcases List.mem_cons.mp ht with rfl | ht
  · change slash ≠ percent
    decide
  · exact s.valid t ht

theorem checkEscapesWellFormed_spell (p : List Segment) :
    checkEscapesWellFormed (spell p) = .ok () := by
  by_cases hp : p = []
  · subst hp; rfl
  · refine (checkEscapesWellFormed_eq_ok_iff _).mpr ⟨_, scan_spell hp, ?_⟩
    intro hi lo ht
    obtain ⟨s, _, ht⟩ := List.mem_flatMap.mp ht
    rcases List.mem_cons.mp ht with h | ht
    · cases h
    · exact (s.admitted _ ht).2.2

/-- The loop over admitted parts reads segments, and normalises each of them. -/
theorem exists_segments_of_mapM {l o : List Bytes}
    (hl : ∀ seg ∈ l, ∃ us, scan seg = some us ∧ ∀ u ∈ us, Admitted u)
    (h : l.mapM canonicaliseSegment = .ok o) :
    ∃ p : List Segment, p.map Segment.bytes = l ∧
      o = (p.map Segment.normalise).map Segment.bytes := by
  rw [mapM_eq_ok_iff] at h
  induction h with
  | nil => exact ⟨[], rfl, rfl⟩
  | @cons a b l o hab _ ih =>
    obtain ⟨p, hp, ho⟩ := ih (fun seg hseg => hl seg (by simp [hseg]))
    obtain ⟨us, hus, hadm⟩ := hl a (by simp)
    obtain ⟨g, hg, hbytes⟩ := (canonicaliseSegment_eq_ok_iff hus hadm b).mp hab
    refine ⟨g :: p, ?_, by simp [hbytes, ho]⟩
    rw [List.map_cons, hp, Segment.bytes, hg, (render_of_scan hus).1]

/-- The loop over the parts of a spelt path normalises its segments. -/
theorem mapM_canonicaliseSegment_spell (hp : p ≠ []) :
    (((spell p).drop 1).splitOn slash).mapM canonicaliseSegment =
      .ok ((p.map Segment.normalise).map Segment.bytes) := by
  have hne : p.map Segment.bytes ≠ [] := by simpa using hp
  rw [spell, ← cons_intercalate hne, List.drop_one, List.tail_cons,
    List.splitOn_intercalate _ (fun l hl => (solid_map_bytes p l hl).slash_notMem) hne,
    mapM_eq_ok_iff, List.forall₂_map_left_iff, List.map_map, List.forall₂_map_right_iff,
    List.forall₂_same]
  intro s _
  exact (canonicaliseSegment_eq_ok_iff s.scan_bytes s.admitted _).mpr ⟨s, rfl, rfl⟩

/-- **What canonicalisation accepts, and what it returns.**  A raw path is accepted
exactly when it spells a list of acceptable segments; the result spells the same
list with every segment normalised. -/
theorem canonicalise_eq_ok_iff (raw y : Bytes) :
    canonicalise raw = .ok y ↔
      ∃ p : List Segment, spell p = raw ∧ y = spell (p.map Segment.normalise) := by
  rw [canonicalise_eq_ok]
  constructor
  · rintro ⟨hpre, hb, hesc, hres⟩
    by_cases hroot : raw = [slash]
    · rw [if_pos hroot] at hres
      exact ⟨[], by simp [spell, hroot], by simp [spell, hres]⟩
    · rw [if_neg hroot] at hres
      obtain ⟨out, hout, rfl⟩ := hres
      obtain ⟨t, rfl⟩ := hpre
      simp only [List.singleton_append, List.drop_one, List.tail_cons] at *
      obtain ⟨ts, hts, hsep⟩ := (checkEscapesWellFormed_eq_ok_iff _).mp hesc
      -- every part of the split scans into admitted tokens
      have hscan : ∀ seg ∈ t.splitOn slash, ∃ us, scan seg = some us ∧ ∀ u ∈ us, Admitted u := by
        intro seg hseg
        obtain ⟨us, hus, hsub⟩ := scan_of_mem_splitOn hts seg hseg
        refine ⟨us, hus, admitted_of_bytesAllowed hb ?_
          (slash_notMem_of_mem_splitOn hseg) hus hsub hsep⟩
        intro b hbm
        rw [← pathOf_splitOn t, pathOf_of_ne_nil (List.splitOn_ne_nil _ _)]
        exact List.mem_flatMap.mpr ⟨seg, hseg, by simp [hbm]⟩
      obtain ⟨p, hp, rfl⟩ := exists_segments_of_mapM hscan hout
      refine ⟨p, by rw [spell, hp, pathOf_splitOn], ?_⟩
      rw [cons_intercalate, spell]
      intro hnil
      have hempty : t.splitOn slash = [] := by
        rw [← hp]
        simpa using hnil
      exact List.splitOn_ne_nil _ _ hempty
  · rintro ⟨p, rfl, rfl⟩
    obtain ⟨t, ht⟩ := slash_mem_pathOf (p.map Segment.bytes)
    refine ⟨⟨t, ht.symm⟩, bytesAllowed_spell p, checkEscapesWellFormed_spell p, ?_⟩
    by_cases hp : p = []
    · subst hp
      rfl
    · have hne : p.map Segment.bytes ≠ [] := by simpa using hp
      have hroot : spell p ≠ [slash] := by
        intro he
        have := segments_spell p
        rw [he] at this
        exact hne (by simpa [segments] using this.symm)
      rw [if_neg hroot]
      refine ⟨_, mapM_canonicaliseSegment_spell hp, ?_⟩
      rw [cons_intercalate (by simpa using hp), spell]

end Veduta.Routepath
