import Veduta.Capabilities.Authorize
import Veduta.Connections.JoinPath

/-!
# The path that is checked and the path that is sent

`Grant.authorize` canonicalises the caller's path as it is written, one decoding away
from the bytes it names.  `joinPath` parses it as a URL first, which decodes it, and
canonicalises what comes out, which decodes the escapes that were escaped.  The two agree
on a path exactly when the second decoding changes nothing.
-/

namespace Veduta.Capabilities

open Go Lib Routepath Connections

/-- Every escape in a string has its canonical spelling: lower-case digits, and not of an
unreserved character. -/
def NormalEscapes (s : Bytes) : Prop := ∀ t ∈ (scan s).getD [], Normal t

instance (s : Bytes) : Decidable (NormalEscapes s) := inferInstanceAs (Decidable (∀ _ ∈ _, _))

theorem solid_map_decoded (p : List Segment) : ∀ s ∈ p.map Segment.decoded, Solid s := by
  intro s hs
  obtain ⟨t, _, rfl⟩ := List.mem_map.mp hs
  exact t.solid_decoded

theorem unescape_spell (p : List Segment) :
    unescape (spell p) = some (pathOf (p.map Segment.decoded)) := by
  by_cases hp : p = []
  · subst hp
    rfl
  · rw [unescape, scan_spell hp, pathOf_of_ne_nil (by simpa using hp), Option.map_some]
    congr 1
    clear hp
    induction p with
    | nil => rfl
    | cons s p ih => simpa [Segment.decoded, Tok.value] using ih

/-- A path is canonical when its escapes are. -/
theorem normalEscapes_spell (p : List Segment) :
    NormalEscapes (spell p) ↔ p.map Segment.normalise = p := by
  rw [map_normalise_eq_self_iff]
  by_cases hp : p = []
  · subst hp
    simp only [List.not_mem_nil, false_implies, implies_true, iff_true]
    decide
  · rw [NormalEscapes, scan_spell hp, Option.getD_some]
    constructor
    · intro h s hs t ht
      exact h t (List.mem_flatMap.mpr ⟨s, hs, List.mem_cons_of_mem _ ht⟩)
    · intro h t ht
      obtain ⟨s, hs, ht⟩ := List.mem_flatMap.mp ht
      rcases List.mem_cons.mp ht with rfl | ht
      · rfl
      · exact h s hs t ht

section

variable {parseAuthority : AuthorityParser}
variable {base u : URL}

/-- A path that is canonicalisable is parsed as a path, decoded once. -/
theorem parse_spell {p : List Segment} {parsed : URL}
    (h : URL.parse parseAuthority (spell p) = .ok parsed) :
    parsed.path = pathOf (p.map Segment.decoded) := by
  obtain ⟨t, hspell, hslash⟩ : ∃ t, spell p = slash :: t ∧ ¬ [slash] <+: t :=
    pathOf_eq_cons (solid_map_bytes p)
  have hb := bytesAllowed_spell p
  rw [hspell] at hb
  have hparse : URL.parse parseAuthority (slash :: t) = ({} : URL).setPath (slash :: t) := by
    refine URL.parse_rooted hslash (fun hq => hb.no_query (List.mem_cons_of_mem _ hq)) ?_
    intro b hmem hctl
    exact hb.no_control b (List.mem_cons_of_mem _ hmem) (hctl.imp_left UInt8.le_of_lt)
  rw [hspell, hparse, ← hspell, URL.setPath, unescape_spell] at h
  rw [← Except.ok.inj h]

/-- **What is sent beyond the base path**: the segments of the decoded path, with the
escapes that are left in them normalised. -/
theorem joinPath_spell {p : List Segment} (hbase : base.path = [] ∨ Canonical base.path)
    (h : joinPath parseAuthority base (spell p) = .ok u) :
    ∃ q : List Segment, q.map Segment.bytes = p.map Segment.decoded ∧
      segments u.path = segments base.path ++ (q.map Segment.normalise).map Segment.bytes := by
  have hne : spell p ≠ [] := by
    obtain ⟨t, ht⟩ := slash_mem_pathOf (p.map Segment.bytes)
    rw [spell, ht]
    exact List.cons_ne_nil _ _
  obtain ⟨parsed, c, hparsed, hc, -, -, hsegments⟩ := joinPath_eq_joinCanonical hbase hne h
  rw [parse_spell hparsed] at hc
  obtain ⟨t, ht⟩ := slash_mem_pathOf (p.map Segment.decoded)
  have hdecoded : orRoot (pathOf (p.map Segment.decoded)) = pathOf (p.map Segment.decoded) := by
    rw [orRoot, ht, if_neg (List.cons_ne_nil _ _)]
  rw [hdecoded] at hc
  obtain ⟨q, hq, rfl⟩ := (canonicalise_eq_ok_iff _ _).mp hc
  refine ⟨q, ?_, ?_⟩
  · exact pathOf_injOn (solid_map_bytes q) (solid_map_decoded p) hq
  · rw [hsegments, segments_spell]

/-- **When the path that is sent is the path that was checked.**  For every request that a
grant permits and that becomes an upstream URL, the segments that URL has beyond the base
path are those of the canonical path, decoded, exactly when each escape left after
decoding the request's path once has its canonical spelling. -/
theorem path_checked_eq_sent_iff (g : Grant) (req : HTTPRequest) (use : UseKind)
    (hbase : base.path = [] ∨ Canonical base.path) (hauth : g.authorize req use = .ok ())
    (hjoin : joinPath parseAuthority base req.path = .ok u) :
    ∃ c, canonicalise req.path = .ok c ∧
      (((segments u.path).drop (segments base.path).length).map some =
          (segments c).map unescape ↔
        ∀ d, unescape req.path = some d → NormalEscapes d) := by
  obtain ⟨c, hc, -⟩ := (g.authorize_iff req use).mp hauth
  refine ⟨c, hc, ?_⟩
  obtain ⟨p, hp, rfl⟩ := (canonicalise_eq_ok_iff _ _).mp hc
  rw [← hp] at hjoin
  obtain ⟨q, hq, hu⟩ := joinPath_spell hbase hjoin
  have hchecked : (segments (spell (p.map Segment.normalise))).map unescape =
      (q.map Segment.bytes).map some := by
    simp [hq, Function.comp_def]
  have hdecoded : unescape req.path = some (spell q) := by
    rw [← hp, unescape_spell, ← hq]
    rfl
  rw [hu, List.drop_left, hchecked, hdecoded,
    (List.map_injective_iff.mpr (Option.some_injective _)).eq_iff,
    (List.map_injective_iff.mpr fun s t => Segment.bytes_injective).eq_iff, ← normalEscapes_spell]
  simp

end

def itemsRoute : Route :=
  { slot := ascii "api", method := ascii "GET", path := ascii "/items/*", use := useData }

def itemsGrant : Grant := demoGrant (ascii "api") [itemsRoute]

def itemRequest (path : Bytes) : HTTPRequest :=
  { slot := ascii "api", method := ascii "GET", path := path }

def rootBase : URL := { scheme := ascii "https", host := ascii "host" }

/-- `/items/%2541` is checked as the item `%41` and sent as the item `A`. -/
theorem escaped_escape_sent_decoded :
    itemsGrant.authorize (itemRequest (ascii "/items/%2541")) useData = .ok () ∧
      joinPath (fun _ => .error .authority) rootBase (ascii "/items/%2541") =
        .ok { rootBase with path := ascii "/items/A" } ∧
      canonicalise (ascii "/items/%2541") = .ok (ascii "/items/%2541") ∧
      ((segments (ascii "/items/A")).drop (segments rootBase.path).length).map some ≠
        (segments (ascii "/items/%2541")).map unescape := by
  decide +kernel

theorem path_checked_eq_sent_iff_comma :
    itemsGrant.authorize (itemRequest (ascii "/items/%2C")) useData = .ok () ∧
      joinPath (fun _ => .error .authority) rootBase (ascii "/items/%2C") =
        .ok { rootBase with path := ascii "/items/," } ∧
      ∃ c, canonicalise (ascii "/items/%2C") = .ok c ∧
        ((segments (ascii "/items/,")).drop (segments rootBase.path).length).map some =
          (segments c).map unescape := by
  have hauth : itemsGrant.authorize (itemRequest (ascii "/items/%2C")) useData = .ok () := by
    decide +kernel
  have hjoin : joinPath (fun _ => .error .authority) rootBase
      (itemRequest (ascii "/items/%2C")).path =
        .ok { rootBase with path := ascii "/items/," } := by
    decide +kernel
  obtain ⟨c, hc, hiff⟩ := path_checked_eq_sent_iff _ _ _ (.inl rfl) hauth hjoin
  refine ⟨hauth, hjoin, c, hc, hiff.mpr ?_⟩
  have hdecoded : unescape (ascii "/items/%2C") = some (ascii "/items/,") := by decide +kernel
  intro d hd
  rw [← Option.some.inj (hdecoded.symm.trans hd)]
  decide +kernel

end Veduta.Capabilities
