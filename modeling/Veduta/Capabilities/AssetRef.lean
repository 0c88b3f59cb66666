import Veduta.Capabilities.Broker
import Veduta.Go.Base64
import Veduta.Go.JsonCodec
import Veduta.Go.JsonWrite
import Veduta.Go.Time

/-!
# References to assets

Packages `capabilities` and `capabilities/assets`: a plugin asks for a reference to an image
behind a connection, and gets a token that the browser may send back.  The token carries the
connection, its revision, the canonical path and query and the transform, signed with a key
that the instance keeps.
-/

namespace Veduta.Capabilities

open Go Lib Connections Routepath

/-- A resize and format request; zero and the empty string are unset. -/
structure Transform where
  width : ℤ
  format : Bytes
  deriving DecidableEq

def transformString (t : Transform) : Bytes :=
  let width := if 0 < t.width then ascii "w=" ++ formatInt t.width else []
  let format := if t.format ≠ [] then ascii "f=" ++ t.format else []
  if width ≠ [] ∧ format ≠ [] then width ++ chr ',' :: format else width ++ format

/-- The texts that `^(w=(160|320|640|1280))?(,f=(webp|jpeg))?$` matches. -/
def transformPattern : List Bytes :=
  [[], ascii "w=160", ascii "w=320", ascii "w=640", ascii "w=1280"].flatMap fun width =>
    [[], ascii ",f=webp", ascii ",f=jpeg"].map fun format => width ++ format

def validateTransform (t : Transform) : Bool := transformPattern.contains (transformString t)

/-- What a token says. -/
structure Payload where
  v : ℤ
  connection : Bytes
  connectionRevision : Bytes
  path : Bytes
  query : Bytes
  transform : Bytes
  plugin : Bytes
  expires : ℤ
  deriving DecidableEq

def Payload.struct : Struct Payload := .of
  (.mk (fun s => (s.v, s.connection, s.connectionRevision, s.path, s.query, s.transform, s.plugin,
      s.expires, ()))
    fun (a, b, c, d, e, f, g, h, _) => ⟨a, b, c, d, e, f, g, h⟩)
  (.tag "v" .int <|
   .tag "c" .str <|
   .tag "cf" .str <|
   .tag "p" .str <|
   .opt "q" .str <|
   .opt "t" .str <|
   .tag "pl" .str <|
   .tag "exp" .int .nil)

/-- Seconds since 1970, of nanoseconds. -/
def unix (t : ℤ) : ℤ := t / second

section

variable (mac : Bytes → Bytes)

/-- The signature of an encoded payload; `mac` is HMAC-SHA-256 under the instance's key. -/
def signature (encoded : Bytes) : Bytes := encodeBase64URL (mac encoded)

def mint (p : Payload) : Bytes :=
  let encoded := encodeBase64URL (Payload.struct.codec.encode p).write
  ascii "v1." ++ encoded ++ chr '.' :: signature mac encoded

/-- The payload of a token that is signed, complete and not expired. -/
def verify (now : ℤ) (token : Bytes) : Option Payload :=
  match token.splitOn (chr '.') with
  | [version, encoded, tag] => do
    if version ≠ ascii "v1" then none
    else
      let want ← decodeBase64URL tag
      let got ← decodeBase64URL (signature mac encoded)
      if got ≠ want then none
      else
        let body ← decodeBase64URL encoded
        let p ← (unmarshalText body).bind (Payload.struct.codec.decode Payload.struct.zero)
        if p.v ≠ 1 ∨ p.connection = [] ∨ p.connectionRevision = [] ∨ p.path = [] ∨
            p.plugin = [] ∨ p.expires ≤ unix now then none
        else some p
  | _ => none

end

def defaultAssetRefTTL : ℤ := 24 * hour

def firstValues (q : Values) : GoMap Bytes Bytes := q.filterMap fun _ v => v.head?

/-- `Values.Get`. -/
def firstValue (q : Values) (k : Bytes) : Bytes := (q.get [] k).headD []

/-- The query with sorted keys, one value for each. -/
def canonicalQuery (q : Values) : Bytes :=
  [chr '&'].intercalate ((q.keys.insertionSort (· ≤ ·)).map fun k =>
    queryEscape k ++ chr '=' :: queryEscape (firstValue q k))

def assetRequest (slot path : Bytes) (query : Values) : HTTPRequest :=
  { slot := slot, method := ascii "GET", path := path, query := firstValues query }

/-- The preamble: capability, slot, a route for assets, and one host call. -/
def Grant.admitAssetRef (g : Grant) (slot path : Bytes) (query : Values) (b : Budget) :
    Except BrokerError Bytes × Budget :=
  if !g.caps.has (ascii "assets") then (.error .capDenied, b)
  else
    match g.slots.lookup slot with
    | none => (.error .slotDenied, b)
    | some connID =>
      match g.authorize (assetRequest slot path query) useAsset with
      | .error e => (.error (.routeDenied e), b)
      | .ok () =>
        match g.consumeHostCall b with
        | .error e => (.error e, b)
        | .ok b => (.ok connID, b)

inductive AssetRefError where
  | refused (e : BrokerError)
  | path (e : Routepath.Error)
  | transform (t : Transform)
  deriving DecidableEq

/-- **A reference to an asset**, and the counters as the call leaves them. -/
def assetRef (mac : Bytes → Bytes) (fallbackRevision : Bytes) (now : ℤ) (g : Grant)
    (b : Budget) (slot path : Bytes) (query : Values) (t : Transform) :
    Except AssetRefError Bytes × Budget :=
  match g.admitAssetRef slot path query b with
  | (.error e, b) => (.error (.refused e), b)
  | (.ok connID, b) =>
    match canonicalise path with
    | .error e => (.error (.path e), b)
    | .ok canonicalPath =>
      if !validateTransform t then (.error (.transform t), b)
      else
        let revision := g.ident.slotRevisions.get [] slot
        let payload : Payload :=
          { v := 1
            connection := connID
            connectionRevision := if revision = [] then fallbackRevision else revision
            path := canonicalPath
            query := canonicalQuery query
            transform := transformString t
            plugin := g.pluginID ++ chr '@' :: g.version
            expires := unix (now + defaultAssetRefTTL) }
        (.ok (mint mac payload), b)

theorem Grant.admitAssetRef_fresh (g : Grant) (slot path : Bytes) (query : Values) :
    (∃ connID, (g.admitAssetRef slot path query {}).1 = .ok connID) ↔
      g.caps.has (ascii "assets") = true ∧ (g.slots.lookup slot).isSome = true ∧
        g.authorize (assetRequest slot path query) useAsset = .ok () := by
  have hfresh : g.consumeHostCall {} = .ok { hostCallsUsed := 1 } := by
    rw [Grant.consumeHostCall, if_neg]
    · rfl
    · intro h
      exact absurd h.2 (not_le.mpr h.1)
  cases hcap : g.caps.has (ascii "assets") with
  | false => simp [Grant.admitAssetRef, hcap]
  | true =>
    cases hslot : g.slots.lookup slot with
    | none => simp [Grant.admitAssetRef, hcap, hslot]
    | some connID =>
      cases hauth : g.authorize (assetRequest slot path query) useAsset with
      | error e => simp [Grant.admitAssetRef, hcap, hslot, hauth]
      | ok u => simp [Grant.admitAssetRef, hcap, hslot, hauth, hfresh]

/-- **When a fresh grant gives a token**, for a path in normal form. -/
theorem assetRef_fresh_iff {mac : Bytes → Bytes} {fallbackRevision : Bytes} {now : ℤ} {g : Grant}
    {slot path : Bytes} {query : Values} {t : Transform} (hpath : canonicalise path = .ok path) :
    (∃ token, (assetRef mac fallbackRevision now g {} slot path query t).1 = .ok token) ↔
      g.caps.has (ascii "assets") = true ∧ (g.slots.lookup slot).isSome = true ∧
        g.authorize (assetRequest slot path query) useAsset = .ok () ∧
        validateTransform t = true := by
  have hadmitted := g.admitAssetRef_fresh slot path query
  rw [assetRef]
  revert hadmitted
  rcases g.admitAssetRef slot path query {} with ⟨e | connID, b⟩ <;> intro hadmitted
  · have hnone : ¬ (g.caps.has (ascii "assets") = true ∧ (g.slots.lookup slot).isSome = true ∧
        g.authorize (assetRequest slot path query) useAsset = .ok ()) := by
      rw [← hadmitted]
      simp
    refine iff_of_false ?_ fun h => hnone ⟨h.1, h.2.1, h.2.2.1⟩
    simp
  · obtain ⟨hcap, hslot, hauth⟩ := hadmitted.mp ⟨connID, rfl⟩
    simp only [hpath, hcap, hslot, hauth, true_and]
    cases validateTransform t with
    | false | true => simp

theorem head?_transformString_ne (t : Transform) :
    (transformString t).head? ≠ some (chr ',') := by
  have hw : ascii "w=" = [0x77, 0x3d] := by decide
  have hf : ascii "f=" = [0x66, 0x3d] := by decide
  have hcomma : chr ',' = 0x2c := by decide
  rw [transformString, hw, hf, hcomma]
  by_cases hwidth : 0 < t.width
  · by_cases hformat : t.format = [] <;> simp [hwidth, hformat]
  · by_cases hformat : t.format = [] <;> simp [hwidth, hformat]

def transforms : List Transform :=
  [0, 160, 320, 640, 1280].flatMap fun width =>
    [[], ascii "webp", ascii "jpeg"].map fun format => ⟨width, format⟩

theorem exists_transform_iff {s : Bytes} :
    (∃ t, transformString t = s ∧ validateTransform t = true) ↔
      s ∈ transformPattern ∧ s.head? ≠ some (chr ',') := by
  have hall : ∀ s ∈ transformPattern, s.head? ≠ some (chr ',') →
      ∃ t ∈ transforms, transformString t = s := by
    decide +kernel
  constructor
  · intro h
    obtain ⟨t, rfl, hvalid⟩ := h
    exact ⟨List.contains_iff_mem.mp hvalid, head?_transformString_ne t⟩
  · intro h
    obtain ⟨t, _, ht⟩ := hall s h.1 h.2
    refine ⟨t, ht, ?_⟩
    rw [validateTransform, ht]
    exact List.contains_iff_mem.mpr h.1

end Veduta.Capabilities
