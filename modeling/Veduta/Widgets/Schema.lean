import Veduta.Integrations.Schema
import Veduta.Widgets.Document

/-!
# The widget document schema

`widget-document.v1`, definition by definition.  The types of a document carry the schema:
what the schema says of a settled text, it says again of the typed document that the text is
decoded to.
-/

namespace Veduta.Widgets

open Go Lib ValueSchema
open Integrations (isLowerAlpha isUpperAlpha approvedAtPattern)

/-- `\s` -/
def isSpace (b : UInt8) : Bool := b = 0x20 || b = 0x09 || b = 0x0a || b = 0x0c || b = 0x0d

/-- `^https?://[^\s/?#]+(/[^\s]*)?$` -/
def safeURL (s : Bytes) : Bool :=
  let rest := if hasPrefix s (ascii "https://") then s.drop 8 else s.drop 7
  let stops (b : UInt8) := isSpace b || b = chr '/' || b = chr '?' || b = chr '#'
  (hasPrefix s (ascii "https://") || hasPrefix s (ascii "http://")) &&
    !(rest.takeWhile fun b => !stops b).isEmpty &&
    match rest.dropWhile fun b => !stops b with
    | [] => true
    | b :: path => b = chr '/' && path.all fun c => !isSpace c

def isNameByte (b : UInt8) : Bool := isLowerAlpha b || isDigit b || b = chr '_'

/-- `^[a-z][a-z0-9_]*(\.[a-z0-9_]+){0,4}$` -/
def signalName (s : Bytes) : Bool :=
  match s.splitOn (chr '.') with
  | [] => false
  | first :: rest =>
    (first.head?.any isLowerAlpha && first.all isNameByte) && rest.length ≤ 4 &&
      rest.all fun part => !part.isEmpty && part.all isNameByte

def isTokenByte (b : UInt8) : Bool :=
  isUpperAlpha b || isLowerAlpha b || isDigit b || b = chr '_' || b = chr '-'

/-- `^v1\.[A-Za-z0-9_-]+\.[A-Za-z0-9_-]+$` -/
def assetRef (s : Bytes) : Bool :=
  match s.splitOn (chr '.') with
  | [version, a, b] =>
    version = ascii "v1" && !a.isEmpty && a.all isTokenByte && !b.isEmpty && b.all isTokenByte
  | _ => false

/-- `[1-9][0-9]?` -/
def isSide : Bytes → Bool
  | [a] => isDigit a && a ≠ chr '0'
  | [a, b] => isDigit a && a ≠ chr '0' && isDigit b
  | _ => false

/-- `^[1-9][0-9]?:[1-9][0-9]?$` -/
def aspect (s : Bytes) : Bool :=
  match s.splitOn (chr ':') with
  | [a, b] => isSide a && isSide b
  | _ => false

/-- `^[a-z0-9][a-z0-9-]{0,63}$` -/
def actionId : Bytes → Bool
  | [] => false
  | b :: rest =>
    (isLowerAlpha b || isDigit b) && rest.length ≤ 63 &&
      rest.all fun c => isLowerAlpha c || isDigit c || c = chr '-'

def shortText : ValueSchema := string (maxLength 120)

def text : ValueSchema := string (maxLength 512)

def link : ValueSchema := string fun s => maxLength 2048 s && safeURL s

def level : ValueSchema :=
  enum [ascii "ok", ascii "warn", ascii "error", ascii "info", ascii "muted", ascii "unknown"]

def format : ValueSchema :=
  enum [ascii "text", ascii "number", ascii "bytes", ascii "bytes-rate", ascii "percent",
    ascii "duration", ascii "relative-time", ascii "temperature", ascii "currency", ascii "count"]

def timestamp : ValueSchema := string approvedAtPattern

def unit : ValueSchema := string (maxLength 16)

def icon : ValueSchema := string (maxLength 64)

def signalUnit : ValueSchema :=
  enum [ascii "count", ascii "bytes", ascii "bytes_per_second", ascii "percent", ascii "seconds",
    ascii "celsius", ascii "ratio", ascii "boolean", ascii "state", ascii "none"]

def emphasis : ValueSchema := enum [ascii "normal", ascii "strong", ascii "subtle"]

def req (name : String) (schema : ValueSchema) : Property := ⟨ascii name, true, schema⟩

def opt (name : String) (schema : ValueSchema) : Property := ⟨ascii name, false, schema⟩

def statusProps : List Property := [req "level" level, opt "text" shortText, opt "since" timestamp]

def signalProps : List Property :=
  [req "value" (scalar 128), opt "unit" signalUnit, opt "level" level]

def noticeProps : List Property :=
  [req "level" (enum [ascii "info", ascii "warn"]), req "message" text]

def hintsProps : List Property := [opt "ttlSeconds" (integer 1 86400)]

def imageProps : List Property :=
  [req "ref" (string fun s => maxLength 1024 s && assetRef s), opt "alt" shortText,
   opt "aspect" (string aspect), opt "blurhash" (string (maxLength 64))]

def metricItemProps : List Property :=
  [req "label" shortText, req "value" (scalar 512), opt "format" format, opt "unit" unit,
   opt "level" level, opt "icon" icon, opt "link" link]

def progressItemProps : List Property :=
  [req "label" shortText, req "progress" (number fun q => 0 ≤ q && q ≤ 1),
   opt "value" (scalar 512), opt "format" format, opt "level" level]

def statusItemProps : List Property :=
  [req "label" shortText, req "level" level, opt "text" shortText, opt "since" timestamp,
   opt "link" link]

def listItemProps : List Property :=
  [opt "id" (string (maxLength 128)), req "title" shortText, opt "subtitle" shortText,
   opt "value" (scalar 512), opt "format" format, opt "level" level, opt "icon" icon,
   opt "image" (object imageProps), opt "link" link, opt "timestamp" timestamp]

def mediaItemProps : List Property :=
  [opt "id" (string (maxLength 128)), req "image" (object imageProps), opt "title" shortText,
   opt "subtitle" shortText, opt "badge" shortText, opt "level" level, opt "link" link,
   opt "timestamp" timestamp]

def tableColumnProps : List Property :=
  [req "key" (string (maxLength 64)), opt "label" shortText, opt "format" format,
   opt "align" (enum [ascii "start", ascii "center", ascii "end"])]

def actionProps : List Property :=
  [req "id" (string fun s => maxLength 64 s && actionId s), req "label" shortText,
   opt "icon" icon, opt "confirm" boolean, opt "danger" boolean]

def historyLineProps : List Property :=
  [req "signal" (string fun s => signalName s && maxLength 96 s), req "label" shortText,
   opt "level" level]

def historyProps : List Property :=
  [opt "window" (enum [ascii "1h", ascii "6h", ascii "24h", ascii "7d"]),
   req "lines" (array 1 4 (object historyLineProps))]

def seriesPointProps : List Property :=
  [req "t" timestamp, req "v" (nullable (number fun _ => true))]

def seriesLineProps : List Property :=
  [req "label" shortText, opt "level" level, req "points" (array 0 288 (object seriesPointProps))]

/-- One kind of block: the values of its `type`, its other properties, and what it demands
of the whole object. -/
structure Alternative where
  types : List Bytes
  props : List Property
  whole : List (Bytes × JVal) → Bool

/-- A block of one kind. -/
def Alternative.accepts (a : Alternative) : ValueSchema
  | .obj members => closed (req "type" (enum a.types) :: a.props) members && a.whole members
  | _ => false

def titleProps : List Property := [opt "title" shortText, opt "emphasis" emphasis]

def blockMetrics : Alternative where
  types := [ascii "metrics"]
  props := titleProps ++ [opt "columns" (integer 1 8),
    req "items" (array 1 12 (object metricItemProps))]
  whole _ := true

def blockKeyValue : Alternative where
  types := [ascii "key-value"]
  props := titleProps ++ [req "items" (array 1 24 (object metricItemProps))]
  whole _ := true

def blockProgress : Alternative where
  types := [ascii "progress"]
  props := titleProps ++ [req "items" (array 1 16 (object progressItemProps))]
  whole _ := true

def blockStatus : Alternative where
  types := [ascii "status"]
  props := titleProps ++ [req "items" (array 1 24 (object statusItemProps))]
  whole _ := true

def blockList : Alternative where
  types := [ascii "list"]
  props := titleProps ++ [opt "empty" shortText, req "items" (array 0 100 (object listItemProps))]
  whole _ := true

def blockMedia : Alternative where
  types := [ascii "image", ascii "image-grid", ascii "poster-grid"]
  props := titleProps ++ [opt "columns" (integer 1 8), opt "empty" shortText,
    req "items" (array 0 48 (object mediaItemProps))]
  whole _ := true

def blockText : Alternative where
  types := [ascii "text", ascii "markdown"]
  props := titleProps ++ [opt "level" level, req "content" (string (maxLength 2048))]
  whole _ := true

def blockTable : Alternative where
  types := [ascii "table"]
  props := titleProps ++ [req "columns" (array 1 8 (object tableColumnProps)),
    req "rows" (array 0 100 (mapping 8 (fun _ => true) (scalar 512)))]
  whole _ := true

def blockActions : Alternative where
  types := [ascii "actions"]
  props := titleProps ++ [req "actions" (array 1 6 (object actionProps))]
  whole _ := true

/-- With `history` there is no `series`, without it there is. -/
def blockSeries : Alternative where
  types := [ascii "series"]
  props := titleProps ++ [opt "format" format, opt "unit" unit, opt "min" (number fun _ => true),
    opt "max" (number fun _ => true), opt "series" (array 1 4 (object seriesLineProps)),
    opt "history" (object historyProps)]
  whole members :=
    if ascii "history" ∈ members.map Prod.fst then ascii "series" ∉ members.map Prod.fst
    else ascii "series" ∈ members.map Prod.fst

def blockAlternatives : List Alternative :=
  [blockMetrics, blockKeyValue, blockProgress, blockStatus, blockList, blockMedia, blockText,
   blockTable, blockActions, blockSeries]

/-- `oneOf` the kinds of block. -/
def blockSchema : ValueSchema := oneOf (blockAlternatives.map Alternative.accepts)

def documentProps : List Property :=
  [req "schemaVersion" (number fun q => q = 1), opt "title" shortText, opt "subtitle" shortText,
   opt "link" link, opt "status" (object statusProps), req "blocks" (array 0 12 blockSchema),
   opt "signals" (mapping 64 (fun k => signalName k && maxLength 96 k) (object signalProps)),
   opt "notices" (array 0 4 (object noticeProps)), opt "hints" (object hintsProps)]

/-- The schema of a document. -/
def widgetSchema : ValueSchema := object documentProps

theorem Status.carries : Carries Status.struct.codec (object statusProps) :=
  carries_of <| .reqStr <| .optStr <| .optStr .nil

theorem Signal.carries : Carries Signal.struct.codec (object signalProps) :=
  carries_of <| .req (carries_scalar _) <| .optStr <| .optStr .nil

theorem Notice.carries : Carries Notice.struct.codec (object noticeProps) :=
  carries_of <| .reqStr <| .reqStr .nil

theorem Hints.carries : Carries Hints.struct.codec (object hintsProps) :=
  carries_of <| .opt rfl (carries_int _) .nil

theorem Image.carries : Carries Image.struct.codec (object imageProps) :=
  carries_of <| .reqStr <| .optStr <| .optStr <| .optStr .nil

theorem MetricItem.carries : Carries MetricItem.struct.codec (object metricItemProps) :=
  carries_of <| .reqStr <| .req (carries_scalar _) <| .optStr <| .optStr <| .optStr <| .optStr <|
    .optStr .nil

theorem ProgressItem.carries : Carries ProgressItem.struct.codec (object progressItemProps) :=
  carries_of <| .reqStr <| .req carries_unit <| .opt rfl (carries_scalar _) <| .optStr <|
    .optStr .nil

theorem StatusItem.carries : Carries StatusItem.struct.codec (object statusItemProps) :=
  carries_of <| .reqStr <| .reqStr <| .optStr <| .optStr <| .optStr .nil

theorem ListItem.carries : Carries ListItem.struct.codec (object listItemProps) :=
  carries_of <| .optStr <| .reqStr <| .optStr <| .opt rfl (carries_scalar _) <| .optStr <|
    .optStr <| .optStr <| .opt rfl (carries_ptr rfl Image.carries) <| .optStr <| .optStr .nil

theorem MediaItem.carries : Carries MediaItem.struct.codec (object mediaItemProps) :=
  carries_of <| .optStr <| .req Image.carries <| .optStr <| .optStr <| .optStr <| .optStr <|
    .optStr <| .optStr .nil

theorem TableColumn.carries : Carries TableColumn.struct.codec (object tableColumnProps) :=
  carries_of <| .reqStr <| .optStr <| .optStr <| .optStr .nil

theorem Action.carries : Carries Action.struct.codec (object actionProps) :=
  carries_of <| .reqStr <| .reqStr <| .optStr <| .opt rfl carries_bool <|
    .opt rfl carries_bool .nil

theorem HistoryLine.carries : Carries HistoryLine.struct.codec (object historyLineProps) :=
  carries_of <| .reqStr <| .reqStr <| .optStr .nil

theorem SeriesHistory.carries : Carries SeriesHistory.struct.codec (object historyProps) :=
  carries_of <| .optStr <| .req (carries_slice _ _ HistoryLine.carries) .nil

theorem SeriesPoint.carries : Carries SeriesPoint.struct.codec (object seriesPointProps) :=
  carries_of <| .reqStr <| .req (carries_nullable carries_float) .nil

theorem SeriesLine.carries : Carries SeriesLine.struct.codec (object seriesLineProps) :=
  carries_of <| .reqStr <| .optStr <| .req (carries_slice _ _ SeriesPoint.carries) .nil

/-! ## Blocks carry the schema -/

def typeProp (types : List Bytes) : Property := req "type" (enum types)

/-- A case of the switch reads one kind of block and writes it back. -/
structure Reads (c : BlockCase) (typ : Bytes) (a : Alternative) : Prop where
  fields : Matches c.struct a.props
  type_free : c.struct.field? (ascii "type") = none
  blockType : ∀ v, (c.make v).blockType = typ
  encode : ∀ v, (c.make v).fields = c.struct.encodeFields v
  whole : ∀ members v, c.struct.codec.settled (.obj members) = true →
    closed (typeProp a.types :: a.props) (genericMembers members) = true →
    c.struct.codec.decode c.struct.zero (.obj members) = some v →
    a.whole (genericMembers members) = true →
    a.whole ((ascii "type", .str typ) :: c.struct.encodeFields v) = true

variable {a : Alternative} {typ : Bytes} {c : BlockCase} {members : List (Bytes × JVal)}
  {items : List Json} {data : Json} {doc : Document}

theorem describes_of {S : Type} {σ : Struct S} {props : List Property} (fields : Matches σ props)
    (type_free : σ.field? (ascii "type") = none) (types : List Bytes) :
    Describes σ props (typeProp types :: props) where
  fields := fields
  subset := List.subset_cons_self _ _
  others := by
    intro p hp
    rcases List.mem_cons.mp hp with rfl | hp
    · exact .inr type_free
    · exact .inl hp

theorem Reads.describes (h : Reads c typ a) :
    Describes c.struct a.props (typeProp a.types :: a.props) :=
  describes_of h.fields h.type_free a.types

theorem BlockMetrics.matches : Matches BlockMetrics.struct blockMetrics.props :=
  HasProps.struct <| .optStr <| .optStr <| .opt rfl (carries_int _) <|
    .req (carries_slice _ _ MetricItem.carries) .nil

theorem BlockKeyValue.matches : Matches BlockKeyValue.struct blockKeyValue.props :=
  HasProps.struct <| .optStr <| .optStr <| .req (carries_slice _ _ MetricItem.carries) .nil

theorem BlockProgress.matches : Matches BlockProgress.struct blockProgress.props :=
  HasProps.struct <| .optStr <| .optStr <| .req (carries_slice _ _ ProgressItem.carries) .nil

theorem BlockStatus.matches : Matches BlockStatus.struct blockStatus.props :=
  HasProps.struct <| .optStr <| .optStr <| .req (carries_slice _ _ StatusItem.carries) .nil

theorem BlockList.matches : Matches BlockList.struct blockList.props :=
  HasProps.struct <| .optStr <| .optStr <| .optStr <|
    .req (carries_slice _ _ ListItem.carries) .nil

theorem BlockMediaAlias.matches : Matches BlockMediaAlias.struct blockMedia.props :=
  HasProps.struct <| .optStr <| .optStr <| .opt rfl (carries_int _) <| .optStr <|
    .req (carries_slice _ _ MediaItem.carries) .nil

theorem BlockTextAlias.matches : Matches BlockTextAlias.struct blockText.props :=
  HasProps.struct <| .optStr <| .optStr <| .optStr <| .reqStr .nil

theorem BlockTable.matches : Matches BlockTable.struct blockTable.props :=
  HasProps.struct <| .optStr <| .optStr <| .req (carries_slice _ _ TableColumn.carries) <|
    .req (carries_slice _ _ (carries_map _ _ (carries_scalar _))) .nil

theorem BlockActions.matches : Matches BlockActions.struct blockActions.props :=
  HasProps.struct <| .optStr <| .optStr <| .req (carries_slice _ _ Action.carries) .nil

theorem BlockSeries.matches : Matches BlockSeries.struct blockSeries.props :=
  HasProps.struct <| .optStr <| .optStr <| .optStr <| .optStr <|
    .opt rfl (carries_ptr rfl carries_float) <| .opt rfl (carries_ptr rfl carries_float) <|
    .opt rfl (carries_slice _ _ SeriesLine.carries) <|
    .opt rfl (carries_ptr rfl SeriesHistory.carries) .nil

theorem BlockHead.matches (types : List Bytes) : Matches BlockHead.struct [typeProp types] :=
  HasProps.struct <| .reqStr .nil

theorem reads_of (fields : Matches c.struct a.props)
    (type_free : c.struct.field? (ascii "type") = none := by decide +kernel)
    (blockType : ∀ v, (c.make v).blockType = typ := by intro; rfl)
    (encode : ∀ v, (c.make v).fields = c.struct.encodeFields v := by intro; rfl)
    (whole : a.whole = fun _ => true := by rfl) : Reads c typ a :=
  ⟨fields, type_free, blockType, encode, fun _ _ _ _ _ _ => congrFun whole _⟩

def BlockSeries.historyField : StructField BlockSeries where
  name := ascii "history"
  omitEmpty := true
  Ty := Option SeriesHistory
  codec := .ptr SeriesHistory.struct.codec
  get := BlockSeries.history
  set b v := { b with history := v }

def BlockSeries.seriesField : StructField BlockSeries where
  name := ascii "series"
  omitEmpty := true
  Ty := Slice SeriesLine
  codec := .slice SeriesLine.struct.codec
  get := BlockSeries.series
  set b v := { b with series := v }

theorem isEmpty_ptr_of_object {T : Type} {c : Codec T} {props : List Property} (j : Json)
    (v : Option T) (h : object props j.generic = true) (hdec : c.ptr.decode c.ptr.zero j = some v) :
    c.ptr.isEmpty v = false := by
  cases j with
  | obj members =>
    obtain ⟨x, -, rfl⟩ := Option.map_eq_some_iff.mp hdec
    rfl
  | _ => cases h

theorem isEmpty_slice_of_array {T : Type} {c : Codec T} {item : ValueSchema} {hi : ℕ} (j : Json)
    (v : Slice T) (h : array 1 hi item j.generic = true)
    (hdec : c.slice.decode c.slice.zero j = some v) : c.slice.isEmpty v = false := by
  cases j with
  | arr items =>
    cases items with
    | nil => cases h
    | cons j items =>
      obtain ⟨⟨xs, rest⟩, hxs, rfl⟩ := Option.map_eq_some_iff.mp hdec
      obtain ⟨x, -, xs, rest, -, heq⟩ := Codec.decodeItems_cons.mp hxs
      cases heq
      rfl
  | _ => cases h

theorem reads_series :
    Reads ⟨_, BlockSeries.struct, .series⟩ (ascii "series") blockSeries where
  fields := BlockSeries.matches
  type_free := by decide +kernel
  blockType _ := rfl
  encode _ := rfl
  whole := by
    intro members v hsettled hclosed hdec hwhole
    have hσ := describes_of BlockSeries.matches (by decide +kernel) blockSeries.types
    have hhistory : ascii "history" ∈ (BlockSeries.struct.encodeFields v).map Prod.fst ↔
        ascii "history" ∈ (genericMembers members).map Prod.fst := by
      have hf : BlockSeries.historyField ∈ BlockSeries.struct.fields := by
        exact .tail _ (.tail _ (.tail _ (.tail _ (.tail _ (.tail _ (.tail _ (.head _)))))))
      have hp : opt "history" (object historyProps) ∈ blockSeries.props := by
        exact .tail _ (.tail _ (.tail _ (.tail _ (.tail _ (.tail _ (.tail _ (.head _)))))))
      exact mem_encodeFields_iff hσ hsettled hclosed hdec hf hp
        ⟨rfl, rfl, fun _ => rfl, carries_ptr rfl SeriesHistory.carries⟩ rfl isEmpty_ptr_of_object
    have hseries : ascii "series" ∈ (BlockSeries.struct.encodeFields v).map Prod.fst ↔
        ascii "series" ∈ (genericMembers members).map Prod.fst := by
      have hf : BlockSeries.seriesField ∈ BlockSeries.struct.fields := by
        exact .tail _ (.tail _ (.tail _ (.tail _ (.tail _ (.tail _ (.head _))))))
      have hp : opt "series" (array 1 4 (object seriesLineProps)) ∈ blockSeries.props := by
        exact .tail _ (.tail _ (.tail _ (.tail _ (.tail _ (.tail _ (.head _))))))
      exact mem_encodeFields_iff hσ hsettled hclosed hdec hf hp
        ⟨rfl, rfl, fun _ => rfl, carries_slice _ _ SeriesLine.carries⟩ rfl isEmpty_slice_of_array
    have htype : ascii "history" ≠ ascii "type" ∧ ascii "series" ≠ ascii "type" := by decide
    simp only [blockSeries, List.map_cons, List.mem_cons, htype.1, htype.2, false_or, hhistory,
      hseries] at hwhole ⊢
    exact hwhole

/-- **The switch covers the schema**: for each kind of block and each of its discriminators
there is a case that reads it. -/
theorem exists_reads (ha : a ∈ blockAlternatives) (htyp : typ ∈ a.types) :
    ∃ c, blockCase typ = some c ∧ Reads c typ a := by
  simp only [blockAlternatives, List.mem_cons, List.not_mem_nil, or_false] at ha
  rcases ha with rfl | rfl | rfl | rfl | rfl | rfl | rfl | rfl | rfl | rfl
  · cases List.mem_singleton.mp htyp
    exact ⟨_, rfl, reads_of BlockMetrics.matches⟩
  · cases List.mem_singleton.mp htyp
    exact ⟨_, rfl, reads_of BlockKeyValue.matches⟩
  · cases List.mem_singleton.mp htyp
    exact ⟨_, rfl, reads_of BlockProgress.matches⟩
  · cases List.mem_singleton.mp htyp
    exact ⟨_, rfl, reads_of BlockStatus.matches⟩
  · cases List.mem_singleton.mp htyp
    exact ⟨_, rfl, reads_of BlockList.matches⟩
  · simp only [blockMedia, List.mem_cons, List.not_mem_nil, or_false] at htyp
    rcases htyp with rfl | rfl | rfl <;>
      exact ⟨_, rfl, reads_of BlockMediaAlias.matches⟩
  · simp only [blockText, List.mem_cons, List.not_mem_nil, or_false] at htyp
    rcases htyp with rfl | rfl <;>
      exact ⟨_, rfl, reads_of BlockTextAlias.matches⟩
  · cases List.mem_singleton.mp htyp
    exact ⟨_, rfl, reads_of BlockTable.matches⟩
  · cases List.mem_singleton.mp htyp
    exact ⟨_, rfl, reads_of BlockActions.matches⟩
  · cases List.mem_singleton.mp htyp
    exact ⟨_, rfl, reads_series⟩

theorem head_field_none (ha : a ∈ blockAlternatives) {p : Property} (hp : p ∈ a.props) :
    BlockHead.struct.field? p.name = none := by
  have hall : (blockAlternatives.all fun a => a.props.all fun p =>
      (BlockHead.struct.field? p.name).isNone) = true := by decide +kernel
  have hnone := List.all_eq_true.mp (List.all_eq_true.mp hall a ha) p hp
  exact Option.isNone_iff_eq_none.mp hnone

theorem head_describes (ha : a ∈ blockAlternatives) :
    Describes BlockHead.struct [typeProp a.types] (typeProp a.types :: a.props) where
  fields := BlockHead.matches a.types
  subset := by simp
  others := by
    intro p hp
    rcases List.mem_cons.mp hp with rfl | hp
    · exact .inl List.mem_cons_self
    · exact .inr (head_field_none ha hp)

/-- Nothing of an earlier member is left in a raw block. -/
def settledBlock (raw : Json) : Bool :=
  BlockHead.struct.codec.settled raw &&
    match decodeHead raw with
    | none => true
    | some head =>
      match blockCase head.type with
      | none => true
      | some c => c.struct.codec.settled raw

/-- A member `type` has to be one that the kind of block allows. -/
theorem mem_types_of_accepts (ha : a ∈ blockAlternatives)
    (h : a.accepts (withType typ members) = true) : typ ∈ a.types := by
  simp only [withType, Alternative.accepts, Bool.and_eq_true] at h
  obtain ⟨p, hp, hname, hvalue⟩ := (closed_iff.mp h.1).1 _ List.mem_cons_self
  rcases List.mem_cons.mp hp with rfl | hp
  · simpa [req, enum, string] using hvalue
  · have hnone := head_field_none ha hp
    rw [hname] at hnone
    cases hnone

/-- The kinds of block have no discriminator in common, so only one accepts a block. -/
theorem blockSchema_of_accepts (ha : a ∈ blockAlternatives)
    (h : a.accepts (withType typ members) = true) : blockSchema (withType typ members) = true := by
  have hdisjoint : blockAlternatives.Pairwise fun a a' => ∀ t ∈ a.types, t ∉ a'.types := by
    decide +kernel
  refine oneOf_of_pairwise (List.pairwise_map.mpr ?_) (List.mem_map_of_mem ha) h
  refine hdisjoint.imp_of_mem fun {x y} hx hy hxy haccepts => ?_
  by_contra hne
  exact hxy typ (mem_types_of_accepts hx haccepts)
    (mem_types_of_accepts hy (by simpa using hne))

/-- **Blocks carry the schema.** -/
theorem blockSchema_of_decodeBlock {raw : Json} {b : Block} (hsettled : settledBlock raw = true)
    (hschema : blockSchema raw.generic = true) (hdec : decodeBlock raw = some b) :
    blockSchema b.marshalJSON = true := by
  obtain ⟨P, hP, haccepts⟩ := exists_of_oneOf hschema
  obtain ⟨a, ha, rfl⟩ := List.mem_map.mp hP
  obtain ⟨head, hhead, hcase⟩ := Option.bind_eq_some_iff.mp hdec
  cases raw with
  | obj members =>
    simp only [Json.generic, Alternative.accepts, Bool.and_eq_true] at haccepts
    obtain ⟨hclosed, hwhole⟩ := haccepts
    simp only [settledBlock, hhead, Bool.and_eq_true] at hsettled
    have htype : head.type ∈ a.types := by
      have h := closed_encodeFields (head_describes ha) hsettled.1 hclosed hhead
      obtain ⟨p, hp, -, hvalue⟩ := (closed_iff.mp h).1 (ascii "type", .str head.type)
        List.mem_cons_self
      cases List.mem_singleton.mp hp
      simpa [typeProp, req, enum, string] using hvalue
    obtain ⟨c, hc, hreads⟩ := exists_reads ha htype
    rw [hc] at hsettled hcase
    obtain ⟨v, hv, rfl⟩ := Option.map_eq_some_iff.mp hcase
    have hfields := closed_encodeFields hreads.describes hsettled.2 hclosed hv
    rw [Block.marshalJSON, hreads.blockType, hreads.encode]
    apply blockSchema_of_accepts ha
    simp only [withType, Alternative.accepts, Bool.and_eq_true]
    refine ⟨closed_cons ?_ hfields, hreads.whole members v hsettled.2 hclosed hv hwhole⟩
    simpa [req, enum, string] using htype
  | _ => cases haccepts

/-! ## Documents carry the schema -/

/-- The blocks of a text: those of its last member of that name. -/
def rawBlocks (members : List (Bytes × Json)) : List Json :=
  match (textsNamed (ascii "blocks") members).getLast? with
  | some (.arr items) => items
  | _ => []

/-- Nothing of an earlier member is left in a document. -/
def settledDocument : Json → Bool
  | .obj members =>
    (DocumentAlias.struct .raw).codec.settled (.obj members) &&
      (rawBlocks members).all settledBlock
  | _ => true

theorem DocumentAlias.matches : Matches (DocumentAlias.struct .raw) documentProps :=
  HasProps.struct <| .req (carries_int _) <| .optStr <| .optStr <| .optStr <|
    .opt rfl (carries_ptr rfl Status.carries) <| .req (carries_slice _ _ (carries_raw _)) <|
    .opt rfl (carries_map _ _ Signal.carries) <| .opt rfl (carries_slice _ _ Notice.carries) <|
    .opt rfl (carries_ptr rfl Hints.carries) .nil

/-- A member that is left out while its value is empty. -/
def omitEmpty {T : Type} (name : String) (c : Codec T) (x : T) : List (Bytes × JVal) :=
  if c.isEmpty x then [] else [(ascii name, c.encode x)]

theorem encodeFields_alias {B : Type} (c : Codec B) (a : DocumentAlias B) :
    (DocumentAlias.struct c).encodeFields a =
      (ascii "schemaVersion", .num a.schemaVersion) ::
        (omitEmpty "title" .str a.title ++ (omitEmpty "subtitle" .str a.subtitle ++
          (omitEmpty "link" .str a.link ++
            (omitEmpty "status" (.ptr Status.struct.codec) a.status ++
            ((ascii "blocks", c.slice.encode a.blocks) ::
              (omitEmpty "signals" (.map Signal.struct.codec) a.signals ++
                (omitEmpty "notices" (.slice Notice.struct.codec) a.notices ++
                  omitEmpty "hints" (.ptr Hints.struct.codec) a.hints))))))) := by
  rw [← List.append_nil (omitEmpty "hints" _ _)]
  rfl

def DocumentAlias.blocksField : StructField (DocumentAlias Json) where
  name := ascii "blocks"
  omitEmpty := false
  Ty := Slice Json
  codec := .slice .raw
  get := DocumentAlias.blocks
  set a v := { a with blocks := v }

theorem DocumentAlias.describes :
    Describes (DocumentAlias.struct .raw) documentProps documentProps :=
  ⟨DocumentAlias.matches, List.Subset.refl _, fun _ hp => .inl hp⟩

/-- Raw messages are replaced, so a slice of them has the items of its last text. -/
theorem elems_of_decode_raw {s x : Slice Json}
    (h : (Codec.slice .raw).decode s (.arr items) = some x) : x.elems = items := by
  have hitems : ∀ (items old xs rest : List Json),
      Codec.raw.decodeItems old items = some (xs, rest) → xs = items := by
    intro items
    induction items with
    | nil =>
      intro old xs rest h
      cases h
      rfl
    | cons j items ih =>
      intro old xs rest h
      obtain ⟨x, hx, xs', rest', hrest, heq⟩ := Codec.decodeItems_cons.mp h
      cases heq
      cases hx
      rw [ih _ _ _ hrest]
  cases items with
  | nil =>
    cases h
    rfl
  | cons j items =>
    obtain ⟨⟨xs, rest⟩, hxs, rfl⟩ := Option.map_eq_some_iff.mp h
    exact hitems _ _ _ _ hxs

theorem elems_blocks {members : List (Bytes × Json)} {a : DocumentAlias Json}
    (hschema : closed documentProps (genericMembers members) = true)
    (hdec : (DocumentAlias.struct .raw).codec.decode (DocumentAlias.struct .raw).zero
      (.obj members) = some a) : a.blocks.elems = rawBlocks members := by
  have hf : DocumentAlias.blocksField ∈ (DocumentAlias.struct .raw).fields := by
    exact .tail _ (.tail _ (.tail _ (.tail _ (.tail _ (.head _)))))
  have hall := Struct.decodeAll_textsOf hdec hf
  rw [textsOf_eq_textsNamed DocumentAlias.describes (keys_of_closed hschema) hf] at hall
  have hnames : (documentProps.map Property.name).Nodup := by decide +kernel
  have hp : req "blocks" (array 0 12 blockSchema) ∈ documentProps := by
    exact .tail _ (.tail _ (.tail _ (.tail _ (.tail _ (.head _)))))
  have hkey : ascii "blocks" ∈ (genericMembers members).map Prod.fst :=
    (closed_iff.mp hschema).2 _ hp rfl
  rw [genericMembers_eq, List.map_map] at hkey
  obtain ⟨⟨k, j⟩, hlast, hk⟩ := List.mem_map.mp hkey
  have hk : k = ascii "blocks" := hk
  subst hk
  have hvalue : array 0 12 blockSchema j.generic = true := by
    apply schema_of_closed hschema hnames hp
    rw [genericMembers_eq]
    exact List.mem_map.mpr ⟨_, hlast, rfl⟩
  have htexts := mem_lastMembers_iff.mp hlast
  rw [rawBlocks, htexts]
  cases j with
  | arr items =>
    obtain ⟨es, hes⟩ := List.getLast?_eq_some_iff.mp htexts
    have hname : DocumentAlias.blocksField.name = ascii "blocks" := rfl
    rw [hname, hes, Codec.decodeAll_append] at hall
    obtain ⟨m, -, hm⟩ := Option.bind_eq_some_iff.mp hall
    exact elems_of_decode_raw hm
  | _ => cases hvalue

theorem exists_of_unmarshalJSON (h : Document.unmarshalJSON data = some doc) :
    ∃ a blocks, (DocumentAlias.struct .raw).codec.decode (DocumentAlias.struct .raw).zero data =
        some a ∧ a.blocks.elems.mapM decodeBlock = some blocks ∧
      doc = ⟨a.title, a.subtitle, a.link, a.status, blocks, a.signals, a.notices, a.hints⟩ := by
  obtain ⟨a, ha, hrest⟩ := Option.bind_eq_some_iff.mp h
  split_ifs at hrest
  · cases hrest
  · obtain ⟨blocks, hblocks, hdoc⟩ := Option.bind_eq_some_iff.mp hrest
    exact ⟨a, blocks, ha, hblocks, (Option.some_injective _ hdoc).symm⟩

theorem array_of_decodeBlock {blocks : List Block} (hsettled : items.all settledBlock = true)
    (hitems : (items.map Json.generic).all blockSchema = true)
    (h : items.mapM decodeBlock = some blocks) :
    blocks.length = items.length ∧ (blocks.map Block.marshalJSON).all blockSchema = true := by
  induction items generalizing blocks with
  | nil =>
    cases h
    exact ⟨rfl, rfl⟩
  | cons raw items ih =>
    rw [List.mapM_cons] at h
    obtain ⟨b, hb, hrest⟩ := Option.bind_eq_some_iff.mp h
    obtain ⟨bs, hbs, heq⟩ := Option.bind_eq_some_iff.mp hrest
    cases heq
    simp only [List.all_cons, List.map_cons, Bool.and_eq_true] at hsettled hitems ⊢
    obtain ⟨hlen, hall⟩ := ih hsettled.2 hitems.2 hbs
    exact ⟨congrArg (· + 1) hlen, blockSchema_of_decodeBlock hsettled.1 hitems.1 hb, hall⟩

/-- **Documents carry the schema.**  What the schema says of a settled text, it also says of
the document that the text is decoded to. -/
theorem widgetSchema_of_unmarshalJSON (hsettled : settledDocument data = true)
    (hschema : widgetSchema data.generic = true) (hdec : Document.unmarshalJSON data = some doc) :
    widgetSchema doc.marshalJSON = true := by
  cases data with
  | obj members =>
    simp only [settledDocument, Bool.and_eq_true] at hsettled
    obtain ⟨a, blocks, ha, hblocks, rfl⟩ := exists_of_unmarshalJSON hdec
    have hfields := closed_encodeFields DocumentAlias.describes hsettled.1 hschema ha
    rw [encodeFields_alias] at hfields
    have hnames : (documentProps.map Property.name).Nodup := by decide +kernel
    have hversion : req "schemaVersion" (number fun q => q = 1) ∈ documentProps := .head _
    have hp : req "blocks" (array 0 12 blockSchema) ∈ documentProps := by
      exact .tail _ (.tail _ (.tail _ (.tail _ (.tail _ (.head _)))))
    have hraw : array 0 12 blockSchema (Codec.raw.slice.encode a.blocks) = true :=
      schema_of_closed hfields hnames hp (by simp [req])
    have harray : array 0 12 blockSchema (.arr (blocks.map Block.marshalJSON)) = true := by
      cases hnil : a.blocks.isNil with
      | true => simp [Codec.slice, hnil, array] at hraw
      | false =>
        simp only [Codec.slice, hnil, Bool.false_eq_true, if_false, array, Bool.and_eq_true,
          List.length_map] at hraw ⊢
        rw [← elems_blocks hschema ha] at hsettled
        obtain ⟨hlen, hall⟩ := array_of_decodeBlock hsettled.2 hraw.2 hblocks
        exact ⟨hlen ▸ hraw.1, hall⟩
    change closed documentProps ((DocumentAlias.struct Block.codec).encodeFields _) = true
    rw [encodeFields_alias]
    apply closed_of_mem hfields
    · intro m hm
      simp only [List.mem_cons, List.mem_append] at hm ⊢
      rcases hm with rfl | hm | hm | hm | hm | rfl | hm
      · exact .inr ⟨_, hversion, rfl, by simp [req, number]⟩
      · simp [hm]
      · simp [hm]
      · simp [hm]
      · simp [hm]
      · exact .inr ⟨_, hp, rfl, harray⟩
      · simp [hm]
    · simp
  | _ => cases hschema

end Veduta.Widgets
