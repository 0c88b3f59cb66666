import Veduta.Lib.ValueSchema

/-!
# Widget documents

Package `widgets`: the document that an integration produces, its ten kinds of block, and
how both are read from JSON and written to it.  A word that the schema restricts, such as a
level, is a string here as in the source: the typed decode accepts any.
-/

namespace Veduta.Widgets

open Go Lib

/-! ## The parts of a document -/

/-- A card's overall health. -/
structure Status where
  level : Bytes
  text : Bytes
  since : Bytes

def Status.struct : Struct Status := .of
  (.mk (fun s => (s.level, s.text, s.since, ())) fun (a, b, c, _) => ⟨a, b, c⟩)
  (.tag "level" .str <|
   .opt "text" .str <|
   .opt "since" .str .nil)

/-- One machine-readable value. -/
structure Signal where
  value : JVal
  unit : Bytes
  level : Bytes

def Signal.struct : Struct Signal := .of
  (.mk (fun s => (s.value, s.unit, s.level, ())) fun (a, b, c, _) => ⟨a, b, c⟩)
  (.tag "value" .any <|
   .opt "unit" .str <|
   .opt "level" .str .nil)

/-- A soft problem that the integration reports. -/
structure Notice where
  level : Bytes
  message : Bytes

def Notice.struct : Struct Notice := .of
  (.mk (fun s => (s.level, s.message, ())) fun (a, b, _) => ⟨a, b⟩)
  (.tag "level" .str <|
   .tag "message" .str .nil)

/-- Advice to the scheduler. -/
structure Hints where
  ttlSeconds : Int

def Hints.struct : Struct Hints := .of
  (.mk (fun s => (s.ttlSeconds, ())) fun (a, _) => ⟨a⟩)
  (.opt "ttlSeconds" .int .nil)

/-- A reference to a signed asset token. -/
structure Image where
  ref : Bytes
  alt : Bytes
  aspect : Bytes
  blurhash : Bytes

def Image.struct : Struct Image := .of
  (.mk (fun s => (s.ref, s.alt, s.aspect, s.blurhash, ())) fun (a, b, c, d, _) => ⟨a, b, c, d⟩)
  (.tag "ref" .str <|
   .opt "alt" .str <|
   .opt "aspect" .str <|
   .opt "blurhash" .str .nil)

/-- An item of the metrics and key-value blocks. -/
structure MetricItem where
  label : Bytes
  value : JVal
  format : Bytes
  unit : Bytes
  level : Bytes
  icon : Bytes
  link : Bytes

def MetricItem.struct : Struct MetricItem := .of
  (.mk (fun s => (s.label, s.value, s.format, s.unit, s.level, s.icon, s.link, ()))
    fun (a, b, c, d, e, f, g, _) => ⟨a, b, c, d, e, f, g⟩)
  (.tag "label" .str <|
   .tag "value" .any <|
   .opt "format" .str <|
   .opt "unit" .str <|
   .opt "level" .str <|
   .opt "icon" .str <|
   .opt "link" .str .nil)

/-- An item of the progress block. -/
structure ProgressItem where
  label : Bytes
  progress : ℚ
  value : JVal
  format : Bytes
  level : Bytes

def ProgressItem.struct : Struct ProgressItem := .of
  (.mk (fun s => (s.label, s.progress, s.value, s.format, s.level, ()))
    fun (a, b, c, d, e, _) => ⟨a, b, c, d, e⟩)
  (.tag "label" .str <|
   .tag "progress" .float <|
   .opt "value" .any <|
   .opt "format" .str <|
   .opt "level" .str .nil)

/-- An item of the status block. -/
structure StatusItem where
  label : Bytes
  level : Bytes
  text : Bytes
  since : Bytes
  link : Bytes

def StatusItem.struct : Struct StatusItem := .of
  (.mk (fun s => (s.label, s.level, s.text, s.since, s.link, ()))
    fun (a, b, c, d, e, _) => ⟨a, b, c, d, e⟩)
  (.tag "label" .str <|
   .tag "level" .str <|
   .opt "text" .str <|
   .opt "since" .str <|
   .opt "link" .str .nil)

/-- An item of the list block. -/
structure ListItem where
  id : Bytes
  title : Bytes
  subtitle : Bytes
  value : JVal
  format : Bytes
  level : Bytes
  icon : Bytes
  image : Option Image
  link : Bytes
  timestamp : Bytes

def ListItem.struct : Struct ListItem := .of
  (.mk (fun s => (s.id, s.title, s.subtitle, s.value, s.format,
      s.level, s.icon, s.image, s.link, s.timestamp, ()))
    fun (a, b, c, d, e, f, g, h, i, j, _) => ⟨a, b, c, d, e, f, g, h, i, j⟩)
  (.opt "id" .str <|
   .tag "title" .str <|
   .opt "subtitle" .str <|
   .opt "value" .any <|
   .opt "format" .str <|
   .opt "level" .str <|
   .opt "icon" .str <|
   .opt "image" (.ptr Image.struct.codec) <|
   .opt "link" .str <|
   .opt "timestamp" .str .nil)

/-- An item of the three media blocks. -/
structure MediaItem where
  id : Bytes
  image : Image
  title : Bytes
  subtitle : Bytes
  badge : Bytes
  level : Bytes
  link : Bytes
  timestamp : Bytes

def MediaItem.struct : Struct MediaItem := .of
  (.mk (fun s => (s.id, s.image, s.title, s.subtitle, s.badge, s.level, s.link, s.timestamp, ()))
    fun (a, b, c, d, e, f, g, h, _) => ⟨a, b, c, d, e, f, g, h⟩)
  (.opt "id" .str <|
   .tag "image" Image.struct.codec <|
   .opt "title" .str <|
   .opt "subtitle" .str <|
   .opt "badge" .str <|
   .opt "level" .str <|
   .opt "link" .str <|
   .opt "timestamp" .str .nil)

/-- A column of the table block. -/
structure TableColumn where
  key : Bytes
  label : Bytes
  format : Bytes
  align : Bytes

def TableColumn.struct : Struct TableColumn := .of
  (.mk (fun s => (s.key, s.label, s.format, s.align, ())) fun (a, b, c, d, _) => ⟨a, b, c, d⟩)
  (.tag "key" .str <|
   .opt "label" .str <|
   .opt "format" .str <|
   .opt "align" .str .nil)

/-- A reference to a declared action. -/
structure Action where
  id : Bytes
  label : Bytes
  icon : Bytes
  confirm : Bool
  danger : Bool

def Action.struct : Struct Action := .of
  (.mk (fun s => (s.id, s.label, s.icon, s.confirm, s.danger, ()))
    fun (a, b, c, d, e, _) => ⟨a, b, c, d, e⟩)
  (.tag "id" .str <|
   .tag "label" .str <|
   .opt "icon" .str <|
   .opt "confirm" .bool <|
   .opt "danger" .bool .nil)

/-- A retained signal, and how to label it. -/
structure HistoryLine where
  signal : Bytes
  label : Bytes
  level : Bytes

def HistoryLine.struct : Struct HistoryLine := .of
  (.mk (fun s => (s.signal, s.label, s.level, ())) fun (a, b, c, _) => ⟨a, b, c⟩)
  (.tag "signal" .str <|
   .tag "label" .str <|
   .opt "level" .str .nil)

/-- A binding of a series block to retained signals. -/
structure SeriesHistory where
  window : Bytes
  lines : Slice HistoryLine

def SeriesHistory.struct : Struct SeriesHistory := .of
  (.mk (fun s => (s.window, s.lines, ())) fun (a, b, _) => ⟨a, b⟩)
  (.opt "window" .str <|
   .tag "lines" (.slice HistoryLine.struct.codec) .nil)

/-- One sample; nil where there was no reading. -/
structure SeriesPoint where
  t : Bytes
  v : Option ℚ

def SeriesPoint.struct : Struct SeriesPoint := .of
  (.mk (fun s => (s.t, s.v, ())) fun (a, b, _) => ⟨a, b⟩)
  (.tag "t" .str <|
   .tag "v" (.ptr .float) .nil)

/-- One labelled line of a series block. -/
structure SeriesLine where
  label : Bytes
  level : Bytes
  points : Slice SeriesPoint

def SeriesLine.struct : Struct SeriesLine := .of
  (.mk (fun s => (s.label, s.level, s.points, ())) fun (a, b, c, _) => ⟨a, b, c⟩)
  (.tag "label" .str <|
   .opt "level" .str <|
   .tag "points" (.slice SeriesPoint.struct.codec) .nil)

/-! ## Blocks -/

/-- A grid of small labelled values. -/
structure BlockMetrics where
  title : Bytes
  emphasis : Bytes
  columns : Int
  items : Slice MetricItem

def BlockMetrics.struct : Struct BlockMetrics := .of
  (.mk (fun s => (s.title, s.emphasis, s.columns, s.items, ()))
    fun (a, b, c, d, _) => ⟨a, b, c, d⟩)
  (.opt "title" .str <|
   .opt "emphasis" .str <|
   .opt "columns" .int <|
   .tag "items" (.slice MetricItem.struct.codec) .nil)

/-- The same as rows. -/
structure BlockKeyValue where
  title : Bytes
  emphasis : Bytes
  items : Slice MetricItem

def BlockKeyValue.struct : Struct BlockKeyValue := .of
  (.mk (fun s => (s.title, s.emphasis, s.items, ())) fun (a, b, c, _) => ⟨a, b, c⟩)
  (.opt "title" .str <|
   .opt "emphasis" .str <|
   .tag "items" (.slice MetricItem.struct.codec) .nil)

/-- Labelled progress bars. -/
structure BlockProgress where
  title : Bytes
  emphasis : Bytes
  items : Slice ProgressItem

def BlockProgress.struct : Struct BlockProgress := .of
  (.mk (fun s => (s.title, s.emphasis, s.items, ())) fun (a, b, c, _) => ⟨a, b, c⟩)
  (.opt "title" .str <|
   .opt "emphasis" .str <|
   .tag "items" (.slice ProgressItem.struct.codec) .nil)

/-- Named statuses. -/
structure BlockStatus where
  title : Bytes
  emphasis : Bytes
  items : Slice StatusItem

def BlockStatus.struct : Struct BlockStatus := .of
  (.mk (fun s => (s.title, s.emphasis, s.items, ())) fun (a, b, c, _) => ⟨a, b, c⟩)
  (.opt "title" .str <|
   .opt "emphasis" .str <|
   .tag "items" (.slice StatusItem.struct.codec) .nil)

/-- A vertical list. -/
structure BlockList where
  title : Bytes
  emphasis : Bytes
  empty : Bytes
  items : Slice ListItem

def BlockList.struct : Struct BlockList := .of
  (.mk (fun s => (s.title, s.emphasis, s.empty, s.items, ()))
    fun (a, b, c, d, _) => ⟨a, b, c, d⟩)
  (.opt "title" .str <|
   .opt "emphasis" .str <|
   .opt "empty" .str <|
   .tag "items" (.slice ListItem.struct.codec) .nil)

/-- The three media blocks, up to their kind. -/
structure BlockMediaAlias where
  title : Bytes
  emphasis : Bytes
  columns : Int
  empty : Bytes
  items : Slice MediaItem

def BlockMediaAlias.struct : Struct BlockMediaAlias := .of
  (.mk (fun s => (s.title, s.emphasis, s.columns, s.empty, s.items, ()))
    fun (a, b, c, d, e, _) => ⟨a, b, c, d, e⟩)
  (.opt "title" .str <|
   .opt "emphasis" .str <|
   .opt "columns" .int <|
   .opt "empty" .str <|
   .tag "items" (.slice MediaItem.struct.codec) .nil)

/-- Text and markdown, up to their kind. -/
structure BlockTextAlias where
  title : Bytes
  emphasis : Bytes
  level : Bytes
  content : Bytes

def BlockTextAlias.struct : Struct BlockTextAlias := .of
  (.mk (fun s => (s.title, s.emphasis, s.level, s.content, ()))
    fun (a, b, c, d, _) => ⟨a, b, c, d⟩)
  (.opt "title" .str <|
   .opt "emphasis" .str <|
   .opt "level" .str <|
   .tag "content" .str .nil)

/-- A plain data table. -/
structure BlockTable where
  title : Bytes
  emphasis : Bytes
  columns : Slice TableColumn
  rows : Slice (Option (GoMap Bytes JVal))

def BlockTable.struct : Struct BlockTable := .of
  (.mk (fun s => (s.title, s.emphasis, s.columns, s.rows, ()))
    fun (a, b, c, d, _) => ⟨a, b, c, d⟩)
  (.opt "title" .str <|
   .opt "emphasis" .str <|
   .tag "columns" (.slice TableColumn.struct.codec) <|
   .tag "rows" (.slice (.map .any)) .nil)

/-- Buttons for declared actions. -/
structure BlockActions where
  title : Bytes
  emphasis : Bytes
  actions : Slice Action

def BlockActions.struct : Struct BlockActions := .of
  (.mk (fun s => (s.title, s.emphasis, s.actions, ())) fun (a, b, c, _) => ⟨a, b, c⟩)
  (.opt "title" .str <|
   .opt "emphasis" .str <|
   .tag "actions" (.slice Action.struct.codec) .nil)

/-- Timestamped lines, supplied or bound to the card's history. -/
structure BlockSeries where
  title : Bytes
  emphasis : Bytes
  format : Bytes
  unit : Bytes
  min : Option ℚ
  max : Option ℚ
  series : Slice SeriesLine
  history : Option SeriesHistory

def BlockSeries.struct : Struct BlockSeries := .of
  (.mk (fun s => (s.title, s.emphasis, s.format, s.unit, s.min, s.max, s.series, s.history, ()))
    fun (a, b, c, d, e, f, g, h, _) => ⟨a, b, c, d, e, f, g, h⟩)
  (.opt "title" .str <|
   .opt "emphasis" .str <|
   .opt "format" .str <|
   .opt "unit" .str <|
   .opt "min" (.ptr .float) <|
   .opt "max" (.ptr .float) <|
   .opt "series" (.slice SeriesLine.struct.codec) <|
   .opt "history" (.ptr SeriesHistory.struct.codec) .nil)

inductive MediaKind where
  | image
  | imageGrid
  | posterGrid
  deriving DecidableEq, Repr

def MediaKind.text : MediaKind → Bytes
  | .image => ascii "image"
  | .imageGrid => ascii "image-grid"
  | .posterGrid => ascii "poster-grid"

inductive TextKind where
  | plain
  | markdown
  deriving DecidableEq, Repr

def TextKind.text : TextKind → Bytes
  | .plain => ascii "text"
  | .markdown => ascii "markdown"

/-- The union of the block types. -/
inductive Block where
  | metrics (b : BlockMetrics)
  | keyValue (b : BlockKeyValue)
  | progress (b : BlockProgress)
  | status (b : BlockStatus)
  | list (b : BlockList)
  | media (kind : MediaKind) (b : BlockMediaAlias)
  | text (kind : TextKind) (b : BlockTextAlias)
  | table (b : BlockTable)
  | actions (b : BlockActions)
  | series (b : BlockSeries)

/-- The discriminator that a block is written with. -/
def Block.blockType : Block → Bytes
  | .metrics _ => ascii "metrics"
  | .keyValue _ => ascii "key-value"
  | .progress _ => ascii "progress"
  | .status _ => ascii "status"
  | .list _ => ascii "list"
  | .media kind _ => kind.text
  | .text kind _ => kind.text
  | .table _ => ascii "table"
  | .actions _ => ascii "actions"
  | .series _ => ascii "series"

def Block.fields : Block → List (Bytes × JVal)
  | .metrics b => BlockMetrics.struct.encodeFields b
  | .keyValue b => BlockKeyValue.struct.encodeFields b
  | .progress b => BlockProgress.struct.encodeFields b
  | .status b => BlockStatus.struct.encodeFields b
  | .list b => BlockList.struct.encodeFields b
  | .media _ b => BlockMediaAlias.struct.encodeFields b
  | .text _ b => BlockTextAlias.struct.encodeFields b
  | .table b => BlockTable.struct.encodeFields b
  | .actions b => BlockActions.struct.encodeFields b
  | .series b => BlockSeries.struct.encodeFields b

/-- The members of a record with the discriminator put in. -/
def withType (typ : Bytes) (members : List (Bytes × JVal)) : JVal :=
  .obj ((ascii "type", .str typ) :: members)

def Block.marshalJSON (b : Block) : JVal := withType b.blockType b.fields

/-- What a block is dispatched on. -/
structure BlockHead where
  type : Bytes

def BlockHead.struct : Struct BlockHead := .of
  (.mk (fun s => (s.type, ())) fun (a, _) => ⟨a⟩)
  (.tag "type" .str .nil)

/-- A case of the switch on the discriminator: the type that is decoded into, and the block
made of it. -/
structure BlockCase where
  S : Type
  struct : Struct S
  make : S → Block

/-- The switch of `decodeBlock`. -/
def blockCase (typ : Bytes) : Option BlockCase :=
  if typ = ascii "metrics" then some ⟨_, BlockMetrics.struct, .metrics⟩
  else if typ = ascii "key-value" then some ⟨_, BlockKeyValue.struct, .keyValue⟩
  else if typ = ascii "progress" then some ⟨_, BlockProgress.struct, .progress⟩
  else if typ = ascii "status" then some ⟨_, BlockStatus.struct, .status⟩
  else if typ = ascii "list" then some ⟨_, BlockList.struct, .list⟩
  else if typ = ascii "image" then some ⟨_, BlockMediaAlias.struct, .media .image⟩
  else if typ = ascii "image-grid" then some ⟨_, BlockMediaAlias.struct, .media .imageGrid⟩
  else if typ = ascii "poster-grid" then some ⟨_, BlockMediaAlias.struct, .media .posterGrid⟩
  else if typ = ascii "text" then some ⟨_, BlockTextAlias.struct, .text .plain⟩
  else if typ = ascii "markdown" then some ⟨_, BlockTextAlias.struct, .text .markdown⟩
  else if typ = ascii "table" then some ⟨_, BlockTable.struct, .table⟩
  else if typ = ascii "actions" then some ⟨_, BlockActions.struct, .actions⟩
  else if typ = ascii "series" then some ⟨_, BlockSeries.struct, .series⟩
  else none

def decodeHead (raw : Json) : Option BlockHead :=
  BlockHead.struct.codec.decode BlockHead.struct.zero raw

def decodeBlock (raw : Json) : Option Block := do
  let head ← decodeHead raw
  match blockCase head.type with
  | none => none
  | some c => (c.struct.codec.decode c.struct.zero raw).map c.make

/-- The document that an integration owns. -/
structure Document where
  title : Bytes
  subtitle : Bytes
  link : Bytes
  status : Option Status
  blocks : List Block
  signals : Option (GoMap Bytes Signal)
  notices : Slice Notice
  hints : Option Hints

/-- The wire form of a document, whose blocks are raw on the way in. -/
structure DocumentAlias (B : Type) where
  schemaVersion : Int
  title : Bytes
  subtitle : Bytes
  link : Bytes
  status : Option Status
  blocks : Slice B
  signals : Option (GoMap Bytes Signal)
  notices : Slice Notice
  hints : Option Hints

def DocumentAlias.struct {B : Type} (c : Codec B) : Struct (DocumentAlias B) := .of
  (.mk (fun s => (s.schemaVersion, s.title, s.subtitle, s.link, s.status, s.blocks, s.signals,
      s.notices, s.hints, ()))
    fun (a, b, c, d, e, f, g, h, i, _) => ⟨a, b, c, d, e, f, g, h, i⟩)
  (.tag "schemaVersion" .int <|
   .opt "title" .str <|
   .opt "subtitle" .str <|
   .opt "link" .str <|
   .opt "status" (.ptr Status.struct.codec) <|
   .tag "blocks" (.slice c) <|
   .opt "signals" (.map Signal.struct.codec) <|
   .opt "notices" (.slice Notice.struct.codec) <|
   .opt "hints" (.ptr Hints.struct.codec) .nil)
  (by simp only [Fields.names]; decide)

/-- `Document.UnmarshalJSON`. -/
def Document.unmarshalJSON (data : Json) : Option Document := do
  let σ := DocumentAlias.struct .raw
  let a ← σ.codec.decode σ.zero data
  if a.schemaVersion ≠ 0 ∧ a.schemaVersion ≠ 1 then none
  let blocks ← a.blocks.elems.mapM decodeBlock
  return ⟨a.title, a.subtitle, a.link, a.status, blocks, a.signals, a.notices, a.hints⟩

/-- Blocks as the encoder sees them. -/
def Block.codec : Codec Block :=
  .replaced (.text .plain BlockTextAlias.struct.zero) decodeBlock marshalJSON (fun _ => false)
    (by simp)

/-- `Document.MarshalJSON`, as a value. -/
def Document.marshalJSON (d : Document) : JVal :=
  (DocumentAlias.struct Block.codec).codec.encode
    ⟨1, d.title, d.subtitle, d.link, d.status, .ofList d.blocks [], d.signals, d.notices, d.hints⟩

end Veduta.Widgets
