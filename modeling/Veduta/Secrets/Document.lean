import Veduta.Go.JsonStrings
import Veduta.Widgets.Validate

/-!
# Secrets in documents

`ContainsSecretInDocument`, the check that a produced or restored document repeats no tracked
secret.  It walks the fields of a document by hand, and reads only some of them.  What is
served, though, is the whole encoding: also ids, icons, levels, times, asset references, the
names of signals and the keys of table rows, and the names of the members themselves.
-/

namespace Veduta.Secrets

open Go Widgets

def minScrubLength : ℕ := 8

/-- The tracked values; short ones are never tracked. -/
structure Registry where
  values : List Bytes
  long : ∀ v ∈ values, minScrubLength ≤ v.length

namespace Registry

def new : Registry := ⟨[], by simp⟩

/-- `Track`. -/
def track (r : Registry) (v : Bytes) : Registry :=
  if h : v.length < minScrubLength then r
  else ⟨v :: r.values, by
    intro w hw
    rcases List.mem_cons.mp hw with rfl | hw
    · omega
    · exact r.long w hw⟩

variable (r : Registry)

def containsSecret (s : Bytes) : Bool := r.values.any fun v => contains s v

def containsAny (fields : List Bytes) : Bool := fields.any r.containsSecret

/-- Only a string can leak. -/
def scalarLeaks : JVal → Bool
  | .str s => r.containsSecret s
  | _ => false

def imageLeaks : Option Image → Bool
  | none => false
  | some img => r.containsSecret img.alt

def metricItemsLeak (items : List MetricItem) : Bool :=
  items.any fun it => r.containsAny [it.label, it.unit, it.link] || r.scalarLeaks it.value

/-- A row of a table: its cells, not its keys. -/
def rowLeaks (row : Option (GoMap Bytes JVal)) : Bool :=
  (row.getD ∅).entries.any fun cell => r.scalarLeaks cell.2

def blockLeaks : Block → Bool
  | .metrics b => r.containsAny [b.title] || r.metricItemsLeak b.items.elems
  | .keyValue b => r.containsAny [b.title] || r.metricItemsLeak b.items.elems
  | .progress b => r.containsAny [b.title] || b.items.elems.any fun it =>
    r.containsAny [it.label] || r.scalarLeaks it.value
  | .status b => r.containsAny [b.title] || b.items.elems.any fun it =>
    r.containsAny [it.label, it.text, it.link]
  | .list b => r.containsAny [b.title, b.empty] || b.items.elems.any fun it =>
    r.containsAny [it.title, it.subtitle, it.link] || r.scalarLeaks it.value ||
      r.imageLeaks it.image
  | .media _ b => r.containsAny [b.title, b.empty] || b.items.elems.any fun it =>
    r.containsAny [it.title, it.subtitle, it.badge, it.link] || r.imageLeaks (some it.image)
  | .text _ b => r.containsAny [b.title, b.content]
  | .table b => r.containsAny [b.title] ||
    (b.columns.elems.any fun c => r.containsAny [c.label]) ||
    b.rows.elems.any r.rowLeaks
  | .actions b => r.containsAny [b.title] || b.actions.elems.any fun a => r.containsAny [a.label]
  | .series b => r.containsAny [b.title, b.unit] ||
    (b.series.elems.any fun line => r.containsAny [line.label]) ||
    b.history.toList.any fun h => h.lines.elems.any fun line => r.containsAny [line.label]

/-- Whether the walk finds a secret in a document. -/
def containsSecretInDocument (doc : Document) : Bool :=
  r.containsAny [doc.title, doc.subtitle, doc.link] ||
    (doc.status.toList.any fun s => r.containsSecret s.text) ||
    (doc.notices.elems.any fun n => r.containsSecret n.message) ||
    ((doc.signals.getD ∅).entries.any fun sig => r.scalarLeaks sig.2.value) ||
    doc.blocks.any r.blockLeaks

end Registry

/-- A value that is not a string is not looked into. -/
def unscannedScalar : JVal → List Bytes
  | .str _ => []
  | v => v.strings

def unscannedStatus (s : Status) : List Bytes :=
  Status.struct.memberNames s ++ [s.level, s.since]

def unscannedSignal (s : Signal) : List Bytes :=
  Signal.struct.memberNames s ++ unscannedScalar s.value ++ [s.unit, s.level]

def unscannedNotice (n : Notice) : List Bytes := Notice.struct.memberNames n ++ [n.level]

def unscannedImage (i : Image) : List Bytes :=
  Image.struct.memberNames i ++ [i.ref, i.aspect, i.blurhash]

def unscannedMetricItem (it : MetricItem) : List Bytes :=
  MetricItem.struct.memberNames it ++ unscannedScalar it.value ++ [it.format, it.level, it.icon]

def unscannedProgressItem (it : ProgressItem) : List Bytes :=
  ProgressItem.struct.memberNames it ++ unscannedScalar it.value ++ [it.format, it.level]

def unscannedStatusItem (it : StatusItem) : List Bytes :=
  StatusItem.struct.memberNames it ++ [it.level, it.since]

def unscannedListItem (it : ListItem) : List Bytes :=
  ListItem.struct.memberNames it ++ unscannedScalar it.value ++
    [it.id, it.format, it.level, it.icon, it.timestamp] ++ it.image.toList.flatMap unscannedImage

def unscannedMediaItem (it : MediaItem) : List Bytes :=
  MediaItem.struct.memberNames it ++ [it.id, it.level, it.timestamp] ++ unscannedImage it.image

def unscannedColumn (c : TableColumn) : List Bytes :=
  TableColumn.struct.memberNames c ++ [c.key, c.format, c.align]

/-- The keys of a row. -/
def unscannedRow (row : Option (GoMap Bytes JVal)) : List Bytes :=
  (row.getD ∅).entries.flatMap fun cell => cell.1 :: unscannedScalar cell.2

def unscannedAction (a : Action) : List Bytes := Action.struct.memberNames a ++ [a.id, a.icon]

def unscannedPoint (p : SeriesPoint) : List Bytes := SeriesPoint.struct.memberNames p ++ [p.t]

def unscannedLine (l : SeriesLine) : List Bytes :=
  SeriesLine.struct.memberNames l ++ [l.level] ++ l.points.elems.flatMap unscannedPoint

def unscannedHistoryLine (l : HistoryLine) : List Bytes :=
  HistoryLine.struct.memberNames l ++ [l.signal, l.level]

def unscannedHistory (h : SeriesHistory) : List Bytes :=
  SeriesHistory.struct.memberNames h ++ [h.window] ++ h.lines.elems.flatMap unscannedHistoryLine

/-- The parts of a block beside its discriminator. -/
def unscannedFields : Block → List Bytes
  | .metrics b => BlockMetrics.struct.memberNames b ++ [b.emphasis] ++
    b.items.elems.flatMap unscannedMetricItem
  | .keyValue b => BlockKeyValue.struct.memberNames b ++ [b.emphasis] ++
    b.items.elems.flatMap unscannedMetricItem
  | .progress b => BlockProgress.struct.memberNames b ++ [b.emphasis] ++
    b.items.elems.flatMap unscannedProgressItem
  | .status b => BlockStatus.struct.memberNames b ++ [b.emphasis] ++
    b.items.elems.flatMap unscannedStatusItem
  | .list b => BlockList.struct.memberNames b ++ [b.emphasis] ++
    b.items.elems.flatMap unscannedListItem
  | .media _ b => BlockMediaAlias.struct.memberNames b ++ [b.emphasis] ++
    b.items.elems.flatMap unscannedMediaItem
  | .text _ b => BlockTextAlias.struct.memberNames b ++ [b.emphasis, b.level]
  | .table b => BlockTable.struct.memberNames b ++ [b.emphasis] ++
    b.columns.elems.flatMap unscannedColumn ++ b.rows.elems.flatMap unscannedRow
  | .actions b => BlockActions.struct.memberNames b ++ [b.emphasis] ++
    b.actions.elems.flatMap unscannedAction
  | .series b => BlockSeries.struct.memberNames b ++ [b.emphasis, b.format] ++
    b.series.elems.flatMap unscannedLine ++ b.history.toList.flatMap unscannedHistory

def unscannedBlock (b : Block) : List Bytes :=
  ascii "type" :: b.blockType :: unscannedFields b

/-- The names that the members of a document are written with. -/
def documentNames (doc : Document) : List Bytes :=
  (DocumentAlias.struct Block.codec).memberNames
    ⟨1, doc.title, doc.subtitle, doc.link, doc.status, .ofList doc.blocks [], doc.signals,
      doc.notices, doc.hints⟩

/-- The strings of a document's encoding that the walk does not read. -/
def unscanned (doc : Document) : List Bytes :=
  documentNames doc ++ doc.status.toList.flatMap unscannedStatus ++
    doc.blocks.flatMap unscannedBlock ++
    ((doc.signals.getD ∅).entries.flatMap fun sig => sig.1 :: unscannedSignal sig.2) ++
    doc.notices.elems.flatMap unscannedNotice ++ doc.hints.toList.flatMap Hints.struct.memberNames

/-! ## Completeness -/

section

variable (r : Registry)

def Free (s : Bytes) : Prop := r.containsSecret s = false

instance (s : Bytes) : Decidable (Free r s) := inferInstanceAs (Decidable (_ = _))

theorem free_nil : Free r [] := by
  simp only [Free, Registry.containsSecret, List.any_eq_false]
  intro v hv
  have hlong := r.long v hv
  cases v with
  | nil => simp [minScrubLength] at hlong
  | cons b v => simp [contains, index]

@[simp] theorem containsSecret_eq_false (s : Bytes) : r.containsSecret s = false ↔ Free r s :=
  Iff.rfl

@[simp] theorem containsAny_eq_false (fields : List Bytes) :
    r.containsAny fields = false ↔ ∀ s ∈ fields, Free r s := by
  simp [Registry.containsAny]

@[simp] theorem imageLeaks_eq_false (img : Option Image) :
    r.imageLeaks img = false ↔ ∀ i ∈ img, Free r i.alt := by
  cases img <;> simp [Registry.imageLeaks]

/-- An encoding is free of secrets just if the walk finds none and what it passes over has none. -/
abbrev Scans {T : Type} (c : Codec T) (x : T) (leaks : Bool) (rest : List Bytes) : Prop :=
  AllStrings (Free r) (c.encode x) ↔ leaks = false ∧ ∀ t ∈ rest, Free r t

@[simp] theorem scalar_iff (v : JVal) : Scans r .any v (r.scalarLeaks v) (unscannedScalar v) := by
  change AllStrings (Free r) v ↔ _
  cases v with
  | str s => simp [Registry.scalarLeaks, unscannedScalar]
  | _ => simp [Registry.scalarLeaks, unscannedScalar, AllStrings]

theorem encode_iff {S P : Type} (σ : Struct S) {e : S ≃ P} {F : Fields P}
    {hnames : F.names.Nodup} (hσ : σ = .of e F hnames) (s : S) :
    AllStrings (Free r) (σ.codec.encode s) ↔
      (∀ n ∈ σ.memberNames s, Free r n) ∧ F.All (Free r) (e s) := by
  subst hσ
  exact allStrings_of (free_nil r) s

@[simp] theorem status_iff (s : Status) : Scans r Status.struct.codec s (r.containsSecret s.text)
    (unscannedStatus s) := by
  refine (encode_iff r _ rfl s).trans ?_
  simp [Fields.All, unscannedStatus, or_imp, forall_and]
  tauto

@[simp] theorem signal_iff (s : Signal) : Scans r Signal.struct.codec s (r.scalarLeaks s.value)
    (unscannedSignal s) := by
  refine (encode_iff r _ rfl s).trans ?_
  simp [Fields.All, unscannedSignal, or_imp, forall_and]
  tauto

@[simp] theorem notice_iff (n : Notice) : Scans r Notice.struct.codec n (r.containsSecret n.message)
    (unscannedNotice n) := by
  refine (encode_iff r _ rfl n).trans ?_
  simp [Fields.All, unscannedNotice, or_imp, forall_and]
  tauto

@[simp] theorem image_iff (i : Image) : Scans r Image.struct.codec i (r.containsSecret i.alt)
    (unscannedImage i) := by
  refine (encode_iff r _ rfl i).trans ?_
  simp [Fields.All, unscannedImage, or_imp, forall_and]
  tauto

@[simp] theorem metricItem_iff (it : MetricItem) : Scans r MetricItem.struct.codec it
    (r.containsAny [it.label, it.unit, it.link] || r.scalarLeaks it.value)
    (unscannedMetricItem it) := by
  refine (encode_iff r _ rfl it).trans ?_
  simp [Fields.All, unscannedMetricItem, or_imp, forall_and]
  tauto

@[simp] theorem progressItem_iff (it : ProgressItem) : Scans r ProgressItem.struct.codec it
    (r.containsAny [it.label] || r.scalarLeaks it.value) (unscannedProgressItem it) := by
  refine (encode_iff r _ rfl it).trans ?_
  simp [Fields.All, unscannedProgressItem, or_imp, forall_and]
  tauto

@[simp] theorem statusItem_iff (it : StatusItem) : Scans r StatusItem.struct.codec it
    (r.containsAny [it.label, it.text, it.link]) (unscannedStatusItem it) := by
  refine (encode_iff r _ rfl it).trans ?_
  simp [Fields.All, unscannedStatusItem, or_imp, forall_and]
  tauto

@[simp] theorem listItem_iff (it : ListItem) : Scans r ListItem.struct.codec it
    (r.containsAny [it.title, it.subtitle, it.link] || r.scalarLeaks it.value ||
      r.imageLeaks it.image)
    (unscannedListItem it) := by
  refine (encode_iff r _ rfl it).trans ?_
  simp [Fields.All, unscannedListItem, or_imp, forall_and]
  tauto

@[simp] theorem mediaItem_iff (it : MediaItem) : Scans r MediaItem.struct.codec it
    (r.containsAny [it.title, it.subtitle, it.badge, it.link] || r.imageLeaks (some it.image))
    (unscannedMediaItem it) := by
  refine (encode_iff r _ rfl it).trans ?_
  simp [Fields.All, unscannedMediaItem, or_imp, forall_and]
  tauto

@[simp] theorem column_iff (c : TableColumn) : Scans r TableColumn.struct.codec c
    (r.containsAny [c.label]) (unscannedColumn c) := by
  refine (encode_iff r _ rfl c).trans ?_
  simp [Fields.All, unscannedColumn, or_imp, forall_and]
  tauto

@[simp] theorem action_iff (a : Action) : Scans r Action.struct.codec a (r.containsAny [a.label])
    (unscannedAction a) := by
  refine (encode_iff r _ rfl a).trans ?_
  simp [Fields.All, unscannedAction, or_imp, forall_and]
  tauto

@[simp] theorem point_iff (p : SeriesPoint) :
    AllStrings (Free r) (SeriesPoint.struct.codec.encode p) ↔
    ∀ t ∈ unscannedPoint p, Free r t := by
  rw [encode_iff r SeriesPoint.struct rfl]
  simp [Fields.All, unscannedPoint, or_imp, forall_and]

@[simp] theorem line_iff (l : SeriesLine) : Scans r SeriesLine.struct.codec l
    (r.containsAny [l.label]) (unscannedLine l) := by
  refine (encode_iff r _ rfl l).trans ?_
  simp [Fields.All, unscannedLine, or_imp, forall_and]
  tauto

@[simp] theorem historyLine_iff (l : HistoryLine) : Scans r HistoryLine.struct.codec l
    (r.containsAny [l.label]) (unscannedHistoryLine l) := by
  refine (encode_iff r _ rfl l).trans ?_
  simp [Fields.All, unscannedHistoryLine, or_imp, forall_and]
  tauto

@[simp] theorem history_iff (h : SeriesHistory) : Scans r SeriesHistory.struct.codec h
    (h.lines.elems.any fun line => r.containsAny [line.label]) (unscannedHistory h) := by
  refine (encode_iff r _ rfl h).trans ?_
  simp [Fields.All, unscannedHistory, or_imp, forall_and]
  tauto

@[simp] theorem hints_iff (h : Hints) : AllStrings (Free r) (Hints.struct.codec.encode h) ↔
    ∀ t ∈ Hints.struct.memberNames h, Free r t := by
  rw [encode_iff r Hints.struct rfl]
  simp [Fields.All]

theorem withType_iff (typ : Bytes) (members : List (Bytes × JVal)) :
    AllStrings (Free r) (withType typ members) ↔
      Free r (ascii "type") ∧ Free r typ ∧ AllStrings (Free r) (.obj members) := by
  simp only [withType, AllStrings, JVal.strings, stringsMembers, List.mem_cons, List.mem_append,
    List.not_mem_nil, or_false, or_imp, forall_and, forall_eq]

theorem forall_mem_flatMap {α β : Type} {l : List α} {f : α → List β} {Q : β → Prop} :
    (∀ t ∈ l.flatMap f, Q t) ↔ ∀ a ∈ l, ∀ t ∈ f a, Q t := by
  simp only [List.mem_flatMap, forall_exists_index, and_imp]
  tauto

@[simp] theorem row_iff (row : Option (GoMap Bytes JVal)) :
    AllStrings (Free r) (Codec.any.map.encode row) ↔
      r.rowLeaks row = false ∧ ∀ t ∈ unscannedRow row, Free r t := by
  rw [allStrings_map, Registry.rowLeaks, unscannedRow, forall_mem_flatMap]
  simp only [scalar_iff, List.any_eq_false, Bool.not_eq_true, List.forall_mem_cons, forall_and]
  tauto

theorem fields_iff (b : Block) : AllStrings (Free r) (.obj b.fields) ↔
    r.blockLeaks b = false ∧ ∀ t ∈ unscannedFields b, Free r t := by
  cases b
  case' metrics b => refine (encode_iff r BlockMetrics.struct rfl b).trans ?_
  case' keyValue b => refine (encode_iff r BlockKeyValue.struct rfl b).trans ?_
  case' progress b => refine (encode_iff r BlockProgress.struct rfl b).trans ?_
  case' status b => refine (encode_iff r BlockStatus.struct rfl b).trans ?_
  case' list b => refine (encode_iff r BlockList.struct rfl b).trans ?_
  case' media _ b => refine (encode_iff r BlockMediaAlias.struct rfl b).trans ?_
  case' text _ b => refine (encode_iff r BlockTextAlias.struct rfl b).trans ?_
  case' table b => refine (encode_iff r BlockTable.struct rfl b).trans ?_
  case' actions b => refine (encode_iff r BlockActions.struct rfl b).trans ?_
  case' series b => refine (encode_iff r BlockSeries.struct rfl b).trans ?_
  all_goals
    simp [Fields.All, Registry.blockLeaks, Registry.metricItemsLeak, unscannedFields, or_imp,
      forall_and]
    tauto

theorem block_iff (b : Block) : AllStrings (Free r) b.marshalJSON ↔
    r.blockLeaks b = false ∧ ∀ t ∈ unscannedBlock b, Free r t := by
  rw [Block.marshalJSON, withType_iff, fields_iff]
  simp [unscannedBlock]
  tauto

/-- Over a list: what the walk reads of its items, and what it does not. -/
theorem forall_scan {α : Type} {A : α → Prop} {leak : α → Bool} {rest : α → List Bytes}
    (h : ∀ x, A x ↔ leak x = false ∧ ∀ t ∈ rest x, Free r t) (l : List α) :
    (∀ x ∈ l, A x) ↔ l.any leak = false ∧ ∀ t ∈ l.flatMap rest, Free r t := by
  simp only [h, forall_and, List.any_eq_false, Bool.not_eq_true, forall_mem_flatMap]

theorem document_parts (doc : Document) : AllStrings (Free r) doc.marshalJSON ↔
    (∀ n ∈ documentNames doc, Free r n) ∧ Free r doc.title ∧ Free r doc.subtitle ∧
      Free r doc.link ∧
      (∀ s ∈ doc.status.toList, AllStrings (Free r) (Status.struct.codec.encode s)) ∧
      (∀ b ∈ doc.blocks, AllStrings (Free r) b.marshalJSON) ∧
      (∀ p ∈ (doc.signals.getD ∅).entries,
        Free r p.1 ∧ AllStrings (Free r) (Signal.struct.codec.encode p.2)) ∧
      (∀ n ∈ doc.notices.elems, AllStrings (Free r) (Notice.struct.codec.encode n)) ∧
      ∀ h ∈ doc.hints.toList, AllStrings (Free r) (Hints.struct.codec.encode h) := by
  have hblock : ∀ b, Block.codec.encode b = b.marshalJSON := fun _ => rfl
  rw [Document.marshalJSON, encode_iff r (DocumentAlias.struct Block.codec) rfl]
  simp only [Fields.All, Equiv.coe_fn_mk, allStrings_codec_int, allStrings_codec_str,
    allStrings_ptr, allStrings_slice, allStrings_map, hblock, Slice.ofList, documentNames,
    Option.mem_toList, true_and, and_true, Option.mem_def]

/-- The strings of an encoding are those that the walk reads and those it does not. -/
theorem document_iff (doc : Document) : AllStrings (Free r) doc.marshalJSON ↔
    r.containsSecretInDocument doc = false ∧ ∀ t ∈ unscanned doc, Free r t := by
  have hstatus := forall_scan r (fun s => status_iff r s) doc.status.toList
  have hblocks := forall_scan r (block_iff r) doc.blocks
  have hnotices := forall_scan r (fun n => notice_iff r n) doc.notices.elems
  have hsignal : ∀ p : Σ _ : Bytes, Signal,
      (Free r p.1 ∧ AllStrings (Free r) (Signal.struct.codec.encode p.2)) ↔
        r.scalarLeaks p.2.value = false ∧ ∀ t ∈ p.1 :: unscannedSignal p.2, Free r t := by
    intro p
    simp only [signal_iff, List.forall_mem_cons]
    exact and_left_comm
  have hsignals := forall_scan r hsignal (doc.signals.getD ∅).entries
  have htitles : r.containsAny [doc.title, doc.subtitle, doc.link] = false ↔
      Free r doc.title ∧ Free r doc.subtitle ∧ Free r doc.link := by simp
  have hhints : (∀ h ∈ doc.hints.toList, AllStrings (Free r) (Hints.struct.codec.encode h)) ↔
      ∀ t ∈ doc.hints.toList.flatMap Hints.struct.memberNames, Free r t := by
    simp only [hints_iff, forall_mem_flatMap]
  rw [document_parts, hstatus, hblocks, hnotices, hsignals, hhints]
  simp only [Registry.containsSecretInDocument, Bool.or_eq_false_iff, unscanned,
    List.forall_mem_append, htitles]
  constructor
  · rintro ⟨hn, ht, hs, hl, ⟨hst, hst'⟩, ⟨hb, hb'⟩, ⟨hsig, hsig'⟩, ⟨hno, hno'⟩, hh⟩
    exact ⟨⟨⟨⟨⟨⟨ht, hs, hl⟩, hst⟩, hno⟩, hsig⟩, hb⟩, ⟨⟨⟨⟨⟨hn, hst'⟩, hb'⟩, hsig'⟩, hno'⟩, hh⟩⟩
  · rintro ⟨⟨⟨⟨⟨⟨ht, hs, hl⟩, hst⟩, hno⟩, hsig⟩, hb⟩, ⟨⟨⟨⟨⟨hn, hst'⟩, hb'⟩, hsig'⟩, hno'⟩, hh⟩⟩
    exact ⟨hn, ht, hs, hl, ⟨hst, hst'⟩, ⟨hb, hb'⟩, ⟨hsig, hsig'⟩, ⟨hno, hno'⟩, hh⟩

/-- **What the walk guarantees.**  In a document that passes, no string of the encoding contains
a tracked secret, just if none of those that the walk does not read does. -/
theorem containsSecretInDocument_complete_iff (doc : Document)
    (h : r.containsSecretInDocument doc = false) :
    (∀ s ∈ doc.marshalJSON.strings, r.containsSecret s = false) ↔
      ∀ s ∈ unscanned doc, r.containsSecret s = false := by
  have hdoc := document_iff r doc
  simp only [h, true_and] at hdoc
  exact hdoc

end

def tokenRegistry : Registry := Registry.new.track (ascii "s3cr3t-token")

/-- A list with an item, whose title is read and whose id is not. -/
def listWith (title id : String) : Bytes :=
  ascii "\x7b\"schemaVersion\":1,\"blocks\":[\x7b\"type\":\"list\",\"items\":[\x7b\"title\":\"" ++
    ascii title ++ ascii "\",\"id\":\"" ++ ascii id ++ ascii "\"\x7d]\x7d]\x7d"

theorem containsSecretInDocument_complete_iff_token :
    ∃ doc, validate (listWith "x" "y") = .ok doc ∧
      tokenRegistry.containsSecretInDocument doc = false ∧
      ∀ s ∈ doc.marshalJSON.strings, tokenRegistry.containsSecret s = false := by
  have haccepts : accepts (listWith "x" "y") (fun doc =>
      !tokenRegistry.containsSecretInDocument doc &&
        (unscanned doc).all fun s => !tokenRegistry.containsSecret s) = true := by decide +kernel
  obtain ⟨doc, hdoc, htest⟩ := exists_of_accepts haccepts
  simp only [Bool.and_eq_true, Bool.not_eq_true', List.all_eq_true] at htest
  exact ⟨doc, hdoc, htest.1,
    (containsSecretInDocument_complete_iff tokenRegistry doc htest.1).mpr htest.2⟩

/-- A secret in the id of a list item passes the gate and the walk, and is served. -/
theorem containsSecretInDocument_incomplete :
    ∃ doc, validate (listWith "x" "s3cr3t-token") = .ok doc ∧
      tokenRegistry.containsSecretInDocument doc = false ∧
      ∃ s ∈ doc.marshalJSON.strings, tokenRegistry.containsSecret s = true := by
  have haccepts : accepts (listWith "x" "s3cr3t-token") (fun doc =>
      !tokenRegistry.containsSecretInDocument doc &&
        doc.marshalJSON.strings.any tokenRegistry.containsSecret) = true := by decide +kernel
  obtain ⟨doc, hdoc, htest⟩ := exists_of_accepts haccepts
  simp only [Bool.and_eq_true, Bool.not_eq_true', List.any_eq_true] at htest
  exact ⟨doc, hdoc, htest⟩

end Veduta.Secrets
