import Veduta.Go.Time
import Veduta.Widgets.Schema

/-!
# The document gate

`ValidateWithLimit`, through which the output of every integration passes.  The schema is
checked on a generic decode of the text, and the document comes from a second, typed decode
of the same text.  The two agree on a text in which no repeated member leaves anything of an
earlier one behind; on other texts the document may hold what the schema never saw.
-/

namespace Veduta.Widgets

open Go Lib ValueSchema

/-! ## Semantics -/

/-- A problem with a document, up to its wording. -/
inductive Problem where
  | schema
  | undecodable
  | notTimestamp (field value : Bytes)
  | boundTwice (block : ℕ) (signal window : Bytes)
  | minNotBelowMax (block : ℕ) (min max : ℚ)
  | notAfterPrevious (field value : Bytes)
  | markdownTooLong (block : ℕ)
  | rawHTML (block : ℕ) (tag : Bytes)
  deriving DecidableEq, Repr

/-- `name[i]`, in a field path. -/
def indexed (name : String) (i : ℕ) : Bytes := ascii name ++ [chr '['] ++ formatNat i ++ [chr ']']

def dotted (a b : Bytes) : Bytes := a ++ [chr '.'] ++ b

def maxMarkdownBytes : ℕ := 2048

/-- Only a value that is there is parsed. -/
def checkTime (field value : Bytes) : List Problem :=
  if value = [] then []
  else if (parseTime value).isSome then [] else [.notTimestamp field value]

def checkTimes {T : Type} (block : ℕ) (name : String) (time : T → Bytes) (items : List T) :
    List Problem :=
  items.zipIdx.flatMap fun x =>
    checkTime (dotted (dotted (indexed "blocks" block) (indexed "items" x.2)) (ascii name))
      (time x.1)

/-- The window of a binding; the schema's default stands for none. -/
def SeriesHistory.windowOr (h : SeriesHistory) : Bytes :=
  if h.window = [] then ascii "24h" else h.window

/-- The lines of a binding, one after the other, with the windows that signals are bound at. -/
def checkBindings (block : ℕ) (window : Bytes) :
    GoMap Bytes Bytes → List HistoryLine → List Problem × GoMap Bytes Bytes
  | bound, [] => ([], bound)
  | bound, line :: lines =>
    let problems :=
      match bound.lookup line.signal with
      | some w => if w ≠ window then [.boundTwice block line.signal w] else []
      | none => []
    let rest := checkBindings block window (bound.insert line.signal window) lines
    (problems ++ rest.1, rest.2)

/-- The points of a line: each after the one before, up to the first problem. -/
def checkPoints (path : Bytes) : ℕ → Option ℤ → List SeriesPoint → List Problem
  | _, _, [] => []
  | k, prev, pt :: pts =>
    let field := dotted (dotted path (indexed "points" k)) (ascii "t")
    match parseTime pt.t with
    | none => [.notTimestamp field pt.t]
    | some t =>
      if prev.any fun p => t ≤ p then [.notAfterPrevious field pt.t]
      else checkPoints path (k + 1) (some t) pts

def checkBounds (block : ℕ) : Option ℚ → Option ℚ → List Problem
  | some lo, some hi => if hi ≤ lo then [.minNotBelowMax block lo hi] else []
  | _, _ => []

def isTagByte (b : UInt8) : Bool :=
  Integrations.isUpperAlpha b || Integrations.isLowerAlpha b || isDigit b || b = chr '-'

/-- The first match of `<[a-zA-Z][a-zA-Z0-9-]*[\s/>]`. -/
def rawHTMLTag : Bytes → Option Bytes
  | [] => none
  | b :: rest =>
    let name := rest.takeWhile isTagByte
    let starts := b = chr '<' ∧
      (rest.head?.any fun c => Integrations.isUpperAlpha c || Integrations.isLowerAlpha c)
    match rest.drop name.length with
    | c :: _ =>
      if starts ∧ (isSpace c || c = chr '/' || c = chr '>') then some (b :: name ++ [c])
      else rawHTMLTag rest
    | [] => rawHTMLTag rest

/-- What one block adds to the problems, and to the windows. -/
def checkBlock (i : ℕ) (bound : GoMap Bytes Bytes) : Block → List Problem × GoMap Bytes Bytes
  | .status b => (checkTimes i "since" StatusItem.since b.items.elems, bound)
  | .list b => (checkTimes i "timestamp" ListItem.timestamp b.items.elems, bound)
  | .media _ b => (checkTimes i "timestamp" MediaItem.timestamp b.items.elems, bound)
  | .series b =>
    let (bindings, bound) :=
      match b.history with
      | none => ([], bound)
      | some h => checkBindings i h.windowOr bound h.lines.elems
    let lines := b.series.elems.zipIdx.flatMap fun x =>
      checkPoints (dotted (indexed "blocks" i) (indexed "series" x.2)) 0 none x.1.points.elems
    (bindings ++ checkBounds i b.min b.max ++ lines, bound)
  | .text .markdown b =>
    let long := if maxMarkdownBytes < b.content.length then [.markdownTooLong i] else []
    let html := (rawHTMLTag b.content).toList.map (.rawHTML i)
    (long ++ html, bound)
  | _ => ([], bound)

def checkBlocks : ℕ → GoMap Bytes Bytes → List Block → List Problem
  | _, _, [] => []
  | i, bound, b :: blocks =>
    let (problems, bound) := checkBlock i bound b
    problems ++ checkBlocks (i + 1) bound blocks

/-- Everything that the schema cannot express. -/
def validateSemantics (doc : Document) : List Problem :=
  (doc.status.toList.flatMap fun s => checkTime (ascii "status.since") s.since) ++
    checkBlocks 0 ∅ doc.blocks

/-! ## The gate -/

inductive ValidationError where
  | tooLarge (size limit : ℕ)
  | notJSON
  | invalid (problems : List Problem)
  deriving Repr

def maxDocumentBytes : ℕ := 64 * 1024

def maxDocumentBytesHardCap : ℕ := 256 * 1024

/-- The ceiling that a caller's limit stands for. -/
def documentLimit (maxBytes : ℤ) : ℕ :=
  if maxBytes ≤ 0 then maxDocumentBytes else min maxBytes.toNat maxDocumentBytesHardCap

def unmarshalDocument (raw : Bytes) : Option Document :=
  (unmarshalText raw).bind Document.unmarshalJSON

/-- `ValidateWithLimit`. -/
def validateWithLimit (raw : Bytes) (maxBytes : ℤ) : Except ValidationError Document :=
  if documentLimit maxBytes < raw.length then
    .error (.tooLarge raw.length (documentLimit maxBytes))
  else
    match decodeFirst raw with
    | none => .error .notJSON
    | some (tree, _) =>
      let schema := if widgetSchema tree.generic then [] else [.schema]
      match unmarshalDocument raw with
      | none => .error (.invalid (schema ++ [.undecodable]))
      | some doc =>
        let problems := schema ++ validateSemantics doc
        if problems = [] then .ok doc else .error (.invalid problems)

/-- `Validate`. -/
def validate (raw : Bytes) : Except ValidationError Document :=
  validateWithLimit raw maxDocumentBytes

/-- What the gate lets through: the schema holds of a generic decode, and the semantics of the
typed one. -/
theorem validateWithLimit_eq_ok {raw : Bytes} {maxBytes : ℤ} {doc : Document}
    (h : validateWithLimit raw maxBytes = .ok doc) :
    ∃ tree, unmarshalText raw = some tree ∧ widgetSchema tree.generic = true ∧
      Document.unmarshalJSON tree = some doc ∧ validateSemantics doc = [] := by
  rw [validateWithLimit] at h
  split_ifs at h
  split at h
  · cases h
  · rename_i tree rest hfirst
    by_cases hschema : widgetSchema tree.generic = true
    · simp only [hschema, if_true, List.nil_append] at h
      split at h
      · cases h
      · rename_i doc' hdoc
        split_ifs at h with hsemantics
        cases h
        obtain ⟨tree', htree, hjson⟩ := Option.bind_eq_some_iff.mp hdoc
        have heq : tree = tree' := by
          rw [unmarshalText, hfirst] at htree
          simp only at htree
          split_ifs at htree
          exact Option.some_injective _ htree
        subst heq
        exact ⟨tree, htree, hschema, hjson, hsemantics⟩
    · simp only [hschema] at h
      split at h <;> simp at h

/-- The document satisfies every constraint of the schema and of the semantics. -/
def Sound (doc : Document) : Prop :=
  widgetSchema doc.marshalJSON = true ∧ validateSemantics doc = []

instance (doc : Document) : Decidable (Sound doc) := inferInstanceAs (Decidable (_ ∧ _))

/-- No repeated member of the text leaves anything of an earlier one behind. -/
def settledText (raw : Bytes) : Bool := (unmarshalText raw).all settledDocument

/-- **The gate is sound on settled texts.**  A document that is let through satisfies the
schema and the semantics, unless a repeated member of its text left something behind. -/
theorem sound_of_validateWithLimit {raw : Bytes} {maxBytes : ℤ} {doc : Document}
    (hsettled : settledText raw = true) (h : validateWithLimit raw maxBytes = .ok doc) :
    Sound doc := by
  obtain ⟨tree, htree, hschema, hjson, hsemantics⟩ := validateWithLimit_eq_ok h
  rw [settledText, htree] at hsettled
  exact ⟨widgetSchema_of_unmarshalJSON hsettled hschema hjson, hsemantics⟩

/-- A list whose `items` are given twice: the link of the first item is left in the second,
which has none. -/
def leftoverLink : Bytes :=
  ascii "\x7b\"schemaVersion\":1,\"blocks\":[\x7b\"type\":\"list\"," ++
    ascii "\"items\":[\x7b\"title\":\"x\",\"link\":\"javascript:alert(1)\"\x7d]," ++
    ascii "\"items\":[\x7b\"title\":\"x\"\x7d]\x7d]\x7d"

/-- A document with a title given twice, of which the last counts, and one status. -/
def repeatedTitle : Bytes :=
  ascii "\x7b\"schemaVersion\":1,\"title\":\"b\",\"title\":\"a\",\"blocks\":[]," ++
    ascii "\"status\":\x7b\"level\":\"ok\"\x7d\x7d"

/-- The outcome of the gate as a test on the document. -/
def accepts (raw : Bytes) (test : Document → Bool) : Bool :=
  match validate raw with
  | .ok doc => test doc
  | .error _ => false

theorem exists_of_accepts {raw : Bytes} {test : Document → Bool} (h : accepts raw test = true) :
    ∃ doc, validate raw = .ok doc ∧ test doc = true := by
  rw [accepts] at h
  split at h
  · rename_i doc hdoc
    exact ⟨doc, hdoc, h⟩
  · cases h

theorem sound_of_validateWithLimit_repeatedTitle :
    settledText repeatedTitle = true ∧
      ∃ doc, validate repeatedTitle = .ok doc ∧ Sound doc := by
  have hsettled : settledText repeatedTitle = true := by decide +kernel
  have haccepts : accepts repeatedTitle (fun _ => true) = true := by decide +kernel
  obtain ⟨doc, hdoc, -⟩ := exists_of_accepts haccepts
  exact ⟨hsettled, doc, hdoc, sound_of_validateWithLimit hsettled hdoc⟩

/-- The gate lets a link through that the schema does not allow. -/
theorem validateWithLimit_unsound :
    ∃ doc, validate leftoverLink = .ok doc ∧ ¬ Sound doc := by
  have haccepts : accepts leftoverLink (fun doc => !decide (Sound doc)) = true := by
    decide +kernel
  obtain ⟨doc, hdoc, htest⟩ := exists_of_accepts haccepts
  exact ⟨doc, hdoc, by simpa using htest⟩

end Veduta.Widgets
