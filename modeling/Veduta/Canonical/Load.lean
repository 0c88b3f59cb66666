import Veduta.Canonical.Digest
import Veduta.Go.Json

/-!
# Loading a document for its digest

Package `canonical`: a YAML or JSON file as the tree that is hashed.  The YAML library
gives a graph of nodes, with what each scalar decodes to; the walk over it bounds depth,
nodes and alias expansions.

The walk keeps whatever a scalar decodes to, except floats.  Timestamps and integers
above the range of `int` are values of Go types that the writer does not know: a document
that has one, and is otherwise fit to be hashed, makes it panic.
-/

namespace Veduta.Canonical

open Go Lib

/-! ## YAML -/

/-- The short tag of a scalar. -/
inductive Tag where
  | null
  | bool
  | str
  | int
  | float
  | timestamp
  | binary
  | merge
  | custom
  deriving DecidableEq, Repr

/-- What a scalar decodes to, by Go type. -/
inductive Scalar where
  | null
  | bool (b : Bool)
  | int (n : Int)
  | uint64 (n : ℕ)
  | float64 (f : Float64)
  | str (s : Bytes)
  | time (text : Bytes)
  deriving DecidableEq, Repr

def Scalar.value : Scalar → Value
  | .null => .null
  | .bool b => .bool b
  | .int n => .int n
  | .uint64 n => .uint64 n
  | .float64 f => .float64 f
  | .str s => .str s
  | .time t => .time t

/-- A scalar node: its tag, its text, and what the library decodes it to, if it can. -/
structure ScalarNode where
  tag : Tag
  text : Bytes
  decoded : Option Scalar
  deriving DecidableEq, Repr

/-- A node.  An alias points at the node of its anchor, by a number. -/
inductive Node where
  | document (content : Node)
  | mapping (content : List (Node × Node))
  | sequence (content : List Node)
  | alias (anchor : Bytes) (target : ℕ)
  | scalar (s : ScalarNode)

/-- The `Value` field of a node. -/
def Node.text : Node → Bytes
  | .scalar s => s.text
  | .alias anchor _ => anchor
  | _ => []

/-- A parsed document: its root, and the nodes that aliases point at. -/
structure YamlDocument where
  root : Node
  anchored : ℕ → Node

def maxYAMLDepth : ℕ := 32

def maxYAMLNodes : ℕ := 20000

def maxYAMLAliases : ℕ := 100

/-- What the walk has used up. -/
structure YamlBudget where
  nodes : ℕ
  aliases : ℕ
  deriving DecidableEq, Repr

inductive LoadError where
  | depth
  | nodes
  | aliases
  | duplicateKey (key : Bytes)
  | scalar
  | floatingPoint
  | malformed
  | trailing
  deriving DecidableEq, Repr

/-- The visit of a child. -/
abbrev Visit := Node → YamlBudget → Except LoadError (Value × YamlBudget)

/-- The loop over a mapping, with the members so far. -/
def mappingLoop (visit : Visit) : List (Bytes × Value) → List (Node × Node) → YamlBudget →
    Except LoadError (List (Bytes × Value) × YamlBudget)
  | out, [], b => .ok (out, b)
  | out, (k, n) :: content, b =>
    if (out.lookup k.text).isSome then .error (.duplicateKey k.text)
    else do
      let (v, b) ← visit n b
      mappingLoop visit (out ++ [(k.text, v)]) content b

def sequenceLoop (visit : Visit) : List Node → YamlBudget →
    Except LoadError (List Value × YamlBudget)
  | [], b => .ok ([], b)
  | n :: content, b => do
    let (v, b) ← visit n b
    let (vs, b) ← sequenceLoop visit content b
    return (v :: vs, b)

def yamlNode (anchored : ℕ → Node) (visit : Visit) : Visit
  | .document content, b => visit content b
  | .mapping content, b => do
    let (out, b) ← mappingLoop visit [] content b
    return (.obj out, b)
  | .sequence content, b => do
    let (out, b) ← sequenceLoop visit content b
    return (.arr out, b)
  | .alias _ target, b =>
    if b.aliases + 1 > maxYAMLAliases then .error .aliases
    else visit (anchored target) { b with aliases := b.aliases + 1 }
  | .scalar s, b =>
    match s.decoded with
    | none => .error .scalar
    | some (.float64 _) => .error .floatingPoint
    | some v => .ok (v.value, b)

/-- The walk, on the depth that is left.  An alias inside its own anchor is followed
until the depth runs out. -/
def yamlToAnyBounded (anchored : ℕ → Node) : ℕ → Visit
  | 0, _, _ => .error .depth
  | depth + 1, n, b =>
    if b.nodes + 1 > maxYAMLNodes then .error .nodes
    else yamlNode anchored (yamlToAnyBounded anchored depth) n { b with nodes := b.nodes + 1 }

def yamlToAny (doc : YamlDocument) : Except LoadError Value := do
  let (v, _) ← yamlToAnyBounded doc.anchored maxYAMLDepth (.document doc.root) ⟨0, 0⟩
  return v

mutual

/-- Decoding into an empty interface, numbers kept as text. -/
def jsonValue : Json → Value
  | .null => .null
  | .bool b => .bool b
  | .num text => .number text
  | .str s => .str s
  | .arr items => .arr (jsonItems items)
  | .obj members => .obj (jsonMembers members)

def jsonItems : List Json → List Value
  | [] => []
  | v :: items => jsonValue v :: jsonItems items

/-- The last member of a name is the one that stays. -/
def jsonMembers : List (Bytes × Json) → List (Bytes × Value)
  | [] => []
  | (k, v) :: members =>
    let rest := jsonMembers members
    if (rest.lookup k).isSome then rest else (k, jsonValue v) :: rest

end

/-- A file as a tree: exactly one document, in YAML by its extension, else in JSON.
`yaml` is the YAML library: the first document, and whether the stream ends after it. -/
def loadBytes (yaml : Bytes → Option (YamlDocument × Bool)) (raw ext : Bytes) :
    Except LoadError Value :=
  if ext = ascii ".yaml" ∨ ext = ascii ".yml" then
    match yaml raw with
    | none => .error .malformed
    | some (doc, atEnd) => if atEnd then yamlToAny doc else .error .trailing
  else
    match decodeFirst raw with
    | none => .error .malformed
    | some (v, rest) => if skipSpace rest = [] then .ok (jsonValue v) else .error .trailing

/-- `DigestBytes`: the digest of a file, or the error of either half. -/
def digestBytes (yaml : Bytes → Option (YamlDocument × Bool)) (sum256 : Bytes → Bytes)
    (raw ext : Bytes) : Except (LoadError ⊕ Failure) Bytes :=
  match loadBytes yaml raw ext with
  | .error e => .error (.inl e)
  | .ok v => (digest sum256 v).mapError .inr

def isSafe (n : Int) : Bool := minSafeInt ≤ n && n ≤ maxSafeInt

mutual

/-- The tree has only numbers that normalise, and only strings in its set-like arrays. -/
def Value.admitted (path : List Bytes) : Value → Bool
  | .obj members => admittedMembers path members
  | .arr items =>
    admittedItems path 0 items && (!isSetLike path || items.all fun v => v.asStr.isSome)
  | .number text =>
    !(text.any fun b => b = chr '.' || b = chr 'e' || b = chr 'E') &&
      ((parseInt text).map isSafe).getD false
  | .float64 (.finite q) => q.den == 1 && isSafe q.num
  | .float64 _ => false
  | .int n => isSafe n
  | _ => true

def admittedMembers (path : List Bytes) : List (Bytes × Value) → Bool
  | [] => true
  | (k, v) :: members => v.admitted (path ++ [k]) && admittedMembers path members

def admittedItems (path : List Bytes) (i : ℕ) : List Value → Bool
  | [] => true
  | v :: items => v.admitted (path ++ [formatNat i]) && admittedItems path (i + 1) items

end

mutual

/-- Some scalar of the tree satisfies a test. -/
def Value.anyScalar (p : Value → Bool) : Value → Bool
  | .arr items => anyScalarItems p items
  | .obj members => anyScalarMembers p members
  | v => p v

def anyScalarItems (p : Value → Bool) : List Value → Bool
  | [] => false
  | v :: items => v.anyScalar p || anyScalarItems p items

def anyScalarMembers (p : Value → Bool) : List (Bytes × Value) → Bool
  | [] => false
  | (_, v) :: members => v.anyScalar p || anyScalarMembers p members

end

/-- A timestamp, or an integer above the range of `int`. -/
def isForeign : Value → Bool
  | .time _ | .uint64 _ => true
  | _ => false

/-- A scalar that the writer panics on. -/
def isUnwritable : Value → Bool
  | .time _ | .uint64 _ | .int _ | .float64 _ | .number _ => true
  | _ => false

def Value.foreign (v : Value) : Bool := v.anyScalar isForeign

/-! ## Normalisation succeeds on admitted trees -/

theorem exists_strs {items : List Value} (h : ∀ v ∈ items, v.asStr.isSome = true) :
    ∃ strs : List Bytes, items = strs.map .str := by
  induction items with
  | nil => exact ⟨[], rfl⟩
  | cons v items ih =>
    obtain ⟨strs, rfl⟩ := ih fun w hw => h w (List.mem_cons_of_mem v hw)
    cases v with
    | str s => exact ⟨s :: strs, rfl⟩
    | _ => exact absurd (h _ List.mem_cons_self) (by simp [Value.asStr])

theorem mapM_asStr_eq_some_iff {items : List Value} {strs : List Bytes} :
    items.mapM Value.asStr = some strs ↔ items = strs.map .str := by
  induction items generalizing strs with
  | nil => cases strs <;> simp
  | cons v items ih =>
    cases strs with
    | nil => simp [Option.bind_eq_some_iff]
    | cons s strs =>
      have hv : v.asStr = some s ↔ v = .str s := by cases v <;> simp [Value.asStr]
      simp [Option.bind_eq_some_iff, hv, ih]

theorem anyScalarItems_map_str {p : Value → Bool} (hp : ∀ s, p (.str s) = false)
    (strs : List Bytes) : anyScalarItems p (strs.map .str) = false := by
  induction strs with
  | nil => rfl
  | cons s strs ih => simp [anyScalarItems, Value.anyScalar, hp, ih]

/-- What normalising a node does, given whether it is admitted. -/
def Normalised (admitted : Bool) (v : Value) : Except NormaliseError Value → Prop
  | .ok n =>
    admitted = true ∧ n.anyScalar isUnwritable = v.anyScalar isForeign ∧ n.asStr = v.asStr
  | .error _ => admitted = false

theorem normalised_safeInteger (path : List Bytes) (n : Int) {v : Value}
    (hv : v.anyScalar isForeign = false) (hs : v.asStr = none) :
    Normalised (isSafe n) v (safeInteger path n) := by
  simp only [safeInteger, isSafe]
  split_ifs with h
  · simp only [Normalised, Bool.and_eq_false_iff, decide_eq_false_iff_not]
    omega
  · simp only [Normalised, Bool.and_eq_true, decide_eq_true_eq, hv, hs]
    exact ⟨by omega, rfl, rfl⟩

theorem normaliseSet_spec (path : List Bytes) {items out : List Value}
    (hstr : out.map Value.asStr = items.map Value.asStr) :
    Normalised (items.all fun v => v.asStr.isSome) (.arr items) (normaliseSet path out) := by
  have hmapM : out.mapM Value.asStr = items.mapM Value.asStr := by
    have hid : ∀ l : List Value, l.mapM Value.asStr = (l.map Value.asStr).mapM id := by
      intro l
      simp [List.mapM_map]
    rw [hid out, hid items, hstr]
  rw [normaliseSet, hmapM]
  rcases hm : items.mapM Value.asStr with _ | strs
  · refine Bool.eq_false_iff.mpr fun hall => ?_
    obtain ⟨strs, hstrs⟩ := exists_strs (List.all_eq_true.mp hall)
    rw [mapM_asStr_eq_some_iff.mpr hstrs] at hm
    cases hm
  · obtain rfl := mapM_asStr_eq_some_iff.mp hm
    refine ⟨by simp [Value.asStr], ?_, rfl⟩
    rw [Value.anyScalar, Value.anyScalar, anyScalarItems_map_str fun _ => rfl,
      anyScalarItems_map_str fun _ => rfl]

mutual

theorem normalise_spec (path : List Bytes) (v : Value) :
    Normalised (v.admitted path) v (normalise path v) := by
  cases v with
  | obj members =>
    have h := normaliseMembers_spec path members
    rw [normalise]
    rcases hm : normaliseMembers path members with e | out
    · rw [hm] at h
      exact h
    · rw [hm] at h
      exact ⟨h.1, h.2, rfl⟩
  | arr items =>
    have h := normaliseItems_spec path 0 items
    rw [normalise]
    rcases hm : normaliseItems path 0 items with e | out
    · rw [hm] at h
      simp [Normalised, Value.admitted, h]
    · rw [hm] at h
      obtain ⟨hadm, hany, hstr⟩ := h
      by_cases hset : isSetLike path = true
      · have hs := normaliseSet_spec path hstr
        simpa [hset, Value.admitted, hadm] using hs
      · simp [hset, Normalised, Value.admitted, hadm, Value.anyScalar, hany, Value.asStr]
  | number text =>
    rw [normalise, normaliseNumber, Value.admitted]
    split_ifs with hfloat
    · simp [Normalised, hfloat]
    · rcases hn : parseInt text with _ | n
      · simp [Normalised]
      · have h := normalised_safeInteger path n (v := .number text) rfl rfl
        simpa [hfloat] using h
  | float64 f =>
    rw [normalise]
    cases f with
    | nan | inf => rfl
    | finite q =>
      rw [normaliseFloat, Value.admitted]
      split_ifs with hden
      · simp [Normalised, hden]
      · have h := normalised_safeInteger path q.num (v := .float64 (.finite q)) rfl rfl
        simpa [not_not.mp hden] using h
  | int n => exact normalised_safeInteger path n rfl rfl
  | _ => exact ⟨rfl, rfl, rfl⟩

theorem normaliseMembers_spec (path : List Bytes) (members : List (Bytes × Value)) :
    match normaliseMembers path members with
    | .ok out => admittedMembers path members = true ∧
        anyScalarMembers isUnwritable out = anyScalarMembers isForeign members
    | .error _ => admittedMembers path members = false := by
  cases members with
  | nil => exact ⟨rfl, rfl⟩
  | cons x members =>
    obtain ⟨k, v⟩ := x
    have hv := normalise_spec (path ++ [k]) v
    have hrest := normaliseMembers_spec path members
    rw [normaliseMembers, admittedMembers, anyScalarMembers]
    rcases hn : normalise (path ++ [k]) v with e | n <;> rw [hn] at hv
    · simp [show v.admitted (path ++ [k]) = false from hv]
    · rcases hm : normaliseMembers path members with e | out <;> rw [hm] at hrest
      · simp [hrest]
      · simp [hv.1, hrest.1, anyScalarMembers, hv.2.1, hrest.2]

theorem normaliseItems_spec (path : List Bytes) (i : ℕ) (items : List Value) :
    match normaliseItems path i items with
    | .ok out => admittedItems path i items = true ∧
        anyScalarItems isUnwritable out = anyScalarItems isForeign items ∧
        out.map Value.asStr = items.map Value.asStr
    | .error _ => admittedItems path i items = false := by
  cases items with
  | nil => exact ⟨rfl, rfl, rfl⟩
  | cons v items =>
    have hv := normalise_spec (path ++ [formatNat i]) v
    have hrest := normaliseItems_spec path (i + 1) items
    rw [normaliseItems, admittedItems, anyScalarItems]
    rcases hn : normalise (path ++ [formatNat i]) v with e | n <;> rw [hn] at hv
    · simp [show v.admitted (path ++ [formatNat i]) = false from hv]
    · rcases hm : normaliseItems path (i + 1) items with e | out <;> rw [hm] at hrest
      · simp [hrest]
      · simp [hv.1, hrest.1, anyScalarItems, hv.2.1, hrest.2.1, hv.2.2, hrest.2.2]

end

mutual

theorem serialise_isOk_iff (v : Value) :
    (∃ s, serialise v = .ok s) ↔ v.anyScalar isUnwritable = false := by
  cases v with
  | arr items =>
    rw [Value.anyScalar, ← serialiseItems_isOk_iff items]
    simp [serialise]
  | obj members =>
    rw [Value.anyScalar, ← serialiseMembers_isOk_iff members]
    have hmem : ∀ x, x ∈ sortKeys (serialiseMembers members) ↔ x ∈ serialiseMembers members :=
      fun x => List.mem_insertionSort _
    simp [serialise, exists_mapM_eq_ok_iff, hmem, member]
  | _ => simp [serialise, Value.anyScalar, isUnwritable]

theorem serialiseItems_isOk_iff (items : List Value) :
    (∃ parts, serialiseItems items = .ok parts) ↔ anyScalarItems isUnwritable items = false := by
  cases items with
  | nil => exact ⟨fun _ => rfl, fun _ => ⟨[], rfl⟩⟩
  | cons v items =>
    rw [anyScalarItems, Bool.or_eq_false_iff, ← serialise_isOk_iff v,
      ← serialiseItems_isOk_iff items, serialiseItems]
    rcases serialise v with e | s <;> simp

theorem serialiseMembers_isOk_iff (members : List (Bytes × Value)) :
    (∀ x ∈ serialiseMembers members, ∃ s, x.2 = .ok s) ↔
      anyScalarMembers isUnwritable members = false := by
  cases members with
  | nil => simp [serialiseMembers, anyScalarMembers]
  | cons x members =>
    obtain ⟨k, v⟩ := x
    rw [anyScalarMembers, Bool.or_eq_false_iff, ← serialise_isOk_iff v,
      ← serialiseMembers_isOk_iff members, serialiseMembers, List.forall_mem_cons]

end

/-! ## Panics -/

/-- **When hashing a tree panics.** -/
theorem digest_panics_iff (sum256 : Bytes → Bytes) (v : Value) :
    (∃ t, digest sum256 v = .error (.panic t)) ↔ v.admitted [] = true ∧ v.foreign = true := by
  have hspec := normalise_spec [] v
  rw [digest, canonicalText]
  rcases hn : normalise [] v with e | n <;> rw [hn] at hspec
  · simp [Except.mapError, show v.admitted [] = false from hspec]
  · obtain ⟨hadm, hany, -⟩ := hspec
    have hwrite := serialise_isOk_iff n
    rw [hany] at hwrite
    rcases hs : serialise n with t | s <;> rw [hs] at hwrite
    · have hforeign : v.foreign = true := by simpa [Value.foreign] using hwrite
      simp [Except.mapError, hs, hadm, hforeign]
    · have hforeign : v.foreign = false := by simpa [Value.foreign] using hwrite
      simp [Except.mapError, hs, hforeign]

/-- **When hashing a file that loads never panics**: unless the file is otherwise fit to
be hashed, and has a timestamp or an integer above the range of `int`. -/
theorem digestBytes_never_panics_iff (yaml : Bytes → Option (YamlDocument × Bool))
    (sum256 : Bytes → Bytes) (raw ext : Bytes) (v : Value)
    (h : loadBytes yaml raw ext = .ok v) :
    (∀ t, digestBytes yaml sum256 raw ext ≠ .error (.inr (.panic t))) ↔
      ¬ (v.admitted [] = true ∧ v.foreign = true) := by
  rw [← digest_panics_iff sum256 v, digestBytes, h, not_exists]
  refine forall_congr' fun t => not_congr ?_
  simp [mapError_eq_error_iff]

mutual

theorem foreign_jsonValue (j : Json) : (jsonValue j).foreign = false := by
  cases j with
  | arr items => exact foreign_jsonItems items
  | obj members => exact foreign_jsonMembers members
  | _ => rfl

theorem foreign_jsonItems (items : List Json) :
    anyScalarItems isForeign (jsonItems items) = false := by
  cases items with
  | nil => rfl
  | cons v items =>
    rw [jsonItems, anyScalarItems, Bool.or_eq_false_iff]
    exact ⟨foreign_jsonValue v, foreign_jsonItems items⟩

theorem foreign_jsonMembers (members : List (Bytes × Json)) :
    anyScalarMembers isForeign (jsonMembers members) = false := by
  cases members with
  | nil => rfl
  | cons x members =>
    obtain ⟨k, v⟩ := x
    have hrest := foreign_jsonMembers members
    simp only [jsonMembers]
    split_ifs
    · exact hrest
    · rw [anyScalarMembers, Bool.or_eq_false_iff]
      exact ⟨foreign_jsonValue v, hrest⟩

end

/-- Hashing a file that is not YAML never panics. -/
theorem digestBytes_json_never_panics (yaml : Bytes → Option (YamlDocument × Bool))
    (sum256 : Bytes → Bytes) (raw : Bytes) {ext : Bytes}
    (hext : ¬ (ext = ascii ".yaml" ∨ ext = ascii ".yml")) (t : GoType) :
    digestBytes yaml sum256 raw ext ≠ .error (.inr (.panic t)) := by
  rw [digestBytes, loadBytes, if_neg hext]
  rcases decodeFirst raw with _ | ⟨j, rest⟩
  · simp
  · dsimp only
    split_ifs
    · have hno := (digest_panics_iff sum256 (jsonValue j)).not.mpr (by simp [foreign_jsonValue])
      intro hpanic
      refine hno ⟨t, ?_⟩
      simpa [mapError_eq_error_iff] using hpanic
    · simp

theorem digestBytes_json_never_panics_float :
    digestBytes (fun _ => none) id (ascii "[1.5]") (ascii ".json") ≠
      .error (.inr (.panic .float64)) :=
  digestBytes_json_never_panics _ _ _ (by decide) _

/-- `released: 2026-01-02`. -/
def timestampDocument : YamlDocument where
  root := .mapping [(.scalar ⟨.str, ascii "released", some (.str (ascii "released"))⟩,
    .scalar ⟨.timestamp, ascii "2026-01-02", some (.time (ascii "2026-01-02"))⟩)]
  anchored := fun _ => .sequence []

/-- `size: 18446744073709551615`. -/
def uint64Document : YamlDocument where
  root := .mapping [(.scalar ⟨.str, ascii "size", some (.str (ascii "size"))⟩,
    .scalar ⟨.int, ascii "18446744073709551615", some (.uint64 18446744073709551615)⟩)]
  anchored := fun _ => .sequence []

/-- Both load, and hashing either panics. -/
theorem digestBytes_panics :
    (∃ v, loadBytes (fun _ => some (timestampDocument, true)) (ascii "released: 2026-01-02")
        (ascii ".yaml") = .ok v) ∧
      digestBytes (fun _ => some (timestampDocument, true)) id (ascii "released: 2026-01-02")
        (ascii ".yaml") = .error (.inr (.panic .time)) ∧
      digestBytes (fun _ => some (uint64Document, true)) id
        (ascii "size: 18446744073709551615") (ascii ".yaml") =
        .error (.inr (.panic .uint64)) := by
  refine ⟨⟨.obj [(ascii "released", .time (ascii "2026-01-02"))], rfl⟩, ?_, ?_⟩ <;> rfl

theorem digestBytes_never_panics_iff_timestamp :
    ∃ v, loadBytes (fun _ => some (timestampDocument, true)) (ascii "released: 2026-01-02")
        (ascii ".yaml") = .ok v ∧
      ((∀ t, digestBytes (fun _ => some (timestampDocument, true)) id
          (ascii "released: 2026-01-02") (ascii ".yaml") ≠ .error (.inr (.panic t))) ↔
        ¬ (v.admitted [] = true ∧ v.foreign = true)) :=
  ⟨.obj [(ascii "released", .time (ascii "2026-01-02"))], rfl,
    digestBytes_never_panics_iff _ id _ _ _ rfl⟩

end Veduta.Canonical
