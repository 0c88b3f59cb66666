import Veduta.Go.Strings

/-!
# Documents and schemas

A YAML or JSON document as a tree, and JSON Schema as tests on trees.  Only the
keywords that closed, non-recursive schemas need are here, each as a combinator, so a
schema is written as its source is and runs on a document.

A struct is written as an object whose fields may be left out when empty
(`omitempty`); a missing field is read back as the zero value.
-/

namespace Veduta.Lib

open Go

/-- A document.  Floating-point scalars are left out: no struct field holds one. -/
inductive Doc where
  | null
  | bool (b : Bool)
  | int (n : Int)
  | str (s : Bytes)
  | arr (items : List Doc)
  | obj (fields : List (Bytes × Doc))
  deriving Repr

/-- A test on documents. -/
abbrev Schema := Doc → Bool

namespace Schema

/-- `type: string`, with a test. -/
def str (test : Bytes → Bool) : Schema
  | .str s => test s
  | _ => false

/-- `enum`, over strings. -/
def enum (words : List Bytes) : Schema := str words.contains

/-- `const`, for an integer. -/
def constInt (c : Int) : Schema
  | .int n => n == c
  | _ => false

/-- `type: integer` with `minimum` and `maximum`. -/
def integer (minimum maximum : Int) : Schema
  | .int n => minimum ≤ n && n ≤ maximum
  | _ => false

/-- `type: array`, with a test on the list and a schema for the items. -/
def array (test : List Doc → Bool) (item : Schema) : Schema
  | .arr items => test items && items.all item
  | _ => false

/-- `type: object` with `required`, `properties` and `additionalProperties: false`. -/
def object (required : List Bytes) (properties : List (Bytes × Schema)) : Schema
  | .obj fields =>
    required.all (fun name => (fields.lookup name).isSome) &&
      fields.all fun x =>
        match properties.lookup x.1 with
        | some property => property x.2
        | none => false
  | _ => false

/-- `type: object` with `propertyNames` and a schema for every value. -/
def dict (name : Bytes → Bool) (value : Schema) : Schema
  | .obj fields => fields.all fun x => name x.1 && value x.2
  | _ => false

/-- `required` alone, which says nothing of other types. -/
def requires (names : List Bytes) : Schema
  | .obj fields => names.all fun name => (fields.lookup name).isSome
  | _ => true

/-- `properties` alone, for one property: a missing one passes. -/
def property (name : Bytes) (value : Schema) : Schema
  | .obj fields => ((fields.lookup name).map value).getD true
  | _ => true

/-- `allOf` of two. -/
def both (a b : Schema) : Schema := fun d => a d && b d

/-- `if` and `then`. -/
def ifThen (a b : Schema) : Schema := fun d => !a d || b d

end Schema

/-- `maxLength` counts runes: the bytes that do not continue one. -/
def runeCount (s : Bytes) : ℕ := s.countP fun b => !(0x80 ≤ b && b < 0xc0)

def maxLength (n : ℕ) (s : Bytes) : Bool := runeCount s ≤ n

/-- `uniqueItems`, on an array of strings. -/
def uniqueStrings (items : List Doc) : Bool :=
  (items.filterMap fun d => match d with | .str s => some s | _ => none).Nodup

/-- A field that `omitempty` may leave out. -/
def omitEmpty (name : Bytes) (present : Bool) (d : Doc) : List (Bytes × Doc) :=
  if present then [(name, d)] else []

namespace Doc

def field? : Doc → Bytes → Option Doc
  | .obj fields, name => fields.lookup name
  | _, _ => none

/-- A string field; missing or null is the empty string. -/
def getStr (d : Doc) (name : Bytes) : Option Bytes :=
  match d.field? name with
  | none | some .null => some []
  | some (.str s) => some s
  | some _ => none

/-- An integer field; missing or null is zero. -/
def getInt (d : Doc) (name : Bytes) : Option Int :=
  match d.field? name with
  | none | some .null => some 0
  | some (.int n) => some n
  | some _ => none

/-- A pointer-to-integer field; missing or null is nil. -/
def getIntPtr (d : Doc) (name : Bytes) : Option (Option Int) :=
  match d.field? name with
  | none | some .null => some none
  | some (.int n) => some (some n)
  | some _ => none

/-- The string in a scalar; null is the empty one. -/
def asStr : Doc → Option Bytes
  | .str s => some s
  | .null => some []
  | _ => none

/-- A string-slice field: missing or null is nil, an empty array is not. -/
def getStrings (d : Doc) (name : Bytes) : Option (Option (List Bytes)) :=
  match d.field? name with
  | none | some .null => some none
  | some (.arr items) => (items.mapM asStr).map some
  | some _ => none

/-- A slice field read element by element; missing or null is empty. -/
def getList {α : Type} (d : Doc) (name : Bytes) (item : Doc → Option α) : Option (List α) :=
  match d.field? name with
  | none | some .null => some []
  | some (.arr items) => items.mapM item
  | some _ => none

/-- A pointer-to-struct field; missing or null is nil. -/
def getPtr {α : Type} (d : Doc) (name : Bytes) (item : Doc → Option α) : Option (Option α) :=
  match d.field? name with
  | none | some .null => some none
  | some v => (item v).map some

/-- A struct field; missing or null is the zero value. -/
def getStruct {α : Type} (d : Doc) (name : Bytes) (zero : α) (item : Doc → Option α) : Option α :=
  match d.field? name with
  | none | some .null => some zero
  | some v => item v

end Doc

/-! ## Looking fields up -/

@[simp] theorem lookup_omitEmpty_self (name : Bytes) (present : Bool) (d : Doc)
    (rest : List (Bytes × Doc)) :
    (omitEmpty name present d ++ rest).lookup name =
      if present then some d else rest.lookup name := by
  cases present <;> simp [omitEmpty]

variable {name other : Bytes} {β α : Type} {f : α → Option β}

theorem lookup_omitEmpty_of_ne (h : name ≠ other) (present : Bool) (d : Doc)
    (rest : List (Bytes × Doc)) :
    (omitEmpty other present d ++ rest).lookup name = rest.lookup name := by
  have hne : (name == other) = false := by simpa using h
  cases present
  · rfl
  · simp [omitEmpty, List.lookup_cons, hne]

@[simp] theorem lookup_omitEmpty (name : Bytes) (present : Bool) (d : Doc) :
    (omitEmpty name present d).lookup name = if present then some d else none := by
  cases present <;> simp [omitEmpty]

theorem lookup_omitEmpty_eq_none (h : name ≠ other) (present : Bool) (d : Doc) :
    (omitEmpty other present d).lookup name = none := by
  simpa using lookup_omitEmpty_of_ne h present d []

theorem lookup_cons_of_ne (h : name ≠ other) (d : β) (rest : List (Bytes × β)) :
    ((other, d) :: rest).lookup name = rest.lookup name := by
  have hne : (name == other) = false := by simpa using h
  simp [List.lookup_cons, hne]

namespace Doc

variable {d : Doc} {name s : Bytes} {α : Type} {fields : List (Bytes × Doc)}

theorem getStr_of_str (h : d.field? name = some (.str s)) : d.getStr name = some s := by
  simp [getStr, h]

theorem getStr_of_field? (h : d.field? name = if (s != []) = true then some (.str s) else none) :
    d.getStr name = some s := by
  by_cases hs : s = []
  · simp [getStr, h, hs]
  · simp [getStr, h, hs]

theorem getList_of_arr {items : List Doc} (h : d.field? name = some (.arr items))
    (item : Doc → Option α) : d.getList name item = items.mapM item := by
  simp [getList, h]

theorem getPtr_of_obj (h : d.field? name = some (.obj fields)) (item : Doc → Option α) :
    d.getPtr name item = (item (.obj fields)).map some := by
  simp [getPtr, h]

theorem getStruct_of_obj (h : d.field? name = some (.obj fields)) (zero : α)
    (item : Doc → Option α) :
    d.getStruct name zero item = item (.obj fields) := by
  simp [getStruct, h]

theorem getInt_of_field? {n : Int}
    (h : d.field? name = if (n != 0) = true then some (.int n) else none) :
    d.getInt name = some n := by
  by_cases hn : n = 0
  · simp [getInt, h, hn]
  · simp [getInt, h, hn]

end Doc

theorem mapM_eq_some_map {g : α → β} (h : ∀ x, f x = some (g x)) (xs : List α) :
    xs.mapM f = some (xs.map g) := by
  induction xs with
  | nil => rfl
  | cons x xs ih => simp [h, ih]

theorem exists_of_mem_mapM_some {xs : List α} {ys : List β} {y : β} (h : xs.mapM f = some ys)
    (hy : y ∈ ys) : ∃ x ∈ xs, f x = some y := by
  induction xs generalizing ys with
  | nil =>
    cases h
    cases hy
  | cons x xs ih =>
    simp only [List.mapM_cons, Option.bind_eq_bind, Option.bind_eq_some_iff, Option.pure_def,
      Option.some.injEq] at h
    obtain ⟨z, hz, zs, hzs, rfl⟩ := h
    rcases List.mem_cons.mp hy with rfl | hy
    · exact ⟨x, List.mem_cons_self, hz⟩
    · obtain ⟨w, hw, hfw⟩ := ih hzs hy
      exact ⟨w, List.mem_cons_of_mem x hw, hfw⟩

@[simp] theorem mapM_asStr_comp_str (keys : List Bytes) :
    keys.mapM (Doc.asStr ∘ Doc.str) = some keys := by
  simpa using mapM_eq_some_map (f := Doc.asStr ∘ Doc.str) (g := id) (fun _ => rfl) keys

theorem Schema.object_lookup {required : List Bytes} {properties : List (Bytes × Schema)}
    {d v : Doc} {property : Schema} (h : Schema.object required properties d = true)
    (hp : properties.lookup name = some property) (hv : d.field? name = some v) :
    property v = true := by
  cases d with
  | obj fields =>
    have hmem : (name, v) ∈ fields := by
      obtain ⟨l₁, l₂, rfl, _⟩ := List.lookup_eq_some_iff.mp hv
      simp
    simp only [Schema.object, Bool.and_eq_true, List.all_eq_true] at h
    have hall := h.2 (name, v) hmem
    simpa [hp] using hall
  | _ => simp [Schema.object] at h

end Veduta.Lib
