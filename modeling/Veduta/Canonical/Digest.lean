import Mathlib.Data.List.Sort
import Mathlib.Data.Rat.Defs
import Mathlib.Data.List.Destutter
import Veduta.Go.Strconv
import Veduta.Go.Utf8
import Veduta.Lib.Except
import Veduta.Lib.Percent

/-!
# The canonical digest

Package `canonical`: a decoded document is normalised, written in canonical JSON and
hashed.  A document is a tree of the Go values that the decoders produce; the normaliser
passes through what it does not know, and the writer panics on what it does not know.
-/

namespace Veduta.Canonical

open Go Lib

/-- A `float64`, by its value. -/
inductive Float64 where
  | nan
  | inf (negative : Bool)
  | finite (q : ℚ)
  deriving DecidableEq, Repr

/-- A decoded document.  The members of an object are in the order in which a `range`
loop visits them. -/
inductive Value where
  | null
  | bool (b : Bool)
  | int (n : Int)
  | int64 (n : Int)
  | uint64 (n : ℕ)
  | float64 (f : Float64)
  | number (text : Bytes)
  | str (s : Bytes)
  | time (text : Bytes)
  | arr (items : List Value)
  | obj (members : List (Bytes × Value))

/-- The bounds of the integers that every JSON implementation agrees on. -/
def maxSafeInt : Int := 2 ^ 53 - 1

def minSafeInt : Int := -(2 ^ 53 - 1)

/-- The arrays that are sorted and rid of duplicates, by their exact paths. -/
def setLikePaths : List (List Bytes) :=
  [[ascii "spec", ascii "capabilities"],
    [ascii "spec", ascii "operations", ascii "*", ascii "routes", ascii "*", ascii "queryKeys"]]

/-- The path is one of them, with `*` for any one element. -/
def isSetLike (path : List Bytes) : Bool :=
  setLikePaths.any fun p =>
    p.length == path.length && (p.zip path).all fun x => x.1 == ascii "*" || x.1 == x.2

inductive Fault where
  | floatingPoint
  | unsafeInteger
  | setLike
  deriving DecidableEq, Repr

/-- An error of `normalise`, with the path of its node. -/
structure NormaliseError where
  path : List Bytes
  fault : Fault
  deriving DecidableEq, Repr

def safeInteger (path : List Bytes) (n : Int) : Except NormaliseError Value :=
  if n < minSafeInt ∨ n > maxSafeInt then .error ⟨path, .unsafeInteger⟩ else .ok (.int64 n)

def normaliseNumber (path : List Bytes) (text : Bytes) : Except NormaliseError Value :=
  if text.any fun b => b = chr '.' || b = chr 'e' || b = chr 'E' then .error ⟨path, .floatingPoint⟩
  else
    match parseInt text with
    | some n => safeInteger path n
    | none => .error ⟨path, .unsafeInteger⟩

def normaliseFloat (path : List Bytes) : Float64 → Except NormaliseError Value
  | .nan => .error ⟨path, .floatingPoint⟩
  | .inf _ => .error ⟨path, .unsafeInteger⟩
  | .finite q => if q.den ≠ 1 then .error ⟨path, .floatingPoint⟩ else safeInteger path q.num

def Value.asStr : Value → Option Bytes
  | .str s => some s
  | _ => none

/-- The elements of a set-like array, sorted, each once. -/
def normaliseSet (path : List Bytes) (items : List Value) : Except NormaliseError Value :=
  match items.mapM Value.asStr with
  | none => .error ⟨path, .setLike⟩
  | some strs => .ok (.arr (((strs.insertionSort (· ≤ ·)).destutter (· ≠ ·)).map .str))

mutual

/-- A document with its integers checked and its sets in order. -/
def normalise (path : List Bytes) : Value → Except NormaliseError Value
  | .obj members => do return .obj (← normaliseMembers path members)
  | .arr items => do
    let out ← normaliseItems path 0 items
    if isSetLike path then normaliseSet path out else return .arr out
  | .number text => normaliseNumber path text
  | .float64 f => normaliseFloat path f
  | .int n => safeInteger path n
  | .null => .ok .null
  | .bool b => .ok (.bool b)
  | .int64 n => .ok (.int64 n)
  | .uint64 n => .ok (.uint64 n)
  | .str s => .ok (.str s)
  | .time t => .ok (.time t)

def normaliseMembers (path : List Bytes) :
    List (Bytes × Value) → Except NormaliseError (List (Bytes × Value))
  | [] => .ok []
  | (k, v) :: members => do
    let n ← normalise (path ++ [k]) v
    return (k, n) :: (← normaliseMembers path members)

/-- The loop over a slice, from an index on. -/
def normaliseItems (path : List Bytes) (i : ℕ) : List Value → Except NormaliseError (List Value)
  | [] => .ok []
  | v :: items => do
    let n ← normalise (path ++ [formatNat i]) v
    return n :: (← normaliseItems path (i + 1) items)

end

def escapeRune (r : ℕ) : Bytes :=
  if r = 0x22 then ascii "\\\""
  else if r = 0x5c then ascii "\\\\"
  else if r = 0x08 then ascii "\\b"
  else if r = 0x0c then ascii "\\f"
  else if r = 0x0a then ascii "\\n"
  else if r = 0x0d then ascii "\\r"
  else if r = 0x09 then ascii "\\t"
  else if r < 0x20 then
    ascii "\\u00" ++ [lowerHex (UInt8.ofNat (r / 0x10)), lowerHex (UInt8.ofNat (r % 0x10))]
  else encodeRune r

def escape (s : Bytes) : Bytes := 0x22 :: (runes s).flatMap escapeRune ++ [0x22]

/-- The order of keys: by their UTF-16 code units. -/
def keyLe (a b : Bytes) : Bool := utf16Encode (runes a) ≤ utf16Encode (runes b)

def sortKeys {α : Type} (members : List (Bytes × α)) : List (Bytes × α) :=
  members.insertionSort fun x y => keyLe x.1 y.1

/-- The Go type in the message of the panic. -/
inductive GoType where
  | int
  | uint64
  | float64
  | number
  | time
  deriving DecidableEq, Repr

/-- A member, if its value can be written. -/
def member (x : Bytes × Except GoType Bytes) : Except GoType Bytes := do
  return escape x.1 ++ 0x3a :: (← x.2)

mutual

/-- The canonical text, or the type that the writer panics on. -/
def serialise : Value → Except GoType Bytes
  | .null => .ok (ascii "null")
  | .bool b => .ok (if b then ascii "true" else ascii "false")
  | .int64 n => .ok (formatInt n)
  | .str s => .ok (escape s)
  | .arr items => do return 0x5b :: commas (← serialiseItems items) ++ [0x5d]
  | .obj members => do
    let parts ← (sortKeys (serialiseMembers members)).mapM member
    return 0x7b :: commas parts ++ [0x7d]
  | .int _ => .error .int
  | .uint64 _ => .error .uint64
  | .float64 _ => .error .float64
  | .number _ => .error .number
  | .time _ => .error .time

def serialiseItems : List Value → Except GoType (List Bytes)
  | [] => .ok []
  | v :: items => do
    let s ← serialise v
    return s :: (← serialiseItems items)

/-- What each member's value is written as, before the members are put in order. -/
def serialiseMembers : List (Bytes × Value) → List (Bytes × Except GoType Bytes)
  | [] => []
  | (k, v) :: members => (k, serialise v) :: serialiseMembers members

end

inductive Failure where
  | error (e : NormaliseError)
  | panic (type : GoType)
  deriving DecidableEq, Repr

/-- Two lower-case digits for each byte, as `%x` prints. -/
def hexString (s : Bytes) : Bytes :=
  s.flatMap fun b : UInt8 => [lowerHex (b >>> 4), lowerHex (b &&& 0xf)]

def canonicalText (doc : Value) : Except Failure Bytes := do
  let n ← (normalise [] doc).mapError .error
  (serialise n).mapError .panic

/-- The digest of a decoded document, over the hash function. -/
def digest (sum256 : Bytes → Bytes) (doc : Value) : Except Failure Bytes := do
  return hexString (sum256 (← canonicalText doc))

end Veduta.Canonical
