import Veduta.Go.Utf8
import Veduta.Lib.Percent

/-!
# JSON texts

Package `encoding/json`, as far as both of its decoders share it: the text is read into
a syntax tree that still has every member of every object, repeated or not, in the
order of the text.  What a repeated member means is up to the decoder.
-/

namespace Veduta.Go

open Lib

inductive Json where
  | null
  | bool (b : Bool)
  | num (text : Bytes)
  | str (s : Bytes)
  | arr (items : List Json)
  | obj (members : List (Bytes × Json))
  deriving Repr

def isJsonSpace (b : UInt8) : Bool := b = 0x20 || b = 0x09 || b = 0x0d || b = 0x0a

def skipSpace (s : Bytes) : Bytes := s.dropWhile isJsonSpace

def hex4 (a b c d : UInt8) : Option ℕ :=
  if isHex a && isHex b && isHex c && isHex d then
    some ((hexVal a).toNat * 0x1000 + (hexVal b).toNat * 0x100 + (hexVal c).toNat * 0x10 +
      (hexVal d).toNat)
  else none

/-- The code point of two surrogates. -/
def surrogatePair (hi lo : ℕ) : Option ℕ :=
  if 0xd800 ≤ hi ∧ hi < 0xdc00 ∧ 0xdc00 ≤ lo ∧ lo < 0xe000 then
    some (0x10000 + (hi - 0xd800) * 0x400 + (lo - 0xdc00))
  else none

/-- What a backslash and one letter stand for. -/
def simpleEscape (c : UInt8) : Option UInt8 :=
  if c = chr '"' ∨ c = chr '\\' ∨ c = chr '/' then some c
  else if c = chr 'b' then some 0x08
  else if c = chr 'f' then some 0x0c
  else if c = chr 'n' then some 0x0a
  else if c = chr 'r' then some 0x0d
  else if c = chr 't' then some 0x09
  else none

/-- A string up to its closing quote, with its escapes undone.  A surrogate that is not
the first of a pair becomes U+FFFD, and the escape after it is read on its own. -/
def stringLoop : Bytes → Option (Bytes × Bytes)
  | [] => none
  | 0x22 :: rest => some ([], rest)
  | 0x5c :: 0x75 :: a :: b :: c :: d :: rest => do
    let hi ← hex4 a b c d
    match rest with
    | 0x5c :: 0x75 :: a' :: b' :: c' :: d' :: rest' =>
      match (hex4 a' b' c' d').bind (surrogatePair hi) with
      | some r => do
        let (s, out) ← stringLoop rest'
        return (encodeRune r ++ s, out)
      | none => do
        let (s, out) ← stringLoop (0x5c :: 0x75 :: a' :: b' :: c' :: d' :: rest')
        return (encodeRune hi ++ s, out)
    | rest => do
      let (s, out) ← stringLoop rest
      return (encodeRune hi ++ s, out)
  | 0x5c :: c :: rest => do
    let e ← simpleEscape c
    let (s, out) ← stringLoop rest
    return (e :: s, out)
  | b :: rest =>
    if b < 0x20 then none
    else do
      let (s, out) ← stringLoop rest
      return (b :: s, out)

/-- A string after its opening quote.  Bytes that are not UTF-8 become U+FFFD; what an
escape stands for cannot complete them, so they are replaced at the end. -/
def parseString (s : Bytes) : Option (Bytes × Bytes) :=
  (stringLoop s).map fun x => (encodeRunes (runes x.1), x.2)

def digits1 (s : Bytes) : Option (Bytes × Bytes) :=
  match s.span isDigit with
  | ([], _) => none
  | x => some x

/-- An optional part of a number: kept if it starts as it should. -/
def numberSign (s : Bytes) : Bytes × Bytes :=
  match s with
  | 0x2d :: rest => ([0x2d], rest)
  | _ => ([], s)

def numberInt (s : Bytes) : Option (Bytes × Bytes) :=
  match s with
  | 0x30 :: rest => some ([0x30], rest)
  | _ => digits1 s

def numberFrac (s : Bytes) : Option (Bytes × Bytes) :=
  match s with
  | 0x2e :: rest => (digits1 rest).map fun x => (0x2e :: x.1, x.2)
  | _ => some ([], s)

def numberExp (s : Bytes) : Option (Bytes × Bytes) :=
  match s with
  | e :: rest =>
    if e = chr 'e' ∨ e = chr 'E' then
      match rest with
      | c :: rest' =>
        if c = chr '+' ∨ c = chr '-' then (digits1 rest').map fun x => (e :: c :: x.1, x.2)
        else (digits1 rest).map fun x => (e :: x.1, x.2)
      | [] => none
    else some ([], s)
  | [] => some ([], [])

def parseNumber (s : Bytes) : Option (Bytes × Bytes) := do
  let (sign, s) := numberSign s
  let (int, s) ← numberInt s
  let (frac, s) ← numberFrac s
  let (exp, s) ← numberExp s
  return (sign ++ int ++ frac ++ exp, s)

def maxNestingDepth : ℕ := 10000

mutual

/-- One value from the front of a text, and the text after it.  Every call reads a byte
or passes the text on to a function that does, so the fuel is twice the length. -/
def parseValue : ℕ → ℕ → Bytes → Option (Json × Bytes)
  | 0, _, _ => none
  | fuel + 1, depth, s =>
    match skipSpace s with
    | [] => none
    | b :: rest =>
      if b = chr '"' then (parseString rest).map fun x => (.str x.1, x.2)
      else if b = chr '[' then
        if maxNestingDepth < depth + 1 then none
        else
          match skipSpace rest with
          | 0x5d :: rest => some (.arr [], rest)
          | rest => (parseItems fuel (depth + 1) rest).map fun x => (.arr x.1, x.2)
      else if b = chr '{' then
        if maxNestingDepth < depth + 1 then none
        else
          match skipSpace rest with
          | 0x7d :: rest => some (.obj [], rest)
          | rest => (parseMembers fuel (depth + 1) rest).map fun x => (.obj x.1, x.2)
      else if hasPrefix (b :: rest) (ascii "null") then some (.null, rest.drop 3)
      else if hasPrefix (b :: rest) (ascii "true") then some (.bool true, rest.drop 3)
      else if hasPrefix (b :: rest) (ascii "false") then some (.bool false, rest.drop 4)
      else (parseNumber (b :: rest)).map fun x => (.num x.1, x.2)

/-- The items of an array up to its bracket; there is at least one. -/
def parseItems : ℕ → ℕ → Bytes → Option (List Json × Bytes)
  | 0, _, _ => none
  | fuel + 1, depth, s => do
    let (v, s) ← parseValue fuel depth s
    match skipSpace s with
    | 0x2c :: rest => do
      let (vs, s) ← parseItems fuel depth rest
      return (v :: vs, s)
    | 0x5d :: rest => return ([v], rest)
    | _ => none

/-- The members of an object up to its brace; there is at least one. -/
def parseMembers : ℕ → ℕ → Bytes → Option (List (Bytes × Json) × Bytes)
  | 0, _, _ => none
  | fuel + 1, depth, s =>
    match skipSpace s with
    | 0x22 :: rest => do
      let (key, s) ← parseString rest
      match skipSpace s with
      | 0x3a :: rest => do
        let (v, s) ← parseValue fuel depth rest
        match skipSpace s with
        | 0x2c :: rest => do
          let (members, s) ← parseMembers fuel depth rest
          return ((key, v) :: members, s)
        | 0x7d :: rest => return ([(key, v)], rest)
        | _ => none
      | _ => none
    | _ => none

end

/-- The first value of a text, as `Decoder.Decode` reads it, and what follows. -/
def decodeFirst (raw : Bytes) : Option (Json × Bytes) := parseValue (2 * raw.length + 2) 0 raw

/-- `json.Unmarshal`, up to the meaning of the tree: one value and nothing after it. -/
def unmarshalText (raw : Bytes) : Option Json :=
  match decodeFirst raw with
  | some (v, rest) => if skipSpace rest = [] then some v else none
  | none => none

end Veduta.Go
