import Veduta.Go.Map
import Veduta.Lib.Percent

/-!
# Media types

Package `mime`: parsing and formatting of a media type with its parameters,
including the RFC 2231 continuations (`name*0`, `name*`).  The parameter loop
recurses on fuel, its input's length: every turn consumes a byte.
-/

namespace Veduta.Go.Mime

open Lib

/-- What `ParseMediaType` may reject. -/
inductive Error where
  | noMediaType
  | expectedSlash
  | expectedToken
  | unexpectedContent
  | invalidMediaParameter
  | duplicateParameterName
  deriving DecidableEq, Repr

/-- The `tspecials` of RFC 2045. -/
def isTSpecial (b : UInt8) : Bool := (ascii "()<>@,;:\\\"/[]?=").contains b

/-- A byte of a token: printable ASCII, no space and no `tspecials`. -/
def isTokenChar (b : UInt8) : Bool := 0x20 < b && b < 0x7f && !isTSpecial b

def isToken (s : Bytes) : Bool := s != [] && s.all isTokenChar

/-- The longest leading token, possibly empty, and the rest. -/
def consumeToken (v : Bytes) : Bytes × Bytes := v.span isTokenChar

/-- The body of a quoted string, after its opening quote; `none` when it does not
end.  A backslash is an escape only before a `tspecials` byte. -/
def quotedLoop : Bytes → Bytes → Option (Bytes × Bytes)
  | [], _ => none
  | [r], buffer => if r = chr '"' then some (buffer, []) else none
  | r :: next :: rest, buffer =>
    if r = chr '"' then some (buffer, next :: rest)
    else if r = chr '\\' ∧ isTSpecial next = true then quotedLoop rest (buffer ++ [next])
    else if r = 0x0d ∨ r = 0x0a then none
    else quotedLoop (next :: rest) (buffer ++ [r])

/-- A token or a quoted string. -/
def consumeValue (v : Bytes) : Bytes × Bytes :=
  match v with
  | [] => ([], [])
  | b :: rest =>
    if b ≠ chr '"' then consumeToken v
    else (quotedLoop rest []).getD ([], v)

/-- One `; name = value`; an empty name says there was none, and then the rest is the
input. -/
def consumeMediaParam (v : Bytes) : Bytes × Bytes × Bytes :=
  match trimLeftSpace v with
  | 0x3b :: rest =>
    let (param, rest) := consumeToken (trimLeftSpace rest)
    let param := toLower param
    if param = [] then ([], [], v)
    else
      match trimLeftSpace rest with
      | 0x3d :: rest =>
        let rest := trimLeftSpace rest
        let (value, rest2) := consumeValue rest
        if value = [] ∧ rest2 = rest then ([], [], v) else (param, value, rest2)
      | _ => ([], [], v)
  | _ => ([], [], v)

/-- The type must be a token, or two with a `/` between them. -/
def checkMediaTypeDisposition (s : Bytes) : Except Error Unit :=
  let (typ, rest) := consumeToken s
  if typ = [] then .error .noMediaType
  else if rest = [] then .ok ()
  else
    match rest with
    | 0x2f :: rest =>
      let (subtype, rest) := consumeToken rest
      if subtype = [] then .error .expectedToken
      else if rest ≠ [] then .error .unexpectedContent
      else .ok ()
    | _ => .error .expectedSlash

/-- Store a parameter; a repeated name must repeat its value. -/
def putParam (pmap : GoMap Bytes Bytes) (key value : Bytes) : Except Error (GoMap Bytes Bytes) :=
  if (pmap.lookup key).any (· != value) then .error .duplicateParameterName
  else .ok (pmap.insert key value)

/-- The parameters so far, and the pieces of continued ones by base name. -/
structure Params where
  plain : GoMap Bytes Bytes := ∅
  continuation : GoMap Bytes (GoMap Bytes Bytes) := ∅

/-- Store a parameter under its name, or under its base name if it is a piece. -/
def Params.put (ps : Params) (key value : Bytes) : Except Error Params :=
  match cut key (chr '*') with
  | (_, _, false) => (putParam ps.plain key value).map fun m => { ps with plain := m }
  | (baseName, _, true) =>
    (putParam (ps.continuation.get ∅ baseName) key value).map fun m =>
      { ps with continuation := ps.continuation.insert baseName m }

def paramLoop : ℕ → Bytes → Params → Except Error Params
  | 0, _, ps => .ok ps
  | fuel + 1, v, ps =>
    let v := trimLeftSpace v
    if v = [] then .ok ps
    else
      let (key, value, rest) := consumeMediaParam v
      if key = [] then
        if trimSpace rest = ascii ";" then .ok ps else .error .invalidMediaParameter
      else
        match ps.put key value with
        | .error e => .error e
        | .ok ps => paramLoop fuel rest ps

/-- `charset'language'escaped`, in one of the two known charsets. -/
def decode2231Enc (v : Bytes) : Option Bytes :=
  match cut v (chr '\'') with
  | (_, _, false) => none
  | (charset, rest, true) =>
    match cut rest (chr '\'') with
    | (_, _, false) => none
    | (_, encoded, true) =>
      let charset := toLower charset
      if charset ≠ ascii "us-ascii" ∧ charset ≠ ascii "utf-8" then none else unescape encoded

/-- The name of piece `n`, as `fmt.Sprintf("%s*%d", key, n)` writes it. -/
def pieceName (key : Bytes) (n : ℕ) : Bytes :=
  key ++ [chr '*'] ++ (Nat.toDigits 10 n).map chr

/-- The loop over the pieces of one continued parameter: each step looks up a piece
of its own, so there are at most as many steps as pieces. -/
def pieceLoop (key : Bytes) (pieces : GoMap Bytes Bytes) : ℕ → ℕ → Bytes → Bool → Bytes × Bool
  | 0, _, buf, valid => (buf, valid)
  | fuel + 1, n, buf, valid =>
    match pieces.lookup (pieceName key n) with
    | some v => pieceLoop key pieces fuel (n + 1) (buf ++ v) true
    | none =>
      match pieces.lookup (pieceName key n ++ [chr '*']) with
      | none => (buf, valid)
      | some v =>
        let decv := if n = 0 then decode2231Enc v else unescape v
        pieceLoop key pieces fuel (n + 1) (buf ++ decv.getD []) true

/-- One continued parameter, decoded into the plain ones. -/
def stitch (params : GoMap Bytes Bytes) (key : Bytes) (pieces : GoMap Bytes Bytes) :
    GoMap Bytes Bytes :=
  match pieces.lookup (key ++ [chr '*']) with
  | some v =>
    match decode2231Enc v with
    | some decv => params.insert key decv
    | none => params
  | none =>
    match pieceLoop key pieces pieces.entries.length 0 [] false with
    | (buf, true) => params.insert key buf
    | (_, false) => params

/-- `mime.ParseMediaType`. -/
def parseMediaType (v : Bytes) : Except Error (Bytes × GoMap Bytes Bytes) :=
  let base := (cut v (chr ';')).1
  let mediatype := trimSpace (toLower base)
  match checkMediaTypeDisposition mediatype with
  | .error e => .error e
  | .ok () =>
    let v := v.drop base.length
    match paramLoop v.length v {} with
    | .error e => .error e
    | .ok ps =>
      .ok (mediatype, ps.continuation.entries.foldl (fun m x => stitch m x.1 x.2) ps.plain)

/-- A value that only the RFC 2231 form can carry. -/
def needsEncoding (value : Bytes) : Bool := value.any fun b => (b < 0x20 || b > 0x7e) && b != 0x09

/-- A value in the RFC 2231 form. -/
def encodeValue (value : Bytes) : Bytes :=
  value.flatMap fun ch =>
    if ch ≤ 0x20 || ch ≥ 0x7f || ch == chr '*' || ch == chr '\'' || ch == chr '%' || isTSpecial ch
    then [percent, upperHex (ch >>> 4), upperHex (ch &&& 0xf)] else [ch]

def quoteValue (value : Bytes) : Bytes :=
  [chr '"'] ++
    value.flatMap (fun ch => if ch == chr '"' || ch == chr '\\' then [chr '\\', ch] else [ch]) ++
    [chr '"']

/-- One parameter as `FormatMediaType` writes it; `none` for a name that is no token. -/
def formatParam (attr value : Bytes) : Option Bytes :=
  if !isToken attr then none
  else
    let name := ascii "; " ++ toLower attr
    if needsEncoding value then some (name ++ ascii "*=utf-8''" ++ encodeValue value)
    else if isToken value then some (name ++ ascii "=" ++ value)
    else some (name ++ ascii "=" ++ quoteValue value)

def formatType (t : Bytes) : Option Bytes :=
  match cut t (chr '/') with
  | (_, _, false) => if isToken t then some (toLower t) else none
  | (major, sub, true) =>
    if isToken major && isToken sub then some (toLower major ++ [chr '/'] ++ toLower sub)
    else none

/-- `mime.FormatMediaType`: the parameters in order of their names; the empty string
for a type or name it cannot write. -/
def formatMediaType (t : Bytes) (params : GoMap Bytes Bytes) : Bytes :=
  let attributes := params.keys.insertionSort (· ≤ ·)
  match formatType t, attributes.mapM (fun a => formatParam a (params.get [] a)) with
  | some type, some written => type ++ written.flatten
  | _, _ => []

end Veduta.Go.Mime
