import Veduta.Go.Query
import Veduta.Go.Replace
import Veduta.Go.Strconv

/-!
# URLs as text

`URL.String` and the error that an HTTP client returns when a request cannot be sent: it quotes
the whole URL, without a password but with the query.
-/

namespace Veduta.Go

open Lib

/-- The bytes that are escaped in a host: a port and an address in brackets are part of it. -/
def shouldEscapeHost (b : UInt8) : Bool :=
  !(isUnreserved b || [0x21, 0x22, 0x24, 0x26, 0x27, 0x28, 0x29, 0x2a, 0x2b, 0x2c, 0x3a, 0x3b,
    0x3c, 0x3d, 0x3e, 0x5b, 0x5d].contains b)

def shouldEscapeUser (b : UInt8) : Bool :=
  !(isUnreserved b || [0x24, 0x26, 0x2b, 0x2c, 0x3b, 0x3d].contains b)

def Userinfo.string (u : Userinfo) : Bytes :=
  escapeWith shouldEscapeUser u.username ++
    if u.passwordSet then chr ':' :: escapeWith shouldEscapeUser u.password else []

namespace URL

/-- The authority with its slashes, if there is one to write. -/
def authorityText (u : URL) : Bytes :=
  if u.scheme = [] ∧ u.host = [] ∧ u.user = none then []
  else if u.omitHost ∧ u.host = [] ∧ u.user = none then []
  else
    (if u.host ≠ [] ∨ u.path ≠ [] ∨ u.user.isSome then ascii "//" else []) ++
      (u.user.elim [] fun user => user.string ++ [chr '@']) ++ escapeWith shouldEscapeHost u.host

/-- What stands before the query. -/
def hierarchyText (u : URL) : Bytes :=
  let start := if u.scheme = [] then [] else u.scheme ++ [chr ':']
  if u.opaquePart ≠ [] then start ++ u.opaquePart
  else
    let path := u.escapedPath
    let start := start ++ u.authorityText
    let start := if path ≠ [] ∧ path.head? ≠ some slash ∧ u.host ≠ [] then start ++ [slash] else start
    if start = [] ∧ (cut path slash).1.contains (chr ':') then ascii "./" ++ path
    else start ++ path

def fragmentText (u : URL) : Bytes :=
  if u.fragment = [] then []
  else chr '#' ::
    if u.rawFragment ≠ [] ∧ unescape u.rawFragment = some u.fragment then u.rawFragment
    else escapeWith shouldEscapeFragment u.fragment

/-- `URL.String`. -/
def string (u : URL) : Bytes :=
  u.hierarchyText ++ (if u.forceQuery ∨ u.rawQuery ≠ [] then chr '?' :: u.rawQuery else []) ++
    u.fragmentText

example : ({ scheme := ascii "http", host := ascii "nas:80", path := ascii "/a b",
             rawQuery := ascii "k=v" } : URL).string = ascii "http://nas:80/a%20b?k=v" := by
  decide +kernel

end URL

end Veduta.Go
