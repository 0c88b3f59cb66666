import Veduta.Integrations.Limits
import Veduta.Lib.Document

/-!
# The manifest and lock schemas

The parts of `plugin-manifest.v1` and `integration-lock.v1` that say which routes,
limits and lock documents exist, written keyword by keyword.  Both schemas bound the
limits by the same definition, and their routes differ in one field, `reason`.
-/

namespace Veduta.Integrations

open Go Lib

def isLowerAlpha (b : UInt8) : Bool := 0x61 ≤ b && b ≤ 0x7a

def isUpperAlpha (b : UInt8) : Bool := 0x41 ≤ b && b ≤ 0x5a

/-- `^[a-z][a-z0-9_]{0,31}$` -/
def slotPattern : Bytes → Bool
  | [] => false
  | b :: rest =>
    isLowerAlpha b && rest.length ≤ 31 &&
      rest.all fun c => isLowerAlpha c || isDigit c || c == chr '_'

/-- `^[a-z0-9][a-z0-9-]{1,38}$` -/
def idPattern : Bytes → Bool
  | [] => false
  | b :: rest =>
    (isLowerAlpha b || isDigit b) && 1 ≤ rest.length && rest.length ≤ 38 &&
      rest.all fun c => isLowerAlpha c || isDigit c || c == chr '-'

/-- `^[a-f0-9]{64}$` -/
def digestPattern (s : Bytes) : Bool :=
  s.length == 64 && s.all fun b => (0x61 ≤ b && b ≤ 0x66) || isDigit b

/-- The byte class of a path pattern: letters, digits and sixteen marks. -/
def isPathByte (b : UInt8) : Bool :=
  isUpperAlpha b || isLowerAlpha b || isDigit b || (ascii "_~!$&'()+,;=:@/-").contains b

/-- `(?:[C]|[.*][C])*[.*]?$` over the class `C` above: a dot or a star stands between
two bytes of the class, or at the end. -/
def pathTail : Bytes → Bool
  | [] => true
  | [b] => isPathByte b || b == chr '.' || b == chr '*'
  | b :: c :: rest =>
    if isPathByte b then pathTail (c :: rest)
    else (b == chr '.' || b == chr '*') && isPathByte c && pathTail rest

/-- The pattern of a route's path: a `/`, and then `pathTail`. -/
def pathPattern : Bytes → Bool
  | 0x2f :: rest => pathTail rest
  | _ => false

def readEach : List (UInt8 → Bool) → Bytes → Option Bytes
  | [], s => some s
  | test :: tests, b :: s => if test b then readEach tests s else none
  | _ :: _, [] => none

/-- A template in which `0` stands for a digit and any other byte for itself. -/
def template (t : String) : List (UInt8 → Bool) :=
  (ascii t).map fun c => if c = chr '0' then isDigit else (· == c)

/-- `(Z|[+-][0-9]{2}:[0-9]{2})$` -/
def zonePattern : Bytes → Bool
  | [b] => b == chr 'Z'
  | b :: rest => (b == chr '+' || b == chr '-') && readEach (template "00:00") rest == some []
  | [] => false

/-- An RFC 3339 time, with an optional fraction of one to nine digits. -/
def approvedAtPattern (s : Bytes) : Bool :=
  match readEach (template "0000-00-00T00:00:00") s with
  | none => false
  | some (0x2e :: rest) =>
    let fraction := rest.takeWhile isDigit
    1 ≤ fraction.length && fraction.length ≤ 9 && zonePattern (rest.drop fraction.length)
  | some rest => zonePattern rest

/-- The properties that a route has in both schemas. -/
def routeProperties : List (Bytes × Schema) :=
  [(ascii "slot", .str slotPattern),
    (ascii "method", .enum
      [ascii "GET", ascii "HEAD", ascii "POST", ascii "PUT", ascii "PATCH", ascii "DELETE"]),
    (ascii "path", .str fun s => maxLength 512 s && pathPattern s),
    (ascii "use", .enum [ascii "data", ascii "asset"]),
    (ascii "queryKeys", .array (fun items => items.length ≤ 16) (.str (maxLength 64))),
    (ascii "contentType", .str (maxLength 128)),
    (ascii "maxBodyKB", .integer 1 1024)]

/-- `integration-lock.v1 #/$defs/route`. -/
def lockRouteSchema : Schema :=
  .object [ascii "slot", ascii "method", ascii "path"] routeProperties

/-- `plugin-manifest.v1 #/$defs/route`. -/
def manifestRouteSchema : Schema :=
  .object [ascii "slot", ascii "method", ascii "path"]
    (routeProperties ++ [(ascii "reason", .str (maxLength 160))])

def LimitField.minimum : LimitField → Int
  | .timeoutMs => 100
  | .cacheEntries => 0
  | _ => 1

/-- `plugin-manifest.v1 #/$defs/limits`. -/
def limitsSchema : Schema :=
  .object [] (limitFieldOrder.map fun f => (f.name, .integer f.minimum (limitBounds f).max))

/-- One entry of the lock's `integrations`. -/
def lockEntrySchema : Schema :=
  .both
    (.object
      [ascii "manifestSha256", ascii "approvedAt", ascii "capabilities", ascii "routes",
        ascii "effectiveLimits"]
      [(ascii "manifestSha256", .str digestPattern),
        (ascii "moduleSha256", .str digestPattern),
        (ascii "version", .str fun _ => true),
        (ascii "runtime", .enum [ascii "builtin", ascii "declarative", ascii "wasm"]),
        (ascii "approvedAt", .str approvedAtPattern),
        (ascii "approvedBy", .str (maxLength 64)),
        (ascii "capabilities", .array uniqueStrings
          (.enum [ascii "http", ascii "cache", ascii "assets", ascii "log", ascii "events"])),
        (ascii "routes", .array (fun items => items.length ≤ 64) lockRouteSchema),
        (ascii "limits", limitsSchema),
        (ascii "effectiveLimits",
          .both limitsSchema (.requires (limitFieldOrder.map LimitField.name)))])
    (.ifThen
      (.both (.property (ascii "runtime") (.enum [ascii "wasm"])) (.requires [ascii "runtime"]))
      (.requires [ascii "moduleSha256"]))

/-- `integration-lock.v1`. -/
def lockSchema : Schema :=
  .object [ascii "version", ascii "integrations"]
    [(ascii "version", .constInt 1),
      (ascii "integrations", .dict idPattern lockEntrySchema)]

end Veduta.Integrations
