import Veduta.Go.Strings

/-!
# Base64

Package `encoding/base64`: `RawURLEncoding`, the alphabet of URLs, `RawStdEncoding`, and
`StdEncoding`, which pads what it writes.  Decoding passes over line breaks and does not look at
the bits that the last digit has too many, unless the encoding is strict.
-/

namespace Veduta.Go

/-- The digit for a value below sixty-four; the alphabets differ in the last two. -/
def base64Digit (digit62 digit63 n : UInt8) : UInt8 :=
  if n < 26 then 0x41 + n
  else if n < 52 then 0x61 + (n - 26)
  else if n < 62 then 0x30 + (n - 52)
  else if n = 62 then digit62 else digit63

def base64URLValue (b : UInt8) : Option UInt8 :=
  if 0x41 ≤ b ∧ b ≤ 0x5a then some (b - 0x41)
  else if 0x61 ≤ b ∧ b ≤ 0x7a then some (b - 0x61 + 26)
  else if 0x30 ≤ b ∧ b ≤ 0x39 then some (b - 0x30 + 52)
  else if b = chr '-' then some 62
  else if b = chr '_' then some 63
  else none

def base64Digits (digit : UInt8 → UInt8) : Bytes → Bytes
  | a :: b :: c :: rest =>
    digit (a >>> 2) :: digit ((a &&& 3) <<< 4 ||| b >>> 4) ::
      digit ((b &&& 0xf) <<< 2 ||| c >>> 6) :: digit (c &&& 0x3f) :: base64Digits digit rest
  | [a, b] =>
    [digit (a >>> 2), digit ((a &&& 3) <<< 4 ||| b >>> 4), digit ((b &&& 0xf) <<< 2)]
  | [a] => [digit (a >>> 2), digit ((a &&& 3) <<< 4)]
  | [] => []

/-- `RawURLEncoding.EncodeToString`. -/
def encodeBase64URL : Bytes → Bytes := base64Digits (base64Digit (chr '-') (chr '_'))

/-- `StdEncoding.EncodeToString`. -/
def encodeBase64Std (s : Bytes) : Bytes :=
  let digits := base64Digits (base64Digit (chr '+') (chr '/')) s
  digits ++ List.replicate ((4 - digits.length % 4) % 4) (chr '=')

def base64Bytes : List UInt8 → Option Bytes
  | a :: b :: c :: d :: rest => do
    let rest ← base64Bytes rest
    return (a <<< 2 ||| b >>> 4) :: (b <<< 4 ||| c >>> 2) :: (c <<< 6 ||| d) :: rest
  | [a, b, c] => some [a <<< 2 ||| b >>> 4, b <<< 4 ||| c >>> 2]
  | [a, b] => some [a <<< 2 ||| b >>> 4]
  | [_] => none
  | [] => some []

/-- `RawURLEncoding.DecodeString`. -/
def decodeBase64URL (s : Bytes) : Option Bytes := do
  let values ← (s.filter fun b => b ≠ 0x0a && b ≠ 0x0d).mapM base64URLValue
  base64Bytes values

example : ([ascii "", ascii "f", ascii "fo", ascii "foo", [0xfb, 0xff]].map encodeBase64URL) =
      [ascii "", ascii "Zg", ascii "Zm8", ascii "Zm9v", ascii "-_8"] ∧
    encodeBase64Std (ascii "f") = ascii "Zg==" ∧
    decodeBase64URL (ascii "Zm\n9v") = some (ascii "foo") ∧
    decodeBase64URL (ascii "Zg=") = none := by
  decide

def base64StdValue (b : UInt8) : Option UInt8 :=
  if b = chr '+' then some 62
  else if b = chr '/' then some 63
  else if b = chr '-' ∨ b = chr '_' then none
  else base64URLValue b

/-- The bits of the last digit that no byte takes. -/
def base64Spare : List UInt8 → UInt8
  | _ :: _ :: _ :: _ :: rest => base64Spare rest
  | [_, _, c] => c &&& 3
  | [_, b] => b &&& 0xf
  | _ => 0

/-- `RawStdEncoding.Strict().DecodeString`. -/
def decodeBase64Strict (s : Bytes) : Option Bytes := do
  let values ← (s.filter fun b => b ≠ 0x0a && b ≠ 0x0d).mapM base64StdValue
  if base64Spare values = 0 then base64Bytes values else none

example : decodeBase64Strict (ascii "Zm8") = some (ascii "fo") ∧
    decodeBase64Strict (ascii "Zm9") = none := by
  decide

end Veduta.Go
