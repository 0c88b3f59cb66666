import Veduta.Go.JsonValue

/-!
# Writing JSON

`json.Marshal`, from a value to its text.  Strings are escaped for HTML as well, and a byte
that is not valid UTF-8 is written as U+FFFD.  A number is written as a double: with the
fewest digits that read back as the same double.
-/

namespace Veduta.Go

def hexDigit (d : ℕ) : UInt8 := if d < 10 then UInt8.ofNat (0x30 + d) else UInt8.ofNat (0x57 + d)

/-- A code unit as an escape of four hexadecimal digits. -/
def unicodeEscape (r : ℕ) : Bytes :=
  ascii "\\u" ++ [hexDigit (r / 0x1000 % 16), hexDigit (r / 0x100 % 16), hexDigit (r / 16 % 16),
    hexDigit (r % 16)]

def quoteRune (r : ℕ) : Bytes :=
  if r = 0x22 then ascii "\\\""
  else if r = 0x5c then ascii "\\\\"
  else if r = 0x08 then ascii "\\b"
  else if r = 0x0c then ascii "\\f"
  else if r = 0x0a then ascii "\\n"
  else if r = 0x0d then ascii "\\r"
  else if r = 0x09 then ascii "\\t"
  else if r < 0x20 ∨ r = 0x3c ∨ r = 0x3e ∨ r = 0x26 ∨ r = 0x2028 ∨ r = 0x2029 then unicodeEscape r
  else encodeRune r

/-- The loop, with the number of bytes that the last character still covers. -/
def quoteLoop : ℕ → Bytes → Bytes
  | _, [] => []
  | skip + 1, _ :: rest => quoteLoop skip rest
  | 0, b :: rest =>
    let (r, tail) := decodeRune b rest
    -- an invalid byte is one that decodes to U+FFFD alone
    (if r = runeError ∧ tail = 0 then unicodeEscape runeError else quoteRune r) ++
      quoteLoop tail rest

def quoteJson (s : Bytes) : Bytes := chr '"' :: quoteLoop 0 s ++ [chr '"']

/-- The nearer to `a` of two numbers of units that read back as `a`. -/
def nearerUnits (a unit : ℚ) (n : ℤ) : Option ℤ :=
  let reads (k : ℤ) : Bool := toFloat64 (k * unit) = some a
  if reads n && (!reads (n + 1) || a - n * unit ≤ (n + 1) * unit - a) then some n
  else if reads (n + 1) then some (n + 1)
  else none

/-- The digits of a positive double, with the power of ten of the last one: as few as read
back, from a count on. -/
def shortestDigits (a : ℚ) : ℕ → ℕ → ℤ × ℤ
  | 0, _ => (⌊a⌋, 0)
  | fuel + 1, count =>
    let exp := Int.log 10 a - count
    match nearerUnits a (10 ^ exp) ⌊a / 10 ^ exp⌋ with
    | some n => (n, exp)
    | none => shortestDigits a fuel (count + 1)

/-- The digits without trailing zeros. -/
def trimZeros : ℕ → ℕ → ℤ → ℕ × ℤ
  | 0, n, exp => (n, exp)
  | fuel + 1, n, exp => if n % 10 = 0 ∧ n ≠ 0 then trimZeros fuel (n / 10) (exp + 1) else (n, exp)

/-- Digits with a decimal point after the given count, or before them if it is not positive. -/
def placePoint (digits : Bytes) (point : ℤ) : Bytes :=
  if point ≤ 0 then ascii "0." ++ List.replicate (-point).toNat (chr '0') ++ digits
  else if digits.length ≤ point then
    digits ++ List.replicate (point.toNat - digits.length) (chr '0')
  else digits.take point.toNat ++ chr '.' :: digits.drop point.toNat

/-- A positive double: with an exponent below `1e-6` and from `1e21` on. -/
def formatPositive (a : ℚ) : Bytes :=
  let (n, exp) := shortestDigits a 18 0
  let (n, exp) := trimZeros 20 n.toNat exp
  let digits := formatNat n
  let point := digits.length + exp
  if point < -5 ∨ 21 < point then
    placePoint digits 1 ++ chr 'e' :: (if point ≤ 0 then ascii "-" else ascii "+") ++
      formatNat (point - 1).natAbs
  else placePoint digits point

/-- A number as the encoder writes a `float64`. -/
def formatFloat64 (q : ℚ) : Bytes :=
  if q = 0 then ascii "0"
  else if 0 < q then formatPositive q
  else chr '-' :: formatPositive (-q)

example : ([-1 / 4, 3 / 10 ^ 7, 10 ^ 21, 123 / 100] : List ℚ).map
      (fun q => (toFloat64 q).map formatFloat64) =
    [ascii "-0.25", ascii "3e-7", ascii "1e+21", ascii "1.23"].map some := by
  decide +kernel

mutual

/-- The text of a value, its members in the order they have. -/
def JVal.write : JVal → Bytes
  | .null => ascii "null"
  | .bool b => if b then ascii "true" else ascii "false"
  | .num q => formatFloat64 q
  | .str s => quoteJson s
  | .arr items => chr '[' :: commas (writeItems items) ++ [chr ']']
  | .obj members => 0x7b :: commas (writeMembers members) ++ [0x7d]

def writeItems : List JVal → List Bytes
  | [] => []
  | v :: items => v.write :: writeItems items

def writeMembers : List (Bytes × JVal) → List Bytes
  | [] => []
  | (k, v) :: members => (quoteJson k ++ chr ':' :: v.write) :: writeMembers members

end

end Veduta.Go
