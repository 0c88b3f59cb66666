import Veduta.Go.Time

/-!
# Durations as text

`strconv.ParseUint` for 32 bits and `time.ParseDuration`: a sign, and terms of a number with a
unit.  A sum is taken with 64 bits, so two terms of `2 ^ 63` nanoseconds are none.  The source
multiplies the fraction of a term in floating point; here it is exact.
-/

namespace Veduta.Go

/-- `strconv.ParseUint(s, 10, 32)`. -/
def parseUint32 (s : Bytes) : Option ℕ := (decimalValue s).filter fun n => n < 2 ^ 32

/-- The nanoseconds of a unit; a microsecond may be written with either letter mu. -/
def durationUnit (u : Bytes) : Option ℕ :=
  if u = ascii "ns" then some 1
  else if u = ascii "us" ∨ u = [0xc2, 0xb5, 0x73] ∨ u = [0xce, 0xbc, 0x73] then some (10 ^ 3)
  else if u = ascii "ms" then some (10 ^ 6)
  else if u = ascii "s" then some (10 ^ 9)
  else if u = ascii "m" then some (60 * 10 ^ 9)
  else if u = ascii "h" then some (3600 * 10 ^ 9)
  else none

/-- The digits after the point as a number, and the power of ten below it; further digits are
passed over once the number is too large. -/
def leadingFraction (digits : Bytes) : ℕ × ℕ :=
  let (f, scale, _) := digits.foldl
    (fun (f, scale, overflow) b =>
      let next := f * 10 + digitValue b
      if overflow ∨ f > (2 ^ 63 - 1) / 10 ∨ next > 2 ^ 63 then (f, scale, true)
      else (next, scale * 10, false))
    (0, 1, false)
  (f, scale)

def fractionDigits : Bytes → Bytes × Bytes
  | c :: rest =>
    if c = chr '.' then (rest.takeWhile isDigit, rest.dropWhile isDigit) else ([], c :: rest)
  | [] => ([], [])

/-- One term, and what follows it. -/
def durationTerm (s : Bytes) : Option (ℕ × Bytes) := do
  let digits := s.takeWhile isDigit
  let v := digits.foldl (fun n b => n * 10 + digitValue b) 0
  let (fraction, rest) := fractionDigits (s.dropWhile isDigit)
  let u := rest.takeWhile fun c => c ≠ chr '.' && !isDigit c
  if v > 2 ^ 63 ∨ digits = [] ∧ fraction = [] then none
  else
    let unit ← durationUnit u
    let (f, scale) := leadingFraction fraction
    let total := v * unit + f * unit / scale
    if v > 2 ^ 63 / unit ∨ total > 2 ^ 63 then none else some (total, rest.drop u.length)

/-- The sum of the terms; every term takes at least a byte. -/
def durationTerms : ℕ → ℕ → Bytes → Option ℕ
  | _, d, [] => some d
  | 0, _, _ => none
  | fuel + 1, d, s => do
    let (v, rest) ← durationTerm s
    let d := (d + v) % 2 ^ 64
    if d > 2 ^ 63 then none else durationTerms fuel d rest

def durationSign : Bytes → Bool × Bytes
  | c :: rest =>
    if c = chr '-' then (true, rest) else if c = chr '+' then (false, rest) else (false, c :: rest)
  | [] => (false, [])

/-- `time.ParseDuration`; `none` is any of its errors. -/
def parseDuration (s : Bytes) : Option ℤ := do
  let (neg, s) := durationSign s
  if s = ascii "0" then some 0
  else if s = [] then none
  else
    let d ← durationTerms s.length 0 s
    if neg then some (-d) else if d > 2 ^ 63 - 1 then none else some d

example : parseDuration (ascii "1h30m") = some (90 * minute) ∧
    parseDuration (ascii "-1.5s") = some (-1500000000) ∧ parseDuration (ascii "5") = none := by
  decide +kernel

end Veduta.Go
