import Veduta.Go.Duration
import Veduta.Go.JsonWrite

/-!
# Values as text

`fmt.Sprint` for the types that the program prints, and `time.Duration.String`.
-/

namespace Veduta.Go

def sprintBool (b : Bool) : Bytes := if b then ascii "true" else ascii "false"

/-- A positive double: with an exponent of two digits or more below `1e-4` and from `1e6` on. -/
def sprintPositive (a : ℚ) : Bytes :=
  let (n, exp) := shortestDigits a 18 0
  let (n, exp) := trimZeros 20 n.toNat exp
  let digits := formatNat n
  let point := digits.length + exp
  if point < -3 ∨ 6 < point then
    let exponent := formatNat (point - 1).natAbs
    placePoint digits 1 ++ chr 'e' :: (if point ≤ 0 then chr '-' else chr '+') ::
      (if exponent.length < 2 then chr '0' :: exponent else exponent)
  else placePoint digits point

/-- The verb `%v` for a finite double other than negative zero. -/
def sprintFloat (q : ℚ) : Bytes :=
  if q = 0 then ascii "0"
  else if 0 < q then sprintPositive q
  else chr '-' :: sprintPositive (-q)

example : ([5, 1 / 2, 1 / 10 ^ 5, 10 ^ 6, 123456] : List ℚ).map
      (fun q => (toFloat64 q).map sprintFloat) =
    [ascii "5", ascii "0.5", ascii "1e-05", ascii "1e+06", ascii "123456"].map some := by
  decide +kernel

/-- The digits below a unit of `10 ^ places` after a point, without trailing zeros. -/
def durationFraction (v places : ℕ) : Bytes :=
  let kept := trimDigits (padNat places (v % 10 ^ places))
  if kept = [] then [] else chr '.' :: kept

/-- `time.Duration.String`. -/
def durationString (d : ℤ) : Bytes :=
  let u := d.natAbs
  let text :=
    if u = 0 then ascii "0s"
    else if u < 10 ^ 3 then formatNat u ++ ascii "ns"
    else if u < 10 ^ 6 then formatNat (u / 10 ^ 3) ++ durationFraction u 3 ++ [0xc2, 0xb5, 0x73]
    else if u < 10 ^ 9 then formatNat (u / 10 ^ 6) ++ durationFraction u 6 ++ ascii "ms"
    else
      let s := u / 10 ^ 9
      (if 3600 ≤ s then formatNat (s / 3600) ++ ascii "h" else []) ++
        (if 60 ≤ s then formatNat (s / 60 % 60) ++ ascii "m" else []) ++
        formatNat (s % 60) ++ durationFraction u 9 ++ ascii "s"
  if d < 0 then chr '-' :: text else text

example : durationString (10 * second) = ascii "10s" ∧
    durationString (3600 * second + 1500000000) = ascii "1h0m1.5s" ∧
    durationString (-250000) = chr '-' :: ascii "250" ++ [0xc2, 0xb5, 0x73] := by
  decide +kernel

end Veduta.Go
