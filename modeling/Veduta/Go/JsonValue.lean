import Mathlib.Algebra.Order.Round
import Mathlib.Tactic.GCongr
import Mathlib.Tactic.NormNum.Pow
import Mathlib.Algebra.Order.Field.Power
import Mathlib.Data.Int.Log
import Mathlib.Data.Rat.Floor
import Mathlib.Tactic.Positivity
import Veduta.Go.Json
import Veduta.Go.Strconv

/-!
# JSON values

What a JSON text denotes.  A number of a text is a rational; a Go `float64` is the
nearest double to it, ties to even.  A generic decode keeps the last of several members
with one name.
-/

namespace Veduta.Go

inductive JVal where
  | null
  | bool (b : Bool)
  | num (q : ℚ)
  | str (s : Bytes)
  | arr (items : List JVal)
  | obj (members : List (Bytes × JVal))
  deriving Repr

mutual

/-- The strings of a value: its texts, and the names of its members. -/
def JVal.strings : JVal → List Bytes
  | .str s => [s]
  | .arr items => stringsItems items
  | .obj members => stringsMembers members
  | _ => []

def stringsItems : List JVal → List Bytes
  | [] => []
  | v :: items => v.strings ++ stringsItems items

def stringsMembers : List (Bytes × JVal) → List Bytes
  | [] => []
  | (k, v) :: members => k :: (v.strings ++ stringsMembers members)

end

def digitsValue (s : Bytes) : ℕ := s.foldl (fun n b => n * 10 + (b.toNat - 0x30)) 0

/-- An exponent, after its letter. -/
def exponentValue : Bytes → ℤ
  | 0x2d :: rest => -(digitsValue rest : ℤ)
  | 0x2b :: rest => digitsValue rest
  | s => digitsValue s

/-- The rational that the text of a number denotes. -/
def numberValue (text : Bytes) : ℚ :=
  let (sign, s) := numberSign text
  let (int, s) := s.span isDigit
  let (frac, s) :=
    match s with
    | 0x2e :: rest => rest.span isDigit
    | _ => ([], s)
  let exp := exponentValue (s.drop 1)
  (if sign = [] then 1 else -1) * digitsValue (int ++ frac) * 10 ^ (exp - frac.length)

/-- The nearest integer, ties to even. -/
def roundEven (x : ℚ) : ℤ :=
  if x - ⌊x⌋ < 1 / 2 then ⌊x⌋
  else if 1 / 2 < x - ⌊x⌋ then ⌊x⌋ + 1
  else if ⌊x⌋ % 2 = 0 then ⌊x⌋ else ⌊x⌋ + 1

/-- The exponent of the last bit that a double near `a` has. -/
def ulpExponent (a : ℚ) : ℤ := max (Int.log 2 a) (-1022) - 52

/-- A positive rational, rounded to the doubles. -/
def roundFloat64 (a : ℚ) : ℚ := roundEven (a / 2 ^ ulpExponent a) * 2 ^ ulpExponent a

/-- The double nearest to a rational; `none` is a range error. -/
def toFloat64 (q : ℚ) : Option ℚ :=
  if q = 0 then some 0
  else if 2 ^ 1024 ≤ roundFloat64 |q| then none
  else some (if 0 < q then roundFloat64 |q| else -roundFloat64 |q|)

mutual

/-- A text as a value: the last member of a name stays. -/
def Json.generic : Json → JVal
  | .null => .null
  | .bool b => .bool b
  | .num text => .num (numberValue text)
  | .str s => .str s
  | .arr items => .arr (genericItems items)
  | .obj members => .obj (genericMembers members)

def genericItems : List Json → List JVal
  | [] => []
  | v :: items => v.generic :: genericItems items

def genericMembers : List (Bytes × Json) → List (Bytes × JVal)
  | [] => []
  | (k, v) :: members =>
    let rest := genericMembers members
    if (rest.lookup k).isSome then rest else (k, v.generic) :: rest

end

mutual

/-- Decoding into an empty interface: numbers become doubles, or the decode fails. -/
def Json.interface : Json → Option JVal
  | .null => some .null
  | .bool b => some (.bool b)
  | .num text => (toFloat64 (numberValue text)).map .num
  | .str s => some (.str s)
  | .arr items => (interfaceItems items).map .arr
  | .obj members => (interfaceMembers members).map .obj

def interfaceItems : List Json → Option (List JVal)
  | [] => some []
  | v :: items => do return (← v.interface) :: (← interfaceItems items)

def interfaceMembers : List (Bytes × Json) → Option (List (Bytes × JVal))
  | [] => some []
  | (k, v) :: members => do
    let x ← v.interface
    let rest ← interfaceMembers members
    return if (rest.lookup k).isSome then rest else (k, x) :: rest

end

theorem roundEven_le {x : ℚ} {n : ℤ} (h : x < n) : roundEven x ≤ n := by
  have hfloor : ⌊x⌋ < n := Int.floor_lt.mpr h
  rw [roundEven]
  split_ifs <;> omega

theorem roundEven_nonneg {x : ℚ} (h : 0 ≤ x) : 0 ≤ roundEven x := by
  have hfloor : 0 ≤ ⌊x⌋ := Int.floor_nonneg.mpr h
  rw [roundEven]
  split_ifs <;> omega

@[simp] theorem roundEven_intCast (n : ℤ) : roundEven (n : ℚ) = n := by
  simp [roundEven]

theorem roundFloat64_nonneg {a : ℚ} (h : 0 ≤ a) : 0 ≤ roundFloat64 a := by
  have hround := roundEven_nonneg (x := a / 2 ^ ulpExponent a) (by positivity)
  rw [roundFloat64]
  positivity

@[simp] theorem roundFloat64_one : roundFloat64 1 = 1 := by
  have hulp : ulpExponent 1 = -52 := by simp [ulpExponent]
  have hcast : (1 : ℚ) / 2 ^ (-52 : ℤ) = ((2 ^ 52 : ℤ) : ℚ) := by norm_num
  rw [roundFloat64, hulp, hcast, roundEven_intCast]
  norm_num

theorem roundFloat64_le_one {a : ℚ} (hpos : 0 < a) (hlt : a < 1) : roundFloat64 a ≤ 1 := by
  set e := max (Int.log 2 a) (-1022) with he
  have hulp : ulpExponent a = e - 52 := rfl
  have hlog : Int.log 2 a < 0 := (Int.lt_zpow_iff_log_lt (by norm_num) hpos).mp (by simpa using hlt)
  have hself : a < 2 ^ (e + 1) := by
    have h := Int.lt_zpow_succ_log_self (b := 2) (by norm_num) a
    calc a < (2 : ℚ) ^ (Int.log 2 a + 1) := by exact_mod_cast h
      _ ≤ 2 ^ (e + 1) := zpow_le_zpow_right₀ (by norm_num) (by omega)
  have hquot : a / 2 ^ (e - 52) < ((2 ^ 53 : ℤ) : ℚ) := by
    rw [div_lt_iff₀ (by positivity)]
    calc a < 2 ^ (e + 1) := hself
      _ = 2 ^ (53 : ℤ) * 2 ^ (e - 52) := by
          rw [← zpow_add₀ (by norm_num)]
          congr 1
          ring
      _ = ((2 ^ 53 : ℤ) : ℚ) * 2 ^ (e - 52) := by norm_cast
  have hround : (roundEven (a / 2 ^ (e - 52)) : ℚ) ≤ 2 ^ (53 : ℤ) := by
    exact_mod_cast roundEven_le hquot
  rw [roundFloat64, hulp]
  calc (roundEven (a / 2 ^ (e - 52)) : ℚ) * 2 ^ (e - 52)
      ≤ 2 ^ (53 : ℤ) * 2 ^ (e - 52) := by gcongr
    _ = 2 ^ (e + 1) := by
        rw [← zpow_add₀ (by norm_num)]
        congr 1
        ring
    _ ≤ 2 ^ (0 : ℤ) := zpow_le_zpow_right₀ (by norm_num) (by omega)
    _ = 1 := by norm_num

theorem toFloat64_unit {q r : ℚ} (h0 : 0 ≤ q) (h1 : q ≤ 1) (h : toFloat64 q = some r) :
    0 ≤ r ∧ r ≤ 1 := by
  rw [toFloat64] at h
  split_ifs at h with hzero hrange hsign
  · cases h
    norm_num
  · cases h
    rw [abs_of_pos hsign]
    refine ⟨roundFloat64_nonneg hsign.le, ?_⟩
    rcases h1.lt_or_eq with hlt | rfl
    · exact roundFloat64_le_one hsign hlt
    · simp
  · exact absurd (lt_of_le_of_ne h0 (Ne.symm hzero)) hsign

example : numberValue (ascii "-12.50e1") = -125 := by decide +kernel

end Veduta.Go
