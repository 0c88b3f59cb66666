import Veduta.Go.Strconv

/-!
# Times

Package `time`, as far as the layout `RFC3339Nano` goes.  Parsing is more lenient than
RFC 3339: an hour may have one digit, a fraction may follow a comma and have any number of
digits, of which nine count, and an offset may be of up to 24 hours and 60 minutes.  An
instant is a number of nanoseconds since the start of the year 0, a duration a number of
nanoseconds.
-/

namespace Veduta.Go

def digitValue (b : UInt8) : ℕ := b.toNat - 0x30

/-- Two digits, or also one if the width is not fixed. -/
def getnum (fixed : Bool) : Bytes → Option (ℕ × Bytes)
  | a :: b :: rest =>
    if isDigit a then
      if isDigit b then some (digitValue a * 10 + digitValue b, rest)
      else if fixed then none
      else some (digitValue a, b :: rest)
    else none
  | [a] => if isDigit a && !fixed then some (digitValue a, []) else none
  | [] => none

/-- Two digits of a value below a bound. -/
def getnumBelow (fixed : Bool) (bound : ℕ) (s : Bytes) : Option (ℕ × Bytes) :=
  (getnum fixed s).filter fun x => x.1 < bound

def skipByte (c : UInt8) : Bytes → Option Bytes
  | b :: rest => if b = c then some rest else none
  | [] => none

def getYear (s : Bytes) : Option (ℕ × Bytes) :=
  (decimalValue (s.take 4)).bind fun n => if 4 ≤ s.length then some (n, s.drop 4) else none

/-- The fraction of a second in nanoseconds, zero if there is none. -/
def getFraction (s : Bytes) : ℕ × Bytes :=
  match s with
  | c :: d :: rest =>
    if (c = chr '.' || c = chr ',') && isDigit d then
      let digits := (d :: rest).takeWhile isDigit
      let kept := digits.take 9
      (kept.foldl (fun n b => n * 10 + digitValue b) 0 * 10 ^ (9 - kept.length),
        (d :: rest).dropWhile isDigit)
    else (0, s)
  | _ => (0, s)

/-- The offset in seconds east of UTC. -/
def getZone (s : Bytes) : Option (ℤ × Bytes) :=
  match s with
  | [] => none
  | c :: rest =>
    if c = chr 'Z' then some (0, rest)
    else do
      let (hour, s) ← getnumBelow true 25 rest
      let s ← skipByte (chr ':') s
      let (minute, s) ← getnumBelow true 61 s
      let offset : ℤ := (hour * 60 + minute) * 60
      if c = chr '+' then some (offset, s)
      else if c = chr '-' then some (-offset, s)
      else none

def isLeap (year : ℕ) : Bool := year % 4 = 0 && (year % 100 ≠ 0 || year % 400 = 0)

def daysIn (month year : ℕ) : ℕ :=
  if month = 2 then if isLeap year then 29 else 28
  else if month = 4 ∨ month = 6 ∨ month = 9 ∨ month = 11 then 30
  else 31

/-- The days from the start of the year 0 to a date. -/
def daysBefore (year month day : ℕ) : ℕ :=
  365 * year + (year + 3) / 4 - (year + 99) / 100 + (year + 399) / 400 +
    ((List.range month).tail.map fun m => daysIn m year).sum + (day - 1)

/-- `time.Parse(time.RFC3339Nano, value)`. -/
def parseTime (value : Bytes) : Option ℤ := do
  let (year, s) ← getYear value
  let s ← skipByte (chr '-') s
  let (month, s) ← getnumBelow true 13 s
  let s ← skipByte (chr '-') s
  let (day, s) ← getnum true s
  let s ← skipByte (chr 'T') s
  let (hour, s) ← getnumBelow false 24 s
  let s ← skipByte (chr ':') s
  let (minute, s) ← getnumBelow true 60 s
  let s ← skipByte (chr ':') s
  let (second, s) ← getnumBelow true 60 s
  let (nanos, s) := getFraction s
  let (offset, s) ← getZone s
  if s = [] ∧ 1 ≤ month ∧ 1 ≤ day ∧ day ≤ daysIn month year then
    let seconds : ℤ := ((daysBefore year month day * 24 + hour) * 60 + minute) * 60 + second
    some ((seconds - offset) * 10 ^ 9 + nanos)
  else none

example : parseTime (ascii "2026-02-29T00:00:00Z") = none := by decide +kernel

example : parseTime (ascii "2026-01-01T01:00:00.5+01:00") =
    parseTime (ascii "2026-01-01T00:00:00.50Z") := by decide +kernel

def second : ℤ := 10 ^ 9

def minute : ℤ := 60 * second

def hour : ℤ := 60 * minute

/-- The zero value of `time.Time`: the start of the year 1. -/
def zeroTime : ℤ := daysBefore 1 1 1 * (24 * hour)

/-- A number with at least the given count of digits. -/
def padNat (width n : ℕ) : Bytes :=
  List.replicate (width - (formatNat n).length) (chr '0') ++ formatNat n

/-- The date of a day of the first 400 years, by its year, month and day. -/
def dateOf (days : ℕ) : ℕ × ℕ × ℕ :=
  let guess := days / 365
  let year := if daysBefore guess 1 1 ≤ days then guess else guess - 1
  let month := ((List.range 13).tail.filter fun m => daysBefore year m 1 ≤ days).length
  (year, month, days - daysBefore year month 1 + 1)

/-- A year has at least four digits. -/
def formatYear : ℤ → Bytes
  | .ofNat n => padNat 4 n
  | .negSucc n => chr '-' :: padNat 4 (n + 1)

/-- Digits without the trailing zeros. -/
def trimDigits (digits : Bytes) : Bytes :=
  (digits.reverse.dropWhile fun b => b = chr '0').reverse

theorem exists_eq_trimDigits_append (digits : Bytes) :
    ∃ k, digits = trimDigits digits ++ List.replicate k (chr '0') := by
  let zero : UInt8 → Bool := fun b => b = chr '0'
  have hzeros : digits.reverse.takeWhile zero =
      List.replicate (digits.reverse.takeWhile zero).length (chr '0') := by
    refine List.eq_replicate_of_mem fun b hb => ?_
    have hzero := (List.all_eq_true.mp List.all_takeWhile) b hb
    simpa [zero] using hzero
  refine ⟨(digits.reverse.takeWhile zero).length, ?_⟩
  have hsplit := List.takeWhile_append_dropWhile (p := zero) (l := digits.reverse)
  have hreverse := congrArg List.reverse hsplit
  rw [List.reverse_append, List.reverse_reverse, hzeros, List.reverse_replicate] at hreverse
  exact hreverse.symm

def formatFraction (nanos : ℕ) : Bytes :=
  if nanos = 0 then [] else chr '.' :: trimDigits (padNat 9 nanos)

/-- `t.UTC().Format(time.RFC3339Nano)`. -/
def formatTime (t : ℤ) : Bytes :=
  let days := t / (24 * hour)
  let (year, month, day) := dateOf (days % 146097).toNat
  let nanos := (t % (24 * hour)).toNat
  let seconds := nanos / 10 ^ 9
  formatYear (days / 146097 * 400 + year) ++ chr '-' :: padNat 2 month ++
    chr '-' :: padNat 2 day ++ chr 'T' :: padNat 2 (seconds / 3600) ++
    chr ':' :: padNat 2 (seconds / 60 % 60) ++ chr ':' :: padNat 2 (seconds % 60) ++
    formatFraction (nanos % 10 ^ 9) ++ ascii "Z"

example : (parseTime (ascii "2024-12-31T23:59:07.0500Z")).map formatTime =
    some (ascii "2024-12-31T23:59:07.05Z") := by decide +kernel

example : formatTime zeroTime = ascii "0001-01-01T00:00:00Z" := by decide +kernel

end Veduta.Go
