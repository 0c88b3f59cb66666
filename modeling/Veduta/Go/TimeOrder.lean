import Mathlib.Order.Monotone.Basic
import Veduta.Go.Time

/-!
# The order of times as text

Two instants in the layout `RFC3339Nano` are compared byte by byte.  Up to the seconds every
field has a fixed width, so the order of the texts is that of the seconds.  The fraction has
no trailing zeros and is followed by the letter `Z`, which is greater than every digit and than
the point: when one fraction is a beginning of the other, the shorter one comes last.
-/

namespace Veduta.Go

theorem append_lt_append {a b : Bytes} (hlen : a.length = b.length) (h : a < b) (x y : Bytes) :
    a ++ x < b ++ y := by
  induction a generalizing b with
  | nil =>
    cases b with
    | nil => exact absurd h (List.lt_irrefl _)
    | cons _ _ => cases hlen
  | cons c a ih =>
    cases b with
    | nil => cases hlen
    | cons d b =>
      rw [List.cons_append, List.cons_append, List.cons_lt_cons_iff]
      rcases List.cons_lt_cons_iff.mp h with hlt | ⟨rfl, hlt⟩
      · exact .inl hlt
      · exact .inr ⟨rfl, ih (Nat.succ.inj hlen) hlt⟩

theorem append_lt_append_left_iff {a x y : Bytes} : a ++ x < a ++ y ↔ x < y := by
  induction a with
  | nil => rfl
  | cons c a ih =>
    rw [List.cons_append, List.cons_append, List.cons_lt_cons_iff]
    constructor
    · intro h
      rcases h with hlt | ⟨_, hlt⟩
      · exact absurd hlt (UInt8.lt_irrefl c)
      · exact ih.mp hlt
    · intro h
      exact .inr ⟨rfl, ih.mpr h⟩

theorem decimalDigit_lt : ∀ d < 10, ∀ c < d, decimalDigit c < decimalDigit d := by decide

theorem padNat_succ (w n : ℕ) :
    padNat (w + 2) n = padNat (w + 1) (n / 10) ++ [decimalDigit (n % 10)] := by
  rcases Nat.lt_or_ge n 10 with hlt | hge
  · rw [Nat.div_eq_of_lt hlt, Nat.mod_eq_of_lt hlt, padNat, padNat, formatNat_of_lt hlt,
      formatNat_of_lt (by omega)]
    have hzero : [decimalDigit 0] = List.replicate 1 (chr '0') := rfl
    rw [hzero, ← List.replicate_add]
    rfl
  · have hpad : ∀ k, w + 2 - (k + 1) = w + 1 - k := by omega
    rw [padNat, padNat, formatNat_of_le hge, List.length_append, List.length_singleton, hpad,
      List.append_assoc]

variable {w n m days b s s' : ℕ} {t u : ℤ}

theorem padNat_one (h : n < 10) : padNat 1 n = [decimalDigit n] := by
  rw [padNat, formatNat_of_lt h]
  rfl

theorem length_padNat (h : n < 10 ^ (w + 1)) : (padNat (w + 1) n).length = w + 1 := by
  induction w generalizing n with
  | zero => rw [padNat_one (by omega)]; rfl
  | succ w ih =>
    rw [padNat_succ, List.length_append, ih (by omega)]
    rfl

/-- **Numbers of a fixed width are in order.** -/
theorem padNat_lt (h : m < n) (hn : n < 10 ^ (w + 1)) : padNat (w + 1) m < padNat (w + 1) n := by
  induction w generalizing m n with
  | zero =>
    rw [padNat_one (by omega), padNat_one (by omega)]
    exact List.cons_lt_cons_iff.mpr (.inl (decimalDigit_lt n (by omega) m h))
  | succ w ih =>
    rw [padNat_succ, padNat_succ]
    rcases Nat.lt_or_ge (m / 10) (n / 10) with hdiv | hdiv
    · refine append_lt_append ?_ (ih hdiv (by omega)) _ _
      rw [length_padNat (by omega), length_padNat (by omega)]
    · have heq : m / 10 = n / 10 := by omega
      rw [heq, append_lt_append_left_iff]
      exact List.cons_lt_cons_iff.mpr (.inl (decimalDigit_lt _ (by omega) _ (by omega)))

/-- A smaller number in a field decides, whatever follows. -/
theorem padNat_append_lt (h : m < n) (hn : n < 10 ^ (w + 1)) (x y : Bytes) :
    padNat (w + 1) m ++ x < padNat (w + 1) n ++ y := by
  refine append_lt_append ?_ (padNat_lt h hn) x y
  rw [length_padNat (by omega), length_padNat hn]

/-! ## Dates -/

def dateText (year month day : ℕ) : Bytes :=
  padNat 4 year ++ chr '-' :: (padNat 2 month ++ chr '-' :: padNat 2 day)

/-- A date as a number, with two digits for the month and for the day. -/
def dateKey (date : ℕ × ℕ × ℕ) : ℕ := (date.1 * 100 + date.2.1) * 100 + date.2.2

theorem dateText_append_lt {y d y' m' d' : ℕ} (h : dateKey (y, m, d) < dateKey (y', m', d'))
    (hm : m < 100) (hd : d < 100) (hy' : y' < 10000) (hm' : m' < 100) (hd' : d' < 100)
    (x x' : Bytes) : dateText y m d ++ x < dateText y' m' d' ++ x' := by
  simp only [dateKey] at h
  simp only [dateText, List.append_assoc, List.cons_append]
  rcases Nat.lt_trichotomy y y' with hlt | rfl | hgt
  · exact padNat_append_lt hlt (by omega) _ _
  · rw [append_lt_append_left_iff]
    refine List.cons_lt_cons_iff.mpr (.inr ⟨rfl, ?_⟩)
    rcases Nat.lt_trichotomy m m' with hlt | rfl | hgt
    · exact padNat_append_lt hlt (by omega) _ _
    · rw [append_lt_append_left_iff]
      refine List.cons_lt_cons_iff.mpr (.inr ⟨rfl, ?_⟩)
      exact padNat_append_lt (by omega) (by omega) _ _
    · omega
  · omega

/-- The first day of a year, counted from the start of the year 0. -/
def yearStart (year : ℕ) : ℕ :=
  365 * year + (year + 3) / 4 - (year + 99) / 100 + (year + 399) / 400

theorem yearStart_succ (year : ℕ) :
    yearStart (year + 1) = yearStart year + 365 + (if isLeap year then 1 else 0) := by
  have hfour : (year + 1 + 3) / 4 = (year + 3) / 4 + if year % 4 = 0 then 1 else 0 := by
    split_ifs <;> omega
  have hhundred : (year + 1 + 99) / 100 = (year + 99) / 100 + if year % 100 = 0 then 1 else 0 := by
    split_ifs <;> omega
  have hcycle : (year + 1 + 399) / 400 = (year + 399) / 400 + if year % 400 = 0 then 1 else 0 := by
    split_ifs <;> omega
  have hle : (year + 99) / 100 ≤ (year + 3) / 4 := by omega
  have hleap : isLeap year = true ↔ year % 4 = 0 ∧ (year % 100 ≠ 0 ∨ year % 400 = 0) := by
    simp [isLeap]
  have hhundred' : year % 100 = 0 → year % 4 = 0 := by omega
  have hcycle' : year % 400 = 0 → year % 100 = 0 := by omega
  simp only [yearStart, hfour, hhundred, hcycle, hleap]
  clear hfour hhundred hcycle hleap
  generalize (year + 3) / 4 = a at *
  generalize (year + 99) / 100 = b at *
  generalize (year + 399) / 400 = c at *
  generalize year % 4 = p at *
  generalize year % 100 = q at *
  generalize year % 400 = r at *
  split_ifs <;> omega

/-- The days of a month, by whether the year is a leap year. -/
def monthDays (leap : Bool) (month : ℕ) : ℕ :=
  if month = 2 then if leap then 29 else 28
  else if month = 4 ∨ month = 6 ∨ month = 9 ∨ month = 11 then 30
  else 31

/-- The days of a year before a month. -/
def monthStart (leap : Bool) (month : ℕ) : ℕ :=
  ((List.range month).tail.map (monthDays leap)).sum

theorem daysBefore_eq (year month day : ℕ) :
    daysBefore year month day = yearStart year + monthStart (isLeap year) month + (day - 1) :=
  rfl

/-- The month and the day of a day of a year. -/
def monthDay (leap : Bool) (r : ℕ) : ℕ × ℕ :=
  let month := ((List.range 13).tail.filter fun m => monthStart leap m ≤ r).length
  (month, r - monthStart leap month + 1)

/-- The dates of a year are in order, and below a hundred. -/
theorem monthDay_lt : ∀ leap : Bool, ∀ r < 366, (monthDay leap r).1 < 100 ∧
    (monthDay leap r).2 < 100 ∧ (r + 1 < 366 →
      (monthDay leap r).1 * 100 + (monthDay leap r).2 <
        (monthDay leap (r + 1)).1 * 100 + (monthDay leap (r + 1)).2) := by
  decide +kernel

/-- The year of a day of the first 400 years. -/
def yearOf (days : ℕ) : ℕ := if yearStart (days / 365) ≤ days then days / 365 else days / 365 - 1

theorem yearOf_spec (h : days < 146097) :
    yearStart (yearOf days) ≤ days ∧ days < yearStart (yearOf days + 1) := by
  rw [yearOf]
  split_ifs with hle
  · refine ⟨hle, ?_⟩
    simp only [yearStart]
    omega
  · have hpos : 0 < days / 365 := by
      by_contra hzero
      simp only [show days / 365 = 0 by omega, yearStart] at hle
      omega
    rw [Nat.sub_add_cancel hpos]
    refine ⟨?_, by omega⟩
    simp only [yearStart]
    omega

theorem yearStart_strictMono : StrictMono yearStart := by
  refine strictMono_nat_of_lt_succ fun year => ?_
  rw [yearStart_succ]
  omega

theorem yearOf_eq {year : ℕ} (h : days < 146097) (hle : yearStart year ≤ days)
    (hlt : days < yearStart (year + 1)) : yearOf days = year := by
  obtain ⟨hle', hlt'⟩ := yearOf_spec h
  have h1 : yearOf days < year + 1 := yearStart_strictMono.lt_iff_lt.mp (by omega)
  have h2 : year < yearOf days + 1 := yearStart_strictMono.lt_iff_lt.mp (by omega)
  omega

theorem dateOf_eq (h : days < 146097) :
    dateOf days = (yearOf days, monthDay (isLeap (yearOf days)) (days - yearStart (yearOf days))) := by
  have hyear : (if daysBefore (days / 365) 1 1 ≤ days then days / 365 else days / 365 - 1) =
      yearOf days := by
    simp [yearOf, daysBefore_eq, monthStart]
  obtain ⟨hle, -⟩ := yearOf_spec h
  have hfilter : ∀ month, (daysBefore (yearOf days) month 1 ≤ days) =
      (monthStart (isLeap (yearOf days)) month ≤ days - yearStart (yearOf days)) := by
    intro month
    rw [daysBefore_eq, eq_iff_iff]
    omega
  simp only [dateOf, hyear, hfilter, monthDay, Prod.mk.injEq, true_and]
  rw [daysBefore_eq]
  omega

/-- The date of a day, as a number. -/
def dayKey (days : ℕ) : ℕ :=
  days / 146097 * 4000000 + dateKey (dateOf (days % 146097))

theorem dateOf_bounds (h : days < 146097) :
    (dateOf days).1 < 400 ∧ (dateOf days).2.1 < 100 ∧ (dateOf days).2.2 < 100 := by
  obtain ⟨hle, hlt⟩ := yearOf_spec h
  have hyear : yearOf days < 400 := by
    refine yearStart_strictMono.lt_iff_lt.mp (lt_of_le_of_lt hle ?_)
    exact h
  have hday : days - yearStart (yearOf days) < 366 := by
    rw [yearStart_succ] at hlt
    split_ifs at hlt <;> omega
  rw [dateOf_eq h]
  exact ⟨hyear, (monthDay_lt _ _ hday).1, (monthDay_lt _ _ hday).2.1⟩

theorem dateKey_dateOf_lt (h : days + 1 < 146097) :
    dateKey (dateOf days) < dateKey (dateOf (days + 1)) := by
  obtain ⟨hle, hlt⟩ := yearOf_spec (show days < 146097 by omega)
  have hday : days - yearStart (yearOf days) < 366 := by
    rw [yearStart_succ] at hlt
    split_ifs at hlt <;> omega
  have hmonth := monthDay_lt (isLeap (yearOf days)) _ hday
  rcases Nat.lt_or_ge (days + 1) (yearStart (yearOf days + 1)) with hsame | hnext
  · -- the same year: the dates of a year are in order
    have hyear : yearOf (days + 1) = yearOf days := yearOf_eq h (by omega) hsame
    have hstep : days + 1 - yearStart (yearOf days) = days - yearStart (yearOf days) + 1 := by
      omega
    have hbound : days - yearStart (yearOf days) + 1 < 366 := by
      rw [yearStart_succ] at hsame
      split_ifs at hsame <;> omega
    rw [dateOf_eq (by omega), dateOf_eq h, hyear, hstep]
    have := hmonth.2.2 hbound
    simp only [dateKey]
    omega
  · have hyear : yearOf (days + 1) = yearOf days + 1 := by
      refine yearOf_eq h (by omega) ?_
      rw [yearStart_succ (yearOf days + 1)]
      omega
    rw [dateOf_eq (by omega), dateOf_eq h, hyear]
    simp only [dateKey]
    omega

/-- **Dates are in order.** -/
theorem dayKey_strictMono : StrictMono dayKey := by
  refine strictMono_nat_of_lt_succ fun days => ?_
  have hmod := Nat.mod_lt days (show 146097 > 0 by omega)
  rcases Nat.lt_or_ge (days % 146097 + 1) 146097 with hsame | hnext
  · have hdiv : (days + 1) / 146097 = days / 146097 := by omega
    have hstep : (days + 1) % 146097 = days % 146097 + 1 := by omega
    rw [dayKey, dayKey, hdiv, hstep]
    have := dateKey_dateOf_lt hsame
    omega
  · have hdiv : (days + 1) / 146097 = days / 146097 + 1 := by omega
    rw [dayKey, dayKey, hdiv]
    have hbounds := dateOf_bounds hmod
    simp only [dateKey]
    omega

def clockText (s : ℕ) : Bytes :=
  padNat 2 (s / 3600) ++ chr ':' :: (padNat 2 (s / 60 % 60) ++ chr ':' :: padNat 2 (s % 60))

theorem clockText_append_lt (h : s < s') (hs' : s' < 86400) (x x' : Bytes) :
    clockText s ++ x < clockText s' ++ x' := by
  simp only [clockText, List.append_assoc, List.cons_append]
  rcases Nat.lt_or_ge (s / 3600) (s' / 3600) with hlt | hge
  · exact padNat_append_lt hlt (by omega) _ _
  · rw [show s / 3600 = s' / 3600 by omega, append_lt_append_left_iff]
    refine List.cons_lt_cons_iff.mpr (.inr ⟨rfl, ?_⟩)
    rcases Nat.lt_or_ge (s / 60 % 60) (s' / 60 % 60) with hlt | hge
    · exact padNat_append_lt hlt (by omega) _ _
    · rw [show s / 60 % 60 = s' / 60 % 60 by omega, append_lt_append_left_iff]
      refine List.cons_lt_cons_iff.mpr (.inr ⟨rfl, ?_⟩)
      exact padNat_append_lt (by omega) (by omega) _ _

/-- A time in seconds since the start of the year 0, without a fraction. -/
def secondsText (s : ℕ) : Bytes :=
  let days := s / 86400
  let date := dateOf (days % 146097)
  dateText (days / 146097 * 400 + date.1) date.2.1 date.2.2 ++ chr 'T' :: clockText (s % 86400)

/-- The seconds before the year 10000. -/
def secondsEnd : ℕ := yearStart 10000 * 86400

theorem year_lt (h : s < secondsEnd) :
    s / 86400 / 146097 * 400 + (dateOf (s / 86400 % 146097)).1 < 10000 := by
  have hbounds := dateOf_bounds (Nat.mod_lt (s / 86400) (show 146097 > 0 by omega))
  have hend : secondsEnd = 25 * 146097 * 86400 := by decide
  omega

/-- **Seconds are in order**, whatever follows. -/
theorem secondsText_append_lt (h : s < s') (hs' : s' < secondsEnd) (x x' : Bytes) :
    secondsText s ++ x < secondsText s' ++ x' := by
  have hyear' := year_lt hs'
  have hbounds := dateOf_bounds (Nat.mod_lt (s / 86400) (show 146097 > 0 by omega))
  have hbounds' := dateOf_bounds (Nat.mod_lt (s' / 86400) (show 146097 > 0 by omega))
  simp only [secondsText, List.append_assoc, List.cons_append]
  rcases Nat.lt_or_ge (s / 86400) (s' / 86400) with hlt | hge
  · have hkey := dayKey_strictMono hlt
    refine dateText_append_lt ?_ hbounds.2.1 hbounds.2.2 hyear' hbounds'.2.1 hbounds'.2.2 _ _
    simp only [dayKey, dateKey] at hkey ⊢
    omega
  · rw [show s / 86400 = s' / 86400 by omega, append_lt_append_left_iff]
    refine List.cons_lt_cons_iff.mpr (.inr ⟨rfl, ?_⟩)
    exact clockText_append_lt (by omega) (by omega) _ _

/-! ## Fractions -/

theorem padNat_cons (h : n < 10 ^ (w + 2)) :
    padNat (w + 2) n = decimalDigit (n / 10 ^ (w + 1)) :: padNat (w + 1) (n % 10 ^ (w + 1)) := by
  induction w generalizing n with
  | zero =>
    rw [padNat_succ, padNat_one (by omega), padNat_one (by omega)]
    rfl
  | succ w ih =>
    have hdiv : n / 10 / 10 ^ (w + 1) = n / 10 ^ (w + 2) := by
      rw [Nat.div_div_eq_div_mul, ← pow_succ']
    have hmod : n / 10 % 10 ^ (w + 1) = n % 10 ^ (w + 2) / 10 := by
      rw [pow_succ' 10 (w + 1), Nat.mod_mul_right_div_self]
    have hlast : n % 10 = n % 10 ^ (w + 2) % 10 := by
      rw [pow_succ' 10 (w + 1), Nat.mod_mul_right_mod]
    rw [padNat_succ, ih (by rw [pow_succ] at h; omega), hdiv, hmod, hlast, List.cons_append,
      ← padNat_succ]

theorem trimDigits_cons (c : UInt8) (digits : Bytes) :
    trimDigits (c :: digits) =
      if trimDigits digits = [] ∧ c = chr '0' then [] else c :: trimDigits digits := by
  simp only [trimDigits, List.reverse_cons, List.dropWhile_append, List.isEmpty_iff,
    List.reverse_eq_nil_iff]
  by_cases hnil : List.dropWhile (fun b => decide (b = chr '0')) digits.reverse = []
  · by_cases hc : c = chr '0'
    · simp [hnil, hc]
    · simp [hnil, hc]
  · simp [hnil]

theorem trimDigits_cons_eq_nil_iff (c : UInt8) (digits : Bytes) :
    trimDigits (c :: digits) = [] ↔ trimDigits digits = [] ∧ c = chr '0' := by
  rw [trimDigits_cons]
  split_ifs with h
  · exact iff_of_true rfl h
  · simp [h]

theorem decimalDigit_eq_zero_iff : ∀ d < 10, decimalDigit d = chr '0' ↔ d = 0 := by decide

theorem firstDigit_lt (h : n < 10 ^ (w + 2)) : n / 10 ^ (w + 1) < 10 := by
  rw [Nat.div_lt_iff_lt_mul (by positivity), ← pow_succ']
  exact h

theorem trimDigits_padNat_eq_nil_iff (h : n < 10 ^ (w + 1)) :
    trimDigits (padNat (w + 1) n) = [] ↔ n = 0 := by
  induction w generalizing n with
  | zero =>
    rw [padNat_one (by omega), trimDigits_cons_eq_nil_iff, decimalDigit_eq_zero_iff n (by omega)]
    exact and_iff_right rfl
  | succ w ih =>
    rw [padNat_cons h, trimDigits_cons_eq_nil_iff, ih (Nat.mod_lt _ (by positivity)),
      decimalDigit_eq_zero_iff _ (firstDigit_lt h)]
    have hsplit := Nat.div_add_mod n (10 ^ (w + 1))
    constructor
    · intro hzero
      rw [hzero.1, hzero.2] at hsplit
      omega
    · intro hzero
      rw [hzero]
      exact ⟨Nat.zero_mod _, Nat.zero_div _⟩

theorem trimDigits_padNat_cons (h : n < 10 ^ (w + 2)) (hn : n ≠ 0) :
    trimDigits (padNat (w + 2) n) = decimalDigit (n / 10 ^ (w + 1)) ::
      trimDigits (padNat (w + 1) (n % 10 ^ (w + 1))) := by
  have hne := (trimDigits_padNat_eq_nil_iff h).not.mpr hn
  rw [padNat_cons h] at hne ⊢
  rw [trimDigits_cons_eq_nil_iff] at hne
  rw [trimDigits_cons, if_neg hne]

/-- A number is another one with some of its last digits, at most the given count, set to
zero. -/
def CutDigits (w a b : ℕ) : Prop := ∃ j ≤ w, a = b - b % 10 ^ j

theorem cutDigits_zero (h : b < 10 ^ w) : CutDigits w 0 b :=
  ⟨w, le_rfl, by rw [Nat.mod_eq_of_lt h, Nat.sub_self]⟩

theorem mod_pow_mod {j : ℕ} (h : j ≤ w) : b % 10 ^ w % 10 ^ j = b % 10 ^ j :=
  Nat.mod_mod_of_dvd b (pow_dvd_pow 10 h)

/-- A cut keeps the digits above and is a cut of those below. -/
theorem cutDigits_iff {a : ℕ} :
    CutDigits w a b ↔ a / 10 ^ w = b / 10 ^ w ∧ CutDigits w (a % 10 ^ w) (b % 10 ^ w) := by
  have hsplitA := Nat.div_add_mod a (10 ^ w)
  have hsplitB := Nat.div_add_mod b (10 ^ w)
  have hpos : 0 < 10 ^ w := by positivity
  constructor
  · intro h
    obtain ⟨j, hj, hcut⟩ := h
    have hmod := mod_pow_mod (b := b) hj
    have hmodle : b % 10 ^ w % 10 ^ j ≤ b % 10 ^ w := Nat.mod_le _ _
    have hlt : b % 10 ^ w < 10 ^ w := Nat.mod_lt _ hpos
    have hform : a = 10 ^ w * (b / 10 ^ w) + (b % 10 ^ w - b % 10 ^ w % 10 ^ j) := by
      rw [hmod] at hmodle ⊢
      omega
    have hrest := lt_of_le_of_lt (Nat.sub_le (b % 10 ^ w) (b % 10 ^ w % 10 ^ j)) hlt
    refine ⟨?_, j, hj, ?_⟩
    · rw [hform, Nat.mul_add_div hpos, Nat.div_eq_of_lt hrest, Nat.add_zero]
    · rw [hform, Nat.mul_add_mod, Nat.mod_eq_of_lt hrest]
  · intro h
    obtain ⟨hdiv, j, hj, hcut⟩ := h
    refine ⟨j, hj, ?_⟩
    rw [mod_pow_mod hj] at hcut
    have hmodle : b % 10 ^ j ≤ b % 10 ^ w := by
      rw [← mod_pow_mod hj]
      exact Nat.mod_le _ _
    rw [hdiv] at hsplitA
    omega

/-- A cut of a number that is not zero keeps the first digit. -/
theorem cutDigits_succ_iff {a : ℕ} (hb : b < 10 ^ (w + 1)) (ha : a ≠ 0) :
    CutDigits (w + 1) a b ↔
      a / 10 ^ w = b / 10 ^ w ∧ CutDigits w (a % 10 ^ w) (b % 10 ^ w) := by
  rw [← cutDigits_iff]
  constructor
  · intro h
    obtain ⟨j, hj, hcut⟩ := h
    refine ⟨j, ?_, hcut⟩
    by_contra hgt
    rw [show j = w + 1 by omega, Nat.mod_eq_of_lt hb] at hcut
    omega
  · intro h
    obtain ⟨j, hj, hcut⟩ := h
    exact ⟨j, by omega, hcut⟩

theorem decimalDigit_lt_letter : ∀ d < 10, decimalDigit d < chr 'Z' := by decide

theorem trimDigits_padNat_head (h : n < 10 ^ (w + 1)) (hn : n ≠ 0) :
    ∃ d < 10, ∃ digits, trimDigits (padNat (w + 1) n) = decimalDigit d :: digits := by
  cases w with
  | zero =>
    refine ⟨n, by omega, [], ?_⟩
    rw [padNat_one (by omega), trimDigits_cons]
    exact if_neg fun hzero => hn ((decimalDigit_eq_zero_iff n (by omega)).mp hzero.2)
  | succ w => exact ⟨_, firstDigit_lt h, _, trimDigits_padNat_cons h hn⟩

/-- A text comes before another one, or after it if a condition holds. -/
def SwappedIf (swap : Prop) (a b : Bytes) : Prop := (¬swap → a < b) ∧ (swap → b < a)

theorem SwappedIf.cons {swap : Prop} {a b : Bytes} (c : UInt8) (h : SwappedIf swap a b) :
    SwappedIf swap (c :: a) (c :: b) :=
  ⟨fun hswap => List.cons_lt_cons_iff.mpr (.inr ⟨rfl, h.1 hswap⟩),
    fun hswap => List.cons_lt_cons_iff.mpr (.inr ⟨rfl, h.2 hswap⟩)⟩

/-- Zero has no digits: the letter stands where another number has its first one. -/
theorem swapped_trimDigits_zero (hpos : 0 < n) (hn : n < 10 ^ (w + 1)) :
    SwappedIf (CutDigits (w + 1) 0 n) (trimDigits (padNat (w + 1) 0) ++ ascii "Z")
      (trimDigits (padNat (w + 1) n) ++ ascii "Z") := by
  obtain ⟨d, hd, digits, hdigits⟩ := trimDigits_padNat_head hn hpos.ne'
  rw [(trimDigits_padNat_eq_nil_iff (by positivity)).mpr rfl, hdigits]
  refine ⟨fun h => absurd (cutDigits_zero hn) h, fun _ => ?_⟩
  exact List.cons_lt_cons_iff.mpr (.inl (decimalDigit_lt_letter d hd))

/-- **Trimmed digits before a letter** are in order but for a number that is a cut of the
other. -/
theorem swapped_trimDigits (hmn : m < n) (hn : n < 10 ^ (w + 1)) :
    SwappedIf (CutDigits (w + 1) m n) (trimDigits (padNat (w + 1) m) ++ ascii "Z")
      (trimDigits (padNat (w + 1) n) ++ ascii "Z") := by
  induction w generalizing m n with
  | zero =>
    by_cases hzero : m = 0
    · subst hzero
      exact swapped_trimDigits_zero hmn hn
    · have hdigit : ∀ k < 10, k ≠ 0 → trimDigits (padNat 1 k) = [decimalDigit k] := by decide
      rw [hdigit m (by omega) hzero, hdigit n (by omega) (by omega),
        cutDigits_succ_iff hn hzero]
      simp only [pow_zero, Nat.div_one]
      refine ⟨fun _ => ?_, fun hcut => absurd hcut.1 hmn.ne⟩
      exact List.cons_lt_cons_iff.mpr (.inl (decimalDigit_lt n (by omega) m hmn))
  | succ w ih =>
    by_cases hzero : m = 0
    · subst hzero
      exact swapped_trimDigits_zero hmn hn
    · have hdigit := firstDigit_lt hn
      rw [trimDigits_padNat_cons (hmn.trans hn) hzero, trimDigits_padNat_cons hn (by omega),
        cutDigits_succ_iff hn hzero]
      rcases Nat.lt_or_ge (m / 10 ^ (w + 1)) (n / 10 ^ (w + 1)) with hlt | hge
      · refine ⟨fun _ => ?_, fun hcut => absurd hcut.1 hlt.ne⟩
        exact List.cons_lt_cons_iff.mpr (.inl (decimalDigit_lt _ hdigit _ hlt))
      · have hdiv : m / 10 ^ (w + 1) = n / 10 ^ (w + 1) :=
          le_antisymm (Nat.div_le_div_right hmn.le) hge
        have hsplitM := Nat.div_add_mod m (10 ^ (w + 1))
        have hsplitN := Nat.div_add_mod n (10 ^ (w + 1))
        rw [hdiv] at hsplitM
        have hrest : m % 10 ^ (w + 1) < n % 10 ^ (w + 1) := by omega
        rw [hdiv, eq_self_iff_true, true_and]
        exact (ih hrest (Nat.mod_lt n (by positivity))).cons _

/-- **Fractions before a letter** are in order but for one that is a cut of the other. -/
theorem swapped_formatFraction (hmn : m < n) (hn : n < 10 ^ 9) :
    SwappedIf (CutDigits 9 m n) (formatFraction m ++ ascii "Z")
      (formatFraction n ++ ascii "Z") := by
  have hpoint : formatFraction n = chr '.' :: trimDigits (padNat 9 n) := if_neg (by omega)
  by_cases hzero : m = 0
  · subst hzero
    rw [hpoint]
    refine ⟨fun h => absurd (cutDigits_zero hn) h, fun _ => ?_⟩
    exact List.cons_lt_cons_iff.mpr (.inl (by decide))
  · have hpoint' : formatFraction m = chr '.' :: trimDigits (padNat 9 m) := if_neg hzero
    rw [hpoint, hpoint']
    exact (swapped_trimDigits hmn hn).cons _

/-- An instant is another one with the last digits of its fraction, perhaps all of them, set to
zero. -/
def CutOff (t u : ℤ) : Prop := ∃ j ≤ 9, t = u - u % 10 ^ j

instance (t u : ℤ) : Decidable (CutOff t u) :=
  decidable_of_iff (∃ j < 10, t = u - u % 10 ^ j) (by simp only [CutOff, Nat.lt_succ_iff])

theorem cutOff_natCast : CutOff m n ↔ CutDigits 9 m n := by
  have hstep : ∀ j, ((m : ℤ) = n - n % 10 ^ j) ↔ m = n - n % 10 ^ j := by
    intro j
    have hle := Nat.mod_le n (10 ^ j)
    rw [show ((n : ℤ) % 10 ^ j) = ((n % 10 ^ j : ℕ) : ℤ) by push_cast; rfl]
    omega
  simp only [CutOff, CutDigits, hstep]

theorem CutOff.le (h : CutOff t u) : t ≤ u := by
  obtain ⟨j, -, hcut⟩ := h
  have := Int.emod_nonneg u (show (10 ^ j : ℤ) ≠ 0 by positivity)
  omega

theorem formatTime_eq (h : 0 ≤ t) :
    formatTime t =
      secondsText (t / second).toNat ++ (formatFraction (t % second).toNat ++ ascii "Z") := by
  obtain ⟨n, rfl⟩ := Int.eq_ofNat_of_zero_le h
  have hday : (24 * hour : ℤ) = ((86400 * 10 ^ 9 : ℕ) : ℤ) := by decide
  have hsecond : second = ((10 ^ 9 : ℕ) : ℤ) := by decide
  have hcycle : (146097 : ℤ) = ((146097 : ℕ) : ℤ) := rfl
  have hclock : n % (86400 * 10 ^ 9) / 10 ^ 9 = n / 10 ^ 9 % 86400 := by omega
  have hdays : n / (86400 * 10 ^ 9) = n / 10 ^ 9 / 86400 := by omega
  have hnanos : n % (86400 * 10 ^ 9) % 10 ^ 9 = n % 10 ^ 9 := by omega
  simp only [formatTime, hday, hcycle, hsecond, ← Int.natCast_ediv, ← Int.natCast_emod,
    Int.toNat_natCast, hclock, hdays, hnanos]
  simp only [secondsText, dateText, clockText, List.append_assoc, List.cons_append]
  rfl

/-- **The order of times as text**: a time comes before a later one unless it is the later one
with the last digits of its fraction set to zero, and after it then. -/
theorem swapped_formatTime (ht : 0 ≤ t) (htu : t < u) (hu : u < secondsEnd * second) :
    SwappedIf (CutOff t u) (formatTime t) (formatTime u) := by
  obtain ⟨m, rfl⟩ := Int.eq_ofNat_of_zero_le ht
  obtain ⟨n, rfl⟩ := Int.eq_ofNat_of_zero_le (ht.trans htu.le)
  have hsecond : second = ((10 ^ 9 : ℕ) : ℤ) := by decide
  have hmn : m < n := by omega
  have hn : n / 10 ^ 9 < secondsEnd := by
    rw [hsecond] at hu
    omega
  rw [formatTime_eq (by omega), formatTime_eq (by omega), cutOff_natCast, cutDigits_iff, hsecond]
  simp only [← Int.natCast_ediv, ← Int.natCast_emod, Int.toNat_natCast]
  rcases Nat.lt_or_ge (m / 10 ^ 9) (n / 10 ^ 9) with hlt | hge
  · exact ⟨fun _ => secondsText_append_lt hlt hn _ _, fun hcut => absurd hcut.1 hlt.ne⟩
  · have hdiv : m / 10 ^ 9 = n / 10 ^ 9 := by omega
    have hrest : m % 10 ^ 9 < n % 10 ^ 9 := by omega
    rw [hdiv, eq_self_iff_true, true_and]
    obtain ⟨hbefore, hafter⟩ := swapped_formatFraction hrest (Nat.mod_lt n (by omega))
    exact ⟨fun hcut => append_lt_append_left_iff.mpr (hbefore hcut),
      fun hcut => append_lt_append_left_iff.mpr (hafter hcut)⟩

end Veduta.Go
