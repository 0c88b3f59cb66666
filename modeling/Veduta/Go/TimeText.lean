import Veduta.Go.TimeOrder

/-!
# Times read back

The text of an instant before the year 10000 denotes that instant.  The fields have fixed widths,
and the fraction lacks only trailing zeros.
-/

namespace Veduta.Go

/-- The value of digits that follow others. -/
def digitsFrom (acc : ℕ) (digits : Bytes) : ℕ := digits.foldl (fun n b => n * 10 + digitValue b) acc

theorem digitValue_decimalDigit : ∀ d < 10, digitValue (decimalDigit d) = d := by decide

variable {n w : ℕ}

theorem all_isDigit_padNat (h : n < 10 ^ (w + 1)) : (padNat (w + 1) n).all isDigit = true := by
  induction w generalizing n with
  | zero =>
    rw [padNat_one (by omega), List.all_cons, List.all_nil, Bool.and_true]
    exact isDigit_decimalDigit n (by omega)
  | succ w ih =>
    rw [padNat_succ, List.all_append, ih (by omega), List.all_cons, List.all_nil,
      isDigit_decimalDigit _ (Nat.mod_lt n (by omega))]
    rfl

/-- **A number of a fixed width is read back.** -/
theorem digitsFrom_padNat (h : n < 10 ^ (w + 1)) (acc : ℕ) :
    digitsFrom acc (padNat (w + 1) n) = acc * 10 ^ (w + 1) + n := by
  induction w generalizing n with
  | zero =>
    rw [padNat_one (by omega)]
    simp only [digitsFrom, List.foldl_cons, List.foldl_nil]
    rw [digitValue_decimalDigit n (by omega)]
    omega
  | succ w ih =>
    have hlast := digitValue_decimalDigit (n % 10) (Nat.mod_lt _ (by omega))
    rw [padNat_succ, digitsFrom, List.foldl_append]
    change (digitsFrom acc (padNat (w + 1) (n / 10))) * 10 + digitValue (decimalDigit (n % 10)) = _
    rw [ih (by omega), hlast, Nat.pow_succ 10 (w + 1)]
    have hsplit := Nat.div_add_mod n 10
    ring_nf
    ring_nf at hsplit
    omega

theorem padNat_two (h : n < 100) : padNat 2 n = [decimalDigit (n / 10), decimalDigit (n % 10)] := by
  rw [padNat_succ 0, padNat_one (by omega)]
  rfl

theorem getnum_padNat (fixed : Bool) (h : n < 100) (rest : Bytes) :
    getnum fixed (padNat 2 n ++ rest) = some (n, rest) := by
  have hten := isDigit_decimalDigit (n / 10) (by omega)
  have hone := isDigit_decimalDigit (n % 10) (by omega)
  rw [padNat_two h]
  simp only [List.cons_append, List.nil_append, getnum, hten, hone, if_true,
    digitValue_decimalDigit _ (show n / 10 < 10 by omega),
    digitValue_decimalDigit _ (show n % 10 < 10 by omega)]
  rw [Nat.div_add_mod' n 10]

theorem getnumBelow_padNat (fixed : Bool) {bound : ℕ} (h : n < 100) (hn : n < bound)
    (rest : Bytes) : getnumBelow fixed bound (padNat 2 n ++ rest) = some (n, rest) := by
  rw [getnumBelow, getnum_padNat fixed h]
  simp [Option.filter, hn]

theorem skipByte_cons (c : UInt8) (rest : Bytes) : skipByte c (c :: rest) = some rest := by
  rw [skipByte, if_pos rfl]

theorem getYear_padNat (h : n < 10000) (rest : Bytes) :
    getYear (padNat 4 n ++ rest) = some (n, rest) := by
  have hlen : (padNat 4 n).length = 4 := length_padNat (w := 3) h
  have hall := all_isDigit_padNat (w := 3) h
  have hvalue := digitsFrom_padNat (w := 3) h 0
  have hne : padNat 4 n ≠ [] := by
    intro hnil
    rw [hnil] at hlen
    cases hlen
  have hdecimal : decimalValue (padNat 4 n) = some n := by
    rw [decimalValue, if_pos ⟨hne, hall⟩]
    rw [digitsFrom, Nat.zero_mul, Nat.zero_add] at hvalue
    exact congrArg some hvalue
  rw [getYear, List.take_left' hlen, hdecimal, Option.bind_some, List.drop_left' hlen, if_pos]
  rw [List.length_append, hlen]
  omega

theorem digitsFrom_append_zeros (acc : ℕ) (digits : Bytes) (k : ℕ) :
    digitsFrom acc (digits ++ List.replicate k (chr '0')) = digitsFrom acc digits * 10 ^ k := by
  induction k with
  | zero => simp
  | succ k ih =>
    have hzero : digitValue (chr '0') = 0 := rfl
    rw [List.replicate_succ', ← List.append_assoc, digitsFrom, List.foldl_append]
    change digitsFrom acc (digits ++ List.replicate k (chr '0')) * 10 + digitValue (chr '0') = _
    rw [ih, hzero, Nat.pow_succ, Nat.mul_assoc, Nat.add_zero]

/-- **A fraction is read back.** -/
theorem getFraction_formatFraction (h : n < 10 ^ 9) :
    getFraction (formatFraction n ++ ascii "Z") = (n, ascii "Z") := by
  by_cases hn : n = 0
  · subst hn
    rfl
  · have hlen : (padNat 9 n).length = 9 := length_padNat (w := 8) h
    obtain ⟨k, hk⟩ := exists_eq_trimDigits_append (padNat 9 n)
    have hne : trimDigits (padNat 9 n) ≠ [] := (trimDigits_padNat_eq_nil_iff (w := 8) h).not.mpr hn
    have hvalue := digitsFrom_padNat (w := 8) h 0
    have hall := all_isDigit_padNat (w := 8) h
    have hformat : formatFraction n = chr '.' :: trimDigits (padNat 9 n) := if_neg hn
    rw [hk, digitsFrom_append_zeros, Nat.zero_mul, Nat.zero_add] at hvalue
    rw [hk, List.all_append, Bool.and_eq_true] at hall
    have hk' := congrArg List.length hk
    rw [hlen, List.length_append, List.length_replicate] at hk'
    obtain ⟨d, rest, hd⟩ := List.exists_cons_of_ne_nil hne
    rw [hformat]
    rw [hd] at hvalue hall hk' ⊢
    have hdecimal : isDigit d = true := List.all_eq_true.mp hall.1 d List.mem_cons_self
    have htake : ((d :: rest) ++ ascii "Z").takeWhile isDigit = d :: rest := by
      rw [List.takeWhile_append_of_pos (List.all_eq_true.mp hall.1)]
      have hstop : (ascii "Z").takeWhile isDigit = [] := by decide
      rw [hstop, List.append_nil]
    have hdrop : ((d :: rest) ++ ascii "Z").dropWhile isDigit = ascii "Z" := by
      rw [List.dropWhile_append_of_pos (List.all_eq_true.mp hall.1)]
      decide
    have hkept : (d :: rest).take 9 = d :: rest := List.take_of_length_le (by omega)
    rw [List.cons_append, List.cons_append, getFraction]
    rw [if_pos (by simp [hdecimal])]
    simp only [← List.cons_append, htake, hdrop, hkept]
    rw [show 9 - (d :: rest).length = k by omega]
    exact congrArg (·, ascii "Z") hvalue

theorem monthDay_spec : ∀ leap : Bool, ∀ r < if leap then 366 else 365,
    monthStart leap (monthDay leap r).1 + ((monthDay leap r).2 - 1) = r ∧
      1 ≤ (monthDay leap r).1 ∧ (monthDay leap r).1 < 13 ∧ 1 ≤ (monthDay leap r).2 ∧
      (monthDay leap r).2 ≤ monthDays leap (monthDay leap r).1 := by
  decide +kernel

theorem isLeap_add (cycle year : ℕ) : isLeap (cycle * 400 + year) = isLeap year := by
  have hfour : (cycle * 400 + year) % 4 = year % 4 := by omega
  have hhundred : (cycle * 400 + year) % 100 = year % 100 := by omega
  have hcycle : (cycle * 400 + year) % 400 = year % 400 := by omega
  rw [isLeap, isLeap, hfour, hhundred, hcycle]

theorem yearStart_add (cycle year : ℕ) :
    yearStart (cycle * 400 + year) = cycle * 146097 + yearStart year := by
  simp only [yearStart]
  omega

/-- What the date of a day is. -/
structure IsDate (days year month day : ℕ) : Prop where
  days_eq : daysBefore year month day = days
  month_pos : 1 ≤ month
  month_lt : month < 13
  day_pos : 1 ≤ day
  day_le : day ≤ daysIn month year

/-- **A date is read back.** -/
theorem isDate_dateOf (days : ℕ) :
    IsDate days (days / 146097 * 400 + (dateOf (days % 146097)).1) (dateOf (days % 146097)).2.1
      (dateOf (days % 146097)).2.2 := by
  have hlt := Nat.mod_lt days (show 146097 > 0 by omega)
  obtain ⟨hle, hbefore⟩ := yearOf_spec hlt
  rw [dateOf_eq hlt]
  dsimp only
  generalize hyear : yearOf (days % 146097) = year at hle hbefore
  have hday : days % 146097 - yearStart year < if isLeap year then 366 else 365 := by
    rw [yearStart_succ] at hbefore
    split_ifs at hbefore ⊢ <;> omega
  obtain ⟨hsum, hmonth, hmonth', hpos, hdays⟩ := monthDay_spec (isLeap year) _ hday
  refine ⟨?_, hmonth, hmonth', hpos, ?_⟩
  · rw [daysBefore_eq, isLeap_add, yearStart_add]
    have hsplit := Nat.div_add_mod days 146097
    omega
  · have hdaysIn : ∀ month, daysIn month (days / 146097 * 400 + year) =
        monthDays (isLeap year) month := by
      intro month
      rw [daysIn, isLeap_add, monthDays]
    rw [hdaysIn]
    exact hdays

theorem parseTime_parts {year month day hour minute second nanos : ℕ} (hyear : year < 10000)
    (hmonth : 1 ≤ month) (hmonth' : month < 13) (hday : 1 ≤ day) (hday' : day ≤ daysIn month year)
    (hhour : hour < 24) (hminute : minute < 60) (hsecond : second < 60) (hnanos : nanos < 10 ^ 9) :
    parseTime (padNat 4 year ++ chr '-' :: (padNat 2 month ++ chr '-' :: (padNat 2 day ++
      chr 'T' :: (padNat 2 hour ++ chr ':' :: (padNat 2 minute ++ chr ':' :: (padNat 2 second ++
        (formatFraction nanos ++ ascii "Z"))))))) =
      some (((((daysBefore year month day * 24 + hour) * 60 + minute) * 60 + second : ℕ) : ℤ) *
        10 ^ 9 + nanos) := by
  have hlong : daysIn month year < 100 := by
    rw [daysIn]
    split_ifs <;> omega
  have below : ∀ {n m : ℕ}, n < m → m ≤ 60 → n < 100 := fun h hm => by omega
  refine Option.bind_eq_some_iff.mpr ⟨_, getYear_padNat hyear _, ?_⟩
  refine Option.bind_eq_some_iff.mpr ⟨_, skipByte_cons _ _, ?_⟩
  refine Option.bind_eq_some_iff.mpr
    ⟨_, getnumBelow_padNat true (below hmonth' (by omega)) hmonth' _, ?_⟩
  refine Option.bind_eq_some_iff.mpr ⟨_, skipByte_cons _ _, ?_⟩
  refine Option.bind_eq_some_iff.mpr
    ⟨_, getnum_padNat true (Nat.lt_of_le_of_lt hday' hlong) _, ?_⟩
  refine Option.bind_eq_some_iff.mpr ⟨_, skipByte_cons _ _, ?_⟩
  refine Option.bind_eq_some_iff.mpr
    ⟨_, getnumBelow_padNat false (below hhour (by omega)) hhour _, ?_⟩
  refine Option.bind_eq_some_iff.mpr ⟨_, skipByte_cons _ _, ?_⟩
  refine Option.bind_eq_some_iff.mpr
    ⟨_, getnumBelow_padNat true (below hminute (by omega)) hminute _, ?_⟩
  refine Option.bind_eq_some_iff.mpr ⟨_, skipByte_cons _ _, ?_⟩
  refine Option.bind_eq_some_iff.mpr
    ⟨_, getnumBelow_padNat true (below hsecond (by omega)) hsecond _, ?_⟩
  dsimp only
  rw [getFraction_formatFraction hnanos]
  refine Option.bind_eq_some_iff.mpr ⟨(0, []), show getZone (ascii "Z") = _ by decide, ?_⟩
  dsimp only
  rw [if_pos ⟨rfl, hmonth, hday, hday'⟩, sub_zero]
  push_cast
  rfl

/-- **The text of a time denotes it**, before the year 10000. -/
theorem parseTime_formatTime {t : ℤ} (h : 0 ≤ t) (ht : t < secondsEnd * second) :
    parseTime (formatTime t) = some t := by
  obtain ⟨n, rfl⟩ := Int.eq_ofNat_of_zero_le h
  have hsecond : second = ((10 ^ 9 : ℕ) : ℤ) := by decide
  have hseconds : ((n : ℤ) / second).toNat = n / 10 ^ 9 := by
    rw [hsecond, ← Int.natCast_ediv, Int.toNat_natCast]
  have hnanos : ((n : ℤ) % second).toNat = n % 10 ^ 9 := by
    rw [hsecond, ← Int.natCast_emod, Int.toNat_natCast]
  have hend : n / 10 ^ 9 < secondsEnd := by
    rw [hsecond] at ht
    have hlt : n < secondsEnd * 10 ^ 9 := by exact_mod_cast ht
    exact (Nat.div_lt_iff_lt_mul (Nat.pow_pos (by omega))).mpr hlt
  have hyear := year_lt hend
  have hdate := isDate_dateOf (n / 10 ^ 9 / 86400)
  have hsplit := Nat.div_add_mod n (10 ^ 9)
  rw [formatTime_eq h, hseconds, hnanos]
  generalize n / 10 ^ 9 = s at *
  rw [secondsText, dateText, clockText]
  simp only [List.append_assoc, List.cons_append]
  rw [parseTime_parts hyear hdate.month_pos hdate.month_lt hdate.day_pos hdate.day_le (by omega)
    (by omega) (by omega) (Nat.mod_lt n (by omega)), hdate.days_eq]
  -- the days, hours, minutes and seconds add up
  have hclock : ((s / 86400 * 24 + s % 86400 / 3600) * 60 + s % 86400 / 60 % 60) * 60 +
      s % 86400 % 60 = s := by omega
  rw [hclock, ← hsplit]
  push_cast
  rw [Int.mul_comm]
  norm_num

end Veduta.Go
