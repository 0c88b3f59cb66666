import Veduta.Go.Fmt
import Veduta.Go.JsonRead

/-!
# Doubles, written and read back

Both `strconv.FormatFloat` in its shortest form and `fmt.Sprint` write as few digits as read back as
the same double.  Eighteen are always enough: they leave less than a tenth of a unit in the last
place.  So the text of a double denotes a number that rounds to it, and doubles are told apart by
their texts.
-/

namespace Veduta.Go

/-- A value that a double can have. -/
def IsFloat64 (q : ℚ) : Prop := toFloat64 q = some q

/-! ## Rounding -/

variable {a x q : ℚ}

theorem roundEven_of_near {k : ℤ} (hlow : (k : ℚ) - 1 / 2 < x) (hhigh : x ≤ k) :
    roundEven x = k := by
  rcases hhigh.lt_or_eq with hlt | heq
  · have hfloor : ⌊x⌋ = k - 1 := by
      rw [Int.floor_eq_iff]
      push_cast
      constructor <;> linarith
    have hfar : 1 / 2 < x - ⌊x⌋ := by
      rw [hfloor]
      push_cast
      linarith
    rw [roundEven, if_neg (not_lt.mpr hfar.le), if_pos hfar, hfloor]
    omega
  · rw [heq, roundEven_intCast]

theorem IsFloat64.round (h : IsFloat64 a) (ha : 0 < a) : roundFloat64 a = a ∧ a < 2 ^ 1024 := by
  rw [IsFloat64, toFloat64, if_neg ha.ne', abs_of_pos ha] at h
  split_ifs at h with hrange
  have heq : roundFloat64 a = a := Option.some.inj h
  rw [heq] at hrange
  exact ⟨heq, not_le.mp hrange⟩

theorem toFloat64_neg (q : ℚ) : toFloat64 (-q) = (toFloat64 q).map (- ·) := by
  by_cases hzero : q = 0
  · subst hzero
    decide +kernel
  · rw [toFloat64, toFloat64, if_neg hzero, if_neg (neg_ne_zero.mpr hzero), abs_neg]
    split_ifs with hrange hneg hpos hpos
    · rfl
    · linarith
    · simp
    · simp
    · have hle := lt_of_le_of_ne (not_lt.mp hpos) hzero
      linarith

theorem IsFloat64.neg (h : IsFloat64 a) : IsFloat64 (-a) := by
  rw [IsFloat64, toFloat64_neg, h, Option.map_some]

theorem div_ulp_lt (a : ℚ) : a / 2 ^ ulpExponent a < 2 ^ 53 := by
  have hlt := Int.lt_zpow_succ_log_self (b := 2) (by norm_num) a
  rw [div_lt_iff₀ (by positivity)]
  calc a < 2 ^ (Int.log 2 a + 1) := by exact_mod_cast hlt
    _ ≤ 2 ^ (53 + ulpExponent a) := by
        refine zpow_le_zpow_right₀ (by norm_num) ?_
        rw [ulpExponent]
        omega
    _ = 2 ^ 53 * 2 ^ ulpExponent a := by
        rw [zpow_add₀ (by norm_num)]
        norm_num

/-- **What is close below a double rounds to it.** -/
theorem roundFloat64_of_near (ha : 0 < a) (hround : roundFloat64 a = a) (hlow : a - a / 10 ^ 17 < x)
    (hhigh : x ≤ a) : roundFloat64 x = a := by
  have hx : a / 2 < x := by
    have hsmall : a / 10 ^ 17 ≤ a / 2 := by
      gcongr
      norm_num
    linarith
  have hxpos : 0 < x := by linarith
  -- the leading bit is the same, or one below
  have hlog : Int.log 2 x ≤ Int.log 2 a := Int.log_mono_right hxpos hhigh
  have hlog' : Int.log 2 a - 1 ≤ Int.log 2 x := by
    rw [← Int.zpow_le_iff_le_log (by norm_num) hxpos]
    have hpow := Int.zpow_log_le_self (b := 2) (by norm_num) ha
    rw [zpow_sub_one₀ (by norm_num)]
    push_cast at hpow ⊢
    linarith
  have hk : a = roundEven (a / 2 ^ ulpExponent a) * 2 ^ ulpExponent a := hround.symm
  have hbound := div_ulp_lt a
  generalize hu : ulpExponent a = u at hk hbound
  generalize roundEven (a / 2 ^ u) = k at hk
  have hupos : (0 : ℚ) < 2 ^ u := by positivity
  have hquot : a / 2 ^ u = k := by
    rw [div_eq_iff hupos.ne']
    exact hk
  rw [hquot] at hbound
  -- the distance in units of the last place
  have hdist : (k : ℚ) - x / 2 ^ u < 1 / 8 := by
    have hlt : (a - x) / 2 ^ u < a / 10 ^ 17 / 2 ^ u := by
      gcongr
      linarith
    have hsmall : a / 10 ^ 17 / 2 ^ u = k / 10 ^ 17 := by
      rw [div_right_comm, hquot]
    rw [hsmall, sub_div, hquot] at hlt
    have hk17 : (k : ℚ) / 10 ^ 17 < 1 / 8 := by
      rw [div_lt_iff₀ (by positivity)]
      calc (k : ℚ) < 2 ^ 53 := hbound
        _ < 1 / 8 * 10 ^ 17 := by norm_num
    linarith
  have hdiv : x / 2 ^ u ≤ k := by
    rw [← hquot]
    gcongr
  have hcases : ulpExponent x = u ∨ ulpExponent x = u - 1 := by
    rw [ulpExponent] at hu ⊢
    omega
  rcases hcases with hsame | hbelow
  · rw [roundFloat64, hsame, roundEven_of_near (by linarith) hdiv, ← hk]
  · have htwice : x / 2 ^ (u - 1) = 2 * (x / 2 ^ u) := by
      rw [zpow_sub_one₀ (by norm_num)]
      field_simp
    have hnear : roundEven (x / 2 ^ (u - 1)) = 2 * k := by
      apply roundEven_of_near
      · rw [htwice]
        push_cast
        linarith
      · rw [htwice]
        push_cast
        linarith
    rw [roundFloat64, hbelow, hnear, zpow_sub_one₀ (by norm_num)]
    push_cast
    rw [hk]
    field_simp

theorem toFloat64_of_near (ha : 0 < a) (h : IsFloat64 a) (hlow : a - a / 10 ^ 17 < x)
    (hhigh : x ≤ a) : toFloat64 x = some a := by
  obtain ⟨hround, hrange⟩ := h.round ha
  have hx : 0 < x := by
    have hle : a / 10 ^ 17 ≤ a := div_le_self ha.le (by norm_num)
    linarith
  rw [toFloat64, if_neg hx.ne', abs_of_pos hx, roundFloat64_of_near ha hround hlow hhigh,
    if_neg (not_le.mpr hrange), if_pos hx]

/-- With eighteen digits, one of the two nearest numbers reads back. -/
theorem nearerUnits_ne_none (ha : 0 < a) (h : IsFloat64 a) :
    nearerUnits a (10 ^ (Int.log 10 a - 17)) ⌊a / 10 ^ (Int.log 10 a - 17)⌋ ≠ none := by
  have hunit : (0 : ℚ) < 10 ^ (Int.log 10 a - 17) := by positivity
  have hsmall : (10 : ℚ) ^ (Int.log 10 a - 17) ≤ a / 10 ^ 17 := by
    have hpow := Int.zpow_log_le_self (b := 10) (by norm_num) ha
    push_cast at hpow
    have hsplit : (10 : ℚ) ^ (Int.log 10 a - 17) = 10 ^ Int.log 10 a / 10 ^ 17 := by
      rw [zpow_sub₀ (by norm_num)]
      norm_num
    rw [hsplit]
    gcongr
  generalize (10 : ℚ) ^ (Int.log 10 a - 17) = unit at hunit hsmall ⊢
  have hle : (⌊a / unit⌋ : ℚ) * unit ≤ a := by
    rw [← le_div_iff₀ hunit]
    exact Int.floor_le _
  have hlt : a - unit < (⌊a / unit⌋ : ℚ) * unit := by
    have hfloor := Int.lt_floor_add_one (a / unit)
    rw [div_lt_iff₀ hunit] at hfloor
    linarith
  have hreads : toFloat64 (⌊a / unit⌋ * unit) = some a :=
    toFloat64_of_near ha h (by linarith) hle
  rw [nearerUnits]
  dsimp only
  split_ifs with hfirst hsecond
  · simp
  · simp
  · simp only [hreads, decide_true, Bool.true_and, Bool.or_eq_true, Bool.not_eq_true',
      not_or] at hfirst
    simp only [Bool.not_eq_true] at hsecond
    exact absurd hsecond hfirst.1

/-- **The digits that are written read back.** -/
theorem shortestDigits_reads (ha : 0 < a) (h : IsFloat64 a) {fuel count : ℕ} (hcount : count ≤ 17)
    (hfuel : 17 < fuel + count) :
    toFloat64 ((shortestDigits a fuel count).1 * 10 ^ (shortestDigits a fuel count).2) =
      some a := by
  induction fuel generalizing count with
  | zero => omega
  | succ fuel ih =>
    rw [shortestDigits]
    cases hnear : nearerUnits a (10 ^ (Int.log 10 a - count))
        ⌊a / 10 ^ (Int.log 10 a - count)⌋ with
    | some n => exact (nearerUnits_eq_some hnear).2
    | none =>
      have hne : count ≠ 17 := by
        rintro rfl
        exact nearerUnits_ne_none ha h hnear
      exact ih (by omega) (by omega)

theorem trimZeros_value (fuel n : ℕ) (exp : ℤ) :
    ((trimZeros fuel n exp).1 : ℚ) * 10 ^ (trimZeros fuel n exp).2 = n * 10 ^ exp := by
  induction fuel generalizing n exp with
  | zero => rfl
  | succ fuel ih =>
    rw [trimZeros]
    split_ifs with hzero
    · have hn : (n : ℚ) = (n / 10 : ℕ) * 10 := by
        exact_mod_cast (Nat.div_mul_cancel (Nat.dvd_of_mod_eq_zero hzero.1)).symm
      rw [ih, hn, zpow_add_one₀ (by norm_num)]
      ring
    · rfl

/-- **The number that a numeral denotes.** -/
theorem numberValue_numeral {sign int frac exp : Bytes} (h : IsNumeral sign int frac exp) :
    numberValue (sign ++ (int ++ (frac ++ exp))) =
      (if sign = [] then 1 else -1) * digitsValue (int ++ frac.drop 1) *
        10 ^ (exponentValue (exp.drop 1) - (frac.drop 1).length) := by
  have hexp : ∀ b ∈ exp.head?, isDigit b = false ∧ b ≠ 0x2e := by
    intro b hb
    rcases h.exp with rfl | ⟨c, ds, rfl, -⟩
    · cases hb
    · cases hb
      decide
  have hint : (int ++ (frac ++ exp)).span isDigit = (int, frac ++ exp) := by
    refine span_isDigit h.int_digits fun b hb => ?_
    rcases h.frac with rfl | ⟨ds, rfl, -⟩
    · exact (hexp b hb).1
    · cases hb
      decide
  rw [numberValue, numberSign_append h]
  dsimp only
  rw [hint]
  dsimp only
  generalize (if sign = [] then (1 : ℚ) else -1) = unit
  rcases h.frac with rfl | ⟨ds, rfl, -, hds⟩
  · rw [List.nil_append]
    cases exp with
    | nil => rfl
    | cons b exp =>
      have hb := (hexp b rfl).2
      split
      · rename_i heq
        exact absurd (List.cons.inj heq).1 hb
      · rfl
  · change unit * digitsValue (int ++ ((ds ++ exp).span isDigit).1) * 10 ^ (exponentValue
      (((ds ++ exp).span isDigit).2.drop 1) - (((ds ++ exp).span isDigit).1.length : ℤ)) = _
    rw [span_isDigit hds fun b hb => (hexp b hb).1]
    rfl

/-- An exponent with a sign. -/
def IsExponent (exp : Bytes) : Prop :=
  exp = [] ∨ ∃ c ds, exp = chr 'e' :: c :: ds ∧ (c = chr '+' ∨ c = chr '-') ∧ ds ≠ [] ∧
    ∀ b ∈ ds, isDigit b = true

section

variable {n : ℕ} {sign : Bytes} (hn : 0 < n) (hsign : sign = [] ∨ sign = [0x2d])

include hn hsign

theorem numberValue_placePoint (point : ℤ) {exp : Bytes} (hexp : IsExponent exp) :
    numberValue (sign ++ (placePoint (formatNat n) point ++ exp)) =
      (if sign = [] then 1 else -1) *
        (n * 10 ^ (point - (formatNat n).length + exponentValue (exp.drop 1))) := by
  obtain ⟨int, frac, heq, hvalue, hnumeral⟩ := placePoint_eq hn point
  rw [heq, List.append_assoc, numberValue_numeral (hnumeral hsign hexp), hvalue, mul_assoc,
    mul_assoc, ← zpow_add₀ (by norm_num)]
  congr 3
  ring

theorem numberValue_point (point : ℤ) :
    numberValue (sign ++ placePoint (formatNat n) point) =
      (if sign = [] then 1 else -1) * (n * 10 ^ (point - (formatNat n).length)) := by
  have h := numberValue_placePoint hn hsign point (.inl rfl : IsExponent [])
  rw [List.append_nil, List.drop_nil, show exponentValue [] = 0 from rfl, add_zero] at h
  exact h

theorem numberValue_exponent (point : ℤ) {ds : Bytes} (hne : ds ≠ [])
    (hds : ∀ b ∈ ds, isDigit b = true) (hvalue : digitsValue ds = (point - 1).natAbs) :
    numberValue (sign ++ (placePoint (formatNat n) 1 ++
        chr 'e' :: (if point ≤ 0 then chr '-' else chr '+') :: ds)) =
      (if sign = [] then 1 else -1) * (n * 10 ^ (point - (formatNat n).length)) := by
  have hexp : exponentValue ((if point ≤ 0 then chr '-' else chr '+') :: ds) = point - 1 := by
    split_ifs with hle
    · change -(digitsValue ds : ℤ) = point - 1
      omega
    · change (digitsValue ds : ℤ) = point - 1
      omega
  rw [numberValue_placePoint hn hsign 1 (.inr ⟨_, ds, rfl, ?_, hne, hds⟩), List.drop_one,
    List.tail_cons, hexp]
  · congr 3
    ring
  · split_ifs
    · exact .inr rfl
    · exact .inl rfl

end

/-! ## Reading back -/

/-- A text of a positive double is **read back**: it denotes a number that rounds to the double, and
so it does after a sign. -/
def ReadsBack (a : ℚ) (text : Bytes) : Prop :=
  ∃ x : ℚ, toFloat64 x = some a ∧ numberValue text = x ∧ numberValue (chr '-' :: text) = -x

theorem ReadsBack.of_sign {text : Bytes} (hx : toFloat64 x = some a)
    (h : ∀ sign : Bytes, sign = [] ∨ sign = [0x2d] →
      numberValue (sign ++ text) = (if sign = [] then 1 else -1) * x) : ReadsBack a text := by
  refine ⟨x, hx, ?_, ?_⟩
  · have hplus := h [] (.inl rfl)
    rw [if_pos rfl, one_mul] at hplus
    exact hplus
  · have hminus := h [0x2d] (.inr rfl)
    rw [if_neg (by simp), neg_one_mul] at hminus
    exact hminus

/-- The digits that are written, without trailing zeros. -/
theorem exists_digits (ha : 0 < a) (h : IsFloat64 a) :
    ∃ n exp, trimZeros 20 (shortestDigits a 18 0).1.toNat (shortestDigits a 18 0).2 = (n, exp) ∧
      0 < n ∧ toFloat64 (n * 10 ^ exp) = some a := by
  have hreads := @shortestDigits_reads a ha h 18 0 (by omega) (by omega)
  have hshortest := shortestDigits_pos ha 18 0
  generalize shortestDigits a 18 0 = d at hreads hshortest
  have hpos : 0 < d.1 := by
    rcases hshortest with hpos | ⟨hzero, -⟩
    · exact hpos
    · rw [hzero, Int.cast_zero, zero_mul, toFloat64, if_pos rfl] at hreads
      exact absurd (Option.some.inj hreads) ha.ne
  have htrim := trimZeros_pos (Int.lt_toNat.mpr hpos) d.2 20
  have hvalue := trimZeros_value 20 d.1.toNat d.2
  generalize trimZeros 20 d.1.toNat d.2 = t at htrim hvalue ⊢
  refine ⟨t.1, t.2, rfl, htrim, ?_⟩
  rw [hvalue, ← hreads]
  congr 2
  exact_mod_cast Int.toNat_of_nonneg hpos.le

theorem readsBack_sprintPositive (ha : 0 < a) (h : IsFloat64 a) :
    ReadsBack a (sprintPositive a) := by
  obtain ⟨n, exp, htrim, hn, hreads⟩ := exists_digits ha h
  refine .of_sign hreads fun sign hsign => ?_
  rw [sprintPositive]
  dsimp only
  rw [htrim]
  dsimp only
  have hpoint : exp = (formatNat n).length + exp - (formatNat n).length := by ring
  generalize ((formatNat n).length + exp : ℤ) = point at hpoint ⊢
  by_cases hlarge : point < -3 ∨ 6 < point
  · rw [if_pos hlarge, hpoint]
    generalize hk : (point - 1).natAbs = k
    apply numberValue_exponent hn hsign point
    · split_ifs
      · simp
      · exact formatNat_ne_nil _
    · intro b hb
      split_ifs at hb
      · rcases List.mem_cons.mp hb with rfl | hb
        · decide
        · exact isDigit_of_mem_formatNat hb
      · exact isDigit_of_mem_formatNat hb
    · rw [hk]
      split_ifs
      · rw [← List.singleton_append, digitsValue_append, digitsValue_formatNat]
        rw [show digitsValue [chr '0'] = 0 from rfl, Nat.zero_mul, Nat.zero_add]
      · exact digitsValue_formatNat k
  · rw [if_neg hlarge, hpoint]
    exact numberValue_point hn hsign point

/-- What reads back for the positive doubles does so for all, with a sign before the negative
ones. -/
theorem toFloat64_signed (h : IsFloat64 q) {f : ℚ → Bytes}
    (hf : ∀ a, 0 < a → IsFloat64 a → ReadsBack a (f a)) :
    toFloat64 (numberValue (if q = 0 then ascii "0" else if 0 < q then f q
      else chr '-' :: f (-q))) = some q := by
  split_ifs with hzero hpos
  · rw [hzero]
    decide +kernel
  · obtain ⟨x, hx, hvalue, -⟩ := hf q hpos h
    rw [hvalue, hx]
  · have hneg : 0 < -q := by
      rw [Left.neg_pos_iff]
      exact lt_of_le_of_ne (not_lt.mp hpos) hzero
    obtain ⟨x, hx, -, hvalue⟩ := hf (-q) hneg h.neg
    rw [hvalue, toFloat64_neg, hx, Option.map_some, neg_neg]

/-- **A double is read back from its printed text.** -/
theorem toFloat64_sprintFloat (h : IsFloat64 q) :
    toFloat64 (numberValue (sprintFloat q)) = some q :=
  toFloat64_signed h fun _ => readsBack_sprintPositive

end Veduta.Go
