import Veduta.Go.JsonRead
import Veduta.Go.Time

/-!
# Reading structs back

What a struct is written as can be read back field by field: a field that is left out comes back
as its zero value, any other as its own text is decoded.  A whole number that fits a double comes
back as it was, and so does the text of a time.
-/

namespace Veduta.Go

/-! ## Numbers -/

variable {n k : ℕ} {a : ℚ}

/-- A whole number of at most 53 bits is its own nearest double. -/
theorem roundFloat64_natCast (hpos : 0 < n) (h : n < 2 ^ 53) : roundFloat64 n = n := by
  have hlog : Int.log 2 (n : ℚ) = Nat.log 2 n := Int.log_natCast 2 n
  have hle : Nat.log 2 n ≤ 52 := Nat.lt_succ_iff.mp (Nat.log_lt_of_lt_pow (by omega) h)
  obtain ⟨k, hk⟩ : ∃ k : ℕ, ulpExponent n = -(k : ℤ) := by
    refine ⟨52 - Nat.log 2 n, ?_⟩
    rw [ulpExponent, hlog]
    omega
  have hwhole : (n : ℚ) / 2 ^ (-(k : ℤ)) = ((n * 2 ^ k : ℤ) : ℚ) := by
    rw [zpow_neg, div_inv_eq_mul]
    norm_cast
  rw [roundFloat64, hk, hwhole, roundEven_intCast, ← hwhole]
  field_simp

theorem toFloat64_natCast (h : n < 2 ^ 53) : toFloat64 n = some (n : ℚ) := by
  rcases Nat.eq_zero_or_pos n with rfl | hpos
  · rw [toFloat64, if_pos (by simp)]
    simp
  · have hrat : (0 : ℚ) < n := by exact_mod_cast hpos
    have hrange : ¬ (2 : ℚ) ^ 1024 ≤ n := by
      rw [not_le]
      calc (n : ℚ) < 2 ^ 53 := by exact_mod_cast h
        _ < 2 ^ 1024 := pow_lt_pow_right₀ (by norm_num) (by norm_num)
    rw [toFloat64, if_neg hrat.ne', abs_of_pos hrat, roundFloat64_natCast hpos h, if_neg hrange,
      if_pos hrat]

theorem ulpExponent_of_one_le (h : 1 ≤ a) : 0 ≤ Int.log 2 a ∧ ulpExponent a = Int.log 2 a - 52 := by
  have hlog : 0 ≤ Int.log 2 a := by
    rw [← Int.zpow_le_iff_le_log (by norm_num) (by linarith)]
    simpa using h
  exact ⟨hlog, by rw [ulpExponent, max_eq_left (by omega)]⟩

theorem one_le_roundFloat64 (h : 1 ≤ a) : 1 ≤ roundFloat64 a := by
  obtain ⟨hlog, hulp⟩ := ulpExponent_of_one_le h
  have hself : (2 : ℚ) ^ Int.log 2 a ≤ a := by
    exact_mod_cast Int.zpow_log_le_self (by norm_num) (show 0 < a by linarith)
  have hsplit : (2 : ℚ) ^ Int.log 2 a = ((2 ^ 52 : ℤ) : ℚ) * 2 ^ (Int.log 2 a - 52) := by
    rw [Int.cast_pow, Int.cast_ofNat, ← zpow_natCast, ← zpow_add₀ (by norm_num)]
    congr 1
    omega
  have hquot : ((2 ^ 52 : ℤ) : ℚ) ≤ a / 2 ^ (Int.log 2 a - 52) := by
    rwa [le_div_iff₀ (by positivity), ← hsplit]
  have hround : (2 ^ 52 : ℤ) ≤ roundEven (a / 2 ^ (Int.log 2 a - 52)) := by
    have hfloor := Int.le_floor.mpr hquot
    rw [roundEven]
    split_ifs <;> omega
  rw [roundFloat64, hulp]
  calc (1 : ℚ) = 2 ^ (0 : ℤ) := by norm_num
    _ ≤ 2 ^ Int.log 2 a := zpow_le_zpow_right₀ (by norm_num) hlog
    _ = ((2 ^ 52 : ℤ) : ℚ) * 2 ^ (Int.log 2 a - 52) := hsplit
    _ ≤ roundEven (a / 2 ^ (Int.log 2 a - 52)) * 2 ^ (Int.log 2 a - 52) := by gcongr

/-- Rounding to a double does not go above a power of two. -/
theorem roundFloat64_le (h : 1 ≤ a) (hk : a < 2 ^ k) : roundFloat64 a ≤ 2 ^ k := by
  obtain ⟨hlog, hulp⟩ := ulpExponent_of_one_le h
  have hlt : Int.log 2 a < k := by
    rw [← Int.lt_zpow_iff_log_lt (by norm_num) (by linarith)]
    simpa using hk
  obtain ⟨n, hn⟩ : ∃ n : ℕ, (k : ℤ) - (Int.log 2 a - 52) = n :=
    ⟨(k - (Int.log 2 a - 52)).toNat, by omega⟩
  have hsplit : (2 : ℚ) ^ k = ((2 ^ n : ℤ) : ℚ) * 2 ^ (Int.log 2 a - 52) := by
    rw [Int.cast_pow, Int.cast_ofNat, ← zpow_natCast, ← zpow_natCast, ← zpow_add₀ (by norm_num),
      ← hn]
    congr 1
    omega
  have hquot : a / 2 ^ (Int.log 2 a - 52) < ((2 ^ n : ℤ) : ℚ) := by
    rwa [div_lt_iff₀ (by positivity), ← hsplit]
  rw [roundFloat64, hulp]
  calc (roundEven (a / 2 ^ (Int.log 2 a - 52)) : ℚ) * 2 ^ (Int.log 2 a - 52)
      ≤ ((2 ^ n : ℤ) : ℚ) * 2 ^ (Int.log 2 a - 52) := by
        gcongr
        exact roundEven_le hquot
    _ = 2 ^ k := hsplit.symm

/-- A number from one on that is not too large is read as a double from one on. -/
theorem one_le_toFloat64 (h : 1 ≤ a) (hlt : a < 2 ^ 64) : ∃ b, toFloat64 a = some b ∧ 1 ≤ b := by
  have hpos : 0 < a := by linarith
  have hrange : ¬ (2 : ℚ) ^ 1024 ≤ roundFloat64 a := by
    rw [not_le]
    calc roundFloat64 a ≤ 2 ^ 64 := roundFloat64_le h hlt
      _ < 2 ^ 1024 := pow_lt_pow_right₀ (by norm_num) (by norm_num)
  refine ⟨roundFloat64 a, ?_, one_le_roundFloat64 h⟩
  rw [toFloat64, if_neg hpos.ne', abs_of_pos hpos, if_neg hrange, if_pos hpos]

/-- The digits of a whole number, with the zeros that follow them. -/
theorem shortestDigits_natCast (hpos : 0 < n) (h : n < 2 ^ 52) {fuel count : ℕ}
    (hcount : count ≤ Nat.log 10 n) (hfuel : Nat.log 10 n < fuel + count) :
    ∃ m k : ℕ, shortestDigits n fuel count = ((m : ℤ), (k : ℤ)) ∧ m * 10 ^ k = n := by
  induction fuel generalizing count with
  | zero => omega
  | succ fuel ih =>
    obtain ⟨k, hk⟩ := Nat.exists_eq_add_of_le hcount
    have hexp : Int.log 10 (n : ℚ) - count = (k : ℤ) := by
      rw [Int.log_natCast 10 n, hk]
      omega
    have hfloor : ⌊(n : ℚ) / 10 ^ (k : ℤ)⌋ = ((n / 10 ^ k : ℕ) : ℤ) := by
      have h := Rat.floor_natCast_div_natCast n (10 ^ k)
      rw [zpow_natCast]
      exact_mod_cast h
    have hunit : 10 ^ k ≤ n := by
      calc 10 ^ k ≤ 10 ^ Nat.log 10 n := Nat.pow_le_pow_right (by omega) (by omega)
        _ ≤ n := Nat.pow_log_le_self 10 (by omega)
    have hreads : ∀ m : ℕ, m ≤ n / 10 ^ k + 1 →
        toFloat64 ((m : ℤ) * 10 ^ (k : ℤ)) = some (((m * 10 ^ k : ℕ)) : ℚ) := by
      intro m hm
      have hlt : m * 10 ^ k < 2 ^ 53 := by
        calc m * 10 ^ k ≤ (n / 10 ^ k + 1) * 10 ^ k := Nat.mul_le_mul_right _ hm
          _ = n / 10 ^ k * 10 ^ k + 10 ^ k := by ring
          _ ≤ n + n := Nat.add_le_add (Nat.div_mul_le_self n _) hunit
          _ < 2 ^ 53 := by omega
      rw [← toFloat64_natCast hlt]
      norm_cast
    simp only [shortestDigits, hexp, hfloor]
    cases hnear : nearerUnits (n : ℚ) (10 ^ (k : ℤ)) ((n / 10 ^ k : ℕ) : ℤ) with
    | some m =>
      obtain ⟨hm, hread⟩ := nearerUnits_eq_some hnear
      generalize n / 10 ^ k = q at hm hreads
      obtain ⟨m, rfl⟩ : ∃ m' : ℕ, m = m' := ⟨m.toNat, by omega⟩
      rw [hreads m (by omega)] at hread
      exact ⟨m, k, rfl, by exact_mod_cast Option.some.inj hread⟩
    | none =>
      have hlt : count < Nat.log 10 n := by
        rw [hk]
        by_contra hzero
        obtain rfl : k = 0 := by omega
        simp [nearerUnits, toFloat64_natCast (show n < 2 ^ 53 by omega)] at hnear
      exact ih hlt (by omega)

theorem trimZeros_natCast (fuel : ℕ) {m : ℕ} :
    ∃ m' k' : ℕ, trimZeros fuel m k = (m', (k' : ℤ)) ∧ m' * 10 ^ k' = m * 10 ^ k := by
  induction fuel generalizing m k with
  | zero => exact ⟨m, k, rfl, rfl⟩
  | succ fuel ih =>
    rw [trimZeros]
    split_ifs with hzero
    · obtain ⟨m', k', heq, hvalue⟩ := ih (m := m / 10) (k := k + 1)
      refine ⟨m', k', by exact_mod_cast heq, ?_⟩
      rw [hvalue, pow_succ', ← mul_assoc, Nat.div_mul_cancel (Nat.dvd_of_mod_eq_zero hzero.1)]
    · exact ⟨m, k, rfl, rfl⟩

theorem length_formatNat_le {d : ℕ} (h : n < 10 ^ (d + 1)) : (formatNat n).length ≤ d + 1 := by
  induction d generalizing n with
  | zero => rw [formatNat_of_lt (by omega)]; rfl
  | succ d ih =>
    rcases Nat.lt_or_ge n 10 with hlt | hge
    · rw [formatNat_of_lt hlt, List.length_singleton]
      omega
    · have hdiv : n / 10 < 10 ^ (d + 1) := by
        rw [Nat.div_lt_iff_lt_mul (by omega)]
        exact h
      rw [formatNat_of_le hge, List.length_append, List.length_singleton]
      exact Nat.add_le_add_right (ih hdiv) 1

/-- **A whole number is written as its digits.** -/
theorem formatFloat64_natCast (h : n < 2 ^ 52) : formatFloat64 n = formatNat n := by
  rcases Nat.eq_zero_or_pos n with rfl | hpos
  · rfl
  have hlog : Nat.log 10 n < 18 := by
    apply Nat.log_lt_of_lt_pow (by omega)
    omega
  obtain ⟨m, k, hdigits, hvalue⟩ := shortestDigits_natCast hpos h (Nat.zero_le _) hlog
  obtain ⟨m', k', htrim, hvalue'⟩ := trimZeros_natCast 20 (m := m) (k := k)
  have hpos' : 0 < m' := by
    rcases Nat.eq_zero_or_pos m' with rfl | hm
    · omega
    · exact hm
  have hformat : formatNat n = formatNat m' ++ List.replicate k' 0x30 := by
    rw [← formatNat_mul_pow hpos', hvalue', hvalue]
  have hlength : (formatNat m').length + k' ≤ 16 := by
    have hle := length_formatNat_le (n := n) (d := 15) (by omega)
    rwa [hformat, List.length_append, List.length_replicate] at hle
  have hne : 0 < (formatNat m').length := List.length_pos_iff.mpr (formatNat_ne_nil m')
  have hrat : (0 : ℚ) < n := by exact_mod_cast hpos
  rw [formatFloat64, if_neg hrat.ne', if_pos hrat, formatPositive, hdigits]
  dsimp only
  rw [Int.toNat_natCast, htrim]
  dsimp only
  rw [if_neg (by omega), placePoint, if_neg (by omega), if_pos (by omega), hformat]
  congr 2
  omega

/-- **A whole number is read back.** -/
theorem readInt_formatFloat64 (h : n < 2 ^ 52) : Codec.readInt (formatFloat64 n) = some n := by
  rw [formatFloat64_natCast h, Codec.readInt, parseInt_formatNat (by omega)]
  intro rest heq
  have hdigit := isDigit_of_mem_formatNat (n := n) (b := 0x2b) (by simp [heq])
  cases hdigit

theorem lt_of_mem_padNat {width : ℕ} {b : UInt8} (h : b ∈ padNat width n) : b < 0x80 := by
  have hdigit : ∀ b : UInt8, isDigit b = true → b < 0x80 := by decide +kernel
  rw [padNat, List.mem_append] at h
  rcases h with h | h
  · rw [List.eq_of_mem_replicate h]
    decide
  · exact hdigit b (isDigit_of_mem_formatNat h)

theorem lt_of_mem_formatTime {t : ℤ} {b : UInt8} (h : b ∈ formatTime t) : b < 0x80 := by
  have hyear : ∀ y : ℤ, b ∈ formatYear y → b < 0x80 := by
    intro y hy
    cases y with
    | ofNat n => exact lt_of_mem_padNat hy
    | negSucc n =>
      rcases List.mem_cons.mp hy with rfl | hy
      · decide
      · exact lt_of_mem_padNat hy
  have hfraction : ∀ n : ℕ, b ∈ formatFraction n → b < 0x80 := by
    intro n hn
    rw [formatFraction] at hn
    split_ifs at hn
    · cases hn
    · rcases List.mem_cons.mp hn with rfl | hn
      · decide
      · rw [trimDigits, List.mem_reverse] at hn
        exact lt_of_mem_padNat (List.mem_reverse.mp ((List.dropWhile_sublist _).subset hn))
  simp only [formatTime, List.mem_append, List.mem_cons] at h
  rcases h with ((((((h | rfl | h) | rfl | h) | rfl | h) | rfl | h) | rfl | h) | h) | h
  all_goals first
    | decide
    | exact lt_of_mem_padNat h
    | exact hyear _ h
    | exact hfraction _ h
    | skip
  cases List.mem_singleton.mp h
  decide

theorem sanitize_formatTime (t : ℤ) : sanitize (formatTime t) = formatTime t :=
  of_decide_eq_true (validString_of_lt fun _ => lt_of_mem_formatTime)

theorem textMembers_append (l l' : List (Bytes × JVal)) :
    textMembers (l ++ l') = textMembers l ++ textMembers l' := by
  induction l with
  | nil => rfl
  | cons entry l ih =>
    obtain ⟨k, v⟩ := entry
    rw [List.cons_append, textMembers, textMembers, ih, List.cons_append]

namespace Struct

variable {S : Type} {σ : Struct S} {f : StructField S} {s : S}

theorem field?_name (hf : f ∈ σ.fields) : σ.field? f.name = some f := by
  have hsome : (σ.fields.find? fun g => g.name = f.name).isSome = true := by
    rw [List.find?_isSome]
    exact ⟨f, hf, by simp⟩
  obtain ⟨g, hg⟩ := Option.isSome_iff_exists.mp hsome
  have hname : g.name = f.name := by simpa using List.find?_some hg
  rw [field?, hg, eq_of_name_eq (List.mem_of_find?_eq_some hg) hf hname]
  rfl

theorem textsOf_append (l l' : List (Bytes × Json)) :
    σ.textsOf f (l ++ l') = σ.textsOf f l ++ σ.textsOf f l' := List.filterMap_append

theorem textsOf_written {g : StructField S} (hg : g ∈ σ.fields) (hname : sanitize g.name = g.name) :
    σ.textsOf f (textMembers (g.written s)) =
      if g.name = f.name then (g.written s).map fun p => p.2.text else [] := by
  rw [StructField.written]
  by_cases hfg : g.name = f.name
  · rw [if_pos hfg]
    split_ifs with hempty
    · rfl
    · rw [textMembers, hname, textsOf, List.filterMap_cons, field?_name hg]
      simp [hfg, textMembers]
  · rw [if_neg hfg]
    split_ifs with hempty
    · rfl
    · rw [textMembers, hname, textsOf, List.filterMap_cons, field?_name hg]
      simp [hfg, textMembers]

theorem textsOf_encodeFields (hnames : ∀ g ∈ σ.fields, sanitize g.name = g.name)
    (hf : f ∈ σ.fields) :
    σ.textsOf f (textMembers (σ.encodeFields s)) = (f.written s).map fun p => p.2.text := by
  have hlist : ∀ l : List (StructField S), (∀ g ∈ l, g ∈ σ.fields) →
      (l.map StructField.name).Nodup →
      σ.textsOf f (textMembers (l.flatMap fun g => g.written s)) =
        if f.name ∈ l.map StructField.name then (f.written s).map fun p => p.2.text else [] := by
    intro l hl hnodup
    induction l with
    | nil => rfl
    | cons g l ih =>
      rw [List.map_cons, List.nodup_cons] at hnodup
      have hg := hl g List.mem_cons_self
      rw [List.flatMap_cons, textMembers_append, textsOf_append, textsOf_written hg (hnames g hg),
        ih (fun g' hg' => hl g' (List.mem_cons_of_mem g hg')) hnodup.2]
      by_cases hname : g.name = f.name
      · cases eq_of_name_eq hg hf hname
        simp [hnodup.1]
      · simp [hname, Ne.symm hname]
  rw [encodeFields, hlist σ.fields (fun _ => id) σ.nodup, if_pos (List.mem_map_of_mem hf)]

/-- **A struct is read back field by field.** -/
theorem get_of_text (hnames : ∀ g ∈ σ.fields, sanitize g.name = g.name) {s' : S}
    (h : σ.codec.decode σ.zero (σ.codec.encode s).text = some s') (hf : f ∈ σ.fields) :
    if f.omitEmpty && f.codec.isEmpty (f.get s) then f.get s' = f.codec.zero
    else f.codec.decode f.codec.zero (f.codec.encode (f.get s)).text = some (f.get s') := by
  have htext : (σ.codec.encode s).text = .obj (textMembers (σ.encodeFields s)) := by
    change (JVal.obj (σ.encodeFields s)).text = _
    rw [JVal.text]
  rw [htext] at h
  have hdec := decodeAll_textsOf h hf
  rw [σ.get_zero f hf, textsOf_encodeFields hnames hf, StructField.written] at hdec
  split_ifs at hdec ⊢
  · exact (Option.some.inj hdec).symm
  · rw [List.map_singleton, Codec.decodeAll] at hdec
    simpa [Codec.decodeAll] using hdec

end Struct

end Veduta.Go
