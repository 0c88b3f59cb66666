import Mathlib.Data.List.TakeWhile
import Veduta.Go.Fmt
import Veduta.Go.JsonBack

/-!
# Durations, written and read back

What `time.Duration.String` writes, `time.ParseDuration` reads as the same duration: a fraction is
written to the last nanosecond, and the terms are those of hours, minutes and seconds.
-/

namespace Veduta.Go

theorem digitsValue_snoc (ds : Bytes) (b : UInt8) :
    digitsValue (ds ++ [b]) = digitsValue ds * 10 + digitValue b := by
  rw [digitsValue, List.foldl_append]
  rfl

theorem digitsValue_lt {ds : Bytes} (h : ∀ b ∈ ds, isDigit b = true) :
    digitsValue ds < 10 ^ ds.length := by
  induction ds using List.reverseRecOn with
  | nil => decide
  | append_singleton ds b ih =>
    have hdigit : ∀ b : UInt8, isDigit b = true → digitValue b < 10 := by decide +kernel
    have hb := hdigit b (h b (by simp))
    have hds := ih fun c hc => h c (List.mem_append_left _ hc)
    rw [digitsValue_snoc, List.length_append, List.length_singleton, pow_succ]
    omega

theorem leadingFraction_eq {ds : Bytes} (hds : ∀ b ∈ ds, isDigit b = true)
    (hlen : ds.length ≤ 18) : leadingFraction ds = (digitsValue ds, 10 ^ ds.length) := by
  have hloop : ds.foldl (fun (x : ℕ × ℕ × Bool) b =>
      let next := x.1 * 10 + digitValue b
      if x.2.2 ∨ x.1 > (2 ^ 63 - 1) / 10 ∨ next > 2 ^ 63 then (x.1, x.2.1, true)
      else (next, x.2.1 * 10, false)) (0, 1, false) = (digitsValue ds, 10 ^ ds.length, false) := by
    induction ds using List.reverseRecOn with
    | nil => rfl
    | append_singleton ds b ih =>
      have hlt := digitsValue_lt hds
      rw [digitsValue_snoc, List.length_append, List.length_singleton] at hlt
      rw [List.length_append, List.length_singleton] at hlen
      have hpow : 10 ^ (ds.length + 1) ≤ 10 ^ 18 := Nat.pow_le_pow_right (by omega) hlen
      rw [List.foldl_append, ih (fun c hc => hds c (List.mem_append_left _ hc)) (by omega),
        digitsValue_snoc, List.length_append, List.length_singleton, pow_succ]
      refine if_neg ?_
      simp only [Bool.false_eq_true, false_or, not_or]
      omega
  exact congrArg (fun x : ℕ × ℕ × Bool => (x.1, x.2.1)) hloop

theorem durationFraction_eq (v d : ℕ) :
    ∃ ds, (durationFraction v (d + 1) = [] ∧ ds = [] ∨
        durationFraction v (d + 1) = chr '.' :: ds ∧ ds ≠ []) ∧
      (∀ b ∈ ds, isDigit b = true) ∧ ds.length ≤ d + 1 ∧
      digitsValue ds * 10 ^ (d + 1 - ds.length) = v % 10 ^ (d + 1) := by
  rw [durationFraction]
  have hlt : v % 10 ^ (d + 1) < 10 ^ (d + 1) := Nat.mod_lt _ (by positivity)
  generalize v % 10 ^ (d + 1) = m at hlt
  have hlength : (padNat (d + 1) m).length = d + 1 := by
    have hle := length_formatNat_le hlt
    rw [padNat, List.length_append, List.length_replicate]
    omega
  have hdigits : ∀ b ∈ padNat (d + 1) m, isDigit b = true := by
    intro b hb
    rcases List.mem_append.mp hb with hb | hb
    · exact isDigit_zeros hb
    · exact isDigit_of_mem_formatNat hb
  have hvalue : digitsValue (padNat (d + 1) m) = m := by
    rw [padNat, digitsValue_append, digitsValue_zeros, digitsValue_formatNat, Nat.zero_mul,
      Nat.zero_add]
  generalize padNat (d + 1) m = padded at hlength hdigits hvalue ⊢
  obtain ⟨j, hsplit⟩ := exists_eq_trimDigits_append padded
  generalize trimDigits padded = kept at hsplit ⊢
  subst hsplit
  rw [List.length_append, List.length_replicate] at hlength
  refine ⟨kept, ?_, fun b hb => hdigits b (List.mem_append_left _ hb), by omega, ?_⟩
  · by_cases hkept : kept = []
    · exact .inl ⟨if_pos hkept, hkept⟩
    · exact .inr ⟨if_neg hkept, hkept⟩
  · have hj : d + 1 - kept.length = j := by omega
    rw [← hvalue, digitsValue_append, digitsValue_zeros, List.length_replicate, hj, Nat.add_zero]

/-! ## Terms -/

theorem durationUnit_eq_some {u : Bytes} {unit : ℕ} (h : durationUnit u = some unit) :
    0 < unit ∧ u ≠ [] ∧ ∀ c ∈ u, (c ≠ chr '.' && !isDigit c) = true := by
  rw [durationUnit] at h
  split_ifs at h with hns hus hms hs hm hh
  · subst hns
    cases h
    decide +kernel
  · cases h
    rcases hus with rfl | rfl | rfl <;> decide +kernel
  · subst hms
    cases h
    decide +kernel
  · subst hs
    cases h
    decide +kernel
  · subst hm
    cases h
    decide +kernel
  · subst hh
    cases h
    decide +kernel

/-- **A term is read from the front of a text.** -/
theorem durationTerm_append {n unit : ℕ} {frac ds u rest : Bytes}
    (hfrac : frac = [] ∧ ds = [] ∨ frac = chr '.' :: ds ∧ ds ≠ [])
    (hds : ∀ b ∈ ds, isDigit b = true) (hlen : ds.length ≤ 18)
    (hunit : durationUnit u = some unit) (hrest : ∀ b ∈ rest.head?, isDigit b = true)
    (hrange : n * unit + digitsValue ds * unit / 10 ^ ds.length ≤ 2 ^ 63) :
    durationTerm (formatNat n ++ (frac ++ (u ++ rest))) =
      some (n * unit + digitsValue ds * unit / 10 ^ ds.length, rest) := by
  obtain ⟨hpos, hne, hu⟩ := durationUnit_eq_some hunit
  have hhead : ∀ b ∈ (u ++ rest).head?, b ≠ chr '.' ∧ isDigit b = false := by
    intro b hb
    rw [List.head?_append_of_ne_nil _ hne] at hb
    have hb := hu b (List.mem_of_mem_head? hb)
    rw [Bool.and_eq_true, decide_eq_true_eq, Bool.not_eq_true'] at hb
    exact hb
  have hspan : (formatNat n ++ (frac ++ (u ++ rest))).span isDigit =
      (formatNat n, frac ++ (u ++ rest)) := by
    refine span_isDigit (fun b => isDigit_of_mem_formatNat) fun b hb => ?_
    rcases hfrac with ⟨rfl, rfl⟩ | ⟨rfl, -⟩
    · exact (hhead b hb).2
    · cases hb
      decide
  have hfraction : fractionDigits (frac ++ (u ++ rest)) = (ds, u ++ rest) := by
    rcases hfrac with ⟨rfl, rfl⟩ | ⟨rfl, -⟩
    · rw [List.nil_append]
      cases hur : u ++ rest with
      | nil => rfl
      | cons b s =>
        rw [hur] at hhead
        exact if_neg (hhead b rfl).1
    · have hspan := span_isDigit hds fun b hb => (hhead b hb).2
      rw [List.span_eq_takeWhile_dropWhile] at hspan
      exact hspan
  have htake : (u ++ rest).takeWhile (fun c => c ≠ chr '.' && !isDigit c) = u := by
    rw [List.takeWhile_append_of_pos hu]
    cases rest with
    | nil => simp
    | cons b rest => simp [hrest b rfl]
  rw [List.span_eq_takeWhile_dropWhile] at hspan
  have htaken : (formatNat n ++ (frac ++ (u ++ rest))).takeWhile isDigit = formatNat n :=
    (Prod.mk.inj hspan).1
  have hdropped : (formatNat n ++ (frac ++ (u ++ rest))).dropWhile isDigit =
      frac ++ (u ++ rest) :=
    (Prod.mk.inj hspan).2
  have hvalue : (formatNat n).foldl (fun n b => n * 10 + digitValue b) 0 = n :=
    digitsValue_formatNat n
  have hn : n ≤ 2 ^ 63 / unit := by
    rw [Nat.le_div_iff_mul_le hpos]
    exact (Nat.le_add_right _ _).trans hrange
  have hdiv : 2 ^ 63 / unit ≤ 2 ^ 63 := Nat.div_le_self _ _
  rw [durationTerm]
  simp only [htaken, hdropped, hvalue, hfraction, htake, hunit, leadingFraction_eq hds hlen]
  rw [if_neg, Option.bind_eq_bind, Option.bind_some, if_neg, List.drop_left]
  · rw [not_or]
    exact ⟨not_lt.mpr hn, not_lt.mpr hrange⟩
  · rw [not_or]
    exact ⟨not_lt.mpr (hn.trans hdiv), fun h => formatNat_ne_nil n h.1⟩

/-- A text is read as terms that bring a sum to a total. -/
def ReadsTerms (s : Bytes) (d total : ℕ) : Prop :=
  ∀ fuel, s.length ≤ fuel → durationTerms fuel d s = some total

theorem ReadsTerms.nil (d : ℕ) : ReadsTerms [] d d := by
  intro fuel _
  cases fuel <;> rfl

theorem ReadsTerms.cons {n unit d total : ℕ} {frac ds u rest : Bytes}
    (hfrac : frac = [] ∧ ds = [] ∨ frac = chr '.' :: ds ∧ ds ≠ [])
    (hds : ∀ b ∈ ds, isDigit b = true) (hlen : ds.length ≤ 18)
    (hunit : durationUnit u = some unit) (hrest : ∀ b ∈ rest.head?, isDigit b = true)
    (hrange : d + (n * unit + digitsValue ds * unit / 10 ^ ds.length) ≤ 2 ^ 63)
    (h : ReadsTerms rest (d + (n * unit + digitsValue ds * unit / 10 ^ ds.length)) total) :
    ReadsTerms (formatNat n ++ (frac ++ (u ++ rest))) d total := by
  intro fuel hfuel
  have hterm := durationTerm_append (n := n) hfrac hds hlen hunit hrest (by omega)
  generalize n * unit + digitsValue ds * unit / 10 ^ ds.length = v at hterm hrange h
  have hshort : rest.length < (formatNat n ++ (frac ++ (u ++ rest))).length := by
    have hpos := List.length_pos_iff.mpr (formatNat_ne_nil n)
    simp only [List.length_append]
    omega
  generalize formatNat n ++ (frac ++ (u ++ rest)) = s at hterm hshort hfuel ⊢
  obtain ⟨fuel, rfl⟩ := Nat.exists_eq_add_one_of_ne_zero (n := fuel) (by omega)
  cases s with
  | nil => cases hshort
  | cons b s =>
    rw [durationTerms, hterm, Option.bind_eq_bind, Option.bind_some]
    dsimp only
    rw [Nat.mod_eq_of_lt (by omega), if_neg (by omega)]
    · exact h fuel (by omega)
    · simp

theorem ReadsTerms.whole {n unit d total : ℕ} {u rest : Bytes} (hunit : durationUnit u = some unit)
    (hrest : ∀ b ∈ rest.head?, isDigit b = true) (hrange : d + n * unit ≤ 2 ^ 63)
    (h : ReadsTerms rest (d + n * unit) total) :
    ReadsTerms (formatNat n ++ (u ++ rest)) d total := by
  have hzero : n * unit + digitsValue [] * unit / 10 ^ ([] : Bytes).length = n * unit := by
    simp [digitsValue]
  apply @ReadsTerms.cons n unit d total [] [] u rest (.inl ⟨rfl, rfl⟩) (by simp) (by simp) hunit
    hrest
  · rw [hzero]
    exact hrange
  · rw [hzero]
    exact h

theorem ReadsTerms.last {n v e d : ℕ} {u : Bytes} (he : e < 18)
    (hunit : durationUnit u = some (10 ^ (e + 1)))
    (hrange : d + (n * 10 ^ (e + 1) + v % 10 ^ (e + 1)) ≤ 2 ^ 63) :
    ReadsTerms (formatNat n ++ (durationFraction v (e + 1) ++ u)) d
      (d + (n * 10 ^ (e + 1) + v % 10 ^ (e + 1))) := by
  obtain ⟨ds, hfrac, hds, hlen, hvalue⟩ := durationFraction_eq v e
  have hfraction : digitsValue ds * 10 ^ (e + 1) / 10 ^ ds.length = v % 10 ^ (e + 1) := by
    have hpow : 10 ^ (e + 1) = 10 ^ (e + 1 - ds.length) * 10 ^ ds.length := by
      rw [← pow_add, Nat.sub_add_cancel hlen]
    rw [← hvalue]
    nth_rewrite 1 [hpow]
    rw [← Nat.mul_assoc, Nat.mul_div_cancel _ (by positivity)]
  have happ : durationFraction v (e + 1) ++ u = durationFraction v (e + 1) ++ (u ++ []) := by
    rw [List.append_nil]
  rw [happ]
  apply ReadsTerms.cons hfrac hds (by omega) hunit (by simp)
  · rw [hfraction]
    exact hrange
  · rw [hfraction]
    exact .nil _

/-! ## Reading back -/

theorem ReadsTerms.ne_zero {s : Bytes} {d total : ℕ} (h : ReadsTerms s d total) :
    s ≠ ascii "0" := by
  rintro rfl
  cases h 1 (by decide)

theorem readsTerms_durationString {d : ℤ} (hd : d.natAbs ≤ 2 ^ 63) :
    ∃ n rest, durationString d =
        (if d < 0 then chr '-' :: (formatNat n ++ rest) else formatNat n ++ rest) ∧
      ReadsTerms (formatNat n ++ rest) 0 d.natAbs := by
  have hsecond : durationUnit (ascii "s") = some (10 ^ (8 + 1)) := by decide
  have hminute : durationUnit (ascii "m") = some (60 * 10 ^ 9) := by decide
  have hhour : durationUnit (ascii "h") = some (3600 * 10 ^ 9) := by decide
  have hdigit : ∀ (n : ℕ) (s : Bytes), ∀ b ∈ (formatNat n ++ s).head?, isDigit b = true := by
    intro n s b hb
    rw [List.head?_append_of_ne_nil _ (formatNat_ne_nil n)] at hb
    exact isDigit_of_mem_formatNat (List.mem_of_mem_head? hb)
  have hread : ∀ {text : Bytes},
      (∃ n rest, text = formatNat n ++ rest ∧ ReadsTerms (formatNat n ++ rest) 0 d.natAbs) →
      ∃ n rest, (if d < 0 then chr '-' :: text else text) =
          (if d < 0 then chr '-' :: (formatNat n ++ rest) else formatNat n ++ rest) ∧
        ReadsTerms (formatNat n ++ rest) 0 d.natAbs := by
    intro text h
    obtain ⟨n, rest, htext, hreads⟩ := h
    exact ⟨n, rest, by rw [htext], hreads⟩
  rw [durationString]
  generalize d.natAbs = u at hd hread ⊢
  apply hread
  -- the sum of the terms down to the seconds
  have hlast : ∀ {n e d : ℕ} {text : Bytes}, durationUnit text = some (10 ^ (e + 1)) → e < 18 →
      d + (n * 10 ^ (e + 1) + u % 10 ^ (e + 1)) = u →
      ReadsTerms (formatNat n ++ (durationFraction u (e + 1) ++ text)) d u := by
    intro n e d text hunit he htotal
    have hlast := ReadsTerms.last he hunit (htotal.trans_le hd)
    rwa [htotal] at hlast
  split_ifs with hzero hns hus hms
  · subst hzero
    exact ⟨0, ascii "s", by decide,
      @ReadsTerms.whole 0 _ 0 _ _ [] hsecond (by simp) (by omega) (.nil _)⟩
  · refine ⟨u, ascii "ns", rfl, ?_⟩
    apply @ReadsTerms.whole u 1 0 u (ascii "ns") [] (by decide) (by simp)
    · omega
    · rw [Nat.zero_add, Nat.mul_one]
      exact .nil u
  · exact ⟨u / 10 ^ 3, _, List.append_assoc _ _ _,
      hlast (e := 2) (by decide) (by omega) (by omega)⟩
  · exact ⟨u / 10 ^ 6, _, List.append_assoc _ _ _,
      hlast (e := 5) (by decide) (by omega) (by omega)⟩
  · dsimp only
    split_ifs with hh hm hm
    · exact ⟨u / 10 ^ 9 / 3600, ascii "h" ++ (formatNat (u / 10 ^ 9 / 60 % 60) ++ (ascii "m" ++
        (formatNat (u / 10 ^ 9 % 60) ++ (durationFraction u 9 ++ ascii "s")))),
        by simp only [List.append_assoc], .whole hhour (hdigit _ _) (by omega)
          (.whole hminute (hdigit _ _) (by omega) (hlast (e := 8) hsecond (by omega) (by omega)))⟩
    · omega
    · exact ⟨u / 10 ^ 9 / 60 % 60, ascii "m" ++ (formatNat (u / 10 ^ 9 % 60) ++
        (durationFraction u 9 ++ ascii "s")), by simp only [List.append_assoc, List.nil_append],
        .whole hminute (hdigit _ _) (by omega) (hlast (e := 8) hsecond (by omega) (by omega))⟩
    · exact ⟨u / 10 ^ 9 % 60, durationFraction u 9 ++ ascii "s",
        by simp only [List.append_assoc, List.nil_append], hlast (e := 8) hsecond (by omega) (by omega)⟩

/-- **A duration is read back.** -/
theorem parseDuration_durationString {d : ℤ} (hlow : -2 ^ 63 ≤ d) (hhigh : d < 2 ^ 63) :
    parseDuration (durationString d) = some d := by
  obtain ⟨n, rest, heq, hreads⟩ := readsTerms_durationString (d := d) (by omega)
  have hne : formatNat n ++ rest ≠ [] := by simp [formatNat_ne_nil]
  have hterms := hreads _ le_rfl
  have hdigit : ∀ b ∈ (formatNat n ++ rest).head?, b ≠ chr '-' ∧ b ≠ chr '+' := by
    intro b hb
    rw [List.head?_append_of_ne_nil _ (formatNat_ne_nil n)] at hb
    have hb := isDigit_of_mem_formatNat (List.mem_of_mem_head? hb)
    constructor <;> rintro rfl <;> cases hb
  have hsign : durationSign (durationString d) = (decide (d < 0), formatNat n ++ rest) := by
    rw [heq]
    split_ifs with hneg
    · simp [durationSign, hneg]
    · cases hs : formatNat n ++ rest with
      | nil => exact absurd hs hne
      | cons b s =>
        rw [hs] at hdigit
        have hb := hdigit b rfl
        simp [durationSign, hb.1, hb.2, hneg]
  rw [parseDuration, hsign]
  dsimp only
  rw [if_neg hreads.ne_zero, if_neg hne, hterms, Option.bind_eq_bind, Option.bind_some]
  simp only [decide_eq_true_eq]
  split_ifs with hneg hlarge
  · rw [Option.some_inj]
    omega
  · omega
  · rw [Option.some_inj]
    omega

end Veduta.Go
