import Veduta.Go.JsonCodec
import Veduta.Go.JsonText

/-!
# Reading JSON back

What `json.Marshal` writes can be read back.  A string comes back with its invalid bytes as U+FFFD,
a number as the text that was written, and everything else as it was.
-/

namespace Veduta.Go

open Lib

/-! ## Strings -/

/-- A string with its invalid bytes replaced. -/
def sanitize (s : Bytes) : Bytes := encodeRunes (runes s)

theorem stringLoop_unicodeEscape {r : ℕ} (h : r < 0x10000) (hlow : r < 0xd800 ∨ 0xdc00 ≤ r)
    (x : Bytes) :
    stringLoop (unicodeEscape r ++ x) =
      (stringLoop x).map fun y => (encodeRune r ++ y.1, y.2) := by
  have hvalue : hex4 (hexDigit (r / 0x1000 % 16)) (hexDigit (r / 0x100 % 16))
      (hexDigit (r / 16 % 16)) (hexDigit (r % 16)) = some r := by
    have hhex : ∀ d < 16, isHex (hexDigit d) = true := by decide +kernel
    have hval := hexVal_hexDigit
    simp only [hex4]
    rw [if_pos, hval _ (Nat.mod_lt _ (by decide)), hval _ (Nat.mod_lt _ (by decide)),
      hval _ (Nat.mod_lt _ (by decide)), hval _ (Nat.mod_lt _ (by decide))]
    · congr 1
      omega
    · simp only [Bool.and_eq_true]
      exact ⟨⟨⟨hhex _ (Nat.mod_lt _ (by decide)), hhex _ (Nat.mod_lt _ (by decide))⟩,
        hhex _ (Nat.mod_lt _ (by decide))⟩, hhex _ (Nat.mod_lt _ (by decide))⟩
  have hpair : ∀ lo, surrogatePair r lo = none := by
    intro lo
    rw [surrogatePair, if_neg]
    omega
  change stringLoop (0x5c :: 0x75 :: _ :: _ :: _ :: _ :: x) = _
  rw [stringLoop]
  simp only [hvalue, Option.bind_eq_bind, Option.bind_some]
  split
  · rename_i a b c d rest
    have hnone : (hex4 a b c d).bind (surrogatePair r) = none := by
      cases hex4 a b c d with
      | none => rfl
      | some lo => exact hpair lo
    rw [hnone]
    exact Option.map_eq_bind.symm
  · exact Option.map_eq_bind.symm

variable {b : UInt8} {n : ℕ}

/-- A byte that is neither a quote nor a backslash nor a control character stands for itself. -/
theorem stringLoop_cons (hquote : b ≠ 0x22) (hescape : b ≠ 0x5c) (hctrl : ¬ b < 0x20) (x : Bytes) :
    stringLoop (b :: x) = (stringLoop x).map fun y => (b :: y.1, y.2) := by
  rw [stringLoop.eq_def]
  split
  · contradiction
  · rename_i heq
    cases heq
    exact absurd rfl hquote
  · rename_i heq
    cases heq
    exact absurd rfl hescape
  · rename_i heq
    cases heq
    exact absurd rfl hescape
  · rename_i heq
    cases heq
    rw [if_neg hctrl]
    exact Option.map_eq_bind.symm

theorem stringLoop_append {s : Bytes} (h : ∀ b ∈ s, b ≠ 0x22 ∧ b ≠ 0x5c ∧ ¬ b < 0x20) (x : Bytes) :
    stringLoop (s ++ x) = (stringLoop x).map fun y => (s ++ y.1, y.2) := by
  induction s with
  | nil => simp
  | cons b s ih =>
    obtain ⟨hquote, hescape, hctrl⟩ := h b List.mem_cons_self
    rw [List.cons_append, stringLoop_cons hquote hescape hctrl,
      ih fun c hc => h c (List.mem_cons_of_mem b hc), Option.map_map]
    rfl

theorem stringLoop_simpleEscape {c e : UInt8} (hc : c ≠ 0x75) (he : simpleEscape c = some e)
    (x : Bytes) : stringLoop (0x5c :: c :: x) = (stringLoop x).map fun y => (e :: y.1, y.2) := by
  rw [stringLoop.eq_def]
  split
  · contradiction
  · rename_i heq
    cases heq
  · rename_i heq
    cases heq
    exact absurd rfl hc
  · rename_i heq
    cases heq
    rw [he]
    exact Option.map_eq_bind.symm
  · rename_i hne heq
    cases heq
    exact absurd rfl (hne _ _ rfl)

/-- **The text of a character is read as the character.** -/
theorem stringLoop_quoted {c : JsonChar} (h : c.Proper) (x : Bytes) :
    stringLoop (c.quoted ++ x) = (stringLoop x).map fun y => (encodeRune c.seen ++ y.1, y.2) := by
  cases c with
  | invalid => exact stringLoop_unicodeEscape (by decide) (by decide) x
  | rune r =>
    simp only [JsonChar.quoted, quoteRune, JsonChar.seen]
    split_ifs with h₁ h₂ h₃ h₄ h₅ h₆ h₇ h₈
    -- the characters with an escape of their own
    iterate 7
      subst r
      exact stringLoop_simpleEscape (by decide) (by decide) x
    · exact stringLoop_unicodeEscape (by omega) (by omega) x
    · refine stringLoop_append (fun b hb => ?_) x
      by_cases hlt : r < 0x80
      · rw [encodeRune_of_lt hlt, List.mem_singleton] at hb
        subst hb
        have hnat : (UInt8.ofNat r).toNat = r := toNat_ofNat_of_lt (by omega)
        refine ⟨fun heq => h₁ ?_, fun heq => h₂ ?_, fun hctrl => h₈ (.inl ?_)⟩
        · rw [← hnat, heq]
          rfl
        · rw [← hnat, heq]
          rfl
        · rw [← hnat]
          exact UInt8.lt_iff_toNat_lt.mp hctrl
      · have hge : 0x80 ≤ b.toNat := UInt8.le_iff_toNat_le.mp (le_of_mem_encodeRune hlt hb)
        refine ⟨?_, ?_, fun hctrl => ?_⟩
        · rintro rfl
          exact absurd hge (by decide)
        · rintro rfl
          exact absurd hge (by decide)
        · have hsmall := UInt8.lt_iff_toNat_lt.mp hctrl
          simp only [UInt8.reduceToNat] at hsmall
          omega

theorem stringLoop_flatMap {cs : List JsonChar} (h : ∀ c ∈ cs, c.Proper) (x : Bytes) :
    stringLoop (cs.flatMap JsonChar.quoted ++ 0x22 :: x) =
      some (encodeRunes (cs.map JsonChar.seen), x) := by
  induction cs with
  | nil => rfl
  | cons c cs ih =>
    rw [List.flatMap_cons, List.append_assoc, stringLoop_quoted (h c List.mem_cons_self),
      ih fun c hc => h c (List.mem_cons_of_mem _ hc)]
    rfl

theorem runesLoop_append (tail x : Bytes) : runesLoop tail.length (tail ++ x) = runesLoop 0 x := by
  induction tail with
  | nil => rfl
  | cons b tail ih => exact ih

/-- What was encoded is decoded. -/
theorem runes_encodeRunes {rs : List ℕ} (h : ∀ r ∈ rs, IsScalar r) :
    runes (encodeRunes rs) = rs := by
  induction rs with
  | nil => rfl
  | cons r rs ih =>
    obtain ⟨b, tail, hr, hdecode⟩ :=
      decodeRune_encodeRune (h r List.mem_cons_self) (encodeRunes rs)
    have hrest := ih fun r hr => h r (List.mem_cons_of_mem _ hr)
    have hcons : encodeRunes (r :: rs) = b :: (tail ++ encodeRunes rs) := by
      rw [encodeRunes, List.flatMap_cons, hr]
      rfl
    rw [runes, hcons, runesLoop, hdecode, runesLoop_append]
    exact congrArg (r :: ·) hrest

@[simp] theorem sanitize_sanitize (s : Bytes) : sanitize (sanitize s) = sanitize s := by
  have hrunes : runes (encodeRunes (runes s)) = runes s :=
    runes_encodeRunes fun r hr => isScalar_of_mem_runesLoop hr
  rw [sanitize, sanitize, hrunes]

/-- **A string is read back** with its invalid bytes replaced. -/
theorem parseString_quoteLoop (s x : Bytes) :
    parseString (quoteLoop 0 s ++ 0x22 :: x) = some (sanitize s, x) := by
  have hloop : stringLoop (quoteLoop 0 s ++ 0x22 :: x) = some (sanitize s, x) := by
    rw [quoteLoop_eq_flatMap, stringLoop_flatMap fun _ => proper_of_mem_jsonCharsLoop,
      ← runesLoop_eq_map]
    rfl
  rw [parseString, hloop]
  exact congrArg (fun t => some (t, x)) (sanitize_sanitize s)

/-! ## Numbers -/

/-- What may follow a number: nothing that could go on with it. -/
def EndsNumber (x : Bytes) : Prop :=
  ∀ b ∈ x.head?, isDigit b = false ∧ b ≠ 0x2e ∧ b ≠ chr 'e' ∧ b ≠ chr 'E'

theorem span_isDigit {s x : Bytes} (hs : ∀ b ∈ s, isDigit b = true)
    (hx : ∀ b ∈ x.head?, isDigit b = false) : (s ++ x).span isDigit = (s, x) := by
  rw [List.span_eq_takeWhile_dropWhile, List.takeWhile_append_of_pos hs,
    List.dropWhile_append_of_pos hs]
  cases x with
  | nil => simp
  | cons b x => simp [hx b (by simp)]

theorem digits1_append {s x : Bytes} (hne : s ≠ []) (hs : ∀ b ∈ s, isDigit b = true)
    (hx : ∀ b ∈ x.head?, isDigit b = false) : digits1 (s ++ x) = some (s, x) := by
  rw [digits1, span_isDigit hs hx]
  cases s with
  | nil => exact absurd rfl hne
  | cons b s => rfl

/-- The parts of a number's text. -/
structure IsNumeral (sign int frac exp : Bytes) : Prop where
  sign : sign = [] ∨ sign = [0x2d]
  int_ne : int ≠ []
  int_digits : ∀ b ∈ int, isDigit b = true
  int_head : int.head? = some 0x30 → int = [0x30]
  frac : frac = [] ∨ ∃ ds, frac = 0x2e :: ds ∧ ds ≠ [] ∧ ∀ b ∈ ds, isDigit b = true
  exp : exp = [] ∨ ∃ c ds, exp = chr 'e' :: c :: ds ∧ (c = chr '+' ∨ c = chr '-') ∧ ds ≠ [] ∧
    ∀ b ∈ ds, isDigit b = true

section

variable {sign int frac exp x : Bytes}

section

variable (h : IsNumeral sign int frac exp) (hx : EndsNumber x)

include h

theorem numberSign_append (rest : Bytes) :
    numberSign (sign ++ (int ++ rest)) = (sign, int ++ rest) := by
  rcases h.sign with rfl | rfl
  · rw [List.nil_append, numberSign]
    intro tail heq
    have hhead := congrArg List.head? heq
    rw [List.head?_append_of_ne_nil _ h.int_ne] at hhead
    have hdigit := h.int_digits 0x2d (List.mem_of_mem_head? hhead)
    cases hdigit
  · rfl

include hx

theorem numberExp_append : numberExp (exp ++ x) = some (exp, x) := by
  rcases h.exp with rfl | ⟨c, ds, rfl, hc, hne, hds⟩
  · rw [List.nil_append]
    cases x with
    | nil => rfl
    | cons b x =>
      have hb := hx b rfl
      unfold numberExp
      dsimp only
      rw [if_neg]
      rintro (heq | heq)
      · exact hb.2.2.1 heq
      · exact hb.2.2.2 heq
  · have hrest := digits1_append hne hds fun b hb => (hx b hb).1
    rw [List.cons_append, List.cons_append]
    unfold numberExp
    dsimp only
    rw [if_pos (.inl rfl), if_pos hc, hrest]
    rfl

theorem numberFrac_append : numberFrac (frac ++ (exp ++ x)) = some (frac, exp ++ x) := by
  have hdigit : ∀ b ∈ (exp ++ x).head?, isDigit b = false ∧ b ≠ 0x2e := by
    intro b hb
    rcases h.exp with rfl | ⟨c, ds, rfl, -⟩
    · exact ⟨(hx b hb).1, (hx b hb).2.1⟩
    · cases hb
      decide
  rcases h.frac with rfl | ⟨ds, rfl, hne, hds⟩
  · rw [List.nil_append, numberFrac]
    intro rest heq
    rw [heq] at hdigit
    exact absurd rfl (hdigit 0x2e rfl).2
  · have hrest := digits1_append hne hds fun b hb => (hdigit b hb).1
    rw [List.cons_append, numberFrac, hrest]
    rfl

theorem numberInt_append :
    numberInt (int ++ (frac ++ (exp ++ x))) = some (int, frac ++ (exp ++ x)) := by
  have hdigit : ∀ b ∈ (frac ++ (exp ++ x)).head?, isDigit b = false := by
    intro b hb
    rcases h.frac with rfl | ⟨ds, rfl, -⟩
    · rcases h.exp with rfl | ⟨c, ds, rfl, -⟩
      · exact (hx b hb).1
      · cases hb
        decide
    · cases hb
      decide
  by_cases hzero : int.head? = some 0x30
  · rw [h.int_head hzero]
    rfl
  · rw [numberInt]
    · exact digits1_append h.int_ne h.int_digits hdigit
    · intro rest heq
      refine hzero ?_
      have hhead := congrArg List.head? heq
      rw [List.head?_append_of_ne_nil _ h.int_ne] at hhead
      exact hhead

/-- **A numeral is read as a number.** -/
theorem parseNumber_append :
    parseNumber (sign ++ int ++ frac ++ exp ++ x) = some (sign ++ int ++ frac ++ exp, x) := by
  simp only [List.append_assoc]
  rw [parseNumber, numberSign_append h]
  simp only [numberInt_append h hx, numberFrac_append h hx, numberExp_append h hx,
    Option.bind_eq_bind, Option.bind_some, Option.pure_def, List.append_assoc]

end

end

/-! ## What is written of a number -/

theorem nearerUnits_eq_some {a unit : ℚ} {n k : ℤ} (h : nearerUnits a unit n = some k) :
    (k = n ∨ k = n + 1) ∧ toFloat64 (k * unit) = some a := by
  simp only [nearerUnits] at h
  split_ifs at h with hnear hnext
  · cases h
    rw [Bool.and_eq_true] at hnear
    exact ⟨.inl rfl, of_decide_eq_true hnear.1⟩
  · cases h
    exact ⟨.inr rfl, by simpa using hnext⟩

/-- The digits of a positive number are those of a positive number, or of its integral part. -/
theorem shortestDigits_pos {a : ℚ} (ha : 0 < a) (fuel count : ℕ) :
    0 < (shortestDigits a fuel count).1 ∨
      (shortestDigits a fuel count).1 = 0 ∧ (shortestDigits a fuel count).2 = 0 := by
  induction fuel generalizing count with
  | zero =>
    have hnonneg : 0 ≤ ⌊a⌋ := Int.floor_nonneg.mpr ha.le
    rcases hnonneg.lt_or_eq with hlt | heq
    · exact .inl hlt
    · exact .inr ⟨heq.symm, rfl⟩
  | succ fuel ih =>
    simp only [shortestDigits]
    split
    · rename_i n hn
      obtain ⟨hnear, hreads⟩ := nearerUnits_eq_some hn
      have hfloor : 0 ≤ ⌊a / 10 ^ (Int.log 10 a - count)⌋ :=
        Int.floor_nonneg.mpr (by positivity)
      have hne : n ≠ 0 := by
        rintro rfl
        rw [Int.cast_zero, zero_mul, toFloat64, if_pos rfl] at hreads
        exact ha.ne (Option.some.inj hreads)
      refine .inl ?_
      change 0 < n
      omega
    · exact ih (count + 1)

theorem trimZeros_pos (h : 0 < n) (exp : ℤ) (fuel : ℕ) : 0 < (trimZeros fuel n exp).1 := by
  induction fuel generalizing n exp with
  | zero => exact h
  | succ fuel ih =>
    rw [trimZeros]
    split_ifs with hzero
    · exact ih (by omega) (exp + 1)
    · exact h

theorem isDigit_zeros {k : ℕ} (h : b ∈ List.replicate k (chr '0')) : isDigit b = true := by
  rw [List.eq_of_mem_replicate h]
  decide

theorem digitsValue_append (s t : Bytes) :
    digitsValue (s ++ t) = digitsValue s * 10 ^ t.length + digitsValue t := by
  induction t using List.reverseRecOn with
  | nil => simp [digitsValue]
  | append_singleton t b ih =>
    have hstep : ∀ u : Bytes, digitsValue (u ++ [b]) = digitsValue u * 10 + (b.toNat - 0x30) := by
      intro u
      simp [digitsValue, List.foldl_append]
    rw [← List.append_assoc, hstep, hstep, ih, List.length_append, List.length_singleton,
      pow_succ]
    ring

@[simp] theorem digitsValue_zeros (k : ℕ) : digitsValue (List.replicate k (chr '0')) = 0 := by
  induction k with
  | zero => rfl
  | succ k ih =>
    rw [List.replicate_succ', digitsValue_append, ih]
    rfl

@[simp] theorem digitsValue_formatNat (n : ℕ) : digitsValue (formatNat n) = n := by
  have h := decimalValue_formatNat n
  rw [decimalValue] at h
  split_ifs at h
  exact Option.some.inj h

/-- The text of a number: its digits with a point among them. -/
theorem placePoint_eq (hn : 0 < n) (point : ℤ) :
    ∃ int frac, placePoint (formatNat n) point = int ++ frac ∧
      (digitsValue (int ++ frac.drop 1) : ℚ) =
        n * 10 ^ (point - (formatNat n).length + (frac.drop 1).length) ∧
      ∀ {sign exp : Bytes}, sign = [] ∨ sign = [0x2d] →
        (exp = [] ∨ ∃ c ds, exp = chr 'e' :: c :: ds ∧ (c = chr '+' ∨ c = chr '-') ∧ ds ≠ [] ∧
          ∀ b ∈ ds, isDigit b = true) → IsNumeral sign int frac exp := by
  have hdigits : ∀ b ∈ formatNat n, isDigit b = true := fun b => isDigit_of_mem_formatNat
  have hne := formatNat_ne_nil n
  have hhead := head?_formatNat hn
  unfold placePoint
  split_ifs with hpoint hlen
  · -- the point stands before the digits
    refine ⟨[0x30], 0x2e :: (List.replicate (-point).toNat (chr '0') ++ formatNat n), rfl, ?_,
      fun hsign hexp => ⟨hsign, by simp, ?_, fun _ => rfl, .inr ⟨_, rfl, by simp [hne], ?_⟩, hexp⟩⟩
    · have hexp : point - (formatNat n).length +
          ((List.replicate (-point).toNat (chr '0') ++ formatNat n).length : ℤ) = 0 := by
        rw [List.length_append, List.length_replicate]
        omega
      rw [List.drop_one, List.tail_cons, hexp, zpow_zero, mul_one, digitsValue_append,
        digitsValue_append, digitsValue_zeros, digitsValue_formatNat]
      rw [show digitsValue [0x30] = 0 from rfl, Nat.zero_mul, Nat.zero_mul, Nat.zero_add,
        Nat.zero_add]
    · intro b hb
      rw [List.mem_singleton.mp hb]
      decide
    · intro b hb
      rcases List.mem_append.mp hb with hb | hb
      · exact isDigit_zeros hb
      · exact hdigits b hb
  · -- zeros fill the place up to the point
    refine ⟨_, [], (List.append_nil _).symm, ?_, fun hsign hexp => ⟨hsign, by simp [hne], ?_, ?_,
      .inl rfl, hexp⟩⟩
    · have hexp : point - (formatNat n).length =
          ((point.toNat - (formatNat n).length : ℕ) : ℤ) := by omega
      rw [List.drop_nil, List.append_nil, digitsValue_append, digitsValue_zeros,
        digitsValue_formatNat, List.length_replicate, List.length_nil, Nat.cast_zero, add_zero,
        add_zero, hexp, zpow_natCast]
      push_cast
      rfl
    · intro b hb
      rcases List.mem_append.mp hb with hb | hb
      · exact hdigits b hb
      · exact isDigit_zeros hb
    · intro hzero
      rw [List.head?_append_of_ne_nil _ hne] at hzero
      exact absurd hzero hhead
  · -- the point stands among the digits
    have htake : (formatNat n).take point.toNat ≠ [] := by
      rw [Ne, List.take_eq_nil_iff, not_or]
      exact ⟨by omega, hne⟩
    have hdrop : (formatNat n).drop point.toNat ≠ [] := by
      rw [Ne, List.drop_eq_nil_iff]
      omega
    refine ⟨_, chr '.' :: _, rfl, ?_, fun hsign hexp => ⟨hsign, htake, ?_, ?_,
      .inr ⟨_, rfl, hdrop, ?_⟩, hexp⟩⟩
    · have hexp : point - (formatNat n).length +
          (((formatNat n).drop point.toNat).length : ℤ) = 0 := by
        rw [List.length_drop]
        omega
      rw [List.drop_one, List.tail_cons, List.take_append_drop, hexp, zpow_zero, mul_one,
        digitsValue_formatNat]
    · exact fun b hb => hdigits b (List.mem_of_mem_take hb)
    · intro hzero
      refine absurd ?_ hhead
      rw [← List.take_append_drop point.toNat (formatNat n),
        List.head?_append_of_ne_nil _ htake]
      exact hzero
    · exact fun b hb => hdigits b (List.mem_of_mem_drop hb)

/-- **What is written of a positive number is a numeral.** -/
theorem isNumeral_formatPositive {a : ℚ} (ha : 0 < a) {sign : Bytes}
    (hsign : sign = [] ∨ sign = [0x2d]) :
    ∃ int frac exp, formatPositive a = int ++ frac ++ exp ∧ IsNumeral sign int frac exp := by
  have hexponent : ∀ (c : UInt8) (k : ℕ), c = chr '+' ∨ c = chr '-' →
      ∃ c' ds, chr 'e' :: c :: formatNat k = chr 'e' :: c' :: ds ∧ (c' = chr '+' ∨ c' = chr '-') ∧
        ds ≠ [] ∧ ∀ b ∈ ds, isDigit b = true :=
    fun c k hc => ⟨c, _, rfl, hc, formatNat_ne_nil k, fun b => isDigit_of_mem_formatNat⟩
  have hshortest := shortestDigits_pos ha 18 0
  unfold formatPositive
  cases hdigits : shortestDigits a 18 0 with
  | mk m e =>
    rw [hdigits] at hshortest
    rcases hshortest with hpos | ⟨hzero, hexp⟩
    · have htrim := trimZeros_pos (Int.lt_toNat.mpr hpos) e 20
      cases htrimmed : trimZeros 20 m.toNat e with
      | mk n exp =>
        rw [htrimmed] at htrim
        dsimp only at htrim ⊢
        rw [htrimmed]
        dsimp only
        generalize ((formatNat n).length + exp - 1 : ℤ).natAbs = k
        split_ifs with hlarge hneg
        · obtain ⟨int, frac, heq, -, hnumeral⟩ := placePoint_eq htrim 1
          refine ⟨int, frac, chr 'e' :: chr '-' :: formatNat k, ?_,
            hnumeral hsign (.inr (hexponent _ _ (.inr rfl)))⟩
          rw [heq, List.append_assoc]
          rfl
        · obtain ⟨int, frac, heq, -, hnumeral⟩ := placePoint_eq htrim 1
          refine ⟨int, frac, chr 'e' :: chr '+' :: formatNat k, ?_,
            hnumeral hsign (.inr (hexponent _ _ (.inl rfl)))⟩
          rw [heq, List.append_assoc]
          rfl
        · obtain ⟨int, frac, heq, -, hnumeral⟩ :=
            placePoint_eq htrim ((formatNat n).length + exp)
          exact ⟨int, frac, [], by rw [heq, List.append_nil], hnumeral hsign (.inl rfl)⟩
    · dsimp only at hzero hexp ⊢
      subst hzero hexp
      refine ⟨[0x30], [], [], by decide, hsign, by simp, ?_, fun _ => rfl, .inl rfl, .inl rfl⟩
      intro b hb
      rw [List.mem_singleton.mp hb]
      decide

/-- **A number is read back** as the text that was written. -/
theorem parseNumber_formatFloat64 (q : ℚ) {x : Bytes} (hx : EndsNumber x) :
    parseNumber (formatFloat64 q ++ x) = some (formatFloat64 q, x) := by
  rw [formatFloat64]
  split_ifs with hzero hpos
  · have hnumeral : IsNumeral [] [0x30] [] [] := by
      refine ⟨.inl rfl, by simp, ?_, fun _ => rfl, .inl rfl, .inl rfl⟩
      intro b hb
      rw [List.mem_singleton.mp hb]
      decide
    exact parseNumber_append hnumeral hx
  · obtain ⟨int, frac, exp, heq, hnumeral⟩ := isNumeral_formatPositive hpos (.inl rfl)
    rw [heq]
    exact parseNumber_append hnumeral hx
  · have hneg : 0 < -q := by
      rw [Left.neg_pos_iff]
      exact lt_of_le_of_ne (not_lt.mp hpos) hzero
    obtain ⟨int, frac, exp, heq, hnumeral⟩ := isNumeral_formatPositive hneg (.inr rfl)
    rw [heq]
    exact parseNumber_append hnumeral hx

theorem head?_formatFloat64 (q : ℚ) :
    ∃ b s, formatFloat64 q = b :: s ∧ (isDigit b = true ∨ b = 0x2d) := by
  have hpositive : ∀ a : ℚ, 0 < a → ∃ b s, formatPositive a = b :: s ∧ isDigit b = true := by
    intro a ha
    obtain ⟨int, frac, exp, heq, hnumeral⟩ := isNumeral_formatPositive ha (.inl rfl)
    cases hint : int with
    | nil => exact absurd hint hnumeral.int_ne
    | cons b s =>
      rw [heq, hint]
      exact ⟨b, _, rfl, hnumeral.int_digits b (by simp [hint])⟩
  rw [formatFloat64]
  split_ifs with hzero hpos
  · exact ⟨0x30, [], rfl, .inl (by decide)⟩
  · obtain ⟨b, s, heq, hb⟩ := hpositive q hpos
    exact ⟨b, s, heq, .inl hb⟩
  · exact ⟨chr '-', _, rfl, .inr rfl⟩

/-! ## Values -/

mutual

/-- The tree that the text of a value is read as. -/
def JVal.text : JVal → Json
  | .null => .null
  | .bool b => .bool b
  | .num q => .num (formatFloat64 q)
  | .str s => .str (sanitize s)
  | .arr items => .arr (textItems items)
  | .obj members => .obj (textMembers members)

def textItems : List JVal → List Json
  | [] => []
  | v :: items => v.text :: textItems items

def textMembers : List (Bytes × JVal) → List (Bytes × Json)
  | [] => []
  | (k, v) :: members => (sanitize k, v.text) :: textMembers members

end

theorem skipSpace_cons (h : isJsonSpace b = false) (s : Bytes) : skipSpace (b :: s) = b :: s := by
  rw [skipSpace, List.dropWhile_cons, h]
  rfl

theorem endsNumber_cons (h : b = 0x2c ∨ b = 0x5d ∨ b = 0x7d) (x : Bytes) : EndsNumber (b :: x) := by
  intro c hc
  cases hc
  rcases h with rfl | rfl | rfl <;> decide

theorem head?_write (v : JVal) :
    ∃ b s, v.write = b :: s ∧ isJsonSpace b = false ∧ b ≠ 0x5d := by
  cases v with
  | null => exact ⟨chr 'n', _, rfl, by decide, by decide⟩
  | bool b =>
    cases b with
    | false => exact ⟨chr 'f', _, rfl, by decide, by decide⟩
    | true => exact ⟨chr 't', _, rfl, by decide, by decide⟩
  | num q =>
    obtain ⟨b, s, heq, hb⟩ := head?_formatFloat64 q
    rw [JVal.write]
    refine ⟨b, s, heq, ?_⟩
    have hall : ∀ b : UInt8, isDigit b = true ∨ b = 0x2d → isJsonSpace b = false ∧ b ≠ 0x5d := by
      decide +kernel
    exact hall b hb
  | str s => exact ⟨chr '"', _, rfl, by decide, by decide⟩
  | arr items => exact ⟨chr '[', _, rfl, by decide, by decide⟩
  | obj members => exact ⟨0x7b, _, rfl, by decide, by decide⟩

section

variable {fuel depth : ℕ} {s x : Bytes}

theorem parseValue_quote :
    parseValue (fuel + 1) depth (0x22 :: s) = (parseString s).map fun y => (.str y.1, y.2) := by
  rw [parseValue, skipSpace_cons (by decide)]
  rfl

theorem parseValue_bracket :
    parseValue (fuel + 1) depth (0x5b :: s) =
      if maxNestingDepth < depth + 1 then none
      else
        match skipSpace s with
        | 0x5d :: rest => some (.arr [], rest)
        | rest => (parseItems fuel (depth + 1) rest).map fun y => (.arr y.1, y.2) := by
  rw [parseValue, skipSpace_cons (by decide)]
  rfl

theorem parseValue_brace :
    parseValue (fuel + 1) depth (0x7b :: s) =
      if maxNestingDepth < depth + 1 then none
      else
        match skipSpace s with
        | 0x7d :: rest => some (.obj [], rest)
        | rest => (parseMembers fuel (depth + 1) rest).map fun y => (.obj y.1, y.2) := by
  rw [parseValue, skipSpace_cons (by decide)]
  rfl

theorem parseValue_number {b : UInt8} (h : isDigit b = true ∨ b = 0x2d) :
    parseValue (fuel + 1) depth (b :: s) =
      (parseNumber (b :: s)).map fun y => (.num y.1, y.2) := by
  have hall : ∀ b : UInt8, isDigit b = true ∨ b = 0x2d →
      isJsonSpace b = false ∧ b ≠ chr '"' ∧ b ≠ chr '[' ∧ b ≠ chr '{' ∧ b ≠ chr 'n' ∧
        b ≠ chr 't' ∧ b ≠ chr 'f' := by
    decide +kernel
  obtain ⟨hspace, hquote, hbracket, hbrace, hn, ht, hf⟩ := hall b h
  have hword : ∀ (c : UInt8) (word : Bytes), b ≠ c → hasPrefix (b :: s) (c :: word) = false := by
    intro c word hne
    rw [hasPrefix, List.isPrefixOf, beq_false_of_ne (Ne.symm hne), Bool.false_and]
  have hnull : hasPrefix (b :: s) (ascii "null") = false := hword _ _ hn
  have htrue : hasPrefix (b :: s) (ascii "true") = false := hword _ _ ht
  have hfalse : hasPrefix (b :: s) (ascii "false") = false := hword _ _ hf
  rw [parseValue, skipSpace_cons hspace]
  dsimp only
  rw [if_neg hquote, if_neg hbracket, if_neg hbrace, hnull, htrue, hfalse]
  rfl

theorem parseValue_word {v : JVal} {out : Json} {rest : Bytes}
    (hv : v = .null ∨ ∃ b, v = .bool b) (h : parseValue fuel depth (v.write ++ x) = some (out, rest)) :
    out = v.text ∧ rest = x := by
  cases fuel with
  | zero =>
    rw [parseValue] at h
    cases h
  | succ fuel =>
    rcases hv with rfl | ⟨b, rfl⟩
    · cases h
      exact ⟨rfl, rfl⟩
    · cases b <;> cases h <;> exact ⟨rfl, rfl⟩

end

theorem parseMembers_quoteJson (k : Bytes) :
    parseMembers (fuel + 1) depth (quoteJson k ++ 0x3a :: s) =
      (parseValue fuel depth s).bind fun y =>
        match skipSpace y.2 with
        | 0x2c :: rest =>
          (parseMembers fuel depth rest).bind fun z => some ((sanitize k, y.1) :: z.1, z.2)
        | 0x7d :: rest => some ([(sanitize k, y.1)], rest)
        | _ => none := by
  have hquoted : quoteJson k ++ 0x3a :: s = 0x22 :: (quoteLoop 0 k ++ 0x22 :: 0x3a :: s) := by
    rw [quoteJson, List.append_assoc]
    rfl
  rw [hquoted, parseMembers, skipSpace_cons (by decide)]
  change ((parseString (quoteLoop 0 k ++ 0x22 :: 0x3a :: s)).bind _) = _
  rw [parseString_quoteLoop]
  rfl

theorem head?_commas_writeItems (v : JVal) (items : List JVal) :
    ∃ b s, commas (writeItems (v :: items)) = b :: s ∧ isJsonSpace b = false ∧ b ≠ 0x5d := by
  obtain ⟨b, s, heq, hb⟩ := head?_write v
  cases items with
  | nil => exact ⟨b, s, heq, hb⟩
  | cons u items =>
    rw [writeItems, writeItems, commas, heq]
    exact ⟨b, _, rfl, hb⟩
    simp

theorem head?_commas_writeMembers (k : Bytes) (v : JVal) (members : List (Bytes × JVal)) :
    ∃ s, commas (writeMembers ((k, v) :: members)) = 0x22 :: s := by
  cases members with
  | nil | cons => exact ⟨_, rfl⟩

theorem commas_writeItems_cons (v u : JVal) (items : List JVal) :
    commas (writeItems (v :: u :: items)) ++ x =
      v.write ++ 0x2c :: (commas (writeItems (u :: items)) ++ x) := by
  simp only [writeItems, commas, List.append_assoc, List.cons_append]
  rfl

theorem commas_writeMembers_cons (k : Bytes) (v : JVal) (u : Bytes × JVal)
    (members : List (Bytes × JVal)) :
    commas (writeMembers ((k, v) :: u :: members)) ++ x =
      quoteJson k ++ 0x3a :: (v.write ++ 0x2c :: (commas (writeMembers (u :: members)) ++ x)) := by
  simp only [writeMembers, commas, List.append_assoc, List.cons_append]
  rfl

mutual

/-- **The text of a value is read as its tree**, whatever follows that does not go on with it. -/
theorem JVal.eq_text_of_parseValue : ∀ (v : JVal) {fuel depth : ℕ} {x rest : Bytes} {out : Json},
    EndsNumber x → parseValue fuel depth (v.write ++ x) = some (out, rest) →
    out = v.text ∧ rest = x
  | .null, _, _, _, _, _, _, h => parseValue_word (.inl rfl) h
  | .bool b, _, _, _, _, _, _, h => parseValue_word (.inr ⟨b, rfl⟩) h
  | .num q, 0, _, _, _, _, _, h => by
      rw [parseValue] at h
      cases h
  | .num q, fuel + 1, _, x, _, _, hx, h => by
      obtain ⟨b, s, heq, hb⟩ := head?_formatFloat64 q
      rw [JVal.write, heq, List.cons_append, parseValue_number hb, ← List.cons_append, ← heq,
        parseNumber_formatFloat64 q hx] at h
      cases h
      exact ⟨rfl, rfl⟩
  | .str s, 0, _, _, _, _, _, h => by
      rw [parseValue] at h
      cases h
  | .str s, fuel + 1, _, x, _, _, hx, h => by
      rw [JVal.write, quoteJson, List.append_assoc] at h
      change parseValue (fuel + 1) _ (0x22 :: (quoteLoop 0 s ++ 0x22 :: x)) = _ at h
      rw [parseValue_quote, parseString_quoteLoop] at h
      cases h
      exact ⟨rfl, rfl⟩
  | .arr items, 0, _, _, _, _, _, h => by
      rw [parseValue] at h
      cases h
  | .arr [], fuel + 1, depth, x, _, _, hx, h => by
      change parseValue (fuel + 1) depth (0x5b :: 0x5d :: x) = _ at h
      rw [parseValue_bracket] at h
      split_ifs at h
      cases h
      exact ⟨rfl, rfl⟩
  | .arr (v :: items), fuel + 1, depth, x, _, _, hx, h => by
      rw [JVal.write, List.cons_append, List.cons_append, List.append_assoc] at h
      change parseValue (fuel + 1) depth (0x5b :: (commas (writeItems (v :: items)) ++ 0x5d :: x))
        = _ at h
      rw [parseValue_bracket] at h
      split_ifs at h
      obtain ⟨b, s, heq, hspace, hb⟩ := head?_commas_writeItems v items
      rw [heq, List.cons_append, skipSpace_cons hspace] at h
      split at h
      · next hnil =>
        cases hnil
        exact absurd rfl hb
      · rw [← List.cons_append, ← heq, Option.map_eq_some_iff] at h
        obtain ⟨⟨outs, rest'⟩, hitems, hout⟩ := h
        cases hout
        obtain ⟨houts, hrest⟩ := eq_textItems_of_parseItems v items hitems
        exact ⟨by rw [JVal.text, houts], hrest⟩
  | .obj members, 0, _, _, _, _, _, h => by
      rw [parseValue] at h
      cases h
  | .obj [], fuel + 1, depth, x, _, _, hx, h => by
      change parseValue (fuel + 1) depth (0x7b :: 0x7d :: x) = _ at h
      rw [parseValue_brace] at h
      split_ifs at h
      cases h
      exact ⟨rfl, rfl⟩
  | .obj ((k, v) :: members), fuel + 1, depth, x, _, _, hx, h => by
      rw [JVal.write, List.cons_append, List.cons_append, List.append_assoc] at h
      change parseValue (fuel + 1) depth
        (0x7b :: (commas (writeMembers ((k, v) :: members)) ++ 0x7d :: x)) = _ at h
      rw [parseValue_brace] at h
      split_ifs at h
      obtain ⟨s, heq⟩ := head?_commas_writeMembers k v members
      rw [heq, List.cons_append, skipSpace_cons (by decide)] at h
      change (parseMembers fuel (depth + 1) (0x22 :: (s ++ 0x7d :: x))).map _ = _ at h
      rw [← List.cons_append, ← heq, Option.map_eq_some_iff] at h
      obtain ⟨⟨outs, rest'⟩, hmembers, hout⟩ := h
      cases hout
      obtain ⟨houts, hrest⟩ := eq_textMembers_of_parseMembers k v members hmembers
      exact ⟨by rw [JVal.text, houts], hrest⟩

theorem eq_textItems_of_parseItems : ∀ (v : JVal) (items : List JVal) {fuel depth : ℕ}
    {x rest : Bytes} {outs : List Json},
    parseItems fuel depth (commas (writeItems (v :: items)) ++ 0x5d :: x) = some (outs, rest) →
    outs = textItems (v :: items) ∧ rest = x
  | v, items, 0, _, _, _, _, h => by
      rw [parseItems] at h
      cases h
  | v, [], fuel + 1, depth, x, rest, outs, h => by
      rw [parseItems, Option.bind_eq_bind, Option.bind_eq_some_iff] at h
      obtain ⟨⟨out, tail⟩, hv, h⟩ := h
      obtain ⟨rfl, rfl⟩ := JVal.eq_text_of_parseValue v (endsNumber_cons (by simp) x) hv
      cases h
      exact ⟨rfl, rfl⟩
  | v, u :: items, fuel + 1, depth, x, rest, outs, h => by
      rw [parseItems, commas_writeItems_cons, Option.bind_eq_bind, Option.bind_eq_some_iff] at h
      obtain ⟨⟨out, tail⟩, hv, h⟩ := h
      obtain ⟨rfl, rfl⟩ := JVal.eq_text_of_parseValue v (endsNumber_cons (by simp) _) hv
      change (parseItems fuel depth _).bind _ = _ at h
      rw [Option.bind_eq_some_iff] at h
      obtain ⟨⟨vs, tail⟩, hitems, h⟩ := h
      obtain ⟨rfl, rfl⟩ := eq_textItems_of_parseItems u items hitems
      cases h
      exact ⟨rfl, rfl⟩

theorem eq_textMembers_of_parseMembers : ∀ (k : Bytes) (v : JVal) (members : List (Bytes × JVal))
    {fuel depth : ℕ} {x rest : Bytes} {outs : List (Bytes × Json)},
    parseMembers fuel depth (commas (writeMembers ((k, v) :: members)) ++ 0x7d :: x)
      = some (outs, rest) →
    outs = textMembers ((k, v) :: members) ∧ rest = x
  | k, v, members, 0, _, _, _, _, h => by
      rw [parseMembers] at h
      cases h
  | k, v, [], fuel + 1, depth, x, rest, outs, h => by
      have hone : commas (writeMembers [(k, v)]) ++ 0x7d :: x =
          quoteJson k ++ 0x3a :: (v.write ++ 0x7d :: x) := by
        simp only [writeMembers, commas, List.append_assoc, List.cons_append]
        rfl
      rw [hone, parseMembers_quoteJson, Option.bind_eq_some_iff] at h
      obtain ⟨⟨out, tail⟩, hv, h⟩ := h
      obtain ⟨rfl, rfl⟩ := JVal.eq_text_of_parseValue v (endsNumber_cons (by simp) x) hv
      cases h
      exact ⟨rfl, rfl⟩
  | k, v, (k', v') :: members, fuel + 1, depth, x, rest, outs, h => by
      rw [commas_writeMembers_cons, parseMembers_quoteJson, Option.bind_eq_some_iff] at h
      obtain ⟨⟨out, tail⟩, hv, h⟩ := h
      obtain ⟨rfl, rfl⟩ := JVal.eq_text_of_parseValue v (endsNumber_cons (by simp) _) hv
      change (parseMembers fuel depth _).bind _ = _ at h
      rw [Option.bind_eq_some_iff] at h
      obtain ⟨⟨outs', tail⟩, hmembers, h⟩ := h
      obtain ⟨rfl, rfl⟩ := eq_textMembers_of_parseMembers k' v' members hmembers
      cases h
      exact ⟨rfl, rfl⟩

end

/-- **Text the encoder wrote is read as the tree of the value**, if it is read at all. -/
theorem eq_text_of_unmarshalText {v : JVal} {out : Json} (h : unmarshalText v.write = some out) :
    out = v.text := by
  rw [unmarshalText] at h
  split at h
  · next u rest hfirst =>
    split_ifs at h
    cases h
    rw [decodeFirst, ← List.append_nil v.write] at hfirst
    have hend : EndsNumber [] := by
      intro c hc
      cases hc
    exact (v.eq_text_of_parseValue hend hfirst).1
  · cases h

end Veduta.Go
