import Mathlib.Data.Nat.Digits.Defs
import Veduta.Go.Strings

/-!
# Decimal numbers

Package `strconv`, for integers in base ten and quoted text.
-/

namespace Veduta.Go

def decimalDigit (d : ℕ) : UInt8 := UInt8.ofNat (0x30 + d)

def formatNat (n : ℕ) : Bytes :=
  if n = 0 then [0x30] else ((Nat.digits 10 n).map decimalDigit).reverse

variable {n : ℕ}

theorem formatNat_of_lt (h : n < 10) : formatNat n = [decimalDigit n] := by
  rw [formatNat]
  by_cases hn : n = 0
  · subst hn
    rfl
  · rw [if_neg hn, Nat.digits_of_lt 10 n hn h]
    rfl

theorem formatNat_of_le (h : 10 ≤ n) :
    formatNat n = formatNat (n / 10) ++ [decimalDigit (n % 10)] := by
  have hn : n ≠ 0 := by omega
  have hdiv : n / 10 ≠ 0 := by omega
  rw [formatNat, formatNat, if_neg hn, if_neg hdiv, Nat.digits_def' (by omega) (by omega)]
  simp

theorem formatNat_ne_nil (n : ℕ) : formatNat n ≠ [] := by
  rcases Nat.lt_or_ge n 10 with hlt | hge
  · simp [formatNat_of_lt hlt]
  · simp [formatNat_of_le hge]

theorem decimalDigit_injective : ∀ c < 10, ∀ d < 10, decimalDigit c = decimalDigit d → c = d := by
  decide

theorem formatNat_injective : Function.Injective formatNat := by
  intro m n h
  induction m using Nat.strong_induction_on generalizing n with
  | _ m ih =>
    rcases Nat.lt_or_ge m 10 with hm | hm <;> rcases Nat.lt_or_ge n 10 with hn | hn
    · rw [formatNat_of_lt hm, formatNat_of_lt hn] at h
      exact decimalDigit_injective m hm n hn (List.head_eq_of_cons_eq h)
    · rw [formatNat_of_lt hm, formatNat_of_le hn, ← List.nil_append [decimalDigit m]] at h
      exact absurd (List.append_inj' h rfl).1.symm (formatNat_ne_nil _)
    · rw [formatNat_of_le hm, formatNat_of_lt hn, ← List.nil_append [decimalDigit n]] at h
      exact absurd (List.append_inj' h rfl).1 (formatNat_ne_nil _)
    · rw [formatNat_of_le hm, formatNat_of_le hn] at h
      obtain ⟨hdiv, hmod⟩ := List.append_inj' h rfl
      have hdiv : m / 10 = n / 10 := ih (m / 10) (by omega) hdiv
      have hmod : m % 10 = n % 10 := decimalDigit_injective _ (Nat.mod_lt _ (by omega)) _
        (Nat.mod_lt _ (by omega)) (List.head_eq_of_cons_eq hmod)
      omega

/-- `strconv.FormatInt`. -/
def formatInt : Int → Bytes
  | .ofNat n => formatNat n
  | .negSucc n => 0x2d :: formatNat (n + 1)

/-- The value of a string of digits; `none` if there is none or another byte. -/
def decimalValue (s : Bytes) : Option ℕ :=
  if s ≠ [] ∧ s.all isDigit then
    some (s.foldl (fun n b => n * 10 + (b.toNat - 0x30)) 0)
  else none

/-- `strconv.ParseInt` in base ten with 64 bits; `none` is either of its errors. -/
def parseInt (s : Bytes) : Option Int := do
  let (neg, ds) :=
    match s with
    | 0x2d :: rest => (true, rest)
    | 0x2b :: rest => (false, rest)
    | _ => (false, s)
  let n ← decimalValue ds
  if neg then if n ≤ 2 ^ 63 then some (-(n : Int)) else none
  else if n < 2 ^ 63 then some (n : Int) else none

theorem isDigit_decimalDigit : ∀ d < 10, isDigit (decimalDigit d) = true := by decide

theorem isDigit_of_mem_formatNat {b : UInt8} (h : b ∈ formatNat n) : isDigit b = true := by
  induction n using Nat.strong_induction_on with
  | _ n ih =>
    rcases Nat.lt_or_ge n 10 with hlt | hge
    · rw [formatNat_of_lt hlt, List.mem_singleton] at h
      subst h
      exact isDigit_decimalDigit n hlt
    · rw [formatNat_of_le hge, List.mem_append, List.mem_singleton] at h
      rcases h with h | rfl
      · exact ih (n / 10) (by omega) h
      · exact isDigit_decimalDigit _ (Nat.mod_lt _ (by omega))

theorem head?_formatNat (h : 0 < n) : (formatNat n).head? ≠ some 0x30 := by
  induction n using Nat.strong_induction_on with
  | _ n ih =>
    rcases Nat.lt_or_ge n 10 with hlt | hge
    · have hdigit : ∀ d < 10, 0 < d → decimalDigit d ≠ 0x30 := by decide
      rw [formatNat_of_lt hlt]
      exact fun heq => hdigit n hlt h (Option.some.inj heq)
    · rw [formatNat_of_le hge, List.head?_append_of_ne_nil _ (formatNat_ne_nil _)]
      exact ih (n / 10) (by omega) (by omega)

theorem formatNat_mul_pow (h : 0 < n) (k : ℕ) :
    formatNat (n * 10 ^ k) = formatNat n ++ List.replicate k 0x30 := by
  induction k with
  | zero => simp
  | succ k ih =>
    have hpos : 0 < n * 10 ^ k := by positivity
    have hmul : n * 10 ^ (k + 1) = n * 10 ^ k * 10 := by rw [pow_succ, mul_assoc]
    rw [hmul, formatNat_of_le (by omega), Nat.mul_div_cancel _ (by omega), ih,
      Nat.mul_mod_left, List.replicate_succ', List.append_assoc]
    rfl

theorem decimalValue_formatNat (n : ℕ) : decimalValue (formatNat n) = some n := by
  have hvalue : (formatNat n).foldl (fun n b => n * 10 + (b.toNat - 0x30)) 0 = n := by
    induction n using Nat.strong_induction_on with
    | _ n ih =>
      have hdigit : ∀ d < 10, (decimalDigit d).toNat - 0x30 = d := by decide
      rcases Nat.lt_or_ge n 10 with hlt | hge
      · rw [formatNat_of_lt hlt, List.foldl_cons, List.foldl_nil, hdigit n hlt]
        omega
      · rw [formatNat_of_le hge, List.foldl_append, ih (n / 10) (by omega), List.foldl_cons,
          List.foldl_nil, hdigit _ (Nat.mod_lt _ (by omega))]
        omega
  rw [decimalValue, if_pos, hvalue]
  exact ⟨formatNat_ne_nil n, List.all_eq_true.mpr fun b => isDigit_of_mem_formatNat⟩

/-- **A number is read back.** -/
theorem parseInt_formatNat (h : n < 2 ^ 63) : parseInt (formatNat n) = some n := by
  have hdecimal : ∀ b ∈ formatNat n, b ≠ 0x2d ∧ b ≠ 0x2b := by
    intro b hb
    have hd := isDigit_of_mem_formatNat hb
    constructor <;> rintro rfl <;> cases hd
  rw [parseInt, decimalValue_formatNat]
  · simpa using h
  · intro rest htext
    exact absurd rfl (hdecimal 0x2d (by simp [htext])).1
  · intro rest htext
    exact absurd rfl (hdecimal 0x2b (by simp [htext])).2

/-- One byte of a quoted text. -/
def quoteByte (b : UInt8) : Bytes :=
  if b = chr '"' ∨ b = chr '\\' then [chr '\\', b]
  else if b = 0x0a then ascii "\\n"
  else if b = 0x0d then ascii "\\r"
  else if b = 0x09 then ascii "\\t"
  else [b]

/-- The verb `%q`, for printable text with line breaks and tabs. -/
def quote (s : Bytes) : Bytes := chr '"' :: s.flatMap quoteByte ++ [chr '"']

end Veduta.Go
