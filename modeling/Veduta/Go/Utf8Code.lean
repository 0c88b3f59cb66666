import Mathlib.Data.FinEnum
import Veduta.Go.Utf8
import Veduta.Lib.PrefixCode

/-!
# UTF-8 as a code

The encodings of the code points that are not surrogates can be read off the front of a
string, and a `range` loop only ever yields such code points.
-/

namespace Veduta.Go

open Lib

def IsScalar (r : ℕ) : Prop := r < 0xd800 ∨ 0xe000 ≤ r ∧ r < 0x110000

instance (r : ℕ) : Decidable (IsScalar r) := inferInstanceAs (Decidable (_ ∨ _))

theorem toNat_ofNat_of_lt {n : ℕ} (h : n < 0x100) : (UInt8.ofNat n).toNat = n := by
  rw [UInt8.toNat_ofNat']
  omega

/-- The least second byte after a first one. -/
def secondLow (b : ℕ) : ℕ := if b = 0xe0 then 0xa0 else if b = 0xf0 then 0x90 else 0x80

def secondHigh (b : ℕ) : ℕ := if b = 0xed then 0x9f else if b = 0xf4 then 0x8f else 0xbf

theorem secondRange_toNat : ∀ b : UInt8,
    (secondRange b).1.toNat = secondLow b.toNat ∧
      (secondRange b).2.toNat = secondHigh b.toNat := by
  decide +kernel

theorem inSecondRange_iff (b c : UInt8) :
    (secondRange b).1 ≤ c ∧ c ≤ (secondRange b).2 ↔
      secondLow b.toNat ≤ c.toNat ∧ c.toNat ≤ secondHigh b.toNat := by
  rw [UInt8.le_iff_toNat_le, UInt8.le_iff_toNat_le, (secondRange_toNat b).1,
    (secondRange_toNat b).2]

theorem isTail_iff (b : UInt8) : isTail b = true ↔ 0x80 ≤ b.toNat ∧ b.toNat ≤ 0xbf := by
  simp [isTail, UInt8.le_iff_toNat_le]

theorem lt_ascii_iff (b : UInt8) : b < 0x80 ↔ b.toNat < 0x80 := UInt8.lt_iff_toNat_lt

theorem inRange_iff (lo hi b : UInt8) :
    lo ≤ b ∧ b ≤ hi ↔ lo.toNat ≤ b.toNat ∧ b.toNat ≤ hi.toNat := by
  rw [UInt8.le_iff_toNat_le, UInt8.le_iff_toNat_le]

section

variable {b c d e : UInt8}

theorem decodeRune_two (hb : 0xc2 ≤ b.toNat ∧ b.toNat ≤ 0xdf)
    (hc : 0x80 ≤ c.toNat ∧ c.toNat ≤ 0xbf) (x : Bytes) :
    decodeRune b (c :: x) = ((b.toNat - 0xc0) * 0x40 + (c.toNat - 0x80), 1) := by
  have h₁ : ¬ b < 0x80 := by
    rw [lt_ascii_iff]
    omega
  have h₂ : (secondRange b).1 ≤ c ∧ c ≤ (secondRange b).2 := by
    rw [inSecondRange_iff, secondLow, secondHigh]
    split_ifs <;> omega
  have h₃ : 0xc2 ≤ b ∧ b ≤ 0xdf := (inRange_iff _ _ _).mpr hb
  unfold decodeRune
  dsimp only
  rw [if_neg h₁, if_neg (not_not.mpr h₂), if_pos h₃]
  rfl

theorem decodeRune_three (hb : 0xe0 ≤ b.toNat ∧ b.toNat ≤ 0xef)
    (hc : secondLow b.toNat ≤ c.toNat ∧ c.toNat ≤ secondHigh b.toNat)
    (hd : 0x80 ≤ d.toNat ∧ d.toNat ≤ 0xbf) (x : Bytes) :
    decodeRune b (c :: d :: x) =
      ((b.toNat - 0xe0) * 0x1000 + (c.toNat - 0x80) * 0x40 + (d.toNat - 0x80), 2) := by
  have h₁ : ¬ b < 0x80 := by
    rw [lt_ascii_iff]
    omega
  have h₂ := (inSecondRange_iff b c).mpr hc
  have h₃ : ¬ (0xc2 ≤ b ∧ b ≤ 0xdf) := by
    rw [inRange_iff]
    simp only [UInt8.reduceToNat]
    omega
  have h₄ : 0xe0 ≤ b ∧ b ≤ 0xef := (inRange_iff _ _ _).mpr hb
  unfold decodeRune
  dsimp only
  rw [if_neg h₁, if_neg (not_not.mpr h₂), if_neg h₃,
    if_neg (not_not.mpr ((isTail_iff d).mpr hd)), if_pos h₄]
  rfl

theorem decodeRune_four (hb : 0xf0 ≤ b.toNat ∧ b.toNat ≤ 0xf4)
    (hc : secondLow b.toNat ≤ c.toNat ∧ c.toNat ≤ secondHigh b.toNat)
    (hd : 0x80 ≤ d.toNat ∧ d.toNat ≤ 0xbf) (he : 0x80 ≤ e.toNat ∧ e.toNat ≤ 0xbf) (x : Bytes) :
    decodeRune b (c :: d :: e :: x) =
      ((b.toNat - 0xf0) * 0x40000 + (c.toNat - 0x80) * 0x1000 + (d.toNat - 0x80) * 0x40 +
        (e.toNat - 0x80), 3) := by
  have h₁ : ¬ b < 0x80 := by
    rw [lt_ascii_iff]
    omega
  have h₂ := (inSecondRange_iff b c).mpr hc
  have h₃ : ¬ (0xc2 ≤ b ∧ b ≤ 0xdf) := by
    rw [inRange_iff]
    simp only [UInt8.reduceToNat]
    omega
  have h₄ : ¬ (0xe0 ≤ b ∧ b ≤ 0xef) := by
    rw [inRange_iff]
    simp only [UInt8.reduceToNat]
    omega
  have h₅ : isTail e = true ∧ 0xf0 ≤ b ∧ b ≤ 0xf4 :=
    ⟨(isTail_iff e).mpr he, (inRange_iff _ _ _).mpr hb⟩
  unfold decodeRune
  dsimp only
  rw [if_neg h₁, if_neg (not_not.mpr h₂), if_neg h₃,
    if_neg (not_not.mpr ((isTail_iff d).mpr hd)), if_neg h₄, if_pos h₅]
  rfl

end

/-! ## Encoding and decoding -/

/-- **Decoding an encoding** gives the code point and the length back, whatever follows. -/
theorem decodeRune_encodeRune {r : ℕ} (h : IsScalar r) (x : Bytes) :
    ∃ b tail, encodeRune r = b :: tail ∧ decodeRune b (tail ++ x) = (r, tail.length) := by
  unfold IsScalar at h
  rw [encodeRune]
  split_ifs with h₁ h₂ h₃ h₄
  · have hb := toNat_ofNat_of_lt (n := r) (by omega)
    refine ⟨_, _, rfl, ?_⟩
    unfold decodeRune
    rw [if_pos ((lt_ascii_iff _).mpr (hb.trans_lt h₁)), hb]
    rfl
  · have hb := toNat_ofNat_of_lt (n := 0xc0 + r / 0x40) (by omega)
    have hc := toNat_ofNat_of_lt (n := 0x80 + r % 0x40) (by omega)
    refine ⟨_, _, rfl, (decodeRune_two (by omega) (by omega) x).trans ?_⟩
    rw [hb, hc]
    exact Prod.ext (by dsimp only; omega) rfl
  · omega
  · have hb := toNat_ofNat_of_lt (n := 0xe0 + r / 0x1000) (by omega)
    have hc := toNat_ofNat_of_lt (n := 0x80 + r / 0x40 % 0x40) (by omega)
    have hd := toNat_ofNat_of_lt (n := 0x80 + r % 0x40) (by omega)
    refine ⟨_, _, rfl, (decodeRune_three (by omega) ?_ (by omega) x).trans ?_⟩
    · rw [hb, hc, secondLow, secondHigh]
      split_ifs <;> omega
    · rw [hb, hc, hd]
      exact Prod.ext (by dsimp only; omega) rfl
  · have hb := toNat_ofNat_of_lt (n := 0xf0 + r / 0x40000) (by omega)
    have hc := toNat_ofNat_of_lt (n := 0x80 + r / 0x1000 % 0x40) (by omega)
    have hd := toNat_ofNat_of_lt (n := 0x80 + r / 0x40 % 0x40) (by omega)
    have he := toNat_ofNat_of_lt (n := 0x80 + r % 0x40) (by omega)
    refine ⟨_, _, rfl, (decodeRune_four (by omega) ?_ (by omega) (by omega) x).trans ?_⟩
    · rw [hb, hc, secondLow, secondHigh]
      split_ifs <;> omega
    · rw [hb, hc, hd, he]
      exact Prod.ext (by dsimp only; omega) rfl

/-- The first rune of a string that is not empty. -/
def firstRune : Bytes → ℕ
  | [] => 0
  | b :: rest => (decodeRune b rest).1

theorem firstRune_encodeRune {r : ℕ} (h : IsScalar r) (x : Bytes) :
    firstRune (encodeRune r ++ x) = r := by
  obtain ⟨b, tail, hr, hdecode⟩ := decodeRune_encodeRune h x
  rw [hr, List.cons_append, firstRune, hdecode]

theorem isScalar_two {b c : ℕ} (hb : b ≤ 0xdf) (hc : c ≤ secondHigh b) :
    IsScalar ((b - 0xc0) * 0x40 + (c - 0x80)) := by
  refine .inl ?_
  rw [secondHigh] at hc
  split_ifs at hc <;> omega

theorem isScalar_three {b c d : ℕ} (hb : 0xe0 ≤ b ∧ b ≤ 0xef)
    (hc : secondLow b ≤ c ∧ c ≤ secondHigh b) (hd : 0x80 ≤ d ∧ d ≤ 0xbf) :
    IsScalar ((b - 0xe0) * 0x1000 + (c - 0x80) * 0x40 + (d - 0x80)) := by
  rw [secondLow, secondHigh] at hc
  unfold IsScalar
  split_ifs at hc <;> omega

theorem isScalar_four {b c d e : ℕ} (hb : 0xf0 ≤ b ∧ b ≤ 0xf4)
    (hc : secondLow b ≤ c ∧ c ≤ secondHigh b) (hd : 0x80 ≤ d ∧ d ≤ 0xbf)
    (he : 0x80 ≤ e ∧ e ≤ 0xbf) :
    IsScalar ((b - 0xf0) * 0x40000 + (c - 0x80) * 0x1000 + (d - 0x80) * 0x40 + (e - 0x80)) := by
  rw [secondLow, secondHigh] at hc
  unfold IsScalar
  split_ifs at hc <;> omega

theorem isScalar_decodeRune (b : UInt8) (rest : Bytes) : IsScalar (decodeRune b rest).1 := by
  have herror : IsScalar runeError := by decide
  unfold decodeRune
  by_cases h₁ : b < 0x80
  · rw [if_pos h₁]
    rw [lt_ascii_iff] at h₁
    exact .inl (by dsimp only; omega)
  rw [if_neg h₁]
  cases rest with
  | nil => exact herror
  | cons c rest =>
    dsimp only
    by_cases h₂ : (secondRange b).1 ≤ c ∧ c ≤ (secondRange b).2
    swap
    · rw [if_pos h₂]
      exact herror
    rw [if_neg (not_not.mpr h₂)]
    rw [inSecondRange_iff] at h₂
    by_cases h₃ : 0xc2 ≤ b ∧ b ≤ 0xdf
    · rw [if_pos h₃]
      have hb : 0xc2 ≤ b.toNat ∧ b.toNat ≤ 0xdf := (inRange_iff _ _ _).mp h₃
      exact isScalar_two hb.2 h₂.2
    rw [if_neg h₃]
    cases rest with
    | nil => exact herror
    | cons d rest =>
      dsimp only
      by_cases h₄ : isTail d = true
      swap
      · rw [if_pos h₄]
        exact herror
      rw [if_neg (not_not.mpr h₄)]
      rw [isTail_iff] at h₄
      by_cases h₅ : 0xe0 ≤ b ∧ b ≤ 0xef
      · rw [if_pos h₅]
        have hb : 0xe0 ≤ b.toNat ∧ b.toNat ≤ 0xef := (inRange_iff _ _ _).mp h₅
        exact isScalar_three hb h₂ h₄
      rw [if_neg h₅]
      cases rest with
      | nil => exact herror
      | cons e rest =>
        dsimp only
        by_cases h₆ : isTail e = true ∧ 0xf0 ≤ b ∧ b ≤ 0xf4
        · rw [if_pos h₆]
          have he := (isTail_iff e).mp h₆.1
          have hb : 0xf0 ≤ b.toNat ∧ b.toNat ≤ 0xf4 := (inRange_iff _ _ _).mp h₆.2
          exact isScalar_four hb h₂ h₄ he
        · rw [if_neg h₆]
          exact herror

theorem isScalar_of_mem_runesLoop {skip : ℕ} {s : Bytes} {r : ℕ} (h : r ∈ runesLoop skip s) :
    IsScalar r := by
  induction s generalizing skip with
  | nil => simp [runesLoop] at h
  | cons b rest ih =>
    cases skip with
    | zero =>
      rw [runesLoop, List.mem_cons] at h
      rcases h with rfl | h
      · exact isScalar_decodeRune b rest
      · exact ih h
    | succ skip => exact ih h

theorem validString_of_lt {s : Bytes} (h : ∀ b ∈ s, b < 0x80) : validString s = true := by
  rw [validString, decide_eq_true_eq]
  induction s with
  | nil => rfl
  | cons b rest ih =>
    have hb : b < 0x80 := h b List.mem_cons_self
    have hlt : b.toNat < 0x80 := UInt8.lt_iff_toNat_lt.mp hb
    have hrunes : runes (b :: rest) = b.toNat :: runes rest := by
      simp only [runes, runesLoop, decodeRune, if_pos hb]
    have hrest := ih fun c hc => h c (List.mem_cons_of_mem b hc)
    rw [encodeRunes] at hrest
    rw [hrunes, encodeRunes, List.flatMap_cons, hrest, encodeRune_of_lt hlt, UInt8.ofNat_toNat,
      List.singleton_append]

end Veduta.Go
