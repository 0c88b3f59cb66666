import Veduta.Go.Strings

/-!
# Runes

What a `range` loop over a Go string sees: code points, as numbers, with U+FFFD for a
byte that does not belong to a valid encoding.  Writing the runes back gives the string
again exactly if it was valid.
-/

namespace Veduta.Go

/-- What stands for an invalid byte. -/
def runeError : ℕ := 0xfffd

/-- A continuation byte. -/
def isTail (b : UInt8) : Bool := 0x80 ≤ b && b ≤ 0xbf

/-- The payload of a continuation byte. -/
def tailBits (b : UInt8) : ℕ := b.toNat - 0x80

/-- The range that the second byte of a sequence must be in, by the first: it excludes
overlong forms, surrogates and what is above U+10FFFF. -/
def secondRange (b : UInt8) : UInt8 × UInt8 :=
  if b = 0xe0 then (0xa0, 0xbf)
  else if b = 0xed then (0x80, 0x9f)
  else if b = 0xf0 then (0x90, 0xbf)
  else if b = 0xf4 then (0x80, 0x8f)
  else (0x80, 0xbf)

/-- `utf8.DecodeRune` on a string that starts with `b`: the rune, and the number of
bytes after the first that belong to it. -/
def decodeRune (b : UInt8) (rest : Bytes) : ℕ × ℕ :=
  if b < 0x80 then (b.toNat, 0)
  else
    match rest with
    | [] => (runeError, 0)
    | c :: rest =>
      let range := secondRange b
      if ¬ (range.1 ≤ c ∧ c ≤ range.2) then (runeError, 0)
      else if 0xc2 ≤ b ∧ b ≤ 0xdf then ((b.toNat - 0xc0) * 0x40 + tailBits c, 1)
      else
        match rest with
        | [] => (runeError, 0)
        | d :: rest =>
          if ¬ isTail d then (runeError, 0)
          else if 0xe0 ≤ b ∧ b ≤ 0xef then
            ((b.toNat - 0xe0) * 0x1000 + tailBits c * 0x40 + tailBits d, 2)
          else
            match rest with
            | [] => (runeError, 0)
            | e :: _ =>
              if isTail e ∧ 0xf0 ≤ b ∧ b ≤ 0xf4 then
                ((b.toNat - 0xf0) * 0x40000 + tailBits c * 0x1000 + tailBits d * 0x40 +
                  tailBits e, 3)
              else (runeError, 0)

/-- The loop, with the number of bytes that the last rune still covers. -/
def runesLoop : ℕ → Bytes → List ℕ
  | _, [] => []
  | skip + 1, _ :: rest => runesLoop skip rest
  | 0, b :: rest => (decodeRune b rest).1 :: runesLoop (decodeRune b rest).2 rest

/-- The runes of a string, as a `range` loop sees them. -/
def runes (s : Bytes) : List ℕ := runesLoop 0 s

/-- `utf8.AppendRune`: one to four bytes. -/
def encodeRune (r : ℕ) : Bytes :=
  if r < 0x80 then [UInt8.ofNat r]
  else if r < 0x800 then [UInt8.ofNat (0xc0 + r / 0x40), UInt8.ofNat (0x80 + r % 0x40)]
  else if 0xd800 ≤ r ∧ r < 0xe000 ∨ 0x10ffff < r then [0xef, 0xbf, 0xbd]
  else if r < 0x10000 then
    [UInt8.ofNat (0xe0 + r / 0x1000), UInt8.ofNat (0x80 + r / 0x40 % 0x40),
      UInt8.ofNat (0x80 + r % 0x40)]
  else
    [UInt8.ofNat (0xf0 + r / 0x40000), UInt8.ofNat (0x80 + r / 0x1000 % 0x40),
      UInt8.ofNat (0x80 + r / 0x40 % 0x40), UInt8.ofNat (0x80 + r % 0x40)]

def encodeRunes (rs : List ℕ) : Bytes := rs.flatMap encodeRune

/-- The string is valid UTF-8: no byte had to be replaced. -/
def validString (s : Bytes) : Bool := encodeRunes (runes s) = s

/-- `utf16.Encode`: a surrogate pair above the basic plane. -/
def utf16Encode (rs : List ℕ) : List ℕ :=
  rs.flatMap fun r =>
    if r < 0x10000 then [r]
    else [0xd800 + (r - 0x10000) / 0x400, 0xdc00 + (r - 0x10000) % 0x400]

theorem encodeRune_of_lt {r : ℕ} (h : r < 0x80) : encodeRune r = [UInt8.ofNat r] := by
  rw [encodeRune, if_pos h]

theorem le_ofNat {n : ℕ} (h : 0x80 ≤ n) (hlt : n < 0x100) : 0x80 ≤ UInt8.ofNat n := by
  rw [UInt8.le_iff_toNat_le, UInt8.toNat_ofNat']
  simp only [UInt8.reduceToNat]
  omega

theorem le_of_mem_encodeRune {r : ℕ} (h : ¬ r < 0x80) {b : UInt8} (hb : b ∈ encodeRune r) :
    0x80 ≤ b := by
  rw [encodeRune, if_neg h] at hb
  split_ifs at hb with h₂ hbad h₃
  all_goals simp only [List.mem_cons, List.not_mem_nil, or_false] at hb
  · rcases hb with rfl | rfl <;> apply le_ofNat <;> omega
  · rcases hb with rfl | rfl | rfl <;> decide
  · rcases hb with rfl | rfl | rfl <;> apply le_ofNat <;> omega
  · rcases hb with rfl | rfl | rfl | rfl <;> apply le_ofNat <;> omega

example : runes [0x61, 0xe2, 0x82, 0xac, 0xff, 0xf0, 0x9f, 0x98, 0x80] =
    [0x61, 0x20ac, 0xfffd, 0x1f600] := by decide

end Veduta.Go
