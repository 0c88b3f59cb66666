import Mathlib.Data.List.Basic
import Mathlib.Tactic.Common
import Mathlib.Data.List.Infix

/-!
# Go strings

A Go string is an immutable sequence of bytes, with no promise of being valid
UTF-8, so the model reads it as a `List UInt8`.  The functions below are those of
package `strings` that the program calls, under their own names; separators are
single bytes, because every separator in the program is ASCII.
-/

namespace Veduta.Go

/-- A Go string. -/
abbrev Bytes := List UInt8

instance : LawfulBEq Bytes := inferInstance

/-- The Go string an ASCII literal denotes. -/
def ascii (s : String) : Bytes := s.toList.map fun c => UInt8.ofNat c.toNat

/-- The byte an ASCII character denotes. -/
def chr (c : Char) : UInt8 := UInt8.ofNat c.toNat

/-- `strings.HasPrefix`. -/
def hasPrefix (s p : Bytes) : Bool := p.isPrefixOf s

/-- `strings.HasSuffix`. -/
def hasSuffix (s p : Bytes) : Bool := p.isSuffixOf s

/-- `strings.TrimPrefix`: the argument is removed at most once. -/
def trimPrefix (s p : Bytes) : Bytes := if hasPrefix s p then s.drop p.length else s

/-- `strings.TrimSuffix`: the argument is removed at most once. -/
def trimSuffix (s p : Bytes) : Bytes :=
  if hasSuffix s p then s.take (s.length - p.length) else s

/-- `strings.Index`: the leftmost occurrence; `none` is Go's `-1`. -/
def index : Bytes → Bytes → Option ℕ
  | [], sub => if sub = [] then some 0 else none
  | b :: s, sub => if sub.isPrefixOf (b :: s) then some 0 else (index s sub).map (· + 1)

/-- `strings.Contains`. -/
def contains (s sub : Bytes) : Bool := (index s sub).isSome

/-- `strings.Replace` with a count of one. -/
def replaceFirst (s old new : Bytes) : Bytes :=
  match index s old with
  | none => s
  | some i => s.take i ++ new ++ s.drop (i + old.length)

/-- `strings.Cut` around the first separator byte. -/
def cut (s : Bytes) (sep : UInt8) : Bytes × Bytes × Bool :=
  match s.span (· != sep) with
  | (before, _ :: after) => (before, after, true)
  | (before, []) => (before, [], false)

def isDigit (b : UInt8) : Bool := 0x30 ≤ b && b ≤ 0x39

def isAlpha (b : UInt8) : Bool := (0x61 ≤ b && b ≤ 0x7a) || (0x41 ≤ b && b ≤ 0x5a)

def isAlnum (b : UInt8) : Bool := isAlpha b || isDigit b

/-- The unreserved bytes of a URL, which no canonical form escapes. -/
def isUnreserved (b : UInt8) : Bool := isAlnum b || [0x2d, 0x5f, 0x2e, 0x7e].contains b

/-- Texts with commas between them. -/
def commas : List Bytes → Bytes
  | [] => []
  | [s] => s
  | s :: rest => s ++ chr ',' :: commas rest

/-- One byte lowered, as `strings.ToLower` does on ASCII. -/
def lowerByte (b : UInt8) : UInt8 := if 0x41 ≤ b ∧ b ≤ 0x5a then b + 0x20 else b

/-- `strings.ToLower`.  Two runes above ASCII lower into ASCII, the Kelvin sign
(`E2 84 AA`, to `k`) and the dotted capital I (`C4 B0`, to `i`); every other one
stays above ASCII and is left as it is.  Against an ASCII word that makes no difference;
where two lowered texts are compared with each other, charsets or names of headers, those
that differ in the case of a letter above ASCII are told apart here only. -/
def toLower : Bytes → Bytes
  | 0xe2 :: 0x84 :: 0xaa :: rest => 0x6b :: toLower rest
  | 0xc4 :: 0xb0 :: rest => 0x69 :: toLower rest
  | b :: rest => lowerByte b :: toLower rest
  | [] => []

/-- The encodings of the runes that `unicode.IsSpace` takes for space. -/
def spaces : List Bytes :=
  [[0x09], [0x0a], [0x0b], [0x0c], [0x0d], [0x20], [0xc2, 0x85], [0xc2, 0xa0], [0xe1, 0x9a, 0x80],
    [0xe2, 0x80, 0xa8], [0xe2, 0x80, 0xa9], [0xe2, 0x80, 0xaf], [0xe2, 0x81, 0x9f],
    [0xe3, 0x80, 0x80]] ++ (List.range 11).map fun i => [0xe2, 0x80, 0x80 + UInt8.ofNat i]

/-- Strip leading members of `table`, at most `fuel` of them. -/
def stripLeading (table : List Bytes) : ℕ → Bytes → Bytes
  | 0, s => s
  | fuel + 1, s =>
    match table.find? (hasPrefix s) with
    | none => s
    | some space => stripLeading table fuel (s.drop space.length)

/-- `strings.TrimLeftFunc(s, unicode.IsSpace)`. -/
def trimLeftSpace (s : Bytes) : Bytes := stripLeading spaces s.length s

/-- `strings.TrimSpace`. -/
def trimSpace (s : Bytes) : Bytes :=
  let left := trimLeftSpace s
  (stripLeading (spaces.map List.reverse) left.length left.reverse).reverse

@[simp] theorem hasPrefix_iff (s p : Bytes) : hasPrefix s p = true ↔ p <+: s := by
  simp [hasPrefix]

@[simp] theorem hasSuffix_iff (s p : Bytes) : hasSuffix s p = true ↔ p <:+ s := by
  simp [hasSuffix]

@[simp] theorem trimPrefix_append (p s : Bytes) : trimPrefix (p ++ s) p = s := by
  simp [trimPrefix]

theorem trimSuffix_of_not (s p : Bytes) (h : ¬ p <:+ s) : trimSuffix s p = s := by
  have hs : hasSuffix s p = false := by
    rw [← Bool.not_eq_true, hasSuffix_iff]
    exact h
  simp [trimSuffix, hs]

theorem index_eq_some {s sub : Bytes} {i : ℕ} (h : index s sub = some i) :
    sub <+: s.drop i ∧ ∀ j < i, ¬ sub <+: s.drop j := by
  induction s generalizing i with
  | nil =>
    simp only [index, Option.ite_none_right_eq_some, Option.some.injEq] at h
    obtain ⟨rfl, rfl⟩ := h
    simp
  | cons b s ih =>
    by_cases hp : sub.isPrefixOf (b :: s) = true
    · simp only [index, hp, if_true, Option.some.injEq] at h
      subst h
      simpa using hp
    · simp only [index, hp, if_false, Bool.false_eq_true, Option.map_eq_some_iff] at h
      obtain ⟨k, hk, rfl⟩ := h
      obtain ⟨hat, hbefore⟩ := ih hk
      refine ⟨by simpa using hat, ?_⟩
      intro j hj
      cases j with
      | zero => simpa using hp
      | succ j => simpa using hbefore j (by omega)

theorem index_eq_none {s sub : Bytes} (h : index s sub = none) : ∀ j, ¬ sub <+: s.drop j := by
  induction s with
  | nil =>
    have hne : sub ≠ [] := by
      intro he
      simp [index, he] at h
    intro j
    simpa using hne
  | cons b s ih =>
    by_cases hp : sub.isPrefixOf (b :: s) = true
    · simp [index, hp] at h
    · simp only [index, hp, if_false, Bool.false_eq_true, Option.map_eq_none_iff] at h
      intro j
      cases j with
      | zero => simpa using hp
      | succ j => simpa using ih h j

theorem contains_singleton (s : Bytes) (b : UInt8) : contains s [b] = true ↔ b ∈ s := by
  constructor
  · intro h
    obtain ⟨i, hi⟩ := Option.isSome_iff_exists.mp h
    obtain ⟨t, ht⟩ := (index_eq_some hi).1
    exact List.mem_of_mem_drop (i := i) (by rw [← ht]; simp)
  · intro h
    by_contra hc
    have hnone : index s [b] = none := by simpa [contains] using hc
    obtain ⟨s₁, s₂, rfl⟩ := List.append_of_mem h
    exact index_eq_none hnone s₁.length (by simp)

end Veduta.Go
