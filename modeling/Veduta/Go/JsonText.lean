import Veduta.Go.JsonWrite
import Veduta.Go.Utf8Code

/-!
# Reading JSON strings back

What `json.Marshal` writes of a string can be read back up to the bytes that are not valid
UTF-8, which all become the same escape.  So the text of a string, and of a map of strings,
determines it where the strings are valid.
-/

namespace Veduta.Go

open Lib

/-- One character as the encoder sees it, or a byte that is none. -/
inductive JsonChar where
  | rune (r : ℕ)
  | invalid
  deriving DecidableEq

namespace JsonChar

/-- A character that a string can hold. -/
def Proper : JsonChar → Prop
  | rune r => IsScalar r
  | invalid => True

/-- The rune that a `range` loop sees. -/
def seen : JsonChar → ℕ
  | rune r => r
  | invalid => runeError

def quoted : JsonChar → Bytes
  | rune r => quoteRune r
  | invalid => unicodeEscape runeError

end JsonChar

/-- The characters of a string, with the number of bytes that the last one still covers. -/
def jsonCharsLoop : ℕ → Bytes → List JsonChar
  | _, [] => []
  | skip + 1, _ :: rest => jsonCharsLoop skip rest
  | 0, b :: rest =>
    (if (decodeRune b rest).1 = runeError ∧ (decodeRune b rest).2 = 0 then .invalid
      else .rune (decodeRune b rest).1) :: jsonCharsLoop (decodeRune b rest).2 rest

def jsonChars (s : Bytes) : List JsonChar := jsonCharsLoop 0 s

theorem quoteLoop_eq_flatMap (skip : ℕ) (s : Bytes) :
    quoteLoop skip s = (jsonCharsLoop skip s).flatMap JsonChar.quoted := by
  induction s generalizing skip with
  | nil => cases skip <;> rfl
  | cons b rest ih =>
    cases skip with
    | zero =>
      rw [quoteLoop, jsonCharsLoop, List.flatMap_cons, ← ih]
      dsimp only
      split <;> rfl
    | succ skip => exact ih skip

theorem runesLoop_eq_map (skip : ℕ) (s : Bytes) :
    runesLoop skip s = (jsonCharsLoop skip s).map JsonChar.seen := by
  induction s generalizing skip with
  | nil => cases skip <;> rfl
  | cons b rest ih =>
    cases skip with
    | zero =>
      rw [runesLoop, jsonCharsLoop, List.map_cons, ← ih]
      split
      next h => rw [h.1]; rfl
      next => rfl
    | succ skip => exact ih skip

variable {s x y t : Bytes} {c : JsonChar}

theorem proper_of_mem_jsonCharsLoop {skip : ℕ} (h : c ∈ jsonCharsLoop skip s) : c.Proper := by
  induction s generalizing skip with
  | nil => simp [jsonCharsLoop] at h
  | cons b rest ih =>
    cases skip with
    | zero =>
      rw [jsonCharsLoop, List.mem_cons] at h
      rcases h with rfl | h
      · split
        · trivial
        · exact isScalar_decodeRune b rest
      · exact ih h
    | succ skip => exact ih h

/-- **Valid strings with the same characters are the same.** -/
theorem eq_of_jsonChars_eq (hs : validString s = true) (ht : validString t = true)
    (h : jsonChars s = jsonChars t) : s = t := by
  have hrunes : runes s = runes t := by
    rw [runes, runes, runesLoop_eq_map, runesLoop_eq_map]
    exact congrArg _ h
  rw [validString, decide_eq_true_eq] at hs ht
  rw [← hs, ← ht, hrunes]

/-! ## Reading one character -/

def fourDigits (a b c d : UInt8) : ℕ :=
  (hexVal a).toNat * 0x1000 + (hexVal b).toNat * 0x100 + (hexVal c).toNat * 16 + (hexVal d).toNat

/-- What a short escape stands for. -/
def shortEscape (c : UInt8) : ℕ :=
  if c = chr 'b' then 0x08
  else if c = chr 'f' then 0x0c
  else if c = chr 'n' then 0x0a
  else if c = chr 'r' then 0x0d
  else if c = chr 't' then 0x09
  else c.toNat

/-- The first character of the text of a string. -/
def readChar : Bytes → JsonChar
  | 0x5c :: 0x75 :: a :: b :: c :: d :: _ =>
    if fourDigits a b c d = runeError then .invalid else .rune (fourDigits a b c d)
  | 0x5c :: c :: _ => .rune (shortEscape c)
  | s => .rune (firstRune s)

theorem hexVal_hexDigit : ∀ d < 16, (hexVal (hexDigit d)).toNat = d := by decide +kernel

theorem readChar_unicodeEscape {r : ℕ} (h : r < 0x10000) (x : Bytes) :
    readChar (unicodeEscape r ++ x) = if r = runeError then .invalid else .rune r := by
  have hvalue : fourDigits (hexDigit (r / 0x1000 % 16)) (hexDigit (r / 0x100 % 16))
      (hexDigit (r / 16 % 16)) (hexDigit (r % 16)) = r := by
    simp only [fourDigits]
    rw [hexVal_hexDigit _ (Nat.mod_lt _ (by decide)), hexVal_hexDigit _ (Nat.mod_lt _ (by decide)),
      hexVal_hexDigit _ (Nat.mod_lt _ (by decide)), hexVal_hexDigit _ (Nat.mod_lt _ (by decide))]
    omega
  change (if fourDigits _ _ _ _ = runeError then _ else _) = _
  rw [hvalue]

theorem readChar_encodeRune {r : ℕ} (h : IsScalar r) (hne : r ≠ 0x5c) (x : Bytes) :
    readChar (encodeRune r ++ x) = .rune r := by
  have hfirst := firstRune_encodeRune h x
  obtain ⟨b, tail, hr, -⟩ := decodeRune_encodeRune h x
  have hb : b ≠ 0x5c := by
    rintro rfl
    refine hne ?_
    rw [← hfirst, hr]
    rfl
  rw [hr, List.cons_append] at hfirst ⊢
  rw [readChar]
  · rw [hfirst]
  · intro a b c d rest heq
    exact absurd (List.cons.inj heq).1 hb
  · intro c rest heq
    exact absurd (List.cons.inj heq).1 hb

theorem readChar_quoted (h : c.Proper) (x : Bytes) : readChar (c.quoted ++ x) = c := by
  cases c with
  | invalid => exact readChar_unicodeEscape (by decide) x
  | rune r =>
    simp only [JsonChar.quoted, quoteRune]
    split_ifs with h₁ h₂ h₃ h₄ h₅ h₆ h₇ h₈
    iterate 7
      subst r
      rfl
    · rw [readChar_unicodeEscape (by omega), if_neg (by rw [runeError]; omega)]
    · exact readChar_encodeRune h h₂ x

/-- The text of a character starts with a backslash or with the character itself; never with
the quote that ends a string. -/
theorem head?_quoted (h : c.Proper) : ∃ b tail, c.quoted = b :: tail ∧ b ≠ chr '"' := by
  have hescape : ∀ (d : UInt8) (tail : Bytes), ∃ b w, (0x5c :: d :: tail : Bytes) = b :: w ∧
      b ≠ chr '"' := fun d tail => ⟨0x5c, d :: tail, rfl, by decide⟩
  cases c with
  | invalid => exact hescape _ _
  | rune r =>
    simp only [JsonChar.quoted, quoteRune]
    split_ifs with h₁
    iterate 8 exact hescape _ _
    · obtain ⟨b, tail, hr, hdecode⟩ := decodeRune_encodeRune h []
      refine ⟨b, tail, hr, ?_⟩
      rintro rfl
      exact h₁ (congrArg Prod.fst hdecode).symm

/-- **The characters of a JSON string are a prefix code.** -/
theorem prefixCode_quoted : PrefixCode JsonChar.Proper JsonChar.quoted := by
  refine .of_reader readChar ?_ fun c x h => readChar_quoted h x
  intro c hc
  obtain ⟨b, tail, hb, -⟩ := head?_quoted hc
  rw [hb]
  exact List.cons_ne_nil _ _

/-- The text of a list of characters. -/
def quotedText (cs : List JsonChar) : Bytes := chr '"' :: cs.flatMap JsonChar.quoted ++ [chr '"']

theorem quoteJson_eq (s : Bytes) : quoteJson s = quotedText (jsonChars s) := by
  rw [quoteJson, quoteLoop_eq_flatMap]
  rfl

theorem read_quotedText {cs ds : List JsonChar} (hcs : ∀ c ∈ cs, c.Proper)
    (hds : ∀ d ∈ ds, d.Proper) (h : quotedText cs ++ x = quotedText ds ++ y) : cs = ds ∧ x = y := by
  simp only [quotedText, List.cons_append, List.append_assoc, List.nil_append,
    List.cons.injEq, true_and] at h
  refine prefixCode_quoted.read_flatMap ?_ hcs hds h
  intro c hc
  obtain ⟨b, tail, hb, hne⟩ := head?_quoted hc
  rw [hb, List.head?_cons]
  exact fun heq => hne (Option.some.inj heq)

/-- **The text of a string determines its characters**, and what follows it. -/
theorem read_quoteJson (h : quoteJson s ++ x = quoteJson t ++ y) :
    jsonChars s = jsonChars t ∧ x = y := by
  rw [quoteJson_eq, quoteJson_eq] at h
  exact read_quotedText (fun _ => proper_of_mem_jsonCharsLoop)
    (fun _ => proper_of_mem_jsonCharsLoop) h

theorem commas_eq_intercalate (ss : List Bytes) : commas ss = [chr ','].intercalate ss := by
  induction ss with
  | nil => rfl
  | cons s ss ih =>
    cases ss with
    | nil => simp [commas, List.intercalate]
    | cons t ss =>
      rw [commas, ih, List.intercalate_cons_cons]
      · simp
      · simp

/-- `json.Marshal` of a `map[string]string`, from its entries in the order of their keys. -/
def stringMapText (entries : List (Bytes × Bytes)) : Bytes :=
  0x7b :: commas (entries.map fun x => quoteJson x.1 ++ chr ':' :: quoteJson x.2) ++ [0x7d]

/-- A member of such a map, by its characters. -/
def memberText (m : List JsonChar × List JsonChar) : Bytes :=
  quotedText m.1 ++ chr ':' :: quotedText m.2

theorem prefixCode_memberText :
    PrefixCode (fun m => (∀ c ∈ m.1, c.Proper) ∧ ∀ c ∈ m.2, c.Proper) memberText where
  ne_nil := fun _ => List.cons_ne_nil _ _
  read := by
    intro m n x y hm hn h
    simp only [memberText, List.append_assoc, List.cons_append] at h
    obtain ⟨hname, hrest⟩ := read_quotedText hm.1 hn.1 h
    exact Prod.ext hname (read_quotedText hm.2 hn.2 (List.cons.inj hrest).2).1

/-- **The text of a map of strings determines the characters of its entries.** -/
theorem read_stringMapText {l l' : List (Bytes × Bytes)}
    (h : stringMapText l ++ x = stringMapText l' ++ y) :
    l.map (Prod.map jsonChars jsonChars) = l'.map (Prod.map jsonChars jsonChars) ∧ x = y := by
  have hmap : ∀ l : List (Bytes × Bytes), stringMapText l =
      0x7b :: [chr ','].intercalate ((l.map (Prod.map jsonChars jsonChars)).map memberText) ++
        [0x7d] := by
    intro l
    rw [stringMapText, commas_eq_intercalate, List.map_map]
    simp only [quoteJson_eq]
    rfl
  have hproper : ∀ l : List (Bytes × Bytes), ∀ m ∈ l.map (Prod.map jsonChars jsonChars),
      (∀ c ∈ m.1, c.Proper) ∧ ∀ c ∈ m.2, c.Proper := by
    intro l m hm
    obtain ⟨e, _, rfl⟩ := List.mem_map.mp hm
    exact ⟨fun _ => proper_of_mem_jsonCharsLoop, fun _ => proper_of_mem_jsonCharsLoop⟩
  rw [hmap, hmap] at h
  simp only [List.cons_append, List.append_assoc, List.nil_append, List.cons.injEq,
    true_and] at h
  refine prefixCode_memberText.read_intercalate (by decide) ?_ (hproper l) (hproper l') h
  intro m _ heq
  exact absurd (Option.some.inj heq) (by decide)

end Veduta.Go
