import Veduta.Go.Strings
import Mathlib.Data.FinEnum

/-!
# Percent-escaped text as a list of tokens

A percent-escaped string is read from left to right as a list of tokens, each
either a literal byte other than `%` or an escape of two hexadecimal digits.  The
reading is unique, so a rewriting of an escaped string is a map on its tokens, and
what it keeps or loses is said token by token.
-/

namespace Veduta.Lib

open Go

abbrev percent : UInt8 := 0x25

def isHex (b : UInt8) : Bool :=
  (0x30 ≤ b && b ≤ 0x39) || (0x61 ≤ b && b ≤ 0x66) || (0x41 ≤ b && b ≤ 0x46)

/-- The value of a hexadecimal digit; only called on one. -/
def hexVal (b : UInt8) : UInt8 :=
  if 0x30 ≤ b && b ≤ 0x39 then b - 0x30
  else if 0x61 ≤ b && b ≤ 0x66 then b - 0x61 + 10
  else b - 0x41 + 10

def hexByte (hi lo : UInt8) : UInt8 := hexVal hi <<< 4 ||| hexVal lo

/-- The lower-case digit of a value below sixteen. -/
def lowerHex (n : UInt8) : UInt8 := if n < 10 then 0x30 + n else 0x57 + n

/-- The upper-case digit of a value below sixteen. -/
def upperHex (n : UInt8) : UInt8 := if n < 10 then 0x30 + n else 0x37 + n

/-- One token of a percent-escaped string. -/
inductive Tok where
  /-- A byte that stands for itself. -/
  | lit (b : UInt8)
  /-- An escape, by its two digits. -/
  | esc (hi lo : UInt8)
  deriving DecidableEq, Repr

namespace Tok

/-- How a token is spelt. -/
def bytes : Tok → Bytes
  | lit b => [b]
  | esc hi lo => [percent, hi, lo]

def value : Tok → UInt8
  | lit b => b
  | esc hi lo => hexByte hi lo

/-- A token the scanner can produce. -/
def Valid : Tok → Prop
  | lit b => b ≠ percent
  | esc hi lo => isHex hi = true ∧ isHex lo = true

end Tok

/-- The tokens of a string, or `none` where a `%` is not followed by two digits. -/
def scan : Bytes → Option (List Tok)
  | [] => some []
  | b :: rest =>
    if b = percent then
      match rest with
      | hi :: lo :: rest' =>
        if isHex hi && isHex lo then (scan rest').map (Tok.esc hi lo :: ·) else none
      | _ => none
    else (scan rest).map (Tok.lit b :: ·)

def render (ts : List Tok) : Bytes := ts.flatMap Tok.bytes

/-- Percent-decoding, once. -/
def unescape (s : Bytes) : Option Bytes := (scan s).map (List.map Tok.value)

def hexEscape (b : UInt8) : Tok := .esc (lowerHex (b >>> 4)) (lowerHex (b &&& 0xf))

theorem isHex_lowerHex_high : ∀ b : UInt8, isHex (lowerHex (b >>> 4)) = true := by
  decide +kernel

theorem isHex_lowerHex_low : ∀ b : UInt8, isHex (lowerHex (b &&& 0xf)) = true := by
  decide +kernel

@[simp] theorem value_hexEscape : ∀ b : UInt8, (hexEscape b).value = b := by
  decide +kernel

theorem valid_hexEscape (b : UInt8) : (hexEscape b).Valid :=
  ⟨isHex_lowerHex_high b, isHex_lowerHex_low b⟩

/-! ## Scanning and rendering -/

@[simp] theorem scan_nil : scan [] = some [] := rfl

@[simp] theorem scan_lit {b : UInt8} (h : b ≠ percent) (rest : Bytes) :
    scan (b :: rest) = (scan rest).map (Tok.lit b :: ·) := by
  rw [scan.eq_def]
  simp [h]

@[simp] theorem scan_esc {hi lo : UInt8} (hhi : isHex hi = true) (hlo : isHex lo = true)
    (rest : Bytes) :
    scan (percent :: hi :: lo :: rest) = (scan rest).map (Tok.esc hi lo :: ·) := by
  rw [scan.eq_def]
  simp [hhi, hlo]

@[simp] theorem render_nil : render [] = [] := rfl

@[simp] theorem render_cons (t : Tok) (ts : List Tok) : render (t :: ts) = t.bytes ++ render ts :=
  rfl

@[simp] theorem render_append (ts us : List Tok) : render (ts ++ us) = render ts ++ render us :=
  List.flatMap_append

theorem scan_tok_append {t : Tok} (ht : t.Valid) (s : Bytes) :
    scan (t.bytes ++ s) = (scan s).map (t :: ·) := by
  cases t with
  | lit b => exact scan_lit ht s
  | esc hi lo => exact scan_esc ht.1 ht.2 s

variable {ts : List Tok}

/-- **The reading is unique**: what valid tokens spell scans back to them. -/
theorem scan_render_append (h : ∀ t ∈ ts, t.Valid) (s : Bytes) :
    scan (render ts ++ s) = (scan s).map (ts ++ ·) := by
  induction ts with
  | nil => simp
  | cons t ts ih =>
    rw [render_cons, List.append_assoc, scan_tok_append (h t (by simp)),
      ih (fun u hu => h u (by simp [hu])), Option.map_map]
    rfl

theorem scan_render (h : ∀ t ∈ ts, t.Valid) : scan (render ts) = some ts := by
  simpa using scan_render_append h []

theorem render_of_scan {s : Bytes} (h : scan s = some ts) : render ts = s ∧ ∀ t ∈ ts, t.Valid := by
  -- the scanner takes one or three bytes at a time, so the induction is its own
  fun_induction scan s generalizing ts with
  | case1 => simp_all
  | case2 hi lo rest hhex ih =>
    simp only [Option.map_eq_some_iff] at h
    obtain ⟨us, hus, rfl⟩ := h
    obtain ⟨hr, hv⟩ := ih hus
    simp only [Bool.and_eq_true] at hhex
    refine ⟨by simp [Tok.bytes, hr], ?_⟩
    intro t ht
    rcases List.mem_cons.mp ht with rfl | ht
    · exact hhex
    · exact hv t ht
  | case3 | case4 => simp at h
  | case5 b rest hb ih =>
    simp only [Option.map_eq_some_iff] at h
    obtain ⟨us, hus, rfl⟩ := h
    obtain ⟨hr, hv⟩ := ih hus
    refine ⟨by simp [Tok.bytes, hr], ?_⟩
    intro t ht
    rcases List.mem_cons.mp ht with rfl | ht
    · exact hb
    · exact hv t ht

theorem render_injOn {us : List Tok} (ht : ∀ t ∈ ts, t.Valid) (hu : ∀ t ∈ us, t.Valid)
    (h : render ts = render us) : ts = us := by
  have := scan_render ht
  rw [h, scan_render hu] at this
  exact (Option.some.inj this).symm

theorem unescape_render (h : ∀ t ∈ ts, t.Valid) :
    unescape (render ts) = some (ts.map Tok.value) := by
  rw [unescape, scan_render h, Option.map_some]

/-- **An escape never spans a separator**: a byte that is neither `%` nor a digit
cuts the reading in two. -/
theorem scan_append_sep {sep : UInt8} (hp : sep ≠ percent) (hx : isHex sep = false)
    (s t : Bytes) :
    scan (s ++ sep :: t) = (scan s).bind fun ts => (scan t).map fun us => ts ++ .lit sep :: us := by
  fun_induction scan s with
  | case1 => simp [hp]
  | case2 hi lo rest hhex ih =>
    simp only [Bool.and_eq_true] at hhex
    simp only [List.cons_append, scan_esc hhex.1 hhex.2, ih]
    cases scan rest <;> simp [Function.comp_def]
  | case3 hi lo rest hhex =>
    rw [List.cons_append, scan.eq_def]
    simp [hhex]
  | case4 rest hrest =>
    -- too short a tail: the separator would have to be one of the digits
    match rest, hrest with
    | [], _ =>
      rw [scan.eq_def]
      cases t with
      | nil => simp
      | cons c t => simp [hx]
    | [x], _ =>
      rw [scan.eq_def]
      simp [hx]
    | x :: y :: r, hrest => exact absurd rfl (hrest x y r)
  | case5 b rest hb ih =>
    simp only [List.cons_append, scan_lit hb, ih]
    cases scan rest <;> simp [Function.comp_def]

/-- Escape the bytes that a test picks, in upper case. -/
def escapeWith (shouldEscape : UInt8 → Bool) (s : Bytes) : Bytes :=
  s.flatMap fun b =>
    if shouldEscape b then [percent, upperHex (b >>> 4), upperHex (b &&& 0xf)] else [b]

/-- **Encoding is undone by decoding**, as long as every `%` is encoded. -/
theorem unescape_escapeWith {shouldEscape : UInt8 → Bool} (h : shouldEscape percent = true)
    (s : Bytes) : unescape (escapeWith shouldEscape s) = some s := by
  have hvalid : ∀ b : UInt8,
      isHex (upperHex (b >>> 4)) = true ∧ isHex (upperHex (b &&& 0xf)) = true := by
    decide +kernel
  have hvalue : ∀ b : UInt8, hexByte (upperHex (b >>> 4)) (upperHex (b &&& 0xf)) = b := by
    decide +kernel
  let tok : UInt8 → Tok := fun b =>
    if shouldEscape b then .esc (upperHex (b >>> 4)) (upperHex (b &&& 0xf)) else .lit b
  have hbytes : escapeWith shouldEscape s = render (s.map tok) := by
    rw [render, List.flatMap_map, escapeWith]
    refine List.flatMap_congr fun b _ => ?_
    by_cases hb : shouldEscape b = true <;> simp [tok, hb, Tok.bytes]
  rw [hbytes, unescape_render]
  · rw [List.map_map, Option.some.injEq]
    conv_rhs => rw [← List.map_id s]
    refine List.map_congr_left fun b _ => ?_
    by_cases hb : shouldEscape b = true <;> simp [tok, hb, Tok.value, hvalue]
  · intro t ht
    obtain ⟨b, -, rfl⟩ := List.mem_map.mp ht
    by_cases hb : shouldEscape b = true
    · simp only [tok, hb, if_true]
      exact hvalid b
    · simp only [tok, hb]
      rintro rfl
      exact hb h

end Veduta.Lib
