import Mathlib.Data.FinEnum
import Veduta.Go.Map
import Veduta.Go.Strings

/-!
# HTTP header maps

An `http.Header` is a map from canonical names to value lists.  `Set` canonicalises
the name it is given, so names that differ in letter case write one entry, and of
several writes the last one stays.
-/

namespace Veduta.Go

/-- The bytes of a header field name (RFC 7230 `tchar`): digits, letters and
fifteen other marks. -/
def validHeaderFieldByte (b : UInt8) : Bool :=
  (0x30 ≤ b && b ≤ 0x39) || (0x41 ≤ b && b ≤ 0x5a) || (0x61 ≤ b && b ≤ 0x7a) ||
    [0x21, 0x23, 0x24, 0x25, 0x26, 0x27, 0x2a, 0x2b, 0x2d, 0x2e, 0x5e, 0x5f, 0x60, 0x7c,
      0x7e].contains b

/-- Upper case at the start and after each dash, lower case elsewhere. -/
def canonicalLoop : Bool → Bytes → Bytes
  | _, [] => []
  | upper, b :: rest =>
    let c := if upper && 0x61 ≤ b && b ≤ 0x7a then b - 0x20
      else if !upper && 0x41 ≤ b && b ≤ 0x5a then b + 0x20 else b
    c :: canonicalLoop (c == chr '-') rest

/-- `textproto.CanonicalMIMEHeaderKey`. -/
def canonicalMIMEHeaderKey (s : Bytes) : Bytes :=
  if s.all validHeaderFieldByte then canonicalLoop true s else s

/-- `http.Header`. -/
abbrev Header := GoMap Bytes (List Bytes)

namespace Header

/-- `Header.Set`. -/
def set (h : Header) (name value : Bytes) : Header :=
  h.insert (canonicalMIMEHeaderKey name) [value]

/-- A loop of `Set` calls, in the order given. -/
def setAll (h : Header) (l : List (Σ _ : Bytes, Bytes)) : Header :=
  l.foldl (fun h x => h.set x.1 x.2) h

end Header

theorem canonicalLoop_map_lowerByte (upper : Bool) (s : Bytes) :
    canonicalLoop upper (s.map lowerByte) = canonicalLoop upper s := by
  have step : ∀ (upper : Bool) (b : UInt8),
      (if upper && 0x61 ≤ lowerByte b && lowerByte b ≤ 0x7a then lowerByte b - 0x20
        else if !upper && 0x41 ≤ lowerByte b && lowerByte b ≤ 0x5a then lowerByte b + 0x20
        else lowerByte b) =
      (if upper && 0x61 ≤ b && b ≤ 0x7a then b - 0x20
        else if !upper && 0x41 ≤ b && b ≤ 0x5a then b + 0x20 else b) := by
    decide +kernel
  induction s generalizing upper with
  | nil => rfl
  | cons b s ih =>
    rw [List.map_cons, canonicalLoop, canonicalLoop, step]
    exact congrArg _ (ih _)

theorem all_valid_map_lowerByte (s : Bytes) :
    (s.map lowerByte).all validHeaderFieldByte = s.all validHeaderFieldByte := by
  have step : ∀ b : UInt8, validHeaderFieldByte (lowerByte b) = validHeaderFieldByte b := by
    decide +kernel
  rw [List.all_map]
  exact congrArg _ (funext step)

theorem map_lowerByte_canonicalMIMEHeaderKey (s : Bytes) :
    (canonicalMIMEHeaderKey s).map lowerByte = s.map lowerByte := by
  have step : ∀ (upper : Bool) (b : UInt8),
      lowerByte (if upper && 0x61 ≤ b && b ≤ 0x7a then b - 0x20
        else if !upper && 0x41 ≤ b && b ≤ 0x5a then b + 0x20 else b) = lowerByte b := by
    decide +kernel
  have loop : ∀ upper, (canonicalLoop upper s).map lowerByte = s.map lowerByte := by
    induction s with
    | nil => exact fun _ => rfl
    | cons b s ih =>
      intro upper
      rw [canonicalLoop, List.map_cons, step, ih, List.map_cons]
  rw [canonicalMIMEHeaderKey]
  split
  · exact loop true
  · rfl

variable {s w : Bytes}

theorem toLower_eq_map (h : ∀ b ∈ s, b < 0x80) : toLower s = s.map lowerByte := by
  fun_induction toLower s with
  | case1 => exact absurd (h 0xe2 (by simp)) (by decide)
  | case2 => exact absurd (h 0xc4 (by simp)) (by decide)
  | case3 b rest _ _ ih => rw [List.map_cons, ih fun b hb => h b (by simp [hb])]
  | case4 => rfl

/-- A name that lowers to an ASCII word without `i` and `k`, the two letters that a
rune above ASCII lowers to, is that word up to letter case. -/
theorem map_lowerByte_of_toLower (h : toLower s = w) (hi : 0x69 ∉ w) (hk : 0x6b ∉ w) :
    s.map lowerByte = w := by
  fun_induction toLower s generalizing w with
  | case1 => exact absurd (h ▸ List.mem_cons_self) hk
  | case2 => exact absurd (h ▸ List.mem_cons_self) hi
  | case3 b rest _ _ ih =>
    subst h
    rw [List.mem_cons, not_or] at hi hk
    rw [List.map_cons, ih rfl hi.2 hk.2]
  | case4 => exact h

/-- **One canonical name for every letter case.**  For a lower-case header name without
`i` and `k`, `ToLower` and `CanonicalMIMEHeaderKey` identify the same names. -/
theorem canonicalMIMEHeaderKey_eq_iff (hvalid : w.all validHeaderFieldByte = true)
    (hlower : w.map lowerByte = w) (hi : 0x69 ∉ w) (hk : 0x6b ∉ w) (s : Bytes) :
    canonicalMIMEHeaderKey s = canonicalMIMEHeaderKey w ↔ toLower s = w := by
  constructor
  · intro h
    have hmap : s.map lowerByte = w := by
      rw [← map_lowerByte_canonicalMIMEHeaderKey, h, map_lowerByte_canonicalMIMEHeaderKey, hlower]
    have hascii : ∀ b : UInt8, validHeaderFieldByte b = true → b < 0x80 := by decide +kernel
    rw [← hmap]
    refine toLower_eq_map fun b hb => hascii b ?_
    have hall : s.all validHeaderFieldByte = true := by
      rw [← all_valid_map_lowerByte, hmap, hvalid]
    exact List.all_eq_true.mp hall b hb
  · intro h
    have hmap := map_lowerByte_of_toLower h hi hk
    rw [canonicalMIMEHeaderKey, canonicalMIMEHeaderKey, ← canonicalLoop_map_lowerByte true s,
      ← all_valid_map_lowerByte s, hmap, hvalid]
    rfl

namespace Header

@[simp] theorem lookup_set_self (h : Header) (name value : Bytes) :
    (h.set name value).lookup (canonicalMIMEHeaderKey name) = some [value] :=
  AList.lookup_insert h

variable {key : Bytes} {l : List (Σ _ : Bytes, Bytes)}

theorem lookup_set_of_ne (h : Header) {name : Bytes} (value : Bytes)
    (hne : key ≠ canonicalMIMEHeaderKey name) : (h.set name value).lookup key = h.lookup key :=
  AList.lookup_insert_ne hne

@[simp] theorem setAll_nil (h : Header) : h.setAll [] = h := rfl

@[simp] theorem setAll_cons (h : Header) (x : Σ _ : Bytes, Bytes) (l : List (Σ _ : Bytes, Bytes)) :
    h.setAll (x :: l) = (h.set x.1 x.2).setAll l := rfl

theorem lookup_setAll_of_forall_ne (h : Header) (hl : ∀ x ∈ l, key ≠ canonicalMIMEHeaderKey x.1) :
    (h.setAll l).lookup key = h.lookup key := by
  induction l generalizing h with
  | nil => rfl
  | cons x l ih =>
    rw [setAll_cons, ih _ fun y hy => hl y (by simp [hy]), lookup_set_of_ne h _ (hl x (by simp))]

/-- **The last `Set` wins.** -/
theorem lookup_setAll_append_cons (h : Header) {x : Σ _ : Bytes, Bytes}
    {l₁ l₂ : List (Σ _ : Bytes, Bytes)} (hx : canonicalMIMEHeaderKey x.1 = key)
    (hl : ∀ y ∈ l₂, key ≠ canonicalMIMEHeaderKey y.1) :
    (h.setAll (l₁ ++ x :: l₂)).lookup key = some [x.2] := by
  have happ : h.setAll (l₁ ++ x :: l₂) = (((h.setAll l₁).set x.1 x.2).setAll l₂) := by
    rw [setAll, List.foldl_append, List.foldl_cons]
    rfl
  rw [happ, lookup_setAll_of_forall_ne _ hl, ← hx, lookup_set_self]

/-- A name that a loop of `Set` calls writes holds one of the values written. -/
theorem exists_lookup_setAll (h : Header) (hl : ∃ x ∈ l, canonicalMIMEHeaderKey x.1 = key) :
    ∃ x ∈ l, canonicalMIMEHeaderKey x.1 = key ∧ (h.setAll l).lookup key = some [x.2] := by
  induction l generalizing h with
  | nil => simp at hl
  | cons x l ih =>
    rw [setAll_cons]
    by_cases hrest : ∃ y ∈ l, canonicalMIMEHeaderKey y.1 = key
    · obtain ⟨y, hy, hkey, hval⟩ := ih (h.set x.1 x.2) hrest
      exact ⟨y, List.mem_cons_of_mem x hy, hkey, hval⟩
    · -- no later call writes the name, so the first one stands
      have hlater : ∀ y ∈ l, key ≠ canonicalMIMEHeaderKey y.1 :=
        fun y hy he => hrest ⟨y, hy, he.symm⟩
      obtain ⟨y, hy, hkey⟩ := hl
      rcases List.mem_cons.mp hy with rfl | hy
      · refine ⟨y, List.mem_cons_self, hkey, ?_⟩
        rw [lookup_setAll_of_forall_ne _ hlater, ← hkey, lookup_set_self]
      · exact absurd hkey.symm (hlater y hy)

end Header

end Veduta.Go
