import Veduta.Go.JsonValue
import Veduta.Go.Map

/-!
# Typed JSON

Package `encoding/json` with Go types.  Decoding goes into a value that may already hold
something: a string is replaced, but a struct keeps the fields that the text does not
mention, a pointer keeps what it points at, a map keeps its other keys, and a slice reuses
the elements in its backing array, also those beyond its length.  In a text that repeats a
member, the later one is thus laid over what the earlier one left.

A codec says, for each Go type, how a value is decoded and encoded, and which texts leave
nothing of an earlier one: `resets` for a text that does so alone, `overwrites` for one
text over another.  A text is `settled` if each repeated member leaves nothing of those
before it; then every field is what its last member decodes to afresh.
-/

namespace Veduta.Go

theorem isSome_bind_congr {α β γ δ : Type} {x : Option α} {y : Option β} {f : α → Option γ}
    {g : β → Option δ} (h : x.isSome = y.isSome) (hfg : ∀ a b, (f a).isSome = (g b).isSome) :
    (x.bind f).isSome = (y.bind g).isSome := by
  cases x with
  | none =>
    cases y with
    | none => rfl
    | some b => cases h
  | some a =>
    cases y with
    | none => cases h
    | some b => exact hfg a b

/-- A Go type: its zero value, decoding over an existing value, encoding, and what
`omitempty` leaves out. -/
structure Wire (T : Type) where
  zero : T
  decode : T → Json → Option T
  encode : T → JVal
  isEmpty : T → Bool

namespace Wire

variable {T : Type} (w : Wire T)

/-- The values are encoded alike; a slice may still differ beyond its length. -/
def Alike (x y : T) : Prop := w.encode x = w.encode y ∧ w.isEmpty x = w.isEmpty y

variable {w}

theorem Alike.refl (x : T) : w.Alike x x := ⟨rfl, rfl⟩

theorem Alike.symm {x y : T} (h : w.Alike x y) : w.Alike y x := ⟨h.1.symm, h.2.symm⟩

theorem Alike.trans {x y z : T} (h : w.Alike x y) (h' : w.Alike y z) : w.Alike x z :=
  ⟨h.1.trans h'.1, h.2.trans h'.2⟩

end Wire

/-- A Go type with what its decoder leaves of earlier texts. -/
structure Codec (T : Type) extends Wire T where
  /-- Nothing of any earlier value is left. -/
  resets : Json → Bool
  /-- Nothing that the first text decoded to is left by the second. -/
  overwrites : Json → Json → Bool
  /-- Nothing is left over inside the text. -/
  settled : Json → Bool
  /-- The text leaves nothing of the value. -/
  Erased : T → Json → Prop
  strings_of_isEmpty : ∀ {x}, isEmpty x = true → ∀ t ∈ (encode x).strings, t = []
  isSome_decode : ∀ s t j, (decode s j).isSome = (decode t j).isSome
  decode_of_resets : ∀ {j}, resets j = true → ∀ s t, decode s j = decode t j
  erased_zero : ∀ j, Erased zero j
  alike_of_erased : ∀ {s j x y}, settled j = true → Erased s j → decode s j = some x →
    decode zero j = some y → toWire.Alike x y
  erased_decode : ∀ {s j e s'}, Erased s j → overwrites e j = true → decode s e = some s' →
    Erased s' j

namespace Codec

/-- A type whose values are replaced, and on which null has no effect. -/
def leaf {T : Type} (zero : T) (read : Json → Option T) (encode : T → JVal)
    (isEmpty : T → Bool) (hempty : ∀ {x}, isEmpty x = true → ∀ t ∈ (encode x).strings, t = []) :
    Codec T where
  zero := zero
  decode s
    | .null => some s
    | j => read j
  encode := encode
  isEmpty := isEmpty
  resets
    | .null => false
    | _ => true
  overwrites
    | _, .null => false
    | _, _ => true
  settled _ := true
  Erased
    | s, .null => s = zero
    | _, _ => True
  strings_of_isEmpty := hempty
  isSome_decode := by
    intro s t j
    cases j <;> rfl
  decode_of_resets := by
    intro j h s t
    cases j <;> first | rfl | cases h
  erased_zero := by
    intro j
    cases j <;> trivial
  alike_of_erased := by
    intro s j x y _ herased hx hy
    have heq : x = y := by
      cases j <;> simp_all
    exact heq ▸ Wire.Alike.refl x
  erased_decode := by
    intro s j e s' _ h _
    cases j <;> trivial

/-- `string`. -/
def str : Codec Bytes :=
  leaf [] (fun | .str s => some s | _ => none) .str (fun s => s = [])
    (by simp [JVal.strings])

/-- The text of a number as an integer.  Such a text never starts with a plus sign, which
`strconv.ParseInt` would accept. -/
def readInt : Bytes → Option Int
  | 0x2b :: _ => none
  | text => parseInt text

/-- `int`. -/
def int : Codec Int :=
  leaf 0 (fun | .num text => readInt text | _ => none) (fun n => .num n) (fun n => n = 0)
    (by simp [JVal.strings])

/-- `float64`. -/
def float : Codec ℚ :=
  leaf 0 (fun | .num text => toFloat64 (numberValue text) | _ => none) .num (fun q => q = 0)
    (by simp [JVal.strings])

/-- `bool`. -/
def bool : Codec Bool :=
  leaf false (fun | .bool b => some b | _ => none) .bool (fun b => !b) (by simp [JVal.strings])

/-- A type that every text replaces. -/
def replaced {T : Type} (zero : T) (read : Json → Option T) (encode : T → JVal)
    (isEmpty : T → Bool) (hempty : ∀ {x}, isEmpty x = true → ∀ t ∈ (encode x).strings, t = []) :
    Codec T where
  zero := zero
  decode _ j := read j
  encode := encode
  isEmpty := isEmpty
  resets _ := true
  overwrites _ _ := true
  settled _ := true
  Erased _ _ := True
  strings_of_isEmpty := hempty
  isSome_decode := fun _ _ _ => rfl
  decode_of_resets := fun _ _ _ => rfl
  erased_zero := fun _ => trivial
  alike_of_erased := by
    intro s j x y _ _ hx hy
    cases hx.symm.trans hy
    exact Wire.Alike.refl x
  erased_decode := fun _ _ _ => trivial

/-- `any`. -/
def any : Codec JVal :=
  replaced .null Json.interface id (fun | .null => true | _ => false) (by
    intro x h
    cases x <;> simp_all [JVal.strings])

/-- `json.RawMessage`. -/
def raw : Codec Json := replaced .null some Json.generic (fun _ => false) (by simp)

section

variable {T : Type} (c : Codec T)

/-- `*T`: null is nil, anything else goes into what is pointed at. -/
def ptr : Codec (Option T) where
  zero := none
  decode s
    | .null => some none
    | j => (c.decode (s.getD c.zero) j).map some
  encode
    | none => .null
    | some v => c.encode v
  isEmpty s := s.isNone
  resets
    | .null => true
    | j => c.resets j
  overwrites
    | _, .null => true
    | .null, _ => true
    | e, j => c.overwrites e j
  settled
    | .null => true
    | j => c.settled j
  Erased
    | _, .null => True
    | s, j => c.Erased (s.getD c.zero) j
  strings_of_isEmpty := by
    intro x h
    cases x <;> simp_all [JVal.strings]
  isSome_decode := by
    intro s t j
    cases j with
    | null => rfl
    | _ => simpa using c.isSome_decode _ _ _
  decode_of_resets := by
    intro j h s t
    cases j with
    | null => rfl
    | _ => exact congrArg (Option.map some) (c.decode_of_resets h _ _)
  erased_zero := by
    intro j
    cases j <;> first | trivial | exact c.erased_zero _
  alike_of_erased := by
    intro s j x y hsettled herased hx hy
    cases j with
    | null =>
      cases hx
      cases hy
      exact Wire.Alike.refl _
    | _ =>
      obtain ⟨v, hv, rfl⟩ := Option.map_eq_some_iff.mp hx
      obtain ⟨w, hw, rfl⟩ := Option.map_eq_some_iff.mp hy
      exact ⟨(c.alike_of_erased hsettled herased hv hw).1, rfl⟩
  erased_decode := by
    intro s j e s' h hover hdec
    cases j with
    | null => trivial
    | _ =>
      cases e with
      | null =>
        cases hdec
        exact c.erased_zero _
      | _ =>
        obtain ⟨v, hv, rfl⟩ := Option.map_eq_some_iff.mp hdec
        exact c.erased_decode h hover hv

end

end Codec

/-! ## Slices -/

/-- A Go slice: its elements, what its backing array holds beyond them, and whether it is
nil. -/
structure Slice (T : Type) where
  elems : List T
  spare : List T
  isNil : Bool
  elems_of_isNil : isNil = true → elems = []

namespace Slice

variable {T : Type}

/-- The nil slice. -/
def nil : Slice T := ⟨[], [], true, fun _ => rfl⟩

/-- A slice that is not nil, with what its backing array holds beyond it. -/
def ofList (elems spare : List T) : Slice T := ⟨elems, spare, false, nofun⟩

def backing (s : Slice T) : List T := s.elems ++ s.spare

end Slice

namespace Codec

section

variable {T : Type} (c : Codec T)

/-- The elements of an array, each decoded over the element that the backing array has in
its place, and what is left of the backing array. -/
def decodeItems : List T → List Json → Option (List T × List T)
  | old, [] => some ([], old)
  | old, j :: items => do
    let x ← c.decode (old.head?.getD c.zero) j
    let (xs, rest) ← decodeItems old.tail items
    return (x :: xs, rest)

/-- The array leaves nothing of the elements. -/
def ErasedItems (old : List T) (items : List Json) : Prop :=
  ∀ p ∈ old.zip items, c.Erased p.1 p.2

variable {c}
variable {old xs rest : List T} {items : List Json} {j : Json}

theorem decodeItems_cons {r : List T × List T} :
    c.decodeItems old (j :: items) = some r ↔
      ∃ x, c.decode (old.head?.getD c.zero) j = some x ∧
        ∃ xs rest, c.decodeItems old.tail items = some (xs, rest) ∧ (x :: xs, rest) = r := by
  simp only [decodeItems, Option.bind_eq_bind, Option.bind_eq_some_iff, Prod.exists,
    Option.pure_def, Option.some.injEq]

theorem isSome_decodeItems (old old' : List T) (items : List Json) :
    (c.decodeItems old items).isSome = (c.decodeItems old' items).isSome := by
  induction items generalizing old old' with
  | nil => rfl
  | cons j items ih =>
    refine isSome_bind_congr (c.isSome_decode _ _ j) fun x x' => ?_
    exact isSome_bind_congr (ih old.tail old'.tail) fun _ _ => rfl

theorem ErasedItems.head (h : c.ErasedItems old (j :: items)) :
    c.Erased (old.head?.getD c.zero) j := by
  cases old with
  | nil => exact c.erased_zero j
  | cons x old => exact h (x, j) (by simp)

theorem ErasedItems.tail (h : c.ErasedItems old (j :: items)) : c.ErasedItems old.tail items := by
  cases old with
  | nil => simp [ErasedItems]
  | cons x old => exact fun p hp => h p (List.mem_cons_of_mem _ hp)

theorem erasedItems_cons {x : T} (hx : c.Erased x j) (h : c.ErasedItems old items) :
    c.ErasedItems (x :: old) (j :: items) := by
  intro p hp
  rcases List.mem_cons.mp hp with rfl | hp
  · exact hx
  · exact h p hp

theorem encode_decodeItems_of_erased {ys rest' : List T} (hsettled : items.all c.settled = true)
    (herased : c.ErasedItems old items) (hx : c.decodeItems old items = some (xs, rest))
    (hy : c.decodeItems [] items = some (ys, rest')) : xs.map c.encode = ys.map c.encode := by
  induction items generalizing old xs ys rest rest' with
  | nil =>
    cases hx
    cases hy
    rfl
  | cons j items ih =>
    obtain ⟨x, hdec, xs, rest, hitems, heq⟩ := decodeItems_cons.mp hx
    obtain ⟨y, hdec', ys, rest', hitems', heq'⟩ := decodeItems_cons.mp hy
    cases heq
    cases heq'
    simp only [List.all_cons, Bool.and_eq_true] at hsettled
    have hhead := (c.alike_of_erased hsettled.1 herased.head hdec hdec').1
    have htail := ih hsettled.2 herased.tail hitems hitems'
    simp only [List.map_cons, hhead, htail]

/-- An array that overwrites another, and leaves nothing of a slice, leaves nothing of the
slice with the other decoded over it. -/
theorem erasedItems_decodeItems {es : List Json} (herased : c.ErasedItems old items)
    (hover : (es.zip items).all (fun p => c.overwrites p.1 p.2) = true)
    (hdec : c.decodeItems old es = some (xs, rest)) : c.ErasedItems (xs ++ rest) items := by
  induction es generalizing old items xs rest with
  | nil =>
    cases hdec
    exact herased
  | cons e es ih =>
    obtain ⟨x, hx, xs, rest, hitems, heq⟩ := decodeItems_cons.mp hdec
    cases heq
    cases items with
    | nil => simp [ErasedItems]
    | cons j items =>
      simp only [List.zip_cons_cons, List.all_cons, Bool.and_eq_true] at hover
      apply erasedItems_cons
      · exact c.erased_decode herased.head hover.1 hx
      · exact ih herased.tail hover.2 hitems

variable (c)

/-- `[]T`: null is nil, an empty array a new slice, and any other array goes into the
backing array. -/
def slice : Codec (Slice T) where
  zero := .nil
  decode s
    | .null => some .nil
    | .arr [] => some (.ofList [] [])
    | .arr items => (c.decodeItems s.backing items).map fun r => .ofList r.1 r.2
    | _ => none
  encode s := if s.isNil then .null else .arr (s.elems.map c.encode)
  isEmpty s := s.elems.isEmpty
  resets
    | .null => true
    | .arr [] => true
    | _ => false
  overwrites
    | .arr es, .arr items => (es.zip items).all fun p => c.overwrites p.1 p.2
    | _, _ => true
  settled
    | .arr items => items.all c.settled
    | _ => true
  Erased
    | s, .arr items => c.ErasedItems s.backing items
    | _, _ => True
  strings_of_isEmpty := by
    intro x h
    have hnil : x.elems = [] := List.isEmpty_iff.mp h
    cases hx : x.isNil <;> simp [hnil, JVal.strings, stringsItems]
  isSome_decode := by
    intro s t j
    cases j with
    | arr items =>
      cases items with
      | nil => rfl
      | cons j items => simpa using isSome_decodeItems s.backing t.backing (j :: items)
    | _ => rfl
  decode_of_resets := by
    intro j h s t
    cases j with
    | arr items =>
      cases items with
      | nil => rfl
      | cons j items => cases h
    | _ => rfl
  erased_zero := by
    intro j
    cases j <;> simp [ErasedItems, Slice.backing, Slice.nil]
  alike_of_erased := by
    intro s j x y hsettled herased hx hy
    cases j with
    | arr items =>
      cases items with
      | nil =>
        cases hx
        cases hy
        exact Wire.Alike.refl _
      | cons j items =>
        obtain ⟨⟨xs, rest⟩, hxs, rfl⟩ := Option.map_eq_some_iff.mp hx
        obtain ⟨⟨ys, rest'⟩, hys, rfl⟩ := Option.map_eq_some_iff.mp hy
        have hmap := encode_decodeItems_of_erased hsettled herased hxs hys
        have hlen : xs.length = ys.length := by simpa using congrArg List.length hmap
        refine ⟨congrArg JVal.arr hmap, ?_⟩
        cases xs <;> cases ys <;> first | rfl | cases hlen
    | null =>
      cases hx
      cases hy
      exact Wire.Alike.refl _
    | _ => cases hx
  erased_decode := by
    intro s j e s' h hover hdec
    cases j with
    | arr items =>
      cases e with
      | arr es =>
        cases es with
        | nil =>
          cases hdec
          exact fun p hp => by cases hp
        | cons e es =>
          obtain ⟨⟨xs, rest⟩, hxs, rfl⟩ := Option.map_eq_some_iff.mp hdec
          exact erasedItems_decodeItems h hover hxs
      | null =>
        cases hdec
        exact fun p hp => by cases hp
      | _ => cases hdec
    | _ => trivial

end

/-! ## Maps -/

section

variable {T : Type} (c : Codec T)

/-- Each member goes into a new element, which replaces that of its key. -/
def decodeEntries : GoMap Bytes T → List (Bytes × Json) → Option (GoMap Bytes T)
  | m, [] => some m
  | m, (k, j) :: members => do
    let x ← c.decode c.zero j
    decodeEntries (m.insert k x) members

/-- The members that a later one of their name does not hide. -/
def lastMembers : List (Bytes × Json) → List (Bytes × Json)
  | [] => []
  | (k, j) :: members =>
    if k ∈ members.map Prod.fst then lastMembers members else (k, j) :: lastMembers members

variable {c}
variable {members : List (Bytes × Json)}

theorem lastMembers_subset : lastMembers members ⊆ members := by
  induction members with
  | nil => exact List.Subset.refl _
  | cons entry members ih =>
    rw [lastMembers]
    split
    · exact List.subset_cons_of_subset _ ih
    · exact List.cons_subset_cons _ ih

theorem isSome_decodeEntries (m m' : GoMap Bytes T) (members : List (Bytes × Json)) :
    (c.decodeEntries m members).isSome = (c.decodeEntries m' members).isSome := by
  induction members generalizing m m' with
  | nil => rfl
  | cons entry members ih => exact isSome_bind_congr rfl fun _ _ => ih _ _

theorem kerase_eq_filter {k : Bytes} {l : List (Σ _ : Bytes, T)} (h : l.NodupKeys) :
    l.kerase k = l.filter fun p => p.1 ≠ k := by
  induction l with
  | nil => rfl
  | cons p l ih =>
    obtain ⟨hnot, hl⟩ := List.nodupKeys_cons.mp h
    by_cases hk : k = p.1
    · have hfilter : l.filter (fun q => q.1 ≠ k) = l := by
        apply List.filter_eq_self.mpr
        intro q hq
        have hne : q.1 ≠ k := fun heq => hnot (hk ▸ heq ▸ List.mem_keys_of_mem hq)
        simpa using hne
      rw [List.kerase_cons_eq hk, List.filter_cons_of_neg (by simp [hk]), hfilter]
    · have hne : p.1 ≠ k := fun heq => hk heq.symm
      rw [List.kerase_cons_ne hk, List.filter_cons_of_pos (by simpa using hne), ih hl]

theorem mem_decodeEntries {m r : GoMap Bytes T} (h : c.decodeEntries m members = some r)
    {p : Σ _ : Bytes, T} (hp : p ∈ r.entries) :
    (p ∈ m.entries ∧ p.1 ∉ members.map Prod.fst) ∨
      ∃ j, (p.1, j) ∈ lastMembers members ∧ c.decode c.zero j = some p.2 := by
  induction members generalizing m with
  | nil =>
    cases h
    exact .inl ⟨hp, by simp⟩
  | cons entry members ih =>
    obtain ⟨k, j⟩ := entry
    obtain ⟨x, hx, hrest⟩ := Option.bind_eq_some_iff.mp h
    simp only [lastMembers, List.map_cons, List.mem_cons, not_or]
    rcases ih hrest with ⟨hmem, hnot⟩ | ⟨j', hj', hdec⟩
    · rw [AList.entries_insert, List.mem_cons, kerase_eq_filter m.nodupKeys,
        List.mem_filter] at hmem
      rcases hmem with rfl | ⟨hmem, hne⟩
      · exact .inr ⟨j, by simp [hnot], hx⟩
      · exact .inl ⟨hmem, by simpa using hne, hnot⟩
    · refine .inr ⟨j', ?_, hdec⟩
      split <;> simp [hj']

theorem decodeEntries_congr {m m' : GoMap Bytes T}
    (h : m.entries.filter (fun p => p.1 ∉ members.map Prod.fst) =
      m'.entries.filter fun p => p.1 ∉ members.map Prod.fst) :
    c.decodeEntries m members = c.decodeEntries m' members := by
  induction members generalizing m m' with
  | nil => simpa [decodeEntries, AList.ext_iff] using h
  | cons entry members ih =>
    obtain ⟨k, j⟩ := entry
    have hrest : ∀ n : GoMap Bytes T, n.entries.filter (fun p =>
        p.1 ∉ ((k, j) :: members).map Prod.fst) =
        (n.entries.kerase k).filter fun p => p.1 ∉ members.map Prod.fst := by
      intro n
      rw [kerase_eq_filter n.nodupKeys, List.filter_filter]
      apply List.filter_congr
      intro p _
      by_cases hk : p.1 = k <;> simp [hk]
    simp only [decodeEntries]
    cases c.decode c.zero j with
    | none => rfl
    | some x =>
      apply ih
      simp only [AList.entries_insert, List.filter_cons]
      rw [← hrest m, ← hrest m', h]

variable (c)

/-- `map[string]T`: null is nil, an object goes into the map. -/
def map : Codec (Option (GoMap Bytes T)) where
  zero := none
  decode s
    | .null => some none
    | .obj members => (c.decodeEntries (s.getD ∅) members).map some
    | _ => none
  encode
    | none => .null
    | some m => .obj (m.entries.map fun p => (p.1, c.encode p.2))
  isEmpty s := (s.getD ∅).entries.isEmpty
  resets
    | .null => true
    | _ => false
  overwrites
    | .obj es, .obj members => es.all fun p => p.1 ∈ members.map Prod.fst
    | _, _ => true
  settled
    | .obj members => (lastMembers members).all fun p => c.settled p.2
    | _ => true
  Erased
    | s, .obj members => ∀ p ∈ (s.getD ∅).entries, p.1 ∈ members.map Prod.fst
    | _, _ => True
  strings_of_isEmpty := by
    intro x h
    cases x with
    | none => simp [JVal.strings]
    | some m =>
      have hnil : m.entries = [] := List.isEmpty_iff.mp h
      simp [hnil, JVal.strings, stringsMembers]
  isSome_decode := by
    intro s t j
    cases j with
    | obj members => simpa using isSome_decodeEntries (s.getD ∅) (t.getD ∅) members
    | _ => rfl
  decode_of_resets := by
    intro j h s t
    cases j with
    | obj members => cases h
    | _ => rfl
  erased_zero := by
    intro j
    cases j <;> simp
  alike_of_erased := by
    intro s j x y _ herased hx hy
    have heq : x = y := by
      cases j with
      | obj members =>
        obtain ⟨m, hm, rfl⟩ := Option.map_eq_some_iff.mp hx
        obtain ⟨m', hm', rfl⟩ := Option.map_eq_some_iff.mp hy
        have hcongr : c.decodeEntries (s.getD ∅) members = c.decodeEntries ∅ members := by
          apply decodeEntries_congr
          simpa using herased
        exact hm.symm.trans (hcongr.trans hm')
      | _ => exact Option.some_injective _ (hx.symm.trans hy)
    exact heq ▸ Wire.Alike.refl x
  erased_decode := by
    intro s j e s' h hover hdec
    cases j with
    | obj members =>
      cases e with
      | obj es =>
        obtain ⟨m, hm, rfl⟩ := Option.map_eq_some_iff.mp hdec
        intro p hp
        rcases mem_decodeEntries hm hp with ⟨hmem, -⟩ | ⟨j, hj, -⟩
        · exact h p hmem
        · have hkey := List.all_eq_true.mp hover _ (lastMembers_subset hj)
          simpa using hkey
      | null =>
        cases hdec
        exact fun p hp => by cases hp
      | _ => cases hdec
    | _ => trivial

end

end Codec

/-! ## Structs -/

/-- A field of a struct, with its tag. -/
structure StructField (S : Type) where
  name : Bytes
  omitEmpty : Bool
  Ty : Type
  codec : Codec Ty
  get : S → Ty
  set : S → Ty → S

/-- What a field is encoded to, unless it is left out. -/
def StructField.written {S : Type} (f : StructField S) (s : S) : List (Bytes × JVal) :=
  if f.omitEmpty && f.codec.isEmpty (f.get s) then [] else [(f.name, f.codec.encode (f.get s))]

/-- Setting either field leaves the other alone. -/
def StructField.Independent {S : Type} (f g : StructField S) : Prop :=
  (∀ s v, g.get (f.set s v) = g.get s) ∧ ∀ s v, f.get (g.set s v) = f.get s

instance {S : Type} : Std.Symm (StructField.Independent (S := S)) := ⟨fun _ _ h => ⟨h.2, h.1⟩⟩

/-- The bytes that are compared without regard to case: letters, and the two code points
beyond ASCII that fold to one. -/
def foldName : Bytes → Bytes
  | 0xe2 :: 0x84 :: 0xaa :: rest => chr 'k' :: foldName rest
  | 0xc5 :: 0xbf :: rest => chr 's' :: foldName rest
  | b :: rest => lowerByte b :: foldName rest
  | [] => []

/-- A struct type: its fields in order, each with a name of its own, which make up the
value. -/
structure Struct (S : Type) where
  zero : S
  fields : List (StructField S)
  nodup : (fields.map StructField.name).Nodup
  get_set : ∀ f ∈ fields, ∀ s v, f.get (f.set s v) = v
  independent : fields.Pairwise StructField.Independent
  get_zero : ∀ f ∈ fields, f.get zero = f.codec.zero
  ext : ∀ s t, (∀ f ∈ fields, f.get s = f.get t) → s = t

namespace Codec

variable {T : Type} (c : Codec T)

/-- Several texts, each decoded over what those before it left. -/
def decodeAll : T → List Json → Option T
  | s, [] => some s
  | s, j :: js => (c.decode s j).bind fun s => decodeAll s js

/-- The last text leaves nothing of the texts before it, given in order. -/
def clears (last : Json) : List Json → Bool
  | [] => true
  | e :: es => (c.overwrites e last || es.any c.resets || c.resets last) && clears last es

/-- The texts of one member, in order: the last leaves nothing of the others, and nothing is
left over inside it. -/
def settledAll (js : List Json) : Bool :=
  match js.getLast? with
  | none => true
  | some last => c.clears last js.dropLast && c.settled last

/-- The texts leave nothing of the value; without a text it has to be the zero value. -/
def ErasedAll (s : T) (js : List Json) : Prop :=
  match js.getLast? with
  | none => s = c.zero
  | some last => c.Erased s last ∨ js.any c.resets = true

/-- Nothing that the first texts decoded to is left by the second ones. -/
def overwritesAll (es js : List Json) : Bool :=
  match js.getLast? with
  | none => es.isEmpty
  | some last => es.all (c.overwrites · last) || js.any c.resets

variable {c}
variable {s x y : T} {es js : List Json} {j : Json}

theorem decodeAll_append (s : T) (es : List Json) (j : Json) :
    c.decodeAll s (es ++ [j]) = (c.decodeAll s es).bind fun s => c.decode s j := by
  induction es generalizing s with
  | nil => simp [decodeAll]
  | cons e es ih => simp [decodeAll, ih, Option.bind_assoc]

theorem erased_decodeAll (h : c.Erased s j) (hover : es.all (c.overwrites · j) = true)
    (hdec : c.decodeAll s es = some x) : c.Erased x j := by
  induction es generalizing s with
  | nil =>
    cases hdec
    exact h
  | cons e es ih =>
    obtain ⟨y, hy, hrest⟩ := Option.bind_eq_some_iff.mp hdec
    simp only [List.all_cons, Bool.and_eq_true] at hover
    exact ih (c.erased_decode h hover.1 hy) hover.2 hrest

/-- If a text leaves nothing of a value, or a text between resets it, and it leaves nothing
of the texts between, then it leaves nothing of what those decode to. -/
theorem erased_of_clears (h : c.Erased s j ∨ es.any c.resets = true)
    (hclears : c.clears j es = true) (hj : c.resets j = false) (hdec : c.decodeAll s es = some x) :
    c.Erased x j := by
  induction es generalizing s with
  | nil =>
    cases hdec
    simpa using h
  | cons e es ih =>
    obtain ⟨y, hy, hrest⟩ := Option.bind_eq_some_iff.mp hdec
    simp only [clears, hj, Bool.or_false, Bool.and_eq_true, Bool.or_eq_true] at hclears
    obtain ⟨hhead, htail⟩ := hclears
    apply ih _ htail hrest
    rcases hhead with hover | hreset
    · by_cases hreset : es.any c.resets = true
      · exact .inr hreset
      · left
        rcases h with herased | hany
        · exact c.erased_decode herased hover hy
        · have he : c.resets e = true := by simpa [hreset] using hany
          rw [c.decode_of_resets he s c.zero] at hy
          exact c.erased_decode (c.erased_zero j) hover hy
    · exact .inr hreset

/-- **The last text decides.**  If the texts are settled and leave nothing of the value they
are decoded over, the outcome is as the last one decodes afresh. -/
theorem alike_decodeAll (hsettled : c.settledAll (es ++ [j]) = true)
    (herased : c.ErasedAll s (es ++ [j])) (hx : c.decodeAll s (es ++ [j]) = some x)
    (hy : c.decode c.zero j = some y) : c.toWire.Alike x y := by
  simp only [settledAll, List.getLast?_concat, List.dropLast_concat, Bool.and_eq_true] at hsettled
  simp only [ErasedAll, List.getLast?_concat, List.any_append, List.any_cons, List.any_nil,
    Bool.or_false, Bool.or_eq_true] at herased
  rw [decodeAll_append] at hx
  obtain ⟨m, hm, hmx⟩ := Option.bind_eq_some_iff.mp hx
  by_cases hj : c.resets j = true
  · rw [c.decode_of_resets hj m c.zero, hy] at hmx
    cases hmx
    exact Wire.Alike.refl _
  · have herased' : c.Erased s j ∨ es.any c.resets = true := by
      rcases herased with h | h | h
      · exact .inl h
      · exact .inr h
      · exact absurd h hj
    have hmid := erased_of_clears herased' hsettled.1 (by simpa using hj) hm
    exact c.alike_of_erased hsettled.2 hmid hmx hy

theorem erasedAll_decodeAll (h : c.ErasedAll s js) (hover : c.overwritesAll es js = true)
    (hdec : c.decodeAll s es = some x) : c.ErasedAll x js := by
  unfold ErasedAll at *
  unfold overwritesAll at hover
  cases hlast : js.getLast? with
  | none =>
    simp only [hlast, List.isEmpty_iff] at h hover
    subst hover
    cases hdec
    exact h
  | some last =>
    simp only [hlast, Bool.or_eq_true] at h hover
    rcases hover with hover | hreset
    · rcases h with h | h
      · exact .inl (erased_decodeAll h hover hdec)
      · exact .inr h
    · exact .inr hreset

theorem erasedAll_zero (js : List Json) : c.ErasedAll c.zero js := by
  unfold ErasedAll
  cases js.getLast? with
  | none => rfl
  | some last => exact .inl (c.erased_zero last)

theorem alike_of_erasedAll {t : T} (hsettled : c.settledAll js = true) (hs : c.ErasedAll s js)
    (ht : c.ErasedAll t js) (hx : c.decodeAll s js = some x) (hy : c.decodeAll t js = some y) :
    c.toWire.Alike x y := by
  rcases List.eq_nil_or_concat js with rfl | ⟨es, j, rfl⟩
  · cases hx
    cases hy
    cases (hs : s = c.zero)
    cases (ht : y = c.zero)
    exact Wire.Alike.refl _
  · have hsome : (c.decode c.zero j).isSome = true := by
      rw [List.concat_eq_append, decodeAll_append] at hx
      obtain ⟨m, -, hm⟩ := Option.bind_eq_some_iff.mp hx
      rw [c.isSome_decode c.zero m, hm]
      rfl
    obtain ⟨z, hz⟩ := Option.isSome_iff_exists.mp hsome
    rw [List.concat_eq_append] at *
    exact (alike_decodeAll hsettled hs hx hz).trans (alike_decodeAll hsettled ht hy hz).symm

end Codec

namespace Struct

variable {S : Type} (σ : Struct S)

/-- The field that a member goes to: of that name, else of that name in another case. -/
def field? (name : Bytes) : Option (StructField S) :=
  (σ.fields.find? fun f => f.name = name).or
    (σ.fields.find? fun f => foldName f.name = foldName name)

/-- The members go to their fields in order; those without a field are ignored. -/
def decodeMembers : S → List (Bytes × Json) → Option S
  | s, [] => some s
  | s, (k, j) :: members =>
    match σ.field? k with
    | none => decodeMembers s members
    | some f => (f.codec.decode (f.get s) j).bind fun v => decodeMembers (f.set s v) members

/-- The members of an object that go to a field. -/
def textsOf (f : StructField S) (members : List (Bytes × Json)) : List Json :=
  members.filterMap fun p =>
    if (σ.field? p.1).map StructField.name = some f.name then some p.2 else none

/-- The names and values that a struct is encoded to. -/
def encodeFields (s : S) : List (Bytes × JVal) := σ.fields.flatMap fun f => f.written s

variable {σ}
variable {f g : StructField S} {members : List (Bytes × Json)} {k : Bytes}

theorem mem_of_field? (h : σ.field? k = some f) : f ∈ σ.fields := by
  rcases Option.or_eq_some_iff.mp h with h | ⟨-, h⟩
  · exact List.mem_of_find?_eq_some h
  · exact List.mem_of_find?_eq_some h

theorem eq_of_name_eq (hf : f ∈ σ.fields) (hg : g ∈ σ.fields) (h : f.name = g.name) : f = g :=
  List.inj_on_of_nodup_map σ.nodup hf hg h

theorem get_set_of_ne (hf : f ∈ σ.fields) (hg : g ∈ σ.fields) (h : f.name ≠ g.name) (s : S)
    (v : f.Ty) : g.get (f.set s v) = g.get s :=
  (σ.independent.forall hf hg fun heq => h (congrArg StructField.name heq)).1 s v

theorem textsOf_cons_self {j : Json} (h : σ.field? k = some f) :
    σ.textsOf f ((k, j) :: members) = j :: σ.textsOf f members := by
  simp [textsOf, h]

theorem textsOf_cons_of_ne {j : Json} (h : (σ.field? k).map StructField.name ≠ some f.name) :
    σ.textsOf f ((k, j) :: members) = σ.textsOf f members :=
  List.filterMap_cons_none (if_neg h)

theorem decodeAll_textsOf {s s' : S} (h : σ.decodeMembers s members = some s') (hf : f ∈ σ.fields) :
    f.codec.decodeAll (f.get s) (σ.textsOf f members) = some (f.get s') := by
  induction members generalizing s with
  | nil =>
    cases h
    rfl
  | cons entry members ih =>
    obtain ⟨k, j⟩ := entry
    rw [decodeMembers] at h
    cases hk : σ.field? k with
    | none =>
      rw [hk] at h
      rw [textsOf_cons_of_ne (by simp [hk])]
      exact ih h
    | some g =>
      rw [hk] at h
      obtain ⟨v, hv, hrest⟩ := Option.bind_eq_some_iff.mp h
      have hg := mem_of_field? hk
      by_cases hname : g.name = f.name
      · cases eq_of_name_eq hg hf hname
        rw [textsOf_cons_self hk, Codec.decodeAll, hv, Option.bind_some]
        simpa [σ.get_set f hf] using ih hrest
      · rw [textsOf_cons_of_ne (by simpa [hk] using hname)]
        simpa [get_set_of_ne hg hf hname] using ih hrest

theorem isSome_decodeMembers (s t : S) (members : List (Bytes × Json)) :
    (σ.decodeMembers s members).isSome = (σ.decodeMembers t members).isSome := by
  induction members generalizing s t with
  | nil => rfl
  | cons entry members ih =>
    obtain ⟨k, j⟩ := entry
    simp only [decodeMembers]
    cases σ.field? k with
    | none => exact ih s t
    | some f =>
      exact isSome_bind_congr (f.codec.isSome_decode (f.get s) (f.get t) j) fun _ _ => ih _ _

theorem encodeFields_congr {s t : S}
    (h : ∀ f ∈ σ.fields, f.codec.toWire.Alike (f.get s) (f.get t)) :
    σ.encodeFields s = σ.encodeFields t := by
  apply List.flatMap_congr
  intro f hf
  rw [StructField.written, StructField.written, (h f hf).1, (h f hf).2]

variable (σ)

/-- A struct: null has no effect, an object goes to the fields. -/
def codec : Codec S where
  zero := σ.zero
  decode s
    | .null => some s
    | .obj members => σ.decodeMembers s members
    | _ => none
  encode s := .obj (σ.encodeFields s)
  isEmpty _ := false
  resets _ := false
  overwrites
    | .null, _ => true
    | _, .null => false
    | .obj es, .obj members => σ.fields.all fun f =>
      f.codec.overwritesAll (σ.textsOf f es) (σ.textsOf f members)
    | _, _ => true
  settled
    | .obj members => σ.fields.all fun f => f.codec.settledAll (σ.textsOf f members)
    | _ => true
  Erased
    | s, .null => s = σ.zero
    | s, .obj members => ∀ f ∈ σ.fields, f.codec.ErasedAll (f.get s) (σ.textsOf f members)
    | _, _ => True
  strings_of_isEmpty := fun h => by cases h
  isSome_decode := by
    intro s t j
    cases j with
    | obj members => exact isSome_decodeMembers s t members
    | _ => rfl
  decode_of_resets := fun h => by cases h
  erased_zero := by
    intro j
    cases j with
    | null => rfl
    | obj members =>
      intro f hf
      rw [σ.get_zero f hf]
      exact Codec.erasedAll_zero _
    | _ => trivial
  alike_of_erased := by
    intro s j x y hsettled herased hx hy
    cases j with
    | null =>
      cases hx
      cases hy
      cases (herased : _ = σ.zero)
      exact Wire.Alike.refl _
    | obj members =>
      refine ⟨congrArg JVal.obj (encodeFields_congr fun f hf => ?_), rfl⟩
      have hzero : f.codec.ErasedAll (f.get σ.zero) (σ.textsOf f members) := by
        rw [σ.get_zero f hf]
        exact Codec.erasedAll_zero _
      exact Codec.alike_of_erasedAll (List.all_eq_true.mp hsettled f hf) (herased f hf) hzero
        (decodeAll_textsOf hx hf) (decodeAll_textsOf hy hf)
    | _ => cases hx
  erased_decode := by
    intro s j e s' h hover hdec
    cases e with
    | null =>
      cases hdec
      exact h
    | obj es =>
      cases j with
      | null => cases hover
      | obj members =>
        intro f hf
        exact Codec.erasedAll_decodeAll (h f hf) (List.all_eq_true.mp hover f hf)
          (decodeAll_textsOf hdec hf)
      | _ => trivial
    | _ => cases hdec

variable {σ}

/-- **A settled object, field by field.**  A field without a member is zero; any other is as
its last member decodes afresh. -/
theorem get_of_settled {s : S} (hsettled : σ.codec.settled (.obj members) = true)
    (h : σ.codec.decode σ.zero (.obj members) = some s) (hf : f ∈ σ.fields) :
    match (σ.textsOf f members).getLast? with
    | none => f.get s = f.codec.zero
    | some j => f.codec.settled j = true ∧
        ∃ v, f.codec.decode f.codec.zero j = some v ∧ f.codec.toWire.Alike (f.get s) v := by
  have hfield := List.all_eq_true.mp hsettled f hf
  have hdec := decodeAll_textsOf h hf
  rw [σ.get_zero f hf] at hdec
  rcases List.eq_nil_or_concat (σ.textsOf f members) with hnil | ⟨es, j, hconcat⟩
  · rw [hnil] at hdec ⊢
    exact (Option.some_injective _ hdec).symm
  · rw [List.concat_eq_append] at hconcat
    rw [hconcat] at hdec hfield ⊢
    have hsome : (f.codec.decode f.codec.zero j).isSome = true := by
      rw [Codec.decodeAll_append] at hdec
      obtain ⟨m, -, hm⟩ := Option.bind_eq_some_iff.mp hdec
      rw [f.codec.isSome_decode f.codec.zero m, hm]
      rfl
    obtain ⟨v, hv⟩ := Option.isSome_iff_exists.mp hsome
    have halike := Codec.alike_decodeAll hfield (Codec.erasedAll_zero _) hdec hv
    simp only [Codec.settledAll, List.getLast?_concat, Bool.and_eq_true] at hfield
    simp only [List.getLast?_concat]
    exact ⟨hfield.2, v, hv, halike⟩

end Struct

/-! ## Structs from their tags -/

/-- The tags and types of a struct's fields, in order. -/
inductive Fields : Type → Type 1
  | nil : Fields Unit
  | cons {T P : Type} (name : Bytes) (omitEmpty : Bool) (c : Codec T) (rest : Fields P) :
      Fields (T × P)

namespace Fields

/-- A field that is always written. -/
abbrev tag {T P : Type} (name : String) : Codec T → Fields P → Fields (T × P) :=
  .cons (ascii name) false

/-- A field that `omitempty` leaves out. -/
abbrev opt {T P : Type} (name : String) : Codec T → Fields P → Fields (T × P) :=
  .cons (ascii name) true

def zero {P : Type} : Fields P → P
  | .nil => ()
  | .cons _ _ c rest => (c.zero, rest.zero)

def names {P : Type} : Fields P → List Bytes
  | .nil => []
  | .cons name _ _ rest => name :: rest.names

/-- A field of the values that follow the first. -/
def lift {T P : Type} (f : StructField P) : StructField (T × P) where
  name := f.name
  omitEmpty := f.omitEmpty
  Ty := f.Ty
  codec := f.codec
  get p := f.get p.2
  set p v := (p.1, f.set p.2 v)

def structFields {P : Type} : Fields P → List (StructField P)
  | .nil => []
  | .cons name omitEmpty c rest =>
    ⟨name, omitEmpty, _, c, Prod.fst, fun p v => (v, p.2)⟩ :: rest.structFields.map lift

variable {P : Type}

theorem map_name_structFields (F : Fields P) : F.structFields.map StructField.name = F.names := by
  induction F with
  | nil => rfl
  | cons name omitEmpty c rest ih =>
    rw [structFields, names, List.map_cons, List.map_map, ← ih]
    rfl

theorem get_set_structFields (F : Fields P) :
    ∀ f ∈ F.structFields, ∀ s v, f.get (f.set s v) = v := by
  induction F with
  | nil => simp [structFields]
  | cons name omitEmpty c rest ih =>
    rw [structFields, List.forall_mem_cons]
    exact ⟨fun _ _ => rfl, List.forall_mem_map.mpr fun f hf s v => ih f hf s.2 v⟩

theorem independent_structFields (F : Fields P) :
    F.structFields.Pairwise StructField.Independent := by
  induction F with
  | nil => exact List.Pairwise.nil
  | cons name omitEmpty c rest ih =>
    rw [structFields, List.pairwise_cons]
    refine ⟨?_, List.pairwise_map.mpr (ih.imp fun h => ?_)⟩
    · simp only [List.forall_mem_map]
      exact fun f _ => ⟨fun _ _ => rfl, fun _ _ => rfl⟩
    · exact ⟨fun s v => h.1 s.2 v, fun s v => h.2 s.2 v⟩

theorem get_zero_structFields (F : Fields P) :
    ∀ f ∈ F.structFields, f.get F.zero = f.codec.zero := by
  induction F with
  | nil => simp [structFields]
  | cons name omitEmpty c rest ih =>
    rw [structFields, List.forall_mem_cons]
    exact ⟨rfl, List.forall_mem_map.mpr ih⟩

theorem ext_structFields (F : Fields P) :
    ∀ s t, (∀ f ∈ F.structFields, f.get s = f.get t) → s = t := by
  induction F with
  | nil => exact fun _ _ _ => rfl
  | cons name omitEmpty c rest ih =>
    intro s t h
    simp only [structFields, List.forall_mem_cons, List.forall_mem_map] at h
    exact Prod.ext h.1 (ih s.2 t.2 h.2)

/-- A field of a record that has the values in some other form. -/
def pull {S P : Type} (e : S ≃ P) (f : StructField P) : StructField S where
  name := f.name
  omitEmpty := f.omitEmpty
  Ty := f.Ty
  codec := f.codec
  get s := f.get (e s)
  set s v := e.symm (f.set (e s) v)

end Fields

/-- A record type with the given fields. -/
def Struct.of {S P : Type} (e : S ≃ P) (F : Fields P)
    (nodup : F.names.Nodup := by decide) : Struct S where
  zero := e.symm F.zero
  fields := F.structFields.map (Fields.pull e)
  nodup := by
    rw [List.map_map]
    exact F.map_name_structFields ▸ nodup
  get_set := by
    simp only [List.forall_mem_map]
    intro f hf s v
    simpa [Fields.pull] using F.get_set_structFields f hf (e s) v
  independent := by
    refine List.pairwise_map.mpr (F.independent_structFields.imp fun h => ?_)
    exact ⟨fun s v => by simpa [Fields.pull] using h.1 (e s) v,
      fun s v => by simpa [Fields.pull] using h.2 (e s) v⟩
  get_zero := by
    simp only [List.forall_mem_map]
    intro f hf
    simpa [Fields.pull] using F.get_zero_structFields f hf
  ext := by
    simp only [List.forall_mem_map]
    exact fun s t h => e.injective (F.ext_structFields (e s) (e t) h)

end Veduta.Go
