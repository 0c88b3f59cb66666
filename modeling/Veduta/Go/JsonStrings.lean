import Veduta.Go.JsonCodec

/-!
# The strings of an encoding

A property of strings holds throughout an encoded value just if it holds of the names that
are written and throughout the fields.  A field that is left out needs no exception: it has
no text, so a property of the empty string covers it.
-/

namespace Veduta.Go

/-- Every string of the value has the property. -/
def AllStrings (Q : Bytes → Prop) (v : JVal) : Prop := ∀ t ∈ v.strings, Q t

section

variable {Q : Bytes → Prop}

@[simp] theorem allStrings_null : AllStrings Q .null := by simp [AllStrings, JVal.strings]

@[simp] theorem allStrings_bool (b : Bool) : AllStrings Q (.bool b) := by
  simp [AllStrings, JVal.strings]

@[simp] theorem allStrings_num (q : ℚ) : AllStrings Q (.num q) := by simp [AllStrings, JVal.strings]

@[simp] theorem allStrings_str (s : Bytes) : AllStrings Q (.str s) ↔ Q s := by
  simp [AllStrings, JVal.strings]

@[simp] theorem allStrings_arr (items : List JVal) :
    AllStrings Q (.arr items) ↔ ∀ v ∈ items, AllStrings Q v := by
  simp only [AllStrings, JVal.strings]
  induction items with
  | nil => simp [stringsItems]
  | cons v items ih => simp [stringsItems, or_imp, forall_and, ih]

theorem allStrings_obj (members : List (Bytes × JVal)) :
    AllStrings Q (.obj members) ↔
      (∀ n ∈ members.map Prod.fst, Q n) ∧ ∀ m ∈ members, AllStrings Q m.2 := by
  simp only [AllStrings, JVal.strings]
  induction members with
  | nil => simp [stringsMembers]
  | cons m members ih =>
    simp only [stringsMembers, List.mem_cons, List.mem_append, or_imp, forall_and, forall_eq, ih,
      List.map_cons]
    tauto

@[simp] theorem allStrings_codec_str (s : Bytes) : AllStrings Q (Codec.str.encode s) ↔ Q s :=
  allStrings_str s

@[simp] theorem allStrings_codec_int (n : Int) : AllStrings Q (Codec.int.encode n) :=
  allStrings_num _

@[simp] theorem allStrings_codec_float (q : ℚ) : AllStrings Q (Codec.float.encode q) :=
  allStrings_num q

@[simp] theorem allStrings_codec_bool (b : Bool) : AllStrings Q (Codec.bool.encode b) :=
  allStrings_bool b

variable {T : Type} (c : Codec T)

@[simp] theorem allStrings_ptr (x : Option T) :
    AllStrings Q (c.ptr.encode x) ↔ ∀ v ∈ x, AllStrings Q (c.encode v) := by
  cases x with
  | none | some => simp [Codec.ptr]

@[simp] theorem allStrings_slice (x : Slice T) :
    AllStrings Q (c.slice.encode x) ↔ ∀ v ∈ x.elems, AllStrings Q (c.encode v) := by
  cases hnil : x.isNil with
  | true => simp [Codec.slice, hnil, x.elems_of_isNil hnil]
  | false => simp [Codec.slice, hnil]

theorem allStrings_map (x : Option (GoMap Bytes T)) :
    AllStrings Q (c.map.encode x) ↔
      ∀ p ∈ (x.getD ∅).entries, Q p.1 ∧ AllStrings Q (c.encode p.2) := by
  cases x with
  | none => simp [Codec.map]
  | some m =>
    change AllStrings Q (.obj _) ↔ _
    rw [allStrings_obj, List.map_map, List.forall_mem_map, List.forall_mem_map]
    simp only [Option.getD_some, forall_and, Function.comp]

variable {S : Type} {σ : Struct S}

/-- The names that a struct is written with. -/
def Struct.memberNames (σ : Struct S) (s : S) : List Bytes := (σ.encodeFields s).map Prod.fst

theorem allStrings_struct (hQ : Q []) (s : S) :
    AllStrings Q (σ.codec.encode s) ↔
      (∀ n ∈ σ.memberNames s, Q n) ∧
        ∀ f ∈ σ.fields, AllStrings Q (f.codec.encode (f.get s)) := by
  change AllStrings Q (.obj (σ.encodeFields s)) ↔ _
  rw [allStrings_obj, Struct.memberNames]
  refine and_congr Iff.rfl ⟨fun h f hf => ?_, fun h m hm => ?_⟩
  · by_cases homit : (f.omitEmpty && f.codec.isEmpty (f.get s)) = true
    · intro t ht
      rw [f.codec.strings_of_isEmpty (Bool.and_eq_true _ _ ▸ homit).2 t ht]
      exact hQ
    · apply h (f.name, f.codec.encode (f.get s))
      exact List.mem_flatMap.mpr ⟨f, hf, by simp [StructField.written, homit]⟩
  · obtain ⟨f, hf, hwritten⟩ := List.mem_flatMap.mp hm
    rw [StructField.written] at hwritten
    split_ifs at hwritten
    · cases hwritten
    · cases List.mem_singleton.mp hwritten
      exact h f hf

end

/-- The property, throughout each field. -/
def Fields.All (Q : Bytes → Prop) {P : Type} : Fields P → P → Prop
  | .nil, _ => True
  | .cons _ _ c rest, p => AllStrings Q (c.encode p.1) ∧ rest.All Q p.2

theorem Fields.all_iff {Q : Bytes → Prop} {P : Type} (F : Fields P) (p : P) :
    F.All Q p ↔ ∀ f ∈ F.structFields, AllStrings Q (f.codec.encode (f.get p)) := by
  induction F with
  | nil => simp [Fields.All, Fields.structFields]
  | cons name omitEmpty c rest ih =>
    rw [Fields.All, Fields.structFields, List.forall_mem_cons, List.forall_mem_map, ih p.2]
    rfl

/-- **A struct from its tags**: the names that are written, and the fields one by one. -/
theorem allStrings_of {Q : Bytes → Prop} (hQ : Q []) {S P : Type} {e : S ≃ P} {F : Fields P}
    {hnames : F.names.Nodup} (s : S) :
    AllStrings Q ((Struct.of e F hnames).codec.encode s) ↔
      (∀ n ∈ (Struct.of e F hnames).memberNames s, Q n) ∧ F.All Q (e s) := by
  rw [allStrings_struct hQ, Fields.all_iff]
  refine and_congr Iff.rfl ?_
  exact List.forall_mem_map

end Veduta.Go
