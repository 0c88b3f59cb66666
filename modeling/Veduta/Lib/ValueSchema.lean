import Mathlib.Data.List.TakeWhile
import Veduta.Go.JsonCodec
import Veduta.Lib.Document
import Veduta.Lib.Except

/-!
# Schemas of JSON values

The part of JSON Schema that closed documents use, on values rather than on trees with
their keys in order, and how a schema relates to a Go type.  A type carries a schema if a
settled text that satisfies it is decoded to a value whose encoding satisfies it again:
what was checked on a generic decode then also holds of the typed one.
-/

namespace Veduta.Lib

open Go

/-- A schema, as the values that satisfy it. -/
abbrev ValueSchema := JVal → Bool

namespace ValueSchema

def string (p : Bytes → Bool) : ValueSchema
  | .str s => p s
  | _ => false

/-- `enum` or `const`, of strings. -/
def enum (words : List Bytes) : ValueSchema := string fun s => s ∈ words

def number (p : ℚ → Bool) : ValueSchema
  | .num q => p q
  | _ => false

/-- `integer` from `lo` to `hi`; a number without a fraction is an integer. -/
def integer (lo hi : ℤ) : ValueSchema := number fun q => q.den = 1 && lo ≤ q.num && q.num ≤ hi

def boolean : ValueSchema
  | .bool _ => true
  | _ => false

/-- A string of at most so many runes, a number, a boolean or null. -/
def scalar (n : ℕ) : ValueSchema
  | .str s => maxLength n s
  | .num _ => true
  | .bool _ => true
  | .null => true
  | _ => false

/-- The type may also be null. -/
def nullable (P : ValueSchema) : ValueSchema
  | .null => true
  | v => P v

def array (lo hi : ℕ) (item : ValueSchema) : ValueSchema
  | .arr items => lo ≤ items.length && items.length ≤ hi && items.all item
  | _ => false

/-- An object with at most so many members, by `propertyNames` and `additionalProperties`. -/
def mapping (n : ℕ) (name : Bytes → Bool) (value : ValueSchema) : ValueSchema
  | .obj members => members.length ≤ n && members.all fun m => name m.1 && value m.2
  | _ => false

/-- A property of an object. -/
structure Property where
  name : Bytes
  required : Bool
  schema : ValueSchema

/-- The members of an object without additional properties. -/
def closed (props : List Property) (members : List (Bytes × JVal)) : Bool :=
  (members.all fun m => props.any fun p => p.name = m.1 && p.schema m.2) &&
    props.all fun p => !p.required || (members.map Prod.fst).contains p.name

def object (props : List Property) : ValueSchema
  | .obj members => closed props members
  | _ => false

/-- `oneOf`. -/
def oneOf (alternatives : List ValueSchema) : ValueSchema :=
  fun v => alternatives.countP (fun P => P v) = 1

variable {v : JVal} {props : List Property} {members : List (Bytes × JVal)}
  {alternatives : List ValueSchema}

/-- If no two alternatives accept a value, one that does is the only one. -/
theorem oneOf_of_pairwise (hpair : alternatives.Pairwise fun P Q => P v = true → Q v = false)
    {P : ValueSchema} (hP : P ∈ alternatives) (hv : P v = true) : oneOf alternatives v = true := by
  rw [oneOf, decide_eq_true_eq]
  induction alternatives with
  | nil => cases hP
  | cons Q alternatives ih =>
    obtain ⟨hQ, hrest⟩ := List.pairwise_cons.mp hpair
    by_cases hQv : Q v = true
    · have hnone : alternatives.countP (fun P => P v) = 0 :=
        List.countP_eq_zero.mpr fun R hR => by simp [hQ R hR hQv]
      rw [List.countP_cons, hnone, if_pos hQv]
    · rcases List.mem_cons.mp hP with rfl | hP
      · exact absurd hv hQv
      · rw [List.countP_cons, ih hrest hP, if_neg hQv]

theorem exists_of_oneOf (h : oneOf alternatives v = true) : ∃ P ∈ alternatives, P v = true := by
  rw [oneOf, decide_eq_true_eq] at h
  apply List.countP_pos_iff.mp
  omega

theorem closed_iff :
    closed props members = true ↔
      (∀ m ∈ members, ∃ p ∈ props, p.name = m.1 ∧ p.schema m.2 = true) ∧
        ∀ p ∈ props, p.required = true → p.name ∈ members.map Prod.fst := by
  simp only [closed, Bool.and_eq_true, List.all_eq_true, List.any_eq_true, decide_eq_true_eq,
    Bool.or_eq_true, Bool.not_eq_true', List.contains_iff_mem]
  refine and_congr Iff.rfl (forall₂_congr fun p _ => ?_)
  cases p.required <;> simp

theorem schema_of_closed (h : closed props members = true)
    (hnames : (props.map Property.name).Nodup) {p : Property} (hp : p ∈ props)
    (hv : (p.name, v) ∈ members) : p.schema v = true := by
  obtain ⟨q, hq, hname, hval⟩ := (closed_iff.mp h).1 _ hv
  rw [← List.inj_on_of_nodup_map hnames hq hp hname]
  exact hval

theorem closed_of_mem {members' : List (Bytes × JVal)} (h : closed props members = true)
    (hmem : ∀ m ∈ members', m ∈ members ∨ ∃ p ∈ props, p.name = m.1 ∧ p.schema m.2 = true)
    (hkeys : members'.map Prod.fst = members.map Prod.fst) : closed props members' = true := by
  rw [closed_iff] at h ⊢
  rw [hkeys]
  refine ⟨fun m hm => ?_, h.2⟩
  rcases hmem m hm with hold | hnew
  · exact h.1 m hold
  · exact hnew

end ValueSchema

variable {members : List (Bytes × Json)} {k text : Bytes}

theorem mem_map_fst_lastMembers :
    k ∈ (Codec.lastMembers members).map Prod.fst ↔ k ∈ members.map Prod.fst := by
  induction members with
  | nil => rfl
  | cons entry members ih =>
    obtain ⟨k', j⟩ := entry
    rw [Codec.lastMembers]
    split_ifs with hmem
    · rw [ih, List.map_cons, List.mem_cons]
      exact ⟨.inr, fun h => h.elim (fun heq => heq ▸ hmem) id⟩
    · simp only [List.map_cons, List.mem_cons, ih]

theorem isSome_lookup_iff {α : Type} {l : List (Bytes × α)} :
    (l.lookup k).isSome = true ↔ k ∈ l.map Prod.fst := by
  induction l with
  | nil => simp
  | cons p l ih =>
    obtain ⟨k', v⟩ := p
    by_cases hk : k = k'
    · simp [hk]
    · have hbeq : (k == k') = false := by simpa using hk
      simp [List.lookup_cons, hbeq, hk, ih]

theorem genericMembers_eq (members : List (Bytes × Json)) :
    genericMembers members = (Codec.lastMembers members).map fun p => (p.1, p.2.generic) := by
  induction members with
  | nil => rfl
  | cons entry members ih =>
    obtain ⟨k, j⟩ := entry
    have hkeys : ((genericMembers members).lookup k).isSome = true ↔
        k ∈ members.map Prod.fst := by
      rw [isSome_lookup_iff, ih, List.map_map, ← mem_map_fst_lastMembers]
      rfl
    simp only [genericMembers, Codec.lastMembers, hkeys]
    split
    · exact ih
    · rw [ih, List.map_cons]

theorem genericItems_eq (items : List Json) : genericItems items = items.map Json.generic := by
  induction items with
  | nil => rfl
  | cons j items ih => rw [genericItems, ih, List.map_cons]

/-- The texts of the members of a name. -/
def textsNamed (k : Bytes) (members : List (Bytes × Json)) : List Json :=
  members.filterMap fun p => if p.1 = k then some p.2 else none

theorem textsNamed_eq_nil_iff : textsNamed k members = [] ↔ k ∉ members.map Prod.fst := by
  simp only [textsNamed, List.filterMap_eq_nil_iff, ite_eq_right_iff, reduceCtorEq, imp_false,
    List.mem_map, not_exists, not_and]

theorem mem_lastMembers_iff {j : Json} :
    (k, j) ∈ Codec.lastMembers members ↔ (textsNamed k members).getLast? = some j := by
  induction members with
  | nil => simp [Codec.lastMembers, textsNamed]
  | cons entry members ih =>
    obtain ⟨k', j'⟩ := entry
    by_cases hk : k' = k
    · subst hk
      have htexts : textsNamed k' ((k', j') :: members) = j' :: textsNamed k' members :=
        List.filterMap_cons_some (if_pos rfl)
      rw [htexts, Codec.lastMembers, List.getLast?_cons]
      split_ifs with hmem
      · have hne : textsNamed k' members ≠ [] := mt textsNamed_eq_nil_iff.mp (not_not.mpr hmem)
        rw [ih, List.getLast?_eq_some_getLast hne, Option.getD_some]
      · have hnil := textsNamed_eq_nil_iff.mpr hmem
        have hnot : (k', j) ∉ Codec.lastMembers members := by
          rw [ih, hnil]
          simp
        simp [hnil, hnot, eq_comm]
    · have htexts : textsNamed k ((k', j') :: members) = textsNamed k members :=
        List.filterMap_cons_none (if_neg hk)
      rw [htexts, ← ih, Codec.lastMembers]
      split_ifs
      · rfl
      · simp [Ne.symm hk]

theorem exists_of_lastMembers {props : List ValueSchema.Property}
    (h : ValueSchema.closed props (genericMembers members) = true) {j : Json}
    (hj : (k, j) ∈ Codec.lastMembers members) :
    ∃ p ∈ props, p.name = k ∧ p.schema j.generic = true := by
  rw [genericMembers_eq] at h
  exact (ValueSchema.closed_iff.mp h).1 (k, j.generic) (List.mem_map.mpr ⟨_, hj, rfl⟩)

theorem keys_of_closed {props : List ValueSchema.Property}
    (h : ValueSchema.closed props (genericMembers members) = true) :
    ∀ k ∈ members.map Prod.fst, ∃ p ∈ props, p.name = k := by
  intro k hk
  obtain ⟨⟨k, j⟩, hmem, rfl⟩ := List.mem_map.mp (mem_map_fst_lastMembers.mpr hk)
  obtain ⟨p, hp, hname, -⟩ := exists_of_lastMembers h hmem
  exact ⟨p, hp, hname⟩

/-! ## Schemas and types -/

/-- The schema of a settled text carries over to the value it is decoded to. -/
def Carries {T : Type} (c : Codec T) (P : ValueSchema) : Prop :=
  ∀ j x, c.settled j = true → P j.generic = true → c.decode c.zero j = some x →
    P (c.encode x) = true

open ValueSchema

theorem carries_str (p : Bytes → Bool) : Carries Codec.str (string p) := by
  intro j x _ hschema hdec
  cases j with
  | str s =>
    cases hdec
    exact hschema
  | _ => cases hschema

theorem carries_bool : Carries Codec.bool boolean := by
  intro j x _ hschema hdec
  cases j with
  | bool b => rfl
  | _ => cases hschema

theorem carries_float : Carries Codec.float (number fun _ => true) := by
  intro j x _ hschema hdec
  cases j with
  | num text => rfl
  | _ => cases hschema

theorem carries_unit : Carries Codec.float (number fun q => 0 ≤ q && q ≤ 1) := by
  intro j x _ hschema hdec
  cases j with
  | num text =>
    simp only [number, Json.generic, Bool.and_eq_true, decide_eq_true_eq] at hschema
    have hunit := toFloat64_unit hschema.1 hschema.2 hdec
    simpa [number, Codec.float, Codec.leaf] using hunit
  | _ => cases hschema

theorem numberValue_of_decimal {sign ds : Bytes} {n : ℕ} (h : decimalValue ds = some n)
    (hsign : numberSign text = (sign, ds)) :
    numberValue text = (if sign = [] then 1 else -1) * n := by
  have hdec : (ds ≠ [] ∧ ds.all isDigit = true) ∧ digitsValue ds = n := by
    rw [decimalValue] at h
    split_ifs at h with hdec
    exact ⟨hdec, Option.some_injective _ h⟩
  have hall : ∀ b ∈ ds, isDigit b = true := fun b hb => List.all_eq_true.mp hdec.1.2 b hb
  have hspan : ds.span isDigit = (ds, []) := by
    rw [List.span_eq_takeWhile_dropWhile, List.takeWhile_eq_self_iff.mpr hall,
      List.dropWhile_eq_nil_iff.mpr hall]
  have hzero : exponentValue [] = 0 := rfl
  simp only [numberValue, hsign, hspan, List.append_nil, hdec.2, List.drop_nil, hzero,
    List.length_nil, Nat.cast_zero, sub_zero, zpow_zero, mul_one]

theorem numberValue_of_readInt {n : Int} (h : Codec.readInt text = some n) :
    numberValue text = n := by
  have hplus : ∀ rest, text ≠ 0x2b :: rest := by
    rintro rest rfl
    cases h
  have hparse : parseInt text = some n := by
    rw [← h, Codec.readInt]
    exact hplus
  by_cases hminus : ∃ rest, text = 0x2d :: rest
  · obtain ⟨rest, rfl⟩ := hminus
    rw [parseInt] at hparse
    obtain ⟨m, hm, hn⟩ := Option.bind_eq_some_iff.mp hparse
    rw [numberValue_of_decimal hm rfl]
    simp only [if_true] at hn
    split_ifs at hn
    cases hn
    simp
  · have hminus' : ∀ rest, text ≠ 0x2d :: rest := fun rest heq => hminus ⟨rest, heq⟩
    have hsign : numberSign text = ([], text) := by
      rw [numberSign]
      exact hminus'
    rw [parseInt.eq_3 text hminus' hplus] at hparse
    obtain ⟨m, hm, hn⟩ := Option.bind_eq_some_iff.mp hparse
    rw [numberValue_of_decimal hm hsign]
    simp only [Bool.false_eq_true, if_false] at hn
    split_ifs at hn
    cases hn
    simp

theorem carries_int (p : ℚ → Bool) : Carries Codec.int (number p) := by
  intro j x _ hschema hdec
  cases j with
  | num text =>
    have hvalue := numberValue_of_readInt hdec
    rw [Json.generic, hvalue] at hschema
    exact hschema
  | _ => cases hschema

theorem carries_raw (P : ValueSchema) : Carries Codec.raw P := by
  intro j x _ hschema hdec
  cases hdec
  exact hschema

theorem carries_scalar (n : ℕ) : Carries Codec.any (scalar n) := by
  intro j x _ hschema hdec
  cases j with
  | num text =>
    obtain ⟨q, -, rfl⟩ := Option.map_eq_some_iff.mp hdec
    rfl
  | arr | obj => cases hschema
  | _ =>
    cases hdec
    exact hschema

section

variable {T : Type} {c : Codec T} {P : ValueSchema}

theorem carries_ptr (hnull : P .null = false) (h : Carries c P) : Carries c.ptr P := by
  intro j x hsettled hschema hdec
  cases j with
  | null => simp [Json.generic, hnull] at hschema
  | _ =>
    obtain ⟨v, hv, rfl⟩ := Option.map_eq_some_iff.mp hdec
    exact h _ _ hsettled hschema hv

theorem nullable_of {v : JVal} (h : P v = true) : nullable P v = true := by
  cases v <;> first | rfl | exact h

theorem carries_nullable (h : Carries c P) : Carries c.ptr (nullable P) := by
  intro j x hsettled hschema hdec
  cases j with
  | null =>
    cases hdec
    rfl
  | _ =>
    obtain ⟨v, hv, rfl⟩ := Option.map_eq_some_iff.mp hdec
    exact nullable_of (h _ _ hsettled hschema hv)

theorem carries_decodeItems (h : Carries c P) {items : List Json} {xs rest : List T}
    (hsettled : items.all c.settled = true) (hschema : (items.map Json.generic).all P = true)
    (hdec : c.decodeItems [] items = some (xs, rest)) :
    xs.length = items.length ∧ (xs.map c.encode).all P = true := by
  induction items generalizing xs rest with
  | nil =>
    cases hdec
    exact ⟨rfl, rfl⟩
  | cons j items ih =>
    obtain ⟨x, hx, xs, rest, hitems, heq⟩ := Codec.decodeItems_cons.mp hdec
    cases heq
    simp only [List.map_cons, List.all_cons, Bool.and_eq_true] at hsettled hschema ⊢
    obtain ⟨hlen, hall⟩ := ih hsettled.2 hschema.2 hitems
    exact ⟨congrArg (· + 1) hlen, h j x hsettled.1 hschema.1 hx, hall⟩

theorem carries_slice (lo hi : ℕ) (h : Carries c P) : Carries c.slice (array lo hi P) := by
  intro j x hsettled hschema hdec
  cases j with
  | arr items =>
    cases items with
    | nil =>
      cases hdec
      exact hschema
    | cons j items =>
      obtain ⟨⟨xs, rest⟩, hxs, rfl⟩ := Option.map_eq_some_iff.mp hdec
      simp only [Json.generic, array, genericItems_eq, Bool.and_eq_true, List.length_map]
        at hschema
      obtain ⟨hlen, hall⟩ := carries_decodeItems h hsettled hschema.2 hxs
      change array lo hi P (.arr (xs.map c.encode)) = true
      simp only [array, Bool.and_eq_true, List.length_map, hlen]
      exact ⟨hschema.1, hall⟩
  | _ => cases hschema

theorem carries_map (n : ℕ) (name : Bytes → Bool) (h : Carries c P) :
    Carries c.map (mapping n name P) := by
  intro j x hsettled hschema hdec
  cases j with
  | obj members =>
    obtain ⟨m, hm, rfl⟩ := Option.map_eq_some_iff.mp hdec
    simp only [Json.generic, mapping, genericMembers_eq, Bool.and_eq_true, decide_eq_true_eq,
      List.length_map, List.all_eq_true, List.mem_map] at hschema
    have hentry : ∀ p ∈ m.entries, ∃ j, (p.1, j) ∈ Codec.lastMembers members ∧
        c.decode c.zero j = some p.2 := by
      intro p hp
      rcases Codec.mem_decodeEntries hm hp with ⟨hmem, -⟩ | hentry
      · cases hmem
      · exact hentry
    have hlen : m.entries.length ≤ (Codec.lastMembers members).length := by
      have hsub : m.entries.keys ⊆ (Codec.lastMembers members).map Prod.fst := by
        intro k hk
        obtain ⟨p, hp, rfl⟩ := List.mem_map.mp hk
        obtain ⟨j, hj, -⟩ := hentry p hp
        exact List.mem_map.mpr ⟨_, hj, rfl⟩
      simpa [List.keys] using (m.nodupKeys.subperm hsub).length_le
    change mapping n name P (.obj (m.entries.map fun p => (p.1, c.encode p.2))) = true
    simp only [mapping, Bool.and_eq_true, decide_eq_true_eq, List.length_map,
      List.all_eq_true]
    refine ⟨hlen.trans hschema.1, fun e he => ?_⟩
    obtain ⟨p, hp, rfl⟩ := List.mem_map.mp he
    obtain ⟨j, hj, hdec⟩ := hentry p hp
    obtain ⟨hname, hvalue⟩ := hschema.2 _ ⟨_, hj, rfl⟩
    exact ⟨hname, h j p.2 (List.all_eq_true.mp hsettled _ hj) hvalue hdec⟩
  | _ => cases hschema

/-- A property is the schema of a field: it is required unless the field may be left out, and
a field that may be left out is left out while it is zero. -/
structure IsProperty {S : Type} (f : StructField S) (p : Property) : Prop where
  name : f.name = p.name
  required : p.required = !f.omitEmpty
  zero : f.omitEmpty = true → f.codec.isEmpty f.codec.zero = true
  carries : Carries f.codec p.schema

variable {S : Type} {σ : Struct S} {props all : List Property}
variable {f : StructField S} {p : Property} {members : List (Bytes × Json)} {s : S}
  {fields : List (StructField S)}

/-- The properties of an object are the fields of a struct, in order. -/
def Matches (σ : Struct S) (props : List Property) : Prop :=
  List.Forall₂ IsProperty σ.fields props

theorem map_name_eq (h : List.Forall₂ IsProperty fields props) :
    props.map Property.name = fields.map StructField.name := by
  induction h with
  | nil => rfl
  | cons hp _ ih => rw [List.map_cons, List.map_cons, ih, hp.name]

theorem field?_self (hf : f ∈ σ.fields) : σ.field? f.name = some f := by
  have hfind : σ.fields.find? (fun g => g.name = f.name) = some f := by
    cases hg : σ.fields.find? (fun g => g.name = f.name) with
    | none => exact absurd (List.find?_eq_none.mp hg f hf) (by simp)
    | some g =>
      have hname : g.name = f.name := by simpa using List.find?_some hg
      rw [Struct.eq_of_name_eq (List.mem_of_find?_eq_some hg) hf hname]
  rw [Struct.field?, hfind, Option.some_or]

/-- A closed object, one of whose properties are the fields of a struct; the others have no
field. -/
structure Describes (σ : Struct S) (props all : List Property) : Prop where
  fields : Matches σ props
  subset : props ⊆ all
  others : ∀ p ∈ all, p ∈ props ∨ σ.field? p.name = none

/-- If every member has the name of a property, a field has the members of its own name. -/
theorem textsOf_eq_textsNamed (hσ : Describes σ props all)
    (hkeys : ∀ k ∈ members.map Prod.fst, ∃ p ∈ all, p.name = k) (hf : f ∈ σ.fields) :
    σ.textsOf f members = textsNamed f.name members := by
  apply List.filterMap_congr
  intro m hmem
  have hiff : (σ.field? m.1).map StructField.name = some f.name ↔ m.1 = f.name := by
    obtain ⟨p, hp, hname⟩ := hkeys m.1 (List.mem_map.mpr ⟨m, hmem, rfl⟩)
    rcases hσ.others p hp with hp | hnone
    · obtain ⟨g, hg, hgp⟩ := exists_of_forall₂ hσ.fields.flip hp
      rw [← hname, ← hgp.name, field?_self hg, Option.map_some, Option.some.injEq]
    · rw [← hname, hnone, Option.map_none]
      refine ⟨fun h => (Option.some_ne_none _ h.symm).elim, fun h => ?_⟩
      rw [h, field?_self hf] at hnone
      cases hnone
  simp only [hiff]

/-- **A checked object, field by field.**  A field whose member is missing is zero; any other
is as its last member decodes afresh, and that member satisfies its schema. -/
theorem get_of_closed (hσ : Describes σ props all)
    (hsettled : σ.codec.settled (.obj members) = true)
    (hschema : closed all (genericMembers members) = true)
    (hdec : σ.codec.decode σ.zero (.obj members) = some s) (hf : f ∈ σ.fields) (hp : p ∈ props)
    (hfp : IsProperty f p) :
    (f.name ∉ members.map Prod.fst ∧ f.get s = f.codec.zero) ∨
      ∃ j v, (f.name, j) ∈ Codec.lastMembers members ∧ f.codec.settled j = true ∧
        p.schema j.generic = true ∧ f.codec.decode f.codec.zero j = some v ∧
        f.codec.toWire.Alike (f.get s) v := by
  have hget := Struct.get_of_settled hsettled hdec hf
  rw [textsOf_eq_textsNamed hσ (keys_of_closed hschema) hf] at hget
  cases hj : (textsNamed f.name members).getLast? with
  | none =>
    rw [hj] at hget
    rw [List.getLast?_eq_none_iff, textsNamed_eq_nil_iff] at hj
    exact .inl ⟨hj, hget⟩
  | some j =>
    rw [hj] at hget
    obtain ⟨hset, v, hv, halike⟩ := hget
    obtain ⟨q, hq, hname, hval⟩ := exists_of_lastMembers hschema (mem_lastMembers_iff.mpr hj)
    refine .inr ⟨j, v, mem_lastMembers_iff.mpr hj, hset, ?_, hv, halike⟩
    rcases hσ.others q hq with hq | hnone
    · have hprops : (props.map Property.name).Nodup := by
        rw [map_name_eq hσ.fields]
        exact σ.nodup
      rw [← List.inj_on_of_nodup_map hprops hq hp (hname.trans hfp.name)]
      exact hval
    · rw [hname, field?_self hf] at hnone
      cases hnone

theorem mem_written_iff {m : Bytes × JVal} :
    m ∈ f.written s ↔
      m = (f.name, f.codec.encode (f.get s)) ∧
        (f.omitEmpty = true → f.codec.isEmpty (f.get s) = false) := by
  rw [StructField.written]
  cases f.omitEmpty <;> cases f.codec.isEmpty (f.get s) <;> simp

section

variable (hσ : Describes σ props all) (hsettled : σ.codec.settled (.obj members) = true)
  (hschema : closed all (genericMembers members) = true)
  (hdec : σ.codec.decode σ.zero (.obj members) = some s)

include hσ hsettled hschema hdec

/-- **The fields of a struct carry the properties of a closed object.** -/
theorem closed_encodeFields : closed props (σ.encodeFields s) = true := by
  have hrequired := (closed_iff.mp hschema).2
  rw [closed_iff]
  constructor
  · intro m hm
    obtain ⟨f, hf, hwritten⟩ := List.mem_flatMap.mp hm
    obtain ⟨p, hp, hfp⟩ := exists_of_forall₂ (R := IsProperty) hσ.fields hf
    obtain ⟨rfl, hempty⟩ := mem_written_iff.mp hwritten
    refine ⟨p, hp, hfp.name.symm, ?_⟩
    rcases get_of_closed hσ hsettled hschema hdec hf hp hfp with
      ⟨hmissing, hzero⟩ | ⟨j, v, -, hset, hval, hv, halike⟩
    · -- a field that is left out while zero would have been, and any other is required
      rw [hzero] at hempty
      cases homit : f.omitEmpty with
      | true => exact absurd (hempty homit) (by simp [hfp.zero homit])
      | false =>
        have hreq := hrequired p (hσ.subset hp) (by rw [hfp.required, homit]; rfl)
        rw [genericMembers_eq, List.map_map, ← hfp.name] at hreq
        exact absurd (mem_map_fst_lastMembers.mp hreq) hmissing
    · rw [halike.1]
      exact hfp.carries j v hset hval hv
  · intro p hp hreq
    obtain ⟨f, hf, hfp⟩ := exists_of_forall₂ hσ.fields.flip hp
    have homit : f.omitEmpty = false := by simpa [hfp.required] using hreq
    refine List.mem_map.mpr ⟨(f.name, f.codec.encode (f.get s)), ?_, hfp.name⟩
    exact List.mem_flatMap.mpr ⟨f, hf, mem_written_iff.mpr ⟨rfl, by simp [homit]⟩⟩

/-- A field whose schema rules empty values out is written just if its member is there. -/
theorem mem_encodeFields_iff (hf : f ∈ σ.fields) (hp : p ∈ props) (hfp : IsProperty f p)
    (homit : f.omitEmpty = true)
    (hfull : ∀ j v, p.schema j.generic = true → f.codec.decode f.codec.zero j = some v →
      f.codec.isEmpty v = false) :
    f.name ∈ (σ.encodeFields s).map Prod.fst ↔
      f.name ∈ (genericMembers members).map Prod.fst := by
  have hwritten : f.name ∈ (σ.encodeFields s).map Prod.fst ↔
      f.codec.isEmpty (f.get s) = false := by
    constructor
    · intro hname
      obtain ⟨m, hm, hname⟩ := List.mem_map.mp hname
      obtain ⟨g, hg, hwritten⟩ := List.mem_flatMap.mp hm
      obtain ⟨rfl, hempty⟩ := mem_written_iff.mp hwritten
      cases Struct.eq_of_name_eq hg hf hname
      exact hempty homit
    · intro hempty
      refine List.mem_map.mpr ⟨(f.name, f.codec.encode (f.get s)), ?_, rfl⟩
      exact List.mem_flatMap.mpr ⟨f, hf, mem_written_iff.mpr ⟨rfl, fun _ => hempty⟩⟩
  rw [hwritten, genericMembers_eq, List.map_map]
  change _ ↔ f.name ∈ (Codec.lastMembers members).map Prod.fst
  rcases get_of_closed hσ hsettled hschema hdec hf hp hfp with
    ⟨hmissing, hzero⟩ | ⟨j, v, hlast, -, hval, hv, halike⟩
  · rw [mem_map_fst_lastMembers, hzero, hfp.zero homit]
    simp [hmissing]
  · rw [halike.2, hfull j v hval hv]
    simp only [true_iff]
    exact List.mem_map.mpr ⟨_, hlast, rfl⟩

end

theorem carries_struct (hmatch : Matches σ props) :
    Carries σ.codec (object props) := by
  intro j s hsettled hschema hdec
  cases j with
  | obj members =>
    have hσ : Describes σ props props := ⟨hmatch, List.Subset.refl _, fun _ hp => .inl hp⟩
    exact closed_encodeFields hσ hsettled hschema hdec
  | _ => cases hschema

theorem closed_cons {members : List (Bytes × JVal)} {v : JVal} (hv : p.schema v = true)
    (h : closed props members = true) : closed (p :: props) ((p.name, v) :: members) = true := by
  rw [closed_iff] at h ⊢
  constructor
  · intro m hm
    rcases List.mem_cons.mp hm with rfl | hm
    · exact ⟨p, List.mem_cons_self, rfl, hv⟩
    · obtain ⟨q, hq, hmq⟩ := h.1 m hm
      exact ⟨q, List.mem_cons_of_mem _ hq, hmq⟩
  · intro q hq hreq
    rw [List.map_cons]
    rcases List.mem_cons.mp hq with rfl | hq
    · exact List.mem_cons_self
    · exact List.mem_cons_of_mem _ (h.2 q hq hreq)

end

/-- The properties of an object, one for each tag and type. -/
inductive HasProps : {P : Type} → Fields P → List Property → Prop
  | nil : HasProps .nil []
  | req {T P : Type} {name : Bytes} {c : Codec T} {rest : Fields P} {schema : ValueSchema}
      {props : List Property} (hc : Carries c schema) (h : HasProps rest props) :
      HasProps (.cons name false c rest) (⟨name, true, schema⟩ :: props)
  | opt {T P : Type} {name : Bytes} {c : Codec T} {rest : Fields P} {schema : ValueSchema}
      {props : List Property} (hzero : c.isEmpty c.zero = true) (hc : Carries c schema)
      (h : HasProps rest props) :
      HasProps (.cons name true c rest) (⟨name, false, schema⟩ :: props)

theorem HasProps.forall₂ {P : Type} {F : Fields P} {props : List Property}
    (h : HasProps F props) : List.Forall₂ IsProperty F.structFields props := by
  induction h with
  | nil => exact .nil
  | req hc _ ih =>
    refine .cons ⟨rfl, rfl, fun h => (Bool.false_ne_true h).elim, hc⟩ ?_
    exact List.forall₂_map_left_iff.mpr
      (ih.imp fun _ _ h => ⟨h.name, h.required, h.zero, h.carries⟩)
  | opt hzero hc _ ih =>
    refine .cons ⟨rfl, rfl, fun _ => hzero, hc⟩ ?_
    exact List.forall₂_map_left_iff.mpr
      (ih.imp fun _ _ h => ⟨h.name, h.required, h.zero, h.carries⟩)

variable {S P : Type} {e : S ≃ P} {F : Fields P} {hnames : F.names.Nodup} {props : List Property}

theorem HasProps.struct (h : HasProps F props) : Matches (Struct.of e F hnames) props :=
  List.forall₂_map_left_iff.mpr
    (h.forall₂.imp fun _ _ h => ⟨h.name, h.required, h.zero, h.carries⟩)

theorem HasProps.reqStr {name : Bytes} {p : Bytes → Bool} (h : HasProps F props) :
    HasProps (.cons name false .str F) (⟨name, true, string p⟩ :: props) :=
  .req (carries_str p) h

theorem HasProps.optStr {name : Bytes} {p : Bytes → Bool} (h : HasProps F props) :
    HasProps (.cons name true .str F) (⟨name, false, string p⟩ :: props) :=
  .opt rfl (carries_str p) h

theorem carries_of (h : HasProps F props) : Carries (Struct.of e F hnames).codec (object props) :=
  carries_struct h.struct

end Veduta.Lib
