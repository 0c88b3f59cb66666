import Veduta.Canonical.Digest
import Veduta.Config.Snapshot
import Veduta.Go.JsonText
import Veduta.Lib.Document

/-!
# Hashes of definitions

Package `storage`: `DefinitionHash` is the SHA-256 sum of what `json.Marshal` makes of a
value.  The encoder sorts the keys of a map, keeps the fields of a struct in their order, and
fails on a number that is not finite.
-/

namespace Veduta.Storage

open Go Lib Config
open Canonical (hexString)

/-- A struct, from the texts of its fields. -/
def structText (fields : List (Bytes × Bytes)) : Bytes :=
  0x7b :: commas (fields.map fun x => quoteJson x.1 ++ chr ':' :: x.2) ++ [0x7d]

/-- A map, from the texts of its values. -/
def mapText (members : List (Bytes × Bytes)) : Bytes :=
  structText (members.insertionSort fun x y => x.1 ≤ y.1)

mutual

/-- `json.Marshal` of a value; a timestamp is written in its own text form. -/
def marshalAny : AnyVal → Option Bytes
  | .null => some (ascii "null")
  | .bool b => some (if b then ascii "true" else ascii "false")
  | .int n => some (formatInt n)
  | .float q => some (formatFloat64 q)
  | .nonFinite => none
  | .str s => some (quoteJson s)
  | .time text => some (quoteJson text)
  | .arr items => (marshalItems items).map fun ts => chr '[' :: commas ts ++ [chr ']']
  | .obj members => (marshalMembers members).map mapText

def marshalItems : List AnyVal → Option (List Bytes)
  | [] => some []
  | v :: items => do return (← marshalAny v) :: (← marshalItems items)

def marshalMembers : List (Bytes × AnyVal) → Option (List (Bytes × Bytes))
  | [] => some []
  | (k, v) :: members => do return (k, ← marshalAny v) :: (← marshalMembers members)

end

mutual

/-- `json.Marshal` of a document that a struct is written as. -/
def marshalDoc : Doc → Bytes
  | .null => ascii "null"
  | .bool b => if b then ascii "true" else ascii "false"
  | .int n => formatInt n
  | .str s => quoteJson s
  | .arr items => chr '[' :: commas (marshalDocs items) ++ [chr ']']
  | .obj fields => structText (marshalFields fields)

def marshalDocs : List Doc → List Bytes
  | [] => []
  | d :: items => marshalDoc d :: marshalDocs items

def marshalFields : List (Bytes × Doc) → List (Bytes × Bytes)
  | [] => []
  | (k, d) :: fields => (k, marshalDoc d) :: marshalFields fields

end

/-- The entries of a map of strings, in the order of their keys. -/
def sortedEntries (m : GoMap Bytes Bytes) : List (Bytes × Bytes) :=
  (m.entries.map fun x => (x.1, x.2)).insertionSort fun x y => x.1 ≤ y.1

/-- The parameters of a card. -/
def marshalParams (params : GoMap Bytes AnyVal) : Option Bytes :=
  marshalAny (.obj (params.entries.map fun x => (x.1, x.2)))

/-- **`DefinitionHash`** of a value with the given text. -/
def definitionHash (sum256 : Bytes → Bytes) (text : Bytes) : Bytes := hexString (sum256 text)

/-! ## What a hash determines -/

theorem hexString_injective : Function.Injective hexString := by
  have hcode : PrefixCode (fun _ : UInt8 => True)
      fun b : UInt8 => [lowerHex (b >>> 4), lowerHex (b &&& 0xf)] := by
    refine .of_reader (fun s => hexByte (s.getD 0 0) (s.getD 1 0)) (by simp) ?_
    intro b x _
    exact value_hexEscape b
  have hend : ∀ b : UInt8, True →
      ([lowerHex (b >>> 4), lowerHex (b &&& 0xf)] : Bytes).head? ≠ some 0 := by
    have hne : ∀ b : UInt8, lowerHex (b >>> 4) ≠ 0 := by decide +kernel
    intro b _ h
    exact hne b (Option.some.inj h)
  intro s t h
  have heq : hexString s ++ [0] = hexString t ++ [0] := by rw [h]
  exact (hcode.read_flatMap hend (fun _ _ => trivial) (fun _ _ => trivial) heq).1

variable {m n : GoMap Bytes Bytes}

theorem mem_sortedEntries {k v : Bytes} : (k, v) ∈ sortedEntries m ↔ m.lookup k = some v := by
  rw [sortedEntries, List.mem_insertionSort, GoMap.lookup_eq_some_iff, List.mem_map]
  constructor
  · intro h
    obtain ⟨x, hx, heq⟩ := h
    cases heq
    exact hx
  · intro h
    exact ⟨_, h, rfl⟩

/-- Two maps with the same entries. -/
def SameMap {α β : Type} [DecidableEq α] (m n : GoMap α β) : Prop :=
  ∀ k, m.lookup k = n.lookup k

/-- The keys and values of a map are valid UTF-8. -/
def ValidStrings (m : GoMap Bytes Bytes) : Prop :=
  ∀ k v, m.lookup k = some v → validString k = true ∧ validString v = true

theorem eq_of_map_jsonChars_eq {l l' : List (Bytes × Bytes)}
    (hl : ∀ x ∈ l, validString x.1 = true ∧ validString x.2 = true)
    (hl' : ∀ x ∈ l', validString x.1 = true ∧ validString x.2 = true)
    (h : l.map (Prod.map jsonChars jsonChars) = l'.map (Prod.map jsonChars jsonChars)) :
    l = l' := by
  induction l generalizing l' with
  | nil => exact (List.map_eq_nil_iff.mp h.symm).symm
  | cons x l ih =>
    cases l' with
    | nil => cases h
    | cons y l' =>
      rw [List.map_cons, List.map_cons, List.cons.injEq] at h
      have hx := hl x List.mem_cons_self
      have hy := hl' y List.mem_cons_self
      have hxy : x = y := Prod.ext
        (eq_of_jsonChars_eq hx.1 hy.1 (congrArg Prod.fst h.1))
        (eq_of_jsonChars_eq hx.2 hy.2 (congrArg Prod.snd h.1))
      rw [hxy, ih (fun z hz => hl z (List.mem_cons_of_mem _ hz))
        (fun z hz => hl' z (List.mem_cons_of_mem _ hz)) h.2]

/-- **The text of a map of valid strings determines the map.** -/
theorem sameMap_of_jsonChars_eq (hm : ValidStrings m) (hn : ValidStrings n)
    (h : (sortedEntries m).map (Prod.map jsonChars jsonChars) =
      (sortedEntries n).map (Prod.map jsonChars jsonChars)) : SameMap m n := by
  have heq : sortedEntries m = sortedEntries n := by
    refine eq_of_map_jsonChars_eq ?_ ?_ h
    · intro x hx
      exact hm x.1 x.2 (mem_sortedEntries.mp hx)
    · intro x hx
      exact hn x.1 x.2 (mem_sortedEntries.mp hx)
  intro k
  refine Option.ext fun v => ?_
  rw [← mem_sortedEntries, ← mem_sortedEntries, heq]

theorem sortedEntries_congr (h : SameMap m n) : sortedEntries m = sortedEntries n := by
  let le := fun x y : Bytes × Bytes => x.1 ≤ y.1
  have htotal : Std.Total le := ⟨fun x y => List.le_total x.1 y.1⟩
  have htrans : IsTrans _ le := ⟨fun _ _ _ hxy hyz => List.le_trans hxy hyz⟩
  have hsorted : ∀ m : GoMap Bytes Bytes, (sortedEntries m).Pairwise le := fun m =>
    List.pairwise_insertionSort le _
  have hnodup : ∀ m : GoMap Bytes Bytes, (sortedEntries m).Nodup := by
    intro m
    refine (List.perm_insertionSort _ _).nodup_iff.mpr (m.nodupKeys.nodup.map ?_)
    intro x y hxy
    cases x
    cases y
    cases hxy
    rfl
  have hmem : ∀ x : Bytes × Bytes, x ∈ sortedEntries m ↔ x ∈ sortedEntries n := by
    intro x
    rw [mem_sortedEntries, mem_sortedEntries, h]
  refine List.Perm.eq_of_pairwise ?_ (hsorted m) (hsorted n)
    ((List.perm_ext_iff_of_nodup (hnodup m) (hnodup n)).mpr hmem)
  -- a key has one value
  intro x y hx hy hxy hyx
  have hkey : x.1 = y.1 := List.le_antisymm hxy hyx
  have hxn := mem_sortedEntries.mp ((hmem x).mp hx)
  have hyn := mem_sortedEntries.mp hy
  rw [hkey] at hxn
  exact Prod.ext hkey (Option.some.inj (hxn.symm.trans hyn))

end Veduta.Storage
