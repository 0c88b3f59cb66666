import Mathlib.Tactic.Common
import Mathlib.Data.Fintype.Basic
import Veduta.Go.Strings

/-!
# Resource ceilings

Package `integrations`: the fourteen ceilings a manifest may request, an approval may
override and a lock records.  The source spells each struct field out and dispatches on
its name; here the name is the index, so every formula is written once.
-/

namespace Veduta.Integrations

open Go

/-- The limits, under their names in a document. -/
inductive LimitField where
  | memoryMB
  | timeoutMs
  | outputKB
  | httpRequests
  | responseMB
  | cacheEntries
  | inputMB
  | jsonDepth
  | jsonNodes
  | exprNodes
  | iterations
  | requestBodyKB
  | hostCalls
  | cacheBytesKB
  deriving DecidableEq, Repr

/-- The field's name in a document. -/
def LimitField.name : LimitField → Bytes
  | memoryMB => ascii "memoryMB"
  | timeoutMs => ascii "timeoutMs"
  | outputKB => ascii "outputKB"
  | httpRequests => ascii "httpRequests"
  | responseMB => ascii "responseMB"
  | cacheEntries => ascii "cacheEntries"
  | inputMB => ascii "inputMB"
  | jsonDepth => ascii "jsonDepth"
  | jsonNodes => ascii "jsonNodes"
  | exprNodes => ascii "exprNodes"
  | iterations => ascii "iterations"
  | requestBodyKB => ascii "requestBodyKB"
  | hostCalls => ascii "hostCalls"
  | cacheBytesKB => ascii "cacheBytesKB"

/-- A field's default and core maximum. -/
structure LimitBound where
  default : Int
  max : Int

def limitBounds : LimitField → LimitBound
  | .memoryMB => ⟨64, 256⟩
  | .timeoutMs => ⟨3000, 30000⟩
  | .outputKB => ⟨64, 256⟩
  | .httpRequests => ⟨8, 32⟩
  | .responseMB => ⟨4, 16⟩
  | .cacheEntries => ⟨64, 512⟩
  | .inputMB => ⟨4, 16⟩
  | .jsonDepth => ⟨32, 64⟩
  | .jsonNodes => ⟨200000, 1000000⟩
  | .exprNodes => ⟨512, 4096⟩
  | .iterations => ⟨20000, 100000⟩
  | .requestBodyKB => ⟨64, 1024⟩
  | .hostCalls => ⟨256, 2048⟩
  | .cacheBytesKB => ⟨256, 4096⟩

/-- The fields in the order the loops take them. -/
def limitFieldOrder : List LimitField :=
  [.cacheBytesKB, .cacheEntries, .exprNodes, .hostCalls, .httpRequests, .inputMB, .iterations,
    .jsonDepth, .jsonNodes, .memoryMB, .outputKB, .requestBodyKB, .responseMB, .timeoutMs]

/-- Requested ceilings; `none` is a field that is not set. -/
@[ext] structure Limits where
  field : LimitField → Option Int

def Limits.empty : Limits := ⟨fun _ => none⟩

def Limits.isZero (l : Limits) : Bool := limitFieldOrder.all fun name => (l.field name).isNone

/-- The ceilings in force, every one recorded. -/
@[ext] structure EffectiveLimits where
  field : LimitField → Int

/-- A requested value, else the default, clamped to the core maximum. -/
def requested (name : LimitField) (m : Limits) : Int :=
  let b := limitBounds name
  let v := (m.field name).getD b.default
  if v > b.max then b.max else v

/-- The smaller of the manifest's and the approval's value. -/
def effectiveLimit (name : LimitField) (manifest approved : Limits) : Int :=
  let m := requested name manifest
  let a := requested name approved
  if a < m then a else m

/-- Every field's effective value at the moment of approval. -/
def reconcileAtApproval (manifest approved : Limits) : EffectiveLimits :=
  ⟨fun name => effectiveLimit name manifest approved⟩

@[simp] theorem field_reconcileAtApproval (manifest approved : Limits) (name : LimitField) :
    (reconcileAtApproval manifest approved).field name = effectiveLimit name manifest approved :=
  rfl

theorem mem_limitFieldOrder (name : LimitField) : name ∈ limitFieldOrder := by
  cases name <;> decide

instance : Fintype LimitField where
  elems := ⟨limitFieldOrder, by decide⟩
  complete := mem_limitFieldOrder

theorem LimitField.name_injective : Function.Injective LimitField.name := by
  intro a b
  revert a b
  decide +kernel

theorem default_le_max : ∀ name, (limitBounds name).default ≤ (limitBounds name).max := by decide

theorem requested_le_max (name : LimitField) (m : Limits) :
    requested name m ≤ (limitBounds name).max := by
  simp only [requested]
  split_ifs <;> omega

theorem requested_le_getD (name : LimitField) (m : Limits) :
    requested name m ≤ (m.field name).getD (limitBounds name).default := by
  simp only [requested]
  split_ifs <;> omega

theorem requested_of_some {name : LimitField} {m : Limits} {v : Int}
    (h : m.field name = some v) : requested name m = min v (limitBounds name).max := by
  simp only [requested, h, Option.getD_some]
  split_ifs <;> omega

theorem requested_of_none {name : LimitField} {m : Limits} (h : m.field name = none) :
    requested name m = (limitBounds name).default := by
  have := default_le_max name
  simp only [requested, h, Option.getD_none]
  split_ifs <;> omega

theorem effectiveLimit_eq_min (name : LimitField) (manifest approved : Limits) :
    effectiveLimit name manifest approved =
      min (requested name manifest) (requested name approved) := by
  simp only [effectiveLimit]
  split_ifs <;> omega

theorem effectiveLimit_le (name : LimitField) (manifest approved : Limits) :
    effectiveLimit name manifest approved ≤ requested name manifest := by
  rw [effectiveLimit_eq_min]
  omega

end Veduta.Integrations
