import Veduta.Integrations.Route
import Veduta.Integrations.Schema

/-!
# The lock file

Package `integrations`: an approval record, how the YAML library writes one, and how it
is read back.  A document stands for the text of a file, since the library's own
rendering and parsing of trees is outside the program; what the program decides is the
struct tags, and `omitempty` leaves out an empty `queryKeys` list.
-/

namespace Veduta.Integrations

open Go Lib Routepath Capabilities

/-- One integration's approval record. -/
structure LockEntry where
  manifestSHA256 : Bytes
  moduleSHA256 : Bytes := []
  version : Bytes := []
  runtime : Bytes := []
  approvedAt : Bytes
  approvedBy : Bytes := []
  capabilities : List Bytes
  routes : List Route
  limits : Option Limits := none
  effectiveLimits : EffectiveLimits

structure Lock where
  version : Int
  integrations : GoMap Bytes LockEntry

/-- What a missing lock file means. -/
def emptyLock : Lock := ⟨1, ∅⟩

def Route.encode (r : Route) : Doc :=
  .obj ([(ascii "slot", Doc.str r.slot), (ascii "method", .str r.method),
      (ascii "path", .str r.path)] ++
    (omitEmpty (ascii "use") (r.use != []) (.str r.use) ++
    (omitEmpty (ascii "reason") (r.reason != []) (.str r.reason) ++
    (omitEmpty (ascii "queryKeys") (r.queryKeys.getD [] != [])
      (.arr ((r.queryKeys.getD []).map .str)) ++
    (omitEmpty (ascii "contentType") (r.contentType != []) (.str r.contentType) ++
    omitEmpty (ascii "maxBodyKB") (r.maxBodyKB != 0) (.int r.maxBodyKB))))))

def Route.decode (d : Doc) : Option Route := do
  let slot ← d.getStr (ascii "slot")
  let method ← d.getStr (ascii "method")
  let path ← d.getStr (ascii "path")
  let use ← d.getStr (ascii "use")
  let reason ← d.getStr (ascii "reason")
  let queryKeys ← d.getStrings (ascii "queryKeys")
  let contentType ← d.getStr (ascii "contentType")
  let maxBodyKB ← d.getInt (ascii "maxBodyKB")
  return { slot, method, path, use, reason, queryKeys, contentType, maxBodyKB }

def Limits.encode (l : Limits) : Doc :=
  .obj (limitFieldOrder.flatMap fun f =>
    omitEmpty f.name (l.field f).isSome (.int ((l.field f).getD 0)))

def Limits.decode (d : Doc) : Option Limits :=
  if limitFieldOrder.all (fun f => (d.getIntPtr f.name).isSome)
  then some ⟨fun f => (d.getIntPtr f.name).getD none⟩ else none

def EffectiveLimits.encode (l : EffectiveLimits) : Doc :=
  .obj (limitFieldOrder.map fun f => (f.name, .int (l.field f)))

def EffectiveLimits.decode (d : Doc) : Option EffectiveLimits :=
  if limitFieldOrder.all (fun f => (d.getInt f.name).isSome)
  then some ⟨fun f => (d.getInt f.name).getD 0⟩ else none

def LockEntry.encode (e : LockEntry) : Doc :=
  .obj ([(ascii "manifestSha256", Doc.str e.manifestSHA256)] ++
    (omitEmpty (ascii "moduleSha256") (e.moduleSHA256 != []) (.str e.moduleSHA256) ++
    (omitEmpty (ascii "version") (e.version != []) (.str e.version) ++
    (omitEmpty (ascii "runtime") (e.runtime != []) (.str e.runtime) ++
    ([(ascii "approvedAt", Doc.str e.approvedAt)] ++
    (omitEmpty (ascii "approvedBy") (e.approvedBy != []) (.str e.approvedBy) ++
    ([(ascii "capabilities", Doc.arr (e.capabilities.map .str)),
      (ascii "routes", .arr (e.routes.map Route.encode))] ++
    (omitEmpty (ascii "limits") e.limits.isSome ((e.limits.map Limits.encode).getD .null) ++
    [(ascii "effectiveLimits", e.effectiveLimits.encode)]))))))))

def LockEntry.decode (d : Doc) : Option LockEntry := do
  let manifestSHA256 ← d.getStr (ascii "manifestSha256")
  let moduleSHA256 ← d.getStr (ascii "moduleSha256")
  let version ← d.getStr (ascii "version")
  let runtime ← d.getStr (ascii "runtime")
  let approvedAt ← d.getStr (ascii "approvedAt")
  let approvedBy ← d.getStr (ascii "approvedBy")
  let capabilities ← d.getList (ascii "capabilities") Doc.asStr
  let routes ← d.getList (ascii "routes") Route.decode
  let limits ← d.getPtr (ascii "limits") Limits.decode
  let effectiveLimits ← d.getStruct (ascii "effectiveLimits") ⟨fun _ => 0⟩ EffectiveLimits.decode
  return { manifestSHA256, moduleSHA256, version, runtime, approvedAt, approvedBy, capabilities,
           routes, limits, effectiveLimits }

def Lock.encode (l : Lock) : Doc :=
  .obj [(ascii "version", .int l.version),
    (ascii "integrations", .obj (l.integrations.entries.map fun x => (x.1, x.2.encode)))]

def Lock.decode (d : Doc) : Option Lock := do
  let version ← d.getInt (ascii "version")
  let integrations ←
    match d.field? (ascii "integrations") with
    | none | some .null => some []
    | some (.obj fields) => fields.mapM fun x => (LockEntry.decode x.2).map (x.1, ·)
    | some _ => none
  return { version, integrations := .ofList integrations }

inductive LockError where
  | schema
  | decode
  deriving DecidableEq, Repr

/-- The document that reaches the file: the lock is marshalled and its tree validated
before anything is written. -/
def writeLock (lock : Lock) : Except LockError Doc :=
  if lockSchema lock.encode then .ok lock.encode else .error .schema

/-- The lock in a file; a missing file is an empty lock. -/
def readLock : Option Doc → Except LockError Lock
  | none => .ok emptyLock
  | some doc =>
    if !lockSchema doc then .error .schema
    else
      match Lock.decode doc with
      | none => .error .decode
      | some lock => .ok lock

/-! ## Limits of a lock that is read -/

variable {d : Doc} {e : LockEntry} {l : EffectiveLimits} {lock : Lock}

theorem EffectiveLimits.decode_field (h : decode d = some l) (f : LimitField) :
    l.field f = (d.getInt f.name).getD 0 := by
  rw [decode] at h
  split_ifs at h
  rw [← Option.some.inj h]

theorem limitsSchema_lookup (f : LimitField) :
    (limitFieldOrder.map fun f => (f.name, Schema.integer f.minimum (limitBounds f).max)).lookup
      f.name = some (Schema.integer f.minimum (limitBounds f).max) := by
  cases f <;> rfl

theorem EffectiveLimits.decode_bounds (h : decode d = some l) (hschema : limitsSchema d = true)
    (hrequired : Schema.requires (limitFieldOrder.map LimitField.name) d = true) (f : LimitField) :
    f.minimum ≤ l.field f ∧ l.field f ≤ (limitBounds f).max := by
  rw [EffectiveLimits.decode_field h]
  cases d with
  | obj fields =>
    have hpresent : (fields.lookup f.name).isSome = true :=
      List.all_eq_true.mp hrequired _ (List.mem_map_of_mem (mem_limitFieldOrder f))
    obtain ⟨v, hv⟩ := Option.isSome_iff_exists.mp hpresent
    have hfield : (Doc.obj fields).field? f.name = some v := hv
    have hint := Schema.object_lookup hschema (limitsSchema_lookup f) hfield
    cases v with
    | int n => simpa [Doc.getInt, hfield, Schema.integer] using hint
    | _ => simp [Schema.integer] at hint
  | _ => simp [limitsSchema, Schema.object] at hschema

theorem LockEntry.decode_effectiveLimits (h : decode d = some e) :
    d.getStruct (ascii "effectiveLimits") ⟨fun _ => 0⟩ EffectiveLimits.decode =
      some e.effectiveLimits := by
  simp only [decode, Option.bind_eq_bind, Option.bind_eq_some_iff, Option.pure_def,
    Option.some.injEq] at h
  obtain ⟨_, _, _, _, _, _, _, _, _, _, _, _, _, _, _, _, _, _, l, hl, rfl⟩ := h
  exact hl

theorem LockEntry.decode_bounds (h : decode d = some e) (hschema : lockEntrySchema d = true)
    (f : LimitField) :
    f.minimum ≤ e.effectiveLimits.field f ∧ e.effectiveLimits.field f ≤ (limitBounds f).max := by
  have hlimits := LockEntry.decode_effectiveLimits h
  have hobject := (Bool.and_eq_true_iff.mp hschema).1
  cases d with
  | obj fields =>
    have hpresent : (fields.lookup (ascii "effectiveLimits")).isSome = true :=
      List.all_eq_true.mp (Bool.and_eq_true_iff.mp hobject).1 _ (by simp)
    obtain ⟨v, hv⟩ := Option.isSome_iff_exists.mp hpresent
    have hfield : (Doc.obj fields).field? (ascii "effectiveLimits") = some v := hv
    have hboth := Schema.object_lookup hobject rfl hfield
    obtain ⟨hbounds, hrequired⟩ := Bool.and_eq_true_iff.mp hboth
    cases v with
    | obj limits =>
      rw [Doc.getStruct_of_obj hfield] at hlimits
      exact EffectiveLimits.decode_bounds hlimits hbounds hrequired f
    | _ => simp [limitsSchema, Schema.object] at hbounds
  | _ => simp [Schema.object] at hobject

theorem exists_decode_of_lookup {doc : Doc} {id : Bytes} (hschema : lockSchema doc = true)
    (hdecode : Lock.decode doc = some lock) (he : lock.integrations.lookup id = some e) :
    ∃ d, lockEntrySchema d = true ∧ LockEntry.decode d = some e := by
  simp only [Lock.decode, Option.bind_eq_bind, Option.bind_eq_some_iff, Option.pure_def] at hdecode
  obtain ⟨_, _, hdecode⟩ := hdecode
  cases hfield : doc.field? (ascii "integrations") with
  | none =>
    rw [hfield] at hdecode
    cases hdecode
    cases GoMap.mem_of_lookup_ofList he
  | some v =>
    have hdict := Schema.object_lookup hschema rfl hfield
    cases v with
    | obj fields =>
      rw [hfield] at hdecode
      obtain ⟨pairs, hpairs, hlock⟩ := Option.bind_eq_some_iff.mp hdecode
      cases hlock
      obtain ⟨x, hx, hentry⟩ :=
        exists_of_mem_mapM_some hpairs (GoMap.mem_of_lookup_ofList he)
      obtain ⟨e', he', heq⟩ := Option.map_eq_some_iff.mp hentry
      cases heq
      exact ⟨x.2, (Bool.and_eq_true_iff.mp (List.all_eq_true.mp hdict x hx)).2, he'⟩
    | _ => simp [Schema.dict] at hdict

/-- **The limits of an entry that is read are within their bounds.** -/
theorem readLock_bounds {file : Option Doc} {id : Bytes} (h : readLock file = .ok lock)
    (he : lock.integrations.lookup id = some e) (f : LimitField) :
    f.minimum ≤ e.effectiveLimits.field f ∧ e.effectiveLimits.field f ≤ (limitBounds f).max := by
  cases file with
  | none =>
    cases h
    simp [emptyLock] at he
  | some doc =>
    rw [readLock] at h
    split_ifs at h with hschema
    rw [Bool.not_eq_true, Bool.not_eq_false'] at hschema
    split at h
    · cases h
    rename_i lock' hdecode
    cases h
    obtain ⟨d, hd, hentry⟩ := exists_decode_of_lookup hschema hdecode he
    exact LockEntry.decode_bounds hentry hd f

end Veduta.Integrations
