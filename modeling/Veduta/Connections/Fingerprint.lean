import Veduta.Connections.Material
import Veduta.Go.DurationText
import Veduta.Go.FloatText

/-!
# What a fingerprint tells apart

The texts that `MaterialHMACs` hashes have their lengths before them, so the list of the texts can
be read back from the bytes.  The static headers and the allowed paths are two lists in one, and
nothing says where the first ends: a header can be taken for two paths.
-/

namespace Veduta.Connections

open Go Lib

open Config (AuthType)

theorem length_of_writeValue {v w x y : Bytes} (hv : v.length < 2 ^ 64) (hw : w.length < 2 ^ 64)
    (h : writeValue v ++ x = writeValue w ++ y) : v.length = w.length ∧ v ++ x = w ++ y := by
  rw [writeValue, writeValue, List.append_assoc, List.append_assoc] at h
  obtain ⟨hsize, hrest⟩ := List.append_inj h (by simp)
  refine ⟨?_, hrest⟩
  generalize v.length = m at hv hsize
  generalize w.length = n at hw hsize
  have hbyte : ∀ i < 8, m / 256 ^ (7 - i) % 256 = n / 256 ^ (7 - i) % 256 := by
    intro i hi
    have heq := List.map_inj_left.mp hsize i (List.mem_range.mpr hi)
    have hnat := congrArg UInt8.toNat heq
    simpa using hnat
  have h0 := hbyte 0 (by omega)
  have h1 := hbyte 1 (by omega)
  have h2 := hbyte 2 (by omega)
  have h3 := hbyte 3 (by omega)
  have h4 := hbyte 4 (by omega)
  have h5 := hbyte 5 (by omega)
  have h6 := hbyte 6 (by omega)
  have h7 := hbyte 7 (by omega)
  norm_num at h0 h1 h2 h3 h4 h5 h6 h7
  omega

theorem prefixCode_writeValue : PrefixCode (fun v : Bytes => v.length < 2 ^ 64) writeValue where
  ne_nil := by
    intro v _
    simp [writeValue]
  read := by
    intro v w x y hv hw h
    obtain ⟨hlength, heq⟩ := length_of_writeValue hv hw h
    exact (List.append_inj heq hlength).1

/-- **The texts that are hashed are told apart.** -/
theorem writeMaterial_inj {vs ws : List Bytes} (hvs : ∀ v ∈ vs, v.length < 2 ^ 64)
    (hws : ∀ w ∈ ws, w.length < 2 ^ 64) (h : writeMaterial vs = writeMaterial ws) : vs = ws :=
  prefixCode_writeValue.flatMap_inj hvs hws h

theorem authTypeText_injective : Function.Injective authTypeText := by
  intro t t' h
  cases t <;> cases t' <;> first | rfl | exact absurd h (by decide)

theorem sprintBool_injective : Function.Injective sprintBool := by
  intro b b' h
  cases b <;> cases b' <;> first | rfl | exact absurd h (by decide)

theorem formatInt_injective : Function.Injective formatInt := by
  have hsign : ∀ m n : ℕ, formatNat m ≠ 0x2d :: formatNat n := by
    intro m n h
    have hmem : 0x2d ∈ formatNat m := by
      rw [h]
      exact List.mem_cons_self
    cases isDigit_of_mem_formatNat hmem
  intro i j h
  cases i with
  | ofNat m =>
    cases j with
    | ofNat n => rw [formatNat_injective h]
    | negSucc n => exact absurd h (hsign m (n + 1))
  | negSucc m =>
    cases j with
    | ofNat n => exact absurd h.symm (hsign n (m + 1))
    | negSucc n =>
      have heq := formatNat_injective (List.cons.inj h).2
      rw [Nat.succ.inj heq]

/-! ## Connections -/

/-- The settings of two connections other than their headers and paths are the same. -/
structure SameSettings (h h' : HTTPConfig) : Prop where
  baseURL : h.baseURL = h'.baseURL
  auth : h.auth = h'.auth
  tls : h.tls = h'.tls
  timeout : h.timeout = h'.timeout
  maxResponseBytes : h.maxResponseBytes = h'.maxResponseBytes
  maxRedirects : h.maxRedirects = h'.maxRedirects
  rateLimit : h.rateLimit = h'.rateLimit
  concurrency : h.concurrency = h'.concurrency

/-- Two connections are **the same**, up to the order of the headers and of the paths. -/
def Agrees : Built → Built → Prop
  | .http h, .http h' =>
    SameSettings h h' ∧ (∀ name, h.headers.lookup name = h'.headers.lookup name) ∧
      h.allowedPaths.Perm h'.allowedPaths
  | .docker d, .docker d' => d = d'
  | _, _ => False

/-- The headers with their values in the order of the names, and then the paths in theirs. -/
def listed (h : HTTPConfig) : List Bytes :=
  (h.headers.keys.insertionSort (· ≤ ·)).flatMap (fun k => [k, h.headers.get [] k]) ++
    h.allowedPaths.insertionSort (· ≤ ·)

/-- Two connections have equally many headers, or differ in another setting or in what their headers
and paths are together. -/
def Separated : Built → Built → Prop
  | .http h, .http h' =>
    h.headers.size = h'.headers.size ∨ ¬ SameSettings h h' ∨ listed h ≠ listed h'
  | _, _ => True

/-- The numbers and texts of a connection are those of the source's types: a text is shorter than
`2 ^ 64`, a timeout has 64 bits, and a rate is a double. -/
def Representable : Built → Prop
  | .http h =>
    (∀ v ∈ httpMaterial h, v.length < 2 ^ 64) ∧ (-2 ^ 63 ≤ h.timeout ∧ h.timeout < 2 ^ 63) ∧
      IsFloat64 h.rateLimit.rps
  | .docker d =>
    (∀ v ∈ dockerMaterial d, v.length < 2 ^ 64) ∧ (-2 ^ 63 ≤ d.timeout ∧ d.timeout < 2 ^ 63)

theorem durationString_inj {d d' : ℤ} (hd : -2 ^ 63 ≤ d ∧ d < 2 ^ 63)
    (hd' : -2 ^ 63 ≤ d' ∧ d' < 2 ^ 63) (h : durationString d = durationString d') : d = d' := by
  have hread := parseDuration_durationString hd.1 hd.2
  rw [h, parseDuration_durationString hd'.1 hd'.2] at hread
  exact (Option.some.inj hread).symm

theorem sprintFloat_inj {q q' : ℚ} (hq : IsFloat64 q) (hq' : IsFloat64 q')
    (h : sprintFloat q = sprintFloat q') : q = q' := by
  have hread := toFloat64_sprintFloat hq
  rw [h, toFloat64_sprintFloat hq'] at hread
  exact (Option.some.inj hread).symm

attribute [ext] Auth Config.TLSConfig Config.RateLimit DockerConfig

/-- What the texts of two HTTP connections tell: the settings, and the two lists as one. -/
theorem httpMaterial_eq_iff {h h' : HTTPConfig} (hh : Representable (.http h))
    (hh' : Representable (.http h')) :
    httpMaterial h = httpMaterial h' ↔ SameSettings h h' ∧ listed h = listed h' := by
  constructor
  · intro heq
    simp only [httpMaterial, List.cons_append, List.nil_append,
      List.cons.injEq] at heq
    obtain ⟨hbase, htype, hname, hvalue, huser, hpass, hca, hserver, hskip, htimeout, hbytes,
      hredirects, hrps, hburst, hconcurrency, hlisted⟩ := heq
    refine ⟨⟨hbase, ?_, ?_, durationString_inj hh.2.1 hh'.2.1 htimeout,
      formatInt_injective hbytes, formatInt_injective hredirects, ?_,
      formatInt_injective hconcurrency⟩, hlisted⟩
    · exact Auth.ext (authTypeText_injective htype) hname hvalue huser hpass
    · exact Config.TLSConfig.ext (sprintBool_injective hskip) hca hserver
    · exact Config.RateLimit.ext (sprintFloat_inj hh.2.2 hh'.2.2 hrps) (formatInt_injective hburst)
  · intro hsame
    obtain ⟨hsettings, hlisted⟩ := hsame
    rw [httpMaterial, httpMaterial, List.append_assoc, List.append_assoc]
    change _ ++ listed h = _ ++ listed h'
    rw [hlisted, hsettings.baseURL, hsettings.auth, hsettings.tls, hsettings.timeout,
      hsettings.maxResponseBytes, hsettings.maxRedirects, hsettings.rateLimit,
      hsettings.concurrency]

theorem length_flatMap_pair (ks : List Bytes) (f : Bytes → Bytes) :
    (ks.flatMap fun k => [k, f k]).length = 2 * ks.length := by
  induction ks with
  | nil => rfl
  | cons k ks ih =>
    rw [List.flatMap_cons, List.length_append, ih, List.length_cons]
    simp only [List.length_cons, List.length_nil]
    omega

theorem flatMap_pair_inj {ks ks' : List Bytes} {f f' : Bytes → Bytes}
    (h : (ks.flatMap fun k => [k, f k]) = ks'.flatMap fun k => [k, f' k]) :
    ks = ks' ∧ ∀ k ∈ ks, f k = f' k := by
  induction ks generalizing ks' with
  | nil =>
    cases ks' with
    | nil => simp
    | cons k' ks' => cases h
  | cons k ks ih =>
    cases ks' with
    | nil => cases h
    | cons k' ks' =>
      simp only [List.flatMap_cons, List.cons_append, List.nil_append, List.cons.injEq] at h
      obtain ⟨rfl, hvalue, hrest⟩ := h
      obtain ⟨rfl, hall⟩ := ih hrest
      exact ⟨rfl, List.forall_mem_cons.mpr ⟨hvalue, hall⟩⟩

/-- The headers are read back from the list once their number is known. -/
theorem listed_inj {h h' : HTTPConfig} (hsize : h.headers.size = h'.headers.size)
    (heq : listed h = listed h') :
    (∀ name, h.headers.lookup name = h'.headers.lookup name) ∧
      h.allowedPaths.Perm h'.allowedPaths := by
  have hlength : ∀ g : HTTPConfig, ((g.headers.keys.insertionSort (· ≤ ·)).flatMap
      fun k => [k, g.headers.get [] k]).length = 2 * g.headers.size := by
    intro g
    rw [length_flatMap_pair, List.length_insertionSort, GoMap.size]
  obtain ⟨hheaders, hpaths⟩ := List.append_inj heq (by rw [hlength, hlength, hsize])
  obtain ⟨hkeys, hvalues⟩ := flatMap_pair_inj hheaders
  have hperm := List.perm_insertionSort (· ≤ ·) h.headers.keys
  have hperm' := List.perm_insertionSort (· ≤ ·) h'.headers.keys
  rw [← hkeys] at hperm'
  constructor
  · intro name
    have hmem : name ∈ h.headers.keys ↔ name ∈ h'.headers.keys :=
      hperm.symm.mem_iff.trans hperm'.mem_iff
    by_cases hname : name ∈ h.headers.keys
    · have hget := hvalues name (hperm.mem_iff.mpr hname)
      obtain ⟨v, hv⟩ := Option.isSome_iff_exists.mp (GoMap.mem_keys_iff.mp hname)
      obtain ⟨v', hv'⟩ := Option.isSome_iff_exists.mp (GoMap.mem_keys_iff.mp (hmem.mp hname))
      rw [GoMap.get, GoMap.get, hv, hv', Option.getD_some, Option.getD_some] at hget
      rw [hv, hv', hget]
    · rw [AList.lookup_eq_none.mpr hname, AList.lookup_eq_none.mpr fun h => hname (hmem.mpr h)]
  · have hsorted := List.perm_insertionSort (· ≤ ·) h.allowedPaths
    rw [hpaths] at hsorted
    exact hsorted.symm.trans (List.perm_insertionSort (· ≤ ·) h'.allowedPaths)

theorem size_eq_of_lookup_eq {m m' : GoMap Bytes Bytes} (h : ∀ k, m.lookup k = m'.lookup k) :
    m.size = m'.size := by
  have hperm : m.keys.Perm m'.keys := by
    refine (List.perm_ext_iff_of_nodup m.nodupKeys m'.nodupKeys).mpr fun k => ?_
    change k ∈ m.keys ↔ k ∈ m'.keys
    rw [GoMap.mem_keys_iff, GoMap.mem_keys_iff, h k]
  exact hperm.length_eq

/-- **Connections with the same material agree, unless headers can be taken for paths.** -/
theorem agrees_of_material_iff {id : Bytes} {conn conn' : Built} (hid : id.length < 2 ^ 64)
    (hconn : Representable conn) (hconn' : Representable conn') :
    (material id conn = material id conn' → Agrees conn conn') ↔ Separated conn conn' := by
  have hkind : ∀ {kind kind' : Bytes} {vs vs' : List Bytes}, kind.length < 2 ^ 64 →
      kind'.length < 2 ^ 64 → (∀ v ∈ vs, v.length < 2 ^ 64) → (∀ v ∈ vs', v.length < 2 ^ 64) →
      writeMaterial (id :: kind :: vs) = writeMaterial (id :: kind' :: vs') →
      kind = kind' ∧ vs = vs' := by
    intro kind kind' vs vs' hkind hkind' hvs hvs' heq
    have hinj := writeMaterial_inj
      (List.forall_mem_cons.mpr ⟨hid, List.forall_mem_cons.mpr ⟨hkind, hvs⟩⟩)
      (List.forall_mem_cons.mpr ⟨hid, List.forall_mem_cons.mpr ⟨hkind', hvs'⟩⟩) heq
    simpa using hinj
  cases conn with
  | http h =>
    cases conn' with
    | http h' =>
      have hmaterial : material id (.http h) = material id (.http h') ↔
          SameSettings h h' ∧ listed h = listed h' := by
        rw [← httpMaterial_eq_iff hconn hconn']
        constructor
        · intro heq
          exact (hkind (by decide) (by decide) hconn.1 hconn'.1 heq).2
        · intro heq
          rw [material, material, heq]
      rw [hmaterial, Separated, Agrees]
      constructor
      · intro himp
        by_cases hsame : SameSettings h h' ∧ listed h = listed h'
        · exact .inl (size_eq_of_lookup_eq (himp hsame).2.1)
        · exact .inr (not_and_or.mp hsame)
      · intro hsep hsame
        rcases hsep with hsize | hdiff
        · exact ⟨hsame.1, listed_inj hsize hsame.2⟩
        · exact absurd hsame (not_and_or.mpr hdiff)
    | docker d' =>
      refine iff_of_true (fun heq => ?_) trivial
      have hne := (hkind (by decide) (by decide) hconn.1 hconn'.1 heq).1
      exact absurd hne (by decide)
  | docker d =>
    cases conn' with
    | http h' =>
      refine iff_of_true (fun heq => ?_) trivial
      have hne := (hkind (by decide) (by decide) hconn.1 hconn'.1 heq).1
      exact absurd hne (by decide)
    | docker d' =>
      refine iff_of_true (fun heq => ?_) trivial
      have hvs := (hkind (by decide) (by decide) hconn.1 hconn'.1 heq).2
      simp only [dockerMaterial, List.cons.injEq, and_true] at hvs
      exact DockerConfig.ext hvs.1 (sprintBool_injective hvs.2.1)
        (durationString_inj hconn.2 hconn'.2 hvs.2.2)

/-- A connection with a static header of the given value. -/
def headerBuilt (value : Bytes) : Built :=
  .http { baseURL := ascii "http://service.example.test", timeout := defaultTimeout,
          headers := GoMap.ofList [(ascii "accept", value)] }

theorem agrees_of_material_iff_header :
    (material (ascii "photos") (headerBuilt (ascii "text")) =
        material (ascii "photos") (headerBuilt (ascii "image")) →
      Agrees (headerBuilt (ascii "text")) (headerBuilt (ascii "image"))) ↔
    Separated (headerBuilt (ascii "text")) (headerBuilt (ascii "image")) := by
  apply agrees_of_material_iff
  · decide
  · exact ⟨by decide +kernel, by decide +kernel, by rfl⟩
  · exact ⟨by decide +kernel, by decide +kernel, by rfl⟩

/-- A connection with a static header and without paths, so that it may ask for any. -/
def headerConnection : Config.Connection where
  settings := .http
    { baseURL := ascii "http://service.example.test"
      headers := GoMap.ofList [(ascii "accept", .ofScalar (ascii "text"))] }

/-- The header is gone, and there are two paths. -/
def pathsConnection : Config.Connection where
  settings := .http
    { baseURL := ascii "http://service.example.test"
      allowedPaths := [ascii "accept", ascii "text"] }

/-- The two are built, their material is the same, and they differ. -/
theorem header_taken_for_paths :
    ∃ conn conn', buildConnection (ascii "photos") headerConnection ∅ = .ok conn ∧
      buildConnection (ascii "photos") pathsConnection ∅ = .ok conn' ∧
      Representable conn ∧ Representable conn' ∧
      material (ascii "photos") conn = material (ascii "photos") conn' ∧ ¬ Agrees conn conn' := by
  refine ⟨_, _, rfl, rfl, ?_, ?_, ?_, ?_⟩
  · exact ⟨by decide +kernel, by decide +kernel, by rfl⟩
  · exact ⟨by decide +kernel, by decide +kernel, by rfl⟩
  · decide +kernel
  · intro hagrees
    have hlookup := hagrees.2.1 (ascii "accept")
    revert hlookup
    decide +kernel

end Veduta.Connections
