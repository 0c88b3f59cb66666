import Veduta.Go.Url

/-!
# Query strings, written and read back

`Values.Encode` escapes every byte that `URL.Query` splits on, so the values of a name are read
back from the string as they stood in the map.
-/

namespace Veduta.Go

open Lib

theorem mem_escapeWith {shouldEscape : UInt8 → Bool} {s : Bytes} {b : UInt8}
    (h : b ∈ escapeWith shouldEscape s) :
    shouldEscape b = false ∨ b = percent ∨ isHex b = true := by
  have hdigit : ∀ a : UInt8,
      isHex (upperHex (a >>> 4)) = true ∧ isHex (upperHex (a &&& 0xf)) = true := by
    decide +kernel
  obtain ⟨a, -, ha⟩ := List.mem_flatMap.mp h
  split_ifs at ha with hescape
  · simp only [List.mem_cons, List.not_mem_nil, or_false] at ha
    rcases ha with rfl | rfl | rfl
    · exact Or.inr (Or.inl rfl)
    · exact Or.inr (Or.inr (hdigit a).1)
    · exact Or.inr (Or.inr (hdigit a).2)
  · rw [List.mem_singleton] at ha
    exact Or.inl (by simpa [ha] using hescape)

/-- **A name or value is read back.** -/
@[simp] theorem queryUnescape_queryEscape (s : Bytes) : queryUnescape (queryEscape s) = some s := by
  rw [queryUnescape, queryEscape, List.map_map]
  -- only a space was written as a plus sign: a plus sign itself is escaped
  have hplus : ∀ b ∈ escapeWith
      (fun b => !(isUnreserved b || b == 0x20)) s,
      ((fun b => if b = chr '+' then 0x20 else b) ∘ fun b => if b = 0x20 then chr '+' else b) b =
        b := by
    intro b hb
    have hne : b ≠ chr '+' := by
      intro heq
      rw [heq] at hb
      exact absurd (mem_escapeWith hb) (by decide)
    by_cases hspace : b = 0x20
    · rw [hspace]
      decide
    · simp [hspace, hne]
  rw [List.map_congr_left hplus, List.map_id']
  exact unescape_escapeWith (by decide) s

theorem notMem_queryEscape {sep : UInt8}
    (h : sep ∈ [chr '&', chr ';', chr '=', chr '"', chr '\\', 0x0a, 0x0d, 0x09]) (s : Bytes) :
    sep ∉ queryEscape s := by
  intro hmem
  obtain ⟨b, hb, heq⟩ := List.mem_map.mp hmem
  have hsep : sep ≠ chr '+' := by
    intro hplus
    rw [hplus] at h
    exact absurd h (by decide)
  split_ifs at heq with hspace
  · exact hsep heq.symm
  rw [heq] at hb
  simp only [List.mem_cons, List.not_mem_nil, or_false] at h
  rcases h with rfl | rfl | rfl | rfl | rfl | rfl | rfl | rfl <;>
    exact absurd (mem_escapeWith hb) (by decide)

/-- What `Values.Encode` writes for one value of a name. -/
def encodedPair (x : Bytes × Bytes) : Bytes := queryEscape x.1 ++ [chr '='] ++ queryEscape x.2

theorem cut_append_cons {s t : Bytes} {sep : UInt8} (h : sep ∉ s) :
    cut (s ++ sep :: t) sep = (s, t, true) := by
  have hne : ∀ x ∈ s, (x != sep) = true := fun x hx => bne_iff_ne.mpr fun he => h (he ▸ hx)
  have hspan : (s ++ sep :: t).span (· != sep) = (s, sep :: t) := by
    rw [List.span_eq_takeWhile_dropWhile, List.takeWhile_append_of_pos hne,
      List.dropWhile_append_of_pos hne]
    simp
  rw [cut, hspan]

theorem notMem_encodedPair {sep : UInt8} (h : sep ∈ [chr '&', chr ';']) (x : Bytes × Bytes) :
    sep ∉ encodedPair x := by
  have hmem := notMem_queryEscape (List.mem_append_left [_, _, _, _, _, _] h)
  have hne : sep ≠ chr '=' := by
    intro heq
    rw [heq] at h
    exact absurd h (by decide)
  simp [encodedPair, hmem, hne]

/-- **A pair is read back.** -/
theorem addPair_encodedPair (m : Values) (x : Bytes × Bytes) :
    addPair m (encodedPair x) = m.add x.1 x.2 := by
  have hcut : cut (encodedPair x) (chr '=') = (queryEscape x.1, queryEscape x.2, true) := by
    rw [encodedPair, List.append_assoc, List.singleton_append]
    exact cut_append_cons (notMem_queryEscape (by decide) _)
  have hsemi : (encodedPair x).contains (chr ';') = false := by
    simpa using notMem_encodedPair (by decide) x
  have hne : (encodedPair x == []) = false := by simp [encodedPair]
  rw [addPair, hsemi, hne]
  simp [hcut]

/-- The pairs of a map in the order in which they are written. -/
def Values.pairs (m : Values) : List (Bytes × Bytes) :=
  (m.keys.insertionSort (· ≤ ·)).flatMap fun k => (m.get [] k).map fun v => (k, v)

theorem Values.encode_eq (m : Values) :
    m.encode = [chr '&'].intercalate (m.pairs.map encodedPair) := by
  rw [Values.encode, Values.pairs, List.map_flatMap]
  simp only [List.map_map]
  rfl

theorem get_foldl_add (l : List (Bytes × Bytes)) (m : Values) (k : Bytes) :
    (l.foldl (fun m x => m.add x.1 x.2) m).get [] k =
      m.get [] k ++ (l.filter fun x => x.1 = k).map Prod.snd := by
  induction l generalizing m with
  | nil => simp
  | cons x l ih =>
    rw [List.foldl_cons, ih]
    by_cases hk : x.1 = k
    · subst hk
      simp [GoMap.get, Values.add]
    · have hne : k ≠ x.1 := Ne.symm hk
      simp [GoMap.get, Values.add, AList.lookup_insert_ne hne, hk]

theorem Values.pairs_filter (m : Values) (k : Bytes) :
    (m.pairs.filter fun x => x.1 = k).map Prod.snd = m.get [] k := by
  have hpairs : ∀ l : List Bytes, l.Nodup →
      ((l.flatMap fun k => (m.get [] k).map fun v => (k, v)).filter fun x => x.1 = k).map
        Prod.snd = if k ∈ l then m.get [] k else [] := by
    intro l hl
    induction l with
    | nil => simp
    | cons a l ih =>
      obtain ⟨ha, hl⟩ := List.nodup_cons.mp hl
      rw [List.flatMap_cons, List.filter_append, List.map_append, ih hl]
      by_cases hk : a = k
      · subst hk
        simp [ha, List.filter_map, Function.comp_def]
      · have hne : k ≠ a := Ne.symm hk
        simp [hk, hne, List.filter_map, Function.comp_def]
  rw [Values.pairs, hpairs _ ((List.perm_insertionSort _ _).nodup_iff.mpr m.keys_nodup)]
  split_ifs with hk
  · rfl
  · have hnone : m.lookup k = none := by
      rw [← Option.not_isSome_iff_eq_none, ← GoMap.mem_keys_iff]
      intro hmem
      exact hk ((List.perm_insertionSort _ _).mem_iff.mpr hmem)
    rw [GoMap.get, hnone, Option.getD_none]

/-- **The values of a name are read back from a query string.** -/
theorem lookup_parseQuery_encode {m : Values} {k : Bytes} {v : List Bytes}
    (h : m.lookup k = some v) (hv : v ≠ []) : (parseQuery m.encode).lookup k = some v := by
  have hget : m.get [] k = v := by rw [GoMap.get, h, Option.getD_some]
  have hpairs : m.pairs ≠ [] := by
    intro hnil
    have hfilter := m.pairs_filter k
    rw [hnil, hget] at hfilter
    exact hv hfilter.symm
  have hsplit : m.encode.splitOn (chr '&') = m.pairs.map encodedPair := by
    rw [Values.encode_eq]
    refine List.splitOn_intercalate _ (fun l hl => ?_) (by simpa using hpairs)
    obtain ⟨x, -, rfl⟩ := List.mem_map.mp hl
    exact notMem_encodedPair (by decide) x
  have hread : (parseQuery m.encode).get [] k = v := by
    rw [parseQuery, hsplit, List.foldl_map]
    simp only [addPair_encodedPair]
    rw [get_foldl_add, Values.pairs_filter, hget]
    rfl
  rw [GoMap.get] at hread
  cases hlookup : (parseQuery m.encode).lookup k with
  | none =>
    rw [hlookup, Option.getD_none] at hread
    exact absurd hread.symm hv
  | some w =>
    rw [hlookup, Option.getD_some] at hread
    rw [hread]

end Veduta.Go
