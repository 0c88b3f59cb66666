import Mathlib.Tactic.Common
import Mathlib.Data.List.Induction
import Mathlib.Data.List.AList

/-!
# Go maps

A Go map is a finite partial function; ranging over it visits its entries in an
order that the language leaves open.  The model is Mathlib's `AList`, read through
`lookup`, and a `range` loop is a fold over any permutation of the entries.
-/

namespace Veduta.Go

/-- `map[α]β`. -/
abbrev GoMap (α β : Type) := AList fun _ : α => β

namespace GoMap

variable {α β : Type}

/-- The entries in some order that a `range` loop may take. -/
def Order (m : GoMap α β) (l : List (Σ _ : α, β)) : Prop := l.Perm m.entries

def filter (m : GoMap α β) (p : α → β → Bool) : GoMap α β where
  entries := m.entries.filter fun x => p x.1 x.2
  nodupKeys := m.nodupKeys.sublist List.filter_sublist

variable {γ : Type}

/-- One entry under a function that may drop it. -/
def mapEntry (f : α → β → Option γ) (x : Σ _ : α, β) : Option (Σ _ : α, γ) :=
  (f x.1 x.2).map fun c => ⟨x.1, c⟩

theorem keys_filterMap_sublist (f : α → β → Option γ) (l : List (Σ _ : α, β)) :
    (l.filterMap (mapEntry f)).keys.Sublist l.keys := by
  induction l with
  | nil => exact List.Sublist.refl _
  | cons x l ih =>
    cases hf : f x.1 x.2 with
    | none => simpa [mapEntry, hf] using ih.cons x.1
    | some c => simpa [mapEntry, hf] using ih.cons_cons x.1

def errorOf {ε : Type} : Except ε (Option γ) → Option ε
  | .error e => some e
  | .ok _ => none

/-- The entries a function keeps, with the values it gives them. -/
def filterMap (m : GoMap α β) (f : α → β → Option γ) : GoMap α γ where
  entries := m.entries.filterMap (mapEntry f)
  nodupKeys := (keys_filterMap_sublist f m.entries).nodup m.nodupKeys

/-- A loop over a map that fills another one, or stops at the first error it meets. -/
def traverse {ε : Type} (m : GoMap α β) (f : α → β → Except ε (Option γ)) :
    Except ε (GoMap α γ) :=
  match m.entries.findSome? fun x => errorOf (f x.1 x.2) with
  | some e => .error e
  | none => .ok (m.filterMap fun k v => (f k v).toOption.join)

/-- `len(m)`. -/
def size (m : GoMap α β) : ℕ := m.keys.length

theorem size_filter_le (m : GoMap α β) (p : α → β → Bool) : (m.filter p).size ≤ m.size := by
  simp only [size, filter, AList.keys, List.keys, List.length_map]
  exact List.length_filter_le _ _

theorem order_entries (m : GoMap α β) : m.Order m.entries := List.Perm.refl _

@[simp] theorem mem_entries_filter {m : GoMap α β} {p : α → β → Bool} {x : Σ _ : α, β} :
    x ∈ (m.filter p).entries ↔ x ∈ m.entries ∧ p x.1 x.2 = true := by
  simp [filter]

variable [DecidableEq α]
variable {k : α}

/-- A map literal; an earlier entry for a key hides a later one. -/
def ofList (l : List (α × β)) : GoMap α β := (l.map fun x => ⟨x.1, x.2⟩).toAList

/-- A lookup that yields the zero value for a missing key. -/
def get (m : GoMap α β) (zero : β) (k : α) : β := (m.lookup k).getD zero

/-- The bool-valued lookup of a map used as a set. -/
def has (m : GoMap α Bool) (k : α) : Bool := m.get false k

@[simp] theorem keys_ofList_singleton (k : α) (v : β) : (ofList [(k, v)]).keys = [k] := rfl

theorem entries_insert (m : GoMap α β) (k : α) (v : β) :
    (m.insert k v).entries = ⟨k, v⟩ :: m.entries.filter fun x => x.1 ≠ k := by
  obtain ⟨entries, hnodup⟩ := m
  rw [AList.entries_insert]
  congr 1
  induction entries with
  | nil => rfl
  | cons x entries ih =>
    obtain ⟨hx, hnodup⟩ := List.nodupKeys_cons.mp hnodup
    by_cases hk : k = x.1
    · have hfilter : ∀ y ∈ entries, decide (y.1 ≠ k) = true := by
        intro y hy
        rw [decide_eq_true_eq, hk]
        intro heq
        exact hx (heq ▸ List.mem_keys_of_mem hy)
      rw [List.kerase_cons_eq hk, List.filter_cons_of_neg (by simp [hk]),
        List.filter_eq_self.mpr hfilter]
    · rw [List.kerase_cons_ne hk, List.filter_cons_of_pos (by simp [Ne.symm hk]), ih hnodup]

theorem lookup_eq_some_iff {m : GoMap α β} {v : β} :
    m.lookup k = some v ↔ (⟨k, v⟩ : Σ _ : α, β) ∈ m.entries :=
  AList.mem_lookup_iff

theorem lookup_of_insert {m : GoMap α β} {k' : α} {v v' : β}
    (h : (m.insert k v).lookup k' = some v') : k' = k ∧ v' = v ∨ m.lookup k' = some v' := by
  by_cases hk : k' = k
  · subst hk
    rw [AList.lookup_insert] at h
    exact .inl ⟨rfl, (Option.some.inj h).symm⟩
  · rw [AList.lookup_insert_ne hk] at h
    exact .inr h

theorem lookup_of_erase {m : GoMap α β} {k' : α} {v : β} (h : (m.erase k).lookup k' = some v) :
    k' ≠ k ∧ m.lookup k' = some v := by
  by_cases hk : k' = k
  · subst hk
    rw [AList.lookup_erase] at h
    cases h
  · exact ⟨hk, (AList.lookup_erase_ne hk).symm.trans h⟩

theorem lookup_ofList_singleton_eq_some {k' : α} {v v' : β} :
    (ofList [(k, v)]).lookup k' = some v' ↔ k' = k ∧ v' = v := by
  rw [lookup_eq_some_iff]
  change _ ∈ [_] ↔ _
  simp

theorem mem_of_lookup_ofList {l : List (α × β)} {v : β} (h : (ofList l).lookup k = some v) :
    (k, v) ∈ l := by
  have hmem := List.of_mem_dlookup ((List.dlookup_dedupKeys k _).symm.trans h)
  obtain ⟨x, hx, heq⟩ := List.mem_map.mp hmem
  cases heq
  exact hx

theorem mem_keys_iff {m : GoMap α β} : k ∈ m.keys ↔ (m.lookup k).isSome = true := by
  rw [← AList.mem_keys, AList.lookup_isSome]

theorem lookup_foldl_insert {ι : Type} {l : List ι} {k : ι → α} {v : ι → β} {x : ι} (hx : x ∈ l)
    (hsame : ∀ y ∈ l, k y = k x → v y = v x) (m : GoMap α β) :
    (l.foldl (fun m y => m.insert (k y) (v y)) m).lookup (k x) = some (v x) := by
  induction l using List.reverseRecOn with
  | nil => cases hx
  | append_singleton l y ih =>
    rw [List.foldl_append, List.foldl_cons, List.foldl_nil]
    by_cases hy : k y = k x
    · rw [hy, AList.lookup_insert, hsame y (by simp) hy]
    · have hx : x ∈ l := by
        rcases List.mem_append.mp hx with hx | hx
        · exact hx
        · exact absurd (congrArg k (List.mem_singleton.mp hx)).symm hy
      rw [AList.lookup_insert_ne (Ne.symm hy)]
      exact ih hx fun z hz => hsame z (by simp [hz])

theorem size_insert_le (m : GoMap α β) (k : α) (v : β) : size (m.insert k v) ≤ m.size + 1 := by
  rw [size, size, AList.keys_insert, List.length_cons]
  exact Nat.add_le_add_right List.length_erase_le 1

theorem size_insert_of_isSome {m : GoMap α β} (h : (m.lookup k).isSome = true) (v : β) :
    size (m.insert k v) = m.size := by
  have hmem : k ∈ m.keys := mem_keys_iff.mpr h
  have hpos := List.length_pos_of_mem hmem
  rw [size, size, AList.keys_insert, List.length_cons, List.length_erase_of_mem hmem]
  omega

theorem size_insert_of_lookup_eq_none {m : GoMap α β} (h : m.lookup k = none) (v : β) :
    size (m.insert k v) = m.size + 1 := by
  have hmem : k ∉ m.keys := by
    rw [mem_keys_iff, h]
    simp
  rw [size, size, AList.keys_insert, List.length_cons, List.erase_of_not_mem hmem]

theorem size_erase_le (m : GoMap α β) (k : α) : size (m.erase k) ≤ m.size := by
  rw [size, size, AList.keys_erase]
  exact List.length_erase_le

theorem size_erase_lt {m : GoMap α β} (h : k ∈ m.keys) : size (m.erase k) < m.size := by
  have hpos := List.length_pos_of_mem h
  rw [size, size, AList.keys_erase, List.length_erase_of_mem h]
  omega

@[simp] theorem lookup_filterMap {γ : Type} (m : GoMap α β) (f : α → β → Option γ) (k : α) :
    (m.filterMap f).lookup k = (m.lookup k).bind (f k) := by
  refine Option.ext fun c => ?_
  rw [lookup_eq_some_iff, Option.bind_eq_some_iff]
  simp only [filterMap, mapEntry, List.mem_filterMap, lookup_eq_some_iff, Option.map_eq_some_iff]
  constructor
  · rintro ⟨⟨k', v⟩, hmem, c', hc', heq⟩
    cases heq
    exact ⟨v, hmem, hc'⟩
  · rintro ⟨v, hmem, hc⟩
    exact ⟨⟨k, v⟩, hmem, c, hc, rfl⟩

section

variable {ε γ : Type} {m : GoMap α β} {f : α → β → Except ε (Option γ)}

theorem isOk_traverse_iff :
    (m.traverse f).isOk = true ↔ ∀ k v, m.lookup k = some v → (f k v).isOk = true := by
  have hstep : ∀ x : Except ε (Option γ), errorOf x = none ↔ x.isOk = true := by
    intro x
    cases x <;> simp [errorOf, Except.isOk, Except.toBool]
  have hall : m.entries.findSome? (fun x => errorOf (f x.1 x.2)) = none ↔
      ∀ k v, m.lookup k = some v → (f k v).isOk = true := by
    simp only [List.findSome?_eq_none_iff, hstep, lookup_eq_some_iff]
    exact ⟨fun h k v hmem => h ⟨k, v⟩ hmem, fun h x hmem => h x.1 x.2 hmem⟩
  rw [← hall, traverse]
  cases m.entries.findSome? fun x => errorOf (f x.1 x.2) <;>
    simp [Except.isOk, Except.toBool]

theorem lookup_traverse {r : GoMap α γ} (h : m.traverse f = .ok r) (k : α) :
    r.lookup k = (m.lookup k).bind fun v => (f k v).toOption.join := by
  rw [traverse] at h
  split at h
  · cases h
  · cases h
    exact lookup_filterMap m _ k

end

end GoMap

end Veduta.Go
