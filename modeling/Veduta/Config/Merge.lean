import Veduta.Canonical.Load

/-!
# Configuration layers

Package `config`: the files of a configuration are merged as trees, later ones over earlier ones,
before anything is decoded.  The merge goes by the text of keys.  On string keys it is the deep
merge of what the files decode to; a number and a string of the same text are one key to it.
-/

namespace Veduta.Config

open Go
open Canonical (Node Scalar ScalarNode)

/-- What a table filled pair by pair holds for a key: a later pair replaces an earlier one. -/
def lookup {κ : Type} [DecidableEq κ] (key : Node → κ) : List (Node × Node) → κ → Option (Node × Node)
  | [], _ => none
  | p :: ps, k => (lookup key ps k).or (if key p.1 = k then some p else none)

def overrideByKey : List (Node × Node) → Bytes → Option (Node × Node) := lookup Node.text

mutual

/-- `merger.merge`: only mappings are merged key by key. -/
def merge : Node → Node → Node
  | .mapping base, .mapping above => .mapping (mergePairs base above ++
      above.filter fun p => !base.any fun q => q.1.text == p.1.text)
  | _, override => override

/-- The pairs of the base, in their order. -/
def mergePairs : List (Node × Node) → List (Node × Node) → List (Node × Node)
  | [], _ => []
  | (k, v) :: base, above =>
    (match overrideByKey above k.text with
      | some p => (p.1, merge v p.2)
      | none => (k, v)) :: mergePairs base above

end

def keyOf : Node → Option Scalar
  | .scalar s => s.decoded
  | _ => none

/-- A decoded document, by paths: nothing, a map, or another value as a whole. -/
abbrev View := List Scalar → Option (Option Node)

def view : Node → View
  | .mapping _, [] => some none
  | n, [] => some (some n)
  | .mapping ps, k :: p => (lookup keyOf ps (some k)).bind fun q => view q.2 p
  | _, _ :: _ => none

/-- **The deep merge**: maps key by key over the union of their keys, and otherwise the later
value as a whole. -/
def deepMerge (b o : View) : View
  | [] => (o []).or (b [])
  | k :: p =>
    match b [], o [] with
    | _, none => b (k :: p)
    | some none, some none => deepMerge (fun q => b (k :: q)) (fun q => o (k :: q)) p
    | _, _ => o (k :: p)

/-- The document has nothing at the path, and no value above it. -/
def Misses (o : View) (p : List Scalar) : Prop :=
  o p = none ∧ ∀ q v, q <+: p → o q ≠ some (some v)

/-- Only maps have anything below them. -/
def Branching (f : View) : Prop := ∀ q k p, f (q ++ k :: p) ≠ none → f q = some none

/-- A string that is no merge key. -/
def IsString (n : Node) : Prop :=
  ∃ s, n = .scalar s ∧ s.tag = .str ∧ s.decoded = some (.str s.text)

/-- No aliases, no merge keys, and different strings as the keys of every mapping. -/
inductive Keyed : Node → Prop where
  | scalar (s : ScalarNode) : Keyed (.scalar s)
  | sequence {ns : List Node} (h : ∀ n ∈ ns, Keyed n) : Keyed (.sequence ns)
  | mapping {ps : List (Node × Node)} (hkeys : ∀ p ∈ ps, IsString p.1)
      (hnodup : (ps.map fun p => p.1.text).Nodup) (h : ∀ p ∈ ps, Keyed p.2) : Keyed (.mapping ps)

section

variable {bs os ps : List (Node × Node)} {t : Bytes}

theorem lookup_eq_some {κ : Type} [DecidableEq κ] {key : Node → κ} {k : κ} {q : Node × Node}
    (h : lookup key ps k = some q) : q ∈ ps ∧ key q.1 = k := by
  induction ps with
  | nil => cases h
  | cons p ps ih =>
    rw [lookup, Option.or_eq_some_iff] at h
    rcases h with h | ⟨-, h⟩
    · exact ⟨List.mem_cons_of_mem _ (ih h).1, (ih h).2⟩
    · split_ifs at h with hp
      cases h
      exact ⟨List.mem_cons_self, hp⟩

theorem lookup_keyOf (h : ∀ p ∈ ps, IsString p.1) (k : Scalar) :
    lookup keyOf ps (some k) = (match k with | .str t => overrideByKey ps t | _ => none) := by
  induction ps with
  | nil => cases k <;> rfl
  | cons p ps ih =>
    obtain ⟨⟨s, hp, -, hs⟩, hps⟩ := List.forall_mem_cons.mp h
    rw [lookup, ih hps, hp, keyOf, hs]
    cases k with
    | str t => simp [overrideByKey, lookup, hp, Node.text]
    | _ => simp

theorem isSome_overrideByKey : (overrideByKey bs t).isSome = bs.any fun q => q.1.text == t := by
  induction bs with
  | nil => rfl
  | cons p bs ih =>
    rw [overrideByKey, lookup, Option.isSome_or, ← overrideByKey, ih, List.any_cons, Bool.or_comm]
    by_cases hp : p.1.text = t
    · simp [hp]
    · simp [hp]

theorem overrideByKey_filter (g : Bytes → Bool) :
    overrideByKey (os.filter fun p => g p.1.text) t = if g t then overrideByKey os t else none := by
  induction os with
  | nil => simp [overrideByKey, lookup]
  | cons p os ih =>
    rw [overrideByKey] at ih ⊢
    rw [List.filter_cons]
    by_cases hp : p.1.text = t
    · by_cases hg : g t = true
      · simp [lookup, ih, hp, hg]
      · simp [ih, hp, hg]
    · by_cases hg : g p.1.text = true
      · simp [lookup, ih, hp, hg]
      · simp [lookup, ih, hp, hg]

/-- What a pair of the base becomes. -/
def merged (os : List (Node × Node)) (p : Node × Node) : Node × Node :=
  match overrideByKey os p.1.text with
  | some q => (q.1, merge p.2 q.2)
  | none => p

theorem mergePairs_eq_map (bs os : List (Node × Node)) : mergePairs bs os = bs.map (merged os) := by
  induction bs with
  | nil => rfl
  | cons p bs ih => rw [mergePairs, ih, List.map_cons, merged]

theorem merged_cases (os : List (Node × Node)) (p : Node × Node) :
    overrideByKey os p.1.text = none ∧ merged os p = p ∨
      ∃ q ∈ os, q.1.text = p.1.text ∧ overrideByKey os p.1.text = some q ∧
        merged os p = (q.1, merge p.2 q.2) := by
  rw [merged]
  split
  · rename_i q hq
    obtain ⟨hmem, htext⟩ := lookup_eq_some hq
    exact .inr ⟨q, hmem, htext, hq, rfl⟩
  · exact .inl ⟨by assumption, rfl⟩

theorem text_merged (p : Node × Node) : (merged os p).1.text = p.1.text := by
  rcases merged_cases os p with ⟨-, h⟩ | ⟨q, -, htext, -, h⟩
  · rw [h]
  · rw [h, htext]

/-- **The pair of a key after the merge.** -/
theorem overrideByKey_merge :
    overrideByKey (mergePairs bs os ++ os.filter fun p => !bs.any fun q => q.1.text == p.1.text) t =
      ((overrideByKey bs t).map (merged os)).or (overrideByKey os t) := by
  have happend : ∀ l r, overrideByKey (l ++ r) t = (overrideByKey r t).or (overrideByKey l t) := by
    intro l r
    induction l with
    | nil => exact Option.or_none.symm
    | cons p l ih =>
      rw [overrideByKey] at ih ⊢
      rw [List.cons_append, lookup, ih, lookup, Option.or_assoc]
  have hmap : overrideByKey (bs.map (merged os)) t = (overrideByKey bs t).map (merged os) := by
    induction bs with
    | nil => rfl
    | cons p bs ih =>
      rw [overrideByKey] at ih ⊢
      rw [List.map_cons, lookup, lookup, ih, text_merged, Option.map_or]
      split_ifs <;> rfl
  rw [mergePairs_eq_map, happend, overrideByKey_filter fun t => !bs.any fun q => q.1.text == t,
    ← isSome_overrideByKey, hmap]
  cases overrideByKey bs t with
  | none | some => simp

end

variable {p : List Scalar} {v b o : Node}

theorem Keyed.merge (hb : Keyed b) (ho : Keyed o) : Keyed (merge b o) := by
  induction hb generalizing o with
  | scalar | sequence => simpa [Config.merge] using ho
  | @mapping bs hkeys hnodup h ih =>
    cases ho with
    | scalar s => exact .scalar s
    | sequence h => exact .sequence h
    | @mapping os hkeys' hnodup' h' =>
      rw [Config.merge, mergePairs_eq_map]
      have hpairs : ∀ p ∈ bs.map (merged os) ++ os.filter fun p =>
          !bs.any fun q => q.1.text == p.1.text, IsString p.1 ∧ Keyed p.2 := by
        intro p hp
        rcases List.mem_append.mp hp with hp | hp
        · obtain ⟨q, hq, rfl⟩ := List.mem_map.mp hp
          rcases merged_cases os q with ⟨-, heq⟩ | ⟨r, hr, -, -, heq⟩
          · rw [heq]
            exact ⟨hkeys q hq, h q hq⟩
          · rw [heq]
            exact ⟨hkeys' r hr, ih q hq (h' r hr)⟩
        · have hp := List.mem_of_mem_filter hp
          exact ⟨hkeys' p hp, h' p hp⟩
      refine .mapping (fun p hp => (hpairs p hp).1) ?_ fun p hp => (hpairs p hp).2
      rw [List.map_append, List.map_map, List.nodup_append]
      simp only [Function.comp_def, text_merged]
      refine ⟨hnodup, hnodup'.sublist (List.filter_sublist.map _), ?_⟩
      intro t ht t' ht' heq
      obtain ⟨q, hq, rfl⟩ := List.mem_map.mp ht
      obtain ⟨p, hp, rfl⟩ := List.mem_map.mp ht'
      have hnot := List.of_mem_filter hp
      simp only [Bool.not_eq_true', List.any_eq_false, beq_iff_eq] at hnot
      exact hnot q hq heq

theorem view_merge (hb : Keyed b) (ho : Keyed o) (p : List Scalar) :
    view (merge b o) p = deepMerge (view b) (view o) p := by
  induction p generalizing b o with
  | nil => cases hb <;> cases ho <;> rfl
  | cons k p ih =>
    have hmerge := hb.merge ho
    cases hb with
    | scalar | sequence => cases ho <;> rfl
    | @mapping bs hkeys hnodup h =>
      cases ho with
      | scalar | sequence => rfl
      | @mapping os hkeys' hnodup' h' =>
        rw [merge] at hmerge ⊢
        change (lookup keyOf _ _).bind _ =
          deepMerge (fun q => (lookup keyOf bs (some k)).bind fun v => view v.2 q)
            (fun q => (lookup keyOf os (some k)).bind fun v => view v.2 q) p
        cases hmerge with
        | mapping hkeys'' =>
        rw [lookup_keyOf hkeys'', lookup_keyOf hkeys, lookup_keyOf hkeys']
        cases k with
        | str t =>
          simp only [overrideByKey_merge]
          cases hv : overrideByKey bs t with
          | none =>
            rcases overrideByKey os t with _ | ⟨-, w⟩
            · cases p <;> rfl
            · cases w <;> cases p <;> rfl
          | some v =>
            obtain ⟨hmem, htext⟩ := lookup_eq_some hv
            rcases merged_cases os v with ⟨hw, heq⟩ | ⟨w, hw, -, hsome, heq⟩
            · rw [htext] at hw
              simp only [hw, heq, Option.map_some, Option.some_or, Option.bind_some]
              obtain ⟨-, v⟩ := v
              cases v <;> cases p <;> rfl
            · rw [htext] at hsome
              simp only [hsome, heq, Option.map_some, Option.some_or, Option.bind_some]
              exact ih (h v hmem) (h' w hw)
        | _ => cases p <;> rfl

theorem branching_view (n : Node) : Branching (view n) := by
  intro q
  induction q generalizing n with
  | nil =>
    intro k p h
    cases n with
    | mapping ps => rfl
    | _ => exact absurd rfl h
  | cons j q ih =>
    intro k p h
    cases n with
    | mapping ps =>
      change (lookup keyOf ps (some j)).bind (fun v => view v.2 (q ++ k :: p)) ≠ none at h
      change (lookup keyOf ps (some j)).bind (fun v => view v.2 q) = some none
      cases hv : lookup keyOf ps (some j) with
      | none => exact absurd (by rw [hv]; rfl) h
      | some v =>
        rw [hv] at h
        exact ih v.2 k p h
    | _ => exact absurd rfl h

theorem deepMerge_right {b o : View} (ho : Branching o) (h : o p = some (some v)) :
    deepMerge b o p = some (some v) := by
  induction p generalizing b o with
  | nil => rw [deepMerge, h, Option.some_or]
  | cons k p ih =>
    rw [deepMerge, ho [] k p (by simp [h])]
    rcases b [] with _ | _ | _
    · exact h
    · exact ih (fun q => ho (k :: q)) h
    · exact h

theorem deepMerge_left {b o : View} (hb : Branching b) (hv : b p = some (some v)) (h : Misses o p) :
    deepMerge b o p = some (some v) := by
  induction p generalizing b o with
  | nil => rw [deepMerge, h.1, Option.none_or, hv]
  | cons k p ih =>
    rw [deepMerge, hb [] k p (by simp [hv])]
    rcases ho : o [] with _ | _ | w
    · exact hv
    · exact ih (fun q => hb (k :: q)) hv
        ⟨h.1, fun q v hq => h.2 (k :: q) v (List.cons_prefix_cons.mpr ⟨rfl, hq⟩)⟩
    · exact absurd ho (h.2 [] w List.nil_prefix)

/-- A value stays under the files that have nothing at its path and no value above it. -/
theorem view_layers_of_misses {f : Node} {fs : List Node} (h : ∀ n ∈ f :: fs, Keyed n)
    (hv : view f p = some (some v)) (hmiss : ∀ n ∈ fs, Misses (view n) p) :
    view (fs.foldl merge f) p = some (some v) := by
  induction fs generalizing f with
  | nil => exact hv
  | cons g fs ih =>
    obtain ⟨hf, hg, hfs⟩ := by simpa only [List.forall_mem_cons] using h
    refine ih (List.forall_mem_cons.mpr ⟨hf.merge hg, hfs⟩) ?_ fun n hn => hmiss n (by simp [hn])
    rw [view_merge hf hg]
    exact deepMerge_left (branching_view f) hv (hmiss g (by simp))

/-- **Layers are deep-merged from left to right**, if all their keys are strings.  The result has no
duplicate keys either.  A value that a file sets, as the last one does, stays if no later file has
anything at its path or a value above it. -/
theorem merge_layers {f : Node} {fs : List Node} (h : ∀ n ∈ f :: fs, Keyed n) :
    Keyed (fs.foldl merge f) ∧
      view (fs.foldl merge f) = (fs.map view).foldl deepMerge (view f) ∧
      ∀ gs n hs p v, f :: fs = gs ++ n :: hs → view n p = some (some v) →
        (∀ m ∈ hs, Misses (view m) p) → view (fs.foldl merge f) p = some (some v) := by
  induction fs generalizing f with
  | nil =>
    refine ⟨h f (by simp), rfl, ?_⟩
    intro gs n hs p v heq hv hmiss
    obtain ⟨rfl, hl⟩ | ⟨g, -, hl⟩ := List.cons_eq_append_iff.mp heq
    · cases hl
      exact hv
    · cases g <;> cases hl
  | cons g fs ih =>
    obtain ⟨hf, hg, hfs⟩ := by simpa only [List.forall_mem_cons] using h
    obtain ⟨hkeyed, hview, hpath⟩ := ih (List.forall_mem_cons.mpr ⟨hf.merge hg, hfs⟩)
    have hstep : view (merge f g) = deepMerge (view f) (view g) := funext (view_merge hf hg)
    refine ⟨hkeyed, hview.trans (by rw [hstep]; rfl), ?_⟩
    intro gs n hs p v heq hv hmiss
    rcases gs with _ | ⟨f', _ | ⟨g', gs⟩⟩
    · cases heq
      exact view_layers_of_misses h hv hmiss
    · cases heq
      refine hpath [] (merge f g) fs p v rfl ?_ hmiss
      rw [hstep]
      exact deepMerge_right (branching_view g) hv
    · have htail : fs = gs ++ n :: hs := (List.cons.inj (List.cons.inj heq).2).2
      exact hpath (merge f g :: gs) n hs p v (congrArg _ htail) hv hmiss

/-- The file `a:` over a mapping with the one pair `key: value`. -/
def layer (key value : ScalarNode) : Node :=
  .mapping [(.scalar ⟨.str, [chr 'a'], some (.str [chr 'a'])⟩,
    .mapping [(.scalar key, .scalar value)])]

def stringNode (c : Char) : ScalarNode := ⟨.str, [chr c], some (.str [chr c])⟩

theorem keyed_layer (k v : Char) : Keyed (layer (stringNode k) (stringNode v)) := by
  refine .mapping (by simp [IsString]) (List.nodup_singleton _) ?_
  simp only [List.forall_mem_singleton]
  exact .mapping (by simp [IsString, stringNode]) (List.nodup_singleton _)
    (by simpa using Keyed.scalar _)

theorem merge_layers_strings :
    let f := layer (stringNode 'b') (stringNode 'x')
    let g := layer (stringNode 'b') (stringNode 'y')
    view (merge f g) [.str [chr 'a'], .str [chr 'b']] = some (some (.scalar (stringNode 'y'))) := by
  intro f g
  have h : ∀ n ∈ [f, g], Keyed n := by simp [f, g, keyed_layer]
  exact (merge_layers h).2.2 [f] g [] _ _ rfl rfl (by simp)

/-- The files `a: {1: x}` and `a: {"1": y}`: the number is a key of the first one, and the merge has
only the string. -/
theorem number_key_lost :
    let f := layer ⟨.int, [chr '1'], some (.int 1)⟩ (stringNode 'x')
    let g := layer (stringNode '1') (stringNode 'y')
    view (merge f g) [.str [chr 'a'], .int 1] = none ∧
      deepMerge (view f) (view g) [.str [chr 'a'], .int 1] = some (some (.scalar (stringNode 'x'))) :=
  ⟨rfl, rfl⟩

end Veduta.Config
