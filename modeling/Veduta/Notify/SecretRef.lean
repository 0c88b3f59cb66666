import Veduta.Config.Template
import Veduta.Connections.Build

/-!
# Secrets in the place of their names

Packages `connections` and `notify` each have a `resolveRef`.  Both go through the names of a text
one after the other; the first replaces the first match of a name and the second every match, each
in the text that the one before left.  A value that holds a reference, or completes one, is taken
for a part of the text.
-/

namespace Veduta.Notify

open Go Config SecretRef

/-- The names of a template are replaced one after the other, each everywhere. -/
def composeAll (resolved : GoMap Bytes Bytes) : Bytes → List Bytes → Option Bytes
  | value, [] => some value
  | value, name :: names =>
    match resolved.lookup name with
    | none => none
    | some secret => composeAll resolved (replaceAll value (placeholder name) secret) names

/-- **`resolveRef`**, with `none` for a secret that is not resolved. -/
def resolveRef (ref : SecretRef) (resolved : GoMap Bytes Bytes) : Option Bytes :=
  if ref.name ≠ [] then resolved.lookup ref.name
  else if ref.template ≠ [] then composeAll resolved ref.template ref.names
  else some ref.literal

/-- Both packages resolve a text to what it is with its references replaced. -/
def Simultaneous (resolved : GoMap Bytes Bytes) (s : Bytes) : Prop :=
  (∀ id field, Connections.resolveRef id field (.ofScalar s) resolved =
    .ok (substitute resolved s)) ∧
  resolveRef (.ofScalar s) resolved = some (substitute resolved s)

/-- A name with its value if it is among those that are done. -/
def mixed (resolved : GoMap Bytes Bytes) (done : List Bytes) (name : Bytes) : Bytes :=
  if name ∈ done then resolved.get [] name else placeholder name

/-- **Each name is found where the text has it**, in the order of the names: before a reference,
with those before it replaced, there is none to the same name; and with every reference to the
names before it replaced, a name is left as often as the text has it.  A secret that is its own
reference is not told from it. -/
@[mk_iff] structure InOrder (resolved : GoMap Bytes Bytes) (s : Bytes) : Prop where
  first : ∀ i < s.length, ∀ found ∈ referenceAt (s.drop i),
    contains (substitute resolved (s.take i)) (placeholder found.1) = true →
      resolved.lookup found.1 = some (placeholder found.1)
  every : ∀ k < (occurrences s).length, ∀ name ∈ (occurrences s)[k]?,
    (occurrences (expand (mixed resolved ((occurrences s).take k)) s)).count name =
        ((occurrences s).filter (· ∉ (occurrences s).take k)).count name ∨
      resolved.lookup name = some (placeholder name)

instance (resolved : GoMap Bytes Bytes) (s : Bytes) : Decidable (InOrder resolved s) :=
  decidable_of_iff' _ (inOrder_iff resolved s)

section

variable {resolved : GoMap Bytes Bytes} {s name : Bytes}

theorem noMatch_placeholder {other : Bytes} (rest : Bytes) (hname : IsName name)
    (hother : IsName other) (hne : name ≠ other) :
    NoMatch (placeholder name) (placeholder other) rest := by
  apply noMatch_of_forall
  intro a b c heq hmatch
  cases a with
  | nil =>
    obtain ⟨r, hr⟩ := hmatch
    rw [List.nil_append] at heq
    rw [← List.cons_append, ← heq] at hr
    have href := referenceAt_placeholder hname r
    rw [hr, referenceAt_placeholder hother] at href
    exact hne (Prod.mk.inj (Option.some.inj href)).1.symm
  | cons d a =>
    rw [placeholder_eq, List.cons_append] at heq
    rw [placeholder_eq] at hmatch
    obtain ⟨rfl, -⟩ := List.cons_prefix_cons.mp hmatch
    refine dollar_notMem_placeholderTail hother ?_
    rw [(List.cons.inj heq).2]
    simp

/-! ## Every match -/

theorem count_occurrences_append_le (name c t : Bytes) :
    (occurrences t).count name ≤ (occurrences (c ++ t)).count name := by
  induction c with
  | nil => exact le_rfl
  | cons b c ih =>
    rw [List.cons_append, occurrences_cons, List.count_append]
    omega

theorem noMatch_of_count {c t : Bytes} (hname : IsName name)
    (h : (occurrences (c ++ t)).count name ≤ (occurrences t).count name) :
    NoMatch (placeholder name) c t := by
  induction c with
  | nil => exact noMatch_nil _ _
  | cons b c ih =>
    have hle := count_occurrences_append_le name c t
    rw [List.cons_append, occurrences_cons, List.count_append] at h
    refine noMatch_cons (fun hmatch => ?_) (ih (by omega))
    obtain ⟨r, hr⟩ := hmatch
    rw [← hr, referenceAt_placeholder hname] at h
    simp only [Option.map_some, Option.toList_some, List.count_singleton_self] at h
    omega

theorem count_filter_le (done : List Bytes) :
    ((occurrences s).filter (· ∉ done)).count name ≤
      (occurrences (expand (mixed resolved done) s)).count name := by
  induction s using reference_induction with
  | hnil => exact le_rfl
  | hbyte b s hat ih =>
    rw [occurrences_cons, hat, expand_byte _ hat]
    exact ih.trans (count_occurrences_append_le name [b] _)
  | href n s hn ih =>
    rw [occurrences_placeholder hn, expand_placeholder _ hn]
    by_cases hdone : n ∈ done
    · rw [List.filter_cons_of_neg (by simpa using hdone)]
      exact ih.trans (count_occurrences_append_le name _ _)
    · rw [List.filter_cons_of_pos (by simpa using hdone), mixed, if_neg hdone,
        occurrences_placeholder hn, List.count_cons, List.count_cons]
      omega

theorem replaceAll_mixed {done : List Bytes} (hname : IsName name)
    (h : (occurrences (expand (mixed resolved done) s)).count name ≤
      ((occurrences s).filter (· ∉ done)).count name) :
    replaceAll (expand (mixed resolved done) s) (placeholder name) (resolved.get [] name) =
      expand (mixed resolved (done ++ [name])) s := by
  induction s using reference_induction with
  | hnil => rfl
  | hbyte b s hat ih =>
    have hleft := @count_filter_le resolved s name done
    rw [occurrences_cons, hat, expand_byte _ hat, ← List.singleton_append] at h
    have hrest := h.trans hleft
    have hless := (count_occurrences_append_le name [b] _).trans h
    rw [expand_byte _ hat, expand_byte _ hat, ← List.singleton_append,
      replaceAll_append (noMatch_of_count hname hrest), ih hless, List.singleton_append]
  | href n s hn ih =>
    rw [occurrences_placeholder hn, expand_placeholder _ hn] at h
    rw [expand_placeholder _ hn, expand_placeholder _ hn]
    by_cases hdone : n ∈ done
    · rw [List.filter_cons_of_neg (by simpa using hdone)] at h
      have hrest := h.trans (@count_filter_le resolved s name done)
      rw [replaceAll_append (noMatch_of_count hname hrest),
        ih ((count_occurrences_append_le name _ _).trans h), mixed, mixed, if_pos hdone,
        if_pos (List.mem_append_left _ hdone)]
    · rw [List.filter_cons_of_pos (by simpa using hdone), mixed, if_neg hdone,
        occurrences_placeholder hn, List.count_cons, List.count_cons, Nat.add_le_add_iff_right] at h
      rw [← ih h, mixed, mixed, if_neg hdone]
      by_cases heq : n = name
      · rw [heq, if_pos (by simp), replaceAll_match (placeholder_ne_nil name)]
      · rw [if_neg (by simp [heq, hdone]),
          replaceAll_append (noMatch_placeholder _ hname hn (Ne.symm heq))]

/-- **Every match of each name is replaced** where it was written. -/
theorem composeAll_mixed {done todo : List Bytes} (hnames : occurrences s = done ++ todo)
    (hresolves : Connections.Resolves resolved todo) (h : InOrder resolved s) :
    composeAll resolved (expand (mixed resolved done) s) todo =
      some (expand (mixed resolved (done ++ todo)) s) := by
  induction todo generalizing done with
  | nil => rw [List.append_nil, composeAll]
  | cons n todo ih =>
    obtain ⟨v, hv⟩ := Option.isSome_iff_exists.mp (hresolves n List.mem_cons_self)
    have hget : resolved.get [] n = v := by rw [GoMap.get, hv, Option.getD_some]
    have hname : IsName n := isName_of_mem_occurrences (by rw [hnames]; simp)
    have hstep : replaceAll (expand (mixed resolved done) s) (placeholder n) v =
        expand (mixed resolved (done ++ [n])) s := by
      have horder := h.every done.length (by simp [hnames]) n (by simp [hnames])
      rw [hnames, List.take_left, ← hnames] at horder
      rcases horder with hcount | hself
      · rw [← hget]
        exact replaceAll_mixed hname hcount.le
      · rw [hv, Option.some_inj] at hself
        rw [hself, replaceAll_self (placeholder_ne_nil n)]
        refine expand_congr _ fun m _ => ?_
        by_cases hm : m = n
        · simp [mixed, hm, hget, hself]
        · simp [mixed, hm]
    rw [List.append_cons] at hnames ⊢
    rw [composeAll, hv]
    dsimp only
    rw [hstep, ih hnames fun m hm => hresolves m (List.mem_cons_of_mem _ hm)]

/-! ## The first match -/

theorem prefix_of_notMem {w c t : Bytes} {d : UInt8} (h : w <+: c ++ d :: t) (hd : d ∉ w) :
    w <+: c := by
  rcases List.prefix_or_prefix_of_prefix h (List.prefix_append c _) with hw | hc
  · exact hw
  · obtain ⟨w', rfl⟩ := hc
    rw [List.prefix_append_right_inj] at h
    cases w' with
    | nil => simp
    | cons e w' =>
      obtain ⟨rfl, -⟩ := List.cons_prefix_cons.mp h
      simp at hd

/-- A match ends before the dollar of the next reference. -/
theorem noMatch_of_not_part {c : Bytes} (other t : Bytes) (hname : IsName name)
    (h : ¬ placeholder name <:+: c) : NoMatch (placeholder name) c (placeholder other ++ t) := by
  apply noMatch_of_forall
  rintro a b c rfl hmatch
  rw [placeholder_eq] at hmatch h
  obtain ⟨rfl, htail⟩ := List.cons_prefix_cons.mp hmatch
  have hin := prefix_of_notMem htail (dollar_notMem_placeholderTail hname)
  exact h ((List.cons_prefix_cons.mpr ⟨rfl, hin⟩).isInfix.trans (List.suffix_append a _).isInfix)

theorem referenceAt_of_append {b : UInt8} {a t : Bytes}
    (h : referenceAt (b :: (a ++ t)) = none) : referenceAt (b :: a) = none := by
  cases hat : referenceAt (b :: a) with
  | none => rfl
  | some found =>
    obtain ⟨hname, heq⟩ := (@referenceAt_eq_some_iff _ found.1 found.2).mp hat
    rw [← List.cons_append, heq, List.append_assoc, referenceAt_placeholder hname] at h
    cases h

/-- **The first match of each name is replaced** where it was written. -/
theorem compose_eq {id field text : Bytes}
    (hresolves : Connections.Resolves resolved (occurrences s))
    (h : ∀ i < s.length, ∀ found ∈ referenceAt (s.drop i),
      contains (text ++ substitute resolved (s.take i)) (placeholder found.1) = true →
        resolved.lookup found.1 = some (placeholder found.1)) :
    Connections.compose id field resolved (text ++ s) (occurrences s) =
      .ok (text ++ substitute resolved s) := by
  simp only [substitute] at h ⊢
  induction s using reference_induction generalizing text with
  | hnil => rfl
  | hbyte b s hat ih =>
    rw [occurrences_cons, hat] at hresolves ⊢
    rw [expand_byte _ hat, List.append_cons text b s, List.append_cons text b (expand _ s)]
    refine ih hresolves fun i hi found hfound hin => ?_
    refine h (i + 1) (Nat.succ_lt_succ hi) found hfound ?_
    rw [← List.take_append_drop i s] at hat
    rwa [List.take_succ_cons, expand_byte _ (referenceAt_of_append hat), List.append_cons]
  | href n s hn ih =>
    have hlength := List.length_pos_iff.mpr (placeholder_ne_nil n)
    rw [occurrences_placeholder hn] at hresolves ⊢
    obtain ⟨v, hv⟩ := Option.isSome_iff_exists.mp (hresolves n List.mem_cons_self)
    have hget : resolved.get [] n = v := by rw [GoMap.get, hv, Option.getD_some]
    have hstep : replaceFirst (text ++ (placeholder n ++ s)) (placeholder n) v =
        text ++ v ++ s := by
      rw [List.append_assoc]
      by_cases hin : placeholder n <:+: text
      · have hself := h 0 (by rw [List.length_append]; omega) _ (referenceAt_placeholder hn s)
          (by rwa [List.take_zero, expand_nil, List.append_nil, contains_iff])
        rw [hv, Option.some_inj] at hself
        rw [hself, replaceFirst_self]
      · exact replaceFirst_append (noMatch_of_not_part n s hn hin)
    rw [expand_placeholder _ hn, hget, Connections.compose, hv]
    dsimp only
    rw [hstep, ← List.append_assoc]
    refine ih (fun m hm => hresolves m (List.mem_cons_of_mem _ hm)) fun i hi found hfound hin => ?_
    refine h ((placeholder n).length + i) (by rw [List.length_append]; omega) found ?_ ?_
    · rwa [List.drop_length_add_append]
    · rwa [List.take_length_add_append, expand_placeholder _ hn, hget, ← List.append_assoc]

end

/-- **A text in which each name is found where it was written is substituted at once**, by both
packages. -/
theorem simultaneous_of_inOrder {resolved : GoMap Bytes Bytes} {s : Bytes}
    (hresolves : Connections.Resolves resolved (occurrences s)) (h : InOrder resolved s) :
    Simultaneous resolved s := by
  have hfirst := fun id field => @compose_eq resolved s id field [] hresolves h.first
  have hall := @composeAll_mixed resolved s [] (occurrences s) rfl hresolves h
  have hstart : expand (mixed resolved []) s = s := expand_self s
  have hend : expand (mixed resolved (occurrences s)) s = substitute resolved s :=
    expand_congr _ fun n hn => if_pos hn
  rw [hstart, List.nil_append, hend] at hall
  rw [Simultaneous, ofScalar]
  split
  · -- the text is one reference
    rename_i name hat
    obtain ⟨hname, rfl⟩ := referenceAt_eq_some_iff.mp hat
    obtain ⟨v, hv⟩ := Option.isSome_iff_exists.mp
      (hresolves name (by rw [occurrences_placeholder hname]; exact List.mem_cons_self))
    have hvalue : substitute resolved (placeholder name ++ []) = v := by
      rw [substitute, expand_placeholder _ hname, expand_nil, List.append_nil, GoMap.get, hv,
        Option.getD_some]
    rw [hvalue]
    have hne := hname.1
    refine ⟨fun id field => ?_, ?_⟩
    · simp [Connections.resolveRef, SecretRef.isSecret, hne, hv]
    · simp [resolveRef, hne, hv]
  · by_cases hnames : occurrences s = []
    · rw [hnames] at hfirst
      have hsame : s = substitute resolved s := Except.ok.inj (hfirst [] [])
      rw [← hsame, if_neg (not_not.mpr hnames)]
      exact ⟨fun id field => rfl, rfl⟩
    · have hs : s ≠ [] := by
        rintro rfl
        exact hnames rfl
      rw [if_pos hnames]
      refine ⟨fun id field => ?_, ?_⟩
      · simpa [Connections.resolveRef, SecretRef.isSecret, hnames, hs] using hfirst id field
      · simpa [resolveRef, hs] using hall

/-- A user and a password. -/
def loginSecrets (user pass : Bytes) : GoMap Bytes Bytes :=
  GoMap.ofList [(ascii "USER", user), (ascii "PASS", pass)]

/-- The user and the password with a colon between them. -/
def loginText : Bytes := placeholder (ascii "USER") ++ ascii ":" ++ placeholder (ascii "PASS")

/-- A password that is a reference to the user comes too late to be replaced. -/
theorem simultaneous_login :
    Simultaneous (loginSecrets (ascii "admin") (placeholder (ascii "USER"))) loginText := by
  apply simultaneous_of_inOrder <;> decide +kernel

/-- A user that is a reference to the password is replaced in its place, or as well. -/
theorem user_taken_for_reference :
    let resolved := loginSecrets (placeholder (ascii "PASS")) (ascii "pw")
    Connections.Resolves resolved (occurrences loginText) ∧
    substitute resolved loginText = placeholder (ascii "PASS") ++ ascii ":pw" ∧
    Connections.resolveRef [] [] (.ofScalar loginText) resolved =
      .ok (ascii "pw:" ++ placeholder (ascii "PASS")) ∧
    resolveRef (.ofScalar loginText) resolved = some (ascii "pw:pw") ∧
    ¬ Simultaneous resolved loginText := by
  intro resolved
  have hnotify : resolveRef (.ofScalar loginText) resolved = some (ascii "pw:pw") := by
    decide +kernel
  refine ⟨by decide +kernel, by decide +kernel, by rfl, hnotify, fun h => ?_⟩
  have heq := h.2
  rw [hnotify] at heq
  revert heq
  decide +kernel

end Veduta.Notify
