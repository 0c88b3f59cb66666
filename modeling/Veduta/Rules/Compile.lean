import Veduta.Go.Duration
import Veduta.Rules.Evaluator

/-!
# Checking the references of a rule

Package `rules`, `Compile`: a visitor collects the calls of `signal` and `state` by name, with
literal arguments, and each is checked against the declared cards.  The evaluator offers both
functions in the environment, and an expression can call them without naming them in a call: through
`$env` or through a local name.  A reference is kept under a key that joins card and signal with a
zero byte, so a card's name with that byte is taken for another.

The parser and the type checker are the library's; a rule is given with its tree.
-/

namespace Veduta.Rules

open Go Lib State

variable {O Op ε : Type}

structure Reference where
  kind : RuleFunction
  card : Bytes
  name : Bytes

/-- Under which key a reference is kept. -/
def Reference.key (r : Reference) : Bytes :=
  match r.kind with
  | .signal => r.card ++ 0 :: r.name
  | .state => r.card

def Reference.arguments (r : Reference) : List (Value RuleFunction O) :=
  match r.kind with
  | .signal => [.str r.card, .str r.name]
  | .state => [.str r.card]

/-- The errors of the visitor. -/
def refusedCall (f : String) (want : String) (arguments : Bool) : Except Bytes Reference :=
  .error (ascii "rules: " ++ ascii f ++
    if arguments then ascii " arguments must be literal strings"
    else ascii " requires " ++ ascii want ++ ascii " literal string arguments")

/-- A call of a function by its name, with literal arguments. -/
def reference (f : RuleFunction) (args : List (Expr Op)) : Except Bytes Reference :=
  match f, args with
  | .signal, [.lit (.str card), .lit (.str name)] => .ok ⟨.signal, card, name⟩
  | .signal, args => refusedCall "signal" "2" (args.length = 2)
  | .state, [.lit (.str card)] => .ok ⟨.state, card, []⟩
  | .state, args => refusedCall "state" "1" (args.length = 1)

/-- **`references.Visit`**, at a call. -/
def visit : Expr Op → List (Expr Op) → List (Except Bytes Reference)
  | .ident f, args =>
    if f = ascii "signal" then [reference .signal args]
    else if f = ascii "state" then [reference .state args]
    else []
  | _, _ => []

mutual

/-- `ast.Walk` with the visitor. -/
def references : Expr Op → List (Except Bytes Reference)
  | .op _ args => referencesOf args
  | .and l r | .or l r | .coalesce l r | .letIn _ l r => references l ++ references r
  | .cond test yes no => references test ++ (references yes ++ references no)
  | .call callee args => references callee ++ (referencesOf args ++ visit callee args)
  | _ => []

def referencesOf : List (Expr Op) → List (Except Bytes Reference)
  | [] => []
  | e :: es => references e ++ referencesOf es

end

def splitReference (ref : Bytes) : Bytes × Bytes :=
  match ref.dropWhile (· ≠ 0) with
  | [] => (ref, [])
  | _ :: rest => (ref.takeWhile (· ≠ 0), rest)

/-- A rule of the configuration, with the tree of its `when`. -/
structure Rule (Op : Type) where
  id : Bytes
  program : Expr Op
  debounce : Bytes
  severity : Bytes
  notify : List Bytes
  resolve : Bool

variable (cards : GoMap Bytes CardDefinition)

def referenceKinds (program : Expr Op) : GoMap Bytes RuleFunction :=
  ((references program).filterMap Except.toOption).foldl (fun m r => m.insert r.key r.kind) ∅

/-- What is wrong with a reference. -/
def referenceError (x : Σ _ : Bytes, RuleFunction) : Option Bytes :=
  let (cardID, name) := splitReference x.1
  match cards.lookup cardID with
  | none => some (ascii "references unknown card " ++ quote cardID)
  | some card =>
    if x.2 = .signal ∧ card.signals.lookup name = none then
      some (ascii "signal " ++ quote name ++ ascii " is not declared by card " ++ quote cardID)
    else none

def hashOf (cardID : Bytes) : Bytes := ((cards.lookup cardID).map CardDefinition.hash).getD []

def cardHashes (program : Expr Op) : GoMap Bytes Bytes :=
  (referenceKinds program).entries.foldl
    (fun m x => m.insert (splitReference x.1).1 (hashOf cards (splitReference x.1).1)) ∅

def parseDebounce (value : Bytes) : Except Bytes ℤ :=
  if value = [] then .ok 0
  else
    match parseDuration value with
    | none => .error (ascii "invalid debounce duration")
    | some d => if d < 0 then .error (ascii "invalid debounce duration") else .ok d

def visitErrors (program : Expr Op) : List Bytes :=
  (references program).filterMap fun r =>
    match r with
    | .error e => some e
    | .ok _ => none

/-- **`Compile`**, with the library's compiler and the hash of a rule and the hashes of its cards.
Of several wrong references any may be reported. -/
def compile (typecheck : Expr Op → Except Bytes Unit) (hash : Rule Op → GoMap Bytes Bytes → Bytes)
    (rule : Rule Op) : Except Bytes (Definition (Expr Op)) :=
  let fail (text : Bytes) := .error (ascii "rule " ++ quote rule.id ++ ascii ": " ++ text)
  match (visitErrors rule.program).getLast?,
    (referenceKinds rule.program).entries.findSome? (referenceError cards) with
  | some e, _ => fail e
  | none, some e => fail e
  | none, none =>
    match typecheck rule.program, parseDebounce rule.debounce with
    | .error e, _ => fail e
    | .ok _, .error e => fail e
    | .ok _, .ok debounce =>
      .ok ⟨rule.id, hash rule (cardHashes cards rule.program), debounce,
        if rule.severity = [] then ascii "warning" else rule.severity, rule.notify, rule.resolve,
        rule.program⟩

variable {cards}

theorem compile_eq_ok {typecheck : Expr Op → Except Bytes Unit}
    {hash : Rule Op → GoMap Bytes Bytes → Bytes} {rule : Rule Op} {d : Definition (Expr Op)}
    (h : compile cards typecheck hash rule = .ok d) :
    visitErrors rule.program = [] ∧
      (∀ x ∈ (referenceKinds rule.program).entries, referenceError cards x = none) ∧
      d.program = rule.program ∧ d.hash = hash rule (cardHashes cards rule.program) := by
  rw [compile] at h
  split at h
  · cases h
  · cases h
  · rename_i herrors hchecked
    split at h
    · cases h
    · cases h
    · cases h
      exact ⟨List.getLast?_eq_none_iff.mp herrors, List.findSome?_eq_none_iff.mp hchecked, rfl, rfl⟩

/-! ## Calls that are made -/

mutual

/-- Every call is one of `signal` or `state` by name, which is not the name of a local value. -/
def Named (bound : List Bytes) : Expr Op → Prop
  | .lit _ | .ident _ | .env => True
  | .op _ args => NamedAll bound args
  | .and l r | .or l r | .coalesce l r => Named bound l ∧ Named bound r
  | .cond test yes no => Named bound test ∧ Named bound yes ∧ Named bound no
  | .letIn name value body => Named bound value ∧ Named (name :: bound) body
  | .call callee args =>
    (∃ f, callee = .ident f ∧ (f = ascii "signal" ∨ f = ascii "state") ∧ f ∉ bound) ∧
      NamedAll bound args

def NamedAll (bound : List Bytes) : List (Expr Op) → Prop
  | [] => True
  | e :: es => Named bound e ∧ NamedAll bound es

end

section

variable {lang : ExprLang O Op ε} {program e : Expr Op} {es : List (Expr Op)} {bound : List Bytes}
variable {f : RuleFunction} {vs : List (Value RuleFunction O)}

theorem named_of_mem (he : e ∈ es) (h : NamedAll bound es) : Named bound e := by
  induction es with
  | nil => cases he
  | cons x es ih =>
    rcases List.mem_cons.mp he with rfl | he
    · exact h.1
    · exact ih he h.2

theorem references_subset_of_mem (he : e ∈ es) : references e ⊆ referencesOf es := by
  induction es with
  | nil => cases he
  | cons x es ih =>
    rcases List.mem_cons.mp he with rfl | he
    · exact List.subset_append_left _ _
    · exact List.subset_append_of_subset_right _ (ih he)

/-- The call is one of the references of a rule. -/
def Referred (program : Expr Op) (c : RuleFunction × List (Value RuleFunction O)) : Prop :=
  ∃ r : Reference, .ok r ∈ references program ∧ c = (r.kind, r.arguments)

variable (snapshot : GoMap Bytes CardState) {scope : List (Bytes × Value RuleFunction O)}

theorem error_notMem_references (hok : visitErrors program = []) (e : Bytes) :
    .error e ∉ references program := by
  intro he
  have hmem : e ∈ visitErrors program := List.mem_filterMap.mpr ⟨_, he, rfl⟩
  rw [hok] at hmem
  cases hmem

theorem referred_visit {name : Bytes} (hf : (semantics snapshot cards lang).names name = some f)
    (hsub : visit (.ident name) es ⊆ references program) (hok : visitErrors program = [])
    (hvs : (evalArgs (semantics snapshot cards lang) scope es).2 = .ok vs) :
    Referred program (f, vs) := by
  have hvisit : visit (.ident name) es = [reference f es] := by
    simp only [semantics] at hf
    rw [visit]
    split_ifs at hf ⊢ <;> cases hf <;> rfl
  rw [hvisit, List.cons_subset] at hsub
  cases href : reference f es with
  | error e =>
    rw [href] at hsub
    exact absurd hsub.1 (error_notMem_references hok e)
  | ok r =>
    rw [href] at hsub
    refine ⟨r, hsub.1, ?_⟩
    unfold reference at href
    split at href <;> cases href <;> cases hvs <;> rfl

/-- **The calls that an expression makes are its references**, if it makes them by name. -/
theorem referred_of_reached (h : Reached (semantics snapshot cards lang) scope e f vs)
    (hscope : ∀ name ∉ bound, scope.lookup name = none) (hnamed : Named bound e)
    (hsub : references e ⊆ references program) (hok : visitErrors program = []) :
    Referred program (f, vs) := by
  induction h generalizing bound with
  | op hbefore h ih =>
    exact ih hscope (named_of_mem List.mem_append_cons_self hnamed)
      (List.Subset.trans (references_subset_of_mem List.mem_append_cons_self) hsub)
  | andLeft h ih | orLeft h ih | coalesceLeft h ih | test h ih | letValue h ih =>
    exact ih hscope hnamed.1 (List.append_subset.mp hsub).1
  | andRight hl h ih | orRight hl h ih | coalesceRight hl h ih =>
    exact ih hscope hnamed.2 (List.append_subset.mp hsub).2
  | yes htest h ih =>
    exact ih hscope hnamed.2.1 (List.append_subset.mp (List.append_subset.mp hsub).2).1
  | no htest h ih =>
    exact ih hscope hnamed.2.2 (List.append_subset.mp (List.append_subset.mp hsub).2).2
  | letBody hvalue h ih =>
    refine ih (fun name hname => ?_) hnamed.2 (List.append_subset.mp hsub).2
    rw [List.mem_cons, not_or] at hname
    rw [List.lookup_cons, beq_false_of_ne hname.1]
    exact hscope name hname.2
  | arg hbefore h ih =>
    obtain ⟨hargs, -⟩ := List.append_subset.mp (List.append_subset.mp hsub).2
    exact ih hscope (named_of_mem List.mem_append_cons_self hnamed.2)
      (List.Subset.trans (references_subset_of_mem List.mem_append_cons_self) hargs)
  | callee hargs h =>
    obtain ⟨⟨name, rfl, -⟩, -⟩ := hnamed
    cases h
  | call hargs hcallee =>
    obtain ⟨⟨name, rfl, hname, hbound⟩, -⟩ := hnamed
    obtain ⟨-, hvisit⟩ := List.append_subset.mp (List.append_subset.mp hsub).2
    refine referred_visit snapshot ?_ hvisit hok hargs
    rw [eval, resolve, hscope name hbound] at hcallee
    dsimp only at hcallee
    split at hcallee
    · cases hcallee
      assumption
    · cases hcallee

end

/-! ## What is covered -/

/-- The call names a declared card, and a signal that it declares, and the hash of the card is
among those that the hash of the rule covers. -/
def Covered (cards : GoMap Bytes CardDefinition) (hashes : GoMap Bytes Bytes)
    (c : RuleFunction × List (Value RuleFunction O)) : Prop :=
  ∃ (r : Reference) (card : CardDefinition), c = (r.kind, r.arguments) ∧
    cards.lookup r.card = some card ∧
    (r.kind = .signal → (card.signals.lookup r.name).isSome = true) ∧
    hashes.lookup r.card = some card.hash

theorem splitReference_key {r : Reference} (h : 0 ∉ r.card) :
    splitReference r.key = (r.card, if r.kind = .signal then r.name else []) := by
  have hne : ∀ b ∈ r.card, decide (b ≠ 0) = true := fun b hb =>
    decide_eq_true fun hzero => h (hzero ▸ hb)
  obtain ⟨kind, card, name⟩ := r
  cases kind with
  | signal =>
    have hdrop : (card ++ 0 :: name).dropWhile (· ≠ 0) = 0 :: name := by
      rw [List.dropWhile_append_of_pos hne]
      rfl
    have htake : (card ++ 0 :: name).takeWhile (· ≠ 0) = card := by
      rw [List.takeWhile_append_of_pos hne]
      simp
    simp only [splitReference, Reference.key, hdrop, htake]
    rfl
  | state =>
    have hdrop : card.dropWhile (· ≠ 0) = [] := List.dropWhile_eq_nil_iff.mpr hne
    simp only [splitReference, Reference.key, hdrop]
    rfl

theorem zero_mem_key (r : Reference) : 0 ∈ r.key ↔ r.kind = .signal ∨ 0 ∈ r.card := by
  obtain ⟨kind, card, name⟩ := r
  cases kind <;> simp [Reference.key]

/-- **The references of a rule are checked**, and so is every call that its evaluation makes, if
every call in it is one by name and no card is named with a zero byte. -/
theorem calls_covered_of_named {typecheck : Expr Op → Except Bytes Unit}
    {hash : Rule Op → GoMap Bytes Bytes → Bytes} {rule : Rule Op} {d : Definition (Expr Op)}
    (hcompile : compile cards typecheck hash rule = .ok d) (hnamed : Named [] rule.program)
    (hzero : ∀ r, .ok r ∈ references rule.program → 0 ∉ r.card) (lang : ExprLang O Op ε)
    (snapshot : GoMap Bytes CardState) :
    ∃ hashes, d.hash = hash rule hashes ∧
      ∀ c ∈ (eval (semantics snapshot cards lang) [] d.program).1, Covered cards hashes c := by
  obtain ⟨hok, hchecked, hprogram, hhash⟩ := compile_eq_ok hcompile
  refine ⟨_, hhash, ?_⟩
  rintro ⟨f, vs⟩ hc
  rw [hprogram] at hc
  obtain ⟨r, hr, hcall⟩ := referred_of_reached snapshot (mem_calls_iff.mp hc) (by simp) hnamed
    (List.Subset.refl _) hok
  rw [hcall]
  -- the reference is found under its key
  have hkey : (referenceKinds rule.program).lookup r.key = some r.kind := by
    refine GoMap.lookup_foldl_insert (k := Reference.key) (v := Reference.kind)
      (List.mem_filterMap.mpr ⟨_, hr, rfl⟩) (fun z hz heq => ?_) ∅
    obtain ⟨x, hx, hz⟩ := List.mem_filterMap.mp hz
    cases x with
    | error e => cases hz
    | ok z =>
      cases hz
      have hsame : z.kind = .signal ↔ r.kind = .signal := by
        have := zero_mem_key z
        rw [heq, zero_mem_key] at this
        simpa [hzero z hx, hzero r hr] using this.symm
      cases hkind : z.kind <;> cases hkind' : r.kind <;> simp_all
  have hmem := GoMap.lookup_eq_some_iff.mp hkey
  have herror := hchecked _ hmem
  have hsplit := splitReference_key (hzero r hr)
  rw [referenceError, hsplit] at herror
  dsimp only at herror
  split at herror
  · cases herror
  · rename_i card hcard
    refine ⟨r, card, rfl, hcard, fun hsignal => ?_, ?_⟩
    · refine Option.isSome_iff_ne_none.mpr fun hnone => ?_
      rw [if_pos hsignal, if_pos ⟨hsignal, hnone⟩] at herror
      cases herror
    · have hlookup := GoMap.lookup_foldl_insert (k := fun x : Σ _ : Bytes, RuleFunction =>
        (splitReference x.1).1) (v := fun x => hashOf cards (splitReference x.1).1) hmem
        (fun y _ heq => congrArg (hashOf cards) heq) ∅
      rw [hsplit] at hlookup
      rw [cardHashes, hlookup, hashOf, hcard, Option.map_some, Option.getD_some]

/-- A rule that asks for the state of a card, after a test. -/
def stateRule (test : Expr Op) (equal : Op) (callee : Expr Op) (card : Bytes) : Rule Op where
  id := ascii "r"
  program := .and test
    (.op equal [.call callee [.lit (.str card)], .lit (.str (ascii "pending"))])
  debounce := []
  severity := []
  notify := []
  resolve := false

/-- `$env == $env && state("web") == "pending"`. -/
def webRule : Rule Comparison :=
  stateRule (.op .equal [.env, .env]) .equal (.ident (ascii "state")) (ascii "web")

def webCards : GoMap Bytes CardDefinition := GoMap.ofList [(ascii "web", ⟨ascii "h", ∅⟩)]

theorem calls_covered_web :
    ∃ d hashes, compile webCards (fun _ => .ok ()) (fun _ hashes => hashes.get [] (ascii "web"))
        webRule = .ok d ∧
      d.hash = hashes.get [] (ascii "web") ∧
      (eval (semantics ∅ webCards comparisonLang) [] d.program).1 =
        [(.state, [.str (ascii "web")])] ∧
      ∀ c ∈ (eval (semantics ∅ webCards comparisonLang) [] d.program).1,
        Covered webCards hashes c := by
  obtain ⟨d, hcompile, hprogram⟩ : ∃ d, compile webCards (fun _ => .ok ())
      (fun _ hashes => hashes.get [] (ascii "web")) webRule = .ok d ∧ d.program = webRule.program :=
    ⟨_, rfl, rfl⟩
  obtain ⟨hashes, hhash, hcalls⟩ := calls_covered_of_named hcompile
    (by simp [webRule, stateRule, Named, NamedAll])
    (fun r hr => by
      cases List.mem_singleton.mp (show Except.ok r ∈ [.ok ⟨.state, ascii "web", []⟩] from hr)
      decide) comparisonLang ∅
  exact ⟨d, hashes, hcompile, hhash, by rw [hprogram]; decide +kernel, hcalls⟩

/-- An operator that compares, and the access to a member. -/
inductive Access where
  | equal
  | member

/-- The expression library as far as `$env.state` needs it. -/
def accessLang : ExprLang Empty Access Unit where
  apply
    | .equal, [a, b] => .ok (.bool (decide (a = b)))
    | .member, [.env, .str name] =>
      if name = ascii "state" then .ok (.fn .state) else .ok (.fn .signal)
    | _, _ => .error ()
  call _ _ := .error ()
  notBool _ := ()
  badArguments _ _ := ()

/-- `true && $env.state("nowhere") == "pending"` is accepted, and calls `state` on a card that is
not declared. -/
theorem env_call_unchecked :
    ∃ d, compile ∅ (fun _ => .ok ()) (fun _ _ => []) (stateRule (.lit (.bool true)) Access.equal
        (.op .member [.env, .lit (.str (ascii "state"))]) (ascii "nowhere")) = .ok d ∧
      (RuleFunction.state, [.str (ascii "nowhere")]) ∈
        (eval (semantics ∅ ∅ accessLang) [] d.program).1 ∧
      ∀ hashes, ¬ Covered (O := Empty) ∅ hashes (.state, [.str (ascii "nowhere")]) := by
  refine ⟨_, rfl, by decide +kernel, ?_⟩
  rintro hashes ⟨r, card, -, hcard, -⟩
  cases hcard

end Veduta.Rules
