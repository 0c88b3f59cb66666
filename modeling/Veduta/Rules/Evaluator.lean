import Veduta.Lib.Expression
import Veduta.State.CardState

/-!
# Rule predicates

Package `rules`, for the evaluation of a compiled predicate over one snapshot of the cards.  A
predicate is an expression that can call `signal(card, name)` and `state(card)`.  A signal that
is stale, absent, null or not of its declared type does not make its call fail: the call
answers a zero value and the evaluation is marked unknown.

The expression language is a library; its strict operators and its errors are parameters.  It
skips operands as its documentation says: `&&`, `||`, `??` and `?:`.
-/

namespace Veduta.Rules

open Go Lib State Widgets

/-- The three-valued result of a predicate. -/
inductive Result where
  | resultTrue
  | resultFalse
  | resultUnknown
  deriving DecidableEq

/-- The card that a rule may refer to, with the types of its signals. -/
structure CardDefinition where
  hash : Bytes
  signals : GoMap Bytes Bytes

/-- A checked rule with its compiled predicate. -/
structure Definition (P : Type) where
  id : Bytes
  hash : Bytes
  debounce : ℤ
  severity : Bytes
  notify : List Bytes
  resolve : Bool
  program : P

/-- A result, and the declared signals that arrived with a wrong type. -/
structure Evaluation where
  result : Result
  wrongTypes : List Bytes
  deriving DecidableEq

/-- The functions of the environment. -/
inductive RuleFunction where
  | signal
  | state
  deriving DecidableEq

/-- What a call of `signal` answers, and what it marks. -/
structure Observation (O : Type) where
  value : Value RuleFunction O
  unknown : Bool
  wrongType : Bool

variable {O : Type}

def Observation.absent : Observation O := ⟨.num 0, true, false⟩

/-- The value of a signal against its declared type. -/
def checked (declaredType : Bytes) (v : JVal) : Observation O :=
  if declaredType = ascii "number" then
    match v with
    | .num q => ⟨.num q, false, false⟩
    | _ => ⟨.num 0, true, true⟩
  else if declaredType = ascii "string" then
    match v with
    | .str s => ⟨.str s, false, false⟩
    | _ => ⟨.str [], true, true⟩
  else if declaredType = ascii "boolean" then
    match v with
    | .bool b => ⟨.bool b, false, false⟩
    | _ => ⟨.bool false, true, true⟩
  else .absent

variable (cards : GoMap Bytes CardState) (declarations : GoMap Bytes CardDefinition)

/-- The declared type of a signal, empty if there is none. -/
def declaredType (cardID name : Bytes) : Bytes :=
  match declarations.lookup cardID with
  | some d => d.signals.get [] name
  | none => []

/-- The signal of a fresh document. -/
def currentSignal (cardID name : Bytes) : Option Signal := do
  let card ← cards.lookup cardID
  if card.execution.state ≠ stateOK then none
  else
    let doc ← card.document
    let signals ← doc.signals
    signals.lookup name

/-- The function `signal` of the environment. -/
def observe (cardID name : Bytes) : Observation O :=
  match currentSignal cards cardID name with
  | none => .absent
  | some s =>
    match s.value with
    | .null => .absent
    | v => checked (declaredType declarations cardID name) v

/-- The function `state` of the environment. -/
def stateOf (cardID : Bytes) : Bytes :=
  match cards.lookup cardID with
  | none => statePending
  | some card => card.execution.state

/-- What the expression library decides: its strict operators, calls of other values, and its
errors. -/
structure ExprLang (O Op ε : Type) where
  apply : Op → List (Value RuleFunction O) → Except ε (Value RuleFunction O)
  call : Value RuleFunction O → List (Value RuleFunction O) → Except ε (Value RuleFunction O)
  notBool : Value RuleFunction O → ε
  badArguments : RuleFunction → List (Value RuleFunction O) → ε

variable {Op ε : Type} (lang : ExprLang O Op ε)

/-- The environment of a predicate. -/
def semantics : Semantics RuleFunction O Op ε where
  names name :=
    if name = ascii "signal" then some .signal
    else if name = ascii "state" then some .state
    else none
  host f args :=
    match f, args with
    | .signal, [.str cardID, .str name] => .ok (observe cards declarations cardID name).value
    | .state, [.str cardID] => .ok (.str (stateOf cards cardID))
    | f, args => .error (lang.badArguments f args)
  apply := lang.apply
  call := lang.call
  notBool := lang.notBool

/-- The observation that a call made, if it is one of `signal`. -/
def observed : RuleFunction × List (Value RuleFunction O) → Option (Bytes × Bytes × Observation O)
  | (.signal, [.str cardID, .str name]) =>
    some (cardID, name, observe cards declarations cardID name)
  | _ => none

/-- A call marks the evaluation unknown. -/
def marksUnknown (c : RuleFunction × List (Value RuleFunction O)) : Bool :=
  match observed cards declarations c with
  | some (_, _, o) => o.unknown
  | none => false

/-- A call reports a signal of the wrong type. -/
def wrongTypeOf (c : RuleFunction × List (Value RuleFunction O)) : Option Bytes :=
  match observed cards declarations c with
  | some (cardID, name, o) => if o.wrongType then some (cardID ++ ascii "." ++ name) else none
  | none => none

inductive EvaluateError (ε : Type) where
  | run (e : ε)
  /-- `rules: predicate did not return bool`. -/
  | notBool
  deriving DecidableEq

/-- **The predicate over a snapshot**: what the calls marked comes before the output. -/
def evaluate (program : Expr Op) : Except (EvaluateError ε) Evaluation :=
  let r := eval (semantics cards declarations lang) [] program
  if r.1.any (marksUnknown cards declarations) then
    .ok ⟨.resultUnknown, r.1.filterMap (wrongTypeOf cards declarations)⟩
  else
    match r.2 with
    | .error e => .error (.run e)
    | .ok (.bool true) => .ok ⟨.resultTrue, []⟩
    | .ok (.bool false) => .ok ⟨.resultFalse, []⟩
    | .ok _ => .error .notBool

/-- The evaluation returns unknown. -/
def IsUnknown (r : Except (EvaluateError ε) Evaluation) : Prop :=
  ∃ wrongTypes, r = .ok ⟨.resultUnknown, wrongTypes⟩

/-! ## Calls of `signal` -/

/-- The literal arguments of a call of `signal`. -/
def signalArguments : Expr Op → List (Expr Op) → List (Bytes × Bytes)
  | .ident f, [.lit (.str cardID), .lit (.str name)] =>
    if f = ascii "signal" then [(cardID, name)] else []
  | _, _ => []

mutual

/-- The calls of `signal` that stand in a predicate. -/
def signalCalls : Expr Op → List (Bytes × Bytes)
  | .lit _ => []
  | .ident _ => []
  | .env => []
  | .op _ args => signalCallsOf args
  | .and l r => signalCalls l ++ signalCalls r
  | .or l r => signalCalls l ++ signalCalls r
  | .coalesce l r => signalCalls l ++ signalCalls r
  | .cond test yes no => signalCalls test ++ signalCalls yes ++ signalCalls no
  | .letIn _ value body => signalCalls value ++ signalCalls body
  | .call callee args =>
    signalCalls callee ++ signalCallsOf args ++ signalArguments callee args

def signalCallsOf : List (Expr Op) → List (Bytes × Bytes)
  | [] => []
  | e :: es => signalCalls e ++ signalCallsOf es

end

def IsOfType (declaredType : Bytes) : JVal → Prop
  | .num _ => declaredType = ascii "number"
  | .str _ => declaredType = ascii "string"
  | .bool _ => declaredType = ascii "boolean"
  | _ => False

/-- A signal of a fresh document, which is not null and of its declared type. -/
def Observable (cardID name : Bytes) : Prop :=
  ∃ card doc signals s, cards.lookup cardID = some card ∧ card.execution.state = stateOK ∧
    card.document = some doc ∧ doc.signals = some signals ∧ signals.lookup name = some s ∧
    IsOfType (declaredType declarations cardID name) s.value

variable {cards declarations lang}

theorem currentSignal_eq_some_iff {cardID name : Bytes} {s : Signal} :
    currentSignal cards cardID name = some s ↔ ∃ card doc signals,
      cards.lookup cardID = some card ∧ card.execution.state = stateOK ∧
      card.document = some doc ∧ doc.signals = some signals ∧ signals.lookup name = some s := by
  simp only [currentSignal, Option.bind_eq_bind, Option.bind_eq_some_iff]
  constructor
  · rintro ⟨card, hcard, h⟩
    split at h
    · cases h
    · rename_i hstate
      obtain ⟨doc, hdoc, h⟩ := Option.bind_eq_some_iff.mp h
      obtain ⟨signals, hsignals, h⟩ := Option.bind_eq_some_iff.mp h
      exact ⟨card, doc, signals, hcard, not_not.mp hstate, hdoc, hsignals, h⟩
  · rintro ⟨card, doc, signals, hcard, hstate, hdoc, hsignals, h⟩
    refine ⟨card, hcard, ?_⟩
    rw [if_neg (not_not.mpr hstate), hdoc, Option.bind_some, hsignals, Option.bind_some, h]

theorem unknown_checked {type : Bytes} {v : JVal} :
    (checked (O := O) type v).unknown = false ↔ IsOfType type v := by
  have hstring : ascii "string" ≠ ascii "number" := by decide
  have hboolean : ascii "boolean" ≠ ascii "number" := by decide
  have hboolean' : ascii "boolean" ≠ ascii "string" := by decide
  unfold checked
  split_ifs with hnum hstr hbool
  · cases v <;> simp [IsOfType, hnum, hstring.symm, hboolean.symm]
  · cases v <;> simp [IsOfType, hstr, hstring, hboolean'.symm]
  · cases v <;> simp [IsOfType, hbool, hboolean, hboolean']
  · cases v <;> simp [IsOfType, hnum, hstr, hbool, Observation.absent]

theorem unknown_observe {cardID name : Bytes} :
    (observe (O := O) cards declarations cardID name).unknown = true ↔
      ¬Observable cards declarations cardID name := by
  rw [← Bool.not_eq_false, not_iff_not, observe]
  cases hsignal : currentSignal cards cardID name with
  | none =>
    refine iff_of_false (by simp [Observation.absent]) ?_
    rintro ⟨card, doc, signals, s, hcard, hstate, hdoc, hsignals, hs, -⟩
    have := currentSignal_eq_some_iff.mpr ⟨card, doc, signals, hcard, hstate, hdoc, hsignals, hs⟩
    rw [hsignal] at this
    cases this
  | some s =>
    obtain ⟨card, doc, signals, hcard, hstate, hdoc, hsignals, hs⟩ :=
      currentSignal_eq_some_iff.mp hsignal
    have hobservable : Observable cards declarations cardID name ↔
        IsOfType (declaredType declarations cardID name) s.value := by
      constructor
      · rintro ⟨card', doc', signals', s', hcard', hstate', hdoc', hsignals', hs', htype⟩
        have := currentSignal_eq_some_iff.mpr
          ⟨card', doc', signals', hcard', hstate', hdoc', hsignals', hs'⟩
        rw [hsignal] at this
        cases this
        exact htype
      · intro htype
        exact ⟨card, doc, signals, s, hcard, hstate, hdoc, hsignals, hs, htype⟩
    rw [hobservable]
    dsimp only
    split
    · rename_i hnull
      rw [hnull]
      exact iff_of_false (by simp [Observation.absent]) id
    · exact unknown_checked

theorem marksUnknown_iff {c : RuleFunction × List (Value RuleFunction O)} :
    marksUnknown cards declarations c = true ↔ ∃ cardID name,
      c = (.signal, [.str cardID, .str name]) ∧ ¬Observable cards declarations cardID name := by
  constructor
  · intro h
    unfold marksUnknown observed at h
    split at h
    · rename_i hobserved
      split at hobserved
      · cases hobserved
        exact ⟨_, _, rfl, unknown_observe.mp h⟩
      · cases hobserved
    · cases h
  · rintro ⟨cardID, name, rfl, h⟩
    exact unknown_observe.mpr h

/-- **Unknown is what reaches a signal that cannot be observed.** -/
theorem isUnknown_evaluate_iff {program : Expr Op} :
    IsUnknown (evaluate cards declarations lang program) ↔ ∃ cardID name,
      Reached (semantics cards declarations lang) [] program .signal
        [.str cardID, .str name] ∧ ¬Observable cards declarations cardID name := by
  have hany : (eval (semantics cards declarations lang) [] program).1.any
      (marksUnknown cards declarations) = true ↔ ∃ cardID name,
      Reached (semantics cards declarations lang) [] program .signal
        [.str cardID, .str name] ∧ ¬Observable cards declarations cardID name := by
    rw [List.any_eq_true]
    constructor
    · rintro ⟨c, hc, hmarks⟩
      obtain ⟨cardID, name, rfl, hbad⟩ := marksUnknown_iff.mp hmarks
      exact ⟨cardID, name, mem_calls_iff.mp hc, hbad⟩
    · rintro ⟨cardID, name, hreached, hbad⟩
      exact ⟨_, mem_calls_iff.mpr hreached, marksUnknown_iff.mpr ⟨cardID, name, rfl, hbad⟩⟩
  rw [← hany, evaluate]
  by_cases h : (eval (semantics cards declarations lang) [] program).1.any
      (marksUnknown cards declarations) = true
  · rw [if_pos h]
    exact iff_of_true ⟨_, rfl⟩ h
  · rw [if_neg h]
    refine iff_of_false ?_ h
    rintro ⟨wrongTypes, hresult⟩
    split at hresult <;> cases hresult

/-- **When unknown is contagious.**  A predicate that holds a call of `signal` which cannot be
observed is unknown exactly if such a call is reached: no operand that holds it is skipped, and
nothing before it fails. -/
theorem unknown_contagious_iff (lang : ExprLang O Op ε) (cards : GoMap Bytes CardState)
    (declarations : GoMap Bytes CardDefinition) (program : Expr Op) :
    ((∃ x ∈ signalCalls program, ¬Observable cards declarations x.1 x.2) →
      IsUnknown (evaluate cards declarations lang program)) ↔
    ((∃ x ∈ signalCalls program, ¬Observable cards declarations x.1 x.2) →
      ∃ cardID name, Reached (semantics cards declarations lang) [] program .signal
        [.str cardID, .str name] ∧ ¬Observable cards declarations cardID name) :=
  imp_congr_right fun _ => isUnknown_evaluate_iff

/-- The comparisons of a small predicate. -/
inductive Comparison where
  | equal
  | greater

/-- The expression library as far as a small predicate needs it. -/
def comparisonLang : ExprLang Empty Comparison Unit where
  apply
    | .equal, [a, b] => .ok (.bool (decide (a = b)))
    | .greater, [.num a, .num b] => .ok (.bool (decide (b < a)))
    | _, _ => .error ()
  call _ _ := .error ()
  notBool _ := ()
  badArguments _ _ := ()

/-- `state("web") == "error" || signal("disk", "used") > 90`. -/
def webOrDisk : Expr Comparison :=
  .or (.op .equal [.call (.ident (ascii "state")) [.lit (.str (ascii "web"))],
      .lit (.str (ascii "error"))])
    (.op .greater [.call (.ident (ascii "signal"))
      [.lit (.str (ascii "disk")), .lit (.str (ascii "used"))], .lit (.num 90)])

/-- A card that has not been refreshed beside one whose refresh failed. -/
def failedWeb : GoMap Bytes CardState :=
  GoMap.ofList [(ascii "web", ⟨ascii "web", none, .of stateError, none⟩),
    (ascii "disk", pending (ascii "disk"))]

/-- The left operand is true, the signal of the right one is absent, and the predicate is true. -/
theorem absent_signal_skipped :
    (ascii "disk", ascii "used") ∈ signalCalls webOrDisk ∧
      ¬Observable failedWeb ∅ (ascii "disk") (ascii "used") ∧
      evaluate failedWeb ∅ comparisonLang webOrDisk = .ok ⟨.resultTrue, []⟩ := by
  refine ⟨by decide +kernel, ?_, by decide +kernel⟩
  refine unknown_observe (O := Empty).mp ?_
  decide +kernel

end Veduta.Rules
