import Mathlib.Data.Rat.Defs
import Veduta.Go.Strings

/-!
# Expressions that call host functions

An expression language with operators that evaluate all of their operands in order, the
operators that may skip one (`and`, `or`, `coalesce`, the conditional), local names and calls.
The functions it can call belong to the host, which answers a call and may keep a record of it:
evaluation yields the calls in the order in which they are made, up to a run-time error.
Operators, values beyond the scalars, and errors are parameters.
-/

namespace Veduta.Lib

open Go

inductive Literal where
  | nil
  | bool (b : Bool)
  | num (q : ℚ)
  | str (s : Bytes)
  deriving DecidableEq

/-- A value: a scalar, a function of the host, the environment itself, or something else. -/
inductive Value (F O : Type) where
  | nil
  | bool (b : Bool)
  | num (q : ℚ)
  | str (s : Bytes)
  | fn (f : F)
  | env
  | other (o : O)
  deriving DecidableEq

def Literal.value {F O : Type} : Literal → Value F O
  | .nil => .nil
  | .bool b => .bool b
  | .num q => .num q
  | .str s => .str s

/-- An expression over a type of strict operators. -/
inductive Expr (Op : Type) where
  | lit (l : Literal)
  | ident (name : Bytes)
  | env
  /-- An operator that evaluates its operands from left to right. -/
  | op (o : Op) (args : List (Expr Op))
  | and (l r : Expr Op)
  | or (l r : Expr Op)
  /-- The right operand stands in for a left one that is nil. -/
  | coalesce (l r : Expr Op)
  | cond (test yes no : Expr Op)
  | letIn (name : Bytes) (value body : Expr Op)
  | call (callee : Expr Op) (args : List (Expr Op))

/-- What the parameters of the language mean. -/
structure Semantics (F O Op ε : Type) where
  /-- The functions of the environment. -/
  names : Bytes → Option F
  /-- What a function of the host answers. -/
  host : F → List (Value F O) → Except ε (Value F O)
  /-- The strict operators. -/
  apply : Op → List (Value F O) → Except ε (Value F O)
  /-- Calling what is not a function of the host. -/
  call : Value F O → List (Value F O) → Except ε (Value F O)
  /-- An operand that should have been a truth value. -/
  notBool : Value F O → ε

variable {F O Op ε : Type}
variable {c : F × List (Value F O)} {es : List (Expr Op)} {e : Expr Op}

/-- The calls so far, and a result. -/
abbrev Run (F O ε α : Type) := List (F × List (Value F O)) × Except ε α

/-- Going on with a result; an error ends the evaluation. -/
def Run.andThen {α β : Type} (r : Run F O ε α) (k : α → Run F O ε β) : Run F O ε β :=
  match r with
  | (calls, .error e) => (calls, .error e)
  | (calls, .ok a) => (calls ++ (k a).1, (k a).2)

theorem Run.mem_andThen {α β : Type} {r : Run F O ε α} {k : α → Run F O ε β} :
    c ∈ (r.andThen k).1 ↔ c ∈ r.1 ∨ ∃ a, r.2 = .ok a ∧ c ∈ (k a).1 := by
  obtain ⟨calls, result⟩ := r
  cases result with
  | error | ok => simp [Run.andThen]

variable (sem : Semantics F O Op ε)

/-- A local name, or a function of the environment. -/
def resolve (scope : List (Bytes × Value F O)) (name : Bytes) : Value F O :=
  match scope.lookup name with
  | some v => v
  | none =>
    match sem.names name with
    | some f => .fn f
    | none => .nil

mutual

/-- The calls that an expression makes, and its value or an error. -/
def eval (scope : List (Bytes × Value F O)) : Expr Op → Run F O ε (Value F O)
  | .lit l => ([], .ok l.value)
  | .ident name => ([], .ok (resolve sem scope name))
  | .env => ([], .ok .env)
  | .op o args => (evalArgs scope args).andThen fun vs => ([], sem.apply o vs)
  | .and l r => (eval scope l).andThen fun v =>
    match v with
    | .bool true => eval scope r
    | .bool false => ([], .ok (.bool false))
    | v => ([], .error (sem.notBool v))
  | .or l r => (eval scope l).andThen fun v =>
    match v with
    | .bool true => ([], .ok (.bool true))
    | .bool false => eval scope r
    | v => ([], .error (sem.notBool v))
  | .coalesce l r => (eval scope l).andThen fun v =>
    match v with
    | .nil => eval scope r
    | v => ([], .ok v)
  | .cond test yes no => (eval scope test).andThen fun v =>
    match v with
    | .bool true => eval scope yes
    | .bool false => eval scope no
    | v => ([], .error (sem.notBool v))
  | .letIn name value body => (eval scope value).andThen fun v => eval ((name, v) :: scope) body
  | .call callee args => (evalArgs scope args).andThen fun vs =>
    (eval scope callee).andThen fun f =>
      match f with
      | .fn f => ([(f, vs)], sem.host f vs)
      | f => ([], sem.call f vs)

def evalArgs (scope : List (Bytes × Value F O)) :
    List (Expr Op) → Run F O ε (List (Value F O))
  | [] => ([], .ok [])
  | e :: es => (eval scope e).andThen fun v =>
    (evalArgs scope es).andThen fun vs => ([], .ok (v :: vs))

end

def Evaluates (scope : List (Bytes × Value F O)) (es : List (Expr Op)) : Prop :=
  ∀ e ∈ es, ∃ v, (eval sem scope e).2 = .ok v

/-- **A call stands where evaluation comes to it**: no operand before it fails, and no operand
that holds it is skipped. -/
inductive Reached : List (Bytes × Value F O) → Expr Op → F → List (Value F O) → Prop where
  | op {scope o before e after f vs} (hbefore : Evaluates sem scope before)
      (h : Reached scope e f vs) : Reached scope (.op o (before ++ e :: after)) f vs
  | andLeft {scope l r f vs} (h : Reached scope l f vs) : Reached scope (.and l r) f vs
  | andRight {scope l r f vs} (hl : (eval sem scope l).2 = .ok (.bool true))
      (h : Reached scope r f vs) : Reached scope (.and l r) f vs
  | orLeft {scope l r f vs} (h : Reached scope l f vs) : Reached scope (.or l r) f vs
  | orRight {scope l r f vs} (hl : (eval sem scope l).2 = .ok (.bool false))
      (h : Reached scope r f vs) : Reached scope (.or l r) f vs
  | coalesceLeft {scope l r f vs} (h : Reached scope l f vs) :
      Reached scope (.coalesce l r) f vs
  | coalesceRight {scope l r f vs} (hl : (eval sem scope l).2 = .ok .nil)
      (h : Reached scope r f vs) : Reached scope (.coalesce l r) f vs
  | test {scope test yes no f vs} (h : Reached scope test f vs) :
      Reached scope (.cond test yes no) f vs
  | yes {scope test yes no f vs} (htest : (eval sem scope test).2 = .ok (.bool true))
      (h : Reached scope yes f vs) : Reached scope (.cond test yes no) f vs
  | no {scope test yes no f vs} (htest : (eval sem scope test).2 = .ok (.bool false))
      (h : Reached scope no f vs) : Reached scope (.cond test yes no) f vs
  | letValue {scope name value body f vs} (h : Reached scope value f vs) :
      Reached scope (.letIn name value body) f vs
  | letBody {scope name value body v f vs} (hvalue : (eval sem scope value).2 = .ok v)
      (h : Reached ((name, v) :: scope) body f vs) : Reached scope (.letIn name value body) f vs
  | arg {scope callee before e after f vs} (hbefore : Evaluates sem scope before)
      (h : Reached scope e f vs) : Reached scope (.call callee (before ++ e :: after)) f vs
  | callee {scope callee args f vs} (hargs : Evaluates sem scope args)
      (h : Reached scope callee f vs) : Reached scope (.call callee args) f vs
  | call {scope callee args f vs} (hargs : (evalArgs sem scope args).2 = .ok vs)
      (hcallee : (eval sem scope callee).2 = .ok (.fn f)) : Reached scope (.call callee args) f vs

variable {sem} {scope : List (Bytes × Value F O)} {f : F} {vs : List (Value F O)}

theorem Run.andThen_eq_ok {α β : Type} {r : Run F O ε α} {k : α → Run F O ε β} {b : β} :
    (r.andThen k).2 = .ok b ↔ ∃ a, r.2 = .ok a ∧ (k a).2 = .ok b := by
  obtain ⟨calls, result⟩ := r
  cases result with
  | error | ok => simp [Run.andThen]

theorem exists_evalArgs_iff :
    (∃ vs, (evalArgs sem scope es).2 = .ok vs) ↔ Evaluates sem scope es := by
  induction es with
  | nil => simp [evalArgs, Evaluates]
  | cons e es ih =>
    rw [Evaluates, List.forall_mem_cons]
    refine Iff.trans ?_ (and_congr_right fun _ => ih)
    simp only [evalArgs, Run.andThen_eq_ok]
    constructor
    · rintro ⟨vs, v, hv, vs', hvs', -⟩
      exact ⟨⟨v, hv⟩, vs', hvs'⟩
    · rintro ⟨⟨v, hv⟩, vs', hvs'⟩
      exact ⟨v :: vs', v, hv, vs', hvs', rfl⟩

theorem mem_evalArgs_iff :
    c ∈ (evalArgs sem scope es).1 ↔ ∃ before e after, es = before ++ e :: after ∧
      Evaluates sem scope before ∧ c ∈ (eval sem scope e).1 := by
  induction es with
  | nil => simp [evalArgs]
  | cons e es ih =>
    simp only [evalArgs, Run.mem_andThen, ih, List.not_mem_nil, and_false, exists_false, or_false]
    constructor
    · rintro (hfirst | ⟨v, hv, before, e', after, rfl, hbefore, hc⟩)
      · exact ⟨[], e, es, rfl, nofun, hfirst⟩
      · exact ⟨e :: before, e', after, rfl, List.forall_mem_cons.mpr ⟨⟨v, hv⟩, hbefore⟩, hc⟩
    · rintro ⟨before, e', after, hes, hbefore, hc⟩
      cases before with
      | nil =>
        cases hes
        exact .inl hc
      | cons e₀ before =>
        cases hes
        obtain ⟨⟨v, hv⟩, hbefore⟩ := List.forall_mem_cons.mp hbefore
        exact .inr ⟨v, hv, before, e', after, rfl, hbefore, hc⟩

mutual

theorem reached_of_mem : ∀ (e : Expr Op) {scope : List (Bytes × Value F O)},
    (f, vs) ∈ (eval sem scope e).1 → Reached sem scope e f vs
  | .lit l, _, h => by simp [eval] at h
  | .ident name, _, h => by simp [eval] at h
  | .env, _, h => by simp [eval] at h
  | .op o args, scope, h => by
      simp only [eval, Run.mem_andThen, List.not_mem_nil, and_false, exists_false, or_false] at h
      obtain ⟨before, e, after, hargs, hbefore, hc⟩ := mem_evalArgs_iff.mp h
      have hreached := reached_of_mem_args args e (by simp [hargs]) hc
      rw [hargs]
      exact .op hbefore hreached
  | .and l r, scope, h => by
      simp only [eval, Run.mem_andThen] at h
      rcases h with hl | ⟨v, hv, hr⟩
      · exact .andLeft (reached_of_mem l hl)
      · split at hr
        · exact .andRight hv (reached_of_mem r hr)
        · cases hr
        · cases hr
  | .or l r, scope, h => by
      simp only [eval, Run.mem_andThen] at h
      rcases h with hl | ⟨v, hv, hr⟩
      · exact .orLeft (reached_of_mem l hl)
      · split at hr
        · cases hr
        · exact .orRight hv (reached_of_mem r hr)
        · cases hr
  | .coalesce l r, scope, h => by
      simp only [eval, Run.mem_andThen] at h
      rcases h with hl | ⟨v, hv, hr⟩
      · exact .coalesceLeft (reached_of_mem l hl)
      · split at hr
        · exact .coalesceRight hv (reached_of_mem r hr)
        · cases hr
  | .cond test yes no, scope, h => by
      simp only [eval, Run.mem_andThen] at h
      rcases h with htest | ⟨v, hv, hr⟩
      · exact .test (reached_of_mem test htest)
      · split at hr
        · exact .yes hv (reached_of_mem yes hr)
        · exact .no hv (reached_of_mem no hr)
        · cases hr
  | .letIn name value body, scope, h => by
      simp only [eval, Run.mem_andThen] at h
      rcases h with hvalue | ⟨v, hv, hbody⟩
      · exact .letValue (reached_of_mem value hvalue)
      · exact .letBody hv (reached_of_mem body hbody)
  | .call callee args, scope, h => by
      simp only [eval, Run.mem_andThen] at h
      rcases h with hargs | ⟨ws, hws, hcallee | ⟨g, hg, hcall⟩⟩
      · obtain ⟨before, e, after, hsplit, hbefore, hc⟩ := mem_evalArgs_iff.mp hargs
        have hreached := reached_of_mem_args args e (by simp [hsplit]) hc
        rw [hsplit]
        exact .arg hbefore hreached
      · exact .callee (exists_evalArgs_iff.mp ⟨ws, hws⟩) (reached_of_mem callee hcallee)
      · split at hcall
        · cases List.mem_singleton.mp hcall
          exact .call hws hg
        · cases hcall

theorem reached_of_mem_args : ∀ (es : List (Expr Op)), ∀ e ∈ es,
    ∀ {scope : List (Bytes × Value F O)}, (f, vs) ∈ (eval sem scope e).1 →
      Reached sem scope e f vs
  | e :: es, e', he, scope, h => by
      rcases List.mem_cons.mp he with heq | htail
      · rw [heq] at h ⊢
        exact reached_of_mem e h
      · exact reached_of_mem_args es e' htail h

end

theorem mem_of_reached (h : Reached sem scope e f vs) : (f, vs) ∈ (eval sem scope e).1 := by
  induction h with
  | op hbefore _ ih | arg hbefore _ ih =>
    simp only [eval, Run.mem_andThen]
    exact .inl (mem_evalArgs_iff.mpr ⟨_, _, _, rfl, hbefore, ih⟩)
  | andLeft _ ih | orLeft _ ih | coalesceLeft _ ih | test _ ih
  | letValue _ ih => simp only [eval, Run.mem_andThen]; exact .inl ih
  | andRight hl _ ih | orRight hl _ ih
  | coalesceRight hl _ ih => simp only [eval, Run.mem_andThen]; exact .inr ⟨_, hl, ih⟩
  | yes htest _ ih | no htest _ ih => simp only [eval, Run.mem_andThen]; exact .inr ⟨_, htest, ih⟩
  | letBody hvalue _ ih => simp only [eval, Run.mem_andThen]; exact .inr ⟨_, hvalue, ih⟩
  | callee hargs _ ih =>
    obtain ⟨ws, hws⟩ := exists_evalArgs_iff.mpr hargs
    simp only [eval, Run.mem_andThen]
    exact .inr ⟨ws, hws, .inl ih⟩
  | call hargs hcallee =>
    simp only [eval, Run.mem_andThen]
    exact .inr ⟨_, hargs, .inr ⟨_, hcallee, List.mem_singleton.mpr rfl⟩⟩

/-- **The calls that are made** are the ones that are reached. -/
theorem mem_calls_iff : (f, vs) ∈ (eval sem scope e).1 ↔ Reached sem scope e f vs :=
  ⟨reached_of_mem e, mem_of_reached⟩

end Veduta.Lib
