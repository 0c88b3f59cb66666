import Mathlib.Data.Rat.Defs
import Veduta.Go.Strconv

/-!
# Bare fields in the views of http-json cards

Package `manifestload`, `bindBareFieldsToData`: a bare identifier in an expression of a view stands
for a field of the response, and the tree of the expression is rewritten accordingly.  The rewriting
goes into the operators, members, conditionals, arrays and maps of a tree, and passes over calls:
what stands among the arguments of a builtin stays as it was written.
-/

namespace Veduta.Manifestload

open Go

/-- The tree of an expression.  The bounds of a slice are those that are written. -/
inductive Node where
  | nil
  | identifier (name : Bytes)
  | integer (n : ℤ)
  | float (q : ℚ)
  | bool (b : Bool)
  | string (s : Bytes)
  | bytes (s : Bytes)
  | constant (text : Bytes)
  | unary (op : Bytes) (node : Node)
  | binary (op : Bytes) (left right : Node)
  | chain (node : Node)
  | member (node property : Node) (optional method : Bool)
  | slice (node : Node) (bounds : List Node)
  | call (callee : Node) (arguments : List Node)
  | builtin (name : Bytes) (arguments : List Node)
  | predicate (node : Node)
  | pointer (name : Bytes)
  | declarator (name : Bytes) (value expr : Node)
  | sequence (nodes : List Node)
  | conditional (cond exp1 exp2 : Node)
  | array (nodes : List Node)
  | map (pairs : List Node)
  | pair (key value : Node)

/-- `httpJSONReservedNames`. -/
def reserved (name : Bytes) : Bool := name = ascii "params" || name = ascii "now"

def dataField (name : Bytes) : Node := .member (.identifier (ascii "data")) (.string name) false false

/-! ## Rewriting -/

mutual

/-- **`bindNode`.** -/
def bindNode : Node → Node
  | .identifier name => if reserved name then .identifier name else dataField name
  | .member node property optional method =>
    .member (bindNode node) (bindNode property) optional method
  | .binary op left right => .binary op (bindNode left) (bindNode right)
  | .unary op node => .unary op (bindNode node)
  | .conditional cond exp1 exp2 => .conditional (bindNode cond) (bindNode exp1) (bindNode exp2)
  | .array nodes => .array (bindNodes nodes)
  | .map pairs => .map (bindNodes pairs)
  | .pair key value => .pair (bindNode key) (bindNode value)
  | n => n

def bindNodes : List Node → List Node
  | [] => []
  | n :: nodes => bindNode n :: bindNodes nodes

end

mutual

/-- A tree with every bare identifier bound, at any depth; the name of a function is none. -/
def bindAll : Node → Node
  | .identifier name => if reserved name then .identifier name else dataField name
  | .member node property optional method =>
    .member (bindAll node) (bindAll property) optional method
  | .binary op left right => .binary op (bindAll left) (bindAll right)
  | .unary op node => .unary op (bindAll node)
  | .conditional cond exp1 exp2 => .conditional (bindAll cond) (bindAll exp1) (bindAll exp2)
  | .array nodes => .array (bindAlls nodes)
  | .map pairs => .map (bindAlls pairs)
  | .pair key value => .pair (bindAll key) (bindAll value)
  | .chain node => .chain (bindAll node)
  | .slice node bounds => .slice (bindAll node) (bindAlls bounds)
  | .call (.identifier f) arguments => .call (.identifier f) (bindAlls arguments)
  | .call callee arguments => .call (bindAll callee) (bindAlls arguments)
  | .builtin name arguments => .builtin name (bindAlls arguments)
  | .predicate node => .predicate (bindAll node)
  | .declarator name value expr => .declarator name (bindAll value) (bindAll expr)
  | .sequence nodes => .sequence (bindAlls nodes)
  | n => n

def bindAlls : List Node → List Node
  | [] => []
  | n :: nodes => bindAll n :: bindAlls nodes

end

mutual

def fields : Node → List Bytes
  | .identifier name => if reserved name then [] else [name]
  | .member node property _ _ => fields node ++ fields property
  | .binary _ left right => fields left ++ fields right
  | .unary _ node | .chain node | .predicate node => fields node
  | .conditional cond exp1 exp2 => fields cond ++ (fields exp1 ++ fields exp2)
  | .array nodes | .map nodes | .sequence nodes | .builtin _ nodes => fieldsOf nodes
  | .pair key value => fields key ++ fields value
  | .slice node bounds => fields node ++ fieldsOf bounds
  | .call (.identifier _) arguments => fieldsOf arguments
  | .call callee arguments => fields callee ++ fieldsOf arguments
  | .declarator _ value expr => fields value ++ fields expr
  | _ => []

def fieldsOf : List Node → List Bytes
  | [] => []
  | n :: nodes => fields n ++ fieldsOf nodes

end

mutual

/-- No field stands below a node that the rewriting passes over. -/
def Direct : Node → Prop
  | .identifier _ => True
  | .member node property _ _ => Direct node ∧ Direct property
  | .binary _ left right => Direct left ∧ Direct right
  | .unary _ node => Direct node
  | .conditional cond exp1 exp2 => Direct cond ∧ Direct exp1 ∧ Direct exp2
  | .array nodes | .map nodes => Directs nodes
  | .pair key value => Direct key ∧ Direct value
  | n => fields n = []

def Directs : List Node → Prop
  | [] => True
  | n :: nodes => Direct n ∧ Directs nodes

end

mutual

theorem bindAll_eq_self_iff (n : Node) : bindAll n = n ↔ fields n = [] := by
  cases n with
  | identifier name =>
    rw [bindAll, fields]
    split_ifs <;> simp [dataField]
  | call callee arguments =>
    cases callee <;>
      simp [bindAll, fields, and_assoc, bindAlls_eq_self_iff, bindAll_eq_self_iff]
  | _ => simp [bindAll, fields, bindAll_eq_self_iff, bindAlls_eq_self_iff]

theorem bindAlls_eq_self_iff (nodes : List Node) :
    bindAlls nodes = nodes ↔ fieldsOf nodes = [] := by
  cases nodes with
  | nil => simp [bindAlls, fieldsOf]
  | cons n nodes => simp [bindAlls, fieldsOf, bindAll_eq_self_iff n, bindAlls_eq_self_iff nodes]

end

mutual

/-- **Every field is bound, exactly if none stands below a call**, or below another node that the
rewriting passes over. -/
theorem bindNode_eq_bindAll_iff (n : Node) : bindNode n = bindAll n ↔ Direct n := by
  cases n with
  | call callee arguments | builtin name arguments | predicate node | chain node
  | slice node bounds | declarator name value expr | sequence nodes =>
    -- the rewriting leaves these nodes as they are
    rw [bindNode, Direct, ← bindAll_eq_self_iff, eq_comm] <;> simp
  | _ =>
    simp [bindNode, bindAll, Direct, fields, bindNode_eq_bindAll_iff, bindNodes_eq_bindAlls_iff]

theorem bindNodes_eq_bindAlls_iff (nodes : List Node) :
    bindNodes nodes = bindAlls nodes ↔ Directs nodes := by
  cases nodes with
  | nil => simp [bindNodes, bindAlls, Directs]
  | cons n nodes =>
    simp [bindNodes, bindAlls, Directs, bindNode_eq_bindAll_iff n, bindNodes_eq_bindAlls_iff nodes]

end

mutual

/-- `ast.Walk`: the nodes of a tree, each after those below it. -/
def walk (n : Node) : List Node :=
  (match n with
    | .unary _ x | .chain x | .predicate x => walk x
    | .binary _ x y | .member x y _ _ | .pair x y | .declarator _ x y => walk x ++ walk y
    | .conditional x y z => walk x ++ walk y ++ walk z
    | .array xs | .map xs | .sequence xs | .builtin _ xs => walks xs
    | .slice x xs | .call x xs => walk x ++ walks xs
    | _ => []) ++ [n]

def walks : List Node → List Node
  | [] => []
  | n :: nodes => walk n ++ walks nodes

end

/-- `CoreFunctions`. -/
def coreFunctions : List Bytes := [ascii "fromUnix", ascii "unix"]

/-- `exprVisitor.Visit`: the error that a node leaves. -/
def visit : Node → Option Bytes
  | .identifier name =>
    if name = ascii "$env" ∨ hasPrefix name (ascii "__") then
      some (quote name ++ ascii " is forbidden")
    else none
  | .binary op _ _ =>
    if op = ascii "matches" then some (ascii "matches is not supported") else none
  | .call (.identifier f) _ =>
    if f ∈ coreFunctions then none else some (ascii "custom function calls are not supported")
  | .call _ _ => some (ascii "custom function calls are not supported")
  | .declarator _ _ _ => unsupported "VariableDeclaratorNode"
  | .sequence _ => unsupported "SequenceNode"
  | .slice _ _ => unsupported "SliceNode"
  | .chain _ => unsupported "ChainNode"
  | .bytes _ => unsupported "BytesNode"
  | _ => none
where
  unsupported (kind : String) : Option Bytes :=
    some (ascii "expression node *ast." ++ ascii kind ++ ascii " is not supported")

/-- **`compileExprSource`**, on a parsed expression: the number of nodes, or the last error. -/
def compileExprSource (tree : Node) (max : Nat) : Except Bytes Nat :=
  match ((walk tree).filterMap visit).getLast? with
  | some err => .error err
  | none =>
    if max < (walk tree).length then
      .error (ascii "expression has " ++ formatNat (walk tree).length ++
        ascii " AST nodes, limit " ++ formatNat max)
    else .ok (walk tree).length

/-- `len(items)`: the expression is admitted, with `items` unbound. -/
theorem len_items_unbound :
    compileExprSource (bindNode (.builtin (ascii "len") [.identifier (ascii "items")])) 512 =
        .ok 2 ∧
      bindNode (.builtin (ascii "len") [.identifier (ascii "items")]) ≠
        bindAll (.builtin (ascii "len") [.identifier (ascii "items")]) := by
  refine ⟨by decide +kernel, ?_⟩
  have hfield : reserved (ascii "items") = false := by decide
  simp [bindNode, bindAll, bindAlls, dataField, hfield]

end Veduta.Manifestload
