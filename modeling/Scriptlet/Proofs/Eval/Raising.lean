import Scriptlet.Eval

/-!
Evaluation with exceptions. An error and a `return` are raised, so that no value is ever checked: a
`return` is caught by the call or the program that it belongs to, an error by nothing.
-/

namespace Scriptlet.Raising
open Value

/-- What evaluation can raise. -/
inductive Raised where
  | halted (h : Halt)
  | error (fault : Fault)
  | returned (v : Value)

/-- A computation on the store that can raise. What it did to the store before stays done. -/
abbrev Run := EStateM Raised Store

/-- An evaluator that raises. -/
abbrev Evaluator := Node → (scope : Nat) → Run (Option Value)

def fail {α : Type} (fault : Fault) : Run α := throw (.error fault)

/-- The result of an operation, which raises the error that it gives. -/
def ofResult : Value → Run Value
  | .error fault _ => fail fault
  | v => return v

/-- A computation in which a `return` ends. -/
def catchReturn (p : Run (Option Value)) : Run (Option Value) := fun s =>
  match p s with
  | .error (.returned v) t => .ok (some v) t
  | result => result

namespace Evaluator
variable (eval : Evaluator) (scope : Nat)

/-- An expression where a value is needed: no value is null. -/
def value (e : Expr) : Run Value := return (← eval (.expr e) scope).getD .null

/-- Expressions from left to right. -/
def values : List Expr → Run (List Value)
  | [] => return []
  | e :: es => do
    let v ← value eval scope e
    return v :: (← values es)

/-- Statements in order, with the result of the last one. -/
def sequence : Option Value → List Stmt → Run (Option Value)
  | result, [] => return result
  | _, s :: ss => do sequence (← eval (.stmt s) scope) ss

def program (body : List Stmt) : Run (Option Value) := catchReturn (sequence eval scope none body)

def identifier (name : String) : Run Value := do
  match (← get).lookup? scope name with
  | some v => return v
  | none =>
    match Builtin.ofName? name with
    | some b => return .builtin b
    | none => fail (.unbound name)

def conditional (condition : Expr) (consequence : List Stmt) (alternative : Option (List Stmt)) :
    Run Value := do
  let c ← value eval scope condition
  match c, alternative with
  | .bool true, _ => return (← eval (.stmt (.block consequence)) scope).getD .null
  | .bool false, some body => return (← eval (.stmt (.block body)) scope).getD .null
  | .bool false, none => return .null
  | _, _ => fail .conditionNotBoolean

/-- The call of a function in a scope of its own. -/
def callClosure (c : Closure) (args : List Value) : Run Value := do
  if args.length ≠ c.params.length then fail (.arity args.length c.params.length)
  else
    let (callScope, s) := (← get).newScope (some c.scope)
    set ((c.params.zip args).foldl (fun s (name, v) => s.bind callScope name v) s)
    return (← catchReturn (eval (.stmt (.block c.body)) callScope)).getD .null

def call (callee : Value) (args : List Value) : Run Value := do
  match callee with
  | .function place =>
    match (← get).closures[place]? with
    | some c => callClosure eval c args
    | none => fail (.notCallable .function)
  | .builtin b => ofResult (← modifyGet (b.apply args))
  | v => fail (.notCallable v.tag)

def index (left i : Value) : Run Value := do
  match left, i with
  | .array place, .int n _ =>
    if n < 0 then return .null
    else return ((← get).elements place)[n.toNat]?.getD .null
  | .array _, i => fail (.indexNotInteger .array i.tag)
  | .hashmap place, i =>
    match i.key? with
    | none => fail (.unhashable i.tag)
    | some k => return (((← get).hashmap place).get? k).getD .null
  | left, _ => fail (.notIndexable left.tag)

/-- The entries of a hashmap added in order, a key before its value. -/
def entries : List (Expr × Expr) → Hashmap → Run Hashmap
  | [], m => return m
  | (keyExpr, valueExpr) :: rest, m => do
    let k ← value eval scope keyExpr
    match k.key? with
    | none => fail (.unhashable k.tag)
    | some key =>
      let v ← value eval scope valueExpr
      entries rest (m.put key v)

def expression : Expr → Run (Option Value)
  | .int n => return some (ofInt n)
  | .bool b => return some (.bool b)
  | .string t => return some (ofString t)
  | .ident name => return some (← identifier scope name)
  | .unary op right => do
    let v ← value eval scope right
    return some (← ofResult (op.apply v))
  | .binary op left right => do
    let l ← value eval scope left
    let r ← value eval scope right
    return some (← ofResult (op.apply l r))
  | .ifThen condition consequence alternative =>
    return some (← conditional eval scope condition consequence alternative)
  | .function params body =>
    return some (← modifyGet (·.newClosure { params, body, scope }))
  | .call callee args => do
    let f ← value eval scope callee
    let vs ← values eval scope args
    return some (← call eval f vs)
  | .array elements => do
    let vs ← values eval scope elements
    return some (← modifyGet (·.newArray vs.toArray))
  | .index left i => do
    let l ← value eval scope left
    let r ← value eval scope i
    return some (← index l r)
  | .hashmap pairs => do
    let m ← entries eval scope pairs {}
    return some (← modifyGet (·.newHashmap m))

def statement : Stmt → Run (Option Value)
  | .expr e => eval (.expr e) scope
  | .block body => sequence eval scope none body
  | .assign name e => do
    let v ← value eval scope e
    modify (·.bind scope name v)
    return none
  | .ret e => do
    let v ← value eval scope e
    throw (.returned v)

/-- A node, by an evaluator for the nodes inside it. -/
def step : Evaluator := fun node scope =>
  match node with
  | .program body => program eval scope body
  | .stmt s => statement eval scope s
  | .expr e => expression eval scope e
  | .foreign typeName => throw (.halted (.notANode typeName))

end Evaluator

/-- The value of a node in a scope, with the same depth for nodes inside others and for calls. -/
def eval : (depth : Nat) → Evaluator
  | 0, _, _ => throw (.halted .tooDeep)
  | n + 1, node, scope => (eval n).step node scope

end Scriptlet.Raising
