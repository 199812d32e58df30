import Scriptlet.Value.Builtin
import Scriptlet.Value.Operator

/-!
Evaluation of programs.

A node gives a value or, as an assignment does, none. An error and a `return` are values too, the
signals: whoever needs a value hands a signal upward instead. A `return` ends at the call or the
program that it belongs to, an error nowhere.
-/

namespace Scriptlet
open Value

/-- Why evaluation gives no result at all. -/
inductive Halt where
  /-- more nesting than there is room for -/
  | tooDeep
  /-- the node is no part of a program -/
  | notANode (typeName : String)
  deriving DecidableEq, Repr

def Halt.message : Halt → String
  | tooDeep => "maximum recursion depth exceeded"
  | notANode typeName => "Unknown node type: " ++ typeName

/-- A computation on the store. -/
abbrev Eval := EStateM Halt Store

/-- An evaluator: the value of a node in a scope. -/
abbrev Evaluator := Node → (scope : Nat) → Eval (Option Value)

namespace Evaluator
variable (eval : Evaluator) (scope : Nat)

/-- An expression where a value is needed: no value is null. -/
def value (e : Expr) : Eval Value := return (← eval (.expr e) scope).getD .null

/-- Expressions from left to right, up to the first signal. -/
def values : List Expr → Eval (Except Value (List Value))
  | [] => return .ok []
  | e :: es => do
    let v ← value eval scope e
    if v.isSignal then return .error v
    match ← values es with
    | .error signal => return .error signal
    | .ok vs => return .ok (v :: vs)

/-- Statements in order, up to the first signal. The result is that of the last one evaluated, or
the given one if there are none. -/
def sequence : Option Value → List Stmt → Eval (Option Value)
  | result, [] => return result
  | _, s :: ss => do
    let result ← eval (.stmt s) scope
    if result.any isSignal then return result
    sequence result ss

/-- A whole program, where a `return` ends. -/
def program (body : List Stmt) : Eval (Option Value) := do
  match ← sequence eval scope none body with
  | some (.returned v _) => return some v
  | result => return result

/-- The value of a name: the nearest binding of it, or the builtin. -/
def identifier (name : String) : Eval Value := do
  match (← get).lookup? scope name with
  | some v => return v
  | none =>
    match Builtin.ofName? name with
    | some b => return .builtin b
    | none => return ofFault (.unbound name)

/-- A conditional. -/
def conditional (condition : Expr) (consequence : List Stmt) (alternative : Option (List Stmt)) :
    Eval Value := do
  let c ← value eval scope condition
  if c.isSignal then return c
  match c, alternative with
  | .bool true, _ => return (← eval (.stmt (.block consequence)) scope).getD .null
  | .bool false, some body => return (← eval (.stmt (.block body)) scope).getD .null
  | .bool false, none => return .null
  | _, _ => return ofFault .conditionNotBoolean

/-- The call of a function in a scope of its own. -/
def callClosure (c : Closure) (args : List Value) : Eval Value := do
  if args.length ≠ c.params.length then return ofFault (.arity args.length c.params.length)
  let (callScope, s) := (← get).newScope (some c.scope)
  set ((c.params.zip args).foldl (fun s (name, v) => s.bind callScope name v) s)
  match ← eval (.stmt (.block c.body)) callScope with
  | some (.returned v _) => return v
  | result => return result.getD .null

/-- The call of a value. -/
def call (callee : Value) (args : List Value) : Eval Value := do
  match callee with
  | .function place =>
    match (← get).closures[place]? with
    | some c => callClosure eval c args
    | none => return ofFault (.notCallable .function)
  | .builtin b => modifyGet (b.apply args)
  | v => return ofFault (.notCallable v.tag)

/-- The element of an array or the value of a key, or null if there is none. -/
def index (left i : Value) : Eval Value := do
  match left, i with
  | .array place, .int n _ =>
    if n < 0 then return .null
    return ((← get).elements place)[n.toNat]?.getD .null
  | .array _, i => return ofFault (.indexNotInteger .array i.tag)
  | .hashmap place, i =>
    match i.key? with
    | none => return ofFault (.unhashable i.tag)
    | some k => return (((← get).hashmap place).get? k).getD .null
  | left, _ => return ofFault (.notIndexable left.tag)

/-- The entries of a hashmap added in order, a key before its value, up to the first signal. -/
def entries : List (Expr × Expr) → Hashmap → Eval (Except Value Hashmap)
  | [], m => return .ok m
  | (keyExpr, valueExpr) :: rest, m => do
    let k ← value eval scope keyExpr
    if k.isSignal then return .error k
    match k.key? with
    | none => return .error (ofFault (.unhashable k.tag))
    | some key =>
      let v ← value eval scope valueExpr
      if v.isSignal then return .error v
      entries rest (m.put key v)

/-- An expression. -/
def expression : Expr → Eval (Option Value)
  | .int n => return some (ofInt n)
  | .bool b => return some (.bool b)
  | .string t => return some (ofString t)
  | .ident name => return some (← identifier scope name)
  | .unary op right => do
    let v ← value eval scope right
    if v.isSignal then return some v
    return some (op.apply v)
  | .binary op left right => do
    let l ← value eval scope left
    if l.isSignal then return some l
    let r ← value eval scope right
    if r.isSignal then return some r
    return some (op.apply l r)
  | .ifThen condition consequence alternative =>
    return some (← conditional eval scope condition consequence alternative)
  | .function params body =>
    return some (← modifyGet (·.newClosure { params, body, scope }))
  | .call callee args => do
    let f ← value eval scope callee
    if f.isSignal then return some f
    match ← values eval scope args with
    | .error signal => return some signal
    | .ok vs => return some (← call eval f vs)
  | .array elements => do
    match ← values eval scope elements with
    | .error signal => return some signal
    | .ok vs => return some (← modifyGet (·.newArray vs.toArray))
  | .index left i => do
    let l ← value eval scope left
    if l.isSignal then return some l
    let r ← value eval scope i
    if r.isSignal then return some r
    return some (← index l r)
  | .hashmap pairs => do
    match ← entries eval scope pairs {} with
    | .error signal => return some signal
    | .ok m => return some (← modifyGet (·.newHashmap m))

/-- A statement. An assignment of a signal binds nothing. -/
def statement : Stmt → Eval (Option Value)
  | .expr e => eval (.expr e) scope
  | .block body => sequence eval scope none body
  | .assign name e => do
    let v ← value eval scope e
    if v.isSignal then return some v
    modify (·.bind scope name v)
    return none
  | .ret e => do
    let v ← value eval scope e
    if v.isSignal then return some v
    return some (.returned v none)

/-- A node, by an evaluator for the nodes inside it. -/
def step : Evaluator := fun node scope =>
  match node with
  | .program body => program eval scope body
  | .stmt s => statement eval scope s
  | .expr e => expression eval scope e
  | .foreign typeName => throw (.notANode typeName)

end Evaluator

/-- The value of a node in a scope. Every node inside another one, and every call, takes one level
of the depth. -/
def eval : (depth : Nat) → Evaluator
  | 0, _, _ => throw .tooDeep
  | n + 1, node, scope => (eval n).step node scope

end Scriptlet
