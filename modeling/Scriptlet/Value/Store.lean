import Scriptlet.Value.Hashmap

/-! The store: the scopes, arrays, hashmaps and functions that values and other scopes point to. -/

namespace Scriptlet

/-- A scope: the names bound in it, in the order of their first binding, and the scope around it. -/
structure Scope where
  names : List (String × Value) := []
  outer : Option Nat := none

/-- A function with the scope that it was made in. -/
structure Closure where
  params : List String
  body : List Stmt
  scope : Nat

/-- All that values and scopes point to. Nothing is ever taken away. -/
structure Store where
  scopes : Array Scope := #[]
  arrays : Array (Array Value) := #[]
  hashmaps : Array Hashmap := #[]
  closures : Array Closure := #[]

/-- The bindings with a name bound to a value, in its old place if it had one. -/
def Scope.bindIn (name : String) (v : Value) : List (String × Value) → List (String × Value)
  | [] => [(name, v)]
  | (n, w) :: rest => if n = name then (name, v) :: rest else (n, w) :: bindIn name v rest

namespace Store
variable (s : Store)

/-- A scope inside another one, or a scope of its own. -/
def newScope (outer : Option Nat) : Nat × Store :=
  (s.scopes.size, { s with scopes := s.scopes.push { outer } })

def newArray (elements : Array Value) : Value × Store :=
  (.array s.arrays.size, { s with arrays := s.arrays.push elements })

def newHashmap (m : Hashmap) : Value × Store :=
  (.hashmap s.hashmaps.size, { s with hashmaps := s.hashmaps.push m })

def newClosure (c : Closure) : Value × Store :=
  (.function s.closures.size, { s with closures := s.closures.push c })

/-- The elements of the array at a place. -/
def elements (place : Nat) : Array Value := (s.arrays[place]?).getD #[]

/-- The hashmap at a place. -/
def hashmap (place : Nat) : Hashmap := (s.hashmaps[place]?).getD {}

/-- The names bound in a scope itself. -/
def namesOf (scope : Nat) : List (String × Value) :=
  match s.scopes[scope]? with
  | some sc => sc.names
  | none => []

/-- The scope around a scope. -/
def outerOf (scope : Nat) : Option Nat := s.scopes[scope]?.bind (·.outer)

/-- Binds a name in a scope itself. -/
def bind (scope : Nat) (name : String) (v : Value) : Store :=
  { s with scopes := s.scopes.modify scope fun sc => { sc with names := Scope.bindIn name v sc.names } }

/-- An array with one more element at its end. -/
def push (place : Nat) (v : Value) : Store :=
  { s with arrays := s.arrays.modify place (·.push v) }

/-- A hashmap with an entry. -/
def put (place : Nat) (k : Key) (v : Value) : Store :=
  { s with hashmaps := s.hashmaps.modify place (·.put k v) }

/-- The value of a name in a scope or the nearest one around that binds it; at most the given number
of scopes is looked at. -/
def lookupWithin (name : String) : Nat → Nat → Option Value
  | 0, _ => none
  | n + 1, scope =>
    match (s.namesOf scope).lookup name with
    | some v => some v
    | none => (s.outerOf scope).bind (lookupWithin name n)

/-- The value of a name as seen from a scope. -/
def lookup? (scope : Nat) (name : String) : Option Value :=
  s.lookupWithin name s.scopes.size scope

end Store

end Scriptlet
