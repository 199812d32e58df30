import Mathlib.Logic.Relation
import Scriptlet.Proofs.Eval.Discipline

/-!
The course of an evaluation: which nodes are evaluated on the way, in which scope and from which
store, and which builtins are applied to what. What a discipline allows at the start it allows on
the whole course.
-/

namespace Scriptlet
open Value

/-- A node that is evaluated in the scope of its evaluator, or the key of a hashmap. -/
structure Part where
  node : Node
  isKey : Bool := false

/-- Whether what comes of a part lets the parts behind it be evaluated. -/
def Part.goesOn (p : Part) (o : Option Value) : Bool :=
  !o.any isSignal && (!p.isKey || (o.getD .null).key?.isSome)

/-- Expressions as parts. -/
def exprParts (es : List Expr) : List Part := es.map fun e => ⟨.expr e, false⟩

/-- Statements as parts. -/
def stmtParts (body : List Stmt) : List Part := body.map fun st => ⟨.stmt st, false⟩

/-- Keys and values as parts. -/
def pairParts (pairs : List (Expr × Expr)) : List Part :=
  pairs.flatMap fun (key, value) => [⟨.expr key, true⟩, ⟨.expr value, false⟩]

/-- What a node evaluates first of all, one part after the other. -/
def Node.parts : Node → List Part
  | .program body | .stmt (.block body) => stmtParts body
  | .stmt (.expr e) | .stmt (.assign _ e) | .stmt (.ret e) => exprParts [e]
  | .expr (.unary _ e) => exprParts [e]
  | .expr (.binary _ l r) => exprParts [l, r]
  | .expr (.index l i) => exprParts [l, i]
  | .expr (.ifThen c _ _) => exprParts [c]
  | .expr (.call f args) => exprParts (f :: args)
  | .expr (.array es) => exprParts es
  | .expr (.hashmap ps) => pairParts ps
  | _ => []

/-- Parts evaluated one after the other from a store come to the evaluation of a node from another
store. -/
inductive InOrder (ev : Evaluator) (scope : Nat) : List Part → Store → Node → Store → Prop where
  | here (p : Part) (ps : List Part) (s : Store) : InOrder ev scope (p :: ps) s p.node s
  | next {p : Part} {ps : List Part} {s t u : Store} {o : Option Value} {m : Node}
    (h : ev p.node scope s = .ok o t) (ho : p.goesOn o = true) (hm : InOrder ev scope ps t m u) :
    InOrder ev scope (p :: ps) s m u

/-- An evaluation under way: of a node in a scope from a store, with a depth left. -/
structure Visit where
  depth : Nat
  node : Node
  scope : Nat
  store : Store

namespace Visit

/-- What comes of it. -/
def result (v : Visit) : EStateM.Result Halt Store (Option Value) :=
  eval v.depth v.node v.scope v.store

/-- One evaluation starts another one. -/
inductive Enters : Visit → Visit → Prop where
  | part {d i : Nat} {n m : Node} {s t : Store} (h : InOrder (eval d) i n.parts s m t) :
    Enters ⟨d + 1, n, i, s⟩ ⟨d, m, i, t⟩
  | consequence {d i : Nat} {c : Expr} {body : List Stmt} {other : Option (List Stmt)}
    {s t : Store} (hc : (eval d).value i c s = .ok (.bool true) t) :
    Enters ⟨d + 1, .expr (.ifThen c body other), i, s⟩ ⟨d, .stmt (.block body), i, t⟩
  | alternative {d i : Nat} {c : Expr} {body other : List Stmt} {s t : Store}
    (hc : (eval d).value i c s = .ok (.bool false) t) :
    Enters ⟨d + 1, .expr (.ifThen c body (some other)), i, s⟩ ⟨d, .stmt (.block other), i, t⟩
  /-- the body of a function, in the new scope where its parameters are bound -/
  | body {d i place : Nat} {f : Expr} {args : List Expr} {vs : List Value} {c : Closure}
    {s t u : Store} (hf : (eval d).value i f s = .ok (.function place) t)
    (ha : (eval d).values i args t = .ok (.ok vs) u) (hc : u.closures[place]? = some c)
    (hn : vs.length = c.params.length) :
    Enters ⟨d + 1, .expr (.call f args), i, s⟩
      ⟨d, .stmt (.block c.body), u.scopes.size, u.enter c vs⟩

/-- An evaluation applies a builtin to arguments in a store. -/
inductive Applies : Visit → Builtin → List Value → Store → Prop where
  | call {d i : Nat} {f : Expr} {args : List Expr} {b : Builtin} {vs : List Value} {s t u : Store}
    (hf : (eval d).value i f s = .ok (.builtin b) t)
    (ha : (eval d).values i args t = .ok (.ok vs) u) :
    Applies ⟨d + 1, .expr (.call f args), i, s⟩ b vs u

/-- An evaluation comes to another one, by any number of steps inward. -/
abbrev Leads : Visit → Visit → Prop := Relation.ReflTransGen Enters

end Visit

variable {ev : Evaluator} {scope : Nat} {ps : List Part} {s t u : Store} {m n : Node} {e : Expr}
  {v : Value} {o : Option Value}

theorem InOrder.mem (h : InOrder ev scope ps s m t) : ∃ p ∈ ps, p.node = m := by
  induction h with
  | here p => exact ⟨p, by simp, rfl⟩
  | next _ _ _ ih =>
    obtain ⟨p, hp, he⟩ := ih
    exact ⟨p, by simp [hp], he⟩

/-- What a node evaluates first of all is inside it. -/
theorem Node.inside_of_mem_parts {p : Part} (h : p ∈ n.parts) : Inside p.node n := by
  unfold parts at h
  split at h
  case h_1 | h_2 =>
    obtain ⟨st, hst, rfl⟩ := List.mem_map.mp h
    first | exact .program hst | exact .block hst
  case h_3 | h_4 | h_5 | h_6 | h_9 =>
    obtain rfl := by simpa [exprParts] using h
    constructor
  case h_7 | h_8 =>
    rcases (by simpa [exprParts] using h : p = _ ∨ p = _) with rfl | rfl
    · first | exact .left _ _ _ | exact .indexed _ _
    · first | exact .right _ _ _ | exact .index _ _
  case h_10 =>
    rcases List.mem_cons.mp h with rfl | h
    · exact .callee _ _
    · obtain ⟨e, he, rfl⟩ := List.mem_map.mp h
      exact .arg _ he
  case h_11 =>
    obtain ⟨e, he, rfl⟩ := List.mem_map.mp h
    exact .element he
  case h_12 =>
    obtain ⟨⟨k, w⟩, hk, h⟩ := List.mem_flatMap.mp h
    rcases (by simpa using h : p = _ ∨ p = _) with rfl | rfl
    · exact .key hk
    · exact .value hk
  case h_13 => cases h

/-! ### What a discipline allows -/

namespace Discipline

variable {D : Discipline} {x y : Visit} {f : Expr} {es : List Expr} {vs : List Value} {d : Nat}
  {b : Builtin}

/-- An evaluation of what may be evaluated, from a store that is allowed. -/
structure Allows (D : Discipline) (x : Visit) : Prop where
  inv : D.Inv x.store
  runs : D.Runs x.store x.scope x.node

section

variable (hl : D.Lawful)
include hl

theorem Allows.keeps (h : D.Allows x) :
    D.Keeps x.store (fun o t => ∀ v ∈ o, D.Outcome t v) x.result :=
  sound_eval hl x.depth x.node x.scope x.store h.inv h.runs

/-- Parts that may be evaluated are evaluated from later stores. -/
theorem later_inOrder (hi : D.Inv s) (hr : ∀ p ∈ ps, D.Runs s scope p.node)
    (h : InOrder (eval d) scope ps s m t) : D.Later s t := by
  induction h with
  | here p ps s => exact .refl hi
  | @next p ps s t u o m hp _ _ ih =>
    have hk := sound_eval hl d p.node scope s hi (hr p (by simp))
    rw [hp] at hk
    exact hk.1.trans (ih hk.1.inv fun q hq => hk.1.runs (hr q (by simp [hq])))

/-- What a value is computed to, if it is no signal. -/
theorem later_value (hi : D.Inv s) (hr : D.Runs s scope (.expr e))
    (he : (eval d).value scope e s = .ok v t) (hv : v.isSignal = false) :
    D.Later s t ∧ D.Data t v := by
  have hk := keeps_value hl (sound_eval hl d) hi hr
  rw [he] at hk
  exact ⟨hk.1, hk.2.data (by simp [hv])⟩

/-- What is called and the arguments of the call are data. -/
theorem Allows.args (h : D.Allows ⟨d + 1, .expr (.call f es), scope, s⟩)
    (hf : (eval d).value scope f s = .ok v t) (hv : v.isSignal = false)
    (ha : (eval d).values scope es t = .ok (.ok vs) u) :
    D.Inv u ∧ D.Data u v ∧ ∀ a ∈ vs, D.Data u a := by
  obtain ⟨hlt, hd⟩ := later_value hl h.inv (hl.inside h.runs (.callee f es)) hf hv
  have hk := keeps_values hl (sound_eval hl d) hlt.inv fun e he =>
    hlt.runs (hl.inside h.runs (.arg f he))
  rw [ha] at hk
  exact ⟨hk.1.inv, hk.1.data hd, hk.2⟩

theorem Allows.applies (h : D.Allows x) (hb : x.Applies b vs t) :
    D.Inv t ∧ D.Data t (.builtin b) ∧ ∀ a ∈ vs, D.Data t a := by
  cases hb with
  | call hf ha => exact h.args hl hf rfl ha

/-- An evaluation that is allowed starts only such that are. -/
theorem Allows.enters (h : D.Allows x) (hxy : x.Enters y) : D.Allows y := by
  cases hxy with
  | part hm =>
    obtain ⟨p, hp, rfl⟩ := hm.mem
    have hr {q : Part} (hq : q ∈ _) := hl.inside h.runs (Node.inside_of_mem_parts hq)
    have hlt := later_inOrder hl h.inv (fun q hq => hr hq) hm
    exact ⟨hlt.inv, hlt.runs (hr hp)⟩
  | @consequence _ _ cond body other _ _ hc =>
    have hcond := hl.inside h.runs (.condition cond body other)
    have hlt := (later_value hl h.inv hcond hc rfl).1
    exact ⟨hlt.inv, hlt.runs (hl.inside h.runs (.consequence cond body other))⟩
  | @alternative _ _ cond body other _ _ hc =>
    have hcond := hl.inside h.runs (.condition cond body (some other))
    have hlt := (later_value hl h.inv hcond hc rfl).1
    exact ⟨hlt.inv, hlt.runs (hl.inside h.runs (.alternative cond body other))⟩
  | body hf ha hc hn =>
    obtain ⟨hi, hd, hvs⟩ := h.args hl hf rfl ha
    obtain ⟨hlt, hr⟩ := hl.enter hi hd hc hn hvs
    exact ⟨hlt.inv, hr⟩

theorem Allows.leads (h : D.Allows x) (hxy : x.Leads y) : D.Allows y := by
  induction hxy with
  | refl => exact h
  | tail _ hyz ih => exact ih.enters hl hyz

end

end Discipline

end Scriptlet
