import Scriptlet.Eval
import Scriptlet.Proofs.Value.Contents

/-!
What evaluation keeps. A discipline says which stores are allowed, which values are data in a store,
and which nodes may be evaluated in which scope of it. If every single thing that evaluation does
keeps to the discipline, then so does evaluation.
-/

namespace Scriptlet
open Value

/-- An immediate part of a node. The body of a function is none: it is evaluated where the function
is called. -/
inductive Inside : Node → Node → Prop where
  | program {st : Stmt} {body : List Stmt} (h : st ∈ body) : Inside (.stmt st) (.program body)
  | block {st : Stmt} {body : List Stmt} (h : st ∈ body) : Inside (.stmt st) (.stmt (.block body))
  | expr (e : Expr) : Inside (.expr e) (.stmt (.expr e))
  | assign (name : String) (e : Expr) : Inside (.expr e) (.stmt (.assign name e))
  | ret (e : Expr) : Inside (.expr e) (.stmt (.ret e))
  | unary (op : PrefixOp) (e : Expr) : Inside (.expr e) (.expr (.unary op e))
  | left (op : InfixOp) (l r : Expr) : Inside (.expr l) (.expr (.binary op l r))
  | right (op : InfixOp) (l r : Expr) : Inside (.expr r) (.expr (.binary op l r))
  | condition (c : Expr) (body : List Stmt) (other : Option (List Stmt)) :
    Inside (.expr c) (.expr (.ifThen c body other))
  | consequence (c : Expr) (body : List Stmt) (other : Option (List Stmt)) :
    Inside (.stmt (.block body)) (.expr (.ifThen c body other))
  | alternative (c : Expr) (body other : List Stmt) :
    Inside (.stmt (.block other)) (.expr (.ifThen c body (some other)))
  | callee (f : Expr) (args : List Expr) : Inside (.expr f) (.expr (.call f args))
  | arg {e : Expr} (f : Expr) {args : List Expr} (h : e ∈ args) :
    Inside (.expr e) (.expr (.call f args))
  | element {e : Expr} {es : List Expr} (h : e ∈ es) : Inside (.expr e) (.expr (.array es))
  | indexed (e i : Expr) : Inside (.expr e) (.expr (.index e i))
  | index (e i : Expr) : Inside (.expr i) (.expr (.index e i))
  | key {k v : Expr} {ps : List (Expr × Expr)} (h : (k, v) ∈ ps) :
    Inside (.expr k) (.expr (.hashmap ps))
  | value {k v : Expr} {ps : List (Expr × Expr)} (h : (k, v) ∈ ps) :
    Inside (.expr v) (.expr (.hashmap ps))

/-- What is allowed in evaluation. -/
structure Discipline where
  /-- the stores that are allowed -/
  Inv : Store → Prop
  /-- the values that are data in a store -/
  Data : Store → Value → Prop
  /-- the hashmaps that can be put into a store -/
  Filled : Store → Hashmap → Prop
  /-- the nodes that may be evaluated in a scope -/
  Runs : Store → Nat → Node → Prop

namespace Discipline

variable (D : Discipline)

/-- A store that is allowed behind another one, where all is still allowed that was. -/
structure Later (s t : Store) : Prop where
  inv : D.Inv t
  data ⦃v : Value⦄ : D.Data s v → D.Data t v
  filled ⦃m : Hashmap⦄ : D.Filled s m → D.Filled t m
  runs ⦃scope : Nat⦄ ⦃node : Node⦄ : D.Runs s scope node → D.Runs t scope node

/-- Data, or an error that evaluation makes. -/
def Answer (s : Store) (v : Value) : Prop := D.Data s v ∨ ∃ fault, v = ofFault fault

/-- An answer, or data on its way to the call or the program that it is the value of. -/
def Outcome (s : Store) (v : Value) : Prop :=
  D.Answer s v ∨ ∃ w, v = .returned w none ∧ D.Data s w

/-- A new value, with the store that it is in. -/
def Gives (s : Store) (r : Value × Store) : Prop := D.Later s r.2 ∧ D.Data r.2 r.1

/-- Every single thing that evaluation does keeps to a discipline. -/
structure Lawful : Prop where
  inside {s : Store} {scope : Nat} {m n : Node} : D.Runs s scope n → Inside m n → D.Runs s scope m
  not_signal {s : Store} {v : Value} : D.Data s v → v.isSignal = false
  null (s : Store) : D.Data s .null
  bool (s : Store) (b : Bool) : D.Data s (.bool b)
  string (s : Store) (t : String) : D.Data s (ofString t)
  int {s : Store} {scope : Nat} {n : Int} : D.Runs s scope (.expr (.int n)) → D.Data s (ofInt n)
  name {s : Store} {scope : Nat} {name : String} {v : Value} : D.Inv s →
    D.Runs s scope (.expr (.ident name)) → s.lookup? scope name = some v → D.Data s v
  builtin {s : Store} {scope : Nat} {name : String} {b : Builtin} :
    D.Runs s scope (.expr (.ident name)) → Builtin.ofName? name = some b → D.Data s (.builtin b)
  unary {s : Store} (op : PrefixOp) {v : Value} : D.Data s v → D.Answer s (op.apply v)
  binary {s : Store} (op : InfixOp) {l r : Value} : D.Data s l → D.Data s r →
    D.Answer s (op.apply l r)
  element {s : Store} {place : Nat} {v : Value} : D.Inv s → D.Data s (.array place) →
    v ∈ s.elements place → D.Data s v
  entry {s : Store} {place : Nat} {k : Key} {v : Value} : D.Inv s → D.Data s (.hashmap place) →
    (s.hashmap place).get? k = some v → D.Data s v
  apply {s : Store} {b : Builtin} {args : List Value} : D.Inv s → D.Data s (.builtin b) →
    (∀ v ∈ args, D.Data s v) →
      D.Later s (b.apply args s).2 ∧ D.Answer (b.apply args s).2 (b.apply args s).1
  empty (s : Store) : D.Filled s {}
  put {s : Store} {m : Hashmap} {k v : Value} {key : Key} : D.Filled s m → D.Data s k →
    k.key? = some key → D.Data s v → D.Filled s (m.put key v)
  newArray {s : Store} {vs : List Value} : D.Inv s → (∀ v ∈ vs, D.Data s v) →
    D.Gives s (s.newArray vs.toArray)
  newHashmap {s : Store} {m : Hashmap} : D.Inv s → D.Filled s m → D.Gives s (s.newHashmap m)
  newClosure {s : Store} {scope : Nat} {params : List String} {body : List Stmt} : D.Inv s →
    D.Runs s scope (.expr (.function params body)) → D.Gives s (s.newClosure ⟨params, body, scope⟩)
  bind {s : Store} {scope : Nat} {name : String} {e : Expr} {v : Value} : D.Inv s →
    D.Runs s scope (.stmt (.assign name e)) → D.Data s v → D.Later s (s.bind scope name v)
  enter {s : Store} {place : Nat} {c : Closure} {args : List Value} : D.Inv s →
    D.Data s (.function place) → s.closures[place]? = some c → args.length = c.params.length →
      (∀ v ∈ args, D.Data s v) → D.Later s (s.enter c args) ∧
        D.Runs (s.enter c args) s.scopes.size (.stmt (.block c.body))

variable {D} {α β : Type} {s t u : Store} {v : Value} {scope : Nat} {ev : Evaluator} {p : Eval α}
  {f : α → Eval β} {R : α → Store → Prop} {R' : β → Store → Prop}

theorem Later.refl (h : D.Inv s) : D.Later s s := ⟨h, fun _ h => h, fun _ h => h, fun _ _ h => h⟩

theorem Later.trans (h : D.Later s t) (h' : D.Later t u) : D.Later s u :=
  ⟨h'.inv, fun _ hv => h'.data (h.data hv), fun _ hm => h'.filled (h.filled hm),
    fun _ _ hn => h'.runs (h.runs hn)⟩

theorem Answer.outcome (h : D.Answer s v) : D.Outcome s v := .inl h

theorem Outcome.data (h : D.Outcome s v) (hv : ¬ v.isSignal = true) : D.Data s v := by
  rcases h with (h | ⟨fault, rfl⟩) | ⟨w, rfl, -⟩
  · exact h
  · exact absurd rfl hv
  · exact absurd rfl hv

variable (D) in
/-- A run ended in a later store, and with a result as described if it has one. -/
def Keeps (s : Store) (R : α → Store → Prop) : EStateM.Result Halt Store α → Prop
  | .ok a t => D.Later s t ∧ R a t
  | .error _ t => D.Later s t

theorem Keeps.later {x : EStateM.Result Halt Store α} (hx : D.Keeps t R x) (h : D.Later s t) :
    D.Keeps s R x := by
  cases x with
  | ok a u => exact ⟨h.trans hx.1, hx.2⟩
  | error e u => exact h.trans hx

theorem Keeps.bind (hp : D.Keeps s R (p s))
    (hf : ∀ a t, D.Later s t → R a t → D.Keeps t R' (f a t)) : D.Keeps s R' ((p >>= f) s) := by
  simp only [Bind.bind, EStateM.bind]
  generalize p s = x at hp
  cases x with
  | ok a t => exact (hf a t hp.1 hp.2).later hp.1
  | error e t => exact hp

theorem keeps_pure (h : D.Inv s) {a : α} (ha : R a s) : D.Keeps s R ((pure a : Eval α) s) :=
  ⟨.refl h, ha⟩

theorem Keeps.mono (hp : D.Keeps s R (p s)) {R' : α → Store → Prop}
    (h : ∀ a t, R a t → R' a t) : D.Keeps s R' (p s) := by
  generalize p s = x at hp
  cases x with
  | ok a t => exact ⟨hp.1, h a t hp.2⟩
  | error e t => exact hp

variable (D) in
/-- An evaluator keeps to a discipline. -/
def Sound (ev : Evaluator) : Prop := ∀ node scope s, D.Inv s → D.Runs s scope node →
  D.Keeps s (fun o t => ∀ v ∈ o, D.Outcome t v) (ev node scope s)

/-- A value is checked, so that what follows works with data. -/
theorem Keeps.checked {p : Eval Value} {f : Value → Eval β} {signal : Value → β}
    (hp : D.Keeps s (fun v t => D.Outcome t v) (p s))
    (hf : ∀ v t, D.Later s t → D.Data t v → D.Keeps t R' (f v t))
    (hs : ∀ v t, D.Outcome t v → R' (signal v) t) :
    D.Keeps s R' ((p >>= fun v => if v.isSignal then pure (signal v) else f v) s) := by
  refine hp.bind fun v t hlt ho => ?_
  by_cases hv : v.isSignal = true
  · rw [if_pos hv]
    exact keeps_pure hlt.inv (hs v t ho)
  · rw [if_neg hv]
    exact hf v t hlt (ho.data hv)

/-- A value that is given on as it is. -/
theorem Keeps.wrapped {p : Eval Value} {P : Value → Store → Prop} (hp : D.Keeps s P (p s)) :
    D.Keeps s (fun o t => ∀ v ∈ o, P v t) ((p >>= fun v => pure (some v)) s) := by
  refine hp.bind fun v t hlt hv => keeps_pure hlt.inv ?_
  simpa using hv

theorem keeps_modifyGet {m : Store → Value × Store} (h : D.Later s (m s).2)
    {P : Value → Store → Prop} (hv : P (m s).1 (m s).2) :
    D.Keeps s P ((modifyGet m : Eval Value) s) := ⟨h, hv⟩

variable (D) in
/-- Something with a property, or the signal that came instead. -/
def OutcomeOr (P : α → Store → Prop) : Except Value α → Store → Prop
  | .ok a, t => P a t
  | .error v, t => D.Outcome t v

theorem answer_ofFault (fault : Fault) : D.Answer s (ofFault fault) := .inr ⟨fault, rfl⟩

/-- An answer is no `return`. -/
theorem Answer.ne_returned (hl : D.Lawful) (h : D.Answer s v) (w : Value) (m : Mark) :
    v ≠ .returned w m := by
  rintro rfl
  rcases h with h | ⟨fault, h⟩
  · exact absurd (hl.not_signal h) (by simp [isSignal])
  · exact absurd h (by simp [ofFault])

theorem keeps_get {f : Store → Eval β} (h : D.Keeps s R' (f s s)) :
    D.Keeps s R' ((get >>= f) s) := h

theorem keeps_set {f : PUnit → Eval β} (hlt : D.Later s t) (h : D.Keeps t R' (f ⟨⟩ t)) :
    D.Keeps s R' ((set t >>= f) s) := h.later hlt

/-- Where a `return` is looked for the value of it is an answer like others. -/
theorem Keeps.catchReturn {p : Eval (Option Value)} {f : Option Value → Eval β}
    (hl : D.Lawful) (hp : D.Keeps s (fun o t => ∀ v ∈ o, D.Outcome t v) (p s))
    (hf : ∀ o t, D.Later s t → (∀ v ∈ o, D.Answer t v) → D.Keeps t R' (f o t))
    (hr : ∀ v m, v.isSignal = false → f (some (.returned v m)) = f (some v)) :
    D.Keeps s R' ((p >>= f) s) := by
  refine hp.bind fun o t hlt ho => ?_
  cases o with
  | none => exact hf none t hlt nofun
  | some v =>
    rcases ho v rfl with hv | ⟨w, rfl, hw⟩
    · refine hf (some v) t hlt fun w h => ?_
      rwa [← Option.mem_some.mp h]
    · rw [hr w none (hl.not_signal hw)]
      refine hf (some w) t hlt fun w' h => ?_
      rw [← Option.mem_some.mp h]
      exact .inl hw

/-! ### Evaluation -/

section

variable (hl : D.Lawful)
include hl

theorem answer_getD {o : Option Value} (ho : ∀ v ∈ o, D.Answer s v) :
    D.Answer s (o.getD .null) := by
  cases o with
  | none => exact .inl (hl.null s)
  | some v => exact ho v rfl

theorem keeps_identifier (hi : D.Inv s) {name : String}
    (hr : D.Runs s scope (.expr (.ident name))) :
    D.Keeps s (fun v t => D.Answer t v) (Evaluator.identifier scope name s) := by
  refine keeps_get ?_
  cases hv : s.lookup? scope name with
  | some v => exact keeps_pure hi (.inl (hl.name hi hr hv))
  | none =>
    cases hb : Builtin.ofName? name with
    | some b => exact keeps_pure hi (.inl (hl.builtin hr hb))
    | none => exact keeps_pure hi (answer_ofFault _)

theorem keeps_index (hi : D.Inv s) {left i : Value} (hv : D.Data s left) :
    D.Keeps s (fun v t => D.Answer t v) (Evaluator.index left i s) := by
  cases left with
  | array place =>
    cases i with
    | int n mark =>
      change D.Keeps s _ ((if n < 0 then _ else _ : Eval Value) s)
      by_cases hn : n < 0
      · rw [if_pos hn]
        exact keeps_pure hi (.inl (hl.null s))
      · rw [if_neg hn]
        refine keeps_get (keeps_pure hi (answer_getD hl fun v h => .inl ?_))
        exact hl.element hi hv (Array.mem_of_getElem? h)
    | _ => exact keeps_pure hi (answer_ofFault _)
  | hashmap place =>
    have hk (k : Key) : D.Keeps s (fun v t => D.Answer t v)
        ((get >>= fun s : Store => pure (((s.hashmap place).get? k).getD .null) : Eval Value) s) :=
      keeps_get (keeps_pure hi (answer_getD hl fun v h => .inl (hl.entry hi hv h)))
    cases i with
    | int => exact hk _
    | bool => exact hk _
    | string => exact hk _
    | _ => exact keeps_pure hi (answer_ofFault _)
  | _ => exact keeps_pure hi (answer_ofFault _)

variable (he : D.Sound ev)
include he

omit hl in
theorem keeps_sequence (hi : D.Inv s) {o : Option Value} (ho : ∀ v ∈ o, D.Outcome s v)
    {ss : List Stmt} (hr : ∀ st ∈ ss, D.Runs s scope (.stmt st)) :
    D.Keeps s (fun o t => ∀ v ∈ o, D.Outcome t v) (ev.sequence scope o ss s) := by
  induction ss generalizing o s with
  | nil => exact keeps_pure hi ho
  | cons st ss ih =>
    refine (he _ _ _ hi (hr st (by simp))).bind fun o' t hlt ho' => ?_
    by_cases hs : o'.any isSignal = true
    · rw [if_pos hs]
      exact keeps_pure hlt.inv ho'
    · rw [if_neg hs]
      exact ih hlt.inv ho' fun st' h => hlt.runs (hr st' (by simp [h]))

/-- A program is never a `return`. -/
theorem keeps_program (hi : D.Inv s) {body : List Stmt} (hr : D.Runs s scope (.program body)) :
    D.Keeps s (fun o t => ∀ v ∈ o, D.Answer t v) (ev.program scope body s) := by
  have hb := keeps_sequence he hi (o := none) nofun fun st h => hl.inside hr (.program h)
  refine hb.catchReturn hl (fun o t hlt ho => ?_) fun v m hv => ?_
  · cases o with
    | none => exact keeps_pure hlt.inv ho
    | some v =>
      cases v with
      | returned w m => exact absurd rfl ((ho _ rfl).ne_returned hl w m)
      | _ => exact keeps_pure hlt.inv ho
  · cases v with
    | returned => exact absurd hv (by simp [isSignal])
    | _ => rfl

theorem keeps_value (hi : D.Inv s) {e : Expr} (hr : D.Runs s scope (.expr e)) :
    D.Keeps s (fun v t => D.Outcome t v) (ev.value scope e s) := by
  refine (he _ _ _ hi hr).bind fun o t hlt ho => keeps_pure hlt.inv ?_
  cases o with
  | none => exact .inl (.inl (hl.null t))
  | some v => exact ho v rfl

theorem keeps_values (hi : D.Inv s) {es : List Expr} (hr : ∀ e ∈ es, D.Runs s scope (.expr e)) :
    D.Keeps s (D.OutcomeOr fun vs t => ∀ v ∈ vs, D.Data t v) (ev.values scope es s) := by
  induction es generalizing s with
  | nil => exact keeps_pure hi (by simp [OutcomeOr])
  | cons e es ih =>
    refine (keeps_value hl he hi (hr e (by simp))).checked (fun v t hlt hv => ?_) fun _ _ ho => ho
    have hes := ih hlt.inv fun e' h => hlt.runs (hr e' (by simp [h]))
    refine hes.bind fun r u hlu hr' => ?_
    cases r with
    | error signal => exact keeps_pure hlu.inv hr'
    | ok vs =>
      refine keeps_pure hlu.inv ?_
      rintro w (_ | ⟨_, hw⟩)
      · exact hlu.data hv
      · exact hr' w hw

/-- A block in the place of an expression. -/
theorem keeps_branch (hi : D.Inv s) {body : List Stmt} (hr : D.Runs s scope (.stmt (.block body))) :
    D.Keeps s (fun v t => D.Outcome t v)
      ((ev (.stmt (.block body)) scope >>= fun o => pure (o.getD .null)) s) := by
  refine (he _ _ _ hi hr).bind fun o t hlt ho => keeps_pure hlt.inv ?_
  cases o with
  | none => exact .inl (.inl (hl.null t))
  | some v => exact ho v rfl

theorem keeps_conditional (hi : D.Inv s) {c : Expr} {body : List Stmt}
    {other : Option (List Stmt)} (hr : D.Runs s scope (.expr (.ifThen c body other))) :
    D.Keeps s (fun v t => D.Outcome t v) (ev.conditional scope c body other s) := by
  refine (keeps_value hl he hi (hl.inside hr (.condition c body other))).checked
    (fun v t hlt hv => ?_) fun _ _ ho => ho
  cases v with
  | bool b =>
    cases b with
    | true => exact keeps_branch hl he hlt.inv (hlt.runs (hl.inside hr (.consequence c body other)))
    | false =>
      cases other with
      | none => exact keeps_pure hlt.inv (.inl (.inl (hl.null t)))
      | some other =>
        exact keeps_branch hl he hlt.inv (hlt.runs (hl.inside hr (.alternative c body other)))
  | _ => exact keeps_pure hlt.inv (answer_ofFault _).outcome

/-- A call is never a `return`. -/
theorem keeps_callClosure (hi : D.Inv s) {place : Nat} {c : Closure} {args : List Value}
    (hp : D.Data s (.function place)) (hc : s.closures[place]? = some c)
    (ha : ∀ v ∈ args, D.Data s v) :
    D.Keeps s (fun v t => D.Answer t v) (ev.callClosure c args s) := by
  unfold Evaluator.callClosure
  by_cases hn : args.length = c.params.length
  · rw [if_neg (not_not_intro hn)]
    obtain ⟨hlt, hr⟩ := hl.enter hi hp hc hn ha
    refine keeps_get (keeps_set hlt ?_)
    refine (he _ _ _ hlt.inv hr).catchReturn hl (fun o t hlt ho => ?_) fun v m hv => ?_
    · cases o with
      | none => exact keeps_pure hlt.inv (.inl (hl.null t))
      | some v =>
        cases v with
        | returned w m => exact absurd rfl ((ho _ rfl).ne_returned hl w m)
        | _ => exact keeps_pure hlt.inv (ho _ rfl)
    · cases v with
      | returned => exact absurd hv (by simp [isSignal])
      | _ => rfl
  · rw [if_pos hn]
    exact keeps_pure hi (answer_ofFault _)

theorem keeps_call (hi : D.Inv s) {callee : Value} {args : List Value} (hc : D.Data s callee)
    (ha : ∀ v ∈ args, D.Data s v) :
    D.Keeps s (fun v t => D.Answer t v) (ev.call callee args s) := by
  cases callee with
  | function place =>
    refine keeps_get ?_
    cases hp : s.closures[place]? with
    | none => exact keeps_pure hi (answer_ofFault _)
    | some c => exact keeps_callClosure hl he hi hc hp ha
  | builtin b =>
    obtain ⟨hlt, hv⟩ := hl.apply hi hc ha
    exact keeps_modifyGet hlt hv
  | _ => exact keeps_pure hi (answer_ofFault _)

theorem keeps_entries (hi : D.Inv s) {ps : List (Expr × Expr)} {m : Hashmap}
    (hm : D.Filled s m) (hk : ∀ p ∈ ps, D.Runs s scope (.expr p.1))
    (hv : ∀ p ∈ ps, D.Runs s scope (.expr p.2)) :
    D.Keeps s (D.OutcomeOr fun m t => D.Filled t m) (ev.entries scope ps m s) := by
  induction ps generalizing s m with
  | nil => exact keeps_pure hi hm
  | cons pair ps ih =>
    obtain ⟨keyExpr, valueExpr⟩ := pair
    have hkey := keeps_value hl he hi (hk (keyExpr, valueExpr) (by simp))
    refine hkey.checked (fun k t hlt hkt => ?_) fun _ _ ho => ho
    cases hkey : k.key? with
    | none => exact keeps_pure hlt.inv (answer_ofFault _).outcome
    | some key =>
      have hvalue := keeps_value hl he hlt.inv (hlt.runs (hv (keyExpr, valueExpr) (by simp)))
      refine hvalue.checked (fun v u hlu hvu => ?_) fun _ _ ho => ho
      refine ih hlu.inv (hl.put (hlu.filled (hlt.filled hm)) (hlu.data hkt) hkey hvu)
        (fun p hp => ?_) fun p hp => ?_
      · exact hlu.runs (hlt.runs (hk p (by simp [hp])))
      · exact hlu.runs (hlt.runs (hv p (by simp [hp])))

theorem keeps_expression (hi : D.Inv s) {e : Expr} (hr : D.Runs s scope (.expr e)) :
    D.Keeps s (fun o t => ∀ v ∈ o, D.Outcome t v) (ev.expression scope e s) := by
  have hsome {v : Value} (hv : D.Outcome s v) : ∀ w ∈ some v, D.Outcome s w := by simpa using hv
  have hsig (v : Value) (t : Store) (hv : D.Outcome t v) : ∀ w ∈ some v, D.Outcome t w := by
    simpa using hv
  cases e with
  | int n => exact keeps_pure hi (hsome (.inl (.inl (hl.int hr))))
  | bool b => exact keeps_pure hi (hsome (.inl (.inl (hl.bool s b))))
  | string t => exact keeps_pure hi (hsome (.inl (.inl (hl.string s t))))
  | ident name => exact ((keeps_identifier hl hi hr).mono fun _ _ h => h.outcome).wrapped
  | unary op right =>
    refine (keeps_value hl he hi (hl.inside hr (.unary op right))).checked
      (fun v t hlt hv => keeps_pure hlt.inv ?_) hsig
    exact hsig _ t (hl.unary op hv).outcome
  | binary op left right =>
    refine (keeps_value hl he hi (hl.inside hr (.left op left right))).checked
      (fun l t hlt hlv => ?_) hsig
    refine (keeps_value hl he hlt.inv (hlt.runs (hl.inside hr (.right op left right)))).checked
      (fun r u hlu hrv => keeps_pure hlu.inv ?_) hsig
    exact hsig _ u (hl.binary op (hlu.data hlv) hrv).outcome
  | ifThen c body other => exact (keeps_conditional hl he hi hr).wrapped
  | function params body =>
    obtain ⟨hlt, hv⟩ := hl.newClosure hi hr
    exact Keeps.wrapped (P := fun v t => D.Outcome t v) (keeps_modifyGet hlt (.inl (.inl hv)))
  | call callee args =>
    refine (keeps_value hl he hi (hl.inside hr (.callee callee args))).checked
      (fun f t hlt hf => ?_) hsig
    have ha := keeps_values hl he hlt.inv fun e h => hlt.runs (hl.inside hr (.arg callee h))
    refine ha.bind fun r u hlu hrv => ?_
    cases r with
    | error signal => exact keeps_pure hlu.inv (hsig _ u hrv)
    | ok vs =>
      exact ((keeps_call hl he hlu.inv (hlu.data hf) hrv).mono fun _ _ h => h.outcome).wrapped
  | array es =>
    have ha := keeps_values hl he hi fun e h => hl.inside hr (.element h)
    refine ha.bind fun r t hlt hrv => ?_
    cases r with
    | error signal => exact keeps_pure hlt.inv (hsig _ t hrv)
    | ok vs =>
      obtain ⟨hlu, hv⟩ := hl.newArray hlt.inv hrv
      exact Keeps.wrapped (P := fun v t => D.Outcome t v) (keeps_modifyGet hlu (.inl (.inl hv)))
  | index left i =>
    refine (keeps_value hl he hi (hl.inside hr (.indexed left i))).checked
      (fun l t hlt hlv => ?_) hsig
    refine (keeps_value hl he hlt.inv (hlt.runs (hl.inside hr (.index left i)))).checked
      (fun r u hlu _ => ?_) hsig
    exact ((keeps_index hl hlu.inv (hlu.data hlv)).mono fun _ _ h => h.outcome).wrapped
  | hashmap ps =>
    have hp := keeps_entries hl he hi (hl.empty s) (fun p h => hl.inside hr (.key h))
      fun p h => hl.inside hr (.value h)
    refine hp.bind fun r t hlt hm => ?_
    cases r with
    | error signal => exact keeps_pure hlt.inv (hsig _ t hm)
    | ok m =>
      obtain ⟨hlu, hv⟩ := hl.newHashmap hlt.inv hm
      exact Keeps.wrapped (P := fun v t => D.Outcome t v) (keeps_modifyGet hlu (.inl (.inl hv)))

theorem keeps_statement (hi : D.Inv s) {st : Stmt} (hr : D.Runs s scope (.stmt st)) :
    D.Keeps s (fun o t => ∀ v ∈ o, D.Outcome t v) (ev.statement scope st s) := by
  have hsig (v : Value) (t : Store) (hv : D.Outcome t v) : ∀ w ∈ some v, D.Outcome t w := by
    simpa using hv
  cases st with
  | expr e => exact he _ _ _ hi (hl.inside hr (.expr e))
  | block body => exact keeps_sequence he hi (o := none) nofun fun st h => hl.inside hr (.block h)
  | assign name e =>
    refine (keeps_value hl he hi (hl.inside hr (.assign name e))).checked
      (fun v t hlt hv => ?_) hsig
    exact ⟨hl.bind hlt.inv (hlt.runs hr) hv, nofun⟩
  | ret e =>
    refine (keeps_value hl he hi (hl.inside hr (.ret e))).checked
      (fun v t hlt hv => keeps_pure hlt.inv ?_) hsig
    exact hsig _ t (.inr ⟨v, rfl, hv⟩)

theorem sound_step : D.Sound ev.step := by
  intro node scope s hi hr
  cases node with
  | program body =>
    exact (keeps_program hl he hi hr).mono fun _ _ h v hv => (h v hv).outcome
  | stmt st => exact keeps_statement hl he hi hr
  | expr e => exact keeps_expression hl he hi hr
  | foreign typeName => exact .refl hi

omit he in
/-- Evaluation at every depth keeps to a lawful discipline. -/
theorem sound_eval (depth : Nat) : D.Sound (eval depth) := by
  induction depth with
  | zero => exact fun _ _ _ hi _ => .refl hi
  | succ n ih => exact sound_step hl ih

end

end Discipline

end Scriptlet
