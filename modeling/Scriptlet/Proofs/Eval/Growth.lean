import Scriptlet.Proofs.Eval.Storage

/-!
What evaluation leaves as it was. In every store, well formed or not, it does single operations
only, and none of these touches what is there: an array may get more elements behind those it has,
a hashmap and a function stay as they are.
-/

namespace Scriptlet
open Value

variable {α β : Type} {s t u : Store} {p : Eval α} {f : α → Eval β} {ev : Evaluator} {scope : Nat}

/-- The store that a run ends with, whether or not there is a result. -/
def endStore : EStateM.Result Halt Store α → Store
  | .ok _ t => t
  | .error _ t => t

namespace Store

/-- One store comes from another one by single operations. -/
abbrev Changes : Store → Store → Prop := Relation.ReflTransGen Change

/-- A store in which all data of another one is still there: the elements of each array in front,
each hashmap with the same entries and each function with the same parameters, body and scope. -/
structure Grows (s t : Store) : Prop where
  elements : ∀ place < s.arrays.size, place < t.arrays.size ∧
    (s.elements place).toList <+: (t.elements place).toList
  hashmaps : ∀ place < s.hashmaps.size, t.hashmaps[place]? = s.hashmaps[place]?
  closures : ∀ place < s.closures.size, t.closures[place]? = s.closures[place]?

theorem Grows.refl (s : Store) : s.Grows s :=
  ⟨fun _ h => ⟨h, List.prefix_refl _⟩, fun _ _ => rfl, fun _ _ => rfl⟩

theorem lt_size_of_getElem?_eq {a b : Array α} {i : Nat} (h : b[i]? = a[i]?) (hi : i < a.size) :
    i < b.size := by
  rw [Array.getElem?_eq_getElem hi] at h
  exact (Array.getElem?_eq_some_iff.mp h).1

theorem Grows.trans (h : s.Grows t) (h' : t.Grows u) : s.Grows u := by
  refine ⟨fun place hp => ?_, fun place hp => ?_, fun place hp => ?_⟩
  · obtain ⟨ht, hst⟩ := h.elements place hp
    obtain ⟨hu, htu⟩ := h'.elements place ht
    exact ⟨hu, hst.trans htu⟩
  · have hs := h.hashmaps place hp
    exact (h'.hashmaps place (lt_size_of_getElem?_eq hs hp)).trans hs
  · have hs := h.closures place hp
    exact (h'.closures place (lt_size_of_getElem?_eq hs hp)).trans hs

/-- Whatever leaves arrays, hashmaps and functions alone. -/
theorem grows_of_eq (ha : t.arrays = s.arrays) (hm : t.hashmaps = s.hashmaps)
    (hc : t.closures = s.closures) : s.Grows t := by
  refine ⟨fun place hp => ⟨ha ▸ hp, ?_⟩, fun place _ => by rw [hm], fun place _ => by rw [hc]⟩
  simp [Store.elements, ha]

theorem grows_newArray (a : Array Value) : s.Grows (s.newArray a).2 := by
  refine ⟨fun place hp => ⟨?_, ?_⟩, fun _ _ => rfl, fun _ _ => rfl⟩
  · simpa [newArray] using Nat.lt_succ_of_lt hp
  · have he : (s.newArray a).2.elements place = s.elements place := by
      rw [elements_newArray, if_neg (Nat.ne_of_lt hp)]
    exact he ▸ List.prefix_refl _

theorem grows_push (place : Nat) (v : Value) : s.Grows (s.push place v) := by
  refine ⟨fun i hi => ⟨by simpa [Store.push] using hi, ?_⟩, fun _ _ => rfl, fun _ _ => rfl⟩
  simp only [Store.elements, Store.push, Array.getElem?_modify]
  by_cases hp : place = i
  · subst hp
    simp [hi]
  · simp [hp]

theorem grows_newHashmap (m : Hashmap) : s.Grows (s.newHashmap m).2 := by
  refine ⟨fun _ hp => ⟨hp, List.prefix_refl _⟩, fun place hp => ?_, fun _ _ => rfl⟩
  simp [newHashmap, Array.getElem?_push, Nat.ne_of_lt hp]

theorem grows_newClosure (c : Closure) : s.Grows (s.newClosure c).2 := by
  refine ⟨fun _ hp => ⟨hp, List.prefix_refl _⟩, fun _ _ => rfl, fun place hp => ?_⟩
  simp [newClosure, Array.getElem?_push, Nat.ne_of_lt hp]

theorem Change.grows (h : s.Change t) : s.Grows t := by
  cases h with
  | newScope => exact grows_of_eq rfl rfl rfl
  | bind => exact grows_of_eq rfl rfl rfl
  | newArray => exact grows_newArray _
  | newHashmap => exact grows_newHashmap _
  | newClosure => exact grows_newClosure _
  | push => exact grows_push _ _

theorem Changes.grows (h : s.Changes t) : s.Grows t := by
  induction h with
  | refl => exact .refl s
  | tail _ hc ih => exact ih.trans hc.grows

/-- A call enters its scope by single operations. -/
theorem changes_enter (s : Store) (c : Closure) (args : List Value) :
    s.Changes (s.enter c args) :=
  enter_induction (.single (.newScope s _)) fun t name v _ ht => ht.tail (.bind t _ name v)

theorem changes_apply (b : Builtin) (args : List Value) (s : Store) :
    s.Changes (b.apply args s).2 := by
  rcases b.apply_cases args s with ⟨v, -, h⟩ | ⟨place, v, -, -, h⟩ | ⟨place, v, -, -, h⟩
  · rw [h]
  · rw [h]
    exact .single (.push s place v)
  · rw [h]

end Store

/-! ### Runs that do single operations -/

/-- A run changes the store by single operations only. -/
def Changing (p : Eval α) : Prop := ∀ s : Store, s.Changes (endStore (p s))

theorem Changing.bind (hp : Changing p) (hf : ∀ a, Changing (f a)) : Changing (p >>= f) := by
  intro s
  have hs := hp s
  simp only [Bind.bind, EStateM.bind]
  generalize p s = x at hs
  cases x with
  | ok a t => exact hs.trans (hf a t)
  | error e t => exact hs

theorem changing_pure (a : α) : Changing (pure a) := fun _ => .refl

theorem changing_throw (h : Halt) : Changing (throw h : Eval α) := fun _ => .refl

theorem changing_get {f : Store → Eval β} (h : ∀ s, Changing (f s)) : Changing (get >>= f) :=
  fun s => h s s

theorem changing_modifyGet {m : Store → α × Store} (h : ∀ s : Store, s.Changes (m s).2) :
    Changing (modifyGet m : Eval α) := h

/-- A signal is handed upward, and with anything else the run goes on. -/
theorem Changing.unless {c : Bool} {a : α} (hp : Changing p) :
    Changing (if c then pure a else p) := by
  split
  · exact changing_pure a
  · exact hp

/-! ### Evaluation -/

theorem changing_identifier (name : String) : Changing (Evaluator.identifier scope name) := by
  refine changing_get fun s => ?_
  split
  · exact changing_pure _
  · split <;> exact changing_pure _

theorem changing_index (left i : Value) : Changing (Evaluator.index left i) := by
  unfold Evaluator.index
  split
  · split
    · exact changing_pure _
    · exact changing_get fun s => changing_pure _
  · exact changing_pure _
  · split
    · exact changing_pure _
    · exact changing_get fun s => changing_pure _
  · exact changing_pure _

section

variable (he : ∀ node scope, Changing (ev node scope))
include he

theorem changing_value (e : Expr) : Changing (ev.value scope e) :=
  (he _ _).bind fun _ => changing_pure _

theorem changing_values (es : List Expr) : Changing (ev.values scope es) := by
  induction es with
  | nil => exact changing_pure _
  | cons e es ih =>
    refine (changing_value he e).bind fun v => Changing.unless (ih.bind fun r => ?_)
    cases r <;> exact changing_pure _

theorem changing_sequence (o : Option Value) (ss : List Stmt) :
    Changing (ev.sequence scope o ss) := by
  induction ss generalizing o with
  | nil => exact changing_pure _
  | cons st ss ih => exact (he _ _).bind fun o' => Changing.unless (ih o')

theorem changing_program (body : List Stmt) : Changing (ev.program scope body) := by
  refine (changing_sequence he none body).bind fun o => ?_
  split <;> exact changing_pure _

theorem changing_conditional (c : Expr) (body : List Stmt) (other : Option (List Stmt)) :
    Changing (ev.conditional scope c body other) := by
  have hb (ss : List Stmt) : Changing (ev (.stmt (.block ss)) scope >>= fun o =>
      pure (o.getD .null)) := (he _ _).bind fun _ => changing_pure _
  refine (changing_value he c).bind fun v => Changing.unless ?_
  split
  · exact hb body
  · exact hb _
  · exact changing_pure _
  · exact changing_pure _

theorem changing_callClosure (c : Closure) (args : List Value) :
    Changing (ev.callClosure c args) := by
  unfold Evaluator.callClosure
  split
  · exact changing_pure _
  · intro s
    refine (Store.changes_enter s c args).trans (Changing.bind
      (p := ev (.stmt (.block c.body)) s.scopes.size) (he _ _) (fun o => ?_) (s.enter c args))
    split <;> exact changing_pure _

theorem changing_call (callee : Value) (args : List Value) : Changing (ev.call callee args) := by
  unfold Evaluator.call
  split
  · refine changing_get fun s => ?_
    split
    · exact changing_callClosure he _ args
    · exact changing_pure _
  · exact changing_modifyGet fun s => Store.changes_apply _ args s
  · exact changing_pure _

theorem changing_entries (ps : List (Expr × Expr)) (m : Hashmap) :
    Changing (ev.entries scope ps m) := by
  induction ps generalizing m with
  | nil => exact changing_pure _
  | cons pair ps ih =>
    obtain ⟨keyExpr, valueExpr⟩ := pair
    refine (changing_value he keyExpr).bind fun k => Changing.unless ?_
    split
    · exact changing_pure _
    · exact (changing_value he valueExpr).bind fun v => Changing.unless (ih _)

theorem changing_expression (e : Expr) : Changing (ev.expression scope e) := by
  cases e with
  | int n => exact changing_pure _
  | bool b => exact changing_pure _
  | string t => exact changing_pure _
  | ident name => exact (changing_identifier name).bind fun _ => changing_pure _
  | unary op right =>
    exact (changing_value he right).bind fun v => Changing.unless (changing_pure _)
  | binary op left right =>
    exact (changing_value he left).bind fun l => Changing.unless <|
      (changing_value he right).bind fun r => Changing.unless (changing_pure _)
  | ifThen c body other =>
    exact (changing_conditional he c body other).bind fun _ => changing_pure _
  | function params body =>
    exact (changing_modifyGet fun s => .single (.newClosure s _)).bind fun _ => changing_pure _
  | call callee args =>
    refine (changing_value he callee).bind fun f => Changing.unless ?_
    refine (changing_values he args).bind fun r => ?_
    cases r with
    | error signal => exact changing_pure _
    | ok vs => exact (changing_call he f vs).bind fun _ => changing_pure _
  | array elements =>
    refine (changing_values he elements).bind fun r => ?_
    cases r with
    | error signal => exact changing_pure _
    | ok vs =>
      exact (changing_modifyGet fun s => .single (.newArray s _)).bind fun _ => changing_pure _
  | index left i =>
    exact (changing_value he left).bind fun l => Changing.unless <|
      (changing_value he i).bind fun r => Changing.unless <|
        (changing_index l r).bind fun _ => changing_pure _
  | hashmap pairs =>
    refine (changing_entries he pairs {}).bind fun r => ?_
    cases r with
    | error signal => exact changing_pure _
    | ok m =>
      exact (changing_modifyGet fun s => .single (.newHashmap s _)).bind fun _ => changing_pure _

theorem changing_statement (st : Stmt) : Changing (ev.statement scope st) := by
  cases st with
  | expr e => exact he _ _
  | block body => exact changing_sequence he none body
  | assign name e =>
    refine (changing_value he e).bind fun v => Changing.unless ?_
    exact fun s => .single (.bind s scope name v)
  | ret e => exact (changing_value he e).bind fun v => Changing.unless (changing_pure _)

theorem changing_step (node : Node) : Changing (ev.step node scope) := by
  cases node with
  | program body => exact changing_program he body
  | stmt st => exact changing_statement he st
  | expr e => exact changing_expression he e
  | foreign typeName => exact changing_throw _

end

/-- Evaluation changes the store by single operations only. -/
theorem changing_eval (depth : Nat) (node : Node) (scope : Nat) :
    Changing (eval depth node scope) := by
  induction depth generalizing node scope with
  | zero => exact changing_throw _
  | succ n ih => exact changing_step ih node

/-- Whatever is evaluated in whatever store, and however it ends, the data that was there stays:
arrays get more elements at their ends, and hashmaps and functions do not change. -/
theorem grows_eval (depth : Nat) (node : Node) (scope : Nat) (s : Store) :
    s.Grows (endStore (eval depth node scope s)) :=
  (changing_eval depth node scope s).grows

end Scriptlet
