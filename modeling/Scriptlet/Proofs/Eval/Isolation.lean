import Scriptlet.Proofs.Eval.Exceptions
import Scriptlet.Proofs.Eval.Growth

/-!
Scopes are isolated. Evaluation in a scope binds names in that scope only, and only those that an
assignment in the node is for; functions bind names in scopes of their own.
-/

namespace Scriptlet
open Value

variable {first s t : Store} {v : Value} {scope i : Nat} {targets : String → Prop} {name : String}

/-- An assignment to the name is part of the node, outside the bodies of functions. -/
def Node.Assigns (n : Node) (name : String) : Prop :=
  ∃ e, Relation.ReflTransGen Inside (.stmt (.assign name e)) n

theorem Inside.assigns {m n : Node} (h : Inside m n) (ha : m.Assigns name) : n.Assigns name := by
  obtain ⟨e, he⟩ := ha
  exact ⟨e, he.tail h⟩

namespace Store

/-- A store whose scopes are those of another one, and new ones: no scope has another one around it,
only the given scope has other bindings than before, and only of the target names. No name is taken
away. -/
structure Isolated (targets : String → Prop) (scope : Nat) (s t : Store) : Prop where
  size : s.scopes.size ≤ t.scopes.size
  outer : ∀ i < s.scopes.size, t.outerOf i = s.outerOf i
  other : ∀ i < s.scopes.size, i ≠ scope → t.namesOf i = s.namesOf i
  names : ∀ i < s.scopes.size, (s.namesOf i).map (·.1) <+: (t.namesOf i).map (·.1)
  bound : ∀ i < s.scopes.size, ∀ name, ¬ targets name →
    (t.namesOf i).lookup name = (s.namesOf i).lookup name

theorem Isolated.refl (s : Store) : s.Isolated targets scope s :=
  ⟨Nat.le_refl _, fun _ _ => rfl, fun _ _ _ => rfl, fun _ _ => List.prefix_refl _,
    fun _ _ _ _ => rfl⟩

/-- Where the scopes that were there stay the same. -/
theorem Isolated.of_same (h : first.Isolated targets scope s) (hs : s.scopes.size ≤ t.scopes.size)
    (hi : ∀ i < s.scopes.size, t.scopes[i]? = s.scopes[i]?) : first.Isolated targets scope t := by
  have hn : ∀ i < first.scopes.size, t.namesOf i = s.namesOf i := fun i hf => by
    simp only [namesOf, hi i (Nat.lt_of_lt_of_le hf h.size)]
  refine ⟨Nat.le_trans h.size hs, fun i hf => ?_, fun i hf he => ?_, fun i hf => ?_,
    fun i hf name ht => ?_⟩
  · rw [← h.outer i hf]
    simp only [outerOf, hi i (Nat.lt_of_lt_of_le hf h.size)]
  · rw [hn i hf, h.other i hf he]
  · rw [hn i hf]
    exact h.names i hf
  · rw [hn i hf, h.bound i hf name ht]

theorem Isolated.newScope (h : first.Isolated targets scope s) (outer : Option Nat) :
    first.Isolated targets scope (s.newScope outer).2 := by
  refine h.of_same (by simp [Store.newScope]) fun i hi => ?_
  simp [Store.newScope, Array.getElem?_push, Nat.ne_of_lt hi]

theorem outerOf_bind : (s.bind i name v).outerOf scope = s.outerOf scope := by
  simp only [outerOf, bind, Array.getElem?_modify]
  by_cases hi : i = scope
  · cases s.scopes[scope]? <;> simp [hi]
  · simp [hi]

theorem namesOf_bind_ne (hi : i ≠ scope) : (s.bind i name v).namesOf scope = s.namesOf scope := by
  simp [namesOf, bind, Array.getElem?_modify, hi]

theorem namesOf_bind (hi : i < s.scopes.size) :
    (s.bind i name v).namesOf i = Scope.bindIn name v (s.namesOf i) := by
  simp only [namesOf, bind, Array.getElem?_modify, Array.getElem?_eq_getElem hi]
  rfl

end Store

theorem Scope.names_prefix_bindIn (name : String) (v : Value) (l : List (String × Value)) :
    l.map (·.1) <+: (bindIn name v l).map (·.1) := by
  induction l with
  | nil => exact List.nil_prefix
  | cons b l ih =>
    obtain ⟨n, w⟩ := b
    unfold bindIn
    split
    · next hn =>
      subst hn
      exact List.prefix_refl _
    · exact (List.prefix_cons_inj n).mpr ih

theorem Scope.lookup_bindIn {n : String} (hn : n ≠ name) (v : Value) (l : List (String × Value)) :
    (bindIn name v l).lookup n = l.lookup n := by
  induction l with
  | nil => simp [bindIn, List.lookup_cons, beq_eq_false_iff_ne.mpr hn]
  | cons b l ih =>
    obtain ⟨m, w⟩ := b
    unfold bindIn
    split
    · next hm =>
      subst hm
      simp [List.lookup_cons, beq_eq_false_iff_ne.mpr hn]
    · simp only [List.lookup_cons, ih]

namespace Store

/-- A target is bound in the scope itself, and anything in a new scope. -/
theorem Isolated.bind (h : first.Isolated targets scope s)
    (hi : i = scope ∧ targets name ∨ first.scopes.size ≤ i) (v : Value) :
    first.Isolated targets scope (s.bind i name v) := by
  have hsize : (s.bind i name v).scopes.size = s.scopes.size := by simp [Store.bind]
  -- all other scopes that were there are the same
  have hn : ∀ j < first.scopes.size, (s.bind i name v).namesOf j = s.namesOf j ∨
      j = scope ∧ targets name ∧
        (s.bind i name v).namesOf j = Scope.bindIn name v (s.namesOf j) := by
    intro j hj
    by_cases hij : i = j
    · subst hij
      rcases hi with ⟨rfl, ht⟩ | hi
      · exact .inr ⟨rfl, ht, namesOf_bind (Nat.lt_of_lt_of_le hj h.size)⟩
      · omega
    · exact .inl (namesOf_bind_ne hij)
  refine ⟨hsize ▸ h.size, fun j hj => outerOf_bind.trans (h.outer j hj), fun j hj hne => ?_,
    fun j hj => ?_, fun j hj n ht => ?_⟩
  · rcases hn j hj with hj' | ⟨rfl, -⟩
    · exact hj'.trans (h.other j hj hne)
    · exact absurd rfl hne
  · rcases hn j hj with hj' | ⟨-, -, hj'⟩
    · exact hj' ▸ h.names j hj
    · exact hj' ▸ (h.names j hj).trans (Scope.names_prefix_bindIn name v _)
  · rcases hn j hj with hj' | ⟨-, hname, hj'⟩
    · exact hj' ▸ h.bound j hj n ht
    · have hne : n ≠ name := fun he => ht (he ▸ hname)
      rw [hj', Scope.lookup_bindIn hne]
      exact h.bound j hj n ht

theorem Isolated.enter (h : first.Isolated targets scope s) (c : Closure) (args : List Value) :
    first.Isolated targets scope (s.enter c args) :=
  enter_induction (h.newScope _) fun _ _ v _ ht => ht.bind (.inr h.size) v

end Store

/-- The discipline of evaluation in one scope of a store, which may bind the targets there. -/
def isolation (first : Store) (targets : String → Prop) (scope : Nat) : Discipline where
  Inv s := s.SignalFree ∧ first.Isolated targets scope s
  Data _ v := v.isSignal = false
  Filled _ m := ∀ e ∈ m.entries, e.value.isSignal = false
  Runs _ i node := i = scope ∧ (∀ name, node.Assigns name → targets name) ∨ first.scopes.size ≤ i

theorem isolation_later (hf : t.SignalFree) (hi : first.Isolated targets scope t) :
    (isolation first targets scope).Later s t :=
  ⟨⟨hf, hi⟩, fun _ h => h, fun _ h => h, fun _ _ h => h⟩

theorem isolation_answer (h : v.IsPlain) : (isolation first targets scope).Answer s v := by
  refine h.imp_left fun hv => ?_
  cases v with
  | error => exact hv.elim
  | returned => exact hv.elim
  | _ => rfl

theorem isolation_apply (hi : (isolation first targets scope).Inv s) (b : Builtin)
    {args : List Value} (ha : ∀ v ∈ args, v.isSignal = false) :
    (isolation first targets scope).Later s (b.apply args s).2 ∧
      (isolation first targets scope).Answer (b.apply args s).2 (b.apply args s).1 := by
  rcases b.apply_cases args s with ⟨v, hv, h⟩ | ⟨place, v, -, rfl, h⟩ | ⟨place, v, -, hv, h⟩
  · rw [h]
    exact ⟨.refl hi, isolation_answer hv⟩
  · rw [h]
    have hp : (s.push place v).SignalFree := hi.1.push (ha v (by simp)) place
    exact ⟨isolation_later hp (hi.2.of_same (Nat.le_refl _) fun _ _ => rfl), .inl rfl⟩
  · rw [h]
    exact ⟨.refl hi, .inl (hi.1.element hv)⟩

theorem isolation_enter (hi : (isolation first targets scope).Inv s) (c : Closure)
    {args : List Value} (ha : ∀ v ∈ args, v.isSignal = false) :
    (isolation first targets scope).Later s (s.enter c args) := by
  refine isolation_later (Store.enter_induction (motive := Store.SignalFree) (hi.1.newScope _) ?_)
    (hi.2.enter c args)
  exact fun t name v hv ht => ht.bind (ha v hv) _ name

theorem lawful_isolation (first : Store) (targets : String → Prop) (scope : Nat) :
    (isolation first targets scope).Lawful where
  inside h hin := h.imp_left fun ⟨hs, ht⟩ => ⟨hs, fun name hm => ht name (hin.assigns hm)⟩
  not_signal h := h
  null _ := rfl
  bool _ _ := rfl
  string _ _ := rfl
  int _ := rfl
  name hi _ h := hi.1.lookup h
  builtin _ _ := rfl
  unary op _ _ := isolation_answer (op.isPlain_apply _)
  binary op _ _ _ _ := isolation_answer (op.isPlain_apply _ _)
  element hi _ h := hi.1.element h
  entry hi _ h := hi.1.get h
  apply hi _ ha := isolation_apply hi _ ha
  empty _ := by simp [isolation]
  put hm _ _ hv e he := by
    rcases Hashmap.mem_putIn he with rfl | he
    · exact hv
    · exact hm e he
  newArray {_ vs} hi hv := by
    have ha : ∀ v ∈ vs.toArray, v.isSignal = false := fun v h => hv v (List.mem_toArray.mp h)
    exact ⟨isolation_later (hi.1.newArray ha) (hi.2.of_same (Nat.le_refl _) fun _ _ => rfl), rfl⟩
  newHashmap hi hm :=
    ⟨isolation_later (hi.1.newHashmap hm) (hi.2.of_same (Nat.le_refl _) fun _ _ => rfl), rfl⟩
  newClosure hi _ :=
    ⟨isolation_later (hi.1.newClosure _) (hi.2.of_same (Nat.le_refl _) fun _ _ => rfl), rfl⟩
  bind {_ i name e _} hi hr hv := by
    refine isolation_later (hi.1.bind hv i name) (hi.2.bind (hr.imp_left fun ⟨hs, ht⟩ => ?_) _)
    exact ⟨hs, ht name ⟨e, .refl⟩⟩
  enter hi _ _ _ ha := ⟨isolation_enter hi _ ha, .inr hi.2.size⟩

theorem Discipline.Keeps.inv {D : Discipline} {α : Type} {R : α → Store → Prop}
    {x : EStateM.Result Halt Store α} (h : D.Keeps s R x) : D.Inv (endStore x) := by
  cases x with
  | ok a t => exact Later.inv h.1
  | error e t => exact Later.inv h

/-- Evaluation in a scope changes no other scope that was there, binds in that scope only the names
that the node assigns to, and takes no name away; no scope that was there comes into another one.
A call changes no scope that was there at all. -/
theorem isolated_eval (hs : s.SignalFree) (depth : Nat) :
    (∀ node scope, s.Isolated node.Assigns scope (endStore (eval depth node scope s))) ∧
    ∀ callee args, callee.isSignal = false → (∀ a ∈ args, a.isSignal = false) →
      ∀ i < s.scopes.size,
        (endStore ((eval depth).call callee args s)).namesOf i = s.namesOf i ∧
        (endStore ((eval depth).call callee args s)).outerOf i = s.outerOf i := by
  refine ⟨fun node scope => ?_, fun callee args hc ha i hi => ?_⟩
  · have hl := lawful_isolation s node.Assigns scope
    have hk := Discipline.sound_eval hl depth node scope s ⟨hs, .refl s⟩ (.inl ⟨rfl, fun _ h => h⟩)
    exact hk.inv.2
  · -- as if in a scope that was not there
    have hl := lawful_isolation s (fun _ => False) s.scopes.size
    have hk := Discipline.keeps_call hl (Discipline.sound_eval hl depth) ⟨hs, .refl s⟩ hc ha
    exact ⟨hk.inv.2.other i hi (Nat.ne_of_lt hi), hk.inv.2.outer i hi⟩

/-- A function that assigns to a name of the scope it was made in, called there. -/
theorem isolated_call_of_closure :
    ∃ s : Store, s.SignalFree ∧ s.closures[0]? = some ⟨[], [.assign "x" (.int 1)], 0⟩ ∧
      s.namesOf 0 = [("x", .int 5 none), ("f", .function 0)] ∧
      ((endStore (eval 9 (.expr (.call (.ident "f") [])) 0 s)).namesOf 0).lookup "x" =
        some (.int 5 none) := by
  let s := ((({} : Store).newScope none).2.newClosure ⟨[], [.assign "x" (.int 1)], 0⟩).2
  let t := (s.bind 0 "x" (.int 5 none)).bind 0 "f" (.function 0)
  have hs : s.SignalFree := (Store.All.empty.newScope none).newClosure _
  have hx : (s.bind 0 "x" (.int 5 none)).SignalFree := hs.bind rfl 0 "x"
  have ht : t.SignalFree := hx.bind rfl 0 "f"
  refine ⟨t, ht, rfl, rfl, ?_⟩
  have hn : ¬ (Node.expr (.call (.ident "f") [])).Assigns "x" := by
    rintro ⟨e, h⟩
    obtain h | ⟨m, h, hin⟩ := Relation.ReflTransGen.cases_tail h
    · cases h
    · cases hin with
      | callee =>
        obtain h | ⟨m, -, hin⟩ := Relation.ReflTransGen.cases_tail h
        · cases h
        · cases hin
      | arg _ he => cases he
  exact ((isolated_eval ht 9).1 (.expr (.call (.ident "f") [])) 0).bound 0 (by decide) "x" hn

end Scriptlet
