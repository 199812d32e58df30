import Scriptlet.Proofs.Eval.Raising
import Scriptlet.Proofs.Value.Contents

/-!
Signals are exceptions. Whatever evaluation hands upward as a signal is raised by evaluation with
exceptions, and nothing else differs between the two.
-/

namespace Scriptlet
open Value

namespace Raising

variable {α β γ δ : Type}

/-- How results of a computation that raises are given by one that does not. -/
structure Encoding (α β : Type) where
  ok : β → α
  signal : Value → α

def Encoding.value : Encoding Value Value := ⟨id, id⟩

def Encoding.option : Encoding (Option Value) (Option Value) := ⟨id, some⟩

def Encoding.except (β : Type) : Encoding (Except Value β) β := ⟨.ok, .error⟩

/-- A value that evaluation can work with. -/
abbrev IsData (v : Value) : Prop := v.isSignal = false

/-- Data if there is a value at all. -/
abbrev NoneOrData (o : Option Value) : Prop := ∀ v ∈ o, IsData v

/-- Two results agree: what one raised is a signal in the other, and what was done to the store is
the same. Only data is returned, and no signal is left in the store. -/
inductive Agrees (c : Encoding α β) (P : β → Prop) :
    EStateM.Result Halt Store α → EStateM.Result Raised Store β → Prop where
  | ok {b : β} {t : Store} (hb : P b) (ht : t.SignalFree) : Agrees c P (.ok (c.ok b) t) (.ok b t)
  | error {t : Store} (fault : Fault) (ht : t.SignalFree) :
    Agrees c P (.ok (c.signal (ofFault fault)) t) (.error (.error fault) t)
  | returned {v : Value} {t : Store} (hv : IsData v) (ht : t.SignalFree) :
    Agrees c P (.ok (c.signal (.returned v none)) t) (.error (.returned v) t)
  | halted (h : Halt) (t : Store) : Agrees c P (.error h t) (.error (.halted h) t)

theorem noneOrData_none : NoneOrData none := fun _ h => nomatch h

theorem noneOrData_some {v : Value} (hv : IsData v) : NoneOrData (some v) :=
  fun _ h => Option.mem_some.mp h ▸ hv

variable {c : Encoding α β} {d : Encoding γ δ} {P : β → Prop} {Q : δ → Prop} {p : Eval α}
  {r : Run β} {f : α → Eval γ} {g : β → Run δ} {v : Value}

/-- On stores without signals a computation does what one that raises does. -/
def Refines (c : Encoding α β) (P : β → Prop) (p : Eval α) (r : Run β) : Prop :=
  ∀ s, s.SignalFree → Agrees c P (p s) (r s)

/-- What follows is not reached with a signal, which is handed upward instead. -/
theorem Refines.bind (hp : Refines c P p r) (hf : ∀ b, P b → Refines d Q (f (c.ok b)) (g b))
    (hs : ∀ v, v.isSignal = true → f (c.signal v) = pure (d.signal v)) :
    Refines d Q (p >>= f) (r >>= g) := by
  intro s hfree
  have h := hp s hfree
  simp only [Bind.bind, EStateM.bind]
  generalize p s = x, r s = y at h
  cases h with
  | ok hb ht => exact hf _ hb _ ht
  | error fault ht =>
    simp only [hs (ofFault fault) rfl]
    exact .error fault ht
  | returned hv ht =>
    simp only [hs (.returned _ none) rfl]
    exact .returned hv ht
  | halted h t => exact .halted h t

/-- Looking for a `return` among the results is catching it. -/
theorem Refines.catchReturn {p : Eval (Option Value)} {r : Run (Option Value)}
    {f : Option Value → Eval γ} {g : Option Value → Run δ} (hp : Refines .option NoneOrData p r)
    (hf : ∀ o, NoneOrData o → Refines d Q (f o) (g o))
    (hr : ∀ v m, IsData v → f (some (.returned v m)) = f (some v))
    (hs : ∀ fault, f (some (ofFault fault)) = pure (d.signal (ofFault fault))) :
    Refines d Q (p >>= f) (catchReturn r >>= g) := by
  intro s hfree
  have h := hp s hfree
  simp only [Bind.bind, EStateM.bind, Raising.catchReturn]
  generalize p s = x, r s = y at h
  cases h with
  | ok hb ht => exact hf _ hb _ ht
  | error fault ht =>
    simp only [Encoding.option, hs]
    exact .error fault ht
  | @returned v _ hv ht =>
    simp only [Encoding.option, hr _ _ hv]
    exact hf (some v) (noneOrData_some hv) _ ht
  | halted h t => exact .halted h t

/-- A value is checked where the other computation goes on with data. -/
theorem Refines.checked {p : Eval Value} {r : Run Value} {f : Value → Eval γ} {g : Value → Run δ}
    (hp : Refines .value IsData p r) (hf : ∀ v, IsData v → Refines d Q (f v) (g v)) :
    Refines d Q (p >>= fun v => if v.isSignal then pure (d.signal v) else f v) (r >>= g) := by
  refine hp.bind (fun v hv => ?_) fun v hv => if_pos hv
  change Refines d Q (if v.isSignal then _ else f v) (g v)
  rw [if_neg (by simp [hv])]
  exact hf v hv

theorem refines_pure {b : β} (hb : P b) : Refines c P (pure (c.ok b)) (pure b) :=
  fun _ hs => .ok hb hs

theorem refines_fail (fault : Fault) : Refines c P (pure (c.signal (ofFault fault))) (fail fault) :=
  fun _ hs => .error fault hs

theorem refines_ofResult_data (hv : IsData v) : Refines .value IsData (pure v) (ofResult v) := by
  cases v with
  | error => exact absurd hv (by simp [isSignal])
  | _ => exact refines_pure hv

theorem refines_ofResult (hv : v.IsPlain) : Refines .value IsData (pure v) (ofResult v) := by
  rcases hv with hv | ⟨fault, rfl⟩
  · cases v with
    | error => exact hv.elim
    | returned => exact hv.elim
    | _ => exact refines_ofResult_data rfl
  · exact refines_fail fault

theorem refines_get {f : Store → Eval γ} {g : Store → Run δ}
    (h : ∀ s, s.SignalFree → Refines d Q (f s) (g s)) : Refines d Q (get >>= f) (get >>= g) :=
  fun s hs => h s hs s hs

theorem refines_set {f : PUnit → Eval γ} {g : PUnit → Run δ} {s : Store} (hs : s.SignalFree)
    (h : Refines d Q (f ⟨⟩) (g ⟨⟩)) : Refines d Q (set s >>= f) (set s >>= g) :=
  fun _ _ => h s hs

theorem refines_modifyGet {m : Store → Value × Store}
    (h : ∀ s, s.SignalFree → IsData (m s).1 ∧ (m s).2.SignalFree) :
    Refines .value IsData (modifyGet m) (modifyGet m) :=
  fun s hs => .ok (h s hs).1 (h s hs).2

/-- A result that is given on as it is. -/
theorem Refines.some {p : Eval Value} {r : Run Value} (h : Refines .value IsData p r) :
    Refines .option NoneOrData (p >>= fun v => pure (some v)) (r >>= fun v => pure (some v)) :=
  h.bind (fun _ hv => refines_pure (noneOrData_some hv)) fun _ _ => rfl

theorem Refines.getD {p : Eval (Option Value)} {r : Run (Option Value)}
    (h : Refines .option NoneOrData p r) :
    Refines .value IsData (p >>= fun o => pure (o.getD .null))
      (r >>= fun o => pure (o.getD .null)) := by
  refine h.bind (fun o ho => refines_pure ?_) fun _ _ => rfl
  cases o with
  | none => rfl
  | some v => exact ho v rfl

/-! ### Evaluation -/

/-- An evaluator does for every node what one that raises does. -/
abbrev RefinesAll (ev : Scriptlet.Evaluator) (re : Evaluator) : Prop :=
  ∀ node scope, Refines .option NoneOrData (ev node scope) (re node scope)

variable {ev : Scriptlet.Evaluator} {re : Evaluator} {scope : Nat}

theorem refines_value (h : RefinesAll ev re) (e : Expr) :
    Refines .value IsData (ev.value scope e) (re.value scope e) := (h _ _).getD

theorem refines_values (h : RefinesAll ev re) (es : List Expr) :
    Refines (.except _) (∀ v ∈ ·, IsData v) (ev.values scope es) (re.values scope es) := by
  induction es with
  | nil => exact refines_pure (by simp)
  | cons e es ih =>
    refine (refines_value h e).checked fun v hv => ih.bind (fun vs hvs => refines_pure ?_)
      fun _ _ => rfl
    rintro w (_ | ⟨_, hw⟩)
    · exact hv
    · exact hvs w hw

theorem refines_sequence (h : RefinesAll ev re) {o : Option Value} (ho : NoneOrData o)
    (ss : List Stmt) : Refines .option NoneOrData (ev.sequence scope o ss)
      (re.sequence scope o ss) := by
  induction ss generalizing o with
  | nil => exact refines_pure ho
  | cons st ss ih =>
    refine (h (.stmt st) scope).bind (fun o' ho' => ?_) fun v hv => ?_
    · have hn : ¬ o'.any isSignal = true := by
        cases o' with
        | none => simp
        | some v => simp [ho' v rfl]
      change Refines .option NoneOrData (if o'.any isSignal then _ else ev.sequence scope o' ss) _
      rw [if_neg hn]
      exact ih ho'
    · simp [Encoding.option, hv]

theorem refines_program (h : RefinesAll ev re) (body : List Stmt) :
    Refines .option NoneOrData (ev.program scope body) (re.program scope body) := by
  have hp : Refines .option NoneOrData (ev.program scope body)
      (catchReturn (re.sequence scope none body) >>= pure) := by
    refine (refines_sequence h noneOrData_none body).catchReturn (fun o ho => ?_) (fun v _ hv => ?_)
      fun _ => rfl
    · cases o with
      | none => exact refines_pure ho
      | some v =>
        cases v with
        | returned => exact absurd (ho _ rfl) (by simp [isSignal])
        | _ => exact refines_pure ho
    · cases v with
      | returned => exact absurd hv (by simp [isSignal])
      | _ => rfl
  rwa [bind_pure] at hp

theorem refines_identifier (name : String) :
    Refines .value IsData (Scriptlet.Evaluator.identifier scope name)
      (Evaluator.identifier scope name) := by
  refine refines_get fun s hs => ?_
  cases hl : s.lookup? scope name with
  | some v => exact refines_pure (hs.lookup hl)
  | none =>
    cases Builtin.ofName? name with
    | some b => exact refines_pure rfl
    | none => exact refines_fail _

theorem refines_conditional (h : RefinesAll ev re) (condition : Expr) (consequence : List Stmt)
    (alternative : Option (List Stmt)) :
    Refines .value IsData (ev.conditional scope condition consequence alternative)
      (re.conditional scope condition consequence alternative) := by
  refine (refines_value h condition).checked fun v hv => ?_
  cases v with
  | bool b =>
    cases b with
    | true => exact (h _ _).getD
    | false =>
      cases alternative with
      | none => exact refines_pure rfl
      | some body => exact (h _ _).getD
  | _ => exact refines_fail _

theorem refines_callClosure (h : RefinesAll ev re) (c : Closure) {args : List Value}
    (ha : ∀ v ∈ args, IsData v) :
    Refines .value IsData (ev.callClosure c args) (re.callClosure c args) := by
  unfold Scriptlet.Evaluator.callClosure Evaluator.callClosure
  split
  · exact refines_fail _
  · refine refines_get fun s hs => refines_set ?_ ?_
    · exact Store.enter_induction (motive := Store.SignalFree) (hs.newScope _)
        fun _ name v hv ht => ht.bind (ha v hv) _ name
    · refine (h _ _).catchReturn (fun o ho => ?_) (fun v _ hv => ?_) fun _ => rfl
      · cases o with
        | none => exact refines_pure rfl
        | some v =>
          cases v with
          | returned => exact absurd (ho _ rfl) (by simp [isSignal])
          | _ => exact refines_pure (ho _ rfl)
      · cases v with
        | returned => exact absurd hv (by simp [isSignal])
        | _ => rfl

theorem modifyGet_apply {ε : Type} {m : Store → Value × Store} {s t : Store} (h : m s = (v, t)) :
    (modifyGet m : EStateM ε Store Value) s = .ok v t := by
  change (match m s with | (a, t) => EStateM.Result.ok a t) = _
  rw [h]

theorem refines_builtin (b : Builtin) {args : List Value} (ha : ∀ v ∈ args, IsData v) :
    Refines .value IsData (modifyGet (b.apply args)) (modifyGet (b.apply args) >>= ofResult) := by
  intro s hs
  have hm (v : Value) (t : Store) (he : b.apply args s = (v, t)) (hv : v.IsPlain ∨ IsData v)
      (ht : t.SignalFree) : Agrees .value IsData ((modifyGet (b.apply args) : Eval Value) s)
        ((modifyGet (b.apply args) >>= ofResult : Run Value) s) := by
    have hr : Refines .value IsData (pure v) (ofResult v) := by
      rcases hv with hv | hv
      · exact refines_ofResult hv
      · exact refines_ofResult_data hv
    have hl : (modifyGet (b.apply args) : Eval Value) s = .ok v t := modifyGet_apply he
    have hg : (modifyGet (b.apply args) : Run Value) s = .ok v t := modifyGet_apply he
    simp only [Bind.bind, EStateM.bind, hl, hg]
    exact hr t ht
  rcases b.apply_cases args s with ⟨v, hv, he⟩ | ⟨place, v, -, rfl, he⟩ | ⟨place, v, -, hv, he⟩
  · exact hm v s he (.inl hv) hs
  · exact hm _ _ he (.inr rfl) (hs.push (ha v (by simp)) place)
  · exact hm v s he (.inr (hs.element hv)) hs

theorem refines_call (h : RefinesAll ev re) (callee : Value) {args : List Value}
    (ha : ∀ v ∈ args, IsData v) :
    Refines .value IsData (ev.call callee args) (re.call callee args) := by
  cases callee with
  | function place =>
    refine refines_get fun s hs => ?_
    cases s.closures[place]? with
    | none => exact refines_fail _
    | some c => exact refines_callClosure h c ha
  | builtin b => exact refines_builtin b ha
  | _ => exact refines_fail _

theorem refines_index (left i : Value) :
    Refines .value IsData (Scriptlet.Evaluator.index left i) (Evaluator.index left i) := by
  cases left with
  | array place =>
    cases i with
    | int n mark =>
      change Refines .value IsData (if n < 0 then _ else _) (if n < 0 then _ else _)
      by_cases hn : n < 0
      · rw [if_pos hn, if_pos hn]
        exact refines_pure rfl
      · rw [if_neg hn, if_neg hn]
        refine refines_get fun s hs => refines_pure ?_
        cases he : (s.elements place)[n.toNat]? with
        | none => rfl
        | some v => exact hs.element (Array.mem_of_getElem? he)
    | _ => exact refines_fail _
  | hashmap place =>
    have hk (k : Key) : Refines .value IsData
        (get >>= fun s : Store => pure (((s.hashmap place).get? k).getD .null))
        (get >>= fun s : Store => pure (((s.hashmap place).get? k).getD .null)) := by
      refine refines_get fun s hs => refines_pure ?_
      cases hg : (s.hashmap place).get? k with
      | none => rfl
      | some v => exact hs.get hg
    cases i with
    | int => exact hk _
    | bool => exact hk _
    | string => exact hk _
    | _ => exact refines_fail _
  | _ => exact refines_fail _

theorem refines_entries (h : RefinesAll ev re) (ps : List (Expr × Expr)) {m : Hashmap}
    (hm : ∀ e ∈ m.entries, IsData e.value) :
    Refines (.except _) (fun m => ∀ e ∈ m.entries, IsData e.value) (ev.entries scope ps m)
      (re.entries scope ps m) := by
  induction ps generalizing m with
  | nil => exact refines_pure hm
  | cons pair ps ih =>
    obtain ⟨keyExpr, valueExpr⟩ := pair
    refine (refines_value h keyExpr).checked fun k hk => ?_
    cases k.key? with
    | none => exact refines_fail _
    | some key =>
      refine (refines_value h valueExpr).checked fun v hv => ih fun e he => ?_
      rcases Hashmap.mem_putIn he with rfl | he
      · exact hv
      · exact hm e he

theorem refines_expression (h : RefinesAll ev re) (e : Expr) :
    Refines .option NoneOrData (ev.expression scope e) (re.expression scope e) := by
  cases e with
  | int n => exact refines_pure (noneOrData_some rfl)
  | bool b => exact refines_pure (noneOrData_some rfl)
  | string t => exact refines_pure (noneOrData_some rfl)
  | ident name => exact (refines_identifier name).some
  | unary op right =>
    exact (refines_value h right).checked fun v _ => (refines_ofResult (op.isPlain_apply v)).some
  | binary op left right =>
    exact (refines_value h left).checked fun l _ => (refines_value h right).checked fun r _ =>
      (refines_ofResult (op.isPlain_apply l r)).some
  | ifThen condition consequence alternative =>
    exact (refines_conditional h condition consequence alternative).some
  | function params body =>
    exact (refines_modifyGet fun s hs => ⟨rfl, hs.newClosure _⟩).some
  | call callee args =>
    exact (refines_value h callee).checked fun f _ =>
      (refines_values h args).bind (fun vs hvs => (refines_call h f hvs).some) fun _ _ => rfl
  | array elements =>
    refine (refines_values h elements).bind (fun vs hvs => ?_) fun _ _ => rfl
    exact (refines_modifyGet fun s hs => ⟨rfl, hs.newArray (by simpa using hvs)⟩).some
  | index left i =>
    exact (refines_value h left).checked fun l _ => (refines_value h i).checked fun r _ =>
      (refines_index l r).some
  | hashmap pairs =>
    refine (refines_entries h pairs (by simp)).bind (fun m hm => ?_) fun _ _ => rfl
    exact (refines_modifyGet fun s hs => ⟨rfl, hs.newHashmap hm⟩).some

theorem refines_statement (h : RefinesAll ev re) (st : Stmt) :
    Refines .option NoneOrData (ev.statement scope st) (re.statement scope st) := by
  cases st with
  | expr e => exact h _ _
  | block body => exact refines_sequence h noneOrData_none body
  | assign name e =>
    exact (refines_value h e).checked fun v hv s hs => .ok noneOrData_none (hs.bind hv scope name)
  | ret e => exact (refines_value h e).checked fun v hv s hs => .returned hv hs

theorem refines_step (h : RefinesAll ev re) : RefinesAll ev.step re.step := by
  intro node scope
  cases node with
  | program body => exact refines_program h body
  | stmt st => exact refines_statement h st
  | expr e => exact refines_expression h e
  | foreign typeName => exact fun s _ => .halted _ s

theorem refines_eval (depth : Nat) : RefinesAll (Scriptlet.eval depth) (eval depth) := by
  induction depth with
  | zero => exact fun _ _ s _ => .halted _ s
  | succ n ih => exact refines_step ih

/-! ### Behind a signal -/

/-- Nothing behind the first signal is evaluated, and a signal is assigned to no name: with anything
else in the place of what follows the result and the store are the same. -/
structure StopsAtSignals (ev : Scriptlet.Evaluator) (scope : Nat) (s : Store) : Prop where
  values (es es' : List Expr) {v : Value} {t : Store}
    (h : ev.values scope es s = .ok (.error v) t) :
    ev.values scope (es ++ es') s = .ok (.error v) t
  entries (ps ps' : List (Expr × Expr)) (m : Hashmap) {v : Value} {t : Store}
    (h : ev.entries scope ps m s = .ok (.error v) t) :
    ev.entries scope (ps ++ ps') m s = .ok (.error v) t
  sequence (ss ss' : List Stmt) {v : Value} {t : Store} (hv : v.isSignal = true)
    (h : ev.sequence scope none ss s = .ok (some v) t) :
    ev.sequence scope none (ss ++ ss') s = .ok (some v) t
  operand (e e' : Expr) {v : Value} {t : Store} (hv : v.isSignal = true)
    (h : ev.value scope e s = .ok v t) :
    (∀ op, ev.expression scope (.binary op e e') s = .ok (some v) t) ∧
      ev.expression scope (.index e e') s = .ok (some v) t ∧
      ∀ args, ev.expression scope (.call e args) s = .ok (some v) t
  assign (name : String) (e : Expr) {v : Value} {t : Store} (hv : v.isSignal = true)
    (h : ev.value scope e s = .ok v t) :
    ev.statement scope (.assign name e) s = .ok (some v) t

theorem bind_ok {p : Eval α} {f : α → Eval γ} {s t : Store} {a : α} (h : p s = .ok a t) :
    (p >>= f) s = f a t := by
  simp only [Bind.bind, EStateM.bind, h]

theorem exists_of_bind_ok {p : Eval α} {f : α → Eval γ} {s u : Store} {b : γ}
    (h : (p >>= f) s = .ok b u) : ∃ a t, p s = .ok a t ∧ f a t = .ok b u := by
  simp only [Bind.bind, EStateM.bind] at h
  split at h
  · next a t hp => exact ⟨a, t, hp, h⟩
  · cases h

theorem values_append {es es' : List Expr} {s t : Store}
    (h : ev.values scope es s = .ok (.error v) t) :
    ev.values scope (es ++ es') s = .ok (.error v) t := by
  induction es generalizing s with
  | nil => cases h
  | cons e es ih =>
    obtain ⟨w, u, hw, h⟩ := exists_of_bind_ok h
    refine (bind_ok hw).trans ?_
    by_cases hsig : w.isSignal = true
    · rw [if_pos hsig] at h ⊢
      exact h
    · rw [if_neg hsig] at h ⊢
      obtain ⟨o, u', ho, h⟩ := exists_of_bind_ok h
      cases o with
      | error signal =>
        cases h
        exact bind_ok (ih ho)
      | ok vs => cases h

theorem entries_append {ps ps' : List (Expr × Expr)} {m : Hashmap} {s t : Store}
    (h : ev.entries scope ps m s = .ok (.error v) t) :
    ev.entries scope (ps ++ ps') m s = .ok (.error v) t := by
  induction ps generalizing m s with
  | nil => cases h
  | cons pair ps ih =>
    obtain ⟨keyExpr, valueExpr⟩ := pair
    obtain ⟨k, u, hk, h⟩ := exists_of_bind_ok h
    refine (bind_ok hk).trans ?_
    by_cases hsig : k.isSignal = true
    · rw [if_pos hsig] at h ⊢
      exact h
    · rw [if_neg hsig] at h ⊢
      cases hkey : k.key? with
      | none => simpa only [hkey] using h
      | some key =>
        simp only [hkey] at h ⊢
        obtain ⟨w, u', hw, h⟩ := exists_of_bind_ok h
        refine (bind_ok hw).trans ?_
        by_cases hsig' : w.isSignal = true
        · rw [if_pos hsig'] at h ⊢
          exact h
        · rw [if_neg hsig'] at h ⊢
          exact ih h

theorem sequence_append {o : Option Value} {ss ss' : List Stmt} {s t : Store}
    (ho : ¬ o.any isSignal = true) (hv : v.isSignal = true)
    (h : ev.sequence scope o ss s = .ok (some v) t) :
    ev.sequence scope o (ss ++ ss') s = .ok (some v) t := by
  induction ss generalizing o s with
  | nil =>
    cases h
    exact absurd hv ho
  | cons st ss ih =>
    obtain ⟨o', u, hst, h⟩ := exists_of_bind_ok h
    refine (bind_ok hst).trans ?_
    by_cases hsig : o'.any isSignal = true
    · rw [if_pos hsig] at h ⊢
      exact h
    · rw [if_neg hsig] at h ⊢
      exact ih hsig h

theorem stopsAtSignals (ev : Scriptlet.Evaluator) (scope : Nat) (s : Store) :
    StopsAtSignals ev scope s where
  values es es' _ _ h := values_append h
  entries ps ps' m _ _ h := entries_append h
  sequence ss ss' _ _ hv h := sequence_append (by simp) hv h
  operand e e' v t hv h := by
    refine ⟨fun op => ?_, ?_, fun args => ?_⟩
    · exact (bind_ok h).trans (by rw [if_pos hv]; rfl)
    · exact (bind_ok h).trans (by rw [if_pos hv]; rfl)
    · exact (bind_ok h).trans (by rw [if_pos hv]; rfl)
  assign name e v t hv h := (bind_ok h).trans (by rw [if_pos hv]; rfl)

/-- Evaluation is evaluation with exceptions: at every depth it gives an error, hands a `return`
upward or gives data or nothing if and only if the other raises the error, raises the `return` or
gives the same, always with the same store afterwards. -/
theorem eval_iff_raising (depth : Nat) (node : Node) (scope : Nat) (s : Store) (hs : s.SignalFree) :
    (∀ fault mark t, Scriptlet.eval depth node scope s = .ok (some (.error fault mark)) t ↔
      mark = none ∧ eval depth node scope s = .error (.error fault) t) ∧
    (∀ v mark t, Scriptlet.eval depth node scope s = .ok (some (.returned v mark)) t ↔
      mark = none ∧ eval depth node scope s = .error (.returned v) t) ∧
    (∀ o t, (Scriptlet.eval depth node scope s = .ok o t ∧ ∀ v ∈ o, v.isSignal = false) ↔
      eval depth node scope s = .ok o t) ∧
    (∀ h t, Scriptlet.eval depth node scope s = .error h t ↔
      eval depth node scope s = .error (.halted h) t) ∧
    StopsAtSignals (Scriptlet.eval depth) scope s := by
  have h := refines_eval depth node scope s hs
  have hstop := stopsAtSignals (Scriptlet.eval depth) scope s
  generalize Scriptlet.eval depth node scope s = x, eval depth node scope s = y at h
  refine ⟨fun fault mark t => ?_, fun v mark t => ?_, fun o t => ?_, fun e t => ?_, hstop⟩
  · cases h with
    | @ok o _ ho =>
      refine ⟨fun h => ?_, nofun⟩
      cases h
      exact absurd (ho _ rfl) (by simp [isSignal])
    | error => simp [Encoding.option, ofFault, eq_comm, and_assoc, and_left_comm]
    | returned => simp [Encoding.option]
    | halted => simp
  · cases h with
    | @ok o _ ho =>
      refine ⟨fun h => ?_, nofun⟩
      cases h
      exact absurd (ho _ rfl) (by simp [isSignal])
    | error => simp [Encoding.option, ofFault]
    | returned => simp [Encoding.option, eq_comm, and_assoc, and_left_comm]
    | halted => simp
  · cases h with
    | @ok o _ ho =>
      refine ⟨fun h => by simpa [Encoding.option] using h.1, fun h => ?_⟩
      cases h
      exact ⟨rfl, ho⟩
    | error =>
      refine ⟨fun ⟨h, hn⟩ => ?_, nofun⟩
      cases h
      exact absurd (hn _ rfl) (by simp [isSignal, ofFault])
    | returned =>
      refine ⟨fun ⟨h, hn⟩ => ?_, nofun⟩
      cases h
      exact absurd (hn _ rfl) (by simp [isSignal])
    | halted => simp
  · cases h with
    | ok => simp
    | error => simp
    | returned => simp
    | halted => simp

/-- In a store with one empty scope an assignment of a quotient by zero raises the error. -/
theorem raising_assign_quotient_by_zero : (({} : Store).newScope none).2.SignalFree ∧
    eval 5 (.stmt (.assign "x" (.binary .div (.int 1) (.int 0)))) 0 (({} : Store).newScope none).2 =
      .error (.error .divisionByZero) (({} : Store).newScope none).2 := by
  have hs : (({} : Store).newScope none).2.SignalFree := Store.All.empty.newScope none
  have h := eval_iff_raising 5 (.stmt (.assign "x" (.binary .div (.int 1) (.int 0)))) 0 _ hs
  exact ⟨hs, ((h.1 .divisionByZero none _).mp rfl).2⟩

end Raising

end Scriptlet
