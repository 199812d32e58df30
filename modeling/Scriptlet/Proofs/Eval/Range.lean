import Scriptlet.Number.Word
import Scriptlet.Proofs.Eval.Course
import Scriptlet.Proofs.Value.Contents

/-!
Integers stay words. If all integers of a store and all literals of a node are signed 64-bit words,
then so are all integers in the course of the evaluation, unless the elements of something are
counted that has more of them than there are words for.
-/

namespace Scriptlet
open Number Value

/-- All integers of a value are words. -/
def Value.InRange : Value → Prop
  | int n _ => InWord n
  | returned v _ => v.InRange
  | _ => True

/-- A key is a word if it is an integer. -/
def Key.InRange : Key → Prop
  | int n => InWord n
  | _ => True

/-- A hashmap has words only for integers. -/
def Hashmap.InRange (m : Hashmap) : Prop := ∀ e ∈ m.entries, e.key.InRange ∧ e.value.InRange

/-- An immediate part of a node, or the body of a function. -/
def Within (m n : Node) : Prop :=
  Inside m n ∨ ∃ params body, m = .stmt (.block body) ∧ n = .expr (.function params body)

/-- All integer literals of a node are words, those in the bodies of functions too. -/
def Node.InRange (n : Node) : Prop :=
  ∀ k, Relation.ReflTransGen Within (.expr (.int k)) n → InWord k

/-- All integers of a store are words: those that it holds, the keys of hashmaps and the literals of
functions. -/
structure Store.InRange (s : Store) : Prop where
  data : s.All Value.InRange
  keys : ∀ ⦃place e⦄, e ∈ (s.hashmap place).entries → e.key.InRange
  bodies : ∀ ⦃place : Nat⦄ ⦃c : Closure⦄, s.closures[place]? = some c →
    (Node.stmt (.block c.body)).InRange

/-- The number of elements of a value is a word, if it has elements. -/
def Store.Countable (s : Store) : Value → Prop
  | .string t _ => t.length < 0x8000000000000000
  | .array place => (s.elements place).size < 0x8000000000000000
  | _ => True

variable {α β : Type} {s t : Store} {v : Value} {k : Key} {m : Hashmap} {c : Closure} {n n' : Node}
  {name : String} {scope place : Nat}

theorem inWord_natCast {n : Nat} (h : n < 0x8000000000000000) : InWord (n : Int) := by
  simp only [InWord, minWord, maxWord]
  omega

@[simp] theorem inRange_ofFault (fault : Fault) : (ofFault fault).InRange := trivial

theorem Value.InRange.key (h : v.InRange) (hk : v.key? = some k) : k.InRange := by
  unfold key? at hk
  split at hk
  · cases hk
    exact h
  · cases hk
    trivial
  · cases hk
    trivial
  · cases hk

theorem inRange_getD {o : Option Value} (h : ∀ v ∈ o, v.InRange) : (o.getD .null).InRange := by
  cases o with
  | none => trivial
  | some v => exact h v rfl

theorem Hashmap.InRange.put (h : m.InRange) (hk : k.InRange) (hv : v.InRange) :
    (m.put k v).InRange := by
  intro e he
  rcases mem_putIn he with rfl | he
  · exact ⟨hk, hv⟩
  · exact h e he

theorem Node.InRange.within (h : n.InRange) (hm : Within n' n) : n'.InRange :=
  fun k hk => h k (hk.tail hm)

theorem Node.InRange.inside (h : n.InRange) (hm : Inside n' n) : n'.InRange := h.within (.inl hm)

/-! ### Stores -/

namespace Store.InRange

theorem empty : ({} : Store).InRange := ⟨.empty, by simp [hashmap], by simp⟩

theorem newScope (h : s.InRange) (outer : Option Nat) : (s.newScope outer).2.InRange :=
  ⟨h.data.newScope outer, h.keys, h.bodies⟩

theorem bind (h : s.InRange) (hv : v.InRange) (scope : Nat) (name : String) :
    (s.bind scope name v).InRange :=
  ⟨h.data.bind hv scope name, h.keys, h.bodies⟩

theorem newArray (h : s.InRange) {vs : List Value} (hv : ∀ v ∈ vs, v.InRange) :
    (s.newArray vs.toArray).2.InRange :=
  ⟨h.data.newArray (by simpa using hv), h.keys, h.bodies⟩

theorem newHashmap (h : s.InRange) (hm : m.InRange) : (s.newHashmap m).2.InRange := by
  refine ⟨h.data.newHashmap fun e he => (hm e he).2, fun place e he => ?_, h.bodies⟩
  rw [hashmap_newHashmap] at he
  split at he
  · exact (hm e he).1
  · exact h.keys he

theorem newClosure (h : s.InRange) (hc : (Node.stmt (.block c.body)).InRange) :
    (s.newClosure c).2.InRange := by
  refine ⟨h.data.newClosure c, h.keys, fun place d hd => ?_⟩
  simp only [Store.newClosure, Array.getElem?_push] at hd
  split at hd
  · cases hd
    exact hc
  · exact h.bodies hd

theorem push (h : s.InRange) (hv : v.InRange) (place : Nat) : (s.push place v).InRange :=
  ⟨h.data.push hv place, h.keys, h.bodies⟩

theorem enter (h : s.InRange) (c : Closure) {args : List Value} (ha : ∀ a ∈ args, a.InRange) :
    (s.enter c args).InRange :=
  enter_induction (h.newScope _) fun _ name v hv ht => ht.bind (ha v hv) _ name

end Store.InRange

/-! ### Operators and builtins -/

theorem PrefixOp.inRange_apply (op : PrefixOp) (v : Value) : (op.apply v).InRange := by
  unfold apply
  split
  · trivial
  · exact inWord_wrap _
  · trivial

theorem InfixOp.inRange_onInts (op : InfixOp) (a b : Int) : (op.onInts a b).InRange := by
  unfold onInts
  split
  case h_1 | h_2 | h_3 => exact inWord_wrap _
  case h_4 | h_5 =>
    split
    · trivial
    · exact inWord_wrap _
  all_goals trivial

theorem InfixOp.inRange_onStrings (op : InfixOp) (a b : String) : (op.onStrings a b).InRange := by
  unfold onStrings
  split <;> trivial

theorem InfixOp.inRange_apply (op : InfixOp) (l r : Value) : (op.apply l r).InRange := by
  unfold apply
  split
  · trivial
  · split
    case h_5 => exact inRange_onInts _ _ _
    case h_6 => exact inRange_onStrings _ _ _
    all_goals trivial

theorem Builtin.inRange_apply (b : Builtin) {args : List Value} (hs : s.InRange)
    (ha : ∀ a ∈ args, a.InRange) (hc : b = .len → ∀ a, args = [a] → s.Countable a) :
    (b.apply args s).2.InRange ∧ (b.apply args s).1.InRange := by
  unfold apply
  split
  case h_1 => exact ⟨hs, inWord_natCast (hc rfl _ rfl)⟩
  case h_2 => exact ⟨hs, inWord_natCast (hc rfl _ rfl)⟩
  case h_4 place v => exact ⟨hs.push (ha v (by simp)) place, trivial⟩
  case h_6 => exact ⟨hs, inRange_getD fun v hv => hs.data.element (Array.mem_of_getElem? hv)⟩
  case h_8 => exact ⟨hs, inRange_getD fun v hv => hs.data.element (Array.mem_of_back? hv)⟩
  all_goals exact ⟨hs, trivial⟩

/-! ### Evaluation -/

/-- A run ended with words only in the store, and with a result as described if it has one. -/
def Ranged (R : α → Prop) : EStateM.Result Halt Store α → Prop
  | .ok a t => t.InRange ∧ R a
  | .error _ t => t.InRange

/-- A result, or a signal instead, of words only. -/
def RangedOr (R : α → Prop) : Except Value α → Prop
  | .ok a => R a
  | .error v => v.InRange

variable {p : Eval α} {f : α → Eval β} {R : α → Prop} {R' : β → Prop}

theorem Ranged.bind (hp : Ranged R (p s))
    (hf : ∀ a t, p s = .ok a t → t.InRange → R a → Ranged R' (f a t)) :
    Ranged R' ((p >>= f) s) := by
  simp only [Bind.bind, EStateM.bind]
  cases hps : p s with
  | ok a t =>
    rw [hps] at hp
    exact hf a t hps hp.1 hp.2
  | error e t =>
    rw [hps] at hp
    exact hp

theorem ranged_pure (hs : s.InRange) {a : α} (ha : R a) : Ranged R ((pure a : Eval α) s) := ⟨hs, ha⟩

theorem ranged_get {f : Store → Eval β} (h : Ranged R' (f s s)) : Ranged R' ((get >>= f) s) := h

theorem Ranged.checked {p : Eval Value} {f : Value → Eval β} {signal : Value → β}
    (hp : Ranged Value.InRange (p s))
    (hf : ∀ v t, p s = .ok v t → v.isSignal = false → t.InRange → v.InRange → Ranged R' (f v t))
    (hs : ∀ v, v.InRange → R' (signal v)) :
    Ranged R' ((p >>= fun v => if v.isSignal then pure (signal v) else f v) s) := by
  refine hp.bind fun v t hv ht hr => ?_
  cases hb : v.isSignal with
  | true => exact ranged_pure ht (hs v hr)
  | false => exact hf v t hv hb ht hr

theorem Ranged.wrapped {p : Eval Value} (hp : Ranged Value.InRange (p s)) :
    Ranged (fun o => ∀ v ∈ o, v.InRange) ((p >>= fun v => pure (some v)) s) :=
  hp.bind fun v t _ ht hv => ranged_pure ht (by simpa using hv)

/-- Outcomes of words only. -/
abbrev RangedOutcome : EStateM.Result Halt Store (Option Value) → Prop :=
  Ranged fun o => ∀ v ∈ o, v.InRange

theorem inRange_some (h : v.InRange) : ∀ w ∈ some v, w.InRange := by simpa using h

theorem ranged_identifier (hs : s.InRange) :
    Ranged Value.InRange (Evaluator.identifier scope name s) := by
  refine ranged_get ?_
  cases hv : s.lookup? scope name with
  | some v => exact ranged_pure hs (hs.data.lookup hv)
  | none =>
    cases Builtin.ofName? name with
    | some b => exact ranged_pure hs trivial
    | none => exact ranged_pure hs trivial

theorem ranged_index (hs : s.InRange) (left i : Value) :
    Ranged Value.InRange (Evaluator.index left i s) := by
  unfold Evaluator.index
  split
  · split
    · exact ranged_pure hs trivial
    · refine ranged_get (ranged_pure hs (inRange_getD fun v hv => ?_))
      exact hs.data.element (Array.mem_of_getElem? hv)
  · exact ranged_pure hs trivial
  · cases i.key? with
    | none => exact ranged_pure hs trivial
    | some k => exact ranged_get (ranged_pure hs (inRange_getD fun v hv => hs.data.get hv))
  · exact ranged_pure hs trivial

section

variable {ev : Evaluator} {e : Expr} {ps : List Part}

/-- What parts come to has outcomes of words only. -/
def PartsRanged (ev : Evaluator) (scope : Nat) (ps : List Part) (s : Store) : Prop :=
  ∀ m t, InOrder ev scope ps s m t → t.InRange → RangedOutcome (ev m scope t)

theorem PartsRanged.head {p : Part} (h : PartsRanged ev scope (p :: ps) s) (hs : s.InRange) :
    RangedOutcome (ev p.node scope s) :=
  h _ _ (.here p ps s) hs

theorem PartsRanged.tail {p : Part} {o : Option Value} (h : PartsRanged ev scope (p :: ps) s)
    (he : ev p.node scope s = .ok o t) (ho : p.goesOn o = true) : PartsRanged ev scope ps t :=
  fun m u hm => h m u (.next he ho hm)

/-- Any part is evaluated from a store of words only. -/
theorem PartsRanged.store {m : Node} (h : PartsRanged ev scope ps s) (hs : s.InRange)
    (hm : InOrder ev scope ps s m t) : t.InRange := by
  induction hm with
  | here => exact hs
  | next he ho _ ih =>
    have hr := h.head hs
    rw [he] at hr
    exact ih (h.tail he ho) hr.1

theorem ranged_value (h : RangedOutcome (ev (.expr e) scope s)) :
    Ranged Value.InRange (ev.value scope e s) :=
  Ranged.bind h fun _ _ _ ht ho => ranged_pure ht (inRange_getD ho)

theorem value_eq_ok (h : ev.value scope e s = .ok v t) :
    ∃ o, ev (.expr e) scope s = .ok o t ∧ o.getD .null = v := by
  simp only [Evaluator.value, Bind.bind, EStateM.bind] at h
  split at h
  · next o u ho =>
    cases h
    exact ⟨o, ho, rfl⟩
  · cases h

/-- Behind a value that is no signal, and can be a key if it has to, the other parts follow. -/
theorem PartsRanged.value_tail {isKey : Bool}
    (h : PartsRanged ev scope (⟨.expr e, isKey⟩ :: ps) s) (he : ev.value scope e s = .ok v t)
    (hv : v.isSignal = false) (hk : isKey = true → v.key?.isSome = true) :
    PartsRanged ev scope ps t := by
  obtain ⟨o, ho, rfl⟩ := value_eq_ok he
  refine h.tail ho ?_
  have ha : o.any isSignal = false := by
    cases o with
    | none => rfl
    | some v => exact hv
  cases isKey with
  | false => simp [Part.goesOn, ha]
  | true => simpa [Part.goesOn, ha] using hk rfl

theorem ranged_values {es : List Expr} (h : PartsRanged ev scope (exprParts es) s)
    (hs : s.InRange) :
    Ranged (RangedOr fun vs => ∀ v ∈ vs, v.InRange) (ev.values scope es s) := by
  induction es generalizing s with
  | nil => exact ranged_pure hs (by simp [RangedOr])
  | cons e es ih =>
    refine (ranged_value (h.head hs)).checked (fun v t he hn ht hv => ?_) fun _ hv => hv
    refine (ih (h.value_tail he hn nofun) ht).bind fun r u _ hu hr => ?_
    cases r with
    | error signal => exact ranged_pure hu hr
    | ok vs => exact ranged_pure hu (List.forall_mem_cons.mpr ⟨hv, hr⟩)

theorem ranged_sequence {o : Option Value} {body : List Stmt}
    (h : PartsRanged ev scope (stmtParts body) s) (hs : s.InRange) (ho : ∀ v ∈ o, v.InRange) :
    RangedOutcome (ev.sequence scope o body s) := by
  induction body generalizing o s with
  | nil => exact ranged_pure hs ho
  | cons st body ih =>
    refine (h.head hs).bind fun o' t he ht ho' => ?_
    cases hb : o'.any isSignal with
    | true => exact ranged_pure ht ho'
    | false => exact ih (h.tail he (by simp [Part.goesOn, hb])) ht ho'

theorem ranged_program {body : List Stmt} (h : PartsRanged ev scope (stmtParts body) s)
    (hs : s.InRange) : RangedOutcome (ev.program scope body s) := by
  refine (ranged_sequence h hs (o := none) nofun).bind fun o t _ ht ho => ?_
  split
  · exact ranged_pure ht (inRange_some (ho (.returned _ _) rfl))
  · exact ranged_pure ht ho

theorem ranged_entries {pairs : List (Expr × Expr)} (h : PartsRanged ev scope (pairParts pairs) s)
    (hs : s.InRange) (hm : m.InRange) :
    Ranged (RangedOr Hashmap.InRange) (ev.entries scope pairs m s) := by
  induction pairs generalizing s m with
  | nil => exact ranged_pure hs hm
  | cons pair pairs ih =>
    obtain ⟨keyExpr, valueExpr⟩ := pair
    refine (ranged_value (h.head hs)).checked (fun k t he hn ht hk => ?_) fun _ hv => hv
    cases hkey : k.key? with
    | none => exact ranged_pure ht trivial
    | some key =>
      have hrest := h.value_tail he hn fun _ => by simp [hkey]
      refine (ranged_value (hrest.head ht)).checked (fun v u he' hn' hu hv => ?_) fun _ hv => hv
      exact ih (hrest.value_tail he' hn' nofun) hu (hm.put (hk.key hkey) hv)

end

section

variable {d : Nat}

/-- All that an evaluation starts has outcomes of words only. -/
def EntersRanged (x : Visit) : Prop := ∀ y, x.Enters y → y.store.InRange → y.node.InRange →
  RangedOutcome y.result

/-- What is counted has no more elements than there are words for. -/
def Counts (x : Visit) : Prop := ∀ a t, x.Applies .len [a] t → t.Countable a

theorem EntersRanged.parts (h : EntersRanged ⟨d + 1, n, scope, s⟩) (hn : n.InRange) :
    PartsRanged (eval d) scope n.parts s := by
  intro m t hm ht
  obtain ⟨p, hp, rfl⟩ := hm.mem
  exact h _ (.part hm) ht (hn.inside (n.inside_of_mem_parts hp))

theorem ranged_conditional {cond : Expr} {body : List Stmt} {other : Option (List Stmt)}
    (h : EntersRanged ⟨d + 1, .expr (.ifThen cond body other), scope, s⟩)
    (hn : (Node.expr (.ifThen cond body other)).InRange) (hs : s.InRange) :
    Ranged Value.InRange ((eval d).conditional scope cond body other s) := by
  have hb {ss : List Stmt} {t : Store} (ht : t.InRange)
      (he : Visit.Enters ⟨d + 1, .expr (.ifThen cond body other), scope, s⟩
        ⟨d, .stmt (.block ss), scope, t⟩) (hi : (Node.stmt (.block ss)).InRange) :
      Ranged Value.InRange
        ((eval d (.stmt (.block ss)) scope >>= fun o => pure (o.getD .null)) t) :=
    Ranged.bind (h _ he ht hi) fun _ _ _ ht ho => ranged_pure ht (inRange_getD ho)
  refine (ranged_value ((h.parts hn).head hs)).checked (fun v t hv _ ht _ => ?_) fun _ hv => hv
  cases v with
  | bool b =>
    cases b with
    | true => exact hb ht (.consequence hv) (hn.inside (.consequence cond body other))
    | false =>
      cases other with
      | none => exact ranged_pure ht trivial
      | some ss => exact hb ht (.alternative hv) (hn.inside (.alternative cond body ss))
  | _ => exact ranged_pure ht trivial

theorem ranged_call {f : Expr} {args : List Expr} {callee : Value} {vs : List Value} {u : Store}
    (h : EntersRanged ⟨d + 1, .expr (.call f args), scope, s⟩)
    (hc : Counts ⟨d + 1, .expr (.call f args), scope, s⟩)
    (hf : (eval d).value scope f s = .ok callee t)
    (ha : (eval d).values scope args t = .ok (.ok vs) u) (hu : u.InRange)
    (hv : ∀ v ∈ vs, v.InRange) :
    Ranged Value.InRange ((eval d).call callee vs u) := by
  cases callee with
  | function place =>
    refine ranged_get ?_
    cases hp : u.closures[place]? with
    | none => exact ranged_pure hu trivial
    | some c =>
      change Ranged _ ((eval d).callClosure c vs u)
      unfold Evaluator.callClosure
      by_cases hn : vs.length = c.params.length
      · rw [if_neg (not_not_intro hn)]
        have hr := h _ (.body hf ha hp hn) (hu.enter c hv) (hu.bodies hp)
        refine Ranged.bind (p := eval d (.stmt (.block c.body)) u.scopes.size) (s := u.enter c vs)
          hr fun o w _ hw ho => ?_
        split
        · exact ranged_pure hw (ho (.returned _ _) rfl)
        · exact ranged_pure hw (inRange_getD ho)
      · rw [if_pos hn]
        exact ranged_pure hu trivial
  | builtin b =>
    refine b.inRange_apply hu hv ?_
    rintro rfl a rfl
    exact hc a u (.call hf ha)
  | _ => exact ranged_pure hu trivial

theorem ranged_expression {e : Expr} (h : EntersRanged ⟨d + 1, .expr e, scope, s⟩)
    (hc : Counts ⟨d + 1, .expr e, scope, s⟩) (hn : (Node.expr e).InRange) (hs : s.InRange) :
    RangedOutcome ((eval d).expression scope e s) := by
  have hp := h.parts hn
  have hsig (v : Value) (hv : v.InRange) : ∀ w ∈ some v, w.InRange := inRange_some hv
  cases e with
  | int k => exact ranged_pure hs (inRange_some (hn k .refl))
  | bool b => exact ranged_pure hs (inRange_some trivial)
  | string text => exact ranged_pure hs (inRange_some trivial)
  | ident name => exact (ranged_identifier hs).wrapped
  | unary op right =>
    refine (ranged_value (hp.head hs)).checked (fun v t _ _ ht _ => ?_) hsig
    exact ranged_pure ht (inRange_some (op.inRange_apply v))
  | binary op left right =>
    refine (ranged_value (hp.head hs)).checked (fun l t hl hn ht _ => ?_) hsig
    have hr := hp.value_tail hl hn nofun
    refine (ranged_value (hr.head ht)).checked (fun r u _ _ hu _ => ?_) hsig
    exact ranged_pure hu (inRange_some (op.inRange_apply l r))
  | ifThen cond body other => exact (ranged_conditional h hn hs).wrapped
  | function params body =>
    have hb : (Node.stmt (.block body)).InRange := hn.within (.inr ⟨params, body, rfl, rfl⟩)
    exact ⟨hs.newClosure hb, inRange_some trivial⟩
  | call f args =>
    refine (ranged_value (hp.head hs)).checked (fun v t hf hv ht _ => ?_) hsig
    refine (ranged_values (hp.value_tail hf hv nofun) ht).bind fun r u ha hu hr => ?_
    cases r with
    | error signal => exact ranged_pure hu (hsig _ hr)
    | ok vs => exact (ranged_call h hc hf ha hu hr).wrapped
  | array es =>
    refine (ranged_values hp hs).bind fun r t _ ht hr => ?_
    cases r with
    | error signal => exact ranged_pure ht (hsig _ hr)
    | ok vs => exact ⟨ht.newArray hr, inRange_some trivial⟩
  | index left i =>
    refine (ranged_value (hp.head hs)).checked (fun l t hl hn ht _ => ?_) hsig
    have hr := hp.value_tail hl hn nofun
    refine (ranged_value (hr.head ht)).checked (fun r u _ _ hu _ => ?_) hsig
    exact (ranged_index hu l r).wrapped
  | hashmap pairs =>
    refine (ranged_entries hp hs (by simp [Hashmap.InRange])).bind fun r t _ ht hr => ?_
    cases r with
    | error signal => exact ranged_pure ht (hsig _ hr)
    | ok m => exact ⟨ht.newHashmap hr, inRange_some trivial⟩

theorem ranged_statement {st : Stmt} (h : EntersRanged ⟨d + 1, .stmt st, scope, s⟩)
    (hn : (Node.stmt st).InRange) (hs : s.InRange) :
    RangedOutcome ((eval d).statement scope st s) := by
  have hp := h.parts hn
  have hsig (v : Value) (hv : v.InRange) : ∀ w ∈ some v, w.InRange := inRange_some hv
  cases st with
  | expr e => exact hp.head hs
  | block body => exact ranged_sequence hp hs nofun
  | assign name e =>
    refine (ranged_value (hp.head hs)).checked (fun v t _ _ ht hv => ?_) hsig
    exact ⟨ht.bind hv scope name, nofun⟩
  | ret e =>
    refine (ranged_value (hp.head hs)).checked (fun v t _ _ ht hv => ranged_pure ht ?_) hsig
    exact inRange_some hv

theorem ranged_step (h : EntersRanged ⟨d + 1, n, scope, s⟩) (hc : Counts ⟨d + 1, n, scope, s⟩)
    (hn : n.InRange) (hs : s.InRange) : RangedOutcome ((eval d).step n scope s) := by
  cases n with
  | program body => exact ranged_program (h.parts hn) hs
  | stmt st => exact ranged_statement h hn hs
  | expr e => exact ranged_expression h hc hn hs
  | foreign typeName => exact hs

end

/-- An evaluation with no overlong count on its course has an outcome of words only. -/
theorem ranged_eval (d : Nat) (hs : s.InRange) (hn : n.InRange)
    (hc : ∀ x, (⟨d, n, scope, s⟩ : Visit).Leads x → Counts x) :
    RangedOutcome (eval d n scope s) := by
  induction d generalizing n scope s with
  | zero => exact hs
  | succ d ih =>
    refine ranged_step (fun y hy hys hyn => ?_) (hc _ .refl) hn hs
    have hd : y.depth = d := by cases hy <;> rfl
    obtain ⟨d', m, i, t⟩ := y
    subst hd
    exact ih hys hyn fun x hx => hc x (.head hy hx)

/-- The arguments of a call are evaluated to words only. -/
theorem EntersRanged.args {d : Nat} {f : Expr} {args : List Expr} {vs : List Value} {u : Store}
    (h : EntersRanged ⟨d + 1, .expr (.call f args), scope, s⟩)
    (hn : (Node.expr (.call f args)).InRange) (hs : s.InRange)
    (hf : (eval d).value scope f s = .ok v t) (hv : v.isSignal = false)
    (ha : (eval d).values scope args t = .ok (.ok vs) u) : u.InRange ∧ ∀ a ∈ vs, a.InRange := by
  have hp := h.parts hn
  have ht := ranged_value (hp.head hs)
  rw [hf] at ht
  have hu := ranged_values (hp.value_tail hf hv nofun) ht.1
  rwa [ha] at hu

theorem Visit.Applies.inRange {x : Visit} {b : Builtin} {args : List Value} (h : x.Applies b args t)
    (hx : EntersRanged x) (hs : x.store.InRange) (hn : x.node.InRange) :
    t.InRange ∧ ∀ a ∈ args, a.InRange := by
  cases h with
  | call hf ha => exact hx.args hn hs hf rfl ha

/-- What is evaluated on the way is evaluated from stores of words only. -/
theorem Visit.Enters.inRange {x y : Visit} (h : x.Enters y) (hx : EntersRanged x)
    (hs : x.store.InRange) (hn : x.node.InRange) : y.store.InRange ∧ y.node.InRange := by
  cases h with
  | part hm =>
    obtain ⟨p, hp, rfl⟩ := hm.mem
    exact ⟨(hx.parts hn).store hs hm, hn.inside (Node.inside_of_mem_parts hp)⟩
  | @consequence d i cond body other s t hc =>
    have hv := ranged_value ((hx.parts hn).head hs)
    rw [hc] at hv
    exact ⟨hv.1, hn.inside (.consequence cond body other)⟩
  | @alternative d i cond body other s t hc =>
    have hv := ranged_value ((hx.parts hn).head hs)
    rw [hc] at hv
    exact ⟨hv.1, hn.inside (.alternative cond body other)⟩
  | @body _ _ _ _ _ _ c _ _ _ hf ha hc _ =>
    obtain ⟨hu, hvs⟩ := hx.args hn hs hf rfl ha
    exact ⟨hu.enter c hvs, hu.bodies hc⟩

theorem entersRanged_of_counts {x : Visit} (hc : ∀ y, x.Leads y → Counts y) : EntersRanged x :=
  fun y hxy hs hn => ranged_eval y.depth hs hn fun z hyz => hc z (.head hxy hyz)

theorem Visit.Leads.inRange {x y : Visit} (h : x.Leads y) (hs : x.store.InRange)
    (hn : x.node.InRange) (hc : ∀ y, x.Leads y → Counts y) :
    y.store.InRange ∧ y.node.InRange := by
  induction h with
  | refl => exact ⟨hs, hn⟩
  | tail hxy hyz ih =>
    exact hyz.inRange (entersRanged_of_counts fun z hz => hc z (hxy.trans hz)) ih.1 ih.2

end Scriptlet
