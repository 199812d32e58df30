import Scriptlet.Proofs.Eval.Isolation
import Scriptlet.Proofs.Grammar.Spelt
import Scriptlet.Proofs.Value.Twins

/-!
Evaluation in lockstep. Two stores are alike if they have the same functions and scopes, if the
known names are bound to twins in them, and if paired places have the same in them. Evaluating a
node whose names are known does the same in both, whatever else is bound or stored.
-/

namespace Scriptlet
open Value

variable {α β γ δ : Type} {known : String → Prop} {P Q : Pairing} {s t : Store} {v w : Value}
  {scope i : Nat} {name : String} {m n : Node}

/-! ### Names -/

/-- All names of a node are known, those in the bodies of functions too. -/
def Node.Named (known : String → Prop) (n : Node) : Prop :=
  ∀ m, Relation.ReflTransGen Within m n → ∀ name ∈ m.ownNames, known name

theorem Node.Named.within (h : n.Named known) (hm : Within m n) : m.Named known :=
  fun k hk => h k (hk.tail hm)

theorem Node.Named.inside (h : n.Named known) (hm : Inside m n) : m.Named known :=
  h.within (.inl hm)

theorem Node.Named.own (h : n.Named known) : ∀ name ∈ n.ownNames, known name := h n .refl

/-! ### Stores -/

namespace Scope

theorem lookup_bindIn_self (name : String) (v : Value) (l : List (String × Value)) :
    (bindIn name v l).lookup name = some v := by
  induction l with
  | nil => simp [bindIn]
  | cons b l ih =>
    obtain ⟨n, w⟩ := b
    unfold bindIn
    split
    · simp
    · next hn => simpa [List.lookup_cons, beq_eq_false_iff_ne.mpr (Ne.symm hn)] using ih

end Scope

namespace Store

theorem lookup_namesOf_bind (s : Store) (scope i : Nat) (name n : String) (v : Value) :
    ((s.bind scope name v).namesOf i).lookup n =
      if i = scope ∧ scope < s.scopes.size ∧ n = name then some v
      else (s.namesOf i).lookup n := by
  by_cases hi : i = scope
  · subst hi
    by_cases hs : i < s.scopes.size
    · rw [namesOf_bind hs]
      by_cases hn : n = name
      · rw [if_pos ⟨rfl, hs, hn⟩, hn, Scope.lookup_bindIn_self]
      · rw [if_neg fun h => hn h.2.2, Scope.lookup_bindIn hn]
    · rw [if_neg fun h => hs h.2.1]
      simp [namesOf, Store.bind, Nat.not_lt.mp hs]
  · rw [if_neg fun h => hi h.1, namesOf_bind_ne (Ne.symm hi)]

/-- Two stores with the same functions, whose names are known, with scopes around the same ones and
the known names bound to twins in them, and with the same in paired places. -/
structure Alike (known : String → Prop) (P : Pairing) (s t : Store) : Prop where
  paired : s.Paired P t
  size : s.scopes.size = t.scopes.size
  outer : ∀ i, s.outerOf i = t.outerOf i
  names : ∀ i name, known name →
    Option.Rel (Twins P) ((s.namesOf i).lookup name) ((t.namesOf i).lookup name)
  closures : s.closures = t.closures
  bodies : ∀ ⦃place : Nat⦄ ⦃c : Closure⦄, s.closures[place]? = some c →
    (Node.expr (.function c.params c.body)).Named known

namespace Alike

theorem lookup? (h : s.Alike known P t) (hn : known name) (scope : Nat) :
    Option.Rel (Twins P) (s.lookup? scope name) (t.lookup? scope name) := by
  have hw (n scope : Nat) :
      Option.Rel (Twins P) (s.lookupWithin name n scope) (t.lookupWithin name n scope) := by
    induction n generalizing scope with
    | zero => exact .none
    | succ n ih =>
      have hl := h.names scope name hn
      unfold lookupWithin
      rw [h.outer]
      generalize (s.namesOf scope).lookup name = o, (t.namesOf scope).lookup name = o' at hl
      cases hl with
      | some hv => exact .some hv
      | none =>
        cases t.outerOf scope with
        | none => exact .none
        | some j => exact ih j
  unfold Store.lookup?
  rw [h.size]
  exact hw _ scope

theorem newScope (h : s.Alike known P t) (outer : Option Nat) :
    (s.newScope outer).2.Alike known P (t.newScope outer).2 where
  paired := ⟨h.paired.array, h.paired.hashmap, h.paired.elements, h.paired.entries⟩
  size := by simp [Store.newScope, h.size]
  outer i := by
    have ho := h.outer i
    simp only [outerOf] at ho
    simp only [outerOf, Store.newScope, Array.getElem?_push, h.size]
    split
    · rfl
    · exact ho
  names i name hn := by
    rw [namesOf_newScope, namesOf_newScope]
    exact h.names i name hn
  closures := h.closures
  bodies := h.bodies

theorem bind (h : s.Alike known P t) (hv : Twins P v w) (scope : Nat) (name : String) :
    (s.bind scope name v).Alike known P (t.bind scope name w) where
  paired := ⟨h.paired.array, h.paired.hashmap, h.paired.elements, h.paired.entries⟩
  size := by simp [Store.bind, h.size]
  outer i := by rw [outerOf_bind, outerOf_bind, h.outer]
  names i n hn := by
    rw [lookup_namesOf_bind, lookup_namesOf_bind, h.size]
    split
    · exact .some hv
    · exact h.names i n hn
  closures := h.closures
  bodies := h.bodies

theorem bindArgs (h : s.Alike known P t) (scope : Nat) (params : List String) {vs ws : List Value}
    (hv : List.Forall₂ (Twins P) vs ws) :
    ((params.zip vs).foldl (fun s (name, v) => s.bind scope name v) s).Alike known P
      ((params.zip ws).foldl (fun t (name, w) => t.bind scope name w) t) := by
  induction params generalizing s t vs ws with
  | nil => exact h
  | cons name params ih =>
    cases hv with
    | nil => exact h
    | cons hv hvs => exact ih (h.bind hv scope name) hvs

theorem enter (h : s.Alike known P t) (c : Closure) {vs ws : List Value}
    (hv : List.Forall₂ (Twins P) vs ws) : (s.enter c vs).Alike known P (t.enter c ws) := by
  unfold Store.enter
  rw [h.size]
  exact (h.newScope _).bindArgs _ _ hv

theorem newClosure (h : s.Alike known P t) {c : Closure}
    (hc : (Node.expr (.function c.params c.body)).Named known) :
    (s.newClosure c).2.Alike known P (t.newClosure c).2 where
  paired := ⟨h.paired.array, h.paired.hashmap, h.paired.elements, h.paired.entries⟩
  size := h.size
  outer := h.outer
  names := h.names
  closures := by simp [Store.newClosure, h.closures]
  bodies place d hd := by
    simp only [Store.newClosure, Array.getElem?_push] at hd
    split at hd
    · cases hd
      exact hc
    · exact h.bodies hd

/-- Where only arrays and hashmaps change. -/
theorem of_paired {s' t' : Store} (h : s.Alike known P t) (hPQ : P ≤ Q) (hp : s'.Paired Q t')
    (hs : s'.scopes = s.scopes) (ht : t'.scopes = t.scopes) (hsc : s'.closures = s.closures)
    (htc : t'.closures = t.closures) : s'.Alike known Q t' where
  paired := hp
  size := by rw [hs, ht, h.size]
  outer i := by
    have ho := h.outer i
    rwa [outerOf, outerOf, ← hs, ← ht] at ho
  names i name hn := by
    have hr := h.names i name hn
    rw [show s'.namesOf i = s.namesOf i by rw [namesOf, namesOf, hs],
      show t'.namesOf i = t.namesOf i by rw [namesOf, namesOf, ht]]
    exact rel_twins_mono hr hPQ
  closures := by rw [hsc, htc, h.closures]
  bodies place c hc := h.bodies (hsc ▸ hc)

end Alike

end Store

/-- Builtins leave scopes and functions alone. -/
theorem Builtin.apply_scopes (b : Builtin) (args : List Value) (s : Store) :
    (b.apply args s).2.scopes = s.scopes ∧ (b.apply args s).2.closures = s.closures := by
  rcases b.apply_cases args s with ⟨v, -, h⟩ | ⟨place, v, -, -, h⟩ | ⟨place, v, -, -, h⟩
  all_goals
    rw [h]
    exact ⟨rfl, rfl⟩

/-! ### Runs -/

/-- Two runs end alike: both with results in the relation and with stores that are alike, as far as
all that was paired before, or both halt for the same reason. -/
inductive Together (known : String → Prop) (P : Pairing) (R : Pairing → α → β → Prop) :
    EStateM.Result Halt Store α → EStateM.Result Halt Store β → Prop where
  | ok {Q : Pairing} {a : α} {b : β} {s t : Store} (hPQ : P ≤ Q) (h : s.Alike known Q t)
    (hr : R Q a b) : Together known P R (.ok a s) (.ok b t)
  | halted (h : Halt) (s t : Store) : Together known P R (.error h s) (.error h t)

/-- From stores that are alike two computations end alike. -/
def Lockstep (known : String → Prop) (P : Pairing) (R : Pairing → α → β → Prop) (p : Eval α)
    (q : Eval β) : Prop :=
  ∀ Q s t, P ≤ Q → s.Alike known Q t → Together known Q R (p s) (q t)

/-- Twins, or nothing in both. -/
abbrev TwinOptions (P : Pairing) : Option Value → Option Value → Prop := Option.Rel (Twins P)

/-- Two results in the relation, or two signals. -/
inductive TwinResults (R : Pairing → α → β → Prop) (P : Pairing) :
    Except Value α → Except Value β → Prop where
  | ok {a : α} {b : β} (h : R P a b) : TwinResults R P (.ok a) (.ok b)
  | error {v w : Value} (h : Twins P v w) : TwinResults R P (.error v) (.error w)

abbrev TwinLists (P : Pairing) : List Value → List Value → Prop := List.Forall₂ (Twins P)

variable {R : Pairing → α → β → Prop} {R' : Pairing → γ → δ → Prop} {p : Eval α} {q : Eval β}
  {f : α → Eval γ} {g : β → Eval δ} {a : α} {b : β}

theorem lockstep_pure (h : ∀ Q, P ≤ Q → R Q a b) : Lockstep known P R (pure a) (pure b) :=
  fun Q _ _ hPQ hs => .ok le_rfl hs (h Q hPQ)

theorem Lockstep.bind (hp : Lockstep known P R p q)
    (hf : ∀ Q a b, P ≤ Q → R Q a b → Lockstep known Q R' (f a) (g b)) :
    Lockstep known P R' (p >>= f) (q >>= g) := by
  intro Q s t hPQ hs
  have h := hp Q s t hPQ hs
  simp only [Bind.bind, EStateM.bind]
  generalize p s = x, q t = y at h
  cases h with
  | @ok Q' a b s' t' hQ hs' hr =>
    have hfg := hf Q' a b (hPQ.trans hQ) hr Q' s' t' le_rfl hs'
    simp only
    generalize f a s' = x, g b t' = y at hfg
    cases hfg with
    | ok hQ' hs'' hr' => exact .ok (hQ.trans hQ') hs'' hr'
    | halted e s'' t'' => exact .halted e s'' t''
  | halted e s' t' => exact .halted e s' t'

theorem lockstep_get {f : Store → Eval γ} {g : Store → Eval δ}
    (h : ∀ Q s t, P ≤ Q → s.Alike known Q t → Lockstep known Q R' (f s) (g t)) :
    Lockstep known P R' (get >>= f) (get >>= g) :=
  fun Q s t hPQ hs => h Q s t hPQ hs Q s t le_rfl hs

theorem lockstep_modifyGet {f g : Store → Value × Store}
    (h : ∀ Q s t, P ≤ Q → s.Alike known Q t → ∃ Q', Q ≤ Q' ∧ (f s).2.Alike known Q' (g t).2 ∧
      Twins Q' (f s).1 (g t).1) :
    Lockstep known P Twins (modifyGet f) (modifyGet g) := by
  intro Q s t hPQ hs
  obtain ⟨Q', hQ, hs', hr⟩ := h Q s t hPQ hs
  exact .ok hQ hs' hr

/-- Values are signals in both runs or in none. -/
theorem Lockstep.checked {p q : Eval Value} {f g : Value → Eval γ} {signal : Value → γ}
    {R' : Pairing → γ → γ → Prop} (hp : Lockstep known P Twins p q)
    (hf : ∀ Q v w, P ≤ Q → Twins Q v w → Lockstep known Q R' (f v) (g w))
    (hs : ∀ Q v w, Twins Q v w → R' Q (signal v) (signal w)) :
    Lockstep known P R' (p >>= fun v => if v.isSignal then pure (signal v) else f v)
      (q >>= fun w => if w.isSignal then pure (signal w) else g w) := by
  refine hp.bind fun Q v w hPQ hv => ?_
  rw [hv.isSignal_eq]
  split
  · exact lockstep_pure fun Q' hQ => hs Q' v w (hv.mono hQ)
  · exact hf Q v w hPQ hv

theorem Lockstep.some {p q : Eval Value} (h : Lockstep known P Twins p q) :
    Lockstep known P TwinOptions (p >>= fun v => pure (some v)) (q >>= fun v => pure (some v)) :=
  h.bind fun _ _ _ _ hv => lockstep_pure fun _ hQ => .some (hv.mono hQ)

theorem Lockstep.getD {p q : Eval (Option Value)} (h : Lockstep known P TwinOptions p q) :
    Lockstep known P Twins (p >>= fun o => pure (o.getD .null))
      (q >>= fun o => pure (o.getD .null)) :=
  h.bind fun _ _ _ _ ho => lockstep_pure fun _ hQ => (Twins.getD ho).mono hQ

theorem lockstep_fault (fault : Fault) :
    Lockstep known P Twins (pure (ofFault fault)) (pure (ofFault fault)) :=
  lockstep_pure fun _ _ => .error fault none

/-! ### Evaluation -/

variable (known) in
/-- An evaluator does the same in stores that are alike, for all nodes whose names are known. -/
def InStep (ev : Evaluator) : Prop := ∀ node scope P, node.Named known →
  Lockstep known P TwinOptions (ev node scope) (ev node scope)

variable {ev : Evaluator} {e : Expr} {ss : List Stmt}

theorem lockstep_identifier (hn : (Node.expr (.ident name)).Named known) :
    Lockstep known P Twins (Evaluator.identifier scope name)
      (Evaluator.identifier scope name) := by
  refine lockstep_get fun Q s t hPQ hs => ?_
  have hl := hs.lookup? (hn.own name (by simp [Node.ownNames])) scope
  generalize s.lookup? scope name = o, t.lookup? scope name = o' at hl
  cases hl with
  | some hv => exact lockstep_pure fun _ hQ => hv.mono hQ
  | none =>
    cases Builtin.ofName? name with
    | some b => exact lockstep_pure fun _ _ => .builtin b
    | none => exact lockstep_fault _

theorem lockstep_index {l l' r r' : Value} (hl : Twins P l l') (hr : Twins P r r') :
    Lockstep known P Twins (Evaluator.index l r) (Evaluator.index l' r') := by
  cases hl with
  | array hp =>
    cases hr with
    | int n mark =>
      change Lockstep known P Twins (if n < 0 then _ else _) (if n < 0 then _ else _)
      by_cases hn : n < 0
      · rw [if_pos hn, if_pos hn]
        exact lockstep_pure fun _ _ => .null
      · rw [if_neg hn, if_neg hn]
        refine lockstep_get fun Q s t hPQ hs => lockstep_pure fun Q' hQ => ?_
        exact (Twins.getD (hs.paired.getElem? (hPQ.1 _ _ hp) n.toNat)).mono hQ
    | _ => exact lockstep_fault _
  | @hashmap p q hp =>
    have hk (k : Key) : Lockstep known P Twins
        (get >>= fun s : Store => pure (((s.hashmap p).get? k).getD .null))
        (get >>= fun t : Store => pure (((t.hashmap q).get? k).getD .null)) := by
      refine lockstep_get fun Q s t hPQ hs => lockstep_pure fun Q' hQ => ?_
      have hm := (hs.paired.entries (hPQ.2 _ _ hp)).2.2
      exact (Twins.getD (hm.get? k)).mono hQ
    cases hr with
    | int => exact hk _
    | bool => exact hk _
    | string => exact hk _
    | _ => exact lockstep_fault _
  | _ => exact lockstep_fault _

section

variable (h : InStep known ev)
include h

theorem lockstep_value (hn : (Node.expr e).Named known) :
    Lockstep known P Twins (ev.value scope e) (ev.value scope e) := (h _ scope P hn).getD

theorem lockstep_values {es : List Expr} (hn : ∀ e ∈ es, (Node.expr e).Named known) :
    Lockstep known P (TwinResults TwinLists) (ev.values scope es) (ev.values scope es) := by
  induction es generalizing P with
  | nil => exact lockstep_pure fun _ _ => .ok .nil
  | cons e es ih =>
    refine (lockstep_value h (hn e (by simp))).checked (fun Q v w hPQ hv => ?_)
      fun _ _ _ hv => .error hv
    have hes : Lockstep known Q (TwinResults TwinLists) (ev.values scope es)
        (ev.values scope es) := ih fun e' he => hn e' (by simp [he])
    refine hes.bind fun Q' r r' hQ hr => ?_
    cases hr with
    | error hv => exact lockstep_pure fun _ hQ => .error (hv.mono hQ)
    | ok hvs =>
      exact lockstep_pure fun _ hQ' =>
        .ok (.cons (hv.mono (hQ.trans hQ')) (forall₂_twins_mono hvs hQ'))

theorem lockstep_sequence {o o' : Option Value} (ho : TwinOptions P o o')
    (hn : ∀ st ∈ ss, (Node.stmt st).Named known) :
    Lockstep known P TwinOptions (ev.sequence scope o ss) (ev.sequence scope o' ss) := by
  induction ss generalizing P o o' with
  | nil => exact lockstep_pure fun _ hQ => rel_twins_mono ho hQ
  | cons st ss ih =>
    refine (h (.stmt st) scope P (hn st (by simp))).bind fun Q r r' _ hr => ?_
    have hs : r.any isSignal = r'.any isSignal := by
      cases hr with
      | none => rfl
      | some hv => exact hv.isSignal_eq
    change Lockstep known Q TwinOptions (if r.any isSignal then _ else ev.sequence scope r ss)
      (if r'.any isSignal then _ else ev.sequence scope r' ss)
    rw [hs]
    split
    · exact lockstep_pure fun _ hQ => rel_twins_mono hr hQ
    · exact ih hr fun st' hst => hn st' (by simp [hst])

theorem lockstep_program {body : List Stmt} (hn : (Node.program body).Named known) :
    Lockstep known P TwinOptions (ev.program scope body) (ev.program scope body) := by
  have hb : Lockstep known P TwinOptions (ev.sequence scope none body)
      (ev.sequence scope none body) :=
    lockstep_sequence h .none fun st hst => hn.inside (.program hst)
  refine hb.bind fun Q r r' _ hr => ?_
  cases hr with
  | none => exact lockstep_pure fun _ _ => .none
  | some hv =>
    cases hv with
    | returned hv mark => exact lockstep_pure fun _ hQ => .some (hv.mono hQ)
    | array hp => exact lockstep_pure fun _ hQ => .some (.array (hQ.1 _ _ hp))
    | hashmap hp => exact lockstep_pure fun _ hQ => .some (.hashmap (hQ.2 _ _ hp))
    | _ => exact lockstep_pure fun _ _ => .some (by constructor)

theorem lockstep_conditional {c : Expr} {body : List Stmt} {other : Option (List Stmt)}
    (hn : (Node.expr (.ifThen c body other)).Named known) :
    Lockstep known P Twins (ev.conditional scope c body other)
      (ev.conditional scope c body other) := by
  refine (lockstep_value h (hn.inside (.condition c body other))).checked (fun Q v w _ hv => ?_)
    fun _ _ _ hv => hv
  cases hv with
  | bool b =>
    cases b with
    | true => exact (h _ scope Q (hn.inside (.consequence c body other))).getD
    | false =>
      cases other with
      | none => exact lockstep_pure fun _ _ => .null
      | some other => exact (h _ scope Q (hn.inside (.alternative c body other))).getD
  | _ => exact lockstep_fault _

omit h in
theorem callClosure_apply {c : Closure} {vs : List Value} (hv : vs.length = c.params.length)
    (s : Store) : ev.callClosure c vs s =
      (ev (.stmt (.block c.body)) s.scopes.size >>= fun o => match o with
        | some (.returned v _) => pure v
        | result => pure (result.getD .null)) (s.enter c vs) := by
  rw [Evaluator.callClosure, if_neg (not_not.mpr hv)]
  rfl

theorem lockstep_callClosure {c : Closure} {vs ws : List Value} (hv : TwinLists P vs ws)
    (hc : (Node.expr (.function c.params c.body)).Named known) :
    Lockstep known P Twins (ev.callClosure c vs) (ev.callClosure c ws) := by
  by_cases hlen : ws.length = c.params.length
  · intro Q s t hPQ hs
    have hbody : (Node.stmt (.block c.body)).Named known :=
      hc.within (.inr ⟨c.params, c.body, rfl, rfl⟩)
    rw [callClosure_apply (hv.length_eq.trans hlen), callClosure_apply hlen, hs.size]
    refine ((h _ t.scopes.size Q hbody).bind fun Q' r r' _ hr => ?_) Q (s.enter c vs)
      (t.enter c ws) le_rfl (hs.enter c (forall₂_twins_mono hv hPQ))
    cases hr with
    | none => exact lockstep_pure fun _ _ => .null
    | some hv =>
      cases hv with
      | returned hv mark => exact lockstep_pure fun _ hQ => hv.mono hQ
      | array hp => exact lockstep_pure fun _ hQ => .array (hQ.1 _ _ hp)
      | hashmap hp => exact lockstep_pure fun _ hQ => .hashmap (hQ.2 _ _ hp)
      | _ => exact lockstep_pure fun _ _ => by constructor
  · unfold Evaluator.callClosure
    rw [hv.length_eq, if_pos hlen, if_pos hlen]
    exact lockstep_fault _

theorem lockstep_call {v w : Value} {vs ws : List Value} (hv : Twins P v w)
    (ha : TwinLists P vs ws) : Lockstep known P Twins (ev.call v vs) (ev.call w ws) := by
  cases hv with
  | function place =>
    refine lockstep_get fun Q s t hPQ hs => ?_
    rw [← hs.closures]
    cases hc : s.closures[place]? with
    | none => exact lockstep_fault _
    | some c => exact lockstep_callClosure h (forall₂_twins_mono ha hPQ) (hs.bodies hc)
  | builtin b =>
    refine lockstep_modifyGet fun Q s t hPQ hs => ?_
    obtain ⟨hr, hp⟩ := b.apply_twins hs.paired (forall₂_twins_mono ha hPQ)
    obtain ⟨hss, hsc⟩ := b.apply_scopes vs s
    obtain ⟨hts, htc⟩ := b.apply_scopes ws t
    exact ⟨Q, le_rfl, hs.of_paired le_rfl hp hss hts hsc htc, hr⟩
  | _ => exact lockstep_fault _

theorem lockstep_entries {ps : List (Expr × Expr)} {m n : Hashmap} (hm : m.Twins P n)
    (hk : ∀ p ∈ ps, (Node.expr p.1).Named known) (hv : ∀ p ∈ ps, (Node.expr p.2).Named known) :
    Lockstep known P (TwinResults Hashmap.Twins) (ev.entries scope ps m)
      (ev.entries scope ps n) := by
  induction ps generalizing P m n with
  | nil => exact lockstep_pure fun _ hQ => .ok (hm.mono hQ)
  | cons pair ps ih =>
    obtain ⟨keyExpr, valueExpr⟩ := pair
    refine (lockstep_value h (hk (keyExpr, valueExpr) (by simp))).checked (fun Q k k' hPQ hkk => ?_)
      fun _ _ _ hv => .error hv
    rw [hkk.key?_eq, hkk.tag_eq]
    cases k'.key? with
    | none => exact lockstep_pure fun _ _ => .error (.error _ none)
    | some key =>
      have hn : (Node.expr valueExpr).Named known := hv (keyExpr, valueExpr) (by simp)
      refine (lockstep_value h hn).checked (fun Q' v w hQ hvw => ?_) fun _ _ _ hv => .error hv
      exact ih ((hm.mono (hPQ.trans hQ)).put key hvw) (fun p hp => hk p (by simp [hp]))
        fun p hp => hv p (by simp [hp])

theorem lockstep_expression (hn : (Node.expr e).Named known) :
    Lockstep known P TwinOptions (ev.expression scope e) (ev.expression scope e) := by
  have hsig (Q : Pairing) (v w : Value) (hv : Twins Q v w) : TwinOptions Q (some v) (some w) :=
    .some hv
  have hplain {v : Value} (hv : v.IsPlain) {P : Pairing} :
      Lockstep known P TwinOptions (pure (some v)) (pure (some v)) :=
    lockstep_pure fun _ _ => .some (.of_isPlain hv)
  cases e with
  | int n => exact hplain (v := ofInt n) (.inl trivial)
  | bool b => exact hplain (v := .bool b) (.inl trivial)
  | string t => exact hplain (v := ofString t) (.inl trivial)
  | ident name => exact (lockstep_identifier hn).some
  | unary op right =>
    refine (lockstep_value h (hn.inside (.unary op right))).checked (fun Q v w _ hv => ?_) hsig
    rw [op.apply_twins hv]
    exact hplain (op.isPlain_apply w)
  | binary op left right =>
    refine (lockstep_value h (hn.inside (.left op left right))).checked (fun Q l l' _ hl => ?_) hsig
    refine (lockstep_value h (hn.inside (.right op left right))).checked (fun Q' r r' hQ hr => ?_)
      hsig
    intro Q'' s t hQ' hs
    rw [op.apply_twins hs.paired.array hs.paired.hashmap (hl.mono (hQ.trans hQ')) (hr.mono hQ')]
    exact hplain (op.isPlain_apply l' r') Q'' s t le_rfl hs
  | ifThen c body other => exact (lockstep_conditional h hn).some
  | function params body =>
    refine (lockstep_modifyGet fun Q s t _ hs => ⟨Q, le_rfl, hs.newClosure hn, ?_⟩).some
    simp only [Store.newClosure, hs.closures]
    exact .function _
  | call callee args =>
    refine (lockstep_value h (hn.inside (.callee callee args))).checked (fun Q f f' _ hf => ?_) hsig
    refine (lockstep_values h fun e he => hn.inside (.arg callee he)).bind fun Q' r r' hQ hr => ?_
    cases hr with
    | error hv => exact lockstep_pure fun _ hQ => .some (hv.mono hQ)
    | ok hvs => exact (lockstep_call h (hf.mono hQ) hvs).some
  | array es =>
    refine (lockstep_values h fun e he => hn.inside (.element he)).bind fun Q r r' _ hr => ?_
    cases hr with
    | error hv => exact lockstep_pure fun _ hQ => .some (hv.mono hQ)
    | ok hvs =>
      refine (lockstep_modifyGet fun Q' s t hQ hs => ?_).some
      exact ⟨_, Pairing.le_withArray, hs.of_paired Pairing.le_withArray
        (hs.paired.newArray (forall₂_twins_mono hvs hQ)) rfl rfl rfl rfl, .array (.inr ⟨rfl, rfl⟩)⟩
  | index left i =>
    refine (lockstep_value h (hn.inside (.indexed left i))).checked (fun Q l l' _ hl => ?_) hsig
    refine (lockstep_value h (hn.inside (.index left i))).checked (fun Q' r r' hQ hr => ?_) hsig
    exact (lockstep_index (hl.mono hQ) hr).some
  | hashmap ps =>
    have hps : Lockstep known P (TwinResults Hashmap.Twins) (ev.entries scope ps {})
        (ev.entries scope ps {}) :=
      lockstep_entries h Hashmap.twins_empty (fun p hp => hn.inside (.key (k := p.1) (v := p.2) hp))
        fun p hp => hn.inside (.value (k := p.1) (v := p.2) hp)
    refine hps.bind fun Q r r' _ hr => ?_
    cases hr with
    | error hv => exact lockstep_pure fun _ hQ => .some (hv.mono hQ)
    | ok hm =>
      refine (lockstep_modifyGet fun Q' s t hQ hs => ?_).some
      exact ⟨_, Pairing.le_withHashmap, hs.of_paired Pairing.le_withHashmap
        (hs.paired.newHashmap (hm.mono hQ)) rfl rfl rfl rfl, .hashmap (.inr ⟨rfl, rfl⟩)⟩

theorem lockstep_statement {st : Stmt} (hn : (Node.stmt st).Named known) :
    Lockstep known P TwinOptions (ev.statement scope st) (ev.statement scope st) := by
  have hsig (Q : Pairing) (v w : Value) (hv : Twins Q v w) : TwinOptions Q (some v) (some w) :=
    .some hv
  cases st with
  | expr e => exact h _ scope P (hn.inside (.expr e))
  | block body => exact lockstep_sequence h .none fun st hst => hn.inside (.block hst)
  | assign name e =>
    refine (lockstep_value h (hn.inside (.assign name e))).checked (fun Q v w _ hv => ?_) hsig
    intro Q' s t hQ hs
    exact .ok le_rfl (hs.bind (hv.mono hQ) scope name) .none
  | ret e =>
    refine (lockstep_value h (hn.inside (.ret e))).checked (fun Q v w _ hv => ?_) hsig
    exact lockstep_pure fun _ hQ => .some (.returned (hv.mono hQ) none)

theorem inStep_step : InStep known ev.step := by
  intro node scope P hn
  cases node with
  | program body => exact lockstep_program h hn
  | stmt st => exact lockstep_statement h hn
  | expr e => exact lockstep_expression h hn
  | foreign typeName => exact fun _ s t _ _ => .halted _ s t

omit h in
/-- At every depth evaluation does the same in stores that are alike. -/
theorem inStep_eval (depth : Nat) : InStep known (eval depth) := by
  induction depth with
  | zero => exact fun _ _ _ _ _ s t _ _ => .halted _ s t
  | succ d ih => exact inStep_step ih

end

end Scriptlet
