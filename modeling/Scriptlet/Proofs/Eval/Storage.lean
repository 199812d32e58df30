import Mathlib.Logic.Relation
import Scriptlet.Proofs.Eval.Discipline
import Scriptlet.Proofs.Host.Imported

/-!
Stores stay well formed, whatever is evaluated in them. Evaluation changes a store by single
operations only, all of which keep it so.
-/

namespace Scriptlet
open Value

variable {s t : Store} {v : Value} {scope depth : Nat}

namespace Store

/-- One operation on a store. -/
inductive Change : Store → Store → Prop where
  | newScope (s : Store) (outer : Option Nat) : Change s (s.newScope outer).2
  | bind (s : Store) (scope : Nat) (name : String) (v : Value) : Change s (s.bind scope name v)
  | newArray (s : Store) (a : Array Value) : Change s (s.newArray a).2
  | newHashmap (s : Store) (m : Hashmap) : Change s (s.newHashmap m).2
  | newClosure (s : Store) (c : Closure) : Change s (s.newClosure c).2
  | push (s : Store) (place : Nat) (v : Value) : Change s (s.push place v)

/-- A store comes from another one by single operations, and all stores on the way to it are well
formed. -/
def Leads : Store → Store → Prop := Relation.ReflTransGen fun s t => s.Change t ∧ t.WellFormed

end Store

/-- The discipline of well-formed stores behind a first one. -/
def storage (first : Store) : Discipline where
  Inv s := s.WellFormed ∧ first.Leads s
  Data := Store.IsData
  Filled s m := m.IsFilled s
  Runs s scope _ := scope < s.scopes.size

section

variable {first : Store}

theorem storage_later (hi : (storage first).Inv s) (hc : s.Change t) (ht : t.WellFormed)
    (he : s.Extends t) : (storage first).Later s t where
  inv := ⟨ht, hi.2.tail ⟨hc, ht⟩⟩
  data _ hv := hv.mono he
  filled _ hm := hm.mono he
  runs _ _ hs := Nat.lt_of_lt_of_le hs he.scopes

theorem storage_answer (h : v.IsPlain) : (storage first).Answer s v :=
  h.imp_left Store.isData_of_isScalar

theorem storage_bind (hi : (storage first).Inv s) (hv : s.IsData v) (scope : Nat) (name : String) :
    (storage first).Later s (s.bind scope name v) :=
  storage_later hi (.bind s scope name v) (hi.1.bind hv scope name) Store.extends_bind

theorem storage_newScope (hi : (storage first).Inv s) {outer : Nat} (ho : outer < s.scopes.size) :
    (storage first).Later s (s.newScope (some outer)).2 :=
  storage_later hi (.newScope s _) (hi.1.newScope (by simpa using ho)) (Store.extends_newScope _)

theorem storage_apply (hi : (storage first).Inv s) (b : Builtin) {args : List Value}
    (ha : ∀ v ∈ args, s.IsData v) : (storage first).Later s (b.apply args s).2 ∧
      (storage first).Answer (b.apply args s).2 (b.apply args s).1 := by
  rcases b.apply_cases args s with ⟨v, hv, h⟩ | ⟨place, v, -, rfl, h⟩ | ⟨place, v, -, hv, h⟩
  · rw [h]
    exact ⟨.refl hi, storage_answer hv⟩
  · rw [h]
    have hl := storage_later hi (.push s place v) (hi.1.push (ha v (by simp)) place)
      Store.extends_push
    have hd : s.IsData (.array place) := ha (.array place) (by simp)
    exact ⟨hl, .inl (hl.data hd)⟩
  · rw [h]
    exact ⟨.refl hi, .inl (hi.1.data.element hv)⟩

theorem storage_enter (hi : (storage first).Inv s) {place : Nat} {c : Closure} {args : List Value}
    (hc : s.closures[place]? = some c) (ha : ∀ v ∈ args, s.IsData v) :
    (storage first).Later s (s.enter c args) ∧ s.scopes.size < (s.enter c args).scopes.size := by
  refine Store.enter_induction
    (motive := fun t => (storage first).Later s t ∧ s.scopes.size < t.scopes.size) ?_ ?_
  · exact ⟨storage_newScope hi (hi.1.closure hc), by simp [Store.newScope]⟩
  · rintro t name v hv ⟨hlt, hs⟩
    have hb := storage_bind hlt.inv (hlt.data (ha v hv)) s.scopes.size name
    exact ⟨hlt.trans hb, @Discipline.Later.runs _ _ _ hb s.scopes.size (.program []) hs⟩

theorem lawful_storage (first : Store) : (storage first).Lawful where
  inside h _ := h
  not_signal h := h.not_signal
  null _ := trivial
  bool _ _ := trivial
  string _ _ := trivial
  int _ := trivial
  name hi _ h := hi.1.data.lookup h
  builtin _ _ := trivial
  unary op _ _ := storage_answer (op.isPlain_apply _)
  binary op _ _ _ _ := storage_answer (op.isPlain_apply _ _)
  element hi _ h := hi.1.data.element h
  entry hi _ h := hi.1.data.get h
  apply hi _ ha := storage_apply hi _ ha
  empty s := Hashmap.isFilled_empty s
  put hm _ _ hv := hm.put _ hv
  newArray {_ vs} hi hv := by
    have hd : ∀ v ∈ vs.toArray, _ := fun v h => hv v (List.mem_toArray.mp h)
    exact ⟨storage_later hi (.newArray _ _) (hi.1.newArray hd) (Store.extends_newArray _),
      by simp [storage, Store.newArray, Store.IsData]⟩
  newHashmap hi hm := ⟨storage_later hi (.newHashmap _ _) (hi.1.newHashmap hm.1 hm.2)
    (Store.extends_newHashmap _), by simp [storage, Store.newHashmap, Store.IsData]⟩
  newClosure hi hs := ⟨storage_later hi (.newClosure _ _) (hi.1.newClosure hs)
    (Store.extends_newClosure _), by simp [storage, Store.newClosure, Store.IsData]⟩
  bind hi _ hv := storage_bind hi hv _ _
  enter hi _ hc _ ha := storage_enter hi hc ha

end

/-- The stores that are reached from an empty one: by new scopes, inside others or not, by bindings
of host data, and by evaluating anything in any scope, also when it gives no result. -/
inductive Reached : Store → Prop where
  | start : Reached {}
  | newScope {s : Store} {outer : Option Nat} (h : Reached s)
    (ho : ∀ o ∈ outer, o < s.scopes.size) : Reached (s.newScope outer).2
  | bound {s : Store} (h : Reached s) (depth scope : Nat) (bindings : List (HostKey × Host))
    (names : Option (List String)) : Reached (s.bindAll depth scope bindings names).1
  | evaluated {s t : Store} {depth scope : Nat} {node : Node} {o : Option Value} (h : Reached s)
    (hs : scope < s.scopes.size) (hr : eval depth node scope s = .ok o t) : Reached t
  | halted {s t : Store} {depth scope : Nat} {node : Node} {e : Halt} (h : Reached s)
    (hs : scope < s.scopes.size) (hr : eval depth node scope s = .error e t) : Reached t

/-- What evaluation in a well-formed store does to it, and what it gives. -/
theorem keeps_eval (h : s.WellFormed) (hs : scope < s.scopes.size) (depth : Nat) (node : Node) :
    (storage s).Keeps s (fun o t => ∀ v ∈ o, (storage s).Outcome t v) (eval depth node scope s) :=
  Discipline.sound_eval (lawful_storage s) depth node scope s ⟨h, .refl⟩ hs

theorem Reached.wellFormed (h : Reached s) : s.WellFormed := by
  induction h with
  | start => exact .empty
  | newScope _ ho ih => exact ih.newScope ho
  | bound _ depth scope bindings names ih => exact wellFormed_bindAll depth scope bindings names ih
  | @evaluated s t depth scope node _ _ hs hr ih =>
    have hk := keeps_eval ih hs depth node
    rw [hr] at hk
    exact hk.1.inv.1
  | @halted s t depth scope node _ _ hs hr ih =>
    have hk := keeps_eval ih hs depth node
    rw [hr] at hk
    exact hk.inv.1

/-- The value of a call is no `return`. -/
theorem call_ne_returned (h : s.WellFormed) {f : Value} {args : List Value} (hf : s.IsData f)
    (ha : ∀ a ∈ args, s.IsData a) (depth : Nat) (t : Store) (v : Value) (m : Mark) :
    (eval depth).call f args s ≠ .ok (.returned v m) t := by
  intro hr
  have hl := lawful_storage s
  have hk := Discipline.keeps_call hl (Discipline.sound_eval hl depth) ⟨h, .refl⟩ hf ha
  rw [hr] at hk
  exact hk.2.ne_returned hl v m rfl

/-- The value of a program is no `return`. -/
theorem program_ne_returned (h : s.WellFormed) (hs : scope < s.scopes.size) (depth : Nat)
    (body : List Stmt) (t : Store) (v : Value) (m : Mark) :
    eval depth (.program body) scope s ≠ .ok (some (.returned v m)) t := by
  intro hr
  cases depth with
  | zero => cases hr
  | succ n =>
    have hl := lawful_storage s
    have hk : (storage s).Keeps s (fun o t => ∀ v ∈ o, (storage s).Answer t v)
        ((eval n).program scope body s) :=
      Discipline.keeps_program hl (Discipline.sound_eval hl n) ⟨h, .refl⟩ hs
    change (eval n).program scope body s = _ at hr
    rw [hr] at hk
    exact (hk.2 _ rfl).ne_returned hl v m rfl

/-- What a `return` hands upward is data. -/
theorem isData_of_returned (h : s.WellFormed) (hs : scope < s.scopes.size) {node : Node}
    {m : Mark} (hr : eval depth node scope s = .ok (some (.returned v m)) t) : t.IsData v := by
  have hk := keeps_eval h hs depth node
  rw [hr] at hk
  rcases hk.2 _ rfl with (hd | ⟨fault, hf⟩) | ⟨w, hw, hd⟩
  · exact hd.elim
  · cases hf
  · cases hw
    exact hd

/-- In every store that is reached no signal is data, every entry of a hashmap is found by its own
key, and going outward from a scope ends, so that a lookup is not cut off. From there every
evaluation leads through such stores only, no call and no program gives a `return`, and no `return`
holds a signal. -/
theorem Reached.storage (h : Reached s) :
    s.WellFormed ∧ s.SignalFree ∧
    (∀ place, ∀ e ∈ (s.hashmap place).entries,
      (s.hashmap place).entries.find? (·.key.hashKey = e.key.hashKey) = some e) ∧
    (WellFounded fun o scope => s.outerOf scope = some o) ∧
    (∀ scope, ¬ Relation.TransGen (fun o scope => s.outerOf scope = some o) scope scope) ∧
    (∀ scope name n, scope < s.scopes.size → s.scopes.size ≤ n →
      s.lookupWithin name n scope = s.lookup? scope name) ∧
    ∀ depth scope, scope < s.scopes.size →
      (∀ node o t, eval depth node scope s = .ok o t → s.Leads t) ∧
      (∀ node e t, eval depth node scope s = .error e t → s.Leads t) ∧
      (∀ body t v m, eval depth (.program body) scope s ≠ .ok (some (.returned v m)) t) ∧
      (∀ f args t v m, s.IsData f → (∀ a ∈ args, s.IsData a) →
        (eval depth).call f args s ≠ .ok (.returned v m) t) ∧
      ∀ node t v m, eval depth node scope s = .ok (some (.returned v m)) t →
        v.isSignal = false := by
  have hw := h.wellFormed
  refine ⟨hw, hw.data.mono fun _ hv => hv.not_signal, fun place e he => (hw.keyed place).find he,
    hw.wellFounded_outer, hw.outer_acyclic, fun scope name n hs hn => ?_, fun depth scope hs => ?_⟩
  · exact hw.lookupWithin_eq name (Nat.lt_of_lt_of_le hs hn) hs
  · refine ⟨fun node o t hr => ?_, fun node e t hr => ?_, program_ne_returned hw hs depth,
      fun f args t v m hf ha => call_ne_returned hw hf ha depth t v m,
      fun node t v m hr => (isData_of_returned hw hs hr).not_signal⟩
    · have hk := keeps_eval hw hs depth node
      rw [hr] at hk
      exact hk.1.inv.2
    · have hk := keeps_eval hw hs depth node
      rw [hr] at hk
      exact hk.inv.2

/-- A program that is a `return` alone, in an empty scope. -/
theorem reached_program_return : Reached (({} : Store).newScope none).2 ∧
    eval 3 (.program [.ret (.int 1)]) 0 (({} : Store).newScope none).2 =
      .ok (some (.int 1 none)) (({} : Store).newScope none).2 ∧
    ∀ depth t v m, eval depth (.program [.ret (.int 1)]) 0 (({} : Store).newScope none).2 ≠
      .ok (some (.returned v m)) t := by
  have h : Reached (({} : Store).newScope none).2 := Reached.start.newScope (by simp)
  obtain ⟨-, -, -, -, -, -, he⟩ := h.storage
  refine ⟨h, rfl, fun depth t v m => ?_⟩
  obtain ⟨-, -, hp, -⟩ := he depth 0 (by decide)
  exact hp [.ret (.int 1)] t v m

end Scriptlet
