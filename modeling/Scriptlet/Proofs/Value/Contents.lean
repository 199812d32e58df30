import Scriptlet.Value.Builtin
import Scriptlet.Value.Operator

/-!
What a store holds. The operations on a store are described by what is read from it afterwards, and
what operators and builtins give by where it can come from.
-/

namespace Scriptlet

variable {p q : Value → Prop} {s : Store} {v : Value} {name : String} {scope place i : Nat}

/-- A value that points to nothing in a store, and is no signal. -/
def Value.IsScalar : Value → Prop
  | int .. | bool _ | string .. | null | builtin _ => True
  | _ => False

/-- A scalar or an error that evaluation makes. -/
def Value.IsPlain (v : Value) : Prop := v.IsScalar ∨ ∃ fault, v = ofFault fault

@[simp] theorem Value.isPlain_ofFault (fault : Fault) : (ofFault fault).IsPlain :=
  .inr ⟨fault, rfl⟩

theorem Value.IsScalar.isPlain (h : v.IsScalar) : v.IsPlain := .inl h

theorem PrefixOp.isPlain_apply (op : PrefixOp) (v : Value) : (op.apply v).IsPlain := by
  unfold apply
  split
  · exact Value.IsScalar.isPlain trivial
  · exact Value.IsScalar.isPlain trivial
  · exact Value.isPlain_ofFault _

theorem InfixOp.isPlain_onInts (op : InfixOp) (a b : Int) : (op.onInts a b).IsPlain := by
  unfold onInts
  split
  case h_4 | h_5 =>
    split
    · exact Value.isPlain_ofFault _
    · exact Value.IsScalar.isPlain trivial
  case h_12 => exact Value.isPlain_ofFault _
  all_goals exact Value.IsScalar.isPlain trivial

theorem InfixOp.isPlain_onStrings (op : InfixOp) (a b : String) : (op.onStrings a b).IsPlain := by
  unfold onStrings
  split
  case h_8 => exact Value.isPlain_ofFault _
  all_goals exact Value.IsScalar.isPlain trivial

theorem InfixOp.isPlain_apply (op : InfixOp) (l r : Value) : (op.apply l r).IsPlain := by
  unfold apply
  split
  · exact Value.isPlain_ofFault _
  · split
    case h_5 => exact isPlain_onInts _ _ _
    case h_6 => exact isPlain_onStrings _ _ _
    case h_3 | h_4 | h_9 => exact Value.isPlain_ofFault _
    all_goals exact Value.IsScalar.isPlain trivial

/-- A builtin gives a scalar, an error, the array that it adds an element to, or an element of an
array. Only for the array that it adds to is there another store afterwards. -/
theorem Builtin.apply_cases (b : Builtin) (args : List Value) (s : Store) :
    (∃ v, v.IsPlain ∧ b.apply args s = (v, s)) ∨
    (∃ place v, b = push ∧ args = [.array place, v] ∧
      b.apply args s = (.array place, s.push place v)) ∨
    ∃ place v, args = [.array place] ∧ v ∈ s.elements place ∧ b.apply args s = (v, s) := by
  have hf (fault : Fault) : ∃ v : Value, v.IsPlain ∧ (Value.ofFault fault, s) = (v, s) :=
    ⟨_, Value.isPlain_ofFault fault, rfl⟩
  have hs {w : Value} (hw : w.IsScalar) : ∃ v : Value, v.IsPlain ∧ (w, s) = (v, s) :=
    ⟨w, hw.isPlain, rfl⟩
  have he (place : Nat) (o : Option Value) (ho : ∀ v ∈ o, v ∈ s.elements place) :
      (∃ v : Value, v.IsPlain ∧ (o.getD .null, s) = (v, s)) ∨
        ∃ v, v ∈ s.elements place ∧ (o.getD .null, s) = (v, s) := by
    cases o with
    | none => exact .inl ⟨.null, Value.IsScalar.isPlain trivial, rfl⟩
    | some v => exact .inr ⟨v, ho v rfl, rfl⟩
  unfold apply
  split
  case h_4 place v => exact .inr (.inl ⟨place, v, rfl, rfl, rfl⟩)
  case h_6 place =>
    rcases he place (s.elements place)[0]? fun v hv =>
      Array.mem_of_getElem? hv with h | ⟨v, hv, h⟩
    · exact .inl h
    · exact .inr (.inr ⟨place, v, rfl, hv, h⟩)
  case h_8 place =>
    rcases he place (s.elements place).back? fun v hv =>
      Array.mem_of_back? hv with h | ⟨v, hv, h⟩
    · exact .inl h
    · exact .inr (.inr ⟨place, v, rfl, hv, h⟩)
  case h_1 | h_2 | h_10 => exact .inl (hs trivial)
  all_goals exact .inl (hf _)

/-! ### Reading after an operation -/

theorem Scope.mem_bindIn {b : String × Value} {l : List (String × Value)}
    (h : b ∈ bindIn name v l) : b = (name, v) ∨ b ∈ l := by
  induction l with
  | nil => simpa [bindIn] using h
  | cons c l ih =>
    obtain ⟨n, w⟩ := c
    unfold bindIn at h
    split at h
    · rcases List.mem_cons.mp h with h | h
      · exact .inl h
      · exact .inr (.tail _ h)
    · rcases List.mem_cons.mp h with h | h
      · exact .inr (h ▸ .head _)
      · exact (ih h).imp_right (.tail _)

theorem Hashmap.mem_putIn {d e : Entry} {l : List Entry} (h : d ∈ putIn e l) : d = e ∨ d ∈ l := by
  induction l with
  | nil => simpa [putIn] using h
  | cons c l ih =>
    unfold putIn at h
    split at h
    · rcases List.mem_cons.mp h with h | h
      · exact .inl h
      · exact .inr (.tail _ h)
    · rcases List.mem_cons.mp h with h | h
      · exact .inr (h ▸ .head _)
      · exact (ih h).imp_right (.tail _)

namespace Store

@[simp] theorem namesOf_newScope (outer : Option Nat) :
    (s.newScope outer).2.namesOf i = s.namesOf i := by
  simp only [namesOf, newScope, Array.getElem?_push]
  by_cases hi : i = s.scopes.size <;> simp [hi]

theorem mem_namesOf_bind {b : String × Value} (h : b ∈ (s.bind scope name v).namesOf i) :
    b = (name, v) ∨ b ∈ s.namesOf i := by
  simp only [namesOf, bind, Array.getElem?_modify] at h ⊢
  by_cases hi : scope = i
  · cases hs : s.scopes[i]? with
    | none => simp [hi, hs] at h
    | some sc =>
      simp only [hi, hs, if_true, Option.map_some] at h
      exact Scope.mem_bindIn h
  · simpa [hi] using Or.inr h

theorem elements_newArray (a : Array Value) :
    (s.newArray a).2.elements i = if i = s.arrays.size then a else s.elements i := by
  simp only [elements, newArray, Array.getElem?_push]
  split <;> rfl

theorem mem_elements_push {w : Value} (h : w ∈ (s.push place v).elements i) :
    w = v ∨ w ∈ s.elements i := by
  simp only [elements, push, Array.getElem?_modify] at h ⊢
  by_cases hi : place = i
  · cases hs : s.arrays[i]? with
    | none => simp [hi, hs] at h
    | some a =>
      simp only [hi, hs, if_true, Option.map_some, Option.getD_some] at h ⊢
      exact (Array.mem_push.mp h).symm
  · simpa [hi] using Or.inr h

theorem hashmap_newHashmap (m : Hashmap) :
    (s.newHashmap m).2.hashmap i = if i = s.hashmaps.size then m else s.hashmap i := by
  simp only [hashmap, newHashmap, Array.getElem?_push]
  split <;> rfl

/-- The store in which the body of a function is evaluated: with a scope for the call, where the
parameters are bound. -/
def enter (s : Store) (c : Closure) (args : List Value) : Store :=
  (c.params.zip args).foldl (fun t (name, v) => t.bind s.scopes.size name v)
    (s.newScope (some c.scope)).2

/-- What a new scope keeps, and the bindings of arguments in it, holds where the body is
evaluated. -/
theorem enter_induction {motive : Store → Prop} {c : Closure} {args : List Value}
    (scope : motive (s.newScope (some c.scope)).2)
    (bind : ∀ t name, ∀ v ∈ args, motive t → motive (t.bind s.scopes.size name v)) :
    motive (s.enter c args) := by
  have hzip : ∀ a ∈ c.params.zip args, a.2 ∈ args := fun a ha =>
    (List.of_mem_zip (a := a.1) (b := a.2) ha).2
  unfold enter
  generalize (s.newScope (some c.scope)).2 = t at scope
  generalize c.params.zip args = l at hzip
  induction l generalizing t with
  | nil => exact scope
  | cons a l ih =>
    exact ih _ (bind t a.1 a.2 (hzip a (by simp)) scope) fun b hb => hzip b (by simp [hb])

/-- All values held in a store have a property. -/
structure All (p : Value → Prop) (s : Store) : Prop where
  named : ∀ ⦃scope b⦄, b ∈ s.namesOf scope → p b.2
  element : ∀ ⦃place v⦄, v ∈ s.elements place → p v
  entry : ∀ ⦃place e⦄, e ∈ (s.hashmap place).entries → p e.value

namespace All

theorem empty : ({} : Store).All p :=
  ⟨by simp [namesOf], by simp [elements], by simp [hashmap]⟩

theorem mono (h : s.All p) (hp : ∀ v, p v → q v) : s.All q :=
  ⟨fun _ _ hb => hp _ (h.named hb), fun _ _ hv => hp _ (h.element hv),
    fun _ _ he => hp _ (h.entry he)⟩

theorem newScope (h : s.All p) (outer : Option Nat) : (s.newScope outer).2.All p :=
  ⟨fun _ _ hb => h.named (namesOf_newScope outer ▸ hb), h.element, h.entry⟩

theorem bind (h : s.All p) (hv : p v) (scope : Nat) (name : String) :
    (s.bind scope name v).All p := by
  refine ⟨fun _ _ hb => ?_, h.element, h.entry⟩
  rcases mem_namesOf_bind hb with rfl | hb
  · exact hv
  · exact h.named hb

theorem newArray (h : s.All p) {a : Array Value} (ha : ∀ v ∈ a, p v) :
    (s.newArray a).2.All p := by
  refine ⟨h.named, fun i v hv => ?_, h.entry⟩
  rw [elements_newArray] at hv
  split at hv
  · exact ha v hv
  · exact h.element hv

theorem newHashmap (h : s.All p) {m : Hashmap} (hm : ∀ e ∈ m.entries, p e.value) :
    (s.newHashmap m).2.All p := by
  refine ⟨h.named, h.element, fun i e he => ?_⟩
  rw [hashmap_newHashmap] at he
  split at he
  · exact hm e he
  · exact h.entry he

theorem newClosure (h : s.All p) (c : Closure) : (s.newClosure c).2.All p :=
  ⟨h.named, h.element, h.entry⟩

theorem push (h : s.All p) (hv : p v) (place : Nat) : (s.push place v).All p := by
  refine ⟨h.named, fun i w hw => ?_, h.entry⟩
  rcases mem_elements_push hw with rfl | hw
  · exact hv
  · exact h.element hw

theorem lookupWithin (h : s.All p) {n : Nat} (hl : s.lookupWithin name n scope = some v) :
    p v := by
  induction n generalizing scope with
  | zero => simp [Store.lookupWithin] at hl
  | succ n ih =>
    unfold Store.lookupWithin at hl
    split at hl
    · next w hw =>
      obtain rfl := Option.some.inj hl
      obtain ⟨l, l', hl', -⟩ := List.lookup_eq_some_iff.mp hw
      have hm : (name, w) ∈ s.namesOf scope := by simp [hl']
      exact h.named hm
    · obtain ⟨o, -, ho⟩ := Option.bind_eq_some_iff.mp hl
      exact ih ho

theorem lookup (h : s.All p) (hl : s.lookup? scope name = some v) : p v := h.lookupWithin hl

theorem get (h : s.All p) {k : Key} (hg : (s.hashmap place).get? k = some v) : p v := by
  obtain ⟨e, he, rfl⟩ := Option.map_eq_some_iff.mp hg
  exact h.entry (List.mem_of_find?_eq_some he)

end All

/-- No value held in a store is a signal. -/
abbrev SignalFree (s : Store) : Prop := s.All (·.isSignal = false)

end Store

end Scriptlet
