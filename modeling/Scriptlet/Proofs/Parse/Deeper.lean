import Scriptlet.Parse.Program
import Scriptlet.Proofs.Parse.Discipline

/-! More room for nesting changes nothing, except where the room was too little. -/

namespace Scriptlet.Parser

variable {α β : Type} {s t : State} {p q : Parser α} {f g : α → Parser β} {r r' : Rules}

/-- Where a rule has room enough, the other does the same. -/
def Deepens (p q : Parser α) : Prop := ∀ s, (∃ t, p s = .error .tooDeep t) ∨ p s = q s

theorem Deepens.refl (p : Parser α) : Deepens p p := fun _ => .inr rfl

theorem Deepens.ok (h : Deepens p q) {a : α} (hp : p s = .ok a t) : q s = .ok a t := by
  obtain ⟨u, hu⟩ | he := h s
  · cases hp.symm.trans hu
  · exact he.symm.trans hp

/-- How a run ends beside another that has more room. -/
def Roomy (x x' : EStateM.Result Stop State α) : Prop := (∃ t, x = .error .tooDeep t) ∨ x = x'

theorem Roomy.bind (h : Roomy (p s) (q s)) (hf : ∀ a t, Roomy (f a t) (g a t)) :
    Roomy ((p >>= f) s) ((q >>= g) s) := by
  rw [bind_apply, bind_apply]
  obtain ⟨t, ht⟩ | he := h
  · exact .inl ⟨t, by rw [ht]⟩
  · rw [← he]
    cases p s with
    | ok a t => exact hf a t
    | error e t => exact .inr rfl

theorem Roomy.attempt (h : Roomy (p s) (q s)) : Roomy (attempt p s) (attempt q s) := by
  unfold Parser.attempt
  obtain ⟨t, ht⟩ | he := h
  · exact .inl ⟨t, by rw [ht]⟩
  · exact .inr (by rw [he])

theorem Deepens.bind (h : Deepens p q) (hf : ∀ a, Deepens (f a) (g a)) :
    Deepens (p >>= f) (q >>= g) := fun s => Roomy.bind (h s) hf

theorem Deepens.then (h : Deepens p q) (f : α → Parser β) : Deepens (p >>= f) (q >>= f) :=
  h.bind fun a => .refl (f a)

theorem deepens_bind (p : Parser α) (hf : ∀ a, Deepens (f a) (g a)) : Deepens (p >>= f) (p >>= g) :=
  (Deepens.refl p).bind hf

theorem deepens_tooDeep : Deepens (throw .tooDeep) q := fun s => .inl ⟨s, rfl⟩

/-- All is done that is done with more room, as long as there is room enough. -/
def deepening : Discipline where
  toCompanion := .same
  Keeps _ _ _ x x' := Roomy x x'
  pure _ _ _ := .inr rfl
  bind := Roomy.bind
  turn _ := id
  advance _ := .inr rfl
  pass _ _ := .inr rfl
  failCurrent _ _ := .inr rfl
  failPeek _ _ := .inr rfl
  integer _ := .inr rfl
  attempt := Roomy.attempt
  unterminated _ := .inr rfl
  leave _ := .inr rfl
  skip _ := .inr rfl

namespace Rules

/-- Rules that do the same as others where they have room enough. -/
structure Deepens (r r' : Rules) : Prop where
  expression (power : Nat) : Parser.Deepens (r.expression power) (r'.expression power)
  statement : Parser.Deepens r.statement r'.statement

variable (h : r.Deepens r')
include h

theorem Deepens.governs : deepening.Governs r r' := ⟨h.expression, h.statement⟩

theorem deepens_hashmapFrom (key : Expr) :
    Parser.Deepens (r.hashmapFrom key) (r'.hashmapFrom key) :=
  Discipline.holds_hashmapFrom h.governs key

theorem deepens_expressionFrom (power : Nat) (left : Expr) :
    Parser.Deepens (r.expressionFrom power left) (r'.expressionFrom power left) :=
  Discipline.holds_expressionFrom h.governs power left

theorem deepens_terminated : Parser.Deepens r.terminated r'.terminated :=
  Discipline.holds_terminated h.governs.statement

theorem deepens_program (n : Nat) (recovering : Bool) :
    Parser.Deepens (r.program n recovering) (r'.program n recovering) := by
  induction n generalizing recovering with
  | zero => exact .refl _
  | succ n ih =>
    refine deepens_bind _ fun s => ?_
    split
    · exact .refl _
    · cases recovering with
      | true => exact deepens_bind _ fun _ => ih false
      | false => exact deepens_bind _ fun _ => deepens_bind _ fun _ => ih false
    · exact (deepens_terminated h).bind fun _ => deepens_bind _ fun _ => (ih _).then _

end Rules

/-- The rules for a depth do the same as those for more depth where they have room enough. -/
theorem deepens_rules (n : Nat) : (rules n).Deepens (rules (n + 1)) := by
  induction n with
  | zero => exact ⟨fun _ => deepens_tooDeep, deepens_tooDeep⟩
  | succ n ih =>
    exact ⟨Discipline.holds_expressionRule ih.governs,
      Discipline.holds_statementRule ih.governs ih.expression⟩

/-- A run that has room enough is the same with more. -/
theorem run_of_le {d d' : Nat} {ts : List Token} (hd : d ≤ d')
    (h : ∀ t, run d ts ≠ .error .tooDeep t) : run d' ts = run d ts := by
  induction hd with
  | refl => rfl
  | @step d' _ ih =>
    obtain ⟨t, ht⟩ | he := Rules.deepens_program (deepens_rules d') (State.ofTokens ts).rest.length
      false (.ofTokens ts)
    · exact absurd (ih ▸ ht) (h t)
    · exact he.symm.trans ih

end Scriptlet.Parser
