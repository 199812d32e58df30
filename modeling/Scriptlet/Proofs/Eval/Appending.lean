import Scriptlet.Proofs.Eval.Course
import Scriptlet.Proofs.Parse.Appending

/-!
Programs line behind line are evaluated one behind the other, in the same scope, unless one of the
statements of the first gives a signal.
-/

namespace Scriptlet

open Value

variable {ev : Evaluator} {depth scope : Nat} {o o' : Option Value} {as bs : List Stmt} {st : Stmt}
  {s t : Store} {h : Halt}

/-- Evaluated in order from a store, one of the statements gives a signal. -/
def GivesSignal (ev : Evaluator) (scope : Nat) (body : List Stmt) (s : Store) : Prop :=
  ∃ st t v u, InOrder ev scope (stmtParts body) s (.stmt st) t ∧
    ev (.stmt st) scope t = .ok (some v) u ∧ v.isSignal = true

theorem givesSignal_cons (hst : ev (.stmt st) scope s = .ok o t) :
    GivesSignal ev scope (st :: as) s ↔ o.any isSignal = true ∨ GivesSignal ev scope as t := by
  have hhere (ho : o.any isSignal = true) : GivesSignal ev scope (st :: as) s := by
    cases o with
    | none => cases ho
    | some v => exact ⟨st, s, v, t, .here _ _ _, hst, ho⟩
  constructor
  · rintro ⟨st', u, v, w, hin, hv, hs⟩
    cases hin with
    | here =>
      rw [hst] at hv
      cases hv
      exact .inl hs
    | next hfirst _ hin =>
      rw [hst] at hfirst
      cases hfirst
      exact .inr ⟨st', u, v, w, hin, hv, hs⟩
  · rintro (ho | ⟨st', u, v, w, hin, hv, hs⟩)
    · exact hhere ho
    · by_cases ho : o.any isSignal = true
      · exact hhere ho
      · exact ⟨st', u, v, w, .next hst (by simp [Part.goesOn, ho]) hin, hv, hs⟩

namespace Evaluator

theorem sequence_cons (ev : Evaluator) (scope : Nat) (o : Option Value) (st : Stmt)
    (as : List Stmt) (s : Store) : ev.sequence scope o (st :: as) s =
      match ev (.stmt st) scope s with
      | .error h t => .error h t
      | .ok o t => if o.any isSignal then .ok o t else ev.sequence scope o as t := by
  simp only [sequence, Bind.bind, EStateM.bind]
  cases ev (.stmt st) scope s with
  | error h t => rfl
  | ok o t => by_cases ho : o.any isSignal = true <;> simp [ho, Pure.pure, EStateM.pure]

theorem sequence_append_of_error (hs : ev.sequence scope o as s = .error h t) :
    ev.sequence scope o (as ++ bs) s = .error h t := by
  induction as generalizing o s with
  | nil => cases hs
  | cons st as ih =>
    rw [List.cons_append, sequence_cons]
    rw [sequence_cons] at hs
    cases hst : ev (.stmt st) scope s with
    | error h' u => simpa only [hst] using hs
    | ok o' u =>
      simp only [hst] at hs ⊢
      by_cases ho : o'.any isSignal = true
      · simp [ho] at hs
      · rw [if_neg ho] at hs ⊢
        exact ih hs

/-- Behind a signal nothing is evaluated. -/
theorem sequence_append_of_givesSignal (hg : GivesSignal ev scope as s) :
    ev.sequence scope o (as ++ bs) s = ev.sequence scope o as s := by
  induction as generalizing o s with
  | nil =>
    obtain ⟨_, _, _, _, hin, -⟩ := hg
    cases hin
  | cons st as ih =>
    rw [List.cons_append, sequence_cons, sequence_cons]
    cases hst : ev (.stmt st) scope s with
    | error h u => rfl
    | ok o' u =>
      simp only
      by_cases ho : o'.any isSignal = true
      · rw [if_pos ho, if_pos ho]
      · rw [if_neg ho, if_neg ho]
        exact ih (((givesSignal_cons hst).mp hg).resolve_left ho)

/-- Without a signal what stands behind is evaluated from the store that is left. -/
theorem sequence_append_of_ok (hg : ¬ GivesSignal ev scope as s)
    (hs : ev.sequence scope o as s = .ok o' t) :
    ev.sequence scope o (as ++ bs) s = ev.sequence scope o' bs t := by
  induction as generalizing o s with
  | nil =>
    cases hs
    rfl
  | cons st as ih =>
    rw [List.cons_append, sequence_cons]
    rw [sequence_cons] at hs
    cases hst : ev (.stmt st) scope s with
    | error h u => simp [hst] at hs
    | ok o'' u =>
      have ⟨ho, hg'⟩ := not_or.mp ((givesSignal_cons hst).not.mp hg)
      simp only [hst, if_neg ho] at hs ⊢
      exact ih hg' hs

theorem not_isSignal_of_sequence (hg : ¬ GivesSignal ev scope as s) (ho : ¬ o.any isSignal = true)
    (hs : ev.sequence scope o as s = .ok o' t) : ¬ o'.any isSignal = true := by
  induction as generalizing o s with
  | nil =>
    cases hs
    exact ho
  | cons st as ih =>
    rw [sequence_cons] at hs
    cases hst : ev (.stmt st) scope s with
    | error h u => simp [hst] at hs
    | ok o'' u =>
      have ⟨ho', hg'⟩ := not_or.mp ((givesSignal_cons hst).not.mp hg)
      simp only [hst, if_neg ho'] at hs
      exact ih hg' ho' hs

/-- The result of statements is the given one only if there are none. -/
theorem sequence_eq_none (hb : bs ≠ []) (o : Option Value) (s : Store) :
    ev.sequence scope o bs s = ev.sequence scope none bs s := by
  cases bs with
  | nil => exact absurd rfl hb
  | cons st bs => rfl

/-- The result of a whole program for that of its statements. -/
def unwrapped : EStateM.Result Halt Store (Option Value) → EStateM.Result Halt Store (Option Value)
  | .ok (some (.returned v _)) t => .ok (some v) t
  | res => res

theorem program_apply (ev : Evaluator) (scope : Nat) (body : List Stmt) (s : Store) :
    ev.program scope body s = unwrapped (ev.sequence scope none body s) := by
  simp only [program, Bind.bind, EStateM.bind]
  cases ev.sequence scope none body s with
  | error h t => rfl
  | ok o t =>
    cases o with
    | none => rfl
    | some v => cases v <;> rfl

theorem unwrapped_eq_error {res : EStateM.Result Halt Store (Option Value)}
    (hr : unwrapped res = .error h t) : res = .error h t := by
  cases res with
  | error h' t' => exact hr
  | ok o t' =>
    cases o with
    | none => cases hr
    | some v => cases v <;> cases hr

end Evaluator

/-- A program with another one behind it is evaluated as one after the other, in the same scope. -/
structure Continues (depth scope : Nat) (as bs : List Stmt) (s : Store) : Prop where
  halted {h : Halt} {t : Store} (hs : eval depth (.program as) scope s = .error h t) :
    eval depth (.program (as ++ bs)) scope s = .error h t
  signalled {n : Nat} (hd : depth = n + 1) (hg : GivesSignal (eval n) scope as s) :
    eval depth (.program (as ++ bs)) scope s = eval depth (.program as) scope s
  continued {n : Nat} {o : Option Value} {t : Store} (hd : depth = n + 1)
    (hg : ¬ GivesSignal (eval n) scope as s) (hb : bs ≠ [])
    (hs : eval depth (.program as) scope s = .ok o t) :
    eval depth (.program (as ++ bs)) scope s = eval depth (.program bs) scope t
  nothing (hb : bs = []) :
    eval depth (.program (as ++ bs)) scope s = eval depth (.program as) scope s

open Evaluator in
theorem continues (depth scope : Nat) (as bs : List Stmt) (s : Store) :
    Continues depth scope as bs s where
  halted {h t} hs := by
    cases depth with
    | zero => exact hs
    | succ n =>
      change (eval n).program scope as s = _ at hs
      change (eval n).program scope (as ++ bs) s = _
      rw [program_apply] at hs ⊢
      rw [sequence_append_of_error (unwrapped_eq_error hs)]
      rfl
  signalled {n} hd hg := by
    subst hd
    change (eval n).program scope (as ++ bs) s = (eval n).program scope as s
    rw [program_apply, program_apply, sequence_append_of_givesSignal hg]
  continued {n o t} hd hg hb hs := by
    subst hd
    change (eval n).program scope as s = _ at hs
    change (eval n).program scope (as ++ bs) s = (eval n).program scope bs t
    rw [program_apply] at hs ⊢
    cases hr : (eval n).sequence scope none as s with
    | error h u => simp [hr, unwrapped] at hs
    | ok o' u =>
      -- without a signal nothing is left to unwrap
      have ho := not_isSignal_of_sequence hg (by simp) hr
      have hu : unwrapped (.ok o' u) = .ok o' u := by
        cases o' with
        | none => rfl
        | some v =>
          cases v with
          | returned => exact absurd rfl ho
          | _ => rfl
      rw [hr, hu] at hs
      cases hs
      rw [program_apply, sequence_append_of_ok hg hr, sequence_eq_none hb]
  nothing hb := by rw [hb, List.append_nil]

/-- Sources compose line by line. A source with an even number of quotes that is read without errors
has, with a line end and another source behind it, its statements in front of those of the other
one. The errors are those of the other one, as many lines further down as the first one has, and the
two are evaluated one after the other. Nesting too deep for the parser is left aside, which no
nesting is for twice as much depth as there are tokens. -/
theorem source_append_line {s₁ : String} {b₁ : List Stmt} {d₁ : Nat}
    (hq : s₁.toList.count '"' % 2 = 0) (hp : parse d₁ s₁ = .ok ⟨b₁, []⟩)
    (h₁ : ShortLiterals (tokenize s₁)) {s₂ : String} (h₂ : ShortLiterals (tokenize s₂)) :
    (∀ d, ¬ Parser.Exhausts d (tokenize (s₁ ++ "\n" ++ s₂)) →
      ∃ b₂ errors, parse d s₂ = .ok ⟨b₂, errors⟩ ∧
        parse d (s₁ ++ "\n" ++ s₂) = .ok ⟨b₁ ++ b₂,
          errors.map (SyntaxError.moved (Position.below (s₁.toList.count '\n' + 1)))⟩ ∧
        (∀ e ∈ errors, (e.moved (Position.below (s₁.toList.count '\n' + 1))).text =
          (e.pos.below (s₁.toList.count '\n' + 1)).text ++ ": " ++ e.fault.message) ∧
        ∀ depth scope s, Continues depth scope b₁ b₂ s) ∧
    ∀ d, 2 * (tokenize (s₁ ++ "\n" ++ s₂)).length ≤ d →
      ¬ Parser.Exhausts d (tokenize (s₁ ++ "\n" ++ s₂)) := by
  refine ⟨fun d hd => ?_, fun d hd => Parser.not_exhausts (lexed_tokenize _) hd⟩
  obtain ⟨b₂, errors, hr₂, hr⟩ := parse_append_line hq hp h₁ h₂ hd
  exact ⟨b₂, errors, hr₂, hr, fun e _ => e.text_moved, fun depth scope s =>
    continues depth scope b₁ b₂ s⟩

/-- The error of the second line is on the second line. -/
theorem source_append_line_of_stray : "x = 1".toList.count '"' % 2 = 0 ∧
    parse 20 "x = 1" = .ok ⟨[.assign "x" (.int 1)], []⟩ ∧ ShortLiterals (tokenize "x = 1") ∧
    ShortLiterals (tokenize "x )") ∧ ¬ Parser.Exhausts 20 (tokenize ("x = 1" ++ "\n" ++ "x )")) ∧
    ∃ b₂ errors, parse 20 "x )" = .ok ⟨b₂, errors⟩ ∧
      parse 20 ("x = 1" ++ "\n" ++ "x )") =
        .ok ⟨.assign "x" (.int 1) :: b₂, errors.map (SyntaxError.moved (Position.below 1))⟩ ∧
      ∀ depth scope s, Continues depth scope [.assign "x" (.int 1)] b₂ s := by
  have hp : parse 20 "x = 1" = .ok ⟨[.assign "x" (.int 1)], []⟩ := by cbv
  have h₁ : ShortLiterals (tokenize "x = 1") := by
    rw [show tokenize "x = 1" = [⟨.ident, "x", ⟨1, 1⟩⟩, ⟨.assign, "=", ⟨1, 3⟩⟩, ⟨.int, "1", ⟨1, 5⟩⟩,
      ⟨.eof, "", ⟨1, 6⟩⟩] by cbv]
    simp only [ShortLiterals]
    decide
  have h₂ : ShortLiterals (tokenize "x )") := by
    rw [show tokenize "x )" = [⟨.ident, "x", ⟨1, 1⟩⟩, ⟨.rparen, ")", ⟨1, 3⟩⟩, ⟨.eof, "", ⟨1, 4⟩⟩]
      by cbv]
    simp only [ShortLiterals]
    decide
  obtain ⟨hr, hd⟩ := source_append_line (by decide) hp h₁ h₂
  obtain ⟨b₂, errors, hr₂, hboth, -, hc⟩ := hr 20 (hd 20 (by cbv))
  exact ⟨by decide, hp, h₁, h₂, hd 20 (by cbv), b₂, errors, hr₂, hboth, hc⟩

end Scriptlet
