import Scriptlet.Proofs.Parse.Discipline
import Scriptlet.Proofs.Parse.Soundness

/-!
What is read without an error holds no integer of more digits than can be read: no token is an
integer that a rule has not made an expression of.
-/

namespace Scriptlet.Parser

variable {α β : Type} {s t : State} {p : Parser α} {f : α → Parser β} {us : List Token} {r : Rules}
  {kind : Kind} {P : State → Prop} {Q : α → State → Prop} {R : β → State → Prop}

/-- No integer is too long from the token on that the reader stands on. -/
def ShortHere (s : State) : Prop := ShortLiterals s.tokens

/-- No integer ahead is too long. -/
def ShortAhead (s : State) : Prop := ShortLiterals s.rest

theorem ShortAhead.here (h : ShortAhead s) (hk : s.current.kind ≠ .int) : ShortHere s := by
  intro t ht hi
  rcases List.mem_cons.mp ht with rfl | ht
  · exact absurd hi hk
  · exact h t ht hi

theorem ShortHere.of_advance (h : ShortHere s.advance) : ShortAhead s := by
  intro t ht
  obtain ⟨c, cs, hc⟩ := List.exists_cons_of_ne_nil (List.ne_nil_of_mem ht)
  exact h t (by simpa [State.tokens, State.peek, hc] using ht)

/-- Of a run without a new error one can tell from its end what integers it started in front of. -/
def Checks (P : State → Prop) (p : Parser α) (Q : α → State → Prop) : Prop :=
  Ensures p fun s a t => Q a t → P s

theorem Ends.checks {P : State → Prop} (hp : Ends s (fun a t => Q a t → P s) (p s))
    (hf : ∀ a, Checks (Q a) (f a) R) : Ends s (fun b u => R b u → P s) ((p >>= f) s) := by
  refine (hp.bind hf).mono ?_
  rintro b u - ⟨a, t, hst, -, htu⟩ hu
  exact hst (htu hu)

theorem Checks.bind (hp : Checks P p Q) (hf : ∀ a, Checks (Q a) (f a) R) :
    Checks P (p >>= f) R := fun s => (hp s).checks hf

theorem checks_pure (a : α) : Checks P (pure a : Parser α) fun _ => P :=
  fun _ => ⟨.refl, fun _ _ => id⟩

/-- A rule whose result is changed. -/
theorem Checks.returns {Q : State → Prop} (h : Checks P p fun _ => Q) (g : α → β) :
    Checks P (p >>= fun a => pure (g a)) fun _ => Q :=
  h.bind fun _ => checks_pure _

theorem checks_advance : Checks ShortAhead advance fun _ => ShortHere :=
  fun s => ⟨steps_advance s, fun _ _ => ShortHere.of_advance⟩

/-- A rule that starts on a token that is no integer. -/
theorem Checks.here (h : Checks ShortAhead p Q) (hk : s.current.kind ≠ .int) :
    Ends s (fun a t => Q a t → ShortHere s) (p s) :=
  (h s).mono fun _ _ _ hs ht => (hs ht).here hk

/-! ### Rules -/

/-- What is to be told of the integers that are still to be read. Behind an error nothing is. -/
def Short : Stage → State → Prop
  | .start, s => ShortHere s
  | .before, s => ShortHere s
  | .between, s => ShortHere s
  | .behind, s => ShortAhead s
  | _, _ => True

theorem Short.turn {i j : Stage} (ht : i.Turns s j) (h : Short j s) : Short i s := by
  cases ht with
  | read _ hi => exact ShortAhead.here h hi
  | close hk => exact ShortAhead.here h (by simp [hk])
  | start | between | statement => exact h
  | seek | found | resume => trivial

theorem Ends.attempt {P : State → Prop} (h : Ends s (fun _ t => ShortAhead t → P s) (p s)) :
    Ends s (fun o t => Short (.attempted o) t → P s) (attempt p s) := by
  unfold Parser.attempt
  match p s, h with
  | .ok _ _, h => exact h
  | .error .failed _, h => exact ⟨h.1, fun _ he => absurd h.2 (by simp [he])⟩
  | .error .tooDeep _, h => exact h
  | .error (.literalTooLong _) _, h => exact h

/-- An integer that is read has no more digits than can be read. -/
theorem ends_integer_short (hk : s.current.kind = .int) :
    Ends s (fun _ t => ShortAhead t → ShortHere s) (Rules.integer s.current s) := by
  simp only [Rules.integer]
  split
  · next h => exact ⟨.refl, s.current, by simp [State.tokens], hk, h⟩
  · next h =>
    split
    · exact ends_fail_current s _
    · refine ⟨.refl, fun _ _ hs t ht hi => ?_⟩
      rcases List.mem_cons.mp ht with rfl | ht
      · exact Nat.le_of_not_lt h
      · exact hs t ht hi

/-- No integer is read that is too long. -/
def checking : Discipline where
  toCompanion := .same
  Keeps i J s x _ := Ends s (fun a t => Short (J a) t → Short i s) x
  pure _ _ _ := ⟨.refl, fun _ _ => id⟩
  bind hp hf := hp.checks hf
  turn ht h := h.mono fun _ _ _ hs hx => (hs hx).turn ht
  advance s := ⟨steps_advance s, fun _ _ => ShortHere.of_advance⟩
  pass {s} _ hi := ⟨steps_advance s, fun _ _ h => (ShortAhead.here h (by simpa using hi)).of_advance⟩
  failCurrent s _ := ends_fail_current s _
  failPeek s _ := ends_fail_peek s _
  integer := ends_integer_short
  attempt := Ends.attempt
  unterminated s := (ends_record_peek s _).mono fun _ _ _ h => h.elim
  leave s := ⟨steps_advance s, fun _ _ _ => trivial⟩
  skip {s} _ := ⟨steps_advance s, fun _ _ _ => trivial⟩

namespace Rules

/-- Rules that read no integer that is too long. -/
structure Checks (r : Rules) : Prop where
  expression (power : Nat) : Parser.Checks ShortHere (r.expression power) fun _ => ShortAhead
  statement : Parser.Checks ShortHere r.statement fun _ => ShortAhead

theorem Checks.governs (hr : r.Checks) : checking.Governs r r := ⟨hr.expression, hr.statement⟩

theorem checks_program (hr : r.Checks) (n : Nat) (recovering : Bool) :
    Parser.Checks ShortHere (r.program n recovering) fun _ => ShortHere := by
  induction n generalizing recovering with
  | zero => exact checks_pure _
  | succ n ih =>
    intro s
    have hterminated : Parser.Checks ShortHere r.terminated fun _ => ShortHere :=
      Discipline.holds_terminated hr.governs.statement
    simp only [program, get_bind]
    generalize hk : s.current.kind = k
    split
    · exact checks_pure _ s
    · split
      · exact (checks_advance.bind fun _ => ih false).here (by simp [hk])
      · refine ((ends_record_current s _).bind fun _ => ensures_advance.bind fun _ =>
          ih false).mono ?_
        rintro _ _ - ⟨_, _, h, -⟩
        exact h.elim
    · refine (hterminated.bind fun o => ?_) s
      exact fun t => (ih _).returns (fun ss => o.toList ++ ss) t

end Rules

theorem checks_rules (n : Nat) : (rules n).Checks := by
  induction n with
  | zero => exact ⟨fun _ => ensures_tooDeep, ensures_tooDeep⟩
  | succ n ih =>
    exact ⟨Discipline.holds_expressionRule ih.governs,
      Discipline.holds_statementRule ih.governs ih.expression⟩

/-- In tokens that are read without errors no integer is too long. -/
theorem shortLiterals_of_run {depth : Nat} {tokens : List Token} {body : List Stmt}
    (hl : Lexed tokens) (h : run depth tokens = .ok body t) (he : t.errors = []) :
    ShortLiterals tokens := by
  obtain ⟨c, cs, rfl⟩ := List.exists_cons_of_ne_nil hl.ne_nil
  have hends := ends_run depth c cs
  rw [h] at hends
  obtain ⟨hk, -⟩ := hends.2 hl he
  have hrest : t.rest = [] := (hends.1.good hl).rest_eq_nil_iff.mpr hk
  have hchecks := Rules.checks_program (checks_rules depth) cs.length false (.ofTokens (c :: cs))
  change Ends _ _ (run depth (c :: cs)) at hchecks
  rw [h] at hchecks
  exact hchecks.2 hl he (by simp [ShortHere, ShortLiterals, State.tokens, hrest, hk])

end Scriptlet.Parser
