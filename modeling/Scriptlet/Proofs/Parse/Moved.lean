import Scriptlet.Parse.Program
import Scriptlet.Proofs.Parse.Discipline
import Scriptlet.Proofs.Token.Inserting
import Scriptlet.Proofs.Token.Positions

/-!
Rules do not look at positions. A reader of the same tokens at other places, which has found other
errors before, does the same, and its errors are at those places.
-/

namespace Scriptlet

variable {f : Position → Position}

/-- An error at another place. -/
def SyntaxError.moved (f : Position → Position) (e : SyntaxError) : SyntaxError :=
  ⟨f e.pos, e.fault.moved f⟩

/-- What is wrong is the same at every place. -/
theorem SyntaxError.text_moved (e : SyntaxError) :
    (e.moved f).text = (f e.pos).text ++ ": " ++ e.fault.message := by
  obtain ⟨pos, fault⟩ := e
  cases fault <;> rfl

namespace Parser

/-- Where a reader has its tokens instead, and what it has done before. -/
structure Move where
  place : Position → Position
  errors : List SyntaxError
  moves : Nat

/-- A reader of tokens at other places. -/
def State.moved (m : Move) (s : State) : State where
  current := s.current.moved m.place
  rest := s.rest.map (Token.moved m.place)
  errors := m.errors ++ s.errors.map (SyntaxError.moved m.place)
  moves := m.moves + s.moves

variable {α β : Type} {m : Move} {s : State} {p : Parser α} {g : α → Parser β} {r : Rules}

/-- The end of a run on tokens at other places. -/
def movedResult (m : Move) : EStateM.Result Stop State α → EStateM.Result Stop State α
  | .ok a t => .ok a (t.moved m)
  | .error e t => .error e (t.moved m)

/-- A rule does the same with tokens at other places. -/
def Equivariant (m : Move) (p : Parser α) : Prop := ∀ s, p (s.moved m) = movedResult m (p s)

theorem peek_moved : (s.moved m).peek = s.peek.moved m.place := by
  unfold State.peek State.moved
  cases s.rest <;> rfl

theorem advance_moved : (s.moved m).advance = s.advance.moved m := by
  unfold State.advance State.moved
  cases s.rest <;> rfl

theorem record_moved (pos : Position) (fault : SyntaxFault) :
    (s.moved m).record (m.place pos) (fault.moved m.place) = (s.record pos fault).moved m := by
  simp [State.record, State.moved, SyntaxError.moved]

theorem fail_moved (pos : Position) (fault : SyntaxFault) :
    (fail (m.place pos) (fault.moved m.place) : Parser α) (s.moved m) =
      movedResult m (fail pos fault s) :=
  congrArg (EStateM.Result.error Stop.failed) (record_moved pos fault)

theorem record_bind (pos : Position) (fault : SyntaxFault) (g : Unit → Parser β) (s : State) :
    (record pos fault >>= g) s = g () (s.record pos fault) := rfl

theorem equivariant_pure (a : α) : Equivariant m (pure a : Parser α) := fun _ => rfl

theorem bind_moved {g g' : α → Parser β} {p' : Parser α}
    (hp : p' (s.moved m) = movedResult m (p s))
    (hg : ∀ a t, g' a (t.moved m) = movedResult m (g a t)) :
    (p' >>= g') (s.moved m) = movedResult m ((p >>= g) s) := by
  rw [bind_apply, bind_apply, hp]
  cases p s with
  | ok a t => exact hg a t
  | error e t => rfl

theorem Equivariant.bind (hp : Equivariant m p) (hg : ∀ a, Equivariant m (g a)) :
    Equivariant m (p >>= g) := fun s => bind_moved (hp s) hg

theorem equivariant_advance : Equivariant m advance := fun _ =>
  congrArg (EStateM.Result.ok ()) advance_moved

/-- A rule that looks at the token ahead, but not at the place of it. -/
theorem equivariant_peek {g : Token → Parser β} (hg : ∀ t, Equivariant m (g t))
    (hm : ∀ t, g (t.moved m.place) = g t) : Equivariant m (peek >>= g) := by
  intro s
  rw [peek_bind, peek_bind, peek_moved]
  exact (congrFun (hm s.peek) _).trans (hg s.peek s)

theorem equivariant_ahead {g : Nat → Parser β} (hg : ∀ n, Equivariant m (g n)) :
    Equivariant m (ahead >>= g) := by
  intro s
  have hlen : (s.moved m).rest.length = s.rest.length := by simp [State.moved]
  rw [ahead_bind, ahead_bind, hlen]
  exact hg s.rest.length s

theorem equivariant_expect (kind : Kind) : Equivariant m (expect kind) := by
  intro s
  rw [expect_apply, expect_apply, peek_moved]
  change (if s.peek.kind = kind then _ else _) = _
  split
  · rw [advance_moved]
    rfl
  · exact fail_moved s.peek.pos (.expected kind s.peek)

theorem attempt_moved {p' : Parser α} (hp : p' (s.moved m) = movedResult m (p s)) :
    attempt p' (s.moved m) = movedResult m (attempt p s) := by
  unfold Parser.attempt
  rw [hp]
  match p s with
  | .ok _ _ => rfl
  | .error .failed _ => rfl
  | .error .tooDeep _ => rfl
  | .error (.literalTooLong _) _ => rfl

theorem Equivariant.attempt (hp : Equivariant m p) : Equivariant m (attempt p) :=
  fun s => attempt_moved (hp s)

/-- A fault of an integer is at the place of the token. -/
theorem integer_moved (t : Token) (s : State) :
    Rules.integer (t.moved m.place) (s.moved m) = movedResult m (Rules.integer t s) := by
  have htext : (t.moved m.place).text = t.text := rfl
  unfold Rules.integer
  simp only [htext]
  split
  · rfl
  · split
    · exact fail_moved t.pos (.intTooLarge t.text)
    · rfl

/-- All is done that is done with tokens at other places. -/
def moving (m : Move) : Discipline where
  place := m.place
  other := State.moved m
  Keeps _ _ _ x x' := x' = movedResult m x
  current _ := rfl
  peek _ := peek_moved
  ahead _ := by simp [State.moved]
  pure _ _ _ := rfl
  bind := bind_moved
  turn _ := id
  advance _ := congrArg (EStateM.Result.ok ()) advance_moved
  pass _ _ := congrArg (EStateM.Result.ok ()) advance_moved
  failCurrent s hF := by
    rw [← fail_moved, ← hF]
    rfl
  failPeek s hF := by
    rw [← fail_moved, ← hF, peek_moved]
    rfl
  integer _ := integer_moved _ _
  attempt := attempt_moved
  unterminated s := by
    rw [peek_moved]
    exact congrArg (EStateM.Result.ok ()) (record_moved s.peek.pos (.unterminated s.peek))
  leave _ := congrArg (EStateM.Result.ok ()) advance_moved
  skip _ := congrArg (EStateM.Result.ok ()) advance_moved

theorem equivariant_skipLineEnds : Equivariant m skipLineEnds :=
  Discipline.holds_skipLineEnds (D := moving m)

namespace Rules

/-- Rules that do the same with tokens at other places. -/
structure Equivariant (m : Move) (r : Rules) : Prop where
  expression (power : Nat) : Parser.Equivariant m (r.expression power)
  statement : Parser.Equivariant m r.statement

theorem Equivariant.governs (hr : r.Equivariant m) : (moving m).Governs r r :=
  ⟨hr.expression, hr.statement⟩

theorem equivariant_terminate (o : Option Stmt) : Parser.Equivariant m (terminate o) :=
  Discipline.holds_terminate (D := moving m) o

theorem equivariant_moreStatements (hr : Parser.Equivariant m r.statement) (n : Nat) :
    Parser.Equivariant m (r.moreStatements n) :=
  Discipline.holds_moreStatements (D := moving m) hr n

theorem equivariant_blockRest (hr : Parser.Equivariant m r.statement) :
    Parser.Equivariant m r.blockRest :=
  Discipline.holds_blockRest (D := moving m) hr

theorem equivariant_block (hr : Parser.Equivariant m r.statement) :
    Parser.Equivariant m r.block :=
  Discipline.holds_block (D := moving m) hr

theorem equivariant_moreItems (hr : r.Equivariant m) (n : Nat) :
    Parser.Equivariant m (r.moreItems n) := Discipline.holds_moreItems hr.governs n

theorem equivariant_entry (hr : r.Equivariant m) (key : Expr) :
    Parser.Equivariant m (r.entry key) := Discipline.holds_entry hr.governs key

theorem equivariant_moreEntries (hr : r.Equivariant m) (n : Nat) :
    Parser.Equivariant m (r.moreEntries n) := Discipline.holds_moreEntries hr.governs n

theorem equivariant_hashmapFrom (hr : r.Equivariant m) (key : Expr) :
    Parser.Equivariant m (r.hashmapFrom key) := Discipline.holds_hashmapFrom hr.governs key

theorem equivariant_operand (hr : r.Equivariant m) : Parser.Equivariant m r.operand :=
  Discipline.holds_operand hr.governs

theorem equivariant_chain (hr : r.Equivariant m) (power n : Nat) (left : Expr) :
    Parser.Equivariant m (r.chain power n left) := Discipline.holds_chain hr.governs power n left

theorem equivariant_expressionFrom (hr : r.Equivariant m) (power : Nat) (left : Expr) :
    Parser.Equivariant m (r.expressionFrom power left) :=
  Discipline.holds_expressionFrom hr.governs power left

/-- Whether a statement had an error is seen from the number of errors, to which what was found
before adds the same before it and behind it. -/
theorem equivariant_program (hr : Parser.Equivariant m r.statement) (n : Nat)
    (recovering : Bool) : Parser.Equivariant m (r.program n recovering) := by
  induction n generalizing recovering with
  | zero => exact equivariant_pure _
  | succ n ih =>
    intro s
    have hterminated : Parser.Equivariant m r.terminated :=
      Discipline.holds_terminated (D := moving m) hr
    have hkind : (s.moved m).current.kind = s.current.kind := rfl
    have hskip : Parser.Equivariant m (advance >>= fun _ => r.program n false) :=
      equivariant_advance.bind fun _ => ih false
    simp only [program, get_bind, hkind]
    generalize s.current.kind = k
    split
    · rfl
    · cases recovering with
      | true => exact hskip s
      | false =>
        have hfault := record_moved (m := m) (s := s) s.current.pos .strayBrace
        exact (congrArg _ hfault).trans (hskip _)
    · rw [bind_apply, bind_apply, hterminated s]
      cases r.terminated s with
      | error e t => rfl
      | ok stmt t =>
        have hfound : (s.moved m).errors.length < (t.moved m).errors.length ↔
            s.errors.length < t.errors.length := by
          simp [State.moved]
        simp only [movedResult, get_bind, hfound]
        exact ((ih _).bind fun _ => equivariant_pure _) t

end Rules

theorem equivariant_tooDeep : Equivariant m (throw .tooDeep : Parser α) := fun _ => rfl

/-- At every depth the rules do the same with tokens at other places. -/
theorem equivariant_rules (n : Nat) : (rules n).Equivariant m := by
  induction n with
  | zero => exact ⟨fun _ => equivariant_tooDeep, equivariant_tooDeep⟩
  | succ n ih =>
    exact ⟨Discipline.holds_expressionRule ih.governs,
      Discipline.holds_statementRule ih.governs ih.expression⟩

theorem State.ofTokens_moved {f : Position → Position} (c : Token) (cs : List Token) :
    State.ofTokens ((c :: cs).map (Token.moved f)) = (State.ofTokens (c :: cs)).moved ⟨f, [], 0⟩ := rfl

/-- Tokens that look the same as others, which have places of their own, are read as they are. -/
theorem run_of_alike {depth : Nat} {us ts : List Token} {body : List Stmt} {t : State}
    (ha : Alike us ts) (hp : us.Pairwise fun t u => t.pos ≠ u.pos) (hn : us ≠ [])
    (h : run depth us = .ok body t) (he : t.errors = []) :
    ∃ u, run depth ts = .ok body u ∧ u.errors = [] := by
  obtain ⟨f, rfl⟩ := ha.exists_moved hp
  obtain ⟨c, cs, rfl⟩ := List.exists_cons_of_ne_nil hn
  have hmoved := Rules.equivariant_program (m := ⟨f, [], 0⟩) (equivariant_rules depth).statement
    cs.length false (.ofTokens (c :: cs))
  have hlen : (State.ofTokens ((c :: cs).map (Token.moved f))).rest.length = cs.length := by
    simp [State.ofTokens]
  rw [run, hlen, State.ofTokens_moved, hmoved, show (rules depth).program cs.length false
    (.ofTokens (c :: cs)) = .ok body t from h]
  exact ⟨_, rfl, by simp [State.moved, he]⟩

end Parser

end Scriptlet
