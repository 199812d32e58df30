import Scriptlet.Parse.Rules
import Scriptlet.Proofs.Parse.Step
import Scriptlet.Proofs.Token.Positions

/-!
What rules keep to. A discipline says how a run of a rule has to end, on its own or beside a run of
another rule for another reader. If every single thing that rules do keeps to the discipline, then so
do the rules for every nested phrase, and what is not nested.
-/

namespace Scriptlet

/-- A fault whose token is at another place. -/
def SyntaxFault.moved (f : Position → Position) : SyntaxFault → SyntaxFault
  | .expected kind got => .expected kind (got.moved f)
  | .unterminated got => .unterminated (got.moved f)
  | fault => fault

namespace Parser

/-- Where a reader is between two steps of a rule. -/
inductive Stage where
  /-- a phrase starts at the token that the reader stands on -/
  | start
  /-- the token that the reader stands on is still to be read -/
  | before
  /-- the token that the reader stands on has been read -/
  | behind
  /-- a statement has ended, or none has started -/
  | between
  /-- the token that the reader stands on has been read, and an error has been found ahead -/
  | wrong
  /-- a statement has failed -/
  | lost
  /-- a statement has failed, and the reader has moved on since -/
  | seeking

/-- Where a reader is behind a phrase that was attempted. -/
def Stage.attempted {α : Type} : Option α → Stage
  | some _ => .behind
  | none => .lost

/-- Where a reader can also be said to be. -/
inductive Stage.Turns (s : State) : Stage → Stage → Prop where
  | start : Turns s .before .start
  | read (he : s.current.kind ≠ .eof) (hi : s.current.kind ≠ .int) : Turns s .start .behind
  | between : Turns s .before .between
  | statement (hk : s.current.kind ≠ .rbrace) : Turns s .between .before
  | close (hk : s.current.kind = .rbrace) : Turns s .between .behind
  | seek : Turns s .seeking .lost
  | found : Turns s .seeking .between
  | resume (h : s.current.kind = .eof ∨ s.current.kind = .rbrace ∨ s.rest = []) :
    Turns s .lost .between

/-- For every reader another one of the same tokens at places of its own. -/
structure Companion where
  place : Position → Position
  other : State → State
  current (s : State) : (other s).current = s.current.moved place
  peek (s : State) : (other s).peek = s.peek.moved place
  ahead (s : State) : (other s).rest.length = s.rest.length

/-- Every reader with itself. -/
def Companion.same : Companion where
  place := id
  other := id
  current _ := rfl
  peek _ := rfl
  ahead _ := rfl

theorem Companion.kind_current (C : Companion) (s : State) :
    (C.other s).current.kind = s.current.kind := by
  rw [C.current]
  rfl

theorem Companion.text_current (C : Companion) (s : State) :
    (C.other s).current.text = s.current.text := by
  rw [C.current]
  rfl

theorem Companion.kind_peek (C : Companion) (s : State) : (C.other s).peek.kind = s.peek.kind := by
  rw [C.peek]
  rfl

/-- What is wanted of runs, and that every single step has it. -/
structure Discipline extends Companion where
  /-- how a run ends that has started in a state at a stage, beside another run -/
  Keeps : {α : Type} → Stage → (α → Stage) → State → EStateM.Result Stop State α →
    EStateM.Result Stop State α → Prop
  pure {α : Type} (i : Stage) (a : α) (s : State) :
    Keeps i (fun _ => i) s (.ok a s) (.ok a (other s))
  bind {α β : Type} {i : Stage} {J : α → Stage} {K : β → Stage} {s : State} {p p' : Parser α}
    {f f' : α → Parser β} : Keeps i J s (p s) (p' (other s)) →
      (∀ a t, Keeps (J a) K t (f a t) (f' a (other t))) →
        Keeps i K s ((p >>= f) s) ((p' >>= f') (other s))
  turn {α : Type} {i j : Stage} {J : α → Stage} {s : State} {x x' : EStateM.Result Stop State α} :
    i.Turns s j → Keeps j J s x x' → Keeps i J s x x'
  advance (s : State) : Keeps .behind (fun _ => .before) s (.ok () s.advance)
    (.ok () (other s).advance)
  pass {s : State} : s.peek.kind ≠ .eof → s.peek.kind ≠ .int →
    Keeps .behind (fun _ => .behind) s (.ok () s.advance) (.ok () (other s).advance)
  failCurrent {α : Type} {J : α → Stage} {F : Token → SyntaxFault} (s : State) :
    (∀ f t, F (t.moved f) = (F t).moved f) →
      Keeps .start J s (fail s.current.pos (F s.current) s)
        (fail (other s).current.pos (F (other s).current) (other s))
  failPeek {α : Type} {J : α → Stage} {F : Token → SyntaxFault} (s : State) :
    (∀ f t, F (t.moved f) = (F t).moved f) →
      Keeps .behind J s (fail s.peek.pos (F s.peek) s)
        (fail (other s).peek.pos (F (other s).peek) (other s))
  integer {s : State} : s.current.kind = .int →
    Keeps .start (fun _ => .behind) s (Rules.integer s.current s)
      (Rules.integer (other s).current (other s))
  attempt {α : Type} {s : State} {p p' : Parser α} :
    Keeps .before (fun _ => .behind) s (p s) (p' (other s)) →
      Keeps .before .attempted s (attempt p s) (attempt p' (other s))
  unterminated (s : State) : Keeps .behind (fun _ => .wrong) s
    (record s.peek.pos (.unterminated s.peek) s)
    (record (other s).peek.pos (.unterminated (other s).peek) (other s))
  leave (s : State) : Keeps .wrong (fun _ => .seeking) s (.ok () s.advance)
    (.ok () (other s).advance)
  skip {s : State} : s.current.kind ≠ .eof →
    Keeps .lost (fun _ => .seeking) s (.ok () s.advance) (.ok () (other s).advance)

namespace Discipline

variable {D : Discipline} {α β : Type} {i j k : Stage} {J : α → Stage} {K : β → Stage} {s : State}
  {p p' q q' : Parser α} {f f' : α → Parser β} {r r' : Rules}

/-- A rule keeps to the discipline beside another one, from one stage to others. -/
def Holds (D : Discipline) (i : Stage) (J : α → Stage) (p p' : Parser α) : Prop :=
  ∀ s, D.Keeps i J s (p s) (p' (D.other s))

theorem holds_pure (i : Stage) (a : α) : D.Holds i (fun _ => i) (Pure.pure a) (Pure.pure a) :=
  fun s => D.pure i a s

theorem Holds.bind (hp : D.Holds i J p p') (hf : ∀ a, D.Holds (J a) K (f a) (f' a)) :
    D.Holds i K (p >>= f) (p' >>= f') := fun s => D.bind (hp s) hf

/-- A rule whose result is changed. -/
theorem Holds.returns (h : D.Holds i (fun _ => j) p p') (g : α → β) :
    D.Holds i (fun _ => j) (p >>= fun a => Pure.pure (g a)) (p' >>= fun a => Pure.pure (g a)) :=
  h.bind fun a => holds_pure j (g a)

theorem Holds.turn (h : D.Holds j J p p') (ht : ∀ s, i.Turns s j) : D.Holds i J p p' :=
  fun s => D.turn (ht s) (h s)

theorem holds_ite {c : Prop} [Decidable c] (hp : c → D.Holds i J p p')
    (hq : ¬ c → D.Holds i J q q') :
    D.Holds i J (if c then p else q) (if c then p' else q') := by
  by_cases h : c
  · rw [if_pos h, if_pos h]
    exact hp h
  · rw [if_neg h, if_neg h]
    exact hq h

theorem Holds.attempt (h : D.Holds .before (fun _ => .behind) p p') :
    D.Holds .before .attempted (Parser.attempt p) (Parser.attempt p') := fun s => D.attempt (h s)

theorem holds_advance : D.Holds .behind (fun _ => .before) Parser.advance Parser.advance :=
  D.advance

theorem holds_current {g g' : Token → Parser β}
    (hg : ∀ t, D.Holds i K (g t) (g' (t.moved D.place))) :
    D.Holds i K (Parser.current >>= g) (Parser.current >>= g') := by
  intro s
  rw [current_bind, current_bind, D.current]
  exact hg s.current s

theorem holds_peek {g g' : Token → Parser β}
    (hg : ∀ t, D.Holds i K (g t) (g' (t.moved D.place))) :
    D.Holds i K (Parser.peek >>= g) (Parser.peek >>= g') := by
  intro s
  rw [peek_bind, peek_bind, D.peek]
  exact hg s.peek s

theorem holds_ahead {g g' : Nat → Parser β} (hg : ∀ n, D.Holds i K (g n) (g' n)) :
    D.Holds i K (Parser.ahead >>= g) (Parser.ahead >>= g') := by
  intro s
  rw [ahead_bind, ahead_bind, D.ahead]
  exact hg s.rest.length s

/-- The token ahead is passed over, or it is left. -/
theorem keeps_pass {g g' : Unit → Parser β} (he : s.peek.kind ≠ .eof) (hi : s.peek.kind ≠ .int)
    (hg : D.Holds .behind K (g ()) (g' ())) :
    D.Keeps .behind K s ((Parser.advance >>= g) s) ((Parser.advance >>= g') (D.other s)) :=
  D.bind (D.pass he hi) fun _ => hg

theorem holds_ifPeek {kind : Kind} {g g' : Unit → Parser β} {q q' : Parser β} (he : kind ≠ .eof)
    (hi : kind ≠ .int) (hg : D.Holds .behind K (g ()) (g' ())) (hq : D.Holds .behind K q q') :
    D.Holds .behind K
      (Parser.peek >>= fun t => if t.kind = kind then Parser.advance >>= g else q)
      (Parser.peek >>= fun t => if t.kind = kind then Parser.advance >>= g' else q') := by
  intro s
  rw [peek_bind, peek_bind, D.kind_peek]
  by_cases h : s.peek.kind = kind
  · rw [if_pos h, if_pos h]
    exact keeps_pass (h ▸ he) (h ▸ hi) hg
  · rw [if_neg h, if_neg h]
    exact hq s

theorem holds_expect {kind : Kind} (he : kind ≠ .eof) (hi : kind ≠ .int) :
    D.Holds .behind (fun _ => .behind) (expect kind) (expect kind) := by
  intro s
  change D.Keeps _ _ s ((if s.peek.kind = kind then Parser.advance else
    fail s.peek.pos (.expected kind s.peek)) s) ((if (D.other s).peek.kind = kind then
      Parser.advance else fail (D.other s).peek.pos (.expected kind (D.other s).peek)) (D.other s))
  rw [D.kind_peek]
  split
  · next h => exact D.pass (h ▸ he) (h ▸ hi)
  · exact D.failPeek (F := .expected kind) s fun _ _ => rfl

theorem holds_skipLineEndsUpTo (n : Nat) :
    D.Holds .behind (fun _ => .behind) (skipLineEndsUpTo n) (skipLineEndsUpTo n) := by
  induction n with
  | zero => exact holds_pure _ _
  | succ n ih =>
    intro s
    have hline : (D.other s).peek.isLineEnd = s.peek.isLineEnd := by rw [D.peek]; rfl
    simp only [skipLineEndsUpTo, peek_bind, hline]
    split
    · next h =>
      refine keeps_pass (fun hk => ?_) (fun hk => ?_) ih
      all_goals simp [Token.isLineEnd, hk] at h
    · exact D.pure _ _ s

theorem holds_skipLineEnds : D.Holds .behind (fun _ => .behind) skipLineEnds skipLineEnds :=
  holds_ahead holds_skipLineEndsUpTo

/-- Behind a token that is skipped there may be the next statement. -/
theorem holds_synchronizeWithin_succ {n : Nat}
    (h : ∀ m, D.Holds .seeking (fun _ => .between) (synchronizeWithin n m) (synchronizeWithin n m))
    (opened : Nat) : D.Holds .lost (fun _ => .between) (synchronizeWithin (n + 1) opened)
      (synchronizeWithin (n + 1) opened) := by
  intro s
  have hnext (he : s.current.kind ≠ .eof) (m : Nat) : D.Keeps .lost (fun _ => .between) s
      ((Parser.advance >>= fun _ => synchronizeWithin n m) s)
      ((Parser.advance >>= fun _ => synchronizeWithin n m) (D.other s)) :=
    D.bind (D.skip he) fun _ => h m
  have hlast (he : s.current.kind ≠ .eof) : D.Keeps .lost (fun _ => .between) s
      ((Parser.advance >>= fun _ => Pure.pure ()) s)
      ((Parser.advance >>= fun _ => Pure.pure ()) (D.other s)) :=
    D.bind (D.skip he) fun _ => (holds_pure _ _).turn fun _ => .found
  have hhere (h : s.current.kind = .eof ∨ s.current.kind = .rbrace) :
      D.Keeps .lost (fun _ => .between) s ((Pure.pure () : Parser Unit) s)
        ((Pure.pure () : Parser Unit) (D.other s)) :=
    D.turn (.resume (h.imp_right .inl)) (D.pure _ _ s)
  simp only [synchronizeWithin, current_bind, D.kind_current]
  generalize s.current.kind = k at hnext hlast hhere
  split
  · exact hhere (.inl rfl)
  · exact hnext (by simp) _
  · by_cases ho : opened = 0
    · simpa [ho] using hhere (.inr rfl)
    · simpa [ho] using hnext (by simp) _
  · by_cases ho : opened = 0
    · simpa [ho] using hlast (by simp)
    · simpa [ho] using hnext (by simp) _
  · exact hnext (by assumption) _

theorem holds_synchronizeWithin (n opened : Nat) :
    D.Holds .seeking (fun _ => .between) (synchronizeWithin n opened)
      (synchronizeWithin n opened) := by
  induction n generalizing opened with
  | zero => exact (holds_pure _ _).turn fun _ => .found
  | succ n ih => exact (holds_synchronizeWithin_succ ih opened).turn fun _ => .seek

theorem holds_synchronize :
    D.Holds .lost (fun _ => .between) Parser.synchronize Parser.synchronize := by
  intro s
  rw [Parser.synchronize, ahead_bind, ahead_bind, D.ahead]
  cases hr : s.rest with
  | nil => exact D.turn (.resume (.inr (.inr hr))) (D.pure _ _ s)
  | cons c cs => exact holds_synchronizeWithin_succ (holds_synchronizeWithin cs.length) 0 s

/-- Rules for nested phrases that keep to the discipline. -/
structure Governs (D : Discipline) (r r' : Rules) : Prop where
  expression (power : Nat) :
    D.Holds .before (fun _ => .behind) (r.expression power) (r'.expression power)
  statement : D.Holds .before (fun _ => .behind) r.statement r'.statement

/-! ### Statements -/

theorem holds_terminate (o : Option Stmt) :
    D.Holds (.attempted o) (fun _ => .between) (Rules.terminate o) (Rules.terminate o) := by
  cases o with
  | none => exact holds_synchronize.returns fun _ => none
  | some st =>
    intro s
    have hlast : D.Holds .behind (fun _ => .between)
        (Parser.advance >>= fun _ => Pure.pure (some st))
        (Parser.advance >>= fun _ => Pure.pure (some st)) :=
      holds_advance.bind fun _ => (holds_pure _ _).turn fun _ => .between
    have hskip : D.Holds .wrong (fun _ => .between)
        (Parser.advance >>= fun _ => Parser.synchronize >>= fun _ => Pure.pure (some st))
        (Parser.advance >>= fun _ => Parser.synchronize >>= fun _ => Pure.pure (some st)) :=
      Holds.bind D.leave fun _ => (holds_synchronize.returns fun _ => some st).turn fun _ => .seek
    simp only [Rules.terminate, peek_bind, D.kind_peek]
    generalize hk : s.peek.kind = k
    split
    · exact keeps_pass (s := s) (by simp [hk]) (by simp [hk]) hlast
    · exact hlast s
    · exact hlast s
    · exact D.bind (D.unterminated s) fun _ => hskip

theorem holds_terminated (hr : D.Holds .before (fun _ => .behind) r.statement r'.statement) :
    D.Holds .before (fun _ => .between) r.terminated r'.terminated := by
  intro s
  have hskip : D.Holds .behind (fun _ => .between)
      (Parser.advance >>= fun _ => Pure.pure (none : Option Stmt))
      (Parser.advance >>= fun _ => Pure.pure none) :=
    holds_advance.bind fun _ => (holds_pure _ _).turn fun _ => .between
  simp only [Rules.terminated, current_bind, D.kind_current]
  split
  · next hk => exact D.turn .start (D.turn (.read (by simp [hk]) (by simp [hk])) (hskip s))
  · exact hr.attempt.bind holds_terminate s

theorem holds_moreStatements (hr : D.Holds .before (fun _ => .behind) r.statement r'.statement)
    (n : Nat) : D.Holds .between (fun _ => .between) (r.moreStatements n) (r'.moreStatements n) := by
  induction n with
  | zero => exact holds_pure _ _
  | succ n ih =>
    -- which stage the next statement starts at depends on the token, so the state is needed
    intro s
    have hnext : D.Holds .before (fun _ => .between)
        (r.terminated >>= fun o => r.moreStatements n >>= fun ss => Pure.pure (o.toList ++ ss))
        (r'.terminated >>= fun o => r'.moreStatements n >>= fun ss => Pure.pure (o.toList ++ ss)) :=
      (holds_terminated hr).bind fun o => ih.returns fun ss => o.toList ++ ss
    simp only [Rules.moreStatements, current_bind, D.kind_current]
    generalize hk : s.current.kind = k
    split
    · exact D.pure _ _ s
    · exact D.pure _ _ s
    · next hb _ => exact D.turn (.statement (hk ▸ hb)) (hnext s)

theorem holds_blockRest (hr : D.Holds .before (fun _ => .behind) r.statement r'.statement) :
    D.Holds .between (fun _ => .behind) r.blockRest r'.blockRest := by
  refine holds_ahead fun n => (holds_moreStatements hr n).bind fun body s => ?_
  rw [current_bind, current_bind, D.kind_current]
  split
  · next hk => exact D.turn (.close hk) (D.pure _ _ s)
  · next hk =>
    exact D.turn (.statement hk) <| D.turn .start <|
      D.failCurrent (F := .expected .rbrace) s fun _ _ => rfl

theorem holds_block (hr : D.Holds .before (fun _ => .behind) r.statement r'.statement) :
    D.Holds .behind (fun _ => .behind) r.block r'.block :=
  holds_advance.bind fun _ => (holds_blockRest hr).turn fun _ => .between

/-! ### Expressions -/

theorem holds_moreItems (h : D.Governs r r') (n : Nat) :
    D.Holds .behind (fun _ => .behind) (r.moreItems n) (r'.moreItems n) := by
  induction n with
  | zero => exact holds_pure _ _
  | succ n ih =>
    refine holds_ifPeek (by simp) (by simp) ?_ (holds_pure _ _)
    exact holds_skipLineEnds.bind fun _ => holds_advance.bind fun _ => (h.expression _).bind fun _ =>
      holds_skipLineEnds.bind fun _ => ih.returns _

theorem holds_list (h : D.Governs r r') {close : Kind} (he : close ≠ .eof) (hi : close ≠ .int) :
    D.Holds .behind (fun _ => .behind) (r.list close) (r'.list close) := by
  refine holds_skipLineEnds.bind fun _ => holds_ifPeek he hi (holds_pure _ _) ?_
  exact holds_advance.bind fun _ => (h.expression _).bind fun _ => holds_skipLineEnds.bind fun _ =>
    holds_ahead fun n => (holds_moreItems h n).bind fun _ => (holds_expect he hi).returns _

theorem holds_entry (h : D.Governs r r') (key : Expr) :
    D.Holds .behind (fun _ => .behind) (r.entry key) (r'.entry key) :=
  (holds_expect (by simp) (by simp)).bind fun _ => holds_advance.bind fun _ =>
    (h.expression _).bind fun _ => holds_skipLineEnds.returns _

theorem holds_moreEntries (h : D.Governs r r') (n : Nat) :
    D.Holds .behind (fun _ => .behind) (r.moreEntries n) (r'.moreEntries n) := by
  induction n with
  | zero => exact holds_pure _ _
  | succ n ih =>
    refine holds_ifPeek (by simp) (by simp) ?_ (holds_pure _ _)
    exact holds_skipLineEnds.bind fun _ => holds_advance.bind fun _ => (h.expression _).bind fun key =>
      (holds_entry h key).bind fun _ => ih.returns _

theorem holds_hashmapFrom (h : D.Governs r r') (key : Expr) :
    D.Holds .behind (fun _ => .behind) (r.hashmapFrom key) (r'.hashmapFrom key) :=
  (holds_entry h key).bind fun _ => holds_ahead fun n => (holds_moreEntries h n).bind fun _ =>
    (holds_expect (by simp) (by simp)).returns _

theorem holds_hashmap (h : D.Governs r r') :
    D.Holds .behind (fun _ => .behind) r.hashmap r'.hashmap :=
  holds_skipLineEnds.bind fun _ => holds_ifPeek (by simp) (by simp) (holds_pure _ _) <|
    holds_advance.bind fun _ => (h.expression _).bind (holds_hashmapFrom h)

theorem holds_moreParams (n : Nat) :
    D.Holds .behind (fun _ => .behind) (Rules.moreParams n) (Rules.moreParams n) := by
  induction n with
  | zero => exact holds_pure _ _
  | succ n ih =>
    refine holds_ifPeek (by simp) (by simp) ?_ (holds_pure _ _)
    exact (holds_expect (by simp) (by simp)).bind fun _ => holds_current fun _ => ih.returns _

theorem holds_params : D.Holds .behind (fun _ => .behind) Rules.params Rules.params := by
  refine holds_ifPeek (by simp) (by simp) (holds_pure _ _) ?_
  exact (holds_expect (by simp) (by simp)).bind fun _ => holds_current fun _ =>
    holds_ahead fun n => (holds_moreParams n).bind fun _ =>
      (holds_expect (by simp) (by simp)).returns _

theorem holds_function (h : D.Governs r r') :
    D.Holds .behind (fun _ => .behind) r.function r'.function :=
  (holds_expect (by simp) (by simp)).bind fun _ => holds_params.bind fun _ =>
    (holds_expect (by simp) (by simp)).bind fun _ => (holds_block h.statement).returns _

theorem holds_conditional (h : D.Governs r r') :
    D.Holds .behind (fun _ => .behind) r.conditional r'.conditional := by
  refine (holds_expect (by simp) (by simp)).bind fun _ => holds_advance.bind fun _ =>
    (h.expression _).bind fun _ => (holds_expect (by simp) (by simp)).bind fun _ =>
      (holds_expect (by simp) (by simp)).bind fun _ => (holds_block h.statement).bind fun _ => ?_
  refine holds_ifPeek (by simp) (by simp) ?_ (holds_pure _ _)
  exact (holds_expect (by simp) (by simp)).bind fun _ => (holds_block h.statement).returns _

theorem holds_group (h : D.Governs r r') : D.Holds .behind (fun _ => .behind) r.group r'.group :=
  holds_advance.bind fun _ => (h.expression _).bind fun _ => holds_skipLineEnds.bind fun _ =>
    (holds_expect (by simp) (by simp)).returns _

/-- An operand starts at the token that the reader stands on, which is no end. -/
theorem holds_operand (h : D.Governs r r') :
    D.Holds .start (fun _ => .behind) r.operand r'.operand := by
  intro s
  have hunary (op : PrefixOp) : D.Holds .behind (fun _ => .behind)
      (Parser.advance >>= fun _ => r.expression Power.unary >>= fun e => Pure.pure (Expr.unary op e))
      (Parser.advance >>= fun _ => r'.expression Power.unary >>= fun e =>
        Pure.pure (Expr.unary op e)) := holds_advance.bind fun _ => (h.expression _).returns _
  have hread {x x' : EStateM.Result Stop State Expr} (he : s.current.kind ≠ .eof)
      (hi : s.current.kind ≠ .int) (hx : D.Keeps .behind (fun _ => .behind) s x x') :
      D.Keeps .start (fun _ => .behind) s x x' := D.turn (.read he hi) hx
  simp only [Rules.operand, current_bind, D.kind_current, D.text_current]
  generalize hk : s.current.kind = k at hread
  split
  · exact hread (by simp) (by simp) (D.pure _ _ s)
  · exact D.integer hk
  · exact hread (by simp) (by simp) (D.pure _ _ s)
  · exact hread (by simp) (by simp) (D.pure _ _ s)
  · exact hread (by simp) (by simp) (D.pure _ _ s)
  · exact hread (by simp) (by simp) (hunary .not s)
  · exact hread (by simp) (by simp) (hunary .neg s)
  · exact hread (by simp) (by simp) (holds_group h s)
  · exact hread (by simp) (by simp) (holds_conditional h s)
  · exact hread (by simp) (by simp) (holds_function h s)
  · exact hread (by simp) (by simp) ((holds_list h (by simp) (by simp)).returns _ s)
  · exact hread (by simp) (by simp) (holds_hashmap h s)
  · exact D.failCurrent (F := fun _ => .illegal s.current.text) s fun _ _ => rfl
  · exact D.failCurrent (F := fun _ => .noExpression k) s fun _ _ => rfl

theorem holds_extend (h : D.Governs r r') (left : Expr) :
    D.Holds .behind (fun _ => .behind) (r.extend left) (r'.extend left) := by
  refine holds_current fun t => ?_
  simp only [Token.moved]
  split
  · exact (holds_list h (by simp) (by simp)).returns _
  · exact holds_advance.bind fun _ => (h.expression _).bind fun _ => holds_skipLineEnds.bind fun _ =>
      (holds_expect (by simp) (by simp)).returns _
  · split
    · exact holds_pure _ _
    · exact holds_advance.bind fun _ => (h.expression _).returns _

theorem holds_chain (h : D.Governs r r') (power n : Nat) (left : Expr) :
    D.Holds .behind (fun _ => .behind) (r.chain power n left) (r'.chain power n left) := by
  induction n generalizing left with
  | zero => exact holds_pure _ _
  | succ n ih =>
    intro s
    simp only [Rules.chain, peek_bind, D.kind_peek]
    split
    · next hp =>
      -- neither the end nor an integer binds anything
      refine keeps_pass (fun hk => ?_) (fun hk => ?_) ((holds_extend h left).bind ih)
      all_goals simp [hk, Kind.power, Power.lowest] at hp
    · exact D.pure _ _ s

theorem holds_expressionFrom (h : D.Governs r r') (power : Nat) (left : Expr) :
    D.Holds .behind (fun _ => .behind) (r.expressionFrom power left)
      (r'.expressionFrom power left) :=
  holds_ahead fun n => holds_chain h power n left

theorem holds_expressionRule (h : D.Governs r r') (power : Nat) :
    D.Holds .start (fun _ => .behind) (r.expressionRule power) (r'.expressionRule power) :=
  (holds_operand h).bind (holds_expressionFrom h power)

/-! ### Statements that start with a brace -/

theorem holds_braced (h : D.Governs r r') :
    D.Holds .behind (fun _ => .behind) r.braced r'.braced := by
  refine holds_skipLineEnds.bind fun _ => holds_ifPeek (by simp) (by simp)
    ((holds_expressionFrom h _ _).returns _) <| holds_advance.bind fun _ => holds_current fun c => ?_
  have hrest : D.Holds .between (fun _ => .behind) r.blockRest r'.blockRest :=
    holds_blockRest h.statement
  refine holds_ite (fun _ => (hrest.returns _).turn fun _ => .between) fun _ => ?_
  refine h.statement.attempt.bind fun first => holds_peek fun t => ?_
  simp only [Token.moved]
  -- only a colon tells a hashmap from a block, and it stands behind an expression that was read
  split
  · exact (holds_hashmapFrom h _).bind fun _ => (holds_expressionFrom h _ _).returns _
  · exact (holds_terminate _).bind fun _ => hrest.returns _

/-- A statement is read as an expression from its first token on or from behind it. -/
theorem holds_statementRule (h : D.Governs r r') (he : ∀ power,
      D.Holds .start (fun _ => .behind) (r.expression power) (r'.expression power)) :
    D.Holds .start (fun _ => .behind) r.statementRule r'.statementRule := by
  intro s
  have hadvance {g : Expr → Stmt} : D.Holds .behind (fun _ => .behind)
      (Parser.advance >>= fun _ => r.expression Power.lowest >>= fun e => Pure.pure (g e))
      (Parser.advance >>= fun _ => r'.expression Power.lowest >>= fun e => Pure.pure (g e)) :=
    holds_advance.bind fun _ => (h.expression _).returns _
  simp only [Rules.statementRule, current_bind, D.kind_current, D.text_current]
  generalize hk : s.current.kind = k
  split
  · exact D.turn (.read (by simp [hk]) (by simp [hk])) (hadvance s)
  · exact D.turn (.read (by simp [hk]) (by simp [hk])) (holds_braced h s)
  · rw [peek_bind, peek_bind, D.kind_peek]
    split
    · next hc =>
      simp only [Bool.and_eq_true, decide_eq_true_eq] at hc
      refine D.turn (.read (by simp [hk, hc.1]) (by simp [hk, hc.1])) ?_
      exact keeps_pass (by simp [hc.2]) (by simp [hc.2]) hadvance
    · exact (he _).returns _ s

end Discipline

end Parser

end Scriptlet
