import Scriptlet.Number.Numeral
import Scriptlet.Number.Word
import Scriptlet.Parse.Power

/-!
The grammar of programs, as a relation between runs of tokens and what they spell.

Expressions have levels. Level 1 is that of `||`, followed by `&&` (2), the equalities (3), the
comparisons (4), sums (5) and products (6); level 7 is that of operators in front of their operand
and level 8 that of calls, indexing and all that is closed in itself.
-/

namespace Scriptlet

/-- The operators between operands, each on its level. -/
inductive Infix : Nat → Kind → InfixOp → Prop where
  | or : Infix 1 .or .or
  | and : Infix 2 .and .and
  | eq : Infix 3 .eq .eq
  | ne : Infix 3 .ne .ne
  | lt : Infix 4 .lt .lt
  | gt : Infix 4 .gt .gt
  | le : Infix 4 .le .le
  | ge : Infix 4 .ge .ge
  | add : Infix 5 .plus .add
  | sub : Infix 5 .minus .sub
  | mul : Infix 6 .star .mul
  | div : Infix 6 .slash .div
  | mod : Infix 6 .percent .mod

/-- Line ends that stand for nothing. -/
def Dropped (ts : List Token) : Prop := ∀ t ∈ ts, t.isLineEnd = true

/-- What a run of tokens can spell. -/
inductive Phrase where
  /-- an expression whose outermost operators are of the level or of a higher one -/
  | expr (level : Nat) (e : Expr)
  /-- expressions with commas between them, as far as the closing token -/
  | list (es : List Expr)
  /-- keys and values with commas between them, as far as the closing brace -/
  | pairs (ps : List (Expr × Expr))
  /-- the names of parameters, as far as the closing parenthesis -/
  | params (names : List String)
  /-- statements in braces -/
  | block (body : List Stmt)
  | stmt (s : Stmt)
  /-- statements with their ends -/
  | stmts (ss : List Stmt)

/-- The grammar: which tokens spell which phrase. -/
inductive Derives : Phrase → List Token → Prop where
  | int {t : Token} (ht : t.kind = .int)
    (hn : (Number.ofAsciiDigits t.text.toList : Int) ≤ Number.maxWord) :
    Derives (.expr 8 (.int (Number.ofAsciiDigits t.text.toList))) [t]
  | string {t : Token} (ht : t.kind = .string) : Derives (.expr 8 (.string t.text)) [t]
  | true {t : Token} (ht : t.kind = .kwTrue) : Derives (.expr 8 (.bool true)) [t]
  | false {t : Token} (ht : t.kind = .kwFalse) : Derives (.expr 8 (.bool false)) [t]
  | ident {t : Token} (ht : t.kind = .ident) : Derives (.expr 8 (.ident t.text)) [t]
  | group {o c : Token} {e : Expr} {ts nl : List Token} (ho : o.kind = .lparen)
    (he : Derives (.expr 1 e) ts) (hl : Dropped nl) (hc : c.kind = .rparen) :
    Derives (.expr 8 e) (o :: (ts ++ (nl ++ [c])))
  | ifThen {i o c : Token} {e : Expr} {a : List Stmt} {ts us : List Token} (hi : i.kind = .kwIf)
    (ho : o.kind = .lparen) (he : Derives (.expr 1 e) ts) (hc : c.kind = .rparen)
    (ha : Derives (.block a) us) :
    Derives (.expr 8 (.ifThen e a none)) (i :: o :: (ts ++ c :: us))
  | ifThenElse {i o c l : Token} {e : Expr} {a b : List Stmt} {ts us vs : List Token}
    (hi : i.kind = .kwIf) (ho : o.kind = .lparen) (he : Derives (.expr 1 e) ts)
    (hc : c.kind = .rparen) (ha : Derives (.block a) us) (hl : l.kind = .kwElse)
    (hb : Derives (.block b) vs) :
    Derives (.expr 8 (.ifThen e a (some b))) (i :: o :: (ts ++ c :: (us ++ l :: vs)))
  | function {f o c : Token} {names : List String} {body : List Stmt} {ts us : List Token}
    (hf : f.kind = .kwFn) (ho : o.kind = .lparen) (hp : Derives (.params names) ts)
    (hc : c.kind = .rparen) (hb : Derives (.block body) us) :
    Derives (.expr 8 (.function names body)) (f :: o :: (ts ++ c :: us))
  | array {o c : Token} {es : List Expr} {ts : List Token} (ho : o.kind = .lbracket)
    (he : Derives (.list es) ts) (hc : c.kind = .rbracket) :
    Derives (.expr 8 (.array es)) (o :: (ts ++ [c]))
  | hashmap {o c : Token} {ps : List (Expr × Expr)} {ts : List Token} (ho : o.kind = .lbrace)
    (hp : Derives (.pairs ps) ts) (hc : c.kind = .rbrace) :
    Derives (.expr 8 (.hashmap ps)) (o :: (ts ++ [c]))
  | call {o c : Token} {f : Expr} {es : List Expr} {ts us : List Token}
    (hf : Derives (.expr 8 f) ts) (ho : o.kind = .lparen) (he : Derives (.list es) us)
    (hc : c.kind = .rparen) : Derives (.expr 8 (.call f es)) (ts ++ o :: (us ++ [c]))
  | index {o c : Token} {a i : Expr} {ts us nl : List Token} (ha : Derives (.expr 8 a) ts)
    (ho : o.kind = .lbracket) (hi : Derives (.expr 1 i) us) (hl : Dropped nl)
    (hc : c.kind = .rbracket) :
    Derives (.expr 8 (.index a i)) (ts ++ o :: (us ++ (nl ++ [c])))
  | not {t : Token} {e : Expr} {ts : List Token} (ht : t.kind = .bang)
    (he : Derives (.expr 7 e) ts) : Derives (.expr 7 (.unary .not e)) (t :: ts)
  | neg {t : Token} {e : Expr} {ts : List Token} (ht : t.kind = .minus)
    (he : Derives (.expr 7 e) ts) : Derives (.expr 7 (.unary .neg e)) (t :: ts)
  /-- operators of one level group to the left -/
  | binary {l : Nat} {t : Token} {op : InfixOp} {a b : Expr} {ts us : List Token}
    (ht : Infix l t.kind op) (ha : Derives (.expr l a) ts) (hb : Derives (.expr (l + 1) b) us) :
    Derives (.expr l (.binary op a b)) (ts ++ t :: us)
  | tighter {l : Nat} {e : Expr} {ts : List Token} (he : Derives (.expr (l + 1) e) ts) :
    Derives (.expr l e) ts
  | listNil : Derives (.list []) []
  | listOne {e : Expr} {ts nl : List Token} (he : Derives (.expr 1 e) ts) (hl : Dropped nl) :
    Derives (.list [e]) (ts ++ nl)
  | listCons {c : Token} {e e' : Expr} {es : List Expr} {ts nl us : List Token}
    (he : Derives (.expr 1 e) ts) (hl : Dropped nl) (hc : c.kind = .comma)
    (hs : Derives (.list (e' :: es)) us) :
    Derives (.list (e :: e' :: es)) (ts ++ (nl ++ c :: us))
  | pairsNil : Derives (.pairs []) []
  | pairsOne {c : Token} {k v : Expr} {ts us nl : List Token} (hk : Derives (.expr 1 k) ts)
    (hc : c.kind = .colon) (hv : Derives (.expr 1 v) us) (hl : Dropped nl) :
    Derives (.pairs [(k, v)]) (ts ++ c :: (us ++ nl))
  | pairsCons {c d : Token} {k v : Expr} {p : Expr × Expr} {ps : List (Expr × Expr)}
    {ts us nl vs : List Token} (hk : Derives (.expr 1 k) ts) (hc : c.kind = .colon)
    (hv : Derives (.expr 1 v) us) (hl : Dropped nl) (hd : d.kind = .comma)
    (hp : Derives (.pairs (p :: ps)) vs) :
    Derives (.pairs ((k, v) :: p :: ps)) (ts ++ c :: (us ++ (nl ++ d :: vs)))
  | paramsNil : Derives (.params []) []
  | paramsOne {t : Token} (ht : t.kind = .ident) : Derives (.params [t.text]) [t]
  | paramsCons {t c : Token} {n : String} {ns : List String} {ts : List Token}
    (ht : t.kind = .ident) (hc : c.kind = .comma) (hn : Derives (.params (n :: ns)) ts) :
    Derives (.params (t.text :: n :: ns)) (t :: c :: ts)
  | block {o c : Token} {body : List Stmt} {ts : List Token} (ho : o.kind = .lbrace)
    (hb : Derives (.stmts body) ts) (hc : c.kind = .rbrace) :
    Derives (.block body) (o :: (ts ++ [c]))
  | assign {t a : Token} {e : Expr} {ts : List Token} (ht : t.kind = .ident)
    (ha : a.kind = .assign) (he : Derives (.expr 1 e) ts) :
    Derives (.stmt (.assign t.text e)) (t :: a :: ts)
  | ret {t : Token} {e : Expr} {ts : List Token} (ht : t.kind = .kwReturn)
    (he : Derives (.expr 1 e) ts) : Derives (.stmt (.ret e)) (t :: ts)
  | exprStmt {e : Expr} {ts : List Token} (he : Derives (.expr 1 e) ts) :
    Derives (.stmt (.expr e)) ts
  /-- braces with nothing between them are a hashmap, and no statement goes on with a colon, so that
  braces with a colon behind their first item are one too -/
  | blockStmt {o c : Token} {body : List Stmt} {ts : List Token} (ho : o.kind = .lbrace)
    (hb : Derives (.stmts body) ts) (hs : ts ≠ []) (hc : c.kind = .rbrace) :
    Derives (.stmt (.block body)) (o :: (ts ++ [c]))
  | stmtsNil : Derives (.stmts []) []
  | stmtsSkip {t : Token} {ss : List Stmt} {ts : List Token} (ht : t.kind = .semicolon)
    (hs : Derives (.stmts ss) ts) : Derives (.stmts ss) (t :: ts)
  /-- the last statement may stand directly in front of a closing brace or the end -/
  | stmtsLast {s : Stmt} {ts : List Token} (hs : Derives (.stmt s) ts) : Derives (.stmts [s]) ts
  | stmtsCons {t : Token} {s : Stmt} {ss : List Stmt} {ts us : List Token}
    (hs : Derives (.stmt s) ts) (ht : t.kind = .semicolon) (hr : Derives (.stmts ss) us) :
    Derives (.stmts (s :: ss)) (ts ++ t :: us)

/-- The tokens of a whole program, the end token behind its statements. -/
def Spells (tokens : List Token) (body : List Stmt) : Prop :=
  ∃ ts e, tokens = ts ++ [e] ∧ e.kind = .eof ∧ Derives (.stmts body) ts

variable {l : Nat} {k : Kind} {op : InfixOp} {φ : Phrase} {e : Expr} {t u : Token}
  {ts us : List Token}

theorem dropped_nil : Dropped [] := by simp [Dropped]

theorem infix_iff : Infix l k op ↔ InfixOp.ofKind? k = some op ∧ k.power = l := by
  constructor
  · intro h
    cases h <;> exact ⟨rfl, rfl⟩
  · rintro ⟨ho, rfl⟩
    cases k <;> simp only [InfixOp.ofKind?, reduceCtorEq, Option.some.injEq] at ho <;>
      subst ho <;> constructor

theorem Infix.power_eq (h : Infix l k op) : k.power = l := (infix_iff.mp h).2

theorem Infix.level_pos (h : Infix l k op) : 1 ≤ l := by
  cases h <;> decide

theorem Infix.level_le (h : Infix l k op) : l ≤ 6 := by
  cases h <;> decide

theorem Derives.of_le {m : Nat} (h : Derives (.expr m e) ts) (hl : l ≤ m) :
    Derives (.expr l e) ts := by
  induction hl with
  | refl => exact h
  | step _ ih => exact ih (.tighter h)

theorem Dropped.kind_ne_eof (h : Dropped ts) : ∀ t ∈ ts, t.kind ≠ .eof := by
  intro t ht he
  simpa [Token.isLineEnd, he] using h t ht

theorem Infix.ne_eof (h : Infix l k op) : k ≠ .eof := by
  cases h <;> simp

/-- Whether an expression can start with a token of the kind. -/
def Kind.startsExpr : Kind → Bool
  | .ident | .int | .string | .kwTrue | .kwFalse | .bang | .minus | .lparen | .kwIf | .kwFn
  | .lbracket | .lbrace => true
  | _ => false

theorem Infix.ne_assign (h : Infix l k op) : k ≠ .assign := by
  cases h <;> simp

theorem Infix.ne_else (h : Infix l k op) : k ≠ .kwElse := by
  cases h <;> simp

/-- The first token of an expression, with no assignment behind a name. -/
def StartsExpr (ts : List Token) : Prop :=
  ∃ c cs, ts = c :: cs ∧ c.kind.startsExpr = true ∧
    (c.kind = .ident → ∀ d ∈ cs.head?, d.kind ≠ .assign)

theorem StartsExpr.append (h : StartsExpr ts) {o : Token} (ho : o.kind ≠ .assign) :
    StartsExpr (ts ++ o :: us) := by
  obtain ⟨c, cs, rfl, hc, hi⟩ := h
  refine ⟨c, cs ++ o :: us, rfl, hc, fun hk d hd => ?_⟩
  cases cs with
  | nil => simpa [← Option.mem_some.mp hd] using ho
  | cons d' ds => exact hi hk d hd

theorem StartsExpr.exists_cons {k : Kind} (h : StartsExpr ts) (hk : k.startsExpr = false) :
    ∃ c cs, ts = c :: cs ∧ c.kind ≠ k ∧ c.isLineEnd = false := by
  obtain ⟨c, cs, rfl, hc, -⟩ := h
  refine ⟨c, cs, rfl, fun he => by simp [← he, hc] at hk, ?_⟩
  cases hl : c.isLineEnd with
  | false => rfl
  | true =>
    simp only [Token.isLineEnd, Bool.and_eq_true, beq_iff_eq] at hl
    simp [hl.1, Kind.startsExpr] at hc

theorem startsExpr_cons (ht : t.kind.startsExpr = true) (hi : t.kind ≠ .ident) :
    StartsExpr (t :: ts) :=
  ⟨t, ts, rfl, ht, fun hk => absurd hk hi⟩

theorem Derives.startsExpr (h : Derives (.expr l e) ts) : StartsExpr ts := by
  generalize hφ : Phrase.expr l e = φ at h
  induction h generalizing l e <;> cases hφ
  case ident t ht => exact ⟨t, [], rfl, by simp [ht, Kind.startsExpr], by simp⟩
  case call hf ho _ _ ih _ => exact (ih rfl).append (by simp [ho])
  case index ha ho _ _ _ ih _ => exact (ih rfl).append (by simp [ho])
  case binary ht _ _ ih _ => exact (ih rfl).append ht.ne_assign
  case tighter ih => exact ih rfl
  all_goals exact startsExpr_cons (by simp [*, Kind.startsExpr]) (by simp [*])

theorem Derives.expr_ne_nil (h : Derives (.expr l e) ts) : ts ≠ [] := by
  obtain ⟨c, cs, rfl, -⟩ := h.startsExpr
  simp

theorem Derives.list_ne_nil {es : List Expr} (h : Derives (.list (e :: es)) ts) : ts ≠ [] := by
  cases h with
  | listOne he => simp [he.expr_ne_nil]
  | listCons => simp

theorem Derives.pairs_ne_nil {p : Expr × Expr} {ps : List (Expr × Expr)}
    (h : Derives (.pairs (p :: ps)) ts) : ts ≠ [] := by
  cases h <;> simp

theorem Derives.params_ne_nil {n : String} {ns : List String}
    (h : Derives (.params (n :: ns)) ts) : ts ≠ [] := by
  cases h <;> simp

theorem Derives.stmt_ne_nil {st : Stmt} (h : Derives (.stmt st) ts) : ts ≠ [] := by
  cases h with
  | exprStmt he => exact he.expr_ne_nil
  | _ => simp

theorem Derives.stmts_ne_nil {st : Stmt} {ss : List Stmt} (h : Derives (.stmts (st :: ss)) ts) :
    ts ≠ [] := by
  cases h with
  | stmtsLast hs => exact hs.stmt_ne_nil
  | _ => simp

/-- The last token of some tokens can end a statement. -/
def EndsStatement (ts : List Token) : Prop :=
  ∃ us t, ts = us ++ [t] ∧ t.kind.endsStatement = true

theorem EndsStatement.append (h : EndsStatement us) : EndsStatement (ts ++ us) := by
  obtain ⟨vs, t, rfl, ht⟩ := h
  exact ⟨ts ++ vs, t, by simp, ht⟩

theorem EndsStatement.cons (h : EndsStatement ts) : EndsStatement (t :: ts) :=
  @EndsStatement.append [t] ts h

theorem endsStatement_singleton (ht : t.kind.endsStatement = true) : EndsStatement [t] :=
  ⟨[], t, rfl, ht⟩

theorem Derives.block_endsStatement {ss : List Stmt} (h : Derives (.block ss) ts) :
    EndsStatement ts := by
  cases h with
  | block _ _ hc => exact (endsStatement_singleton (by simp [hc, Kind.endsStatement])).append.cons

/-- A line end behind an expression ends the statement. -/
theorem Derives.expr_endsStatement (h : Derives (.expr l e) ts) : EndsStatement ts := by
  generalize hφ : Phrase.expr l e = φ at h
  induction h generalizing l e <;> cases hφ
  case group hc _ =>
    exact (endsStatement_singleton (by simp [hc, Kind.endsStatement])).append.append.cons
  case ifThen ha _ _ => exact ha.block_endsStatement.cons.append.cons.cons
  case ifThenElse hb _ _ _ => exact hb.block_endsStatement.cons.append.cons.append.cons.cons
  case function hb _ _ => exact hb.block_endsStatement.cons.append.cons.cons
  case array hc _ => exact (endsStatement_singleton (by simp [hc, Kind.endsStatement])).append.cons
  case hashmap hc _ =>
    exact (endsStatement_singleton (by simp [hc, Kind.endsStatement])).append.cons
  case call hc _ _ =>
    exact (endsStatement_singleton (by simp [hc, Kind.endsStatement])).append.cons.append
  case index hc _ _ =>
    exact (endsStatement_singleton (by simp [hc, Kind.endsStatement])).append.append.cons.append
  case not ih => exact (ih rfl).cons
  case neg ih => exact (ih rfl).cons
  case binary ih => exact (ih rfl).cons.append
  case tighter ih => exact ih rfl
  all_goals exact endsStatement_singleton (by simp [*, Kind.endsStatement])

theorem Derives.stmt_endsStatement {st : Stmt} (h : Derives (.stmt st) ts) :
    EndsStatement ts := by
  cases h with
  | assign _ _ he => exact he.expr_endsStatement.cons.cons
  | ret _ he => exact he.expr_endsStatement.cons
  | exprStmt he => exact he.expr_endsStatement
  | blockStmt _ _ _ hc =>
    exact (endsStatement_singleton (by simp [hc, Kind.endsStatement])).append.cons

/-- No phrase contains the end token. -/
theorem Derives.kind_ne_eof (h : Derives φ ts) : ∀ t ∈ ts, t.kind ≠ .eof := by
  induction h <;> grind [Dropped.kind_ne_eof, Infix.ne_eof]

end Scriptlet
