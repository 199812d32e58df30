import Mathlib
import Scriptlet.Embed
import Scriptlet.Proofs.Parse.Acceptance
import Scriptlet.Proofs.Syntax.Printable
import Scriptlet.Proofs.Token.Spelling

/-!
The canonical text of a program is read as that program. Each part of the text is read as tokens
that spell the part, wherever it stands.
-/

namespace Scriptlet

variable {ok : Char → Bool} {e : Expr} {st : Stmt} {ss : List Stmt} {ts : List Token}

/-! ### Symbols and words -/

theorem isSymbol_lparen : IsSymbol '(' .lparen := isSymbol_of_ofChar? rfl rfl

theorem isSymbol_rparen : IsSymbol ')' .rparen := isSymbol_of_ofChar? rfl rfl

theorem isSymbol_lbracket : IsSymbol '[' .lbracket := isSymbol_of_ofChar? rfl rfl

theorem isSymbol_rbracket : IsSymbol ']' .rbracket := isSymbol_of_ofChar? rfl rfl

theorem isSymbol_lbrace : IsSymbol '\x7b' .lbrace := isSymbol_of_ofChar? rfl rfl

theorem isSymbol_rbrace : IsSymbol '\x7d' .rbrace := isSymbol_of_ofChar? rfl rfl

theorem isSymbol_comma : IsSymbol ',' .comma := isSymbol_of_ofChar? rfl rfl

theorem isSymbol_colon : IsSymbol ':' .colon := isSymbol_of_ofChar? rfl rfl

theorem isSymbol_semicolon : IsSymbol ';' .semicolon := isSymbol_of_ofChar? rfl rfl

theorem isSymbol_minus : IsSymbol '-' .minus := isSymbol_of_ofChar? rfl rfl

theorem IsName.spelled {name : String} (h : IsName name) :
    Spelled endsWord name.toList (One .ident name) := by
  obtain ⟨c, cs, hs, hc, hcs, hk⟩ := h
  have hw := spelled_word hc hcs
  rw [← hs, hk, String.ofList_toList] at hw
  exact hw

theorem ofAsciiDigits_toDigits (n : Nat) : Number.ofAsciiDigits (Nat.toDigits 10 n) = n := by
  have h := Nat.ofDigitChars_ten_toDigits (n := n)
  rw [Nat.ofDigitChars_eq_foldl] at h
  simpa [Number.ofAsciiDigits, Number.ofDigits, List.foldl_map] using h

theorem spelled_int {n : Nat} (hn : (n : Int) ≤ Number.maxWord) :
    Spelled endsWord (Nat.toDigits 10 n) (Derives (.expr 8 (.int n))) := by
  obtain ⟨c, cs, hs⟩ := List.exists_cons_of_ne_nil (Nat.toDigits_ne_nil (n := n) (b := 10))
  have hd (d : Char) (h : d ∈ c :: cs) : isDigit d = true := isDigit_of_mem_toDigits (hs ▸ h)
  have hl : (Nat.toDigits 10 n).length ≤ 19 := by
    refine (Nat.length_toDigits_le_iff (by decide) (by decide)).mpr ?_
    simp only [Number.maxWord] at hn
    omega
  have hl' : cs.length < Number.digitLimit := by
    simp only [hs, List.length_cons, Number.digitLimit] at hl ⊢
    omega
  rw [hs]
  refine (spelled_digits (hd c (by simp)) (fun d h => hd d (by simp [h])) hl').mono ?_
  rintro _ ⟨t, rfl, hk, ht⟩
  have hv : Number.ofAsciiDigits t.text.toList = n := by
    rw [ht, String.toList_ofList, ← hs, ofAsciiDigits_toDigits]
  exact hv ▸ .int hk (hv.symm ▸ hn)

theorem spelled_keyword {c : Char} {cs : List Char} {k : Kind} (hc : isLetter c = true)
    (hcs : cs.all isWordChar = true) (hk : Kind.ofWord (c :: cs) = k) :
    Spelled endsWord (c :: cs) (fun ts => ∃ t, ts = [t] ∧ t.kind = k) := by
  refine (spelled_word hc (List.all_eq_true.mp hcs)).mono ?_
  rintro _ ⟨t, rfl, ht, -⟩
  exact ⟨t, rfl, ht.trans hk⟩

/-- An operator between two operands stands between spaces. -/
theorem InfixOp.spelled {op : InfixOp} (h : op.Known) : Spelled (· = ' ') op.text.toList
    (fun ts => ∃ t l, ts = [t] ∧ l ≤ 6 ∧ Infix l t.kind op) := by
  have hp : ∀ {c d k l}, Kind.ofPair? c d = some k → l ≤ 6 → Infix l k op →
      Spelled (· = ' ') [c, d] (fun ts => ∃ t l, ts = [t] ∧ l ≤ 6 ∧ Infix l t.kind op) := by
    intro c d k l hk hl hi
    refine ((spelled_pair hk).weaken fun _ _ => rfl).mono ?_
    rintro _ ⟨t, rfl, ht, -⟩
    exact ⟨t, l, rfl, hl, ht ▸ hi⟩
  have hc : ∀ {c k l}, Kind.ofChar? c = some k → l ≤ 6 → Infix l k op →
      Spelled (· = ' ') [c] (fun ts => ∃ t l, ts = [t] ∧ l ≤ 6 ∧ Infix l t.kind op) := by
    intro c k l hk hl hi
    refine ((spelled_symbol hk).weaken fun d hd => ?_).mono ?_
    · obtain rfl := of_decide_eq_true hd
      rw [Kind.ofPair?_of_second (by decide) (.inr (by decide))]
      rfl
    · rintro _ ⟨t, rfl, ht, -⟩
      exact ⟨t, l, rfl, hl, ht ▸ hi⟩
  cases op with
  | or => exact hp rfl (by simp) .or
  | and => exact hp rfl (by simp) .and
  | eq => exact hp rfl (by simp) .eq
  | ne => exact hp rfl (by simp) .ne
  | lt => exact hc rfl (by simp) .lt
  | gt => exact hc rfl (by simp) .gt
  | le => exact hp rfl (by simp) .le
  | ge => exact hp rfl (by simp) .ge
  | add => exact hc rfl (by simp) .add
  | sub => exact hc rfl (by simp) .sub
  | mul => exact hc rfl (by simp) .mul
  | div => exact hc rfl (by simp) .div
  | mod => exact hc rfl (by simp) .mod
  | other => exact h.elim

/-! ### Expressions -/

/-- The text of an expression is read as the expression. -/
abbrev ExprSpelled (e : Expr) : Prop := Spelled endsWord e.text.toList (Derives (.expr 8 e))

theorem exprSpelled_of {cs : List Char} {D : List Token → Prop} (ht : e.text.toList = cs)
    (hs : Spelled (fun _ => true) cs D) (hd : ∀ ts, D ts → Derives (.expr 8 e) ts) :
    ExprSpelled e := by
  rw [ExprSpelled, ht]
  exact (hs.weaken fun _ _ => rfl).mono hd

theorem derives_group {o c : Token} (ho : o.kind = .lparen) (hd : Derives (.expr 1 e) ts)
    (hc : c.kind = .rparen) : Derives (.expr 8 e) (o :: (ts ++ [c])) :=
  .group ho hd dropped_nil hc

theorem exprSpelled_neg (h : ExprSpelled e) : ExprSpelled (.unary .neg e) := by
  have hs := ((h.concat isSymbol_rparen).cons isSymbol_minus).cons isSymbol_lparen
  refine exprSpelled_of (by simp [Expr.text, PrefixOp.text]) hs ?_
  rintro _ ⟨o, _, rfl, ho, m, _, rfl, hm, us, c, rfl, hd, hc⟩
  exact derives_group ho (.of_le (.neg hm (hd.of_le (by simp))) (by simp)) hc

/-- An exclamation mark is a symbol of its own unless an equality sign follows. -/
theorem exprSpelled_not (h : ExprSpelled e) (hs : Starts (· ≠ '=') e.text.toList) :
    ExprSpelled (.unary .not e) := by
  have hb : Spelled (fun d => (Kind.ofPair? '!' d).isNone) ['!'] (One .bang "!") :=
    spelled_symbol rfl
  have hn : Starts (fun d => (Kind.ofPair? '!' d).isNone) (e.text.toList ++ [')']) := by
    refine (hs.mono fun d hd => ?_).append
    rw [Kind.ofPair?_of_second (of_decide_eq_true hd) (.inl (by decide))]
    rfl
  have hs := (hb.append (h.concat isSymbol_rparen) hn).cons isSymbol_lparen
  refine exprSpelled_of (by simp [Expr.text, PrefixOp.text]) hs ?_
  rintro _ ⟨o, _, rfl, ho, _, _, rfl, ⟨m, rfl, hm, -⟩, us, c, rfl, hd, hc⟩
  exact derives_group ho (.of_le (.not hm (hd.of_le (by simp))) (by simp)) hc

theorem exprSpelled_binary {op : InfixOp} {a b : Expr} (ho : op.Known) (ha : ExprSpelled a)
    (hb : ExprSpelled b) : ExprSpelled (.binary op a b) := by
  have hop := (InfixOp.spelled ho).space fun ts ⟨t, _, ht, _⟩ => by simp [ht]
  have hr := hop.append (hb.space fun _ => Derives.expr_ne_nil) ⟨' ', _, rfl, rfl⟩
  have hs := ((ha.append hr ⟨' ', _, rfl, rfl⟩).concat isSymbol_rparen).cons isSymbol_lparen
  refine exprSpelled_of (by simp [Expr.text]) hs ?_
  rintro _ ⟨o, _, rfl, ho, _, c, rfl, ⟨us, _, rfl, hd, _, vs, rfl, ⟨t, l, rfl, hl, hi⟩, hd'⟩, hc⟩
  have hbin : Derives (.expr l (.binary op a b)) (us ++ t :: vs) :=
    .binary hi (hd.of_le (by omega)) (hd'.of_le (by omega))
  exact derives_group ho (hbin.of_le hi.level_pos) hc

theorem exprSpelled_index {a i : Expr} (ha : ExprSpelled a) (hi : ExprSpelled i) :
    ExprSpelled (.index a i) := by
  have hr := (hi.concat isSymbol_rbracket).cons isSymbol_lbracket
  have hs := (((ha.append hr ⟨'[', _, rfl, rfl⟩).weaken fun _ _ => rfl).concat
    isSymbol_rparen).cons isSymbol_lparen
  refine exprSpelled_of (by simp [Expr.text]) hs ?_
  rintro _ ⟨o, _, rfl, ho, _, c, rfl, ⟨us, _, rfl, hd, l, _, rfl, hl, vs, r, rfl, hd', hr⟩, hc⟩
  have hx : Derives (.expr 8 (.index a i)) (us ++ l :: (vs ++ [r])) :=
    .index hd hl (hd'.of_le (by simp)) dropped_nil hr
  exact derives_group ho (hx.of_le (by simp)) hc

/-! ### Lists -/

theorem exprSpelled_call {f : Expr} {es : List Expr} (hf : ExprSpelled f)
    (he : Spelled endsWord (joined ", " (exprTexts es)).toList (Derives (.list es))) :
    ExprSpelled (.call f es) := by
  have hs := hf.append ((he.concat isSymbol_rparen).cons isSymbol_lparen) ⟨'(', _, rfl, rfl⟩
  refine exprSpelled_of (by simp [Expr.text]) hs ?_
  rintro _ ⟨us, _, rfl, hd, o, _, rfl, ho, vs, c, rfl, hd', hc⟩
  exact .call hd ho hd' hc

theorem exprSpelled_array {es : List Expr}
    (he : Spelled endsWord (joined ", " (exprTexts es)).toList (Derives (.list es))) :
    ExprSpelled (.array es) := by
  have hs := (he.concat isSymbol_rbracket).cons isSymbol_lbracket
  refine exprSpelled_of (by simp [Expr.text]) hs ?_
  rintro _ ⟨o, _, rfl, ho, vs, c, rfl, hd, hc⟩
  exact .array ho hd hc

theorem exprSpelled_hashmap {ps : List (Expr × Expr)}
    (hp : Spelled endsWord (joined ", " (pairTexts ps)).toList (Derives (.pairs ps))) :
    ExprSpelled (.hashmap ps) := by
  have hs := (hp.concat isSymbol_rbrace).cons isSymbol_lbrace
  refine exprSpelled_of (by simp [Expr.text]) hs ?_
  rintro _ ⟨o, _, rfl, ho, vs, c, rfl, hd, hc⟩
  exact .hashmap ho hd hc

/-- The text of the elements of a list is read as them. -/
abbrev ListSpelled (es : List Expr) : Prop :=
  Spelled endsWord (joined ", " (exprTexts es)).toList (Derives (.list es))

theorem listSpelled_nil : ListSpelled [] := by
  refine spelled_nil.mono ?_
  rintro _ rfl
  exact .listNil

theorem listSpelled_one (h : ExprSpelled e) : ListSpelled [e] :=
  h.mono fun ts hd => by simpa using Derives.listOne (hd.of_le (by simp)) dropped_nil

theorem listSpelled_cons {e' : Expr} {es : List Expr} (h : ExprSpelled e)
    (h' : ListSpelled (e' :: es)) : ListSpelled (e :: e' :: es) := by
  have hs := h.separated isSymbol_comma h' fun ts hd => hd.list_ne_nil
  have ht : (joined ", " (exprTexts (e :: e' :: es))).toList = e.text.toList ++
      ',' :: ' ' :: (joined ", " (exprTexts (e' :: es))).toList := by
    simp [exprTexts, joined]
  rw [ListSpelled, ht]
  refine hs.mono ?_
  rintro _ ⟨us, c, vs, rfl, hd, hc, hd'⟩
  exact .listCons (hd.of_le (by simp)) dropped_nil hc hd'

/-- The text of the entries of a hashmap is read as them. -/
abbrev PairsSpelled (ps : List (Expr × Expr)) : Prop :=
  Spelled endsWord (joined ", " (pairTexts ps)).toList (Derives (.pairs ps))

theorem pairsSpelled_nil : PairsSpelled [] := by
  refine spelled_nil.mono ?_
  rintro _ rfl
  exact .pairsNil

theorem pairsSpelled_one {k v : Expr} (hk : ExprSpelled k) (hv : ExprSpelled v) :
    PairsSpelled [(k, v)] := by
  have hs := hk.separated isSymbol_colon hv fun _ => Derives.expr_ne_nil
  have ht : (joined ", " (pairTexts [(k, v)])).toList =
      k.text.toList ++ ':' :: ' ' :: v.text.toList := by
    simp [pairTexts, joined]
  rw [PairsSpelled, ht]
  refine hs.mono ?_
  rintro _ ⟨us, c, vs, rfl, hd, hc, hd'⟩
  simpa using Derives.pairsOne (hd.of_le (by simp)) hc (hd'.of_le (by simp)) dropped_nil

theorem pairsSpelled_cons {k v : Expr} {p : Expr × Expr} {ps : List (Expr × Expr)}
    (hk : ExprSpelled k) (hv : ExprSpelled v) (hp : PairsSpelled (p :: ps)) :
    PairsSpelled ((k, v) :: p :: ps) := by
  have hr := hv.separated isSymbol_comma hp fun _ => Derives.pairs_ne_nil
  have hs := hk.separated isSymbol_colon hr fun ts ⟨_, _, _, ht, _⟩ => by simp [ht]
  have ht : (joined ", " (pairTexts ((k, v) :: p :: ps))).toList = k.text.toList ++ ':' :: ' ' ::
      (v.text.toList ++ ',' :: ' ' :: (joined ", " (pairTexts (p :: ps))).toList) := by
    simp [pairTexts, joined]
  rw [PairsSpelled, ht]
  refine hs.mono ?_
  rintro _ ⟨us, c, _, rfl, hd, hc, vs, d, ws, rfl, hd', hcomma, hp⟩
  exact .pairsCons (hd.of_le (by simp)) hc (hd'.of_le (by simp)) dropped_nil hcomma hp

theorem spelled_params {names : List String} (h : ∀ name ∈ names, IsName name) :
    Spelled endsWord (joined ", " names).toList (Derives (.params names)) := by
  induction names with
  | nil =>
    refine spelled_nil.mono ?_
    rintro _ rfl
    exact .paramsNil
  | cons n ns ih =>
    have hn := IsName.spelled (h n (by simp))
    cases ns with
    | nil =>
      refine hn.mono ?_
      rintro _ ⟨t, rfl, hk, rfl⟩
      exact .paramsOne hk
    | cons m ns =>
      have hr := ih fun name hm => h name (by simp_all)
      have ht : (joined ", " (n :: m :: ns)).toList =
          n.toList ++ ',' :: ' ' :: (joined ", " (m :: ns)).toList := by
        simp [joined]
      rw [ht]
      refine (hn.separated isSymbol_comma hr fun _ => Derives.params_ne_nil).mono ?_
      rintro _ ⟨_, c, vs, rfl, ⟨t, rfl, hk, rfl⟩, hc, hd⟩
      exact .paramsCons hk hc hd

/-! ### Blocks -/

/-- Statements in braces, where there are any tokens in them if there are any statements. -/
def Braced (ss : List Stmt) (ts : List Token) : Prop :=
  ∃ o us c, ts = o :: (us ++ [c]) ∧ o.kind = .lbrace ∧ Derives (.stmts ss) us ∧
    c.kind = .rbrace ∧ (ss ≠ [] → us ≠ [])

/-- The text of a block is read as the block. -/
abbrev BlockSpelled (ss : List Stmt) : Prop :=
  Spelled (fun _ => true) (blockText (stmtTexts ss)).toList (Braced ss)

theorem Braced.block (h : Braced ss ts) : Derives (.block ss) ts := by
  obtain ⟨o, us, c, rfl, ho, hd, hc, -⟩ := h
  exact .block ho hd hc

theorem Braced.ne_nil (h : Braced ss ts) : ts ≠ [] := by
  obtain ⟨o, us, c, rfl, -⟩ := h
  simp

theorem blockSpelled_nil : BlockSpelled [] := by
  have hs := (isSymbol_rbrace.spelled.space fun ts ⟨_, ht, _⟩ => by simp [ht]).cons isSymbol_lbrace
  refine hs.mono ?_
  rintro _ ⟨o, _, rfl, ho, c, rfl, hc⟩
  exact ⟨o, [], c, rfl, ho, .stmtsNil, hc, by simp⟩

/-- The text of the statements of a block is read as them. -/
abbrev StmtsSpelled (ss : List Stmt) : Prop :=
  Spelled endsWord (joined "; " (ss.map Stmt.core)).toList (Derives (.stmts ss))

theorem blockSpelled (h : PrintableStmts ss) (hs : StmtsSpelled ss) : BlockSpelled ss := by
  by_cases hn : ss = []
  · subst hn
    exact blockSpelled_nil
  have hne : ∀ ts, Derives (.stmts ss) ts → ts ≠ [] := by
    obtain ⟨st, ss, rfl⟩ := List.exists_cons_of_ne_nil hn
    exact fun ts => Derives.stmts_ne_nil
  have hr := isSymbol_rbrace.spelled.space fun ts ⟨_, ht, _⟩ => by simp [ht]
  have hb := ((hs.append hr ⟨' ', _, rfl, rfl⟩).space fun ts ⟨us, vs, ht, hd, _⟩ => by
    simp [ht, hne us hd]).cons isSymbol_lbrace
  have ht : (blockText (stmtTexts ss)).toList =
      '\x7b' :: ' ' :: ((joined "; " (ss.map Stmt.core)).toList ++ [' ', '\x7d']) := by
    simp [blockText_stmtTexts (fun st hst => Stmt.endsPlain_core (h.mem st hst)) hn]
  rw [BlockSpelled, ht]
  refine hb.mono ?_
  rintro _ ⟨o, _, rfl, ho, us, _, rfl, hd, c, rfl, hc⟩
  exact ⟨o, us, c, rfl, ho, hd, hc, fun _ => hne us hd⟩

theorem stmtsSpelled_one (h : Spelled endsWord st.core.toList (Derives (.stmt st))) :
    StmtsSpelled [st] :=
  h.mono fun _ => .stmtsLast

theorem stmtsSpelled_cons {st' : Stmt} (h : Spelled endsWord st.core.toList (Derives (.stmt st)))
    (h' : StmtsSpelled (st' :: ss)) : StmtsSpelled (st :: st' :: ss) := by
  have hs := h.separated isSymbol_semicolon h' fun _ => Derives.stmts_ne_nil
  have ht : (joined "; " ((st :: st' :: ss).map Stmt.core)).toList = st.core.toList ++
      ';' :: ' ' :: (joined "; " ((st' :: ss).map Stmt.core)).toList := by
    simp [joined]
  rw [StmtsSpelled, ht]
  refine hs.mono ?_
  rintro _ ⟨us, c, vs, rfl, hd, hc, hd'⟩
  exact .stmtsCons hd hc hd'

/-! ### Functions and conditionals -/

/-- A closing parenthesis and a block behind it. -/
theorem spelled_rparen_block {D : List Token → Prop} {cs : List Char}
    (h : Spelled endsWord cs D) (hb : BlockSpelled ss) :
    Spelled (fun _ => true) (cs ++ ')' :: ' ' :: (blockText (stmtTexts ss)).toList) (fun ts =>
      ∃ us c vs, ts = us ++ c :: vs ∧ D us ∧ c.kind = .rparen ∧ Braced ss vs) :=
  h.separated isSymbol_rparen hb fun _ => Braced.ne_nil

theorem exprSpelled_function {names : List String} (hn : ∀ name ∈ names, IsName name)
    (hb : BlockSpelled ss) : ExprSpelled (.function names ss) := by
  have hf : Spelled endsWord ['f', 'n'] (fun ts => ∃ t, ts = [t] ∧ t.kind = .kwFn) :=
    spelled_keyword rfl rfl rfl
  have hs := hf.append ((spelled_rparen_block (spelled_params hn) hb).cons isSymbol_lparen)
    ⟨'(', _, rfl, rfl⟩
  refine exprSpelled_of (by simp [Expr.text]) hs ?_
  rintro _ ⟨_, _, rfl, ⟨f, rfl, hf⟩, o, _, rfl, ho, us, c, vs, rfl, hd, hc, hb⟩
  exact .function hf ho hd hc hb.block

theorem spelled_condition (he : ExprSpelled e) (hb : BlockSpelled ss) : Spelled (fun _ => true)
    ("if (" ++ e.text ++ ") " ++ blockText (stmtTexts ss)).toList (fun ts => ∃ i o us c vs,
      ts = i :: o :: (us ++ c :: vs) ∧ i.kind = .kwIf ∧ o.kind = .lparen ∧ Derives (.expr 8 e) us ∧
        c.kind = .rparen ∧ Braced ss vs) := by
  have hi : Spelled endsWord ['i', 'f'] (fun ts => ∃ t, ts = [t] ∧ t.kind = .kwIf) :=
    spelled_keyword rfl rfl rfl
  have hr := ((spelled_rparen_block he hb).cons isSymbol_lparen).space
    fun ts ⟨_, _, ht, _⟩ => by simp [ht]
  have hs := hi.append hr ⟨' ', _, rfl, rfl⟩
  have ht : ("if (" ++ e.text ++ ") " ++ blockText (stmtTexts ss)).toList = ['i', 'f'] ++
      ' ' :: '(' :: (e.text.toList ++ ')' :: ' ' :: (blockText (stmtTexts ss)).toList) := by
    simp
  rw [ht]
  refine hs.mono ?_
  rintro _ ⟨_, _, rfl, ⟨i, rfl, hi⟩, o, _, rfl, ho, us, c, vs, rfl, hd, hc, hb⟩
  exact ⟨i, o, us, c, vs, rfl, hi, ho, hd, hc, hb⟩

theorem exprSpelled_ifThen (he : ExprSpelled e) (hb : BlockSpelled ss) :
    ExprSpelled (.ifThen e ss none) := by
  refine exprSpelled_of rfl (by simpa only [Expr.text] using spelled_condition he hb) ?_
  rintro _ ⟨i, o, us, c, vs, rfl, hi, ho, hd, hc, hb⟩
  exact .ifThen hi ho (hd.of_le (by simp)) hc hb.block

theorem exprSpelled_ifThenElse {ss' : List Stmt} (he : ExprSpelled e) (hb : BlockSpelled ss)
    (hb' : BlockSpelled ss') : ExprSpelled (.ifThen e ss (some ss')) := by
  have hl : Spelled endsWord ['e', 'l', 's', 'e'] (fun ts => ∃ t, ts = [t] ∧ t.kind = .kwElse) :=
    spelled_keyword rfl rfl rfl
  have hr := (hl.append (hb'.space fun _ => Braced.ne_nil) ⟨' ', _, rfl, rfl⟩).space
    fun ts ⟨_, _, ht, ⟨_, hl, _⟩, _⟩ => by simp [ht, hl]
  have hs := (spelled_condition he hb).append hr ⟨' ', _, rfl, rfl⟩
  refine exprSpelled_of (by simp [Expr.text]) hs ?_
  rintro _ ⟨_, _, rfl, ⟨i, o, us, c, vs, rfl, hi, ho, hd, hc, hb⟩, _, ws, rfl, ⟨l, rfl, hl⟩, hb'⟩
  simpa using Derives.ifThenElse hi ho (hd.of_le (by simp)) hc hb.block hl hb'.block

/-! ### Programs -/

theorem Expr.starts_text : (e : Expr) → e.Printable → Starts (· ≠ '=') e.text.toList
  | .int n, h => by
    obtain ⟨m, rfl⟩ := Int.eq_ofNat_of_zero_le h.1
    obtain ⟨c, cs, hs⟩ := List.exists_cons_of_ne_nil (Nat.toDigits_ne_nil (n := m) (b := 10))
    refine ⟨c, cs, (toList_toString_natCast m).trans hs, ?_⟩
    have hd : isDigit c = true := isDigit_of_mem_toDigits (hs ▸ List.mem_cons_self)
    simp only [ne_eq, decide_not, Bool.not_eq_true', decide_eq_false_iff_not]
    rintro rfl
    exact absurd hd (by decide)
  | .bool true, _ => ⟨'t', _, rfl, rfl⟩
  | .bool false, _ => ⟨'f', _, rfl, rfl⟩
  | .string _, _ => by
    rw [Expr.text, String.toList_append, String.toList_append]
    exact Starts.append (Starts.append ⟨'"', _, rfl, rfl⟩)
  | .ident name, ⟨c, cs, hs, hc, _, _⟩ => by
    refine ⟨c, cs, hs, ?_⟩
    simp only [ne_eq, decide_not, Bool.not_eq_true', decide_eq_false_iff_not]
    rintro rfl
    exact absurd hc (by decide)
  | .unary .., _ => ⟨'(', _, by simp [Expr.text]; rfl, rfl⟩
  | .binary .., _ => ⟨'(', _, by simp [Expr.text]; rfl, rfl⟩
  | .ifThen _ _ none, _ => ⟨'i', _, by simp [Expr.text]; rfl, rfl⟩
  | .ifThen _ _ (some _), _ => ⟨'i', _, by simp [Expr.text]; rfl, rfl⟩
  | .function .., _ => ⟨'f', _, by simp [Expr.text]; rfl, rfl⟩
  | .call callee _, h => by
    rw [Expr.text, String.toList_append, String.toList_append, String.toList_append]
    exact ((callee.starts_text h.1).append.append).append
  | .array .., _ => ⟨'[', _, by simp [Expr.text]; rfl, rfl⟩
  | .index .., _ => ⟨'(', _, by simp [Expr.text]; rfl, rfl⟩
  | .hashmap .., _ => ⟨'\x7b', _, by simp [Expr.text]; rfl, rfl⟩

theorem spelled_bool (b : Bool) : ExprSpelled (.bool b) := by
  cases b with
  | true =>
    have hs : Spelled endsWord ['t', 'r', 'u', 'e'] (fun ts => ∃ t, ts = [t] ∧ t.kind = .kwTrue) :=
      spelled_keyword rfl rfl rfl
    refine hs.mono ?_
    rintro _ ⟨t, rfl, hk⟩
    exact .true hk
  | false =>
    have hs : Spelled endsWord ['f', 'a', 'l', 's', 'e']
        (fun ts => ∃ t, ts = [t] ∧ t.kind = .kwFalse) := spelled_keyword rfl rfl rfl
    refine hs.mono ?_
    rintro _ ⟨t, rfl, hk⟩
    exact .false hk

theorem exprSpelled_string {s : String} (h : '"' ∉ s.toList) : ExprSpelled (.string s) := by
  refine exprSpelled_of (by simp [Expr.text]) (spelled_string h) ?_
  rintro _ ⟨t, rfl, hk, ht⟩
  rw [String.ofList_toList] at ht
  exact ht ▸ .string hk

theorem exprSpelled_ident {name : String} (h : IsName name) : ExprSpelled (.ident name) := by
  refine h.spelled.mono ?_
  rintro _ ⟨t, rfl, hk, rfl⟩
  exact .ident hk

theorem exprSpelled_int {n : Int} (h₀ : 0 ≤ n) (hn : n ≤ Number.maxWord) :
    ExprSpelled (.int n) := by
  obtain ⟨m, rfl⟩ := Int.eq_ofNat_of_zero_le h₀
  have ht : (Expr.text (.int m)).toList = Nat.toDigits 10 m := toList_toString_natCast m
  rw [ExprSpelled, ht]
  exact spelled_int hn

theorem stmtSpelled_assign {name : String} (hn : IsName name) (he : ExprSpelled e) :
    Spelled endsWord (Stmt.core (.assign name e)).toList (Derives (.stmt (.assign name e))) := by
  have ha : Spelled (· ≠ '=') ['='] (One .assign "=") := by
    refine (spelled_symbol rfl).weaken fun d hd => ?_
    rw [Kind.ofPair?_of_second (of_decide_eq_true hd) (.inl (by decide))]
    rfl
  have hr := (ha.append (he.space fun _ => Derives.expr_ne_nil) ⟨' ', _, rfl, rfl⟩).space
    fun ts h => by
      obtain ⟨_, _, rfl, ⟨_, rfl, -⟩, -⟩ := h
      simp
  have hs := hn.spelled.append hr ⟨' ', _, rfl, rfl⟩
  have ht : (Stmt.core (.assign name e)).toList =
      name.toList ++ ' ' :: (['='] ++ ' ' :: e.text.toList) := by
    simp [Stmt.core]
  rw [ht]
  refine hs.mono ?_
  rintro _ ⟨_, _, rfl, ⟨t, rfl, hk, rfl⟩, _, us, rfl, ⟨a, rfl, ha, -⟩, hd⟩
  exact .assign hk ha (hd.of_le (by simp))

theorem stmtSpelled_ret (he : ExprSpelled e) :
    Spelled endsWord (Stmt.core (.ret e)).toList (Derives (.stmt (.ret e))) := by
  have hw : Spelled endsWord ['r', 'e', 't', 'u', 'r', 'n']
      (fun ts => ∃ t, ts = [t] ∧ t.kind = .kwReturn) := spelled_keyword rfl rfl rfl
  have hs := hw.append (he.space fun _ => Derives.expr_ne_nil) ⟨' ', _, rfl, rfl⟩
  have ht : (Stmt.core (.ret e)).toList = ['r', 'e', 't', 'u', 'r', 'n'] ++
      ' ' :: e.text.toList := by
    simp [Stmt.core]
  rw [ht]
  refine hs.mono ?_
  rintro _ ⟨_, us, rfl, ⟨t, rfl, hk⟩, hd⟩
  exact .ret hk (hd.of_le (by simp))

theorem stmtSpelled_block (hn : ss ≠ []) (hb : BlockSpelled ss) :
    Spelled endsWord (Stmt.core (.block ss)).toList (Derives (.stmt (.block ss))) := by
  refine (hb.weaken fun _ _ => rfl).mono ?_
  rintro _ ⟨o, us, c, rfl, ho, hd, hc, hu⟩
  exact .blockStmt ho hd (hu hn) hc

theorem stmtsSpelled_nil : StmtsSpelled [] := by
  refine spelled_nil.mono ?_
  rintro _ rfl
  exact .stmtsNil

mutual

theorem exprSpelled : (e : Expr) → e.Printable → ExprSpelled e
  | .int _, h => exprSpelled_int h.1 h.2
  | .bool b, _ => spelled_bool b
  | .string _, h => exprSpelled_string h
  | .ident _, h => exprSpelled_ident h
  | .unary .not right, h => exprSpelled_not (exprSpelled right h.2) (right.starts_text h.2)
  | .unary .neg right, h => exprSpelled_neg (exprSpelled right h.2)
  | .unary (.other _) _, h => h.1.elim
  | .binary _ left right, h =>
    exprSpelled_binary h.1 (exprSpelled left h.2.1) (exprSpelled right h.2.2)
  | .ifThen c a none, h =>
    exprSpelled_ifThen (exprSpelled c h.1) (blockSpelled h.2 (stmtsSpelled a h.2))
  | .ifThen c a (some b), h =>
    exprSpelled_ifThenElse (exprSpelled c h.1) (blockSpelled h.2.1 (stmtsSpelled a h.2.1))
      (blockSpelled h.2.2 (stmtsSpelled b h.2.2))
  | .function _ body, h => exprSpelled_function h.1 (blockSpelled h.2 (stmtsSpelled body h.2))
  | .call callee args, h => exprSpelled_call (exprSpelled callee h.1) (listSpelled args h.2)
  | .array es, h => exprSpelled_array (listSpelled es h)
  | .index left i, h => exprSpelled_index (exprSpelled left h.1) (exprSpelled i h.2)
  | .hashmap ps, h => exprSpelled_hashmap (pairsSpelled ps h)

theorem stmtSpelled : (st : Stmt) → st.Printable →
    Spelled endsWord st.core.toList (Derives (.stmt st))
  | .assign _ value, h => stmtSpelled_assign h.1 (exprSpelled value h.2)
  | .ret value, h => stmtSpelled_ret (exprSpelled value h)
  | .expr value, h => (exprSpelled value h).mono fun _ hd => .exprStmt (hd.of_le (by simp))
  | .block body, h => stmtSpelled_block h.1 (blockSpelled h.2 (stmtsSpelled body h.2))

theorem listSpelled : (es : List Expr) → PrintableExprs es → ListSpelled es
  | [], _ => listSpelled_nil
  | [e], h => listSpelled_one (exprSpelled e h.1)
  | e :: e' :: es, h => listSpelled_cons (exprSpelled e h.1) (listSpelled (e' :: es) h.2)

theorem pairsSpelled : (ps : List (Expr × Expr)) → PrintablePairs ps → PairsSpelled ps
  | [], _ => pairsSpelled_nil
  | [(k, v)], h => pairsSpelled_one (exprSpelled k h.1) (exprSpelled v h.2.1)
  | (k, v) :: p :: ps, h =>
    pairsSpelled_cons (exprSpelled k h.1) (exprSpelled v h.2.1) (pairsSpelled (p :: ps) h.2.2)

theorem stmtsSpelled : (ss : List Stmt) → PrintableStmts ss → StmtsSpelled ss
  | [], _ => stmtsSpelled_nil
  | [st], h => stmtsSpelled_one (stmtSpelled st h.1)
  | st :: st' :: ss, h => stmtsSpelled_cons (stmtSpelled st h.1) (stmtsSpelled (st' :: ss) h.2)

end

/-! ### Sources -/

open Scanner

variable {s : Scanner} {cs : List Char}

/-- A statement is read with its end, in front of characters that stand between it and the next
one. -/
def LineScans (separator : List Char) (st : Stmt) : Prop :=
  ∀ ⦃s : Scanner⦄ ⦃cs⦄, s.rest = st.text.toList ++ (separator ++ cs) →
    ∃ ts c t, Derives (.stmt st) ts ∧ c.kind = .semicolon ∧ ShortLiterals (ts ++ [c]) ∧
      t.rest = cs ∧ ∀ us u, us ≠ [] → Scans t us u → Scans s (ts ++ c :: us) u

/-- A statement that closes is read with its semicolon, whatever is behind it. -/
theorem scans_closed (h : st.Printable) (hc : st.closes = true)
    (hs : s.rest = st.text.toList ++ cs) :
    ∃ ts c t, Derives (.stmt st) ts ∧ c.kind = .semicolon ∧ ShortLiterals (ts ++ [c]) ∧
      t.rest = cs ∧ Scans s (ts ++ [c]) t := by
  have hs' : s.rest = st.core.toList ++ [';'] ++ cs := by simpa [Stmt.text_eq, hc] using hs
  obtain ⟨_, t, hts, ht, hl, ts, c, rfl, hd, hk⟩ :=
    ((stmtSpelled st h).concat isSymbol_semicolon) hs' fun _ _ => rfl
  exact ⟨ts, c, t, hd, hk, hl, ht, hts⟩

/-- In front of a line end a statement is read with its semicolon, or with the line end as one. -/
theorem lineScans_newline (h : st.Printable) : LineScans ['\n'] st := by
  intro s cs hs
  cases hc : st.closes with
  | true =>
    obtain ⟨ts, c, t, hd, hk, hl, ht, hts⟩ := scans_closed h hc hs
    have he : t.atEnd = false := by simp [hts.atEnd, hk, Kind.endsStatement]
    refine ⟨ts, c, t.newline cs, hd, hk, hl, rfl, fun us u hn hu => ?_⟩
    simpa using hts.append (hu.of_next hn (next_newline ht he))
  | false =>
    have hs' : s.rest = st.core.toList ++ '\n' :: cs := by simpa [Stmt.text_eq, hc] using hs
    obtain ⟨ts, t, hts, ht, hl, hd⟩ := stmtSpelled st h hs' (by simp; rfl)
    have he : t.atEnd = true := by
      obtain ⟨us, c, rfl, hk⟩ := hd.stmt_endsStatement
      simpa [hts.atEnd] using hk
    obtain ⟨hk, hr⟩ := next_lineEnd ht he
    refine ⟨ts, t.next.1, t.next.2, hd, hk, hl.append ?_, hr, fun us u _ hu => ?_⟩
    · simp [ShortLiterals, hk]
    · exact hts.append (.cons (by simp [hk]) hu)

/-- The last statement is read, with its semicolon if it has one. -/
theorem scans_lastLine (h : st.Printable) (hs : s.rest = st.text.toList) :
    ∃ ts t, Scans s ts t ∧ t.rest = [] ∧ ShortLiterals ts ∧ Derives (.stmts [st]) ts := by
  cases hc : st.closes with
  | true =>
    have hs' : s.rest = st.text.toList ++ [] := by simpa using hs
    obtain ⟨ts, c, t, hd, hk, hl, ht, hts⟩ := scans_closed h hc hs'
    exact ⟨_, t, hts, ht, hl, .stmtsCons hd hk .stmtsNil⟩
  | false =>
    have hs' : s.rest = st.core.toList ++ [] := by simpa [Stmt.text_eq, hc] using hs
    obtain ⟨ts, t, hts, ht, hl, hd⟩ := stmtSpelled st h hs' (by simp)
    exact ⟨ts, t, hts, ht, hl, .stmtsLast hd⟩

variable {separator : String} {body : List Stmt}

theorem scans_lines : (ss : List Stmt) → PrintableStmts ss →
    (∀ st ∈ ss.dropLast, LineScans separator.toList st) → (s : Scanner) →
    s.rest = (joined separator (stmtTexts ss)).toList → ∃ ts t, Scans s ts t ∧ t.rest = [] ∧
      ShortLiterals ts ∧ Derives (.stmts ss) ts
  | [], _, _, s, hs => ⟨[], s, .nil s, hs, by simp [ShortLiterals], .stmtsNil⟩
  | [_], h, _, _, hs => scans_lastLine h.1 hs
  | st :: st' :: ss, h, hline, s, hs => by
    have hs' : s.rest = st.text.toList ++
        (separator.toList ++ (joined separator (stmtTexts (st' :: ss))).toList) := by
      simpa [stmtTexts, joined] using hs
    obtain ⟨ts, c, t, hd, hk, hl, ht, hscan⟩ := hline st (by simp) hs'
    obtain ⟨us, u, hus, hu, hl', hd'⟩ :=
      scans_lines (st' :: ss) h.2 (fun st hst => hline st (List.mem_cons_of_mem _ hst)) t ht
    refine ⟨ts ++ c :: us, u, hscan us u hd'.stmts_ne_nil hus, hu, ?_, .stmtsCons hd hk hd'⟩
    simpa using hl.append hl'

/-- The tokens of statements with a separator between them spell the statements, if each one but the
last is read with its end in front of the separator. -/
theorem spells_lines (h : PrintableStmts body)
    (hline : ∀ st ∈ body.dropLast, LineScans separator.toList st) :
    ShortLiterals (tokenize (joined separator (stmtTexts body))) ∧
      Spells (tokenize (joined separator (stmtTexts body))) body := by
  obtain ⟨ts, t, hts, ht, hl, hd⟩ :=
    scans_lines body h hline (.ofText (joined separator (stmtTexts body))) rfl
  obtain ⟨e, he, hk⟩ := hts.tokens_eq ht (Nat.le_refl _)
  have htok : tokenize (joined separator (stmtTexts body)) = ts ++ [e] := he
  rw [htok]
  exact ⟨hl.append (by simp [ShortLiterals, hk]), ts, e, rfl, hk, hd⟩

/-- The canonical text of a program, a statement a line, is read as the program, unless its nesting
is too much for the depth: then there is no program and the last error says so. Twice as much depth
as there are tokens is always enough. -/
theorem parse_sourceText (body : List Stmt) (h : PrintableStmts body) :
    (∀ depth, parse depth (sourceText body) = .ok ⟨body, []⟩ ∨ ∃ errors pos,
      parse depth (sourceText body) = .ok ⟨[], errors ++ [⟨pos, .tooDeep⟩]⟩) ∧
    ∀ depth, 2 * (tokenize (sourceText body)).length ≤ depth →
      parse depth (sourceText body) = .ok ⟨body, []⟩ := by
  have hline : ∀ st ∈ body.dropLast, LineScans "\n".toList st := fun st hst =>
    lineScans_newline (h.mem st (List.mem_of_mem_dropLast hst))
  obtain ⟨hs, hsp⟩ := spells_lines h hline
  exact parse_of_spells hs hsp

/-- Statements that start with a conditional that is called, with a function that is indexed, and
with a brace. -/
theorem parse_sourceText_leading_braces :
    PrintableStmts [.expr (.call (.ifThen (.bool true) [] none) [.int 1]),
      .expr (.index (.function ["a"] []) (.hashmap [])), .block [.ret (.string "b")]] ∧
    parse 200 (sourceText [.expr (.call (.ifThen (.bool true) [] none) [.int 1]),
      .expr (.index (.function ["a"] []) (.hashmap [])), .block [.ret (.string "b")]]) =
      .ok ⟨[.expr (.call (.ifThen (.bool true) [] none) [.int 1]),
        .expr (.index (.function ["a"] []) (.hashmap [])), .block [.ret (.string "b")]], []⟩ := by
  have hp : PrintableStmts [.expr (.call (.ifThen (.bool true) [] none) [.int 1]),
      .expr (.index (.function ["a"] []) (.hashmap [])), .block [.ret (.string "b")]] := by
    simp [PrintableStmts, Stmt.Printable, Expr.Printable, PrintableExprs, PrintablePairs,
      Number.maxWord]
    exact ⟨'a', [], rfl, by decide, by simp, by decide⟩
  exact ⟨hp, (parse_sourceText _ hp).2 200 (by cbv)⟩

/-! ### Nesting without end -/

/-- An expression behind a number of minus signs. -/
def negated : Nat → Expr → Expr
  | 0, e => e
  | n + 1, e => .unary .neg (negated n e)

theorem printable_negated (n : Nat) (h : e.Printable) : (negated n e).Printable := by
  induction n with
  | zero => exact h
  | succ n ih => exact ⟨trivial, ih⟩

/-- Each minus sign is written behind a parenthesis of its own. -/
theorem spelled_negated (n : Nat) {name : String} (h : IsName name) :
    Spelled endsWord (negated n (.ident name)).text.toList fun ts =>
      ∃ us vs, ts = us ++ vs ∧ us.length = 2 * n ∧ vs ≠ [] ∧ ∀ t ∈ us, Parser.Opens t.kind := by
  induction n with
  | zero =>
    refine h.spelled.mono ?_
    rintro _ ⟨t, rfl, -⟩
    exact ⟨[], [t], rfl, rfl, by simp, by simp⟩
  | succ n ih =>
    have hs := ((ih.concat isSymbol_rparen).cons isSymbol_minus).cons isSymbol_lparen
    have ht : (negated (n + 1) (.ident name)).text.toList =
        '(' :: '-' :: ((negated n (.ident name)).text.toList ++ [')']) := by
      simp [negated, Expr.text, PrefixOp.text]
    rw [ht]
    refine (hs.weaken fun _ _ => rfl).mono ?_
    rintro _ ⟨o, _, rfl, ho, m, _, rfl, hm, _, c, rfl, ⟨us, vs, rfl, hl, -, hu⟩, -⟩
    refine ⟨o :: m :: us, vs ++ [c], by simp, by simp; omega, by simp, ?_⟩
    rintro t (_ | ⟨_, _ | ⟨_, ht⟩⟩)
    · exact .inl ho
    · exact .inr (.inl hm)
    · exact hu t ht

theorem exhausts_negated {n depth : Nat} {name : String} (h : IsName name) (hn : 0 < n)
    (hd : depth ≤ 2 * n + 1) :
    Parser.Exhausts depth (tokenize (sourceText [.expr (negated n (.ident name))])) := by
  have hs : (Scanner.ofText (sourceText [.expr (negated n (.ident name))])).rest =
      (negated n (.ident name)).text.toList ++ [] := by
    simp [sourceText, stmtTexts, joined, Stmt.text, Scanner.ofText]
  obtain ⟨_, t, hts, ht, -, us, vs, rfl, hl, hv, hu⟩ := spelled_negated n h hs (by simp)
  obtain ⟨e, he, -⟩ := hts.tokens_eq ht (Nat.le_refl _)
  have htok : tokenize (sourceText [.expr (negated n (.ident name))]) = us ++ (vs ++ [e]) :=
    he.trans (List.append_assoc us vs [e])
  rw [htok]
  refine Parser.exhausts_of_opens hu (by omega) ?_ (by simp)
  rintro rfl
  simp at hl
  omega

/-- With three thousand minus signs the canonical text is not read back. -/
theorem parse_sourceText_negated_ne :
    PrintableStmts [.expr (negated 3000 (.ident "x"))] ∧
    parse defaultDepth (sourceText [.expr (negated 3000 (.ident "x"))]) ≠
      .ok ⟨[.expr (negated 3000 (.ident "x"))], []⟩ := by
  have hx : IsName "x" := ⟨'x', [], rfl, by decide, by simp, by decide⟩
  refine ⟨⟨printable_negated 3000 hx, trivial⟩, fun h => ?_⟩
  have hd : defaultDepth ≤ 2 * 3000 + 1 := by decide
  obtain ⟨errors, pos, hp⟩ := parse_of_exhausts (exhausts_negated hx (by decide) hd)
  rw [h] at hp
  simp at hp

end Scriptlet
