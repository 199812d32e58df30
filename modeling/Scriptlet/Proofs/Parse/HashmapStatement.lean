import Scriptlet.Proofs.Parse.Acceptance
import Scriptlet.Proofs.Parse.Deeper
import Scriptlet.Proofs.Parse.Moved
import Scriptlet.Proofs.Parse.Recovery
import Scriptlet.Proofs.Syntax.Printable

/-!
A hashmap at the start of a statement. There its first key is read as a statement, before the colon
shows that it is a key; and what is read is the expression that is read anywhere else.
-/

namespace Scriptlet

namespace Parser

variable {α : Type} {s t u : State} {p : Parser α} {r : Rules} {e key : Expr} {n : Nat}

theorem attempt_of_ok {a : α} (h : p s = .ok a t) : attempt p s = .ok (some a) t := by
  simp only [attempt, h]

theorem Equivariant.of_ok {m : Move} {a : α} (h : Equivariant m p) (hp : p (s.moved m) = .ok a t) :
    ∃ t', p s = .ok a t' ∧ t = t'.moved m := by
  rw [h s] at hp
  cases hs : p s with
  | ok a' t' =>
    rw [hs] at hp
    cases hp
    exact ⟨t', rfl, rfl⟩
  | error e t' =>
    rw [hs] at hp
    cases hp

/-- If no error is found in all, none is found in the first part. -/
theorem Steps.clean (h : Steps s t) (h' : Steps t u) (he : u.errors = s.errors) :
    t.errors = s.errors :=
  (h.errors_prefix.eq_of_length_le (he ▸ h'.errors_length)).symm

/-- No expression starts with the keyword of a return or with a semicolon. -/
theorem current_of_expression (h : (rules n).expression Power.lowest s = .ok e t) :
    s.current.kind ≠ .kwReturn ∧ s.current.kind ≠ .semicolon := by
  cases n with
  | zero => cases h
  | succ n =>
    obtain ⟨left, u, hleft, -⟩ := bind_eq_ok.mp h
    simp only [Rules.operand, current_bind] at hleft
    constructor <;>
    · intro hk
      rw [hk] at hleft
      cases hleft

/-- Behind a name that stands in front of an equality sign an expression ends. -/
theorem expression_before_assign (h : (rules n).expression Power.lowest s = .ok e t)
    (hk : s.current.kind = .ident) (hp : s.peek.kind = .assign) : t = s := by
  cases n with
  | zero => cases h
  | succ n =>
    obtain ⟨left, u, hleft, hchain⟩ := bind_eq_ok.mp h
    simp only [Rules.operand, current_bind, hk] at hleft
    cases hleft
    rw [Rules.expressionFrom, ahead_bind] at hchain
    cases hl : s.rest.length with
    | zero =>
      rw [hl] at hchain
      cases hchain
      rfl
    | succ m =>
      simp only [hl, Rules.chain, peek_bind, hp] at hchain
      cases hchain
      rfl

theorem peek_of_hashmapFrom (h : r.hashmapFrom key s = .ok e t) : s.peek.kind = .colon := by
  obtain ⟨pair, u, hpair, -⟩ := bind_eq_ok.mp h
  obtain ⟨_, v, hv, -⟩ := bind_eq_ok.mp hpair
  by_contra hk
  rw [expect_apply, if_neg hk] at hv
  cases hv

/-- Where a hashmap and what follows it are read as an expression, they are read as a statement, if
the first keys of hashmaps are. -/
theorem braced_of_hashmap (hs : (rules n).hashmap s = .ok key u)
    (hu : (rules n).expressionFrom Power.lowest key u = .ok e t) (he : t.errors = s.errors)
    (hkey : ∀ {k : Expr} {v w : State}, (rules n).expression Power.lowest v = .ok k w →
      w.errors = v.errors → w.peek.kind ≠ .assign → (rules (n + 1)).statement v = .ok (.expr k) w) :
    (rules (n + 1)).braced s = .ok (.expr e) t := by
  have hw := deepens_rules n
  have hsound := sound_rules n
  have htail {k : Expr} {v : State} (hv : (rules n).expressionFrom Power.lowest k v = .ok e t) :
      ((rules (n + 1)).expressionFrom Power.lowest k >>= fun e => pure (Stmt.expr e)) v =
        .ok (.expr e) t :=
    bind_eq_ok.mpr ⟨e, t, (Rules.deepens_expressionFrom hw _ _).ok hv, rfl⟩
  obtain ⟨_, v, hv, hs⟩ := bind_eq_ok.mp hs
  rw [Rules.braced]
  refine bind_eq_ok.mpr ⟨(), v, hv, ?_⟩
  rw [peek_bind] at hs ⊢
  split at hs
  · next hk =>
    rw [if_pos hk]
    cases hs
    exact htail hu
  · next hk =>
    rw [if_neg hk]
    obtain ⟨first, w, hfirst, hfrom⟩ := bind_eq_ok.mp (show ((rules n).expression Power.lowest >>=
      (rules n).hashmapFrom) v.advance = _ from hs)
    have hcolon := peek_of_hashmapFrom hfrom
    -- no error is found on the way
    have hvs : Steps s v.advance :=
      (ensures_skipLineEnds.steps hv).trans (steps_advance v)
    have hwt : Steps w t := ((Rules.ensures_hashmapFrom hsound first).steps hfrom).trans
      ((Rules.ensures_expressionFrom hsound _ _).steps hu)
    have hstep := (hsound.expression _).steps hfirst
    have herr : w.errors = v.advance.errors :=
      hstep.clean hwt (he.trans (hvs.clean (hstep.trans hwt) he).symm)
    rw [advance_bind, current_bind, if_neg (current_of_expression hfirst).2]
    have hattempt := attempt_of_ok (hkey hfirst herr (by simp [hcolon]))
    refine bind_eq_ok.mpr ⟨some (.expr first), w, hattempt, ?_⟩
    simp only [peek_bind, hcolon]
    exact bind_eq_ok.mpr ⟨key, u, (Rules.deepens_hashmapFrom hw first).ok hfrom, htail hu⟩

/-- What is read as an expression without an error is read as a statement, unless it is the name in
an assignment. -/
theorem statement_of_expression (h : (rules n).expression Power.lowest s = .ok e t)
    (he : t.errors = s.errors) (hk : t.peek.kind ≠ .assign) :
    (rules (n + 1)).statement s = .ok (.expr e) t := by
  induction n generalizing s t e with
  | zero => cases h
  | succ n ih =>
    have hreturn := (current_of_expression h).1
    have hassign : ¬ (s.current.kind = .ident ∧ s.peek.kind = .assign) := by
      rintro ⟨hc, hp⟩
      exact hk (expression_before_assign h hc hp ▸ hp)
    obtain ⟨left, u, hleft, hu⟩ := bind_eq_ok.mp h
    have hexpr : ((rules (n + 1)).expression Power.lowest >>= fun e => pure (Stmt.expr e)) s =
        .ok (.expr e) t := bind_eq_ok.mpr ⟨e, t, h, rfl⟩
    change (rules (n + 1)).statementRule s = _
    simp only [Rules.statementRule, current_bind]
    simp only [Rules.operand, current_bind] at hleft
    generalize s.current.kind = k at hreturn hassign hleft
    split
    · exact absurd rfl hreturn
    · exact braced_of_hashmap hleft hu he ih
    · rw [peek_bind, if_neg (by simpa using hassign)]
      exact hexpr

/-! ### Programs of one statement -/

variable {d : Nat} {st other : Stmt} {o : Option Stmt} {x y : Token} {us ts : List Token}
  {name : String} {m : Move}

theorem not_lt_of_errors (he : t.errors = s.errors) :
    ¬ s.errors.length < t.errors.length := by
  rw [he]
  exact Nat.lt_irrefl _

/-- The end of a statement does not depend on the statement. -/
theorem terminate_of_clean (h : Rules.terminate (some st) s = .ok o t) (he : t.errors = s.errors) :
    o = some st ∧ (s.peek.kind = .semicolon ∨ s.peek.kind = .rbrace ∨ s.peek.kind = .eof) ∧
      ∀ other, Rules.terminate (some other) s = .ok (some other) t := by
  simp only [Rules.terminate, peek_bind] at h ⊢
  generalize s.peek.kind = k at h
  split at h
  · cases h
    exact ⟨rfl, by simp, fun _ => rfl⟩
  · cases h
    exact ⟨rfl, by simp, fun _ => rfl⟩
  · cases h
    exact ⟨rfl, by simp, fun _ => rfl⟩
  · exfalso
    rw [record_bind, advance_bind] at h
    obtain ⟨_, v, hv, hret⟩ := bind_eq_ok.mp h
    cases hret
    have hlen := (ensures_synchronize.steps hv).errors_length
    simp [he] at hlen

/-- What is read from the first token on, without an error: a statement, its end, and what
follows. -/
theorem run_of_clean_cons (hl : Lexed ts) (hk : ¬ Rules.EndsStmts (State.ofTokens ts).current.kind)
    (hs : (State.ofTokens ts).current.kind ≠ .semicolon) {body : List Stmt}
    (h : run d ts = .ok body t) (he : t.errors = []) :
    ∃ st u v n rest, (rules d).statement (.ofTokens ts) = .ok st u ∧ u.errors = [] ∧
      Rules.terminate (some st) u = .ok (some st) v ∧ v.errors = [] ∧ v.rest.length ≤ n ∧
      (rules d).program n false v = .ok rest t ∧ body = st :: rest := by
  have hsound := sound_rules d
  obtain ⟨n, hn, hrun⟩ := run_eq (d := d) hl hk
  rw [hrun] at h
  obtain ⟨o, v, ho, h⟩ := bind_eq_ok.mp h
  rw [get_bind] at h
  obtain ⟨rest, w, hrest, hbody⟩ := bind_eq_ok.mp h
  cases hbody
  have hlt := Rules.terminated_rest_lt hsound hl.good_ofTokens (fun h => hk (.inl h))
    (fun h => hk (.inr h)) ho
  have hsv := (Rules.ensures_terminated hsound).steps ho
  have hvt := (Rules.ensures_program hsound _ _).steps hrest
  have hs0 := ofTokens_errors ts
  have hv0 : v.errors = [] := (hsv.clean hvt (he.trans hs0.symm)).trans hs0
  rw [Rules.terminated, current_bind, if_neg hs] at ho
  obtain ⟨first, u, hfirst, ho⟩ := bind_eq_ok.mp ho
  have hsu := hsound.statement.attempt.steps hfirst
  have huv := (Rules.ensures_terminate first).steps ho
  have hu0 : u.errors = [] := (hsu.clean huv (hv0.trans hs0.symm)).trans hs0
  -- the statement has not failed
  obtain ⟨st, rfl, hst⟩ :
      ∃ st, first = some st ∧ (rules d).statement (.ofTokens ts) = .ok st u := by
    have hends := hsound.statement (.ofTokens ts)
    unfold attempt at hfirst
    cases hres : (rules d).statement (.ofTokens ts) with
    | ok st u' =>
      rw [hres] at hfirst
      cases hfirst
      exact ⟨st, rfl, rfl⟩
    | error stop u' =>
      rw [hres] at hfirst hends
      cases stop with
      | failed =>
        cases hfirst
        exact absurd hends.2 (not_lt_of_errors (hu0.trans hs0.symm))
      | tooDeep => cases hfirst
      | literalTooLong _ => cases hfirst
  obtain ⟨rfl, -, -⟩ := terminate_of_clean ho (hv0.trans hu0.symm)
  rw [hs0, hv0] at hrest
  exact ⟨st, u, v, n, rest, hst, hu0, ho, hv0, by omega, hrest, rfl⟩

/-- The value of an assignment, read from its own tokens as a statement. -/
theorem statement_of_assigned (hx : x.kind = .ident) (hy : y.kind = .assign)
    (h : (rules d).statement (.ofTokens (x :: y :: us)) = .ok (.assign name e) u) (hn : us ≠ [])
    (he : u.errors = []) (hk : u.peek.kind ≠ .assign) :
    ∃ u', (rules d).statement (.ofTokens us) = .ok (.expr e) u' ∧ u = u'.moved ⟨id, [], 2⟩ := by
  obtain ⟨c, cs, rfl⟩ := List.exists_cons_of_ne_nil hn
  have hid : Token.moved id = id := rfl
  have hmoved : (State.ofTokens (x :: y :: c :: cs)).advance.advance =
      (State.ofTokens (c :: cs)).moved ⟨id, [], 2⟩ := by
    simp [State.ofTokens, State.advance, State.moved, hid]
  cases d with
  | zero => cases h
  | succ d =>
    change (rules d).statementRule _ = _ at h
    have hcur : (State.ofTokens (x :: y :: c :: cs)).current.kind = .ident := hx
    have hnext : (State.ofTokens (x :: y :: c :: cs)).peek.kind = .assign := hy
    simp only [Rules.statementRule, current_bind, hcur, peek_bind, hnext, decide_true,
      Bool.and_self, if_true, advance_bind, hmoved] at h
    obtain ⟨value, w, hvalue, hret⟩ := bind_eq_ok.mp h
    cases hret
    obtain ⟨w', hw, rfl⟩ := ((equivariant_rules d).expression _).of_ok hvalue
    refine ⟨w', statement_of_expression hw ?_ ?_, rfl⟩
    · simpa [State.moved, ofTokens_errors] using he
    · rwa [peek_moved] at hk

/-- The value of an assignment that is the whole program is the whole program alone, if it starts
with a brace. -/
theorem run_of_assigned (hx : x.kind = .ident) (hy : y.kind = .assign) (hl : Lexed (x :: y :: us))
    (hus : Lexed us) (hb : ∀ c ∈ us.head?, c.kind = .lbrace)
    (h : run d (x :: y :: us) = .ok [.assign name e] t) (he : t.errors = []) :
    ∃ u, run d us = .ok [.expr e] u ∧ u.errors = [] := by
  have hsound := sound_rules d
  have hclean {w : State} (hw : (w.moved ⟨id, [], 2⟩).errors = []) : w.errors = [] := by
    simpa [State.moved] using hw
  obtain ⟨st, u, v, n, rest, hst, hu, hend, hv, hn, hrest, hbody⟩ := run_of_clean_cons hl
    (by simp [Rules.EndsStmts, State.ofTokens, hx]) (by simp [State.ofTokens, hx]) h he
  obtain ⟨rfl, rfl⟩ : st = .assign name e ∧ rest = [] := by simpa [eq_comm] using hbody
  obtain ⟨-, hpeek, hterm⟩ := terminate_of_clean hend (hv.trans hu.symm)
  -- what follows the equality sign is read alike from its own tokens
  obtain ⟨u', hexpr, rfl⟩ := statement_of_assigned hx hy hst hus.ne_nil hu
    (by rcases hpeek with h | h | h <;> simp [h])
  obtain ⟨v', hend', rfl⟩ := (Rules.equivariant_terminate _).of_ok (hterm (.expr e))
  obtain ⟨w, hw, rfl⟩ :=
    (Rules.equivariant_program (equivariant_rules d).statement n false).of_ok hrest
  have hkind : (State.ofTokens us).current.kind = .lbrace := by
    obtain ⟨c, cs, rfl⟩ := List.exists_cons_of_ne_nil hus.ne_nil
    exact hb c rfl
  have hnot : ¬ Rules.EndsStmts (State.ofTokens us).current.kind := by
    simp [Rules.EndsStmts, hkind]
  have hfirst : (rules d).terminated (.ofTokens us) = .ok (some (.expr e)) v' := by
    rw [Rules.terminated, current_bind, if_neg (by simp [hkind])]
    exact bind_eq_ok.mpr ⟨_, u', attempt_of_ok hexpr, hend'⟩
  have hlt := Rules.terminated_rest_lt hsound hus.good_ofTokens (fun h => hnot (.inl h))
    (fun h => hnot (.inr h)) hfirst
  obtain ⟨k, hk, hrun⟩ := run_eq (d := d) hus hnot
  have hgood : v'.Good := ((Rules.ensures_terminated hsound).steps hfirst).good hus.good_ofTokens
  have hlen : v'.rest.length ≤ n := by simpa [State.moved] using hn
  have hfuel := (Rules.fueled_program hsound false).eq hgood hlen (show v'.rest.length ≤ k by omega)
  refine ⟨w, ?_, hclean he⟩
  rw [hrun]
  refine bind_eq_ok.mpr ⟨_, v', hfirst, ?_⟩
  rw [get_bind, hclean hv, ofTokens_errors]
  exact bind_eq_ok.mpr ⟨[], w, hfuel ▸ hw, rfl⟩

end Parser

open Scanner in
/-- The tokens of an assignment to a name, whose value starts with a brace. -/
theorem tokenize_assignment {name value : String} (hname : IsName name)
    (hvalue : value.toList.head? = some '{') : ∃ x y us,
      tokenize (name ++ " = " ++ value) = x :: y :: us ∧ x.kind = .ident ∧ y.kind = .assign ∧
        Alike us (tokenize value) := by
  obtain ⟨c, cs, hcs, hc, hword, hident⟩ := hname
  obtain ⟨ds, hds⟩ := List.head?_eq_some_iff.mp hvalue
  have hequals : Spelled (fun d => (Kind.ofPair? '=' d).isNone) [' ', '='] (One .assign "=") :=
    (spelled_symbol (c := '=') rfl).space (by rintro _ ⟨t, rfl, -⟩; simp)
  have hspelled := (spelled_word hc hword).append hequals ⟨' ', ['='], rfl, rfl⟩
  let s := Scanner.ofText (name ++ " = " ++ value)
  have hs : s.rest = c :: cs ++ [' ', '='] ++ ' ' :: '{' :: ds := by
    simp [s, Scanner.ofText, hcs, hds]
  obtain ⟨_, t, hscans, ht, -, _, _, rfl, ⟨x, rfl, hx, -⟩, y, rfl, hy, -⟩ :=
    hspelled hs (by simp [Kind.ofPair?])
  have habreast : Abreast t (.ofText value) :=
    (abreast_of_head (s := t.step ('{' :: ds)) rfl hds rfl).of_next (next_space ht)
  have hlen : (Scanner.ofText value).rest.length ≤ t.rest.length := by
    simp [Scanner.ofText, hds, ht]
  obtain ⟨us, hus, halike⟩ := hscans.tokens_alike habreast (Nat.le_refl _) (Nat.le_refl _) hlen
  exact ⟨x, y, us, hus, hx.trans (hcs ▸ hident), hy, halike⟩

open Scanner in
theorem tokenize_lbrace {value : String} (hvalue : value.toList.head? = some '{') :
    ∃ c cs, tokenize value = c :: cs ∧ c.kind = .lbrace := by
  obtain ⟨ds, hds⟩ := List.head?_eq_some_iff.mp hvalue
  have hnext : (Scanner.ofText value).NextIs .lbrace "\x7b" ds :=
    nextIs_symbol (c := '{') rfl hds fun d _ => Kind.ofPair?_of_first rfl d
  have hlen : (Scanner.ofText value).rest.length = ds.length + 1 := by simp [Scanner.ofText, hds]
  exact ⟨_, _, by simp only [tokenize, hlen, tokens, hnext.kind, reduceCtorEq, if_false]; rfl,
    hnext.kind⟩

/-- Where an expression that starts with a brace can be assigned to a name, it is a statement by
itself. -/
theorem parse_of_parse_assignment {d : Nat} {name value : String} {e : Expr} (hname : IsName name)
    (hvalue : value.toList.head? = some '{')
    (h : parse d (name ++ " = " ++ value) = .ok ⟨[.assign name e], []⟩) :
    parse d value = .ok ⟨[.expr e], []⟩ := by
  obtain ⟨x, y, us, hus, hx, hy, halike⟩ := tokenize_assignment hname hvalue
  obtain ⟨t, ht, he⟩ := parse_eq_ok_iff.mp h
  have hlexed := lexed_tokenize (name ++ " = " ++ value)
  have hplaces := pairwise_tokenize (name ++ " = " ++ value)
  rw [hus] at ht hlexed hplaces
  -- the tokens behind the equality sign start with the brace
  obtain ⟨c, cs, hc, hbrace⟩ := tokenize_lbrace hvalue
  obtain ⟨c', cs', rfl, hc', -⟩ := alike_cons.mp (hc ▸ halike)
  have hlbrace : c'.kind = .lbrace := Token.kind_eq_of_face hc' hbrace
  have hvalues : Lexed (c' :: cs') := (hlexed.tail (by simp)).tail (by simp)
  obtain ⟨u, hu, hu'⟩ := Parser.run_of_assigned hx hy hlexed hvalues (by simpa using hlbrace) ht he
  refine parse_eq_ok_iff.mpr (Parser.run_of_alike halike ?_ (by simp) hu hu')
  exact ((List.pairwise_cons.mp (List.pairwise_cons.mp hplaces).2).2).imp fun h => h.ne

/-- The first key starts with a brace itself, and an index and a call come behind the hashmap. -/
theorem parse_of_parse_assignment_nested_key :
    IsName "x" ∧ "{{1: 2}[1]: f}[2](3)".toList.head? = some '{' ∧
    ∃ e, parse 20 ("x" ++ " = " ++ "{{1: 2}[1]: f}[2](3)") = .ok ⟨[.assign "x" e], []⟩ ∧
      parse 20 "{{1: 2}[1]: f}[2](3)" = .ok ⟨[.expr e], []⟩ := by
  have hname : IsName "x" := ⟨'x', [], rfl, rfl, by simp, rfl⟩
  have hp : parse 20 ("x" ++ " = " ++ "{{1: 2}[1]: f}[2](3)") = .ok ⟨[.assign "x" (.call (.index
      (.hashmap [(.index (.hashmap [(.int 1, .int 2)]) (.int 1), .ident "f")]) (.int 2))
      [.int 3])], []⟩ := by cbv
  exact ⟨hname, rfl, _, hp, parse_of_parse_assignment hname rfl hp⟩

end Scriptlet
