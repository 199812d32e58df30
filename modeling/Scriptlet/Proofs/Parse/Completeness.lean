import Scriptlet.Proofs.Parse.Soundness

/-!
What the grammar derives is read. The rule for a phrase reads its tokens and none behind them, and
it records no error, whatever the depth, unless it stops for want of depth or at too long an
integer.
-/

namespace Scriptlet.Parser

variable {α β : Type} {s t : State} {p : Parser α} {f : α → Parser β} {a : α} {c x : Token}
  {ts us nl : List Token} {er : List SyntaxError} {r : Rules} {res : EStateM.Result Stop State α}

/-! ### Runs that reach something -/

/-- A run that ended for another reason than the syntax of its tokens. -/
def Stops : EStateM.Result Stop State α → Prop
  | .ok _ _ => False
  | .error .failed _ => False
  | .error _ _ => True

/-- A run gives a result in the relation, unless it stops. -/
def Reaches (R : α → State → Prop) : EStateM.Result Stop State α → Prop
  | .ok a t => R a t
  | .error .failed _ => False
  | .error _ _ => True

/-- The tokens that are ahead of a reader, and the errors it has found. -/
structure Ahead (s : State) (ts : List Token) (er : List SyntaxError) : Prop where
  rest : s.rest = ts
  errors : s.errors = er
  good : s.Good

/-- The tokens from the one that a reader stands on, and the errors it has found. -/
structure On (s : State) (ts : List Token) (er : List SyntaxError) : Prop where
  tokens : s.tokens = ts
  errors : s.errors = er
  good : s.Good

/-- A run gives the result and has the tokens ahead, unless it stops. -/
abbrev Arrives (a : α) (ts : List Token) (er : List SyntaxError)
    (res : EStateM.Result Stop State α) : Prop :=
  Reaches (fun b t => b = a ∧ Ahead t ts er) res

/-- A run gives the result and stands on the first of the tokens, unless it stops. -/
abbrev ArrivesOn (a : α) (ts : List Token) (er : List SyntaxError)
    (res : EStateM.Result Stop State α) : Prop :=
  Reaches (fun b t => b = a ∧ On t ts er) res

theorem On.current (h : On s (c :: ts) er) : s.current = c := (List.cons.inj h.tokens).1

theorem On.ahead (h : On s (c :: ts) er) : Ahead s ts er :=
  ⟨(List.cons.inj h.tokens).2, h.errors, h.good⟩

theorem Ahead.peek (h : Ahead s (c :: ts) er) : s.peek = c := by
  simp [State.peek, h.rest]

theorem Reaches.bind {R : α → State → Prop} {R' : β → State → Prop} (hp : Reaches R (p s))
    (hf : ∀ a t, R a t → Reaches R' (f a t)) : Reaches R' ((p >>= f) s) := by
  rw [bind_apply]
  generalize p s = res at hp
  match res, hp with
  | .ok a t, h => exact hf a t h
  | .error .tooDeep _, _ => trivial
  | .error (.literalTooLong _) _, _ => trivial

theorem Reaches.mono {R R' : α → State → Prop} (h : Reaches R res) (hR : ∀ a t, R a t → R' a t) :
    Reaches R' res := by
  match res, h with
  | .ok a t, h => exact hR a t h
  | .error .tooDeep _, _ => trivial
  | .error (.literalTooLong _) _, _ => trivial

theorem Arrives.bind {R : β → State → Prop} (hp : Arrives a ts er (p s))
    (hf : ∀ t, Ahead t ts er → Reaches R (f a t)) : Reaches R ((p >>= f) s) :=
  Reaches.bind hp fun _ t h => h.1 ▸ hf t h.2

theorem ArrivesOn.bind {R : β → State → Prop} (hp : ArrivesOn a ts er (p s))
    (hf : ∀ t, On t ts er → Reaches R (f a t)) : Reaches R ((p >>= f) s) :=
  Reaches.bind hp fun _ t h => h.1 ▸ hf t h.2

theorem arrives_pure (h : Ahead s ts er) : Arrives a ts er ((pure a : Parser α) s) := ⟨rfl, h⟩

theorem on_advance (h : Ahead s ts er) (hs : ts ≠ []) : On s.advance ts er := by
  obtain ⟨c, cs, rfl⟩ := List.exists_cons_of_ne_nil hs
  exact ⟨by simp [State.tokens, h.rest, h.peek], by simp [h.errors], h.good.advance⟩

theorem arrivesOn_advance (h : Ahead s ts er) (hs : ts ≠ []) : ArrivesOn () ts er (advance s) :=
  ⟨rfl, on_advance h hs⟩

theorem arrivesOn_expect {kind : Kind} (h : Ahead s (c :: ts) er) (hk : c.kind = kind) :
    ArrivesOn () (c :: ts) er (expect kind s) := by
  rw [expect_apply, if_pos (by rw [h.peek, hk])]
  exact ⟨rfl, on_advance h (by simp)⟩

theorem arrives_skipLineEndsUpTo (n : Nat) (h : Ahead s (nl ++ c :: ts) er) (hd : Dropped nl)
    (hc : c.isLineEnd = false) (hn : nl.length ≤ n) :
    Arrives () (c :: ts) er (skipLineEndsUpTo n s) := by
  induction n generalizing s nl with
  | zero =>
    obtain rfl := List.eq_nil_of_length_eq_zero (Nat.le_zero.mp hn)
    exact arrives_pure h
  | succ n ih =>
    rw [skipLineEndsUpTo, peek_bind]
    cases nl with
    | nil =>
      rw [h.peek, hc]
      exact arrives_pure h
    | cons d nl =>
      rw [List.cons_append] at h
      rw [h.peek, hd d (by simp)]
      refine (arrivesOn_advance h (by simp)).bind fun t ht => ?_
      exact ih ht.ahead (fun e he => hd e (by simp [he])) (by simpa using hn)

theorem arrives_skipLineEnds (h : Ahead s (nl ++ c :: ts) er) (hd : Dropped nl)
    (hc : c.isLineEnd = false) : Arrives () (c :: ts) er (skipLineEnds s) :=
  arrives_skipLineEndsUpTo s.rest.length h hd hc (by simp [h.rest])

theorem arrives_skipLineEnds_none (h : Ahead s (c :: ts) er) (hc : c.isLineEnd = false) :
    Arrives () (c :: ts) er (skipLineEnds s) :=
  arrives_skipLineEnds h dropped_nil hc

theorem Arrives.attempt (h : Arrives a ts er (p s)) : Arrives (some a) ts er (attempt p s) := by
  unfold Parser.attempt
  generalize p s = res at h
  match res, h with
  | .ok _ _, ⟨rfl, h⟩ => exact ⟨rfl, h⟩
  | .error .tooDeep _, _ => trivial
  | .error (.literalTooLong _) _, _ => trivial

/-! ### Operators behind an operand -/

variable {e e' left : Expr} {o : Token} {l n power : Nat} {g : Expr → α}

/-- A run has come to the operators behind an operand, unless it stops. -/
inductive Leads (r : Rules) (power : Nat) (g : Expr → α) (e : Expr) (ts : List Token)
    (er : List SyntaxError) : EStateM.Result Stop State α → Prop where
  | stops {res : EStateM.Result Stop State α} (h : Stops res) : Leads r power g e ts er res
  | chain {t : State} {m : Nat} (h : Ahead t ts er) (hm : ts.length ≤ m) :
    Leads r power g e ts er ((r.chain power m e >>= fun e => pure (g e)) t)

theorem leads_expressionFrom (h : Ahead s ts er) :
    Leads r power g e ts er ((r.expressionFrom power e >>= fun e => pure (g e)) s) := by
  have hc : r.expressionFrom power e s = r.chain power s.rest.length e s := rfl
  rw [bind_apply, hc, ← bind_apply]
  exact .chain h (by simp [h.rest])

theorem Reaches.leads {R : α → State → Prop} {f : α → Parser β} {g : Expr → β}
    (h : Reaches R (p s)) (hf : ∀ a t, R a t → Leads r power g e ts er (f a t)) :
    Leads r power g e ts er ((p >>= f) s) := by
  rw [bind_apply]
  generalize p s = res at h
  match res, h with
  | .ok a t, h => exact hf a t h
  | .error .tooDeep _, _ => exact .stops trivial
  | .error (.literalTooLong _) _, _ => exact .stops trivial

theorem Arrives.leads {us : List Token} {fs : List SyntaxError} {a : α} {f : α → Parser β}
    {g : Expr → β} (hp : Arrives a us fs (p s))
    (hf : ∀ t, Ahead t us fs → Leads r power g e ts er (f a t)) :
    Leads r power g e ts er ((p >>= f) s) :=
  Reaches.leads hp fun _ t h => h.1 ▸ hf t h.2

theorem ArrivesOn.leads {us : List Token} {fs : List SyntaxError} {a : α} {f : α → Parser β}
    {g : Expr → β} (hp : ArrivesOn a us fs (p s))
    (hf : ∀ t, On t us fs → Leads r power g e ts er (f a t)) :
    Leads r power g e ts er ((p >>= f) s) :=
  Reaches.leads hp fun _ t h => h.1 ▸ hf t h.2

/-- An operator that binds more strongly than the power is read with what belongs to it. -/
theorem Leads.step (h : Leads r power g left (o :: us) er res) (hp : power < o.kind.power)
    (hl : ts.length ≤ us.length)
    (hx : ∀ t, On t (o :: us) er → Arrives e ts er (r.extend left t)) :
    Leads r power g e ts er res := by
  cases h with
  | stops h => exact .stops h
  | @chain t m ht hm =>
    obtain ⟨m, rfl⟩ : ∃ k, m = k + 1 := ⟨m - 1, by simp at hm; omega⟩
    simp only [List.length_cons, Nat.add_le_add_iff_right] at hm
    have ha := hx _ (on_advance ht (by simp))
    have hc : r.chain power (m + 1) left t =
        (r.extend left >>= fun e => r.chain power m e) t.advance := by
      rw [Rules.chain, peek_bind, ht.peek, if_pos hp]
      rfl
    rw [bind_apply, hc, bind_apply]
    generalize r.extend left t.advance = res at ha
    cases res with
    | ok a u =>
      obtain ⟨rfl, hu⟩ := ha
      simp only
      rw [← bind_apply]
      exact .chain hu (Nat.le_trans hl hm)
    | error stop u =>
      cases stop with
      | failed => exact ha.elim
      | tooDeep => exact .stops trivial
      | literalTooLong => exact .stops trivial

/-- No operator that binds more strongly than the power is ahead. -/
theorem Leads.arrives (h : Leads r power g e (x :: ts) er res) (hx : x.kind.power ≤ power) :
    Arrives (g e) (x :: ts) er res := by
  cases h with
  | stops h =>
    match res, h with
    | .error .tooDeep _, _ => trivial
    | .error (.literalTooLong _) _, _ => trivial
  | @chain t m ht hm =>
    have hc : r.chain power m e t = .ok e t := by
      cases m with
      | zero => rfl
      | succ m =>
        rw [Rules.chain, peek_bind, ht.peek, if_neg (by omega)]
        rfl
    rw [bind_apply, hc]
    exact arrives_pure ht

namespace Rules

/-! ### Reading a phrase -/

/-- A token behind an expression does not belong to it, if its operators are of the level. -/
def Follows (l : Nat) (k : Kind) : Prop := k.power ≤ l ∧ k ≠ .kwElse

theorem Follows.mono {m : Nat} {k : Kind} (h : Follows l k) (hm : l ≤ m) : Follows m k :=
  ⟨Nat.le_trans h.1 hm, h.2⟩

/-- The tokens of an expression are read as such wherever an expression or a statement can stand. -/
structure Reading (l : Nat) (e : Expr) (us : List Token) : Prop where
  rule {n power : Nat} {s : State} {x : Token} {ts : List Token} {er : List SyntaxError} :
    power ≤ 7 → levelOf power ≤ l → Follows l x.kind → On s (us ++ x :: ts) er →
      Leads (rules n) power id e (x :: ts) er ((rules n).expressionRule power s)
  braced {n : Nat} {s : State} {x : Token} {ts : List Token} {er : List SyntaxError} :
    s.current.kind = .lbrace → Follows l x.kind → On s (us ++ x :: ts) er →
      Leads (rules n) Power.lowest Stmt.expr e (x :: ts) er ((rules n).braced s)

theorem Reading.expression (h : Reading l e us) (hp : power ≤ 7) (hl : levelOf power ≤ l)
    (hx : Follows power x.kind) (hxl : power ≤ l) (hs : On s (us ++ x :: ts) er) :
    Arrives e (x :: ts) er ((rules n).expression power s) := by
  cases n with
  | zero => trivial
  | succ n => exact (h.rule hp hl (hx.mono hxl) hs).arrives hx.1

/-- An expression that nothing belongs to behind it. -/
theorem Reading.lowest (h : Reading 1 e us) (hx : Follows 0 x.kind)
    (hs : On s (us ++ x :: ts) er) :
    Arrives e (x :: ts) er ((rules n).expression Power.lowest s) :=
  h.expression (by decide) (by decide) hx (by decide) hs

theorem leads_expressionRule (h : Arrives e ts er (r.operand s)) :
    Leads r power id e ts er (r.expressionRule power s) := by
  have hl : Leads r power id e ts er
      ((r.operand >>= fun e => r.expressionFrom power e >>= fun e => pure (id e)) s) :=
    h.leads fun _ ht => leads_expressionFrom ht
  simpa [expressionRule] using hl

/-- An operand that starts with no brace. -/
theorem reading_operand (hk : ∀ {n s x ts er}, Follows l x.kind → On s (us ++ x :: ts) er →
      Arrives e (x :: ts) er ((rules n).operand s)) (hb : ∀ c ∈ us.head?, c.kind ≠ .lbrace)
    (hn : us ≠ []) : Reading l e us where
  rule _ _ hx hs := leads_expressionRule (hk hx hs)
  braced hc _ hs := by
    obtain ⟨c, cs, rfl⟩ := List.exists_cons_of_ne_nil hn
    rw [List.cons_append] at hs
    exact absurd (hs.current ▸ hc) (hb c rfl)

/-- Behind an expression there is a separator or a closing token. -/
def Separates (ts : List Token) : Prop :=
  ∃ c cs, ts = c :: cs ∧ Follows 0 c.kind ∧ c.isLineEnd = false

theorem separates_cons (hp : Follows 0 c.kind) (hk : c.kind ≠ .semicolon) : Separates (c :: ts) :=
  ⟨c, ts, rfl, hp, by simp [Token.isLineEnd, hk]⟩

/-- What starts with a comma separates, if there is anything. -/
theorem Separates.behind {vs : List Token} (h : Separates ts)
    (hv : ∀ c ∈ vs.head?, c.kind = .comma) : Separates (vs ++ ts) := by
  cases vs with
  | nil => exact h
  | cons c vs =>
    have hc := hv c rfl
    exact separates_cons (by simp [hc, Follows, Kind.power, Power.lowest]) (by simp [hc])

/-- An expression is read, and the line ends behind it are dropped. -/
theorem Reading.item {R : α → State → Prop} {f : Expr → Parser α} (h : Reading 1 e us)
    (hd : Dropped nl) (hx : Separates ts) (hs : On s (us ++ (nl ++ ts)) er)
    (hf : ∀ t, Ahead t ts er → Reaches R (f e t)) : Reaches R
      (((rules n).expression Power.lowest >>= fun e => skipLineEnds >>= fun _ => f e) s) := by
  obtain ⟨c, cs, rfl, hp, hc⟩ := hx
  have he : ∃ d ds, nl ++ c :: cs = d :: ds ∧ Follows 0 d.kind := by
    cases nl with
    | nil => exact ⟨c, cs, rfl, hp⟩
    | cons d nl =>
      have hk : d.kind = .semicolon := by
        have := hd d (by simp)
        simp_all [Token.isLineEnd]
      exact ⟨d, nl ++ c :: cs, rfl, by simp [hk, Follows, Kind.power, Power.lowest]⟩
  obtain ⟨d, ds, hds, hdp⟩ := he
  rw [hds] at hs
  refine (h.lowest hdp hs).bind fun t ht => ?_
  exact (arrives_skipLineEnds (hds ▸ ht) hd hc).bind hf

/-- A comma and the line ends behind it are passed over. -/
theorem reaches_comma {R : α → State → Prop} {f : Parser α} (hs : Ahead s (o :: c :: us) er)
    (hl : c.isLineEnd = false) (hf : ∀ t, On t (c :: us) er → Reaches R (f t)) : Reaches R
      ((advance >>= fun _ => skipLineEnds >>= fun _ => advance >>= fun _ => f) s) := by
  refine (arrivesOn_advance hs (by simp)).bind fun t ht => ?_
  refine (arrives_skipLineEnds_none ht.ahead hl).bind fun t ht => ?_
  exact (arrivesOn_advance ht (by simp)).bind hf

/-- The kinds of token that close a list. -/
def ClosesList (k : Kind) : Prop := k = .rparen ∨ k = .rbracket

/-- What is read of a list whose first element has been read. -/
def TailReading (es : List Expr) (us : List Token) : Prop :=
  ∀ ⦃n N s x ts er⦄, ClosesList x.kind → Ahead s (us ++ x :: ts) er → s.rest.length ≤ N →
    Arrives es (x :: ts) er ((rules n).moreItems N s)

structure ListReading (es : List Expr) (us : List Token) : Prop where
  tail {o : Token} : es ≠ [] → o.kind = .comma → TailReading es (o :: us)
  list {n : Nat} {s : State} {x : Token} {ts : List Token} {er : List SyntaxError} {close : Kind} :
    ClosesList close → x.kind = close → Ahead s (us ++ x :: ts) er →
      Arrives es ts er ((rules n).list close s)

theorem ClosesList.separates (h : ClosesList x.kind) : Separates (x :: ts) := by
  rcases h with h | h <;>
    exact separates_cons (by simp [h, Follows, Kind.power, Power.lowest]) (by simp [h])

theorem tailReading_nil : TailReading [] [] := by
  intro n N s x ts er hx hs _
  cases N with
  | zero => exact arrives_pure hs
  | succ N =>
    rw [moreItems, peek_bind, hs.peek, if_neg (by rcases hx with h | h <;> simp [h])]
    exact arrives_pure hs

theorem listReading_nil : ListReading [] [] where
  tail h := absurd rfl h
  list hc hx hs := by
    obtain rfl := hx
    obtain ⟨_, _, he, _, hl⟩ : Separates [_] := hc.separates
    obtain ⟨rfl, rfl⟩ := he
    rw [Rules.list]
    refine (arrives_skipLineEnds_none hs hl).bind fun t ht => ?_
    rw [peek_bind, ht.peek, if_pos rfl]
    exact (arrivesOn_advance ht (by simp)).bind fun t ht => arrives_pure ht.ahead

/-- A list is its first element and what follows: nothing, or a comma and more. -/
theorem listReading_cons {es : List Expr} {vs : List Token} (hu : StartsExpr us)
    (h : Reading 1 e us) (hd : Dropped nl) (hv : ∀ c ∈ vs.head?, c.kind = .comma)
    (ht : TailReading es vs) : ListReading (e :: es) (us ++ (nl ++ vs)) := by
  have hsep : ∀ {x : Token} {ts}, ClosesList x.kind → Separates (vs ++ x :: ts) :=
    fun hx => hx.separates.behind hv
  constructor
  · intro o _ ho n N s x ts er hx hs hN
    cases N with
    | zero => simp [hs.rest] at hN
    | succ N =>
      rw [moreItems, peek_bind, hs.peek, if_pos ho]
      obtain ⟨c, cs, rfl, -, hl⟩ := hu.exists_cons (k := .eof) rfl
      refine reaches_comma hs hl fun t ht' => ?_
      refine h.item hd (hsep hx) (by simpa using ht') fun v hv' => ?_
      refine (ht hx hv' ?_).bind fun w hw => arrives_pure hw
      simp [hs.rest, hv'.rest] at hN ⊢
      omega
  · intro n s x ts er close hc hx hs
    obtain ⟨c, cs, rfl, hne, hl⟩ := hu.exists_cons (k := close)
      (by rcases hc with rfl | rfl <;> rfl)
    obtain rfl := hx
    rw [Rules.list]
    refine (arrives_skipLineEnds_none hs hl).bind fun t ht' => ?_
    rw [peek_bind, ht'.peek, if_neg hne]
    refine (arrivesOn_advance ht' (by simp)).bind fun t ht' => ?_
    refine h.item hd (hsep hc) (by simpa using ht') fun v hv' => ?_
    rw [ahead_bind]
    refine (ht hc hv' (Nat.le_refl _)).bind fun w hw => ?_
    exact (arrivesOn_expect hw rfl).bind fun w hw => arrives_pure hw.ahead

/-! ### Hashmaps -/

/-- An expression is read as a statement, unless it would be the target of an assignment. -/
theorem Reading.statement (h : Reading 1 e us) (hu : StartsExpr us) (hx : Follows 0 x.kind)
    (ha : x.kind ≠ .assign) (hs : On s (us ++ x :: ts) er) :
    Arrives (.expr e) (x :: ts) er ((rules n).statement s) := by
  cases n with
  | zero => trivial
  | succ n =>
    change Arrives _ _ _ ((rules n).statementRule s)
    have he : Arrives (Stmt.expr e) (x :: ts) er
        (((rules n).expression Power.lowest >>= fun e => pure (Stmt.expr e)) s) :=
      (h.lowest hx hs).bind fun t ht => arrives_pure ht
    obtain ⟨c, cs, rfl, hc, hi⟩ := hu
    have hcur := hs.current
    simp only [statementRule, current_bind]
    generalize hk : s.current.kind = k
    split
    · simp [← hcur, hk, Kind.startsExpr] at hc
    · exact (h.braced hk (hx.mono (by decide)) hs).arrives hx.1
    · rw [peek_bind, if_neg]
      · exact he
      · simp only [Bool.and_eq_true, decide_eq_true_eq, not_and]
        rintro rfl hp
        cases cs with
        | nil => exact ha (hs.ahead.peek ▸ hp)
        | cons d ds => exact hi (hcur ▸ hk) d rfl (hs.ahead.peek ▸ hp)

/-- What is read of a hashmap whose first entry has been read. -/
def PairsTailReading (ps : List (Expr × Expr)) (us : List Token) : Prop :=
  ∀ ⦃n N s x ts er⦄, x.kind = .rbrace → Ahead s (us ++ x :: ts) er → s.rest.length ≤ N →
    Arrives ps (x :: ts) er ((rules n).moreEntries N s)

structure PairsReading (ps : List (Expr × Expr)) (us : List Token) : Prop where
  tail {o : Token} : ps ≠ [] → o.kind = .comma → PairsTailReading ps (o :: us)
  hashmap {n : Nat} {s : State} {x : Token} {ts : List Token} {er : List SyntaxError} :
    x.kind = .rbrace → Ahead s (us ++ x :: ts) er →
      Arrives (.hashmap ps) ts er ((rules n).hashmap s)
  braced {n : Nat} {s : State} {x : Token} {ts : List Token} {er : List SyntaxError} :
    x.kind = .rbrace → Ahead s (us ++ x :: ts) er →
      Leads (rules n) Power.lowest Stmt.expr (.hashmap ps) ts er ((rules n).braced s)

theorem pairsTailReading_nil : PairsTailReading [] [] := by
  intro n N s x ts er hx hs _
  cases N with
  | zero => exact arrives_pure hs
  | succ N =>
    rw [moreEntries, peek_bind, hs.peek, if_neg (by simp [hx])]
    exact arrives_pure hs

theorem pairsReading_nil : PairsReading [] [] where
  tail h := absurd rfl h
  hashmap hx hs := by
    rw [Rules.hashmap]
    refine (arrives_skipLineEnds_none hs (by simp [Token.isLineEnd, hx])).bind
      fun t ht => ?_
    rw [peek_bind, ht.peek, if_pos hx]
    exact (arrivesOn_advance ht (by simp)).bind fun t ht => arrives_pure ht.ahead
  braced hx hs := by
    rw [Rules.braced]
    refine (arrives_skipLineEnds_none hs (by simp [Token.isLineEnd, hx])).leads fun t ht => ?_
    rw [peek_bind, ht.peek, if_pos hx]
    exact (arrivesOn_advance ht (by simp)).leads fun t ht => leads_expressionFrom ht.ahead

theorem arrives_entry {key v : Expr} (h : Reading 1 v us) (hc : c.kind = .colon)
    (hd : Dropped nl) (hx : Separates ts) (hs : Ahead s (c :: (us ++ (nl ++ ts))) er) :
    Arrives (key, v) ts er ((rules n).entry key s) := by
  obtain ⟨d, ds, rfl, -⟩ := id hx
  refine (arrivesOn_expect hs hc).bind fun t ht => ?_
  refine (arrivesOn_advance ht.ahead (by simp)).bind fun t ht => ?_
  exact h.item hd hx ht fun t ht => arrives_pure ht

/-- A hashmap is its first entry and what follows: nothing, or a comma and more. -/
theorem pairsReading_cons {k v : Expr} {ps : List (Expr × Expr)} {vs ws : List Token}
    (hus : StartsExpr us) (hk : Reading 1 k us) (hc : c.kind = .colon)
    (hv : Reading 1 v vs) (hd : Dropped nl) (hw : ∀ c ∈ ws.head?, c.kind = .comma)
    (ht : PairsTailReading ps ws) :
    PairsReading ((k, v) :: ps) (us ++ c :: (vs ++ (nl ++ ws))) := by
  have hsep : ∀ {x : Token} {ts}, x.kind = .rbrace → Separates (ws ++ x :: ts) := by
    intro x ts hx
    refine Separates.behind (separates_cons ?_ (by simp [hx])) hw
    simp [hx, Follows, Kind.power, Power.lowest]
  have hcp : Follows 0 c.kind := by simp [hc, Follows, Kind.power, Power.lowest]
  have hfrom : ∀ {n s x ts er}, x.kind = .rbrace →
      Ahead s (c :: (vs ++ (nl ++ (ws ++ x :: ts)))) er →
        Arrives (.hashmap ((k, v) :: ps)) ts er ((rules n).hashmapFrom k s) := by
    intro n s x ts er hx hs
    refine (arrives_entry hv hc hd (hsep hx) hs).bind fun t ht' => ?_
    rw [ahead_bind]
    refine (ht hx ht' (Nat.le_refl _)).bind fun t ht' => ?_
    exact (arrivesOn_expect ht' hx).bind fun t ht' => arrives_pure ht'.ahead
  constructor
  · intro o _ ho n N s x ts er hx hs hN
    cases N with
    | zero => simp [hs.rest] at hN
    | succ N =>
      rw [moreEntries, peek_bind, hs.peek, if_pos ho]
      obtain ⟨d, ds, rfl, -, hl⟩ := hus.exists_cons (k := .eof) rfl
      refine reaches_comma hs hl fun t ht' => ?_
      refine (hk.lowest hcp (by simpa using ht')).bind fun t ht' => ?_
      refine (arrives_entry hv hc hd (hsep hx) (by simpa using ht')).bind fun t ht' => ?_
      refine (ht hx ht' ?_).bind fun t ht' => arrives_pure ht'
      simp [hs.rest, ht'.rest] at hN ⊢
      omega
  · intro n s x ts er hx hs
    obtain ⟨d, ds, rfl, hne, hl⟩ := hus.exists_cons (k := .rbrace) rfl
    rw [Rules.hashmap]
    refine (arrives_skipLineEnds_none hs hl).bind fun t ht' => ?_
    rw [peek_bind, ht'.peek, if_neg hne]
    refine (arrivesOn_advance ht' (by simp)).bind fun t ht' => ?_
    refine (hk.lowest hcp (by simpa using ht')).bind fun t ht' => ?_
    exact hfrom hx (by simpa using ht')
  · intro n s x ts er hx hs
    obtain ⟨d, ds, rfl, hne, hl⟩ := hus.exists_cons (k := .rbrace) rfl
    have hds : d.kind ≠ .semicolon := by
      obtain ⟨_, _, he, hne, -⟩ := hus.exists_cons (k := .semicolon) rfl
      simp_all
    rw [Rules.braced]
    refine (arrives_skipLineEnds_none hs hl).leads fun t ht' => ?_
    rw [peek_bind, ht'.peek, if_neg hne]
    refine (arrivesOn_advance ht' (by simp)).leads fun t ht' => ?_
    rw [current_bind, ht'.current, if_neg hds]
    have hst : Arrives (Stmt.expr k) (c :: (vs ++ (nl ++ (ws ++ x :: ts)))) er
        ((rules n).statement t) := hk.statement hus hcp (by simp [hc]) (by simpa using ht')
    refine hst.attempt.leads fun t ht' => ?_
    rw [peek_bind, ht'.peek, hc]
    have hrest : Arrives (.hashmap ((k, v) :: ps)) ts er ((rules n).hashmapFrom k t) :=
      hfrom hx (by simpa using ht')
    exact hrest.leads fun t ht' => leads_expressionFrom ht'

/-! ### Parameters -/

/-- What is read of the parameters whose first one has been read. -/
def ParamsTailReading (ns : List String) (us : List Token) : Prop :=
  ∀ ⦃N s x ts er⦄, x.kind = .rparen → Ahead s (us ++ x :: ts) er → s.rest.length ≤ N →
    Arrives ns (x :: ts) er (moreParams N s)

structure ParamsReading (ns : List String) (us : List Token) : Prop where
  tail {o : Token} : ns ≠ [] → o.kind = .comma → ParamsTailReading ns (o :: us)
  params {s : State} {x : Token} {ts : List Token} {er : List SyntaxError} :
    x.kind = .rparen → Ahead s (us ++ x :: ts) er → Arrives ns ts er (params s)

theorem paramsTailReading_nil : ParamsTailReading [] [] := by
  intro N s x ts er hx hs _
  cases N with
  | zero => exact arrives_pure hs
  | succ N =>
    rw [moreParams, peek_bind, hs.peek, if_neg (by simp [hx])]
    exact arrives_pure hs

theorem paramsReading_nil : ParamsReading [] [] where
  tail h := absurd rfl h
  params hx hs := by
    rw [Rules.params, peek_bind, hs.peek, if_pos hx]
    exact (arrivesOn_advance hs (by simp)).bind fun t ht => arrives_pure ht.ahead

/-- Parameters are the first one and what follows: nothing, or a comma and more. -/
theorem paramsReading_cons {ns : List String} (hc : c.kind = .ident)
    (ht : ParamsTailReading ns us) : ParamsReading (c.text :: ns) (c :: us) := by
  constructor
  · intro o _ ho N s x ts er hx hs hN
    cases N with
    | zero => simp [hs.rest] at hN
    | succ N =>
      rw [moreParams, peek_bind, hs.peek, if_pos ho]
      refine (arrivesOn_advance hs (by simp)).bind fun t ht' => ?_
      refine (arrivesOn_expect ht'.ahead hc).bind fun t ht' => ?_
      rw [current_bind, ht'.current]
      refine (ht hx ht'.ahead ?_).bind fun t ht' => arrives_pure ht'
      simp [hs.rest, ht'.ahead.rest] at hN ⊢
      omega
  · intro s x ts er hx hs
    rw [Rules.params, peek_bind, hs.peek, if_neg (by simp [hc])]
    refine (arrivesOn_expect hs hc).bind fun t ht' => ?_
    rw [current_bind, ht'.current, ahead_bind]
    refine (ht hx ht'.ahead (Nat.le_refl _)).bind fun t ht' => ?_
    exact (arrivesOn_expect ht' hx).bind fun t ht' => arrives_pure ht'.ahead

/-! ### Statements -/

/-- What stands behind a statement. -/
def EndsStmt (k : Kind) : Prop := k = .semicolon ∨ k = .rbrace ∨ k = .eof

theorem EndsStmt.follows {k : Kind} (h : EndsStmt k) : Follows 0 k := by
  rcases h with rfl | rfl | rfl <;> simp [Follows, Kind.power, Power.lowest]

theorem EndsStmt.ne_assign {k : Kind} (h : EndsStmt k) : k ≠ .assign := by
  rcases h with rfl | rfl | rfl <;> simp

/-- The first token of a statement. -/
def StartsStmt (us : List Token) : Prop :=
  ∃ c cs, us = c :: cs ∧ ¬ EndsStmt c.kind

theorem StartsExpr.startsStmt (h : StartsExpr us) : StartsStmt us := by
  obtain ⟨c, cs, rfl, hc, -⟩ := h
  refine ⟨c, cs, rfl, ?_⟩
  rintro (h | h | h) <;> simp [h, Kind.startsExpr] at hc

structure StmtReading (st : Stmt) (us : List Token) : Prop where
  starts : StartsStmt us
  read {n : Nat} {s : State} {x : Token} {ts : List Token} {er : List SyntaxError} :
    EndsStmt x.kind → On s (us ++ x :: ts) er →
      Arrives st (x :: ts) er ((rules n).statement s)

theorem arrivesOn_terminate_semicolon {st : Stmt} (hc : c.kind = .semicolon) (hn : ts ≠ [])
    (hs : Ahead s (c :: ts) er) : ArrivesOn (some st) ts er (terminate (some st) s) := by
  simp only [terminate, peek_bind, hs.peek, hc]
  refine (arrivesOn_advance hs (by simp)).bind fun t ht => ?_
  exact (arrivesOn_advance ht.ahead hn).bind fun t ht => ⟨rfl, ht⟩

theorem arrivesOn_terminate_close {st : Stmt} (hx : x.kind = .rbrace ∨ x.kind = .eof)
    (hs : Ahead s (x :: ts) er) : ArrivesOn (some st) (x :: ts) er (terminate (some st) s) := by
  rcases hx with hx | hx <;> simp only [terminate, peek_bind, hs.peek, hx] <;>
    exact (arrivesOn_advance hs (by simp)).bind fun t ht => ⟨rfl, ht⟩

theorem arrivesOn_terminated_skip (hc : c.kind = .semicolon) (hn : ts ≠ [])
    (hs : On s (c :: ts) er) : ArrivesOn none ts er ((rules n).terminated s) := by
  rw [terminated, current_bind, hs.current, if_pos hc]
  exact (arrivesOn_advance hs.ahead hn).bind fun t ht => ⟨rfl, ht⟩

/-- A statement is read with its end. -/
theorem StmtReading.arrivesOn_terminated {st : Stmt} {vs : List Token} (h : StmtReading st us)
    (hx : EndsStmt x.kind) (hs : On s (us ++ x :: ts) er)
    (ht : ∀ t, Ahead t (x :: ts) er → ArrivesOn (some st) vs er (terminate (some st) t)) :
    ArrivesOn (some st) vs er ((rules n).terminated s) := by
  have ha := h.read (n := n) hx hs
  obtain ⟨c, cs, rfl, hc⟩ := h.starts
  rw [terminated, current_bind, hs.current, if_neg fun hk => hc (.inl hk)]
  exact ha.attempt.bind ht

/-! ### Blocks and programs -/

/-- What stands behind the statements of a block or a program. -/
def EndsStmts (k : Kind) : Prop := k = .rbrace ∨ k = .eof

/-- Statements are read in a block. -/
def MoreReading (ss : List Stmt) (us : List Token) : Prop :=
  ∀ ⦃n N s x ts er⦄, EndsStmts x.kind → On s (us ++ x :: ts) er → us.length ≤ N →
    ArrivesOn ss (x :: ts) er ((rules n).moreStatements N s)

/-- Statements are read as a program. -/
def ProgramReading (ss : List Stmt) (us : List Token) : Prop :=
  ∀ ⦃n N s x er⦄, x.kind = .eof → On s (us ++ [x]) er → us.length ≤ N →
    ArrivesOn ss [x] er ((rules n).program N false s)

structure StmtsReading (ss : List Stmt) (us : List Token) : Prop where
  more : MoreReading ss us
  program : ProgramReading ss us
  braced {n : Nat} {s : State} {x : Token} {ts : List Token} {er : List SyntaxError} : us ≠ [] →
    s.current.kind = .lbrace → x.kind = .rbrace → Ahead s (us ++ x :: ts) er →
      Arrives (.block ss) ts er ((rules n).braced s)

theorem moreReading_nil : MoreReading [] [] := by
  intro n N s x ts er hx hs _
  have hp : ArrivesOn [] (x :: ts) er ((pure [] : Parser (List Stmt)) s) := ⟨rfl, hs⟩
  cases N with
  | zero => exact hp
  | succ N =>
    rcases hx with hx | hx <;>
      simpa only [moreStatements, current_bind, hs.current, hx] using hp

theorem programReading_nil : ProgramReading [] [] := by
  intro n N s x er hx hs _
  have hp : ArrivesOn [] [x] er ((pure [] : Parser (List Stmt)) s) := ⟨rfl, hs⟩
  cases N with
  | zero => exact hp
  | succ N => simpa only [Rules.program, get_bind, hs.current, hx] using hp

theorem stmtsReading_nil : StmtsReading [] [] :=
  ⟨moreReading_nil, programReading_nil, fun h => absurd rfl h⟩

theorem MoreReading.block {ss : List Stmt} (h : MoreReading ss us) (hx : x.kind = .rbrace)
    (hs : On s (us ++ x :: ts) er) : Arrives ss ts er ((rules n).blockRest s) := by
  rw [blockRest, ahead_bind]
  have hl := congrArg List.length hs.tokens
  simp only [State.tokens, List.length_cons, List.length_append] at hl
  refine (h (.inl hx) hs (by omega)).bind fun t ht => ?_
  rw [current_bind, ht.current, if_pos hx]
  exact arrives_pure ht.ahead

/-- A statement or a semicolon alone is read in front of other statements. -/
def ItemReading (o : Option Stmt) (us ws : List Token) : Prop :=
  ∀ ⦃n s x ts er⦄, EndsStmts x.kind → On s (us ++ (ws ++ x :: ts)) er →
    ArrivesOn o (ws ++ x :: ts) er ((rules n).terminated s)

theorem MoreReading.cons {o : Option Stmt} {ss : List Stmt} {ws : List Token}
    (h : MoreReading ss ws) (hc : ¬ EndsStmts c.kind) (hi : ItemReading o (c :: us) ws) :
    MoreReading (o.toList ++ ss) (c :: us ++ ws) := by
  intro n N s x ts er hx hs hN
  rw [List.append_assoc] at hs
  cases N with
  | zero => simp at hN
  | succ N =>
    have hk : s.current.kind = c.kind := by rw [hs.current]
    simp only [moreStatements, current_bind]
    generalize s.current.kind = k at hk
    split
    · exact absurd (.inl hk.symm) hc
    · exact absurd (.inr hk.symm) hc
    · refine (hi hx hs).bind fun t ht => ?_
      refine (h hx ht ?_).bind fun t ht => ⟨rfl, ht⟩
      simp at hN
      omega

theorem ProgramReading.cons {o : Option Stmt} {ss : List Stmt} {ws : List Token}
    (h : ProgramReading ss ws) (hc : ¬ EndsStmts c.kind) (hi : ItemReading o (c :: us) ws) :
    ProgramReading (o.toList ++ ss) (c :: us ++ ws) := by
  intro n N s x er hx hs hN
  rw [List.append_assoc] at hs
  cases N with
  | zero => simp at hN
  | succ N =>
    have hk : s.current.kind = c.kind := by rw [hs.current]
    simp only [Rules.program, get_bind]
    generalize s.current.kind = k at hk
    split
    · exact absurd (.inr hk.symm) hc
    · exact absurd (.inl hk.symm) hc
    · refine (hi (.inr hx) hs).bind fun t ht => ?_
      rw [get_bind, hs.errors, ht.errors, decide_eq_false (Nat.lt_irrefl _)]
      refine (h hx ht ?_).bind fun t ht => ⟨rfl, ht⟩
      simp at hN
      omega

/-- A semicolon alone spells no statement. -/
theorem stmtsReading_skip {ss : List Stmt} (hc : c.kind = .semicolon) (h : StmtsReading ss us) :
    StmtsReading ss (c :: us) := by
  have hi : ItemReading none [c] us := by
    intro n s x ts er _ hs
    exact arrivesOn_terminated_skip hc (by simp) hs
  have hn : ¬ EndsStmts c.kind := by simp [EndsStmts, hc]
  have hm : MoreReading ss (c :: us) := h.more.cons hn hi
  refine ⟨hm, h.program.cons hn hi, fun {n s x ts er} _ hk hx hs => ?_⟩
  have hl : c.isLineEnd = false :=
    hs.peek ▸ hs.good.peek_isLineEnd (by simp [hk, Kind.endsStatement])
  rw [Rules.braced]
  refine (arrives_skipLineEnds_none hs hl).bind fun t ht => ?_
  rw [peek_bind, ht.peek, if_neg (by simp [hc])]
  refine (arrivesOn_advance ht (by simp)).bind fun t ht => ?_
  rw [current_bind, ht.current, if_pos hc]
  exact (hm.block hx ht).bind fun t ht => arrives_pure ht

/-- The end of a statement is read in front of other statements. -/
def EndReading (us ws : List Token) : Prop :=
  ∀ ⦃x ts⦄, EndsStmts x.kind → ∃ c cs, us ++ (ws ++ x :: ts) = c :: cs ∧ EndsStmt c.kind ∧
    ∀ ⦃st s er⦄, Ahead s (c :: cs) er →
      ArrivesOn (some st) (ws ++ x :: ts) er (terminate (some st) s)

theorem endReading_semicolon (hc : c.kind = .semicolon) : EndReading [c] us := fun _ _ _ =>
  ⟨c, _, rfl, .inl hc, fun _ _ _ hs => arrivesOn_terminate_semicolon hc (by simp) hs⟩

theorem endReading_nil : EndReading [] [] := fun x _ hx =>
  ⟨x, _, rfl, .inr hx, fun _ _ _ hs => arrivesOn_terminate_close hx hs⟩

theorem stmtsReading_cons {st : Stmt} {ss : List Stmt} {vs ws : List Token}
    (h : StmtReading st us) (he : EndReading vs ws) (hr : StmtsReading ss ws) :
    StmtsReading (st :: ss) (us ++ (vs ++ ws)) := by
  have hi : ItemReading (some st) (us ++ vs) ws := fun _ _ _ _ _ hx hs => by
    obtain ⟨c, cs, hcs, hc, ht⟩ := he hx
    rw [List.append_assoc, hcs] at hs
    exact h.arrivesOn_terminated hc hs fun t ha => ht ha
  obtain ⟨c, cs, rfl, hc⟩ := id h.starts
  have hn : ¬ EndsStmts c.kind := fun hk => hc (.inr hk)
  refine ⟨?_, ?_, fun {n s x ts er} _ hk hx hs => ?_⟩
  · simpa using hr.more.cons hn hi
  · simpa using hr.program.cons hn hi
  · have hl : c.isLineEnd = false := by simpa [Token.isLineEnd] using fun hk => absurd (.inl hk) hc
    rw [Rules.braced]
    refine (arrives_skipLineEnds_none hs hl).bind fun t ht => ?_
    rw [peek_bind, ht.peek, if_neg fun hk => hc (.inr (.inl hk))]
    refine (arrivesOn_advance ht (by simp)).bind fun t ht => ?_
    rw [current_bind, ht.current, if_neg fun hk => hc (.inl hk)]
    obtain ⟨d, ds, hds, hd, hterm⟩ := @he x ts (.inl hx)
    have ha : Arrives st (d :: ds) er ((rules n).statement t) :=
      h.read hd (by simpa [← hds] using ht)
    refine ha.attempt.bind fun t ht => ?_
    rw [peek_bind, ht.peek]
    generalize hdk : d.kind = k
    generalize ho : some st = o
    split
    · rcases hd with hd | hd | hd <;> simp [hd] at hdk
    · subst ho
      refine (hterm ht).bind fun t ht => ?_
      exact (hr.more.block hx ht).bind fun t ht => arrives_pure ht

structure BlockReading (ss : List Stmt) (us : List Token) : Prop where
  starts : ∃ o cs, us = o :: cs ∧ o.kind = .lbrace
  read {n : Nat} {s : State} {ts : List Token} {er : List SyntaxError} : On s (us ++ ts) er →
    Arrives ss ts er ((rules n).block s)

theorem blockReading {ss : List Stmt} (ho : o.kind = .lbrace) (h : MoreReading ss us)
    (hx : x.kind = .rbrace) : BlockReading ss (o :: (us ++ [x])) where
  starts := ⟨o, _, rfl, ho⟩
  read hs := by
    rw [List.cons_append, List.append_assoc] at hs
    exact (arrivesOn_advance hs.ahead (by simp)).bind fun t ht => h.block hx ht

/-- A block is read behind the token in front of its opening brace. -/
theorem BlockReading.expect {R : α → State → Prop} {ss : List Stmt} {f : List Stmt → Parser α}
    (h : BlockReading ss us) (hs : Ahead s (us ++ ts) er)
    (hf : ∀ t, Ahead t ts er → Reaches R (f ss t)) :
    Reaches R ((Parser.expect .lbrace >>= fun _ => (rules n).block >>= f) s) := by
  obtain ⟨o, cs, rfl, ho⟩ := h.starts
  exact (arrivesOn_expect hs ho).bind fun t ht => (h.read ht).bind hf

theorem StmtReading.of_rule {st : Stmt} (hu : StartsStmt us)
    (h : ∀ {n s x ts er}, EndsStmt x.kind → On s (us ++ x :: ts) er →
      Arrives st (x :: ts) er ((rules n).statementRule s)) : StmtReading st us where
  starts := hu
  read {n _ _ _ _} hx hs := by
    cases n with
    | zero => trivial
    | succ n => exact h hx hs

theorem stmtReading_assign (hc : c.kind = .ident) (ho : o.kind = .assign) (h : Reading 1 e us)
    : StmtReading (.assign c.text e) (c :: o :: us) := by
  refine .of_rule ⟨c, _, rfl, by simp [EndsStmt, hc]⟩ fun hx hs => ?_
  simp only [List.cons_append] at hs
  rw [statementRule, current_bind, hs.current, hc]
  simp only
  rw [peek_bind, hs.ahead.peek, if_pos (by simp [ho])]
  refine (arrivesOn_advance hs.ahead (by simp)).bind fun t ht => ?_
  refine (arrivesOn_advance ht.ahead (by simp)).bind fun t ht => ?_
  exact (h.lowest hx.follows ht).bind fun t ht => arrives_pure ht

theorem stmtReading_ret (hc : c.kind = .kwReturn) (h : Reading 1 e us) :
    StmtReading (.ret e) (c :: us) := by
  refine .of_rule ⟨c, _, rfl, by simp [EndsStmt, hc]⟩ fun hx hs => ?_
  rw [List.cons_append] at hs
  rw [statementRule, current_bind, hs.current, hc]
  refine (arrivesOn_advance hs.ahead (by simp)).bind fun t ht => ?_
  exact (h.lowest hx.follows ht).bind fun t ht => arrives_pure ht

theorem stmtReading_expr (h : Reading 1 e us) (hu : StartsExpr us) :
    StmtReading (.expr e) us where
  starts := StartsExpr.startsStmt hu
  read hx hs := h.statement hu hx.follows hx.ne_assign hs

theorem stmtReading_block {ss : List Stmt} (hc : c.kind = .lbrace) (h : StmtsReading ss us)
    (hu : us ≠ []) (hx : x.kind = .rbrace) : StmtReading (.block ss) (c :: (us ++ [x])) := by
  refine .of_rule ⟨c, _, rfl, by simp [EndsStmt, hc]⟩ fun _ hs => ?_
  rw [List.cons_append, List.append_assoc] at hs
  have hk : _ = Kind.lbrace := hs.current ▸ hc
  rw [statementRule, current_bind, hk]
  exact h.braced hu hk hx hs.ahead

/-! ### Operands -/

theorem reading_atom (h : ∀ {n s}, s.current = c → (rules n).operand s = (pure e : Parser Expr) s)
    (hc : c.kind ≠ .lbrace) : Reading 8 e [c] := by
  refine reading_operand (fun _ hs => ?_) (by simpa using hc) (by simp)
  rw [h hs.current]
  exact arrives_pure hs.ahead

theorem reading_int (hc : c.kind = .int)
    (hn : (Number.ofAsciiDigits c.text.toList : Int) ≤ Number.maxWord) :
    Reading 8 (.int (Number.ofAsciiDigits c.text.toList)) [c] := by
  refine reading_operand (fun _ hs => ?_) (by simp [hc]) (by simp)
  rw [operand, current_bind, hs.current, hc]
  simp only [integer]
  split
  · trivial
  · rw [if_neg (by omega)]
    exact arrives_pure hs.ahead

theorem reading_unary {op : PrefixOp} (hc : c.kind ≠ .lbrace) (h : Reading 7 e us)
    (ho : ∀ {n s}, s.current = c → (rules n).operand s = (advance >>= fun _ =>
      (rules n).expression Power.unary >>= fun e => pure (Expr.unary op e)) s) :
    Reading 7 (.unary op e) (c :: us) := by
  refine reading_operand (fun hx hs => ?_) (by simpa using hc) (by simp)
  rw [List.cons_append] at hs
  rw [ho hs.current]
  refine (arrivesOn_advance hs.ahead (by simp)).bind fun t ht => ?_
  exact (h.expression (by decide) (by decide) hx (by decide) ht).bind fun t ht => arrives_pure ht

theorem reading_group (ho : o.kind = .lparen) (h : Reading 1 e us) (hd : Dropped nl)
    (hc : c.kind = .rparen) : Reading 8 e (o :: (us ++ (nl ++ [c]))) := by
  refine reading_operand (fun _ hs => ?_) (by simp [ho]) (by simp)
  simp only [List.cons_append, List.append_assoc, List.nil_append] at hs
  rw [operand, current_bind, hs.current, ho]
  refine (arrivesOn_advance hs.ahead (by simp)).bind fun t ht => ?_
  refine h.item hd (ClosesList.separates (.inl hc)) ht fun t ht => ?_
  exact (arrivesOn_expect ht hc).bind fun t ht => arrives_pure ht.ahead

theorem reading_function {names : List String} {body : List Stmt} {vs : List Token}
    (hf : x.kind = .kwFn) (ho : o.kind = .lparen) (hp : ParamsReading names us)
    (hc : c.kind = .rparen) (hb : BlockReading body vs) :
    Reading 8 (.function names body) (x :: o :: (us ++ c :: vs)) := by
  refine reading_operand (fun _ hs => ?_) (by simp [hf]) (by simp)
  simp only [List.cons_append, List.append_assoc] at hs
  rw [operand, current_bind, hs.current, hf]
  refine (arrivesOn_expect hs.ahead ho).bind fun t ht => ?_
  refine (hp.params hc ht.ahead).bind fun t ht => ?_
  exact hb.expect ht fun t ht => arrives_pure ht

theorem reading_array {es : List Expr} (ho : o.kind = .lbracket) (h : ListReading es us)
    (hc : c.kind = .rbracket) : Reading 8 (.array es) (o :: (us ++ [c])) := by
  refine reading_operand (fun _ hs => ?_) (by simp [ho]) (by simp)
  simp only [List.cons_append, List.append_assoc, List.nil_append] at hs
  rw [operand, current_bind, hs.current, ho]
  exact (h.list (.inr rfl) hc hs.ahead).bind fun t ht => arrives_pure ht

/-- The condition of a conditional is read, and the block behind it. -/
theorem reaches_condition {R : α → State → Prop} {a : List Stmt} {vs : List Token}
    {f : Expr → List Stmt → Parser α} (ho : o.kind = .lparen) (h : Reading 1 e us)
    (hc : c.kind = .rparen) (ha : BlockReading a vs)
    (hs : Ahead s (o :: (us ++ c :: (vs ++ ts))) er)
    (hf : ∀ t, Ahead t ts er → Reaches R (f e a t)) :
    Reaches R ((Parser.expect .lparen >>= fun _ => advance >>= fun _ =>
      (rules n).expression Power.lowest >>= fun e => Parser.expect .rparen >>= fun _ =>
        Parser.expect .lbrace >>= fun _ => (rules n).block >>= fun a => f e a) s) := by
  refine (arrivesOn_expect hs ho).bind fun t ht => ?_
  refine (arrivesOn_advance ht.ahead (by simp)).bind fun t ht => ?_
  refine (h.lowest (by simp [hc, Follows, Kind.power, Power.lowest]) ht).bind fun t ht => ?_
  refine (arrivesOn_expect ht hc).bind fun t ht => ?_
  exact ha.expect ht.ahead hf

theorem reading_ifThen {a : List Stmt} {vs : List Token} (hi : x.kind = .kwIf)
    (ho : o.kind = .lparen) (h : Reading 1 e us) (hc : c.kind = .rparen)
    (ha : BlockReading a vs) : Reading 8 (.ifThen e a none) (x :: o :: (us ++ c :: vs)) := by
  refine reading_operand (fun hx hs => ?_) (by simp [hi]) (by simp)
  simp only [List.cons_append, List.append_assoc] at hs
  rw [operand, current_bind, hs.current, hi]
  refine reaches_condition ho h hc ha hs.ahead fun t ht => ?_
  rw [peek_bind, ht.peek, if_neg hx.2]
  exact arrives_pure ht

theorem reading_ifThenElse {a b : List Stmt} {l : Token} {vs ws : List Token} (hi : x.kind = .kwIf)
    (ho : o.kind = .lparen) (h : Reading 1 e us) (hc : c.kind = .rparen)
    (ha : BlockReading a vs) (hl : l.kind = .kwElse) (hb : BlockReading b ws) :
    Reading 8 (.ifThen e a (some b)) (x :: o :: (us ++ c :: (vs ++ l :: ws))) := by
  refine reading_operand (fun hx hs => ?_) (by simp [hi]) (by simp)
  simp only [List.cons_append, List.append_assoc] at hs
  rw [operand, current_bind, hs.current, hi]
  refine reaches_condition ho h hc ha hs.ahead fun t ht => ?_
  rw [peek_bind, ht.peek, if_pos hl]
  refine (arrivesOn_advance ht (by simp)).bind fun t ht => ?_
  exact hb.expect ht.ahead fun t ht => arrives_pure ht

/-- A hashmap is read as an operand, and in place of a statement it is told from a block. -/
theorem reading_hashmap {ps : List (Expr × Expr)} (ho : o.kind = .lbrace) (h : PairsReading ps us)
    (hc : c.kind = .rbrace) : Reading 8 (.hashmap ps) (o :: (us ++ [c])) := by
  constructor
  · intro n power s x ts er _ _ _ hs
    simp only [List.cons_append, List.append_assoc, List.nil_append] at hs
    refine leads_expressionRule ?_
    rw [operand, current_bind, hs.current, ho]
    exact h.hashmap hc hs.ahead
  · intro n s x ts er _ _ hs
    simp only [List.cons_append, List.append_assoc, List.nil_append] at hs
    exact h.braced hc hs.ahead

/-! ### Operators -/

theorem Reading.tighter (h : Reading (l + 1) e us) : Reading l e us where
  rule hp hl hx hs := h.rule hp (Nat.le_succ_of_le hl) (hx.mono (Nat.le_succ l)) hs
  braced hk hx hs := h.braced hk (hx.mono (Nat.le_succ l)) hs

/-- An operand is read with the operator behind it and what belongs to that. -/
theorem Reading.extend {vs : List Token} (h : Reading l left us) (hl : 1 ≤ l)
    (ho : Follows l o.kind) (hp : ∀ power ≤ 7, levelOf power ≤ l → power < o.kind.power)
    (hx : ∀ {n t x ts er}, Follows l x.kind → On t (o :: (vs ++ x :: ts)) er →
      Arrives e (x :: ts) er ((rules n).extend left t)) : Reading l e (us ++ o :: vs) := by
  constructor
  · intro n power s x ts er h₇ hpl hf hs
    rw [List.append_assoc, List.cons_append] at hs
    exact (h.rule h₇ hpl ho hs).step (hp power h₇ hpl) (by simp) fun t ht => hx hf ht
  · intro n s x ts er hk hf hs
    rw [List.append_assoc, List.cons_append] at hs
    exact (h.braced hk ho hs).step (hp _ (by decide) hl) (by simp) fun t ht => hx hf ht

theorem reading_call {es : List Expr} {vs : List Token} (h : Reading 8 left us)
    (ho : o.kind = .lparen) (hv : ListReading es vs) (hc : c.kind = .rparen) :
    Reading 8 (.call left es) (us ++ o :: (vs ++ [c])) := by
  refine h.extend (by decide) (by simp [Follows, ho, Kind.power_le])
    (fun power hp _ => by simp [ho, Kind.power, Power.postfixed]; omega) fun _ ht => ?_
  rw [List.append_assoc] at ht
  rw [Rules.extend, current_bind, ht.current, ho]
  exact (hv.list (.inl rfl) hc ht.ahead).bind fun t ht => arrives_pure ht

theorem reading_index {i : Expr} {vs : List Token} (h : Reading 8 left us) (ho : o.kind = .lbracket)
    (hi : Reading 1 i vs) (hd : Dropped nl) (hc : c.kind = .rbracket) :
    Reading 8 (.index left i) (us ++ o :: (vs ++ (nl ++ [c]))) := by
  refine h.extend (by decide) (by simp [Follows, ho, Kind.power_le])
    (fun power hp _ => by simp [ho, Kind.power, Power.postfixed]; omega) fun _ ht => ?_
  simp only [List.append_assoc, List.cons_append, List.nil_append] at ht
  rw [Rules.extend, current_bind, ht.current, ho]
  refine (arrivesOn_advance ht.ahead (by simp)).bind fun t ht => ?_
  refine hi.item hd (ClosesList.separates (.inr hc)) ht fun t ht => ?_
  exact (arrivesOn_expect ht hc).bind fun t ht => arrives_pure ht.ahead

theorem reading_binary {op : InfixOp} {b : Expr} {vs : List Token} (ho : Infix l o.kind op)
    (h : Reading l left us) (hb : Reading (l + 1) b vs) :
    Reading l (.binary op left b) (us ++ o :: vs) := by
  have hle := ho.level_le
  have hpow := ho.power_eq
  have hf : Follows l o.kind := ⟨Nat.le_of_eq hpow, ho.ne_else⟩
  refine h.extend ho.level_pos hf (fun power _ hl => ?_) fun hx ht => ?_
  · exact hpow ▸ lt_of_levelOf_le hl hle
  · rw [Rules.extend, current_bind, ht.current]
    generalize o.kind = k at ho hpow
    split
    · cases ho
    · cases ho
    · rw [(infix_iff.mp ho).1]
      refine (arrivesOn_advance ht.ahead (by simp)).bind fun t ht => ?_
      have hlev : levelOf k.power ≤ l + 1 := hpow ▸ levelOf_le k.power
      refine (hb.expression (by omega) hlev ?_ (by omega) ht).bind fun t ht => arrives_pure ht
      exact hpow ▸ hx

end Rules

/-- Reading a phrase, for every kind of phrase. -/
def Complete : Phrase → List Token → Prop
  | .expr l e, us => Rules.Reading l e us
  | .list es, us => Rules.ListReading es us
  | .pairs ps, us => Rules.PairsReading ps us
  | .params ns, us => Rules.ParamsReading ns us
  | .block ss, us => Rules.BlockReading ss us
  | .stmt st, us => Rules.StmtReading st us
  | .stmts ss, us => Rules.StmtsReading ss us

open Rules in
/-- The tokens of every phrase are read as the phrase. -/
theorem complete_of_derives {φ : Phrase} (h : Derives φ us) : Complete φ us := by
  induction h with
  | int ht hn => exact reading_int ht hn
  | string ht => exact reading_atom (fun h => by rw [operand, current_bind, h, ht]) (by simp [ht])
  | «true» ht => exact reading_atom (fun h => by rw [operand, current_bind, h, ht]) (by simp [ht])
  | «false» ht => exact reading_atom (fun h => by rw [operand, current_bind, h, ht]) (by simp [ht])
  | ident ht => exact reading_atom (fun h => by rw [operand, current_bind, h, ht]) (by simp [ht])
  | group ho he hl hc ih => exact reading_group ho ih hl hc
  | ifThen hi ho he hc _ ih iha => exact reading_ifThen hi ho ih hc iha
  | ifThenElse hi ho he hc _ hl _ ih iha ihb =>
    exact reading_ifThenElse hi ho ih hc iha hl ihb
  | function hf ho _ hc _ ihp ihb => exact reading_function hf ho ihp hc ihb
  | array ho _ hc ih => exact reading_array ho ih hc
  | hashmap ho _ hc ih => exact reading_hashmap ho ih hc
  | call _ ho _ hc ihf ihe => exact reading_call ihf ho ihe hc
  | index _ ho hi hl hc iha ihi => exact reading_index iha ho ihi hl hc
  | not ht he ih =>
    exact reading_unary (by simp [ht]) ih fun h => by rw [operand, current_bind, h, ht]
  | neg ht he ih =>
    exact reading_unary (by simp [ht]) ih fun h => by rw [operand, current_bind, h, ht]
  | binary ht _ hb iha ihb => exact reading_binary ht iha ihb
  | tighter _ ih => exact ih.tighter
  | listNil => exact listReading_nil
  | listOne he hl ih =>
    simpa [Complete] using listReading_cons he.startsExpr ih hl (by simp) tailReading_nil
  | listCons he hl hc _ ih ihs =>
    exact listReading_cons he.startsExpr ih hl (by simpa using hc) (ihs.tail (by simp) hc)
  | pairsNil => exact pairsReading_nil
  | pairsOne hk hc hv hl ihk ihv =>
    simpa [Complete] using pairsReading_cons hk.startsExpr ihk hc ihv hl (by simp)
      pairsTailReading_nil
  | pairsCons hk hc hv hl hd _ ihk ihv ihp =>
    exact pairsReading_cons hk.startsExpr ihk hc ihv hl (by simpa using hd)
      (ihp.tail (by simp) hd)
  | paramsNil => exact paramsReading_nil
  | paramsOne ht => exact paramsReading_cons ht paramsTailReading_nil
  | paramsCons ht hc _ ih => exact paramsReading_cons ht (ih.tail (by simp) hc)
  | block ho _ hc ih => exact blockReading ho ih.more hc
  | assign ht ha he ih => exact stmtReading_assign ht ha ih
  | ret ht he ih => exact stmtReading_ret ht ih
  | exprStmt he ih => exact stmtReading_expr ih he.startsExpr
  | blockStmt ho _ hs hc ih => exact stmtReading_block ho ih hs hc
  | stmtsNil => exact stmtsReading_nil
  | stmtsSkip ht _ ih => exact stmtsReading_skip ht ih
  | stmtsLast _ ih => simpa [Complete] using stmtsReading_cons ih endReading_nil stmtsReading_nil
  | stmtsCons _ ht _ ih ihr =>
    simpa [Complete] using stmtsReading_cons ih (endReading_semicolon ht) ihr

/-- The tokens of a program are read without errors, unless there is too much nesting or too long an
integer. -/
theorem run_of_spells {depth : Nat} {tokens : List Token} {body : List Stmt} (hl : Lexed tokens)
    (h : Spells tokens body) :
    Reaches (fun ss t => ss = body ∧ t.errors = []) (run depth tokens) := by
  obtain ⟨ts, e, rfl, he, hd⟩ := h
  have hr : Rules.StmtsReading body ts := complete_of_derives hd
  have hs : On (.ofTokens (ts ++ [e])) (ts ++ [e]) [] := by
    cases ts <;> exact ⟨rfl, rfl, hl⟩
  have hn : ts.length ≤ (State.ofTokens (ts ++ [e])).rest.length := by
    cases ts <;> simp [State.ofTokens]
  exact (hr.program he hs hn).mono fun ss t h => ⟨h.1, h.2.errors⟩

end Scriptlet.Parser
