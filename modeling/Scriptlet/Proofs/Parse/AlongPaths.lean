import Scriptlet.Proofs.Parse.Descent

/-!
What is so of the rule at the end of a way is so of the rules on the way. It is enough that it
passes from a rule to those that come to it.
-/

namespace Scriptlet

variable {us ts : List Token} {T : List Token → Prop} {σ : Spot}

/-- What a way leads to starts like an expression, and not with a name. -/
def Heads (T : List Token → Prop) : Prop :=
  ∀ us, T us → ∃ c cs, us = c :: cs ∧ c.kind.startsExpr = true ∧ c.kind ≠ .ident

theorem UpTo.startsExpr (hT : Heads T) (h : UpTo T σ us) (ws : List Token) :
    StartsExpr (us ++ ws) := by
  cases h with
  | here h =>
    obtain ⟨c, cs, rfl, hc, hi⟩ := hT _ h
    exact startsExpr_cons hc hi
  | unary hc =>
    rcases hc with hc | hc <;>
      exact startsExpr_cons (by simp [hc, Kind.startsExpr]) (by simp [hc])
  | group ho => exact startsExpr_cons (by simp [ho, Kind.startsExpr]) (by simp [ho])
  | condition hi => exact startsExpr_cons (by simp [hi, Kind.startsExpr]) (by simp [hi])
  | element ho => exact startsExpr_cons (by simp [ho, Kind.startsExpr]) (by simp [ho])
  | entry ho => exact startsExpr_cons (by simp [ho, Kind.startsExpr]) (by simp [ho])
  | argument hf ho =>
    rw [List.append_assoc]
    exact hf.startsExpr.append (by simp [ho])
  | index ha ho =>
    rw [List.append_assoc]
    exact ha.startsExpr.append (by simp [ho])
  | right ht _ ha =>
    rw [List.append_assoc]
    exact ha.startsExpr.append ht.ne_assign

namespace Parser

variable {n : Nat} {c : Token} {Φ : ∀ {α : Type}, Parser α → List Token → Prop}

/-- A property of rules and of the tokens that they read passes from a rule to those that come to
it. -/
structure Ascends (Φ : ∀ {α : Type}, Parser α → List Token → Prop) : Prop where
  tooDeep {α : Type} (us : List Token) : Φ (throw .tooDeep : Parser α) us
  descends {α β : Type} {p : Parser β} {q : Parser α} {B : List Token → Prop} {xs us : List Token} :
    Descends B p xs q → (∀ ws, B (us ++ ws)) → Φ q us → Φ p (xs ++ us)

theorem Ascends.descends_here {α β : Type} {p : Parser β} {q : Parser α} {B : List Token → Prop}
    (h : Ascends Φ) (hd : Descends B p [] q) (hB : ∀ ws, B (us ++ ws)) (hq : Φ q us) : Φ p us :=
  h.descends hd hB hq

theorem startsOperand_upTo (hT : Heads T) (h : UpTo T σ us) (ws : List Token) :
    StartsOperand (us ++ ws) := by
  obtain ⟨c, cs, hcs, hc, -⟩ := h.startsExpr hT ws
  exact ⟨c, cs, hcs, hc⟩

namespace Rules

/-- The property holds of expressions up to something if it holds of operands up to it. -/
theorem ascends_expressionRule (hΦ : Ascends Φ) (hT : Heads T)
    (hbase : ∀ n us, T us → Φ (rules n).operand us) (h : UpTo T σ us) (hσ : σ.power ≤ 7) (n : Nat) :
    Φ ((rules n).expressionRule σ.power) us := by
  have hop (n p : Nat) (us : List Token) (h : Φ (rules n).operand us) :
      Φ ((rules n).expressionRule p) us :=
    hΦ.descends (descends_expressionRule (B := fun _ => True) p) (fun _ => trivial) h
  have hexpr (n p : Nat) (us : List Token) (h : ∀ n, Φ ((rules n).expressionRule p) us) :
      Φ ((rules n).expression p) us := by
    cases n with
    | zero => exact hΦ.tooDeep us
    | succ n => exact h n
  have hleft (n : Nat) {p l : Nat} {left : Expr} {o : Token} {ts us : List Token}
      (xs : List Token) {q : Parser Expr}
      (hd : Descends StartsOperand ((rules n).extend left) (o :: xs) q)
      (hts : Derives (.expr l left) ts) (hl : levelOf p ≤ l) (h₇ : p ≤ 7) (hp : p < o.kind.power)
      (ho : Follows l o.kind) (hus : ∀ ws, StartsOperand (us ++ ws)) (hq : Φ q us) :
      Φ ((rules n).expressionRule p) (ts ++ o :: (xs ++ us)) := by
    have := hΦ.descends (descends_behind_operand hd hts hl h₇ hp ho) hus hq
    rwa [List.append_assoc] at this
  induction h generalizing n with
  | here h => exact hop n _ _ (hbase n _ h)
  | unary hc h ih =>
    exact hop n _ _ (hΦ.descends (descends_operand_unary hc) (startsOperand_upTo hT h)
      (hexpr n _ _ fun n => ih (by decide) n))
  | group ho h ih =>
    exact hop n _ _ (hΦ.descends (descends_operand_group ho) (startsOperand_upTo hT h)
      (hexpr n _ _ fun n => ih (by decide) n))
  | condition hi ho h ih =>
    exact hop n _ _ (hΦ.descends (descends_operand_condition hi ho) (startsOperand_upTo hT h)
      (hexpr n _ _ fun n => ih (by decide) n))
  | element ho hx h ih =>
    exact hop n _ _ (hΦ.descends (descends_operand_list ho hx) (startsOperand_upTo hT h)
      (hexpr n _ _ fun n => ih (by decide) n))
  | entry ho hx _ h ih =>
    exact hop n _ _ (hΦ.descends (descends_operand_hashmap ho hx) (startsOperand_upTo hT h)
      (hexpr n _ _ fun n => ih (by decide) n))
  | @argument σ o f ts xs us hf ho hx h ih =>
    refine hleft n xs (descends_extend_call ho hx) hf (Nat.le_succ_of_le (levelOf_le_seven _)) hσ
      ?_ ?_ (startsOperand_upTo hT h) (hexpr n _ _ fun n => ih (by decide) n)
    · rw [ho]
      exact Nat.lt_succ_of_le hσ
    · simp [Follows, ho, Kind.power_le]
  | @index σ o a ts us ha ho h ih =>
    refine hleft n [] (descends_extend_index ho) ha (Nat.le_succ_of_le (levelOf_le_seven _)) hσ
      ?_ ?_ (startsOperand_upTo hT h) (hexpr n _ _ fun n => ih (by decide) n)
    · rw [ho]
      exact Nat.lt_succ_of_le hσ
    · simp [Follows, ho, Kind.power_le]
  | @right σ l t op a ts us ht hl ha h ih =>
    have hpow := ht.power_eq
    have hle := ht.level_le
    exact hleft n [] (descends_extend_operator ht) ha
      (Nat.le_trans (levelOf_le _) hl) hσ (by omega) ⟨hpow.le, ht.ne_else⟩
      (startsOperand_upTo hT h) (hexpr n _ _ fun n => ih (Nat.le_succ_of_le hle) n)

/-- The first token is an opening brace. -/
def StartsBrace (us : List Token) : Prop := ∃ c cs, us = c :: cs ∧ c.kind = .lbrace

theorem StartsBrace.cons (h : StartsBrace (c :: us)) : c.kind = .lbrace := by
  obtain ⟨_, _, he, hc⟩ := h
  exact (List.cons.inj he).1 ▸ hc

/-- The property holds of braces at the start of a statement. -/
theorem ascends_braced (hΦ : Ascends Φ) (hT : Heads T)
    (hbase : ∀ n us, T us → Φ (rules n).operand us)
    (hbraced : ∀ n us, T us → StartsBrace us → Φ (rules n).braced us)
    (h : UpTo T .first us) (hb : StartsBrace us) : Φ (rules n).braced us := by
  have hexpr {p : Nat} (hp : p ≤ 7) {us : List Token} (h : UpTo T (.operand p) us) :
      Φ ((rules n).expression p) us := by
    cases n with
    | zero => exact hΦ.tooDeep us
    | succ n => exact ascends_expressionRule hΦ hT hbase h hp n
  have hleft {l : Nat} {left : Expr} {o : Token} {ts us : List Token} (xs : List Token)
      {q : Parser Expr} (hb : StartsBrace (ts ++ o :: (xs ++ us)))
      (hd : Descends StartsOperand ((rules n).extend left) (o :: xs) q)
      (hts : Derives (.expr l left) ts) (hp : 0 < o.kind.power) (ho : Follows l o.kind)
      (hus : ∀ ws, StartsOperand (us ++ ws)) (hq : Φ q us) :
      Φ (rules n).braced (ts ++ o :: (xs ++ us)) := by
    obtain ⟨b, bs, rfl, -⟩ := hts.startsExpr
    have := hΦ.descends (descends_behind_braces hd hts hb.cons hp ho) hus hq
    simpa using this
  generalize hσ : Spot.first = σ at h
  cases h with
  | here h => exact hbraced n _ h hb
  | unary ho => rcases ho with ho | ho <;> simp [hb.cons] at ho
  | group ho | condition ho | element ho => simp [hb.cons] at ho
  | entry ho hx hn h =>
    exact hΦ.descends (descends_braced hx (hn hσ.symm)) (startsOperand_upTo hT h)
      (hexpr (by decide) h)
  | argument hf ho hx h =>
    exact hleft _ hb (descends_extend_call ho hx) hf (by simp [ho, Kind.power, Power.postfixed])
      (by simp [Follows, ho, Kind.power_le]) (startsOperand_upTo hT h) (hexpr (by decide) h)
  | index ha ho h =>
    exact hleft [] hb (descends_extend_index ho) ha
      (by simp [ho, Kind.power, Power.postfixed]) (by simp [Follows, ho, Kind.power_le])
      (startsOperand_upTo hT h) (hexpr (by decide) h)
  | right ht _ ha h =>
    have hpow := ht.power_eq
    exact hleft [] hb (descends_extend_operator ht) ha (hpow ▸ ht.level_pos)
      ⟨hpow.le, ht.ne_else⟩ (startsOperand_upTo hT h) (hexpr (Nat.le_succ_of_le ht.level_le) h)

/-! ### Statements -/

theorem descends_statementRule_assign {a : Token} (hc : c.kind = .ident) (ha : a.kind = .assign) :
    Descends StartsOperand (rules n).statementRule [c, a]
      ((rules n).expression Power.lowest) := by
  refine ⟨fun _ e => pure (.assign c.text e), fun _ _ _ => equivariant_pure _,
    fun s ts er N hts hs _ => ?_⟩
  simp only [List.cons_append, List.nil_append] at hs
  rw [statementRule, current_bind, hs.current, hc]
  simp only
  rw [peek_bind, hs.ahead.peek, if_pos (by simp [ha])]
  refine (arrivesOn_advance hs.ahead (by simp)).comes fun t ht => ?_
  exact (arrivesOn_advance ht.ahead hts.ne_nil).comes fun t ht => comes_here ht _

theorem descends_statementRule_ret (hc : c.kind = .kwReturn) :
    Descends StartsOperand (rules n).statementRule [c] ((rules n).expression Power.lowest) :=
  descends_advance (k := fun e => pure (.ret e)) (fun _ _ => equivariant_pure _)
    (fun s hs => by rw [statementRule, current_bind, hs, hc]) fun _ => StartsOperand.ne_nil

theorem descends_statementRule_braced :
    Descends StartsBrace (rules n).statementRule [] (rules n).braced := by
  refine ⟨fun _ => pure, fun _ _ _ => equivariant_pure _, fun s ts er N hts hs _ => ?_⟩
  obtain ⟨c, cs, rfl, hc⟩ := hts
  have hrule : (rules n).statementRule s = ((rules n).braced >>= pure) s := by
    rw [statementRule, current_bind, hs.current, hc, bind_pure]
  rw [hrule]
  exact comes_here hs _

/-- An expression that is no target of an assignment and starts with no brace. -/
theorem descends_statementRule_expression :
    Descends (fun ts => StartsExpr ts ∧ ¬ StartsBrace ts) (rules n).statementRule []
      ((rules n).expression Power.lowest) := by
  refine ⟨fun _ e => pure (.expr e), fun _ _ _ => equivariant_pure _, fun s ts er N hts hs _ => ?_⟩
  obtain ⟨⟨c, cs, rfl, hc, hi⟩, hb⟩ := hts
  have hcur : s.current = c := hs.current
  have hrule : (rules n).statementRule s =
      ((rules n).expression Power.lowest >>= fun e => pure (.expr e)) s := by
    simp only [statementRule, current_bind, hcur]
    generalize hk : c.kind = kind at hc
    split
    · cases hc
    · exact absurd ⟨c, cs, rfl, hk⟩ hb
    · rw [peek_bind, if_neg]
      simp only [Bool.and_eq_true, decide_eq_true_eq, not_and]
      rintro rfl hp
      cases cs with
      | nil =>
        have hrest : s.rest = [] := hs.ahead.rest
        have := hs.good.peek_kind hrest
        simp [hp] at this
      | cons d ds => exact hi hk d rfl (hs.ahead.peek ▸ hp)
  rw [hrule]
  exact comes_here hs _

/-- The property holds of statements up to something. -/
theorem ascends_statement (hΦ : Ascends Φ) (hT : Heads T)
    (hbase : ∀ n us, T us → Φ (rules n).operand us)
    (hbraced : ∀ n us, T us → StartsBrace us → Φ (rules n).braced us)
    (h : StmtUpTo T us) (n : Nat) : Φ (rules n).statement us := by
  cases n with
  | zero => exact hΦ.tooDeep us
  | succ n =>
    change Φ (rules n).statementRule us
    have hexpr {σ : Spot} {us : List Token} (h : UpTo T σ us) (hσ : σ.power = Power.lowest) :
        Φ ((rules n).expression Power.lowest) us := by
      cases n with
      | zero => exact hΦ.tooDeep us
      | succ n => exact hσ ▸ ascends_expressionRule hΦ hT hbase h (hσ ▸ by decide) n
    cases h with
    | assign hc ha h =>
      exact hΦ.descends (descends_statementRule_assign hc ha) (startsOperand_upTo hT h)
        (hexpr h rfl)
    | ret hc h =>
      exact hΦ.descends (descends_statementRule_ret hc) (startsOperand_upTo hT h) (hexpr h rfl)
    | expr h =>
      obtain ⟨c, cs, hcs, -⟩ := h.startsExpr hT []
      rw [List.append_nil] at hcs
      subst hcs
      by_cases hb : c.kind = .lbrace
      · exact hΦ.descends_here descends_statementRule_braced (fun ws => ⟨c, _, rfl, hb⟩)
          (ascends_braced hΦ hT hbase hbraced h ⟨c, cs, rfl, hb⟩)
      · exact hΦ.descends_here descends_statementRule_expression
          (fun ws => ⟨h.startsExpr hT ws, fun hbrace => hb hbrace.cons⟩) (hexpr h rfl)

end Rules

end Parser

end Scriptlet
