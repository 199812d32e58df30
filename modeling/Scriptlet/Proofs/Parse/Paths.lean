import Scriptlet.Proofs.Grammar.Nesting
import Scriptlet.Proofs.Parse.Appending

/-!
The way to a place in a program: which tokens stand between the start of a statement and the end of
the last entry of a hashmap in it. What is read on the way is whole, except for what the place is
in.
-/

namespace Scriptlet

/-- Where an expression stands. -/
inductive Spot where
  /-- behind something that it is a part of, under the power of an operator -/
  | operand (power : Nat)
  /-- at the start of a statement -/
  | first

/-- The power that operators in an expression bind more strongly than. -/
def Spot.power : Spot → Nat
  | .operand p => p
  | .first => Power.lowest

variable {T T' : List Token → Prop} {σ : Spot} {p l : Nat} {pre us vs : List Token} {φ : Phrase}

/-- The tokens of a list up to one of its elements. -/
inductive ItemsUpTo : List Token → Prop where
  | nil : ItemsUpTo []
  | cons {c : Token} {e : Expr} {ts nl us : List Token} (he : Derives (.expr 1 e) ts)
    (hl : Dropped nl) (hc : c.kind = .comma) (h : ItemsUpTo us) :
    ItemsUpTo (ts ++ (nl ++ c :: us))

/-- The tokens of a hashmap up to one of its keys or values. -/
inductive EntriesUpTo : List Token → Prop where
  | key : EntriesUpTo []
  | value {c : Token} {k : Expr} {ts : List Token} (hk : Derives (.expr 1 k) ts)
    (hc : c.kind = .colon) : EntriesUpTo (ts ++ [c])
  | cons {c d : Token} {k v : Expr} {ts us nl vs : List Token} (hk : Derives (.expr 1 k) ts)
    (hc : c.kind = .colon) (hv : Derives (.expr 1 v) us) (hl : Dropped nl) (hd : d.kind = .comma)
    (h : EntriesUpTo vs) : EntriesUpTo (ts ++ c :: (us ++ (nl ++ d :: vs)))

/-- The tokens of an expression up to something in it, with no statement in between. The first key
of a hashmap at the start of a statement is not reached, as it is read as a statement. -/
inductive UpTo (T : List Token → Prop) : Spot → List Token → Prop where
  | here {σ : Spot} {us : List Token} (h : T us) : UpTo T σ us
  | unary {σ : Spot} {c : Token} {us : List Token} (hc : c.kind = .bang ∨ c.kind = .minus)
    (h : UpTo T (.operand Power.unary) us) : UpTo T σ (c :: us)
  | group {σ : Spot} {o : Token} {us : List Token} (ho : o.kind = .lparen)
    (h : UpTo T (.operand Power.lowest) us) : UpTo T σ (o :: us)
  | condition {σ : Spot} {i o : Token} {us : List Token} (hi : i.kind = .kwIf)
    (ho : o.kind = .lparen) (h : UpTo T (.operand Power.lowest) us) : UpTo T σ (i :: o :: us)
  | element {σ : Spot} {o : Token} {xs us : List Token} (ho : o.kind = .lbracket)
    (hx : ItemsUpTo xs) (h : UpTo T (.operand Power.lowest) us) : UpTo T σ (o :: (xs ++ us))
  | entry {σ : Spot} {o : Token} {xs us : List Token} (ho : o.kind = .lbrace)
    (hx : EntriesUpTo xs) (hn : σ = .first → xs ≠ []) (h : UpTo T (.operand Power.lowest) us) :
    UpTo T σ (o :: (xs ++ us))
  | argument {σ : Spot} {o : Token} {f : Expr} {ts xs us : List Token}
    (hf : Derives (.expr 8 f) ts) (ho : o.kind = .lparen) (hx : ItemsUpTo xs)
    (h : UpTo T (.operand Power.lowest) us) : UpTo T σ (ts ++ o :: (xs ++ us))
  | index {σ : Spot} {o : Token} {a : Expr} {ts us : List Token} (ha : Derives (.expr 8 a) ts)
    (ho : o.kind = .lbracket) (h : UpTo T (.operand Power.lowest) us) : UpTo T σ (ts ++ o :: us)
  | right {σ : Spot} {l : Nat} {t : Token} {op : InfixOp} {a : Expr} {ts us : List Token}
    (ht : Infix l t.kind op) (hl : σ.power < l) (ha : Derives (.expr l a) ts)
    (h : UpTo T (.operand l) us) : UpTo T σ (ts ++ t :: us)

/-- The tokens of a statement up to something in it, with no other statement in between. -/
inductive StmtUpTo (T : List Token → Prop) : List Token → Prop where
  | assign {t a : Token} {us : List Token} (ht : t.kind = .ident) (ha : a.kind = .assign)
    (h : UpTo T (.operand Power.lowest) us) : StmtUpTo T (t :: a :: us)
  | ret {t : Token} {us : List Token} (ht : t.kind = .kwReturn)
    (h : UpTo T (.operand Power.lowest) us) : StmtUpTo T (t :: us)
  | expr {us : List Token} (h : UpTo T .first us) : StmtUpTo T us

/-- The tokens of a function or a conditional up to the start of a statement in its body. -/
inductive BodyUpTo : List Token → Prop where
  | function {f o c b : Token} {names : List String} {ss : List Stmt} {ts us : List Token}
    (hf : f.kind = .kwFn) (ho : o.kind = .lparen) (hp : Derives (.params names) ts)
    (hc : c.kind = .rparen) (hb : b.kind = .lbrace) (hs : Closed ss us) :
    BodyUpTo (f :: o :: (ts ++ c :: b :: us))
  | consequence {i o c b : Token} {e : Expr} {ss : List Stmt} {ts us : List Token}
    (hi : i.kind = .kwIf) (ho : o.kind = .lparen) (he : Derives (.expr 1 e) ts)
    (hc : c.kind = .rparen) (hb : b.kind = .lbrace) (hs : Closed ss us) :
    BodyUpTo (i :: o :: (ts ++ c :: b :: us))
  | alternative {i o c l b : Token} {e : Expr} {a ss : List Stmt} {ts us vs : List Token}
    (hi : i.kind = .kwIf) (ho : o.kind = .lparen) (he : Derives (.expr 1 e) ts)
    (hc : c.kind = .rparen) (ha : Derives (.block a) us) (hl : l.kind = .kwElse)
    (hb : b.kind = .lbrace) (hs : Closed ss vs) :
    BodyUpTo (i :: o :: (ts ++ c :: (us ++ l :: b :: vs)))

/-- The tokens from the start of a statement to the start of one directly in it. What stands in the
braces at the start of a statement is read as statements, as long as no colon is found. -/
inductive Enters : List Token → Prop where
  | body {us : List Token} (h : StmtUpTo BodyUpTo us) : Enters us
  | braces {o : Token} {ss : List Stmt} {us : List Token} (ho : o.kind = .lbrace)
    (hs : Closed ss us) : Enters (o :: us)

/-- The tokens from the start of a statement to the start of the same or of one in it. -/
inductive Nested : List Token → Prop where
  | here : Nested []
  | within {us vs : List Token} (h : Enters us) (hn : Nested vs) : Nested (us ++ vs)

/-- The tokens from the start of a statement to the end of the last entry of a hashmap in it: those
up to the innermost statement around the hashmap, and those of this one. -/
def Interrupted (us : List Token) : Prop :=
  ∃ front mid, us = front ++ mid ∧ Nested front ∧ StmtUpTo OpenHashmap mid

/-- The same in a function or a conditional, or in the hashmap itself. -/
def BodyInterrupted (us : List Token) : Prop :=
  OpenHashmap us ∨ ∃ xs vs, us = xs ++ vs ∧ BodyUpTo xs ∧ Interrupted vs

/-- What is up to something is up to anything else in its place. -/
theorem UpTo.exists_front (h : UpTo T σ us) :
    ∃ xs vs, us = xs ++ vs ∧ T vs ∧ ∀ T' ws, T' ws → UpTo T' σ (xs ++ ws) := by
  induction h with
  | @here σ us h => exact ⟨[], us, rfl, h, fun _ _ => .here⟩
  | unary hc _ ih =>
    obtain ⟨xs, vs, rfl, hv, hx⟩ := ih
    exact ⟨_ :: xs, vs, rfl, hv, fun T' ws hw => .unary hc (hx T' ws hw)⟩
  | group ho _ ih =>
    obtain ⟨xs, vs, rfl, hv, hx⟩ := ih
    exact ⟨_ :: xs, vs, rfl, hv, fun T' ws hw => .group ho (hx T' ws hw)⟩
  | condition hi ho _ ih =>
    obtain ⟨xs, vs, rfl, hv, hx⟩ := ih
    exact ⟨_ :: _ :: xs, vs, rfl, hv, fun T' ws hw => .condition hi ho (hx T' ws hw)⟩
  | @element σ o ys us ho hi _ ih =>
    obtain ⟨xs, vs, rfl, hv, hx⟩ := ih
    refine ⟨o :: (ys ++ xs), vs, by simp, hv, fun T' ws hw => ?_⟩
    simpa using UpTo.element (σ := σ) ho hi (hx T' ws hw)
  | @entry σ o ys us ho he hn _ ih =>
    obtain ⟨xs, vs, rfl, hv, hx⟩ := ih
    refine ⟨o :: (ys ++ xs), vs, by simp, hv, fun T' ws hw => ?_⟩
    simpa using UpTo.entry ho he hn (hx T' ws hw)
  | @argument σ o f ts ys us hf ho hi _ ih =>
    obtain ⟨xs, vs, rfl, hv, hx⟩ := ih
    refine ⟨ts ++ o :: (ys ++ xs), vs, by simp, hv, fun T' ws hw => ?_⟩
    simpa using UpTo.argument (σ := σ) hf ho hi (hx T' ws hw)
  | @index σ o a ts us ha ho _ ih =>
    obtain ⟨xs, vs, rfl, hv, hx⟩ := ih
    refine ⟨ts ++ o :: xs, vs, by simp, hv, fun T' ws hw => ?_⟩
    simpa using UpTo.index (σ := σ) ha ho (hx T' ws hw)
  | @right σ l t op a ts us ht hl ha _ ih =>
    obtain ⟨xs, vs, rfl, hv, hx⟩ := ih
    refine ⟨ts ++ t :: xs, vs, by simp, hv, fun T' ws hw => ?_⟩
    simpa using UpTo.right ht hl ha (hx T' ws hw)

/-- A statement is interrupted where an expression in it is. -/
theorem UpTo.interrupted_of (xs : List Token) (h : UpTo BodyInterrupted σ us)
    (hs : ∀ T us, UpTo T σ us → StmtUpTo T (xs ++ us)) : Interrupted (xs ++ us) := by
  obtain ⟨ys, vs, rfl, hv | ⟨zs, vs, rfl, hz, front, mid, rfl, hn, hm⟩, hy⟩ := h.exists_front
  · exact ⟨[], xs ++ (ys ++ vs), rfl, .here, hs _ _ (hy _ _ hv)⟩
  · exact ⟨xs ++ (ys ++ zs) ++ front, mid, by simp, .within (.body (hs _ _ (hy _ _ hz))) hn, hm⟩

/-- An expression is interrupted as a statement where it is anywhere else. -/
theorem UpTo.interrupted (h : UpTo BodyInterrupted σ us) : Interrupted us := by
  have hfirst {us : List Token} (h : UpTo BodyInterrupted .first us) : Interrupted us :=
    h.interrupted_of [] fun _ _ => .expr
  induction h with
  | here h => exact hfirst (.here h)
  | unary hc h => exact hfirst (.unary hc h)
  | group ho h => exact hfirst (.group ho h)
  | condition hi ho h => exact hfirst (.condition hi ho h)
  | element ho hx h => exact hfirst (.element ho hx h)
  | @entry σ o xs us ho hx hn h ih =>
    by_cases hnil : xs = []
    · subst hnil
      obtain ⟨front, mid, rfl, hn, hm⟩ := ih
      have hbraces : Enters [o] := .braces ho .nil
      exact ⟨o :: front, mid, rfl, .within hbraces hn, hm⟩
    · exact hfirst (.entry ho hx (fun _ => hnil) h)
  | argument hf ho hx h => exact hfirst (.argument hf ho hx h)
  | index ha ho h => exact hfirst (.index ha ho h)
  | right ht hl ha h => exact hfirst (.right ht ht.level_pos ha h)

theorem Infix.ne_lbrace {k : Kind} {op : InfixOp} (h : Infix l k op) : k ≠ .lbrace := by
  cases h <;> simp

/-- Line ends and a closing bracket behind them open nothing. -/
theorem Dropped.plain_append {c : Token} {nl : List Token} (h : Dropped nl)
    (hc : c.kind = .rparen ∨ c.kind = .rbracket) : ∀ v ∈ nl ++ [c], v.kind ≠ .lbrace := by
  intro v hv
  rcases List.mem_append.mp hv with hv | hv
  · exact h.kind_ne_lbrace v hv
  · obtain rfl := List.mem_singleton.mp hv
    rcases hc with hc | hc <;> simp [hc]

/-- What a phrase is as far as the end of the last entry of a hashmap in it. -/
def Phrase.Interrupted : Phrase → List Token → Prop
  | .expr l _, pre => ∀ p, levelOf p ≤ l → UpTo BodyInterrupted (.operand p) pre
  | .list _, pre => ∃ xs vs, pre = xs ++ vs ∧ ItemsUpTo xs ∧
      UpTo BodyInterrupted (.operand Power.lowest) vs
  | .pairs _, pre => ∃ xs vs, pre = xs ++ vs ∧ EntriesUpTo xs ∧
      UpTo BodyInterrupted (.operand Power.lowest) vs
  | .params _, _ => False
  | .block _, pre => ∃ o ss xs vs, pre = o :: (xs ++ vs) ∧ o.kind = .lbrace ∧ Closed ss xs ∧
      Scriptlet.Interrupted vs
  | .stmt _, pre => Scriptlet.Interrupted pre
  | .stmts _, pre => ∃ ss xs vs, pre = xs ++ vs ∧ Closed ss xs ∧ Scriptlet.Interrupted vs

/-- Where a hashmap in a phrase is cut, there is a way to the place. -/
theorem Derives.interrupted (h : Derives φ us) (hcut : Cut pre us) : φ.Interrupted pre := by
  induction h generalizing pre with
  | int ht | string ht | «true» ht | «false» ht | ident ht =>
    exact absurd hcut (not_cut (by simp [ht]))
  | group ho he hl hc ih =>
    obtain ⟨_, rfl, h₁⟩ := hcut.of_cons (by simp [ho])
    have h₂ := h₁.of_append_plain he.balanced (hl.plain_append (.inl hc))
    exact fun p _ => .group ho (ih h₂ _ (by simp))
  | @ifThen i o c e a ts us hi ho he hc _ ih iha =>
    obtain ⟨_, rfl, h₁⟩ := hcut.of_cons (by simp [hi])
    obtain ⟨_, rfl, h₂⟩ := h₁.of_cons (by simp [ho])
    rcases h₂.of_append he.balanced with h₃ | ⟨_, rfl, h₃⟩
    · exact fun p _ => .condition hi ho (ih h₃ _ (by simp))
    · obtain ⟨_, rfl, h₄⟩ := h₃.of_cons (by simp [hc])
      obtain ⟨b, ss, xs, vs, rfl, hb, hs, hv⟩ := iha h₄
      exact fun p _ => .here (.inr ⟨_, vs, by simp, .consequence hi ho he hc hb hs, hv⟩)
  | ifThenElse hi ho he hc ha hl _ ih iha ihb =>
    obtain ⟨_, rfl, h₁⟩ := hcut.of_cons (by simp [hi])
    obtain ⟨_, rfl, h₂⟩ := h₁.of_cons (by simp [ho])
    rcases h₂.of_append he.balanced with h₃ | ⟨_, rfl, h₃⟩
    · exact fun p _ => .condition hi ho (ih h₃ _ (by simp))
    obtain ⟨_, rfl, h₄⟩ := h₃.of_cons (by simp [hc])
    rcases h₄.of_append ha.balanced with h₅ | ⟨_, rfl, h₅⟩
    · obtain ⟨b, ss, xs, vs, rfl, hb, hs, hv⟩ := iha h₅
      exact fun p _ => .here (.inr ⟨_, vs, by simp, .consequence hi ho he hc hb hs, hv⟩)
    · obtain ⟨_, rfl, h₆⟩ := h₅.of_cons (by simp [hl])
      obtain ⟨b, ss, xs, vs, rfl, hb, hs, hv⟩ := ihb h₆
      exact fun p _ => .here (.inr ⟨_, vs, by simp, .alternative hi ho he hc ha hl hb hs, hv⟩)
  | function hf ho hp hc _ ihp ihb =>
    obtain ⟨_, rfl, h₁⟩ := hcut.of_cons (by simp [hf])
    obtain ⟨_, rfl, h₂⟩ := h₁.of_cons (by simp [ho])
    rcases h₂.of_append hp.balanced with h₃ | ⟨_, rfl, h₃⟩
    · exact (ihp h₃).elim
    · obtain ⟨_, rfl, h₄⟩ := h₃.of_cons (by simp [hc])
      obtain ⟨b, ss, xs, vs, rfl, hb, hs, hv⟩ := ihb h₄
      exact fun p _ => .here (.inr ⟨_, vs, by simp, .function hf ho hp hc hb hs, hv⟩)
  | array ho he hc ih =>
    obtain ⟨_, rfl, h₁⟩ := hcut.of_cons (by simp [ho])
    obtain ⟨xs, vs, rfl, hx, hv⟩ := ih (h₁.of_append_plain he.balanced (by simp [hc]))
    exact fun p _ => .element ho hx hv
  | hashmap ho hp hc ih =>
    rcases hcut.of_braces hc hp with ⟨_, rfl, h₁⟩ | ⟨rfl, h₁, -⟩
    · obtain ⟨xs, vs, rfl, hx, hv⟩ := ih h₁
      exact fun p _ => .entry ho hx (by simp) hv
    · exact fun p _ => .here (.inl h₁)
  | call hf ho he hc ihf ihe =>
    rcases hcut.of_append hf.balanced with h₁ | ⟨_, rfl, h₁⟩
    · exact ihf h₁
    · obtain ⟨_, rfl, h₂⟩ := h₁.of_cons (by simp [ho])
      obtain ⟨xs, vs, rfl, hx, hv⟩ := ihe (h₂.of_append_plain he.balanced (by simp [hc]))
      exact fun p _ => .argument hf ho hx hv
  | index ha ho hi hl hc iha ihi =>
    rcases hcut.of_append ha.balanced with h₁ | ⟨_, rfl, h₁⟩
    · exact iha h₁
    · obtain ⟨_, rfl, h₂⟩ := h₁.of_cons (by simp [ho])
      have h₃ := h₂.of_append_plain hi.balanced (hl.plain_append (.inr hc))
      exact fun p _ => .index ha ho (ihi h₃ _ (by simp))
  | not ht _ ih =>
    obtain ⟨_, rfl, h₁⟩ := hcut.of_cons (by simp [ht])
    exact fun p _ => .unary (.inl ht) (ih h₁ _ (by decide))
  | neg ht _ ih =>
    obtain ⟨_, rfl, h₁⟩ := hcut.of_cons (by simp [ht])
    exact fun p _ => .unary (.inr ht) (ih h₁ _ (by decide))
  | binary ht ha _ iha ihb =>
    rcases hcut.of_append ha.balanced with h₁ | ⟨_, rfl, h₁⟩
    · exact iha h₁
    · obtain ⟨_, rfl, h₂⟩ := h₁.of_cons ht.ne_lbrace
      exact fun p hp => .right ht (lt_of_levelOf_le hp ht.level_le) ha (ihb h₂ _ (levelOf_le _))
  | tighter _ ih => exact fun p hp => ih hcut p (Nat.le_succ_of_le hp)
  | listNil | pairsNil | paramsNil | stmtsNil => exact absurd hcut not_cut_nil
  | listOne he hl ih =>
    have h₁ := hcut.of_append_plain he.balanced hl.kind_ne_lbrace
    exact ⟨[], _, rfl, .nil, ih h₁ _ (by simp)⟩
  | listCons he hl hc _ ih ihs =>
    rcases hcut.of_append he.balanced with h₁ | ⟨_, rfl, h₁⟩
    · exact ⟨[], _, rfl, .nil, ih h₁ _ (by simp)⟩
    rcases h₁.of_append hl.balanced with h₂ | ⟨_, rfl, h₂⟩
    · exact absurd h₂ (not_cut hl.kind_ne_lbrace)
    · obtain ⟨_, rfl, h₃⟩ := h₂.of_cons (by simp [hc])
      obtain ⟨xs, vs, rfl, hx, hv⟩ := ihs h₃
      exact ⟨_, vs, by simp, .cons he hl hc hx, hv⟩
  | pairsOne hk hc hv hl ihk ihv =>
    rcases hcut.of_append hk.balanced with h₁ | ⟨_, rfl, h₁⟩
    · exact ⟨[], _, rfl, .key, ihk h₁ _ (by simp)⟩
    · obtain ⟨_, rfl, h₂⟩ := h₁.of_cons (by simp [hc])
      have h₃ := h₂.of_append_plain hv.balanced hl.kind_ne_lbrace
      exact ⟨_, _, by simp, .value hk hc, ihv h₃ _ (by simp)⟩
  | pairsCons hk hc hv hl hd _ ihk ihv ihp =>
    rcases hcut.of_append hk.balanced with h₁ | ⟨_, rfl, h₁⟩
    · exact ⟨[], _, rfl, .key, ihk h₁ _ (by simp)⟩
    obtain ⟨_, rfl, h₂⟩ := h₁.of_cons (by simp [hc])
    rcases h₂.of_append hv.balanced with h₃ | ⟨_, rfl, h₃⟩
    · exact ⟨_, _, by simp, .value hk hc, ihv h₃ _ (by simp)⟩
    rcases h₃.of_append hl.balanced with h₄ | ⟨_, rfl, h₄⟩
    · exact absurd h₄ (not_cut hl.kind_ne_lbrace)
    · obtain ⟨_, rfl, h₅⟩ := h₄.of_cons (by simp [hd])
      obtain ⟨xs, vs, rfl, hx, hp⟩ := ihp h₅
      exact ⟨_, vs, by simp, .cons hk hc hv hl hd hx, hp⟩
  | paramsOne ht => exact not_cut (by simp [ht]) hcut
  | paramsCons ht hc _ ih =>
    obtain ⟨_, rfl, h₁⟩ := hcut.of_cons (by simp [ht])
    obtain ⟨_, rfl, h₂⟩ := h₁.of_cons (by simp [hc])
    exact ih h₂
  | block ho hb hc ih =>
    rcases hcut.of_braces hc hb with ⟨_, rfl, h₁⟩ | ⟨-, -, hcolon⟩
    · obtain ⟨ss, xs, vs, rfl, hs, hv⟩ := ih h₁
      exact ⟨_, ss, xs, vs, rfl, ho, hs, hv⟩
    · cases hcolon
  | assign ht ha _ ih =>
    obtain ⟨_, rfl, h₁⟩ := hcut.of_cons (by simp [ht])
    obtain ⟨_, rfl, h₂⟩ := h₁.of_cons (by simp [ha])
    have hv := ih h₂ Power.lowest (by simp)
    exact hv.interrupted_of [_, _] fun _ _ => .assign ht ha
  | ret ht _ ih =>
    obtain ⟨_, rfl, h₁⟩ := hcut.of_cons (by simp [ht])
    have hv := ih h₁ Power.lowest (by simp)
    exact hv.interrupted_of [_] fun _ _ => .ret ht
  | exprStmt _ ih => exact (ih hcut Power.lowest (by simp)).interrupted
  | @blockStmt o c body ts ho hb _ hc ih =>
    rcases hcut.of_braces hc hb with ⟨_, rfl, h₁⟩ | ⟨-, -, hcolon⟩
    · obtain ⟨ss, xs, vs, rfl, hs, front, mid, rfl, hn, hm⟩ := ih h₁
      exact ⟨o :: xs ++ front, mid, by simp, .within (.braces ho hs) hn, hm⟩
    · cases hcolon
  | stmtsSkip ht _ ih =>
    obtain ⟨_, rfl, h₁⟩ := hcut.of_cons (by simp [ht])
    obtain ⟨ss, xs, vs, rfl, hs, hv⟩ := ih h₁
    exact ⟨ss, _ :: xs, vs, rfl, .skip ht hs, hv⟩
  | stmtsLast _ ih => exact ⟨[], [], _, rfl, .nil, ih hcut⟩
  | stmtsCons hs ht _ ih ihr =>
    rcases hcut.of_append hs.balanced with h₁ | ⟨_, rfl, h₁⟩
    · exact ⟨[], [], _, rfl, .nil, ih h₁⟩
    · obtain ⟨_, rfl, h₂⟩ := h₁.of_cons (by simp [ht])
      obtain ⟨ss, xs, vs, rfl, hc, hv⟩ := ihr h₂
      exact ⟨_ :: ss, _, vs, by simp, .cons hs ht hc, hv⟩

/-! ### The end of a way -/

theorem StmtUpTo.exists_front (h : StmtUpTo T us) : ∃ xs vs, us = xs ++ vs ∧ T vs := by
  cases h with
  | assign ht ha h =>
    obtain ⟨xs, vs, rfl, hv, -⟩ := h.exists_front
    exact ⟨_ :: _ :: xs, vs, rfl, hv⟩
  | ret ht h =>
    obtain ⟨xs, vs, rfl, hv, -⟩ := h.exists_front
    exact ⟨_ :: xs, vs, rfl, hv⟩
  | expr h =>
    obtain ⟨xs, vs, rfl, hv, -⟩ := h.exists_front
    exact ⟨xs, vs, rfl, hv⟩

/-- On the way to the end of the entries of a hashmap the last token is no opening brace. -/
theorem StmtUpTo.last (h : StmtUpTo OpenHashmap us) :
    ∃ xs u, us = xs ++ [u] ∧ u.kind ≠ .lbrace := by
  obtain ⟨ys, _, rfl, o, p, ps, ts, rfl, -, hd⟩ := h.exists_front
  rcases List.eq_nil_or_concat' ts with rfl | ⟨xs, u, rfl⟩
  · have hnest : nestAll [false] [] = some _ := hd.nestAll
    cases hnest
  · exact ⟨ys ++ o :: xs, u, by simp, hd.balanced.last_ne_lbrace⟩

theorem Infix.brace {k : Kind} {op : InfixOp} (h : Infix l k op) : k.brace = 0 := by
  cases h <;> rfl

theorem ItemsUpTo.netBraces (h : ItemsUpTo us) : Scriptlet.netBraces us = 0 := by
  induction h with
  | nil => rfl
  | cons he hl hc _ ih => simp [he.netBraces, hl.netBraces, hc, ih, Kind.brace]

theorem EntriesUpTo.netBraces (h : EntriesUpTo us) : Scriptlet.netBraces us = 0 := by
  induction h with
  | key => rfl
  | value hk hc => simp [hk.netBraces, hc, Kind.brace]
  | cons hk hc hv hl hd _ ih =>
    simp [hk.netBraces, hv.netBraces, hl.netBraces, hc, hd, ih, Kind.brace]

theorem OpenHashmap.netBraces (h : OpenHashmap us) : Scriptlet.netBraces us = 1 := by
  obtain ⟨o, p, ps, ts, rfl, ho, hd⟩ := h
  simp [ho, hd.netBraces, Kind.brace]

/-- On the way no brace is closed that has not been opened. -/
theorem UpTo.netBraces_le (h : UpTo OpenHashmap σ us) : 1 ≤ netBraces us := by
  induction h with
  | here h => exact h.netBraces.ge
  | unary hc _ ih => rcases hc with hc | hc <;> simpa [hc, Kind.brace] using ih
  | group ho _ ih => simpa [ho, Kind.brace] using ih
  | condition hi ho _ ih => simpa [hi, ho, Kind.brace] using ih
  | element ho hx _ ih => simpa [ho, hx.netBraces, Kind.brace] using ih
  | entry ho hx _ _ ih =>
    simp only [netBraces_cons, netBraces_append, ho, hx.netBraces, Kind.brace]
    omega
  | argument hf ho hx _ ih => simpa [hf.netBraces, ho, hx.netBraces, Kind.brace] using ih
  | index ha ho _ ih => simpa [ha.netBraces, ho, Kind.brace] using ih
  | right ht _ ha _ ih => simpa [ha.netBraces, ht.brace] using ih

theorem StmtUpTo.netBraces_le (h : StmtUpTo OpenHashmap us) : 1 ≤ netBraces us := by
  cases h with
  | assign ht ha h => simpa [ht, ha, Kind.brace] using h.netBraces_le
  | ret ht h => simpa [ht, Kind.brace] using h.netBraces_le
  | expr h => exact h.netBraces_le

end Scriptlet
