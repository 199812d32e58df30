import Scriptlet.Proofs.Parse.Fuel

/-!
Rules in front of a semicolon. No rule for a part of a statement crosses a semicolon that is no line
end, if there is no brace in front of it. It stops short of the semicolon or fails in front of it,
and it does so whatever is behind. So two readers with the same tokens up to there stay together.
-/

namespace Scriptlet.Parser

variable {α β : Type} {s s' : State} {p q : Parser α} {f : α → Parser β}

/-- A semicolon that is no line end, and the tokens behind it for either of two readers, which are
the end token at least. -/
structure Fence where
  mark : Token
  behind : List Token
  behind' : List Token
  kind : mark.kind = .semicolon
  text : mark.isLineEnd = false
  ne_nil : behind ≠ []
  ne_nil' : behind' ≠ []

/-- A token that can stand between the fence and a reader. -/
def Plain (t : Token) : Prop := t.kind ≠ .semicolon ∧ t.kind ≠ .lbrace ∧ t.kind ≠ .rbrace

variable {F : Fence} {P : State → Prop} {k : Kind} {r : Rules}

/-- Two readers that have come to the same place in front of the fence, or onto it, and have found
the same errors. -/
structure Beside (F : Fence) (s s' : State) : Prop where
  good : s.Good
  good' : s'.Good
  errors : s'.errors = s.errors
  tokens : ∃ us, (∀ u ∈ us, Plain u) ∧ s.tokens = us ++ F.mark :: F.behind ∧
    s'.tokens = us ++ F.mark :: F.behind'

/-- A reader in front of the fence, not on it. -/
def Before (s : State) : Prop := s.current.kind ≠ .semicolon

theorem Beside.current (h : Beside F s s') : s'.current = s.current := by
  obtain ⟨us, -, ht, ht'⟩ := h.tokens
  cases us <;> exact (List.cons.inj ht').1.trans (List.cons.inj ht).1.symm

theorem Beside.current_kind (h : Beside F s s') :
    s.current.kind ≠ .lbrace ∧ s.current.kind ≠ .rbrace ∧ s.current.kind ≠ .eof := by
  obtain ⟨us, hp, ht, -⟩ := h.tokens
  cases us with
  | nil => simp [(List.cons.inj ht).1, F.kind]
  | cons u us =>
    obtain ⟨hc, hr⟩ := List.cons.inj ht
    obtain ⟨-, hl, hb⟩ := hp u (by simp)
    refine ⟨hc ▸ hl, hc ▸ hb, fun he => ?_⟩
    have hnil : s.rest = [] := h.good.rest_eq_nil_iff.mpr he
    simp [hnil] at hr

/-- What is ahead in front of the fence is the same for both. -/
theorem Beside.ahead (h : Beside F s s') (hb : Before s) : ∃ us, (∀ u ∈ us, Plain u) ∧
    s.rest = us ++ F.mark :: F.behind ∧ s'.rest = us ++ F.mark :: F.behind' := by
  obtain ⟨us, hp, ht, ht'⟩ := h.tokens
  cases us with
  | nil => exact absurd ((List.cons.inj ht).1 ▸ F.kind) hb
  | cons u us =>
    exact ⟨us, fun v hv => hp v (by simp [hv]), (List.cons.inj ht).2, (List.cons.inj ht').2⟩

/-- The next token is one on which both come to stand. -/
theorem Beside.advance (h : Beside F s s') (hb : Before s) : Beside F s.advance s'.advance := by
  obtain ⟨us, hp, ht, ht'⟩ := h.ahead hb
  refine ⟨h.good.advance, h.good'.advance, by simp [h.errors], us, hp, ?_, ?_⟩
  · cases us <;> simp [State.tokens, State.peek, ht]
  · cases us <;> simp [State.tokens, State.peek, ht']

theorem Beside.peek (h : Beside F s s') (hb : Before s) : s'.peek = s.peek := by
  simpa using (h.advance hb).current

/-- In front of the fence there is no line end, and it is none itself. -/
theorem Beside.peek_isLineEnd (h : Beside F s s') (hb : Before s) : s.peek.isLineEnd = false := by
  obtain ⟨us, hp, ht, -⟩ := h.ahead hb
  cases us with
  | nil => simpa [State.peek, ht] using F.text
  | cons u us => simp [State.peek, ht, Token.isLineEnd, (hp u (by simp)).1]

theorem Beside.record (h : Beside F s s') (pos : Position) (fault : SyntaxFault) :
    Beside F (s.record pos fault) (s'.record pos fault) :=
  ⟨h.good, h.good', by simp [h.errors], h.tokens⟩

/-- How the runs of two readers compare: they give the same and are still in front of the fence, or
both fail, or both stop. -/
inductive Abreast (F : Fence) :
    EStateM.Result Stop State α → EStateM.Result Stop State α → Prop where
  | ok {a : α} {t t' : State} (h : Beside F t t') (hb : Before t) : Abreast F (.ok a t) (.ok a t')
  | failed {t t' : State} (h : Beside F t t') : Abreast F (.error .failed t) (.error .failed t')
  | stops {e : Stop} {t t' : State} (he : e ≠ .failed) : Abreast F (.error e t) (.error e t')

/-- Two readers do the same by a rule, if they have come to a state of a kind. -/
def Fenced (F : Fence) (P : State → Prop) (p : Parser α) : Prop :=
  ∀ s s', Beside F s s' → P s → Abreast F (p s) (p s')

theorem Fenced.mono {Q : State → Prop} (h : Fenced F P p) (hP : ∀ s, Q s → P s) : Fenced F Q p :=
  fun s s' hs hq => h s s' hs (hP s hq)

theorem fenced_pure (a : α) : Fenced F Before (pure a : Parser α) := fun _ _ h hb => .ok h hb

theorem Fenced.bind (hp : Fenced F P p) (hf : ∀ a, Fenced F Before (f a)) :
    Fenced F P (p >>= f) := by
  intro s s' hs hP
  rw [bind_apply, bind_apply]
  have h := hp s s' hs hP
  generalize p s = res at h
  generalize p s' = res' at h
  cases h with
  | ok h hb => exact hf _ _ _ h hb
  | failed h => exact .failed h
  | stops he => exact .stops he

/-- A rule whose result is changed. -/
theorem Fenced.returns (h : Fenced F P p) (g : α → β) : Fenced F P (p >>= fun a => pure (g a)) :=
  h.bind fun _ => fenced_pure _

theorem fenced_tooDeep : Fenced F P (throw .tooDeep : Parser α) := fun _ _ _ _ => .stops (by simp)

/-- Behind the next token anything can be left, even nothing but the fence. -/
theorem fenced_advance {q : Unit → Parser β} (h : Fenced F (fun _ => True) (q ())) :
    Fenced F Before (advance >>= q) := fun _ _ hs hb => h _ _ (hs.advance hb) trivial

theorem fenced_current {g : Token → Parser β} (hg : ∀ t, Fenced F P (g t)) :
    Fenced F P (current >>= g) := by
  intro s s' h hP
  rw [current_bind, current_bind, h.current]
  exact hg _ s s' h hP

/-- What is read depends on the token ahead, and that is passed over only if it is not the fence. -/
theorem fenced_ifPeek {c : Token → Prop} [∀ t, Decidable (c t)]
    (hc : ∀ t, c t → t.kind ≠ .semicolon) (hp : Fenced F Before p) (hq : Fenced F Before q) :
    Fenced F Before (peek >>= fun t => if c t then (advance >>= fun _ => p) else q) := by
  intro s s' h hb
  rw [peek_bind, peek_bind, h.peek hb]
  split
  · next hx => exact hp _ _ (h.advance hb) (by simpa [Before] using hc _ hx)
  · exact hq s s' h hb

theorem fenced_ifPeekKind (hk : k ≠ .semicolon) (hp : Fenced F Before p)
    (hq : Fenced F Before q) :
    Fenced F Before (peek >>= fun t => if t.kind = k then (advance >>= fun _ => p) else q) :=
  fenced_ifPeek (c := fun t => t.kind = k) (fun _ ht => ht ▸ hk) hp hq

/-- Bounds that cut nothing off may differ. -/
theorem fenced_ahead {g : Nat → Parser β} (hg : ∀ n, Fenced F P (g n)) (hs : Fueled g) :
    Fenced F P (ahead >>= g) := by
  intro s s' h hP
  rw [ahead_bind, ahead_bind, hs.eq h.good (Nat.le_refl _) (Nat.le_max_left _ s'.rest.length),
    hs.eq h.good' (Nat.le_refl _) (Nat.le_max_right s.rest.length _)]
  exact hg _ s s' h hP

theorem fenced_expect (hk : k ≠ .semicolon) : Fenced F Before (expect k) := by
  intro s s' h hb
  rw [expect_apply, expect_apply, h.peek hb]
  split
  · next hp => exact .ok (h.advance hb) (by simpa [Before, hp] using hk)
  · exact .failed (h.record _ _)

/-- No brace is found in front of the fence. -/
theorem fenced_brace {q : Unit → Parser β} : Fenced F Before (expect .lbrace >>= q) := by
  intro s s' h hb
  have hne : s.peek.kind ≠ .lbrace := by simpa using (h.advance hb).current_kind.1
  rw [bind_apply, bind_apply, expect_apply, expect_apply, h.peek hb, if_neg hne, if_neg hne]
  exact .failed (h.record _ _)

theorem fenced_skipLineEndsUpTo (n : Nat) : Fenced F Before (skipLineEndsUpTo n) := by
  cases n with
  | zero => exact fenced_pure ()
  | succ n =>
    intro s s' h hb
    simp only [skipLineEndsUpTo, peek_bind, h.peek hb, h.peek_isLineEnd hb]
    exact .ok h hb

theorem fenced_skipLineEnds : Fenced F Before skipLineEnds :=
  fenced_ahead fenced_skipLineEndsUpTo fueled_skipLineEndsUpTo

namespace Rules

/-- Rules that do not cross the fence. Where an expression starts there may be nothing left in front
of it. -/
structure Fenced (F : Fence) (r : Rules) : Prop where
  sound : r.Sound
  expression (power : Nat) : Parser.Fenced F (fun _ => True) (r.expression power)
  statement : Parser.Fenced F Before r.statement

theorem fenced_moreItems (hr : r.Fenced F) (n : Nat) : Parser.Fenced F Before (r.moreItems n) := by
  induction n with
  | zero => exact fenced_pure _
  | succ n ih =>
    refine fenced_ifPeekKind (by simp) ?_ (fenced_pure _)
    exact fenced_skipLineEnds.bind fun _ => fenced_advance <| (hr.expression _).bind fun _ =>
      fenced_skipLineEnds.bind fun _ => ih.returns _

theorem fenced_list (hr : r.Fenced F) {close : Kind} (hc : close ≠ .semicolon) :
    Parser.Fenced F Before (r.list close) := by
  refine fenced_skipLineEnds.bind fun _ => fenced_ifPeekKind hc (fenced_pure _) ?_
  refine fenced_advance <| (hr.expression _).bind fun item => fenced_skipLineEnds.bind fun _ => ?_
  exact fenced_ahead (fun n => (fenced_moreItems hr n).bind fun _ => (fenced_expect hc).returns _)
    ((fueled_moreItems hr.sound).then _)

theorem fenced_moreParams (n : Nat) : Parser.Fenced F Before (moreParams n) := by
  induction n with
  | zero => exact fenced_pure _
  | succ n ih =>
    refine fenced_ifPeekKind (by simp) ?_ (fenced_pure _)
    exact (fenced_expect (by simp)).bind fun _ => fenced_current fun _ => ih.returns _

theorem fenced_params : Parser.Fenced F Before params := by
  refine fenced_ifPeekKind (by simp) (fenced_pure _) ?_
  refine (fenced_expect (by simp)).bind fun _ => fenced_current fun _ => ?_
  exact fenced_ahead
    (fun n => (fenced_moreParams n).bind fun _ => (fenced_expect (by simp)).returns _)
    (fueled_moreParams.then _)

/-- The body of a function is behind a brace. -/
theorem fenced_function : Parser.Fenced F Before r.function :=
  (fenced_expect (by simp)).bind fun _ => fenced_params.bind fun _ => fenced_brace

theorem fenced_conditional (hr : r.Fenced F) : Parser.Fenced F Before r.conditional :=
  (fenced_expect (by simp)).bind fun _ => fenced_advance <| (hr.expression _).bind fun _ =>
    (fenced_expect (by simp)).bind fun _ => fenced_brace

theorem fenced_group (hr : r.Fenced F) : Parser.Fenced F Before r.group :=
  fenced_advance <| (hr.expression _).bind fun _ => fenced_skipLineEnds.bind fun _ =>
    (fenced_expect (by simp)).returns _

theorem abreast_integer (h : Beside F s s') (hb : Before s) (t : Token) :
    Abreast F (integer t s) (integer t s') := by
  simp only [integer]
  split
  · exact .stops (by simp)
  · split
    · exact .failed (h.record _ _)
    · exact .ok h hb

theorem fenced_operand (hr : r.Fenced F) : Parser.Fenced F (fun _ => True) r.operand := by
  intro s s' h _
  have hbrace := h.current_kind.1
  have hop (op : PrefixOp) : Parser.Fenced F Before
      (advance >>= fun _ => r.expression Power.unary >>= fun e => pure (Expr.unary op e)) :=
    fenced_advance <| (hr.expression _).returns _
  have hb (hk : s.current.kind ≠ .semicolon) : Before s := hk
  simp only [operand, current_bind, h.current]
  generalize s.current.kind = k at hbrace hb
  split
  · exact .ok h (hb (by simp))
  · exact abreast_integer h (hb (by simp)) _
  · exact .ok h (hb (by simp))
  · exact .ok h (hb (by simp))
  · exact .ok h (hb (by simp))
  · exact hop .not s s' h (hb (by simp))
  · exact hop .neg s s' h (hb (by simp))
  · exact fenced_group hr s s' h (hb (by simp))
  · exact fenced_conditional hr s s' h (hb (by simp))
  · exact fenced_function s s' h (hb (by simp))
  · exact (fenced_list hr (by simp)).returns _ s s' h (hb (by simp))
  · exact absurd rfl hbrace
  · exact .failed (h.record _ _)
  · -- the fence itself is among the tokens that start no expression
    exact .failed (h.record _ _)

theorem fenced_extend (hr : r.Fenced F) (left : Expr) : Parser.Fenced F Before (r.extend left) := by
  refine fenced_current fun t => ?_
  simp only
  split
  · exact (fenced_list hr (by simp)).returns _
  · exact fenced_advance <| (hr.expression _).bind fun _ => fenced_skipLineEnds.bind fun _ =>
      (fenced_expect (by simp)).returns _
  · split
    · exact fenced_pure _
    · exact fenced_advance <| (hr.expression _).returns _

/-- The fence is no operator. -/
theorem fenced_chain (hr : r.Fenced F) (power n : Nat) (left : Expr) :
    Parser.Fenced F Before (r.chain power n left) := by
  induction n generalizing left with
  | zero => exact fenced_pure _
  | succ n ih =>
    refine fenced_ifPeek (fun x hx hk => ?_) ((fenced_extend hr left).bind ih) (fenced_pure _)
    simp [hk, Kind.power, Power.lowest] at hx

theorem fenced_expressionFrom (hr : r.Fenced F) (power : Nat) (left : Expr) :
    Parser.Fenced F Before (r.expressionFrom power left) :=
  fenced_ahead (fun n => fenced_chain hr power n left) (fueled_chain hr.sound power left)

theorem fenced_expressionRule (hr : r.Fenced F) (power : Nat) :
    Parser.Fenced F (fun _ => True) (r.expressionRule power) :=
  (fenced_operand hr).bind (fenced_expressionFrom hr power)

theorem fenced_statementRule (hr : r.Fenced F) : Parser.Fenced F Before r.statementRule := by
  intro s s' h hb
  have hbrace := h.current_kind.1
  have he {g : Expr → Stmt} :
      Parser.Fenced F (fun _ => True) (r.expression Power.lowest >>= fun e => pure (g e)) :=
    (hr.expression _).returns _
  simp only [statementRule, current_bind, h.current]
  generalize s.current.kind = k at hbrace
  split
  · exact fenced_advance he s s' h hb
  · exact absurd rfl hbrace
  · refine fenced_ifPeek (fun x hx => ?_) (fenced_advance he) (he.mono fun _ _ => trivial) s s' h hb
    simp only [Bool.and_eq_true, decide_eq_true_eq] at hx
    simp [hx.2]

end Rules

/-- At no depth do the rules cross the fence. -/
theorem fenced_rules (F : Fence) (n : Nat) : (rules n).Fenced F := by
  induction n with
  | zero => exact ⟨sound_rules 0, fun _ => fenced_tooDeep, fenced_tooDeep⟩
  | succ n ih =>
    exact ⟨sound_rules (n + 1), fun power => Rules.fenced_expressionRule ih power,
      Rules.fenced_statementRule ih⟩

end Scriptlet.Parser
