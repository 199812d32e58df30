import Scriptlet.Parse.Program
import Scriptlet.Proofs.Parse.Discipline

/-!
Room for all nesting. A rule for a nested phrase runs only after the reader has moved on, so that
twice as much depth as there are tokens ahead, and a little more, is never exhausted.
-/

namespace Scriptlet.Parser

variable {α β : Type} {s t : State} {p : Parser α} {f : α → Parser β} {j k n : Nat} {r : Rules}

/-- A run ended otherwise than for want of depth, with the reader not in front of where it was. -/
def Contained (s : State) : EStateM.Result Stop State α → Prop
  | .ok _ t => t.Good ∧ t.rest.length ≤ s.rest.length
  | .error .failed t => t.Good ∧ t.rest.length ≤ s.rest.length
  | .error .tooDeep _ => False
  | .error (.literalTooLong _) _ => True

/-- A rule has room for the given number of tokens ahead. -/
def Fits (k : Nat) (p : Parser α) : Prop := ∀ s, s.Good → s.rest.length ≤ k → Contained s (p s)

theorem contained_integer (t : Token) (hs : s.Good) : Contained s (Rules.integer t s) := by
  simp only [Rules.integer]
  split
  · trivial
  · split
    · exact ⟨hs, Nat.le_refl _⟩
    · exact ⟨hs, Nat.le_refl _⟩

theorem Contained.bind (hp : Contained s (p s))
    (hf : ∀ a t, p s = .ok a t → t.Good → Contained t (f a t)) : Contained s ((p >>= f) s) := by
  rw [bind_apply]
  generalize p s = res at hp hf
  match res, hp with
  | .ok a t, ⟨hg, hl⟩ =>
    have ht := hf a t rfl hg
    simp only
    generalize f a t = res at ht
    match res, ht with
    | .ok _ _, h => exact ⟨h.1, Nat.le_trans h.2 hl⟩
    | .error .failed _, h => exact ⟨h.1, Nat.le_trans h.2 hl⟩
    | .error (.literalTooLong _) _, _ => trivial
  | .error .failed _, h => exact h
  | .error (.literalTooLong _) _, _ => trivial

theorem Contained.ok {a : α} {res : EStateM.Result Stop State α} (h : Contained s res)
    (hr : res = .ok a t) : t.Good ∧ t.rest.length ≤ s.rest.length := by
  subst hr
  exact h

theorem contained_advance (hs : s.Good) : Contained s (.ok () s.advance) := ⟨hs.advance, by simp⟩

theorem Fits.bind (hp : Fits k p) (hf : ∀ a, Fits k (f a)) : Fits k (p >>= f) :=
  fun s hg hs => (hp s hg hs).bind fun a t ht hgt =>
    hf a t hgt (Nat.le_trans ((hp s hg hs).ok ht).2 hs)

theorem fits_pure (a : α) : Fits k (pure a : Parser α) := fun _ hg _ => ⟨hg, Nat.le_refl _⟩

theorem fits_get : Fits k (get : Parser State) := fun _ hg _ => ⟨hg, Nat.le_refl _⟩

theorem fits_record (pos : Position) (fault : SyntaxFault) : Fits k (record pos fault) :=
  fun _ hg _ => ⟨hg, Nat.le_refl _⟩

theorem fits_advance : Fits k advance := fun _ hg _ => contained_advance hg

/-! ### Rules -/

/-- How many tokens there can be ahead of a reader at a stage if a nested phrase, which starts behind
another token, has room for the given number. -/
def limit (k : Nat) : Stage → Nat
  | .start => k + 1
  | .behind => k + 1
  | .wrong => k + 1
  | _ => k

theorem Stage.Turns.limit_le {i j : Stage} (h : i.Turns s j) : limit k i ≤ limit k j := by
  cases h <;> simp [limit]

/-- A run ended so, and with no more tokens ahead than the stage allows. -/
def Confined (k : Nat) (J : α → Stage) (s : State) (x : EStateM.Result Stop State α) : Prop :=
  Contained s x ∧ ∀ a t, x = .ok a t → t.rest.length ≤ limit k (J a)

theorem Contained.confined {J : α → Stage} {x : EStateM.Result Stop State α} (h : Contained s x)
    (hs : ∀ a, s.rest.length ≤ limit k (J a)) : Confined k J s x :=
  ⟨h, fun a _ ht => Nat.le_trans (h.ok ht).2 (hs a)⟩

theorem confined_ok {J : α → Stage} {a : α} (hc : Contained s (.ok a t))
    (hl : t.rest.length ≤ limit k (J a)) : Confined k J s (.ok a t) := by
  refine ⟨hc, ?_⟩
  rintro _ _ ⟨⟩
  exact hl

theorem Confined.bind {J : α → Stage} {K : β → Stage} (hp : Confined k J s (p s))
    (hf : ∀ a t, t.Good → t.rest.length ≤ limit k (J a) → Confined k K t (f a t)) :
    Confined k K s ((p >>= f) s) := by
  refine ⟨hp.1.bind fun a t ht hg => (hf a t hg (hp.2 a t ht)).1, fun b u hu => ?_⟩
  obtain ⟨a, t, ht, hu⟩ := bind_eq_ok.mp hu
  exact (hf a t (hp.1.ok ht).1 (hp.2 a t ht)).2 b u hu

theorem Confined.attempt (h : Confined k (fun _ => .behind) s (p s))
    (hs : s.rest.length ≤ limit k .before) : Confined k .attempted s (attempt p s) := by
  unfold Parser.attempt
  match p s, h with
  | .ok a t, h => exact confined_ok h.1 (h.2 a t rfl)
  | .error .failed t, h => exact confined_ok h.1 (Nat.le_trans h.1.2 hs)
  | .error (.literalTooLong _) _, _ => exact ⟨trivial, nofun⟩

/-- There is room enough. -/
def fitting (k : Nat) : Discipline where
  toCompanion := .same
  Keeps i J s x _ := s.Good → s.rest.length ≤ limit k i → Confined k J s x
  pure _ _ _ hg hs := Contained.confined ⟨hg, Nat.le_refl _⟩ fun _ => hs
  bind hp hf hg hs := (hp hg hs).bind hf
  turn ht hx hg hs := hx hg (Nat.le_trans hs ht.limit_le)
  advance _ hg hs := confined_ok (contained_advance hg) (by simpa [limit] using hs)
  pass _ _ hg hs := (contained_advance hg).confined fun _ => hs
  failCurrent _ _ hg _ := ⟨⟨hg, Nat.le_refl _⟩, nofun⟩
  failPeek _ _ hg _ := ⟨⟨hg, Nat.le_refl _⟩, nofun⟩
  integer _ hg hs := (contained_integer _ hg).confined fun _ => hs
  attempt h hg hs := (h hg hs).attempt hs
  unterminated _ hg hs := confined_ok ⟨hg, Nat.le_refl _⟩ hs
  leave _ hg hs := confined_ok (contained_advance hg) (by simpa [limit] using hs)
  skip _ hg hs := (contained_advance hg).confined fun _ => hs

theorem fits_of_holds {i : Stage} {J : α → Stage} (h : (fitting k).Holds i J p p) :
    Fits (limit k i) p := fun s hg hs => (h s hg hs).1

theorem Fits.holds {i j : Stage} (h : Fits (limit k i) p) (hij : limit k i ≤ limit k j) :
    (fitting k).Holds i (fun _ => j) p p := fun s hg hs =>
  (h s hg hs).confined fun _ => Nat.le_trans hs hij

namespace Rules

/-- Rules with room for the given number of tokens ahead. -/
structure Fit (r : Rules) (k : Nat) : Prop where
  expression (power : Nat) : Fits k (r.expression power)
  statement : Fits k r.statement

theorem Fit.governs (hr : r.Fit k) : (fitting k).Governs r r :=
  ⟨fun power => Fits.holds (i := .before) (hr.expression power) (Nat.le_succ k),
    Fits.holds (i := .before) hr.statement (Nat.le_succ k)⟩

theorem fits_terminated (hr : Fits k r.statement) : Fits k r.terminated :=
  fits_of_holds (i := .before)
    (Discipline.holds_terminated (Fits.holds (i := .before) hr (Nat.le_succ k)))

theorem fits_expressionRule (hr : r.Fit k) (power : Nat) : Fits (k + 1) (r.expressionRule power) :=
  fits_of_holds (Discipline.holds_expressionRule hr.governs power)

/-- A statement is read with the rule for expressions on its first token or behind it. -/
theorem fits_statementRule (hr : r.Fit k) (he : ∀ power, Fits (k + 1) (r.expression power)) :
    Fits (k + 1) r.statementRule :=
  fits_of_holds (Discipline.holds_statementRule hr.governs fun power =>
    Fits.holds (i := .start) (he power) (Nat.le_refl _))

/-- No expression starts with the end token, so that none is nested in it. -/
theorem fits_zero_expressionRule (power : Nat) : Fits 0 (r.expressionRule power) := by
  intro s hg hs
  have hk := hg.rest_eq_nil_iff.mp (List.eq_nil_of_length_eq_zero (Nat.le_zero.mp hs))
  have ho : r.operand s = .error .failed (s.record s.current.pos (.noExpression .eof)) := by
    simp only [operand, current_bind, hk]
    rfl
  rw [expressionRule, bind_apply, ho]
  exact ⟨hg, Nat.le_refl _⟩

theorem fits_zero_statementRule (he : Fits 0 (r.expression Power.lowest)) :
    Fits 0 r.statementRule := by
  intro s hg hs
  have hk := hg.rest_eq_nil_iff.mp (List.eq_nil_of_length_eq_zero (Nat.le_zero.mp hs))
  simp only [statementRule, current_bind, hk]
  exact (he.bind fun _ => fits_pure _) s hg hs

theorem fits_program (hr : Fits k r.statement) (n : Nat) (recovering : Bool) :
    Fits k (r.program n recovering) := by
  induction n generalizing recovering with
  | zero => exact fits_pure _
  | succ n ih =>
    refine fits_get.bind fun s => ?_
    split
    · exact fits_pure _
    · cases recovering
      · exact (fits_record _ _).bind fun _ => fits_advance.bind fun _ => ih false
      · exact fits_advance.bind fun _ => ih false
    · exact (fits_terminated hr).bind fun _ => fits_get.bind fun _ => (ih _).bind fun _ =>
        fits_pure _

end Rules

/-- Expressions and statements have room for all tokens ahead if the depth is twice as much. -/
theorem fits_rules (n : Nat) : (∀ k power, 2 * k + 1 ≤ n → Fits k ((rules n).expression power)) ∧
    ∀ k, 2 * k + 2 ≤ n → Fits k (rules n).statement := by
  induction n with
  | zero => exact ⟨fun _ _ h => by omega, fun _ h => by omega⟩
  | succ n ih =>
    obtain ⟨he, hs⟩ := ih
    have hr : ∀ k, 2 * k + 2 ≤ n → (rules n).Fit k := fun k hk =>
      ⟨fun power => he k power (by omega), hs k hk⟩
    refine ⟨fun k power hk => ?_, fun k hk => ?_⟩
    · cases k with
      | zero => exact Rules.fits_zero_expressionRule power
      | succ k => exact Rules.fits_expressionRule (hr k (by omega)) power
    · cases k with
      | zero => exact Rules.fits_zero_statementRule (he 0 _ (by omega))
      | succ k =>
        exact Rules.fits_statementRule (hr k (by omega)) fun power => he (k + 1) power (by omega)

/-- The nesting of the tokens is too much for the depth. -/
def Exhausts (depth : Nat) (tokens : List Token) : Prop :=
  ∃ t, run depth tokens = .error .tooDeep t

/-- No depth of twice the number of tokens is exhausted. -/
theorem not_exhausts {depth : Nat} {tokens : List Token} (hl : Lexed tokens)
    (hd : 2 * tokens.length ≤ depth) : ¬ Exhausts depth tokens := by
  rintro ⟨t, ht⟩
  obtain ⟨c, cs, rfl⟩ := List.exists_cons_of_ne_nil hl.ne_nil
  have hs : Fits cs.length (rules depth).statement :=
    (fits_rules depth).2 _ (by simp at hd; omega)
  have hp := Rules.fits_program hs cs.length false (.ofTokens (c :: cs)) hl (Nat.le_refl _)
  change (rules depth).program cs.length false (.ofTokens (c :: cs)) = _ at ht
  rw [ht] at hp
  exact hp

/-- The kinds of token behind which an operand nests an expression at once. -/
def Opens (k : Kind) : Prop := k = .lparen ∨ k = .minus ∨ k = .bang

/-- An expression is too deep if it starts with as many tokens that nest as there is depth. -/
theorem expression_of_opens {ts us : List Token} {power : Nat} (ht : ∀ t ∈ ts, Opens t.kind)
    (hn : n ≤ ts.length) (hu : us ≠ []) (hs : s.tokens = ts ++ us) :
    ∃ t, (rules n).expression power s = .error .tooDeep t := by
  induction n generalizing ts s power with
  | zero => exact ⟨s, rfl⟩
  | succ n ih =>
    cases ts with
    | nil => simp at hn
    | cons c ts =>
      obtain ⟨hc, hr⟩ := List.cons.inj hs
      have ha : s.advance.tokens = ts ++ us := by
        obtain ⟨d, ds, hd⟩ := List.exists_cons_of_ne_nil (l := ts ++ us) (by simp [hu])
        have hr' : s.rest = d :: ds := hr.trans hd
        simp [State.tokens, State.peek, hr', hd]
      have hi (q : Nat) : ∃ t, (rules n).expression q s.advance = .error .tooDeep t :=
        ih (fun t h => ht t (by simp [h])) (by simpa using hn) ha
      have hk : Opens s.current.kind := hc ▸ ht c (by simp)
      have ho : ∃ t, (rules n).operand s = .error .tooDeep t := by
        rcases hk with hk | hk | hk
        · obtain ⟨t, h⟩ := hi Power.lowest
          refine ⟨t, ?_⟩
          simp only [Rules.operand, current_bind, hk, Rules.group, advance_bind]
          rw [bind_apply, h]
        · obtain ⟨t, h⟩ := hi Power.unary
          refine ⟨t, ?_⟩
          simp only [Rules.operand, current_bind, hk, advance_bind]
          rw [bind_apply, h]
        · obtain ⟨t, h⟩ := hi Power.unary
          refine ⟨t, ?_⟩
          simp only [Rules.operand, current_bind, hk, advance_bind]
          rw [bind_apply, h]
      obtain ⟨t, h⟩ := ho
      refine ⟨t, ?_⟩
      change (rules n).expressionRule power s = _
      rw [Rules.expressionRule, bind_apply, h]

theorem statement_of_opens {ts us : List Token} (ht : ∀ t ∈ ts, Opens t.kind)
    (hn : n ≤ ts.length + 1) (hts : ts ≠ []) (hu : us ≠ []) (hs : s.tokens = ts ++ us) :
    ∃ t, (rules n).statement s = .error .tooDeep t := by
  cases n with
  | zero => exact ⟨s, rfl⟩
  | succ n =>
    obtain ⟨c, cs, rfl⟩ := List.exists_cons_of_ne_nil hts
    have hk : Opens s.current.kind := (List.cons.inj hs).1 ▸ ht c (by simp)
    obtain ⟨t, h⟩ : ∃ t, (rules n).expression Power.lowest s = .error .tooDeep t :=
      expression_of_opens ht (Nat.le_of_succ_le_succ hn) hu hs
    refine ⟨t, ?_⟩
    change (rules n).statementRule s = _
    rcases hk with hk | hk | hk
    all_goals
      simp only [Rules.statementRule, current_bind, hk, peek_bind]
      rw [if_neg (by simp), bind_apply, h]

/-- A program that starts with nearly as many tokens that nest as there is depth exhausts it. -/
theorem exhausts_of_opens {depth : Nat} {ts us : List Token} (ht : ∀ t ∈ ts, Opens t.kind)
    (hd : depth ≤ ts.length + 1) (hts : ts ≠ []) (hu : us ≠ []) : Exhausts depth (ts ++ us) := by
  obtain ⟨c, cs, rfl⟩ := List.exists_cons_of_ne_nil hts
  let s := State.ofTokens (c :: cs ++ us)
  have hk : Opens s.current.kind := ht c (by simp)
  obtain ⟨t, h⟩ := statement_of_opens (s := s) ht hd hts hu rfl
  have hterm : (rules depth).terminated s = .error .tooDeep t := by
    have hsemi : s.current.kind ≠ .semicolon := by rcases hk with hk | hk | hk <;> simp [hk]
    rw [Rules.terminated, current_bind, if_neg hsemi, bind_apply, attempt, h]
  obtain ⟨m, hm⟩ : ∃ m, (cs ++ us).length = m + 1 :=
    Nat.exists_eq_succ_of_ne_zero (by simp [hu])
  refine ⟨t, ?_⟩
  change (rules depth).program (cs ++ us).length false s = _
  rw [hm]
  rcases hk with hk | hk | hk
  all_goals
    simp only [Rules.program, get_bind, hk]
    rw [bind_apply, hterm]

end Scriptlet.Parser
