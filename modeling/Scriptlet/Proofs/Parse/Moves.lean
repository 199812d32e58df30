import Scriptlet.Proofs.Parse.Discipline
import Scriptlet.Proofs.Parse.Online

/-!
Every move is a move on. Rules move the reader on from tokens other than the end token only, so that
the moves that it has made and the tokens that it has ahead come to one number together.
-/

namespace Scriptlet.Parser

variable {α β : Type} {s t : State} {p : Parser α} {f : α → Parser β} {r : Rules} {kind : Kind}
  {P P' : State → Prop} {Q Q' : α → State → Prop} {R : β → State → Prop}

/-- The moves that a reader has made and the tokens that it has ahead. Every move is counted, also
one from the end token, which leaves no fewer tokens ahead. -/
def State.account (s : State) : Nat := s.moves + s.rest.length

theorem account_advance (h : s.rest ≠ []) : s.advance.account = s.account := by
  obtain ⟨c, cs, hc⟩ := List.exists_cons_of_ne_nil h
  simp only [State.account, State.advance, hc, List.length_cons]
  omega

theorem account_advance_end (h : s.rest = []) : s.advance.account = s.account + 1 := by
  simp only [State.account, State.advance, h]
  omega

theorem Steps.account_le (h : Steps s t) : s.account ≤ t.account := by
  induction h with
  | refl => exact Nat.le_refl _
  | @tail t u _ hs ih =>
    refine Nat.le_trans ih ?_
    cases hs with
    | advance =>
      by_cases hr : t.rest = []
      · exact account_advance_end hr ▸ Nat.le_succ _
      · exact Nat.le_of_eq (account_advance hr).symm
    | atCurrent | atPeek => exact Nat.le_refl _

/-- One thing that is done to a reader: it is moved on from a token that is not the end token, or
one more error is recorded. -/
inductive Forward : State → State → Prop where
  | advance {s : State} (h : s.current.kind ≠ .eof) : Forward s s.advance
  | record (s : State) (pos : Position) (fault : SyntaxFault) : Forward s (s.record pos fault)

/-- Where the account is even, no move led nowhere. -/
theorem Steps.forward (h : Steps s t) (hg : s.Good) (ha : t.account = s.account) :
    Relation.ReflTransGen Forward s t := by
  induction h with
  | refl => exact .refl
  | @tail t u hst hs ih =>
    have hle := Steps.account_le hst
    have hle' : t.account ≤ u.account := Steps.account_le (.single hs)
    -- the account never falls, so that it is even up to the last step and in it
    have ht := ih (by omega)
    cases hs with
    | advance =>
      refine ht.tail (.advance fun hk => ?_)
      have hend := account_advance_end ((Steps.good hst hg).rest_eq_nil_iff.mpr hk)
      omega
    | atCurrent | atPeek => exact ht.tail (.record ..)

/-! ### Single steps -/

/-- The reader is not at the end token. -/
abbrev Within (s : State) : Prop := s.Ready .behind

theorem Within.good (h : Within s) : s.Good := h.1

theorem State.Good.within (h : s.Good) (hk : s.current.kind ≠ .eof) : Within s := h.ready_behind hk

/-- How a run ends that has kept the account even. -/
def Spends (s : State) (Q : α → State → Prop) : EStateM.Result Stop State α → Prop
  | .ok a t => t.account = s.account ∧ Q a t
  | .error _ t => t.account = s.account ∧ t.Good

/-- From states of one kind a rule keeps the account even, and it ends in states of another kind. -/
def Thrifty (P : State → Prop) (Q : α → State → Prop) (p : Parser α) : Prop :=
  ∀ s, P s → Spends s Q (p s)

theorem Spends.of_account {res : EStateM.Result Stop State α} (h : Spends t Q res)
    (ha : t.account = s.account) : Spends s Q res := by
  cases res with
  | ok a u => exact ⟨h.1.trans ha, h.2⟩
  | error e u => exact ⟨h.1.trans ha, h.2⟩

theorem Spends.bind (hp : Spends s Q (p s)) (hf : ∀ a t, Q a t → Spends t R (f a t)) :
    Spends s R ((p >>= f) s) := by
  rw [bind_apply]
  cases hps : p s with
  | ok a t =>
    rw [hps] at hp
    exact (hf a t hp.2).of_account hp.1
  | error e t =>
    rw [hps] at hp
    exact hp

theorem Thrifty.bind (hp : Thrifty P Q p) (hf : ∀ a, Thrifty (Q a) R (f a)) :
    Thrifty P R (p >>= f) :=
  fun s hs => (hp s hs).bind hf

theorem thrifty_pure (a : α) : Thrifty P (fun _ => P) (pure a : Parser α) := fun _ hs => ⟨rfl, hs⟩

/-- A rule whose result is changed. -/
theorem Thrifty.returns {Q : State → Prop} (h : Thrifty P (fun _ => Q) p) (g : α → β) :
    Thrifty P (fun _ => Q) (p >>= fun a => pure (g a)) :=
  h.bind fun _ => thrifty_pure _

theorem thrifty_stop (stop : Stop) : Thrifty State.Good Q (throw stop : Parser α) :=
  fun _ hs => ⟨rfl, hs⟩

/-- The reader moves on from a token that is not the end token. -/
theorem thrifty_advance {g : Unit → Parser β} (hg : Thrifty State.Good R (g ())) :
    Thrifty Within R (advance >>= g) :=
  fun s hs => (hg s.advance hs.good.advance).of_account (account_advance hs.2)

/-! ### Rules -/

/-- What is known of a reader of which the account is even. Where a token has been read, it is not the
end token. -/
def Accounted : Stage → State → Prop
  | .behind, s => Within s
  | .wrong, s => Within s
  | _, s => s.Good

/-- If a rule that is attempted has read something, the reader is not at the end token. -/
theorem Spends.attempt {p : Parser α} (h : Spends s (fun _ => Within) (p s)) :
    Spends s (fun o => Accounted (.attempted o)) (attempt p s) := by
  unfold Parser.attempt
  match p s, h with
  | .ok _ _, h => exact h
  | .error .failed _, h => exact h
  | .error .tooDeep _, h => exact h
  | .error (.literalTooLong _) _, h => exact h

theorem spends_integer (t : Token) (hs : Within s) :
    Spends s (fun _ => Within) (Rules.integer t s) := by
  simp only [Rules.integer]
  split
  · exact ⟨rfl, hs.good⟩
  · split
    · exact ⟨rfl, hs.good⟩
    · exact ⟨rfl, hs⟩

/-- The account is kept even. -/
def thrift : Discipline where
  toCompanion := .same
  Keeps i J s x _ := Accounted i s → Spends s (fun a => Accounted (J a)) x
  pure _ _ _ hs := ⟨rfl, hs⟩
  bind hp hf hs := (hp hs).bind hf
  turn ht hx hs := by
    cases ht with
    | read he _ => exact hx (State.Good.within hs he)
    | close hk => exact hx (State.Good.within hs (by simp [hk]))
    | start | between | statement | seek | found | resume => exact hx hs
  advance _ hs := ⟨account_advance hs.2, hs.good.advance⟩
  pass he _ hs := ⟨account_advance hs.2, hs.good.advance.within (by simpa using he)⟩
  failCurrent _ _ hs := ⟨rfl, hs⟩
  failPeek _ _ hs := ⟨rfl, hs.good⟩
  integer hk hs := spends_integer _ (State.Good.within hs (by simp [hk]))
  attempt h hs := (h hs).attempt
  unterminated _ hs := ⟨rfl, hs⟩
  leave _ hs := ⟨account_advance hs.2, hs.good.advance⟩
  skip he hs := ⟨account_advance (State.Good.rest_ne_nil hs he), State.Good.advance hs⟩

namespace Rules

/-- Rules that keep the account even. An expression and a statement end on a token that is not the
end token. -/
structure Thrifty (r : Rules) : Prop where
  expression (power : Nat) : Parser.Thrifty State.Good (fun _ => Within) (r.expression power)
  statement : Parser.Thrifty State.Good (fun _ => Within) r.statement

theorem Thrifty.governs (hr : r.Thrifty) : thrift.Governs r r :=
  ⟨hr.expression, hr.statement⟩

theorem thrifty_program (hr : r.Thrifty) (n : Nat) (recovering : Bool) :
    Parser.Thrifty State.Good (fun _ => State.Good) (r.program n recovering) := by
  induction n generalizing recovering with
  | zero => exact thrifty_pure _
  | succ n ih =>
    intro s hs
    have hterminated : Parser.Thrifty State.Good (fun _ => State.Good) r.terminated :=
      Discipline.holds_terminated hr.governs.statement
    simp only [program, get_bind]
    generalize hk : s.current.kind = k
    split
    · exact ⟨rfl, hs⟩
    · have hnext : Parser.Thrifty Within (fun _ => State.Good)
          (advance >>= fun _ => r.program n false) := thrifty_advance (ih false)
      have hin : Within s := hs.within (by simp [hk])
      cases recovering with
      | true => exact hnext s hin
      | false => exact hnext (s.record s.current.pos .strayBrace) hin
    · refine (hterminated.bind fun o => ?_) s hs
      exact fun t ht => (ih _).returns (fun ss => o.toList ++ ss) t ht

end Rules

/-- At every depth the rules keep the account even. -/
theorem thrifty_rules (n : Nat) : (rules n).Thrifty := by
  induction n with
  | zero => exact ⟨fun _ => thrifty_stop _, thrifty_stop _⟩
  | succ n ih =>
    exact ⟨Discipline.holds_expressionRule ih.governs,
      Discipline.holds_statementRule ih.governs ih.expression⟩

end Scriptlet.Parser
