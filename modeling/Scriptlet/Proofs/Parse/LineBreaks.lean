import Scriptlet.Proofs.Parse.Acceptance
import Scriptlet.Proofs.Parse.Fuel
import Scriptlet.Proofs.Parse.HashmapStatement
import Scriptlet.Proofs.Parse.Moved

/-!
Line ends in brackets. In front of a comma or a closing bracket rules pass over line ends, so that a
reader of the tokens with one more there does the same as a reader of those without it. Only behind
the condition of a conditional and among the parameters of a function no line end is passed over.
-/

namespace Scriptlet

variable {us ts : List Token} {c : Token}

/-- The tokens end with the condition of a conditional. -/
def BehindCondition (us : List Token) : Prop :=
  ∃ before i o e ts, us = before ++ i :: o :: ts ∧ i.kind = .kwIf ∧ o.kind = .lparen ∧
    Derives (.expr 1 e) ts

/-- The tokens end with a parameter of a function. -/
def BehindParameter (us : List Token) : Prop :=
  ∃ before f o ts t, us = before ++ f :: o :: (ts ++ [t]) ∧ f.kind = .kwFn ∧ o.kind = .lparen ∧
    (∀ c ∈ ts, c.kind = .ident ∨ c.kind = .comma) ∧ t.kind = .ident

/-- The kinds of token that end a part of something in brackets. -/
def Kind.endsPart (k : Kind) : Bool :=
  match k with
  | .comma | .rparen | .rbracket | .rbrace => true
  | _ => false

theorem Kind.power_of_endsPart {k : Kind} (h : k.endsPart = true) : k.power = 0 := by
  cases k <;> first | rfl | cases h

namespace Parser

/-- A line end in front of the end of a part, and the tokens around both. -/
structure LineBreak where
  front : List Token
  mark : Token
  next : Token
  behind : List Token
  isLineEnd : mark.isLineEnd = true
  endsPart : next.kind.endsPart = true
  endsStatement : EndsStatement front
  notBehindCondition : ¬ BehindCondition front
  notBehindParameter : ¬ BehindParameter front

variable {α β : Type} {s s' t : State} {p : Parser α} {f : α → Parser β} {k : Kind} {r : Rules}

namespace LineBreak

variable {B : LineBreak}

theorem mark_kind (B : LineBreak) : B.mark.kind = .semicolon := by
  have := B.isLineEnd
  simp only [Token.isLineEnd, Bool.and_eq_true, beq_iff_eq] at this
  exact this.1

theorem next_isLineEnd (B : LineBreak) : B.next.isLineEnd = false := by
  have := B.endsPart
  simp only [Token.isLineEnd]
  generalize B.next.kind = k at this
  cases k <;> simp_all [Kind.endsPart]

/-- Both readers stand on the same token in front of the line break, with the same tokens between it
and the break, and have found the same errors. -/
structure Facing (B : LineBreak) (us : List Token) (s s' : State) : Prop where
  good : s.Good
  good' : s'.Good
  errors : s'.errors = s.errors
  moves : s'.moves = s.moves
  current : s'.current = s.current
  rest : s.rest = us ++ B.next :: B.behind
  rest' : s'.rest = us ++ B.mark :: B.next :: B.behind
  front : ∃ before, B.front = before ++ s.current :: us

/-- Both readers are in front of the line break. -/
def Front (B : LineBreak) (s s' : State) : Prop := ∃ us, B.Facing us s s'

/-- Both readers are in front of the line break, and on a token of the kind. -/
def At (B : LineBreak) (k : Kind) (s s' : State) : Prop := B.Front s s' ∧ s.current.kind = k

/-- The line break is not directly ahead. -/
def Far (B : LineBreak) (s s' : State) : Prop := ∃ u us, B.Facing (u :: us) s s'

/-- One reader is directly in front of where the line break is for the other, which is on it. -/
structure Onto (B : LineBreak) (s s' : State) : Prop where
  good : s.Good
  good' : s'.Good
  errors : s'.errors = s.errors
  moves : s'.moves = s.moves + 1
  rest : s.rest = B.next :: B.behind
  rest' : s'.rest = B.next :: B.behind

/-- Both readers have the same token ahead, and not the line break. -/
def Ready (B : LineBreak) (s s' : State) : Prop := B.Far s s' ∨ B.Onto s s'

/-- The move of the reader that has passed over the line break. -/
def passed : Move := ⟨id, [], 1⟩

theorem Far.front (h : B.Far s s') : B.Front s s' := by
  obtain ⟨u, us, h⟩ := h
  exact ⟨u :: us, h⟩

/-- Directly in front of the line break is a token that can end a statement. -/
theorem Front.far (h : B.Front s s') (hk : s.current.kind.endsStatement = false) : B.Far s s' := by
  obtain ⟨us, h⟩ := h
  cases us with
  | cons u us => exact ⟨u, us, h⟩
  | nil =>
    obtain ⟨before, hf⟩ := h.front
    obtain ⟨ws, t, ht, he⟩ := B.endsStatement
    obtain ⟨-, hc⟩ := List.append_inj' (hf.symm.trans ht) rfl
    obtain rfl := (List.cons.inj hc).1
    simp [hk] at he

theorem Front.good (h : B.Front s s') : s.Good ∧ s'.Good := by
  obtain ⟨us, h⟩ := h
  exact ⟨h.good, h.good'⟩

theorem Ready.good (h : B.Ready s s') : s.Good ∧ s'.Good := by
  rcases h with h | h
  · exact h.front.good
  · exact ⟨h.good, h.good'⟩

theorem Front.current (h : B.Front s s') : s'.current = s.current := by
  obtain ⟨us, h⟩ := h
  exact h.current

theorem Ready.peek (h : B.Ready s s') : s'.peek = s.peek := by
  rcases h with ⟨u, us, h⟩ | h <;> simp [State.peek, h.rest, h.rest']

theorem Facing.onto (h : B.Facing [] s s') :
    s.peek = B.next ∧ s'.peek = B.mark ∧ B.Onto s s'.advance := by
  refine ⟨by simp [State.peek, h.rest], by simp [State.peek, h.rest'], h.good, h.good'.advance,
    by simp [h.errors], ?_, h.rest, by simp [h.rest']⟩
  simp [State.advance, h.rest', h.moves]

/-- Ahead is the same token, or the line break for one reader and the end of the part for the
other. -/
theorem Front.peek (h : B.Front s s') :
    B.Far s s' ∨ s.peek = B.next ∧ s'.peek = B.mark ∧ B.Onto s s'.advance := by
  obtain ⟨us, h⟩ := h
  cases us with
  | cons u us => exact .inl ⟨u, us, h⟩
  | nil => exact .inr h.onto

/-- A token ahead that ends no part is ahead of both. -/
theorem Front.far_of_peek (h : B.Front s s') (hk : s.peek.kind.endsPart = false) : B.Far s s' := by
  rcases h.peek with h | ⟨h, -, -⟩
  · exact h
  · simp [h, B.endsPart] at hk

theorem Facing.advance {u : Token} (h : B.Facing (u :: us) s s') :
    B.Facing us s.advance s'.advance := by
  obtain ⟨before, hf⟩ := h.front
  refine ⟨h.good.advance, h.good'.advance, by simp [h.errors], ?_, ?_, by simp [h.rest],
    by simp [h.rest'], before ++ [s.current], ?_⟩
  · simp [State.advance, h.rest, h.rest', h.moves]
  · simp [State.peek, h.rest, h.rest']
  · simpa [State.peek, h.rest] using hf

theorem Far.advance (h : B.Far s s') : B.Front s.advance s'.advance := by
  obtain ⟨u, us, h⟩ := h
  exact ⟨us, h.advance⟩

theorem errors_passed (s : State) : (s.moved passed).errors = s.errors := by
  refine (List.map_congr_left fun e _ => ?_).trans (List.map_id _)
  obtain ⟨pos, fault⟩ := e
  cases fault <;> rfl

theorem Onto.advance (h : B.Onto s s') : s'.advance = s.advance.moved passed := by
  have hid : Token.moved id = id := rfl
  have herr : s.errors.map (SyntaxError.moved id) = s.errors := errors_passed s
  obtain ⟨cur, rest, errors, moves⟩ := s
  obtain ⟨cur', rest', errors', moves'⟩ := s'
  obtain ⟨-, -, herrors, hmoves, hrest, hrest'⟩ := h
  simp only at herrors hmoves hrest hrest' herr
  subst hrest hrest' herrors hmoves
  simp [State.advance, State.moved, passed, hid, herr, Nat.add_comm]

/-! ### What a rule does to both readers -/

/-- If both readers are in the first relation and one of them succeeds by a rule without an error,
then the other one gives the same; they are in the second relation, or the other one is where the
first is, with one move more. -/
structure Carries (P Q : State → State → Prop) (p : Parser α) : Prop where
  ensures : Ensures p fun _ _ _ => True
  moved : Equivariant passed p
  run {s s' t : State} {a : α} : P s s' → p s = .ok a t → t.errors = s.errors →
    ∃ t', p s' = .ok a t' ∧ (Q t t' ∨ t' = t.moved passed)

variable {P P' Q Q' R : State → State → Prop}

theorem Carries.of_imp (h : Carries P Q p) (hP : ∀ s s', P' s s' → P s s')
    (hQ : ∀ s s', Q s s' → Q' s s') : Carries P' Q' p := by
  refine ⟨h.ensures, h.moved, fun hp hr he => ?_⟩
  obtain ⟨t', ht', hq⟩ := h.run (hP _ _ hp) hr he
  exact ⟨t', ht', hq.imp_left (hQ _ _)⟩

theorem Carries.before (h : Carries P Q p) (hP : ∀ s s', P' s s' → P s s') : Carries P' Q p :=
  h.of_imp hP fun _ _ => id

/-- What the reader that succeeds has done can add to the relation that both are in. -/
theorem Carries.also (h : Carries P Q p)
    (hQ : ∀ s s' a t t', P s s' → p s = .ok a t → t.errors = s.errors → Q t t' → Q' t t') :
    Carries P Q' p := by
  refine ⟨h.ensures, h.moved, fun hp hr he => ?_⟩
  obtain ⟨t', ht', hq⟩ := h.run hp hr he
  exact ⟨t', ht', hq.imp_left (hQ _ _ _ _ _ hp hr he)⟩

theorem carries_pure (a : α) : Carries P P (pure a : Parser α) where
  ensures := (ensures_pure a).mono fun _ _ _ _ _ => trivial
  moved := equivariant_pure a
  run hp hr _ := by
    cases hr
    exact ⟨_, rfl, .inl hp⟩

theorem Carries.bind (hp : Carries P Q p) (hf : ∀ a, Carries Q R (f a)) :
    Carries P R (p >>= f) where
  ensures := (hp.ensures.bind fun a => (hf a).ensures).mono fun _ _ _ _ _ => trivial
  moved := hp.moved.bind fun a => (hf a).moved
  run hs hr he := by
    obtain ⟨a, t, ht, hu⟩ := bind_eq_ok.mp hr
    have hst := hp.ensures.steps ht
    have htu := (hf a).ensures.steps hu
    have hclean := hst.clean htu he
    obtain ⟨t', ht', hq | rfl⟩ := hp.run hs ht hclean
    · obtain ⟨u', hu', hr⟩ := (hf a).run hq hu (he.trans hclean.symm)
      exact ⟨u', bind_eq_ok.mpr ⟨a, t', ht', hu'⟩, hr⟩
    · refine ⟨_, bind_eq_ok.mpr ⟨a, _, ht', ?_⟩, .inr rfl⟩
      rw [(hf a).moved, hu]
      rfl

theorem Carries.returns (h : Carries P Q p) (g : α → β) :
    Carries P Q (p >>= fun a => pure (g a)) :=
  h.bind fun _ => carries_pure _

theorem carries_tooDeep : Carries P Q (throw .tooDeep : Parser α) where
  ensures := ensures_tooDeep
  moved := equivariant_tooDeep
  run _ hr _ := by cases hr

theorem carries_advance : Carries B.Ready B.Front advance where
  ensures := ensures_advance.mono fun _ _ _ _ _ => trivial
  moved := equivariant_advance
  run hs hr _ := by
    cases hr
    refine ⟨_, rfl, ?_⟩
    rcases hs with h | h
    · exact .inl h.advance
    · exact .inr h.advance

theorem carries_expect (hk : k ≠ .eof) : Carries B.Ready (B.At k) (expect k) where
  ensures := (ensures_expect hk).mono fun _ _ _ _ _ => trivial
  moved := equivariant_expect k
  run {s s' t a} hs hr _ := by
    rw [expect_apply] at hr ⊢
    rw [hs.peek]
    split at hr
    · next hpeek =>
      cases hr
      refine ⟨_, if_pos hpeek, ?_⟩
      rcases hs with h | h
      · exact .inl ⟨h.advance, by simpa using hpeek⟩
      · exact .inr h.advance
    · cases hr

/-- A token that ends no part is not directly behind the line break. -/
theorem carries_expect_front (hk : k ≠ .eof) (hp : k.endsPart = false) :
    Carries B.Front (B.At k) (expect k) := by
  refine ⟨(carries_expect (B := B) hk).ensures, equivariant_expect k, fun {s s' t a} hs hr he => ?_⟩
  refine (carries_expect hk).run (.inl (hs.far_of_peek ?_)) hr he
  rw [expect_apply] at hr
  split at hr
  · next hpeek => exact hpeek ▸ hp
  · cases hr

/-- Both readers go on to the token that is ahead of both. -/
theorem carries_advance_to (h : ∀ s s', P s s' → Q s.advance s'.advance) :
    Carries P Q advance where
  ensures := ensures_advance.mono fun _ _ _ _ _ => trivial
  moved := equivariant_advance
  run {s s' t a} hs hr _ := by
    cases hr
    exact ⟨_, rfl, .inl (h s s' hs)⟩

theorem carries_expect_to (hk : k ≠ .eof) (hP : ∀ s s', P s s' → B.Far s s')
    (h : ∀ s s', P s s' → s.peek.kind = k → Q s.advance s'.advance) : Carries P Q (expect k) where
  ensures := (ensures_expect hk).mono fun _ _ _ _ _ => trivial
  moved := equivariant_expect k
  run {s s' t a} hs hr _ := by
    rw [expect_apply] at hr ⊢
    rw [Ready.peek (.inl (hP s s' hs))]
    split at hr
    · next hpeek =>
      cases hr
      exact ⟨_, if_pos hpeek, .inl (h s s' hs hpeek)⟩
    · cases hr

theorem At.ready (hk : k.endsStatement = false) (s s' : State) (h : B.At k s s') : B.Ready s s' :=
  .inl (h.1.far (h.2 ▸ hk))

/-- Behind an opening token or an operator. -/
theorem carries_advance_at (hk : k.endsStatement = false) : Carries (B.At k) B.Front advance :=
  carries_advance.before (At.ready hk)

theorem carries_current {f : Token → Parser β} (hP : ∀ s s', P s s' → s'.current = s.current)
    (h : ∀ c, Carries (fun s s' => P s s' ∧ s.current = c) Q (f c)) :
    Carries P Q (current >>= f) where
  ensures := fun s => ((h s.current).ensures s)
  moved := fun s => (h s.current).moved s
  run {s s' t a} hs hr he := by
    rw [current_bind] at hr ⊢
    rw [hP s s' hs]
    exact (h s.current).run ⟨hs, rfl⟩ hr he

theorem carries_peek {f : Token → Parser β} (hP : ∀ s s', P s s' → s'.peek = s.peek)
    (h : ∀ c, Carries (fun s s' => P s s' ∧ s.peek = c) Q (f c)) :
    Carries P Q (peek >>= f) where
  ensures := fun s => ((h s.peek).ensures s)
  moved := equivariant_peek (fun c => (h c).moved) fun _ => rfl
  run {s s' t a} hs hr he := by
    rw [peek_bind] at hr ⊢
    rw [hP s s' hs]
    exact (h s.peek).run ⟨hs, rfl⟩ hr he

/-- A rule that does the same with a line end ahead as with the end of a part. -/
theorem carries_peek_front {f : Token → Parser β} (hmark : f B.mark = f B.next)
    (h : ∀ c, Carries (fun s s' => B.Front s s' ∧ s.peek = c) Q (f c)) :
    Carries B.Front Q (peek >>= f) where
  ensures := fun s => ((h s.peek).ensures s)
  moved := equivariant_peek (fun c => (h c).moved) fun _ => rfl
  run {s s' t a} hs hr he := by
    rw [peek_bind] at hr ⊢
    have hf : f s'.peek = f s.peek := by
      rcases hs.peek with hfar | ⟨hp, hp', -⟩
      · rw [Ready.peek (.inl hfar)]
      · rw [hp, hp', hmark]
    rw [hf]
    exact (h s.peek).run ⟨hs, rfl⟩ hr he

theorem carries_ahead {f : Nat → Parser β} (hP : ∀ s s', P s s' → s.Good ∧ s'.Good)
    (hf : Fueled f) (h : ∀ n, Carries P Q (f n)) : Carries P Q (ahead >>= f) where
  ensures := fun s => (h s.rest.length).ensures s
  moved := equivariant_ahead fun n => (h n).moved
  run {s s' t a} hs hr he := by
    obtain ⟨hg, hg'⟩ := hP s s' hs
    rw [ahead_bind] at hr ⊢
    rw [hf.eq hg (Nat.le_refl _) (Nat.le_max_left _ s'.rest.length)] at hr
    rw [hf.eq hg' (Nat.le_refl _) (Nat.le_max_right s.rest.length _)]
    exact (h _).run hs hr he

/-- What is attempted has not failed, if there is no error. -/
theorem bind_of_attempt {f : Option α → Parser β} {b : β} (hp : Ensures p fun _ _ _ => True)
    (hn : Ensures (f none) fun _ _ _ => True) (h : (attempt p >>= f) s = .ok b t)
    (he : t.errors = s.errors) : (p >>= fun a => f (some a)) s = .ok b t := by
  obtain ⟨o, u, hu, ht⟩ := bind_eq_ok.mp h
  have hends := hp s
  unfold attempt at hu
  cases hres : p s with
  | ok a v =>
    rw [hres] at hu
    cases hu
    exact bind_eq_ok.mpr ⟨a, _, hres, ht⟩
  | error stop v =>
    rw [hres] at hu hends
    cases stop with
    | failed =>
      cases hu
      have hlen := (hn.steps ht).errors_length
      have hlt := hends.2
      rw [he] at hlen
      exact absurd hlt (Nat.not_lt.mpr hlen)
    | tooDeep => cases hu
    | literalTooLong _ => cases hu

theorem carries_attempt {f : Option α → Parser β} (hp : Carries P Q p)
    (hf : ∀ a, Carries Q R (f (some a))) (hn : Ensures (f none) fun _ _ _ => True)
    (hm : Equivariant passed (f none)) : Carries P R (attempt p >>= f) where
  ensures := by
    have hboth (o : Option α) : Ensures (f o) fun _ _ _ => True := by
      cases o with
      | none => exact hn
      | some a => exact (hf a).ensures
    exact (hp.ensures.attempt.bind hboth).mono fun _ _ _ _ _ => trivial
  moved := by
    refine hp.moved.attempt.bind fun o => ?_
    cases o with
    | none => exact hm
    | some a => exact (hf a).moved
  run {s s' t b} hs hr he := by
    obtain ⟨t', ht', hq⟩ := (hp.bind hf).run hs (bind_of_attempt hp.ensures hn hr he) he
    obtain ⟨a, u, hu, hv⟩ := bind_eq_ok.mp ht'
    exact ⟨t', bind_eq_ok.mpr ⟨some a, u, attempt_of_ok hu, hv⟩, hq⟩

/-! ### Line ends -/

theorem skipLineEndsUpTo_facing {us : List Token} {n m : Nat} (h : B.Facing us s s')
    (hn : s.rest.length ≤ n) (hm : s'.rest.length ≤ m) :
    ∃ t t', skipLineEndsUpTo n s = .ok () t ∧ skipLineEndsUpTo m s' = .ok () t' ∧ B.Ready t t' := by
  induction us generalizing s s' n m with
  | nil =>
    simp only [h.rest, h.rest', List.nil_append, List.length_cons] at hn hm
    obtain ⟨n, rfl⟩ : ∃ k, n = k + 1 := ⟨n - 1, by omega⟩
    obtain ⟨m, rfl⟩ : ∃ k, m = k + 2 := ⟨m - 2, by omega⟩
    obtain ⟨hpeek, hpeek', honto⟩ := h.onto
    have hthen : s'.advance.peek = B.next := (Ready.peek (.inr honto)).trans hpeek
    refine ⟨s, s'.advance, ?_, ?_, .inr honto⟩
    · simp only [skipLineEndsUpTo, peek_bind, hpeek, B.next_isLineEnd]
      rfl
    · simp only [skipLineEndsUpTo, peek_bind, hpeek', B.isLineEnd, if_true, advance_bind, hthen,
        B.next_isLineEnd]
      rfl
  | cons u us ih =>
    have hlen := congrArg List.length h.rest
    have hlen' := congrArg List.length h.rest'
    simp only [List.cons_append, List.length_cons] at hlen hlen'
    obtain ⟨n, rfl⟩ : ∃ k, n = k + 1 := ⟨n - 1, by omega⟩
    obtain ⟨m, rfl⟩ : ∃ k, m = k + 1 := ⟨m - 1, by omega⟩
    have hready : B.Ready s s' := .inl ⟨u, us, h⟩
    simp only [skipLineEndsUpTo, peek_bind, hready.peek]
    split
    · rw [advance_bind, advance_bind]
      exact ih h.advance (by simp; omega) (by simp; omega)
    · exact ⟨s, s', rfl, rfl, hready⟩

theorem carries_skipLineEnds : Carries B.Front B.Ready skipLineEnds where
  ensures := ensures_skipLineEnds.mono fun _ _ _ _ _ => trivial
  moved := equivariant_skipLineEnds
  run {s s' t a} hs hr _ := by
    obtain ⟨us, h⟩ := hs
    obtain ⟨u, u', hu, hu', hready⟩ := skipLineEndsUpTo_facing h (Nat.le_refl _) (Nat.le_refl _)
    obtain ⟨-, rfl⟩ := EStateM.Result.ok.inj (hr.symm.trans hu)
    exact ⟨u', hu', .inl hready⟩

/-! ### Parameters and conditions -/

/-- Both readers are in front of the line break, and on an opening parenthesis behind a keyword. -/
def Opened (B : LineBreak) (k : Kind) (s s' : State) : Prop :=
  ∃ us, B.Facing us s s' ∧ s.current.kind = .lparen ∧
    ∃ before i, B.front = before ++ i :: s.current :: us ∧ i.kind = k

/-- Both readers are in front of the line break, and on the first token of a condition. -/
def InCondition (B : LineBreak) (s s' : State) : Prop :=
  ∃ us, B.Facing us s s' ∧ ∃ before i o, B.front = before ++ i :: o :: s.current :: us ∧
    i.kind = .kwIf ∧ o.kind = .lparen

/-- Both readers are in front of the line break, and among the parameters of a function on a token
of the kind. -/
def Among (B : LineBreak) (k : Kind) (s s' : State) : Prop :=
  ∃ us, B.Facing us s s' ∧ s.current.kind = k ∧ (k = .ident ∨ k = .comma) ∧
    ∃ before f o ts, B.front = before ++ f :: o :: (ts ++ s.current :: us) ∧ f.kind = .kwFn ∧
      o.kind = .lparen ∧ ∀ c ∈ ts, c.kind = .ident ∨ c.kind = .comma

theorem Opened.far (h : B.Opened k s s') : B.Far s s' := by
  obtain ⟨us, h, hk, -⟩ := h
  exact Front.far ⟨us, h⟩ (by simp [hk, Kind.endsStatement])

/-- Behind a parameter there is no line break. -/
theorem Among.far (h : B.Among k s s') : B.Far s s' := by
  obtain ⟨us, h, hk, hkind, before, f, o, ts, hfront, hf, ho, hts⟩ := h
  cases us with
  | cons u us => exact ⟨u, us, h⟩
  | nil =>
    rcases hkind with rfl | rfl
    · exact absurd ⟨before, f, o, ts, _, hfront, hf, ho, hts, hk⟩ B.notBehindParameter
    · exact Front.far ⟨[], h⟩ (by simp [hk, Kind.endsStatement])

/-- The tokens in front of the line break that are behind the reader and ahead of it. -/
theorem Far.facing {vs : List Token} (h : B.Far s s') (hv : B.Facing vs s s') :
    ∃ us, vs = s.advance.current :: us ∧ B.Facing us s.advance s'.advance := by
  obtain ⟨u, us, hu⟩ := h
  obtain rfl : u :: us = vs := List.append_cancel_right (hu.rest.symm.trans hv.rest)
  exact ⟨us, by simp [State.peek, hu.rest], hu.advance⟩

theorem At.opened (h : B.At k s s') (hk : k.endsStatement = false) (hp : s.peek.kind = .lparen) :
    B.Opened k s.advance s'.advance := by
  have hfar := h.1.far (h.2 ▸ hk)
  obtain ⟨vs, hv⟩ := h.1
  obtain ⟨us, rfl, hu⟩ := hfar.facing hv
  obtain ⟨before, hfront⟩ := hu.front
  obtain ⟨before', hfront'⟩ := hv.front
  exact ⟨us, hu, by simpa using hp, before', _, hfront', h.2⟩

theorem Opened.inCondition (h : B.Opened .kwIf s s') : B.InCondition s.advance s'.advance := by
  have hfar := h.far
  obtain ⟨vs, hv, ho, before, i, hfront, hi⟩ := h
  obtain ⟨us, rfl, hu⟩ := hfar.facing hv
  exact ⟨us, hu, before, i, _, hfront, hi, ho⟩

theorem Opened.among (h : B.Opened .kwFn s s') (hk : s.peek.kind = .ident) :
    B.Among .ident s.advance s'.advance := by
  have hfar := h.far
  obtain ⟨vs, hv, ho, before, f, hfront, hf⟩ := h
  obtain ⟨us, rfl, hu⟩ := hfar.facing hv
  exact ⟨us, hu, by simpa using hk, .inl rfl, before, f, _, [], hfront, hf, ho, by simp⟩

theorem Among.among {j : Kind} (h : B.Among j s s') (hk : s.peek.kind = k)
    (hkind : k = .ident ∨ k = .comma) : B.Among k s.advance s'.advance := by
  have hfar := h.far
  obtain ⟨vs, hv, hj, hjkind, before, f, o, ts, hfront, hf, ho, hts⟩ := h
  obtain ⟨us, rfl, hu⟩ := hfar.facing hv
  refine ⟨us, hu, by simpa using hk, hkind, before, f, o, ts ++ [s.current], by simpa using hfront,
    hf, ho, fun c hc => ?_⟩
  rcases List.mem_append.mp hc with hc | hc
  · exact hts c hc
  · rw [List.mem_singleton.mp hc, hj]
    exact hjkind

/-- Behind a condition there is no line break. -/
theorem InCondition.far {t t' : State} {e : Expr} (h : B.InCondition s s')
    (he : ReadsExpr Power.lowest s e t) (ht : B.Front t t') : B.Far t t' := by
  obtain ⟨us, hus, before, i, o, hfront, hi, ho⟩ := h
  obtain ⟨⟨ts, hts, hd⟩, -⟩ := he
  obtain ⟨vs, hvs⟩ := ht
  cases vs with
  | cons v vs => exact ⟨v, vs, hvs⟩
  | nil =>
    have hrest := hts.1
    rw [hus.rest, hvs.rest] at hrest
    obtain rfl : us = ts := List.append_cancel_right hrest
    exact absurd ⟨before, i, o, e, _, hfront, hi, ho, hd⟩ B.notBehindCondition

end LineBreak

open LineBreak

variable {B : LineBreak}

namespace Rules

/-- Rules that pass over the line break. -/
structure Carried (B : LineBreak) (r : Rules) : Prop where
  sound : r.Sound
  expression (power : Nat) : Carries B.Front B.Front (r.expression power)
  statement : Carries B.Front B.Front r.statement

variable (h : r.Carried B)

/-! ### Lists and hashmaps -/

include h in
theorem carries_moreItems (n : Nat) : Carries B.Ready B.Ready (r.moreItems n) := by
  induction n with
  | zero => exact carries_pure _
  | succ n ih =>
    refine carries_peek (fun _ _ => Ready.peek) fun c => ?_
    split
    · exact (carries_advance.before fun _ _ h => h.1).bind fun _ =>
        carries_skipLineEnds.bind fun _ => carries_advance.bind fun _ =>
          (h.expression _).bind fun _ => carries_skipLineEnds.bind fun _ => ih.returns _
    · exact (carries_pure _).before fun _ _ h => h.1

include h in
theorem carries_list {close : Kind} (hc : close ≠ .eof) :
    Carries B.Front B.Front (r.list close) := by
  refine carries_skipLineEnds.bind fun _ => carries_peek (fun _ _ => Ready.peek) fun c => ?_
  have hadv : Carries (fun s s' => B.Ready s s' ∧ s.peek = c) B.Front advance :=
    carries_advance.before fun _ _ h => h.1
  split
  · exact hadv.returns _
  · refine hadv.bind fun _ => (h.expression _).bind fun item =>
      carries_skipLineEnds.bind fun _ => ?_
    refine carries_ahead (fun _ _ => Ready.good) ((fueled_moreItems h.sound).then _) fun n => ?_
    exact (carries_moreItems h n).bind fun _ =>
      ((carries_expect hc).returns _).of_imp (fun _ _ => id) fun _ _ h => h.1

include h in
theorem carries_entry (key : Expr) : Carries B.Front B.Ready (r.entry key) :=
  (carries_expect_front (by simp) rfl).bind fun _ => (carries_advance_at rfl).bind fun _ =>
    (h.expression _).bind fun _ => carries_skipLineEnds.returns _

include h in
theorem carries_moreEntries (n : Nat) : Carries B.Ready B.Ready (r.moreEntries n) := by
  induction n with
  | zero => exact carries_pure _
  | succ n ih =>
    refine carries_peek (fun _ _ => Ready.peek) fun c => ?_
    split
    · exact (carries_advance.before fun _ _ h => h.1).bind fun _ =>
        carries_skipLineEnds.bind fun _ => carries_advance.bind fun _ =>
          (h.expression _).bind fun key => (carries_entry h key).bind fun _ => ih.returns _
    · exact (carries_pure _).before fun _ _ h => h.1

include h in
theorem carries_hashmapFrom (key : Expr) : Carries B.Front B.Front (r.hashmapFrom key) := by
  refine (carries_entry h key).bind fun pair => ?_
  refine carries_ahead (fun _ _ => Ready.good) ((fueled_moreEntries h.sound).then _) fun n => ?_
  exact (carries_moreEntries h n).bind fun _ =>
    ((carries_expect (by simp)).returns _).of_imp (fun _ _ => id) fun _ _ h => h.1

include h in
theorem carries_hashmap : Carries B.Front B.Front r.hashmap := by
  refine carries_skipLineEnds.bind fun _ => carries_peek (fun _ _ => Ready.peek) fun c => ?_
  have hadv : Carries (fun s s' => B.Ready s s' ∧ s.peek = c) B.Front advance :=
    carries_advance.before fun _ _ h => h.1
  split
  · exact hadv.returns _
  · exact hadv.bind fun _ => (h.expression _).bind fun key => carries_hashmapFrom h key

/-! ### Statements -/

/-- In front of the line break a statement ends with the block around it, of which the break is the
terminator for the other reader. -/
theorem carries_terminate (st : Stmt) : Carries B.Front B.Front (terminate (some st)) where
  ensures := (ensures_terminate _).mono fun _ _ _ _ _ => trivial
  moved := equivariant_terminate _
  run {s s' t o} hs hr he := by
    obtain ⟨rfl, hend, -⟩ := terminate_of_clean hr he
    simp only [terminate, peek_bind] at hr ⊢
    rcases hs.peek with hfar | ⟨hpeek, hpeek', honto⟩
    · rw [Ready.peek (.inl hfar)]
      rcases hend with hk | hk | hk <;> simp only [hk] at hr ⊢ <;> cases hr
      · refine ⟨_, rfl, .inl (hfar.advance.far ?_).advance⟩
        simp [hk, Kind.endsStatement]
      · exact ⟨_, rfl, .inl hfar.advance⟩
      · exact ⟨_, rfl, .inl hfar.advance⟩
    · have hbrace : s.peek.kind = .rbrace := by
        have := B.endsPart
        rw [← hpeek] at this
        rcases hend with hk | hk | hk <;> simp_all [Kind.endsPart]
      simp only [hbrace] at hr
      simp only [hpeek', B.mark_kind]
      cases hr
      exact ⟨_, rfl, .inr honto.advance⟩

include h in
theorem carries_terminated : Carries B.Front B.Front r.terminated := by
  refine carries_current (fun _ _ => Front.current) fun c => ?_
  split
  · next hk =>
    refine Carries.before (P := B.At .semicolon) ?_ fun _ _ h => ⟨h.1, h.2 ▸ hk⟩
    exact (carries_advance_at rfl).returns _
  · refine ((carries_attempt h.statement (f := terminate) carries_terminate ?_ ?_).before
      fun _ _ h => h.1)
    · exact (ensures_terminate _).mono fun _ _ _ _ _ => trivial
    · exact equivariant_terminate _

include h in
theorem carries_moreStatements (n : Nat) : Carries B.Front B.Front (r.moreStatements n) := by
  induction n with
  | zero => exact carries_pure _
  | succ n ih =>
    refine carries_current (fun _ _ => Front.current) fun c => ?_
    refine Carries.before (P := B.Front) ?_ fun _ _ h => h.1
    split
    · exact carries_pure _
    · exact carries_pure _
    · exact (carries_terminated h).bind fun _ => ih.returns _

/-- The end of a block. -/
theorem carries_closed (body : List Stmt) : Carries B.Front B.Front (current >>= fun t =>
    if t.kind = .rbrace then pure body else fail t.pos (.expected .rbrace t)) where
  ensures s := by
    rw [current_bind]
    split
    · exact ⟨.refl, fun _ _ => trivial⟩
    · exact ends_fail_current s _
  moved s := by
    rw [current_bind, current_bind]
    change (if s.current.kind = .rbrace then _ else _ : Parser _) _ = _
    split
    · rfl
    · exact fail_moved s.current.pos (.expected .rbrace s.current)
  run {s s' t a} hs hr _ := by
    rw [current_bind] at hr ⊢
    rw [hs.current]
    split at hr
    · next hk =>
      cases hr
      exact ⟨_, by rw [if_pos hk]; rfl, .inl hs⟩
    · cases hr

include h in
theorem carries_blockRest : Carries B.Front B.Front r.blockRest :=
  carries_ahead (fun _ _ => Front.good) ((fueled_moreStatements h.sound).then _) fun n =>
    (carries_moreStatements h n).bind carries_closed

include h in
theorem carries_block : Carries (B.At .lbrace) B.Front r.block :=
  (carries_advance_at rfl).bind fun _ => carries_blockRest h

/-! ### Functions and conditionals -/

theorem carries_moreParams (n : Nat) :
    Carries (B.Among .ident) (B.Among .ident) (moreParams n) := by
  induction n with
  | zero => exact carries_pure _
  | succ n ih =>
    refine carries_peek (fun _ _ h => Ready.peek (.inl h.far)) fun c => ?_
    split
    · next hk =>
      refine (carries_advance_to (Q := B.Among .comma) fun _ _ h => ?_).bind fun _ => ?_
      · exact h.1.among (h.2 ▸ hk) (.inr rfl)
      · refine (carries_expect_to (by simp) (fun _ _ h => h.far) fun _ _ h hp =>
          h.among hp (.inl rfl)).bind fun _ => ?_
        refine carries_current (fun _ _ h => h.far.front.current) fun c => ?_
        exact (ih.returns _).before fun _ _ h => h.1
    · exact (carries_pure _).before fun _ _ h => h.1

theorem carries_params : Carries (B.Opened .kwFn) B.Front params := by
  refine carries_peek (fun _ _ h => Ready.peek (.inl h.far)) fun c => ?_
  split
  · exact (carries_advance.before fun _ _ h => .inl h.1.far).returns _
  · refine Carries.before (P := B.Opened .kwFn) ?_ fun _ _ h => h.1
    refine (carries_expect_to (by simp) (fun _ _ h => h.far) fun _ _ h hp =>
      h.among hp).bind fun _ => ?_
    refine carries_current (fun _ _ h => h.far.front.current) fun c => ?_
    refine Carries.before (P := B.Among .ident) ?_ fun _ _ h => h.1
    refine carries_ahead (fun _ _ h => h.far.front.good) (fueled_moreParams.then _) fun n => ?_
    exact (carries_moreParams n).bind fun _ => ((carries_expect (by simp)).returns _).of_imp
      (fun _ _ h => .inl h.far) fun _ _ h => h.1

include h in
theorem carries_function : Carries (B.At .kwFn) B.Front r.function := by
  refine (carries_expect_to (by simp) (fun _ _ h => h.1.far (h.2 ▸ rfl)) fun _ _ h hp =>
    LineBreak.At.opened h rfl hp).bind fun _ => ?_
  exact carries_params.bind fun _ => (carries_expect_front (by simp) rfl).bind fun _ =>
    (carries_block h).returns _

include h in
theorem carries_conditional : Carries (B.At .kwIf) B.Front r.conditional := by
  refine (carries_expect_to (by simp) (fun _ _ h => h.1.far (h.2 ▸ rfl)) fun _ _ h hp =>
    LineBreak.At.opened h rfl hp).bind fun _ => ?_
  refine (carries_advance_to fun _ _ h => h.inCondition).bind fun _ => ?_
  have hcondition : Carries B.InCondition B.Far (r.expression Power.lowest) := by
    refine ((h.expression _).before fun _ _ ⟨us, hus, _⟩ => ⟨us, hus⟩).also
      fun s s' e t t' hs ht he hfront => ?_
    have hread := h.sound.expression Power.lowest s
    rw [ht] at hread
    obtain ⟨us, hus, -⟩ := id hs
    exact hs.far (hread.2 hus.good he) hfront
  refine hcondition.bind fun _ => ?_
  refine (carries_expect (by simp)).before (fun _ _ h => .inl h) |>.bind fun _ => ?_
  refine (carries_expect_front (by simp) rfl).before (fun _ _ h => h.1) |>.bind fun _ => ?_
  refine (carries_block h).bind fun _ => carries_peek_front ?_ fun c => ?_
  · have hne : B.next.kind ≠ .kwElse := fun hk => by simpa [hk, Kind.endsPart] using B.endsPart
    rw [if_neg (by simp [B.mark_kind]), if_neg hne]
  · split
    · next hk =>
      refine (carries_advance.before fun _ _ h => .inl (h.1.far_of_peek ?_)).bind fun _ =>
        (carries_expect_front (by simp) rfl).bind fun _ => (carries_block h).returns _
      rw [h.2, hk]
      rfl
    · exact (carries_pure _).before fun _ _ h => h.1

/-! ### Expressions -/

include h in
theorem carries_group : Carries (B.At .lparen) B.Front r.group :=
  (carries_advance_at rfl).bind fun _ => (h.expression _).bind fun _ =>
    carries_skipLineEnds.bind fun _ => (carries_expect (by simp)).of_imp (fun _ _ => id)
      (fun _ _ h => h.1) |>.returns _

theorem integer_eq_ok {c : Token} {e : Expr} (h : integer c s = .ok e t) :
    t = s ∧ ∀ s', integer c s' = .ok e s' := by
  unfold integer at h ⊢
  simp only at h ⊢
  split at h
  · cases h
  · split at h
    · cases h
    · next hlength hvalue =>
      cases h
      refine ⟨rfl, fun s' => ?_⟩
      rw [if_neg hlength]
      exact congrFun (if_neg hvalue) s'

include h in
theorem carries_operand : Carries B.Front B.Front r.operand where
  ensures := (ensures_operand h.sound).mono fun _ _ _ _ _ => trivial
  moved := equivariant_operand ⟨fun power => (h.expression power).moved, h.statement.moved⟩
  run {s s' t e} hs hr he := by
    have hop (k : Kind) (op : PrefixOp) (hk : k.endsStatement = false) : Carries (B.At k) B.Front
        (advance >>= fun _ => r.expression Power.unary >>= fun e => pure (Expr.unary op e)) :=
      (carries_advance_at hk).bind fun _ => (h.expression _).returns _
    simp only [operand, current_bind] at hr ⊢
    rw [hs.current]
    generalize hk : s.current.kind = k at hr
    split at hr
    · cases hr
      exact ⟨_, rfl, .inl hs⟩
    · obtain ⟨rfl, hint⟩ := integer_eq_ok hr
      exact ⟨s', hint s', .inl hs⟩
    · cases hr
      exact ⟨_, rfl, .inl hs⟩
    · cases hr
      exact ⟨_, rfl, .inl hs⟩
    · cases hr
      exact ⟨_, rfl, .inl hs⟩
    · exact (hop .bang .not rfl).run ⟨hs, hk⟩ hr he
    · exact (hop .minus .neg rfl).run ⟨hs, hk⟩ hr he
    · exact (carries_group h).run ⟨hs, hk⟩ hr he
    · exact (carries_conditional h).run ⟨hs, hk⟩ hr he
    · exact (carries_function h).run ⟨hs, hk⟩ hr he
    · exact ((carries_list h (by simp)).returns _).run hs hr he
    · exact (carries_hashmap h).run hs hr he
    · cases hr
    · cases hr

include h in
theorem carries_extend (left : Expr) : Carries B.Front B.Front (r.extend left) := by
  refine carries_current (fun _ _ => Front.current) fun c => ?_
  simp only
  split
  · exact ((carries_list h (by simp)).returns _).before fun _ _ h => h.1
  · next hk =>
    refine Carries.before (P := B.At .lbracket) ?_ fun _ _ h => ⟨h.1, h.2 ▸ hk⟩
    exact (carries_advance_at rfl).bind fun _ => (h.expression _).bind fun _ =>
      carries_skipLineEnds.bind fun _ => ((carries_expect (by simp)).of_imp (fun _ _ => id)
        fun _ _ h => h.1).returns _
  · split
    · exact (carries_pure _).before fun _ _ h => h.1
    · next op hop =>
      refine Carries.before (P := B.At c.kind) ?_ fun _ _ h => ⟨h.1, h.2 ▸ rfl⟩
      refine (carries_advance_at ?_).bind fun _ => (h.expression _).returns _
      generalize c.kind = k at hop
      cases k <;> simp_all [InfixOp.ofKind?, Kind.endsStatement]

include h in
theorem carries_chain (power n : Nat) (left : Expr) :
    Carries B.Front B.Front (r.chain power n left) := by
  induction n generalizing left with
  | zero => exact carries_pure _
  | succ n ih =>
    refine carries_peek_front ?_ fun c => ?_
    · have hpower : B.next.kind.power = 0 := Kind.power_of_endsPart B.endsPart
      rw [if_neg (by simp [B.mark_kind, Kind.power, Power.lowest]), if_neg (by simp [hpower])]
    · split
      · next hk =>
        refine (carries_advance.before fun _ _ h => .inl (h.1.far_of_peek ?_)).bind fun _ =>
          (carries_extend h left).bind fun _ => ih _
        rw [h.2]
        cases hc : c.kind.endsPart with
        | false => rfl
        | true => simp [Kind.power_of_endsPart hc] at hk
      · exact (carries_pure _).before fun _ _ h => h.1

include h in
theorem carries_expressionFrom (power : Nat) (left : Expr) :
    Carries B.Front B.Front (r.expressionFrom power left) :=
  carries_ahead (fun _ _ => Front.good) (fueled_chain h.sound power left) fun n =>
    carries_chain h power n left

include h in
theorem carries_expressionRule (power : Nat) :
    Carries B.Front B.Front (r.expressionRule power) :=
  (carries_operand h).bind fun left => carries_expressionFrom h power left

include h in
theorem carries_braced : Carries B.Front B.Front r.braced := by
  have hrest (e : Expr) : Carries B.Front B.Front
      (r.expressionFrom Power.lowest e >>= fun e => pure (Stmt.expr e)) :=
    (carries_expressionFrom h _ _).returns _
  refine carries_skipLineEnds.bind fun _ => carries_peek (fun _ _ => Ready.peek) fun c => ?_
  have hadv : Carries (fun s s' => B.Ready s s' ∧ s.peek = c) B.Front advance :=
    carries_advance.before fun _ _ h => h.1
  split
  · exact hadv.bind fun _ => hrest _
  · refine hadv.bind fun _ => carries_current (fun _ _ => Front.current) fun d => ?_
    refine Carries.before (P := B.Front) ?_ fun _ _ h => h.1
    split
    · exact (carries_blockRest h).returns _
    · refine carries_attempt h.statement (fun first => ?_) ?_ ?_
      · refine carries_peek_front ?_ fun f => Carries.before (P := B.Front) ?_ fun _ _ h => h.1
        · have hne : B.next.kind ≠ .colon := fun hk => by simpa [hk, Kind.endsPart] using B.endsPart
          have hcolon : B.mark.kind ≠ .colon := by simp [B.mark_kind]
          generalize B.mark.kind = j, B.next.kind = k at hcolon hne
          split <;> split <;> simp_all
        · split
          · exact (carries_hashmapFrom h _).bind fun _ => hrest _
          · exact (carries_terminate first).bind fun _ => (carries_blockRest h).returns _
      · exact fun s => (((ensures_terminate none).bind fun _ => (ensures_blockRest h.sound).bind
          fun _ => ensures_pure _) s).mono fun _ _ _ _ => trivial
      · exact equivariant_peek (fun _ => (equivariant_terminate none).bind fun _ =>
          (equivariant_blockRest h.statement.moved).bind fun _ => equivariant_pure _) fun _ => rfl

include h in
theorem carries_statementRule : Carries B.Front B.Front r.statementRule := by
  refine carries_current (fun _ _ => Front.current) fun c => ?_
  split
  · next hk =>
    refine Carries.before (P := B.At .kwReturn) ?_ fun _ _ h => ⟨h.1, h.2 ▸ hk⟩
    exact (carries_advance_at rfl).bind fun _ => (h.expression _).returns _
  · exact (carries_braced h).before fun _ _ h => h.1
  · refine Carries.before (P := B.Front) ?_ fun _ _ h => h.1
    refine carries_peek_front ?_ fun d => ?_
    · have hne : B.next.kind ≠ .assign := fun hk => by simpa [hk, Kind.endsPart] using B.endsPart
      simp [B.mark_kind, hne]
    · split
      · next hd =>
        simp only [Bool.and_eq_true, decide_eq_true_eq] at hd
        refine (carries_advance_to (Q := B.At .assign) fun s s' hs => ?_).bind fun _ => ?_
        · have hk : s.peek.kind = .assign := hs.2 ▸ hd.2
          exact ⟨(hs.1.far_of_peek (hk ▸ rfl)).advance, by simpa using hk⟩
        · exact (carries_advance_at rfl).bind fun _ => (h.expression _).returns _
      · exact ((h.expression _).returns _).before fun _ _ h => h.1

/-- A run without an error never recovers, for either reader. -/
theorem carries_program (hr : r.Carried B) (n : Nat) :
    Carries B.Front B.Front (r.program n false) where
  ensures := (ensures_program hr.sound n false).mono fun _ _ _ _ _ => trivial
  moved := equivariant_program hr.statement.moved n false
  run {s s' t ss} hs h he := by
    induction n generalizing s s' ss with
    | zero =>
      cases h
      exact ⟨_, rfl, .inl hs⟩
    | succ n ih =>
      by_cases hk : EndsStmts s.current.kind
      · rcases hk with hk | hk
        · simp only [program, get_bind, hk] at h
          have hlen := ((ensures_advance.bind fun _ => ensures_program hr.sound n false).steps
            (s := s.record s.current.pos .strayBrace) h).errors_length
          simp [State.record, he] at hlen
        · rw [program_eof hk] at h
          cases h
          exact ⟨s', program_eof (hs.current ▸ hk) _ _, .inl hs⟩
      · rw [program_succ hk] at h
        rw [program_succ (hs.current ▸ hk)]
        obtain ⟨o, u, hu, hrest⟩ := bind_eq_ok.mp h
        rw [get_bind] at hrest
        have hsu := (ensures_terminated hr.sound).steps hu
        have hut := ((ensures_program hr.sound n _).bind fun _ => ensures_pure _).steps hrest
        have hclean := hsu.clean hut he
        obtain ⟨u', hu', hq⟩ := (carries_terminated hr).run hs hu hclean
        have herrors : u'.errors = u.errors := by
          rcases hq with ⟨us, hq⟩ | rfl
          · exact hq.errors
          · exact errors_passed u
        have herrors' : s'.errors = s.errors := by
          obtain ⟨us, hus⟩ := hs
          exact hus.errors
        obtain ⟨rest, v, hv, hret⟩ := bind_eq_ok.mp hrest
        obtain ⟨rfl, rfl⟩ : o.toList ++ rest = ss ∧ v = t :=
          EStateM.Result.ok.inj hret
        simp only [hclean, Nat.lt_irrefl, decide_false] at hv
        have hnext : ∃ v', r.program n false u' = .ok rest v' ∧
            (B.Front v v' ∨ v' = v.moved passed) := by
          rcases hq with hq | rfl
          · exact ih hq hv (he.trans hclean.symm)
          · refine ⟨v.moved passed, ?_, .inr rfl⟩
            rw [equivariant_program hr.statement.moved, hv]
            rfl
        obtain ⟨v', hv', hq'⟩ := hnext
        refine ⟨v', bind_eq_ok.mpr ⟨o, u', hu', ?_⟩, hq'⟩
        rw [get_bind]
        simp only [herrors, herrors', hclean, Nat.lt_irrefl, decide_false]
        exact bind_eq_ok.mpr ⟨rest, v', hv', rfl⟩

end Rules

theorem carried_rules (n : Nat) : (rules n).Carried B := by
  induction n with
  | zero =>
    exact ⟨sound_rules 0, fun _ => carries_tooDeep, carries_tooDeep⟩
  | succ n ih =>
    exact ⟨sound_rules (n + 1), Rules.carries_expressionRule ih, Rules.carries_statementRule ih⟩

/-- A program that is read without an error is read so with the line break. -/
theorem run_of_lineBreak {d : Nat} {body : List Stmt}
    (hl : Lexed (B.front ++ B.next :: B.behind))
    (hl' : Lexed (B.front ++ B.mark :: B.next :: B.behind))
    (h : run d (B.front ++ B.next :: B.behind) = .ok body t) (he : t.errors = []) :
    ∃ u, run d (B.front ++ B.mark :: B.next :: B.behind) = .ok body u ∧ u.errors = [] := by
  obtain ⟨c, cs, hc⟩ := List.exists_cons_of_ne_nil (l := B.front) (by
    obtain ⟨us, x, hx, -⟩ := B.endsStatement
    simp [hx])
  rw [hc] at hl hl' h ⊢
  have hfront : B.Front (.ofTokens (c :: cs ++ B.next :: B.behind))
      (.ofTokens (c :: cs ++ B.mark :: B.next :: B.behind)) :=
    ⟨cs, hl.good_ofTokens, hl'.good_ofTokens, rfl, rfl, rfl, rfl, rfl, [], hc⟩
  have hlen : (State.ofTokens (c :: cs ++ B.next :: B.behind)).rest.length ≤
      (State.ofTokens (c :: cs ++ B.mark :: B.next :: B.behind)).rest.length := by
    simp [State.ofTokens]
  have hfuel := Rules.fueled_program (sound_rules d) false
  rw [run, hfuel.eq hl.good_ofTokens (Nat.le_refl _) hlen] at h
  obtain ⟨u, hu, hq⟩ := (Rules.carries_program (carried_rules d) _).run hfront h he
  refine ⟨u, hu, ?_⟩
  rcases hq with ⟨us, hq⟩ | rfl
  · exact hq.errors.trans he
  · exact (errors_passed t).trans he

end Parser

end Scriptlet
