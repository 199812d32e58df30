import Mathlib.Logic.Relation
import Scriptlet.Parse.State
import Scriptlet.Proofs.Grammar.Derives
import Scriptlet.Proofs.Token.Lexed

/-!
What rules do to a reader: they move it on and record errors at the token it stands on or at the one
ahead, and nothing else. `Ensures` says so of a rule, together with what the rule has read if it
succeeds without an error.
-/

namespace Scriptlet.Parser

variable {α β : Type} {s t u : State} {p : Parser α} {f : α → Parser β} {us vs : List Token}

/-- One thing that a rule does to a reader. -/
inductive Step : State → State → Prop where
  | advance (s : State) : Step s s.advance
  | atCurrent (s : State) (fault : SyntaxFault) : Step s (s.record s.current.pos fault)
  | atPeek (s : State) (fault : SyntaxFault) : Step s (s.record s.peek.pos fault)

/-- Any number of steps. -/
abbrev Steps : State → State → Prop := Relation.ReflTransGen Step

theorem steps_advance (s : State) : Steps s s.advance := .single (.advance s)

@[simp] theorem record_current (pos : Position) (fault : SyntaxFault) :
    (s.record pos fault).current = s.current := rfl

@[simp] theorem record_rest (pos : Position) (fault : SyntaxFault) :
    (s.record pos fault).rest = s.rest := rfl

@[simp] theorem record_errors (pos : Position) (fault : SyntaxFault) :
    (s.record pos fault).errors = s.errors ++ [⟨pos, fault⟩] := rfl

@[simp] theorem advance_errors (s : State) : s.advance.errors = s.errors := by
  unfold State.advance
  split <;> rfl

@[simp] theorem advance_rest (s : State) : s.advance.rest = s.rest.tail := by
  unfold State.advance
  split <;> simp_all

@[simp] theorem advance_current (s : State) : s.advance.current = s.peek := by
  unfold State.advance State.peek
  split <;> simp_all

/-- No error that was found is taken back. -/
theorem Steps.errors_prefix (h : Steps s t) : s.errors <+: t.errors := by
  induction h with
  | refl => exact List.prefix_refl _
  | tail _ hs ih =>
    cases hs with
    | advance => simpa using ih
    | atCurrent => exact ih.trans (List.prefix_append _ _)
    | atPeek => exact ih.trans (List.prefix_append _ _)

theorem Steps.errors_length (h : Steps s t) : s.errors.length ≤ t.errors.length :=
  h.errors_prefix.length_le

/-- The tokens from the one that the reader stands on. -/
def State.tokens (s : State) : List Token := s.current :: s.rest

theorem State.peek_mem_tokens (s : State) : s.peek ∈ s.tokens := by
  unfold State.peek State.tokens
  cases s.rest <;> simp

/-- A reader never goes back. -/
theorem Steps.tokens_suffix (h : Steps s t) : t.tokens <:+ s.tokens := by
  induction h with
  | refl => exact List.suffix_refl _
  | @tail t u _ hs ih =>
    refine List.IsSuffix.trans ?_ ih
    cases hs with
    | advance =>
      cases hr : t.rest with
      | nil => simp [State.tokens, State.peek, hr]
      | cons c cs => simp [State.tokens, State.peek, hr]
    | atCurrent => exact List.suffix_refl _
    | atPeek => exact List.suffix_refl _

/-- A reader of the tokens of a text. -/
def State.Good (s : State) : Prop := Lexed s.tokens

theorem State.Good.rest_eq_nil_iff (h : s.Good) : s.rest = [] ↔ s.current.kind = .eof :=
  Lexed.eq_nil_iff h

theorem State.Good.rest_ne_nil (h : s.Good) (hk : s.current.kind ≠ .eof) : s.rest ≠ [] :=
  fun hr => hk (h.rest_eq_nil_iff.mp hr)

theorem State.Good.rest_ne_nil_of_peek (h : s.Good) (hk : s.peek.kind ≠ .eof) : s.rest ≠ [] := by
  intro hr
  apply hk
  simpa [State.peek, hr] using h.rest_eq_nil_iff.mp hr

theorem State.Good.advance (h : s.Good) : s.advance.Good := by
  by_cases hr : s.rest = []
  · simpa [State.Good, State.tokens, State.peek, hr] using h
  · obtain ⟨t, ts, ht⟩ := List.exists_cons_of_ne_nil hr
    have := Lexed.tail h hr
    simpa [State.Good, State.tokens, State.peek, ht] using this

theorem Steps.good (h : Steps s t) (hs : s.Good) : t.Good := by
  induction h with
  | refl => exact hs
  | tail _ hs ih =>
    cases hs with
    | advance => exact ih.advance
    | atCurrent => exact ih
    | atPeek => exact ih

/-- Behind a token that ends no statement there is no line end. -/
theorem State.Good.peek_isLineEnd (h : s.Good) (hk : s.current.kind.endsStatement = false) :
    s.peek.isLineEnd = false := by
  unfold State.Good State.tokens at h
  unfold State.peek
  generalize s.current = c at *
  generalize s.rest = r at *
  cases h with
  | eof he => simp [Token.isLineEnd, he]
  | cons _ hu _ =>
    by_contra hl
    simp only [List.headD_cons, Bool.not_eq_false] at hl
    simp [hu hl] at hk

/-! ### Runs of tokens -/

/-- The reader moves over some tokens. -/
def Passes (s : State) (us : List Token) (t : State) : Prop :=
  s.rest = us ++ t.rest ∧ t.current = us.getLastD s.current

theorem Passes.refl (s : State) : Passes s [] s := ⟨rfl, rfl⟩

theorem Passes.trans (h : Passes s us t) (h' : Passes t vs u) : Passes s (us ++ vs) u := by
  refine ⟨by rw [h.1, h'.1, List.append_assoc], ?_⟩
  rw [h'.2, h.2]
  cases vs <;> simp [List.getLastD_eq_getLast?, List.getLast?_append]

theorem passes_advance (hr : s.rest ≠ []) : Passes s [s.peek] s.advance := by
  obtain ⟨t, ts, ht⟩ := List.exists_cons_of_ne_nil hr
  simp [Passes, State.peek, ht]

theorem Passes.rest_length (h : Passes s us t) : s.rest.length = us.length + t.rest.length := by
  simp [h.1]

/-! ### What a rule ensures -/

/-- How a rule ends that started in a reader: it has done nothing but steps, and has recorded an
error if it fails. If the reader was good and there is no new error, the relation holds. -/
def Ends (s : State) (R : α → State → Prop) : EStateM.Result Stop State α → Prop
  | .ok a t => Steps s t ∧ (s.Good → t.errors = s.errors → R a t)
  | .error .failed t => Steps s t ∧ s.errors.length < t.errors.length
  | .error .tooDeep t => Steps s t
  | .error (.literalTooLong _) t => Steps s t ∧ LongLiteral s.tokens

/-- Every run of a rule ends so. -/
def Ensures (p : Parser α) (R : State → α → State → Prop) : Prop := ∀ s, Ends s (R s) (p s)

variable {R : State → α → State → Prop} {R' : α → State → β → State → Prop}

theorem Ends.mono {R R₂ : α → State → Prop} {res : EStateM.Result Stop State α}
    (h : Ends s R res) (hR : ∀ a t, s.Good → R a t → R₂ a t) : Ends s R₂ res := by
  match res, h with
  | .ok a t, h => exact ⟨h.1, fun hg he => hR a t hg (h.2 hg he)⟩
  | .error .failed _, h => exact h
  | .error .tooDeep _, h => exact h
  | .error (.literalTooLong _) _, h => exact h

theorem Ensures.mono {R₂ : State → α → State → Prop} (h : Ensures p R)
    (hR : ∀ s a t, s.Good → R s a t → R₂ s a t) : Ensures p R₂ :=
  fun s => (h s).mono (hR s)

/-- What is ensured is ensured of runs without a new error. -/
theorem Ensures.clean (h : Ensures p R) :
    Ensures p fun s a t => R s a t ∧ t.errors = s.errors := by
  intro s
  have hs := h s
  match p s, hs with
  | .ok _ _, hs => exact ⟨hs.1, fun hg he => ⟨hs.2 hg he, he⟩⟩
  | .error .failed _, hs => exact hs
  | .error .tooDeep _, hs => exact hs
  | .error (.literalTooLong _) _, hs => exact hs

theorem bind_apply (p : Parser α) (f : α → Parser β) (s : State) :
    (p >>= f) s = match p s with
      | .ok a t => f a t
      | .error e t => .error e t := by
  simp only [Bind.bind, EStateM.bind]
  cases p s <;> rfl

theorem bind_eq_ok {b : β} : (p >>= f) s = .ok b u ↔ ∃ a t, p s = .ok a t ∧ f a t = .ok b u := by
  rw [bind_apply]
  cases p s with
  | ok a t =>
    constructor
    · exact fun h => ⟨a, t, rfl, h⟩
    · rintro ⟨_, _, hp, h⟩
      cases hp
      exact h
  | error e t => simp

theorem advance_bind (f : Unit → Parser β) (s : State) : (advance >>= f) s = f () s.advance := rfl

theorem current_bind (f : Token → Parser β) (s : State) : (current >>= f) s = f s.current s := rfl

theorem peek_bind (f : Token → Parser β) (s : State) : (peek >>= f) s = f s.peek s := rfl

theorem ahead_bind (f : Nat → Parser β) (s : State) : (ahead >>= f) s = f s.rest.length s := rfl

theorem get_bind (f : State → Parser β) (s : State) : (get >>= f) s = f s s := rfl

theorem Ends.bind {R : α → State → Prop} (hp : Ends s R (p s))
    (hf : ∀ a, Ensures (f a) (R' a)) :
    Ends s (fun b u => ∃ a t, R a t ∧ t.Good ∧ R' a t b u) ((p >>= f) s) := by
  rw [bind_apply]
  generalize p s = res at hp
  match res, hp with
  | .ok a t, ⟨hs, ha⟩ =>
    have ht := hf a t
    simp only
    generalize f a t = res at ht
    match res, ht with
    | .ok b u, ⟨hs', hb⟩ =>
      -- no error was added in the end, so none was added on the way
      refine ⟨hs.trans hs', fun hg he => ⟨a, t, ha hg ?_, hs.good hg, hb (hs.good hg) ?_⟩⟩
      · exact (hs.errors_prefix.eq_of_length_le (he ▸ hs'.errors_length)).symm
      · exact (hs'.errors_prefix.eq_of_length_le (he ▸ hs.errors_length)).symm
    | .error .failed _, h => exact ⟨hs.trans h.1, Nat.lt_of_le_of_lt hs.errors_length h.2⟩
    | .error .tooDeep _, h => exact hs.trans h
    | .error (.literalTooLong _) _, h => exact ⟨hs.trans h.1, h.2.mono hs.tokens_suffix⟩
  | .error .failed _, h => exact h
  | .error .tooDeep _, h => exact h
  | .error (.literalTooLong _) _, h => exact h

theorem Ensures.bind (hp : Ensures p R) (hf : ∀ a, Ensures (f a) (R' a)) :
    Ensures (p >>= f) fun s b u => ∃ a t, R s a t ∧ t.Good ∧ R' a t b u :=
  fun s => (hp s).bind hf

theorem ensures_pure (a : α) : Ensures (pure a) fun s b t => b = a ∧ t = s :=
  fun _ => ⟨.refl, fun _ _ => ⟨rfl, rfl⟩⟩

theorem ensures_tooDeep : Ensures (throw .tooDeep : Parser α) R := fun _ => .refl

theorem ends_fail_current {R : α → State → Prop} (s : State) (fault : SyntaxFault) :
    Ends s R (fail s.current.pos fault s) :=
  ⟨.single (.atCurrent s fault), by simp⟩

theorem ends_fail_peek {R : α → State → Prop} (s : State) (fault : SyntaxFault) :
    Ends s R (fail s.peek.pos fault s) :=
  ⟨.single (.atPeek s fault), by simp⟩

theorem ends_record_current (s : State) (fault : SyntaxFault) :
    Ends s (fun _ _ => False) (record s.current.pos fault s) := by
  refine ⟨.single (.atCurrent s fault), fun _ he => ?_⟩
  simp at he

theorem ends_record_peek (s : State) (fault : SyntaxFault) :
    Ends s (fun _ _ => False) (record s.peek.pos fault s) := by
  refine ⟨.single (.atPeek s fault), fun _ he => ?_⟩
  simp at he

/-- The reader is on the token that was ahead, unless there was none. -/
theorem ensures_advance : Ensures advance fun s _ t =>
    t.current = s.peek ∧ (s.rest ≠ [] → Passes s [t.current] t) := by
  intro s
  refine ⟨steps_advance s, fun _ _ => ⟨advance_current s, fun hr => ?_⟩⟩
  simpa using passes_advance hr

theorem ensures_current : Ensures current fun s a t => a = s.current ∧ t = s :=
  fun _ => ⟨.refl, fun _ _ => ⟨rfl, rfl⟩⟩

theorem ensures_get : Ensures (get : Parser State) fun s a t => a = s ∧ t = s :=
  fun _ => ⟨.refl, fun _ _ => ⟨rfl, rfl⟩⟩

theorem ensures_ahead : Ensures ahead fun s a t => a = s.rest.length ∧ t = s :=
  fun _ => ⟨.refl, fun _ _ => ⟨rfl, rfl⟩⟩

theorem expect_apply (kind : Kind) (s : State) :
    expect kind s = if s.peek.kind = kind then .ok () s.advance
      else .error .failed (s.record s.peek.pos (.expected kind s.peek)) := by
  change (if s.peek.kind = kind then advance else fail s.peek.pos (.expected kind s.peek)) s = _
  split <;> rfl

theorem ensures_expect {kind : Kind} (hk : kind ≠ .eof) :
    Ensures (expect kind) fun s _ t => t.current.kind = kind ∧ Passes s [t.current] t := by
  intro s
  rw [expect_apply]
  split
  · next h =>
    refine ⟨steps_advance s, fun hg _ => ⟨by simpa using h, ?_⟩⟩
    simpa using passes_advance (hg.rest_ne_nil_of_peek (h ▸ hk))
  · exact ends_fail_peek s _

/-- A rule that is attempted gives nothing only if there is a new error. -/
theorem Ensures.attempt (h : Ensures p R) :
    Ensures (attempt p) fun s o t => ∃ a, o = some a ∧ R s a t := by
  intro s
  have hs := h s
  unfold Parser.attempt
  match p s, hs with
  | .ok a t, hs => exact ⟨hs.1, fun hg he => ⟨a, rfl, hs.2 hg he⟩⟩
  | .error .failed t, hs => exact ⟨hs.1, fun _ he => absurd hs.2 (by simp [he])⟩
  | .error .tooDeep _, hs => exact hs
  | .error (.literalTooLong _) _, hs => exact hs

theorem ensures_skipLineEndsUpTo (n : Nat) :
    Ensures (skipLineEndsUpTo n) fun s _ t => ∃ nl, Dropped nl ∧ Passes s nl t := by
  induction n with
  | zero =>
    exact fun s => ⟨.refl, fun _ _ => ⟨[], dropped_nil, .refl s⟩⟩
  | succ n ih =>
    intro s
    simp only [skipLineEndsUpTo, peek_bind]
    split
    · next hl =>
      refine ((ensures_advance.bind fun _ => ih) s).mono ?_
      rintro _ t hg ⟨-, u, ⟨hu, hp⟩, -, nl, hn, ht⟩
      have hr : s.rest ≠ [] := hg.rest_ne_nil_of_peek fun he => by simp [Token.isLineEnd, he] at hl
      exact ⟨u.current :: nl, by simpa [Dropped, hu, hl] using hn, (hp hr).trans ht⟩
    · exact ⟨.refl, fun _ _ => ⟨[], dropped_nil, .refl s⟩⟩

theorem ensures_skipLineEnds :
    Ensures skipLineEnds fun s _ t => ∃ nl, Dropped nl ∧ Passes s nl t :=
  fun s => ensures_skipLineEndsUpTo s.rest.length s

/-- What is passed over to start again matters to no reading without errors. -/
theorem ensures_synchronizeWithin (n opened : Nat) :
    Ensures (synchronizeWithin n opened) fun _ _ _ => True := by
  induction n generalizing opened with
  | zero => exact fun _ => ⟨.refl, fun _ _ => trivial⟩
  | succ n ih =>
    have hm : ∀ k, Ensures (advance >>= fun _ => synchronizeWithin n k) fun _ _ _ => True :=
      fun k => (ensures_advance.bind fun _ => ih k).mono fun _ _ _ _ _ => trivial
    have hp : Ensures (pure ()) fun _ _ _ => True := fun _ => ⟨.refl, fun _ _ => trivial⟩
    have ha : Ensures (advance >>= fun _ => pure ()) fun _ _ _ => True :=
      (ensures_advance.bind fun _ => hp).mono fun _ _ _ _ _ => trivial
    unfold synchronizeWithin
    refine (ensures_current.bind fun t => (?_ : Ensures _ fun _ _ _ => True)).mono
      fun _ _ _ _ _ => trivial
    by_cases ho : opened = 0
    · simp only [ho, ↓reduceIte, ne_eq, not_true_eq_false]
      split
      · exact hp
      · exact hm _
      · exact hp
      · exact ha
      · exact hm _
    · simp only [ho, ↓reduceIte, ne_eq, not_false_eq_true]
      split
      · exact hp
      all_goals exact hm _

theorem ensures_synchronize : Ensures synchronize fun _ _ _ => True :=
  fun s => ensures_synchronizeWithin s.rest.length 0 s

end Scriptlet.Parser
