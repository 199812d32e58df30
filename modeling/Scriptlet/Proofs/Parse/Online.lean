import Scriptlet.Proofs.Grammar.Face
import Scriptlet.Proofs.Parse.Fuel

/-!
Rules read from left to right. The first error of a rule is at a token that was still to be read.
Another reader whose tokens look the same up to there does the same up to there, so that it finds an
error as well. What is behind the first error does not matter to it.
-/

namespace Scriptlet.Parser

variable {α β : Type} {s s' t t' u : State} {p p' q q' : Parser α} {f f' : α → Parser β}
  {post post' cs : List Token} {V W : List Token → Prop} {res res' : EStateM.Result Stop State α}
  {R : State → α → State → Prop} {R' : α → State → β → State → Prop}

/-- Whether the token that a reader stands on is still to be read, or has been read. -/
inductive Place where
  | before | behind

variable {i j k : Place}

/-- The tokens that are still to be read. -/
def State.unread (s : State) : Place → List Token
  | .before => s.tokens
  | .behind => s.rest

@[simp] theorem unread_before : s.unread .before = s.tokens := rfl

@[simp] theorem unread_behind : s.unread .behind = s.rest := rfl

/-- A reader of the tokens of a text with something left to read. -/
def State.Ready (s : State) (i : Place) : Prop := s.Good ∧ s.unread i ≠ []

theorem State.Good.ready (h : s.Good) : s.Ready .before := ⟨h, by simp [State.tokens]⟩

theorem State.Good.ready_behind (h : s.Good) (hk : s.current.kind ≠ .eof) : s.Ready .behind :=
  ⟨h, h.rest_ne_nil hk⟩

theorem State.Ready.current_ne_eof (h : s.Ready .behind) : s.current.kind ≠ .eof :=
  fun hk => h.2 (h.1.rest_eq_nil_iff.mpr hk)

theorem State.Ready.tokens_advance (h : s.Ready .behind) : s.advance.tokens = s.rest := by
  obtain ⟨c, cs, hc⟩ := List.exists_cons_of_ne_nil h.2
  simp only [unread_behind] at hc
  simp [State.tokens, State.peek, hc]

theorem State.Ready.rest_eq (h : s.Ready .behind) : s.rest = s.peek :: s.advance.rest := by
  have ht := h.tokens_advance
  simpa [State.tokens] using ht.symm

/-! ### The first error -/

/-- The first new error, if there is one, is at the first one of some tokens. -/
def ErrsAt (s t : State) (V : List Token → Prop) : Prop :=
  ∀ e es, t.errors = s.errors ++ e :: es → ∃ c cs, c.pos = e.pos ∧ V (c :: cs)

theorem ErrsAt.mono (h : ErrsAt s t V) (hV : ∀ cs, V cs → W cs) : ErrsAt s t W := by
  intro e es he
  obtain ⟨c, cs, hc, hcs⟩ := h e es he
  exact ⟨c, cs, hc, hV _ hcs⟩

theorem errsAt_of_eq (h : t.errors = s.errors) : ErrsAt s t V := by
  intro e es he
  simp [h] at he

theorem ErrsAt.of_eq (h : ErrsAt t u V) (he : t.errors = s.errors) : ErrsAt s u V :=
  fun e es hes => h e es (he ▸ hes)

/-- The first error stays the first one. -/
theorem ErrsAt.extend (h : ErrsAt s t V) (hs : s.errors <+: t.errors) (ht : t.errors <+: u.errors)
    (hne : t.errors ≠ s.errors) : ErrsAt s u V := by
  obtain ⟨es, hes⟩ := hs
  obtain ⟨fs, hfs⟩ := ht
  cases es with
  | nil => exact absurd (by simpa using hes.symm) hne
  | cons e es =>
    intro e' es' he
    rw [← hfs, ← hes, List.append_assoc] at he
    obtain ⟨rfl, -⟩ := List.cons.inj (List.append_cancel_left he)
    exact h e es hes.symm

theorem Ends.errors_kept {R : α → State → Prop} (h : Ends s R res) :
    s.errors <+: (after res).errors := h.steps.errors_prefix

/-! ### Two readers -/

/-- Another reader whose unread tokens look the same up to some point, which comes behind one token
at least. The rest of them may be anything. -/
structure Twin (i : Place) (post post' : List Token) (s s' : State) : Prop where
  good : s'.Good
  current : s'.current.face = s.current.face
  unread : ∃ vs vs', vs ≠ [] ∧ Alike vs' vs ∧ s.unread i = vs ++ post ∧
    s'.unread i = vs' ++ post'

/-- The next token looks the same. -/
theorem Twin.head (h : Twin i post post' s s') : ∃ c c' vs vs', c'.face = c.face ∧ Alike vs' vs ∧
    s.unread i = c :: (vs ++ post) ∧ s'.unread i = c' :: (vs' ++ post') := by
  obtain ⟨-, -, vs, vs', hn, hf, hu, hu'⟩ := h
  cases vs with
  | nil => exact absurd rfl hn
  | cons c vs =>
    obtain ⟨c', vs', rfl, hc, hf⟩ := alike_cons.mp hf
    exact ⟨c, c', vs, vs', hc, hf, hu, hu'⟩

theorem Twin.ready (h : Twin i post post' s s') : s'.Ready i := by
  obtain ⟨c, c', vs, vs', -, -, -, hu'⟩ := h.head
  exact ⟨h.good, by simp [hu']⟩

theorem Twin.peek (h : Twin .behind post post' s s') : s'.peek.face = s.peek.face := by
  obtain ⟨c, c', vs, vs', hc, -, hu, hu'⟩ := h.head
  simp only [unread_behind] at hu hu'
  simpa [State.peek, hu, hu'] using hc

theorem Twin.kind (h : Twin i post post' s s') : s'.current.kind = s.current.kind :=
  Token.kind_of_face h.current

theorem Twin.text (h : Twin i post post' s s') : s'.current.text = s.current.text :=
  Token.text_of_face h.current

theorem Twin.peek_kind (h : Twin .behind post post' s s') : s'.peek.kind = s.peek.kind :=
  Token.kind_of_face h.peek

/-- How the runs of two readers compare: the other one does not succeed without an error, or the
first one has gone beyond the point with no error up to it, or both have gone on together. -/
inductive Agrees (j : Place) (post post' : List Token) (s s' : State) :
    EStateM.Result Stop State α → EStateM.Result Stop State α → Prop where
  | bad {res res' : EStateM.Result Stop State α}
    (h : ∀ a t', res' = .ok a t' → s'.errors.length < t'.errors.length) :
    Agrees j post post' s s' res res'
  | late {res res' : EStateM.Result Stop State α} (he : ErrsAt s (after res) (· <:+ post))
    (hm : ∀ a t, res = .ok a t → t.errors = s.errors → t.unread j <:+ post) :
    Agrees j post post' s s' res res'
  | inStep {a : α} {t t' : State} (he : t.errors = s.errors) (he' : t'.errors = s'.errors)
    (ht : Twin j post post' t t') : Agrees j post post' s s' (.ok a t) (.ok a t')

/-- A run of a rule from a reader, beside another rule for other readers: its first error is at some
unread tokens of a kind, it moves over unread tokens, and the other rule does the same to readers
whose tokens look the same. -/
structure LocalAt (i j : Place) (s : State) (V : List Token → Prop)
    (res : EStateM.Result Stop State α) (q' : Parser α) : Prop where
  errs : ErrsAt s (after res) fun cs => cs <:+ s.unread i ∧ V cs
  moved : ∀ a t, res = .ok a t → t.errors = s.errors → t.Ready j ∧ t.unread j <:+ s.unread i
  agrees : ∀ post post' s', Twin i post post' s s' → Agrees j post post' s s' res (q' s')

/-- So do all runs, and the two rules ensure the same. -/
structure Local (i j : Place) (p p' : Parser α) (R : State → α → State → Prop)
    (V : State → List Token → Prop) : Prop where
  ensures : Ensures p R
  ensures' : Ensures p' R
  run : ∀ s, s.Ready i → LocalAt i j s (V s) (p s) p'

theorem LocalAt.mono (h : LocalAt i j s V res q') (hV : ∀ cs, V cs → W cs) :
    LocalAt i j s W res q' :=
  ⟨h.errs.mono fun cs hcs => ⟨hcs.1, hV cs hcs.2⟩, h.moved, h.agrees⟩

/-- The other rule matters only for readers whose next token looks the same. -/
theorem LocalAt.congr (h : LocalAt i j s V res q)
    (hq : ∀ post post' s', Twin i post post' s s' → q' s' = q s') : LocalAt i j s V res q' :=
  ⟨h.errs, h.moved, fun post post' s' ht => hq post post' s' ht ▸ h.agrees post post' s' ht⟩

theorem Agrees.of_eq (h : Agrees j post post' t t' res res') (he : t.errors = s.errors)
    (he' : t'.errors = s'.errors) : Agrees j post post' s s' res res' := by
  cases h with
  | bad hb => exact .bad (he' ▸ hb)
  | late hl hm => exact .late (hl.of_eq he) (he ▸ hm)
  | inStep h h' ht => exact .inStep (h.trans he) (h'.trans he') ht

/-- An error of the first rule is an error of both in order. -/
theorem bad_bind (hf : ∀ a, Ensures (f' a) (R' a))
    (h : ∀ a t', p' s' = .ok a t' → s'.errors.length < t'.errors.length) :
    ∀ b u', (p' >>= f') s' = .ok b u' → s'.errors.length < u'.errors.length := by
  intro b u' hb
  rw [bind_apply] at hb
  cases hp : p' s' with
  | ok a t' =>
    rw [hp] at hb
    exact Nat.lt_of_lt_of_le (h a t' hp) ((hf a).steps hb).errors_length
  | error e t' =>
    rw [hp] at hb
    cases hb

/-- Two rules in order. What the second one is may depend on the reader, as long as it comes to the
same where the first one finds no error. -/
theorem LocalAt.bind_of {R : α → State → Prop} {W : α → State → List Token → Prop}
    {f' : State → α → Parser β} {g : α → Parser β} (hp : LocalAt i j s V (p s) p')
    (he : Ends s R (p s)) (hg : s.Good) (hf : ∀ a, Ensures (f a) (R' a))
    (hf' : ∀ s' a, Ensures (f' s' a) (R' a))
    (hsame : ∀ s' a t', t'.errors = s'.errors → f' s' a t' = g a t')
    (hrun : ∀ a t, R a t → t.errors = s.errors → t.Ready j →
      LocalAt j k t (W a t) (f a t) (g a)) :
    LocalAt i k s (fun cs => V cs ∨ ∃ a t, R a t ∧ t.Good ∧ W a t cs)
      ((p >>= f) s) (fun s' => (p' >>= f' s') s') := by
  rw [bind_apply]
  cases hps : p s with
  | error e t =>
    rw [hps] at hp
    refine ⟨hp.errs.mono fun cs hcs => ⟨hcs.1, .inl hcs.2⟩, nofun, fun post post' s' ht => ?_⟩
    have ha := hp.agrees post post' s' ht
    generalize hp' : p' s' = res' at ha
    cases ha with
    | bad hb => exact .bad (bad_bind (hf' s') (hp' ▸ hb))
    | late hl _ => exact .late hl nofun
  | ok a t =>
    rw [hps] at hp he
    have hgrow : t.errors <+: (after (f a t)).errors := (hf a t).errors_kept
    by_cases hc : t.errors = s.errors
    · obtain ⟨hr, hsub⟩ := hp.moved a t rfl hc
      have hl := hrun a t (he.2 hg hc) hc hr
      refine ⟨?_, fun b u hu hce => ?_, fun post post' s' ht => ?_⟩
      · exact (hl.errs.of_eq hc).mono fun cs hcs =>
          ⟨hcs.1.trans hsub, .inr ⟨a, t, he.2 hg hc, hr.1, hcs.2⟩⟩
      · obtain ⟨hru, hsubu⟩ := hl.moved b u hu (hce.trans hc.symm)
        exact ⟨hru, hsubu.trans hsub⟩
      · have ha := hp.agrees post post' s' ht
        generalize hp' : p' s' = res' at ha
        cases ha with
        | bad hb => exact .bad (bad_bind (hf' s') (hp' ▸ hb))
        | late hlate hm =>
          have htp := hm a t rfl hc
          refine .late ((hl.errs.of_eq hc).mono fun cs hcs => hcs.1.trans htp) fun b u hu hce => ?_
          exact (hl.moved b u hu (hce.trans hc.symm)).2.trans htp
        | inStep _ hc' htw =>
          rw [bind_apply, hp']
          simp only [hsame s' a _ hc']
          exact (hl.agrees post post' _ htw).of_eq hc hc'
    · -- the first error has been found
      have hpre : s.errors <+: t.errors := Steps.errors_prefix he.1
      have hdirty {b : β} {u : State} (hu : f a t = .ok b u) : u.errors ≠ s.errors := by
        rw [hu] at hgrow
        exact fun hce => hc (hpre.eq_of_length_le (hce ▸ hgrow.length_le)).symm
      refine ⟨(hp.errs.mono fun cs hcs => ⟨hcs.1, .inl hcs.2⟩).extend hpre hgrow hc,
        fun b u hu hce => absurd hce (hdirty hu), fun post post' s' ht => ?_⟩
      have ha := hp.agrees post post' s' ht
      generalize hp' : p' s' = res' at ha
      cases ha with
      | bad hb => exact .bad (bad_bind (hf' s') (hp' ▸ hb))
      | late hlate _ =>
        exact .late (hlate.extend hpre hgrow hc) fun b u hu hce => absurd hce (hdirty hu)
      | inStep hce => exact absurd hce hc

/-- What follows a rule that finds an error in any case. -/
theorem LocalAt.bind_failing (hp : LocalAt i j s V (p s) p') (he : Ends s (fun _ _ => False) (p s))
    (hg : s.Good) (hf : ∀ a, Ensures (f a) (R' a)) (hf' : ∀ a, Ensures (f' a) (R' a)) :
    LocalAt i k s V ((p >>= f) s) (p' >>= f') := by
  refine (hp.bind_of (g := f') (W := fun _ _ _ => False) he hg hf (fun _ => hf')
    (fun _ _ _ _ => rfl) fun _ _ hn => hn.elim).mono ?_
  rintro cs (hv | ⟨_, _, hn, -⟩)
  · exact hv
  · exact hn.elim

theorem LocalAt.bind {R : α → State → Prop} {V' : α → State → List Token → Prop}
    (hp : LocalAt i j s V (p s) p') (he : Ends s R (p s)) (hg : s.Good)
    (hf : ∀ a, Local j k (f a) (f' a) (R' a) (V' a)) :
    LocalAt i k s (fun cs => V cs ∨ ∃ a t, R a t ∧ t.Good ∧ V' a t cs)
      ((p >>= f) s) (p' >>= f') :=
  hp.bind_of he hg (fun a => (hf a).ensures) (fun _ a => (hf a).ensures') (fun _ _ _ _ => rfl)
    fun a t _ _ hr => (hf a).run t hr

theorem Local.bind {V : State → List Token → Prop} {V' : α → State → List Token → Prop}
    (hp : Local i j p p' R V) (hf : ∀ a, Local j k (f a) (f' a) (R' a) (V' a)) :
    Local i k (p >>= f) (p' >>= f') (fun s b u => ∃ a t, R s a t ∧ t.Good ∧ R' a t b u)
      fun s cs => V s cs ∨ ∃ a t, R s a t ∧ t.Good ∧ V' a t cs :=
  ⟨hp.ensures.bind fun a => (hf a).ensures, hp.ensures'.bind fun a => (hf a).ensures',
    fun s hs => (hp.run s hs).bind (hp.ensures s) hs.1 hf⟩

theorem Local.mono {R₂ : State → α → State → Prop} {V W : State → List Token → Prop}
    (h : Local i j p p' R V) (hR : ∀ s a t, s.Good → R s a t → R₂ s a t)
    (hV : ∀ s cs, s.Ready i → V s cs → W s cs) : Local i j p p' R₂ W :=
  ⟨h.ensures.mono hR, h.ensures'.mono hR, fun s hs => (h.run s hs).mono fun cs => hV s cs hs⟩

/-- A rule that finds no error, and another one. -/
theorem Local.seq {V' : α → State → List Token → Prop}
    (hp : Local i j p p' R fun _ _ => False) (hf : ∀ a, Local j k (f a) (f' a) (R' a) (V' a)) :
    Local i k (p >>= f) (p' >>= f') (fun s b u => ∃ a t, R s a t ∧ t.Good ∧ R' a t b u)
      fun s cs => ∃ a t, R s a t ∧ t.Good ∧ V' a t cs :=
  (hp.bind hf).mono (fun _ _ _ _ h => h) fun _ _ _ h => h.resolve_left id

/-! ### Single steps -/

theorem Twin.behind (h : Twin .before post post' s s') :
    s.rest = post ∨ Twin .behind post post' s s' := by
  obtain ⟨c, c', vs, vs', -, hf, hu, hu'⟩ := h.head
  obtain ⟨-, hr⟩ := List.cons.inj hu
  obtain ⟨-, hr'⟩ := List.cons.inj hu'
  cases vs with
  | nil => exact .inl hr
  | cons v vs => exact .inr ⟨h.good, h.current, v :: vs, vs', by simp, hf, hr, hr'⟩

theorem Twin.advance (h : Twin .behind post post' s s') (hs : s.Ready .behind) :
    Twin .before post post' s.advance s'.advance := by
  obtain ⟨hg, -, vs, vs', hn, hf, hu, hu'⟩ := id h
  exact ⟨hg.advance, by simpa using h.peek, vs, vs', hn, hf, hs.tokens_advance.trans hu,
    h.ready.tokens_advance.trans hu'⟩

/-- A rule behind the token that the reader stands on is one in front of it. -/
theorem LocalAt.read (h : LocalAt .behind j s V res q') : LocalAt .before j s V res q' := by
  have hsub : s.rest <:+ s.tokens := List.suffix_cons _ _
  refine ⟨h.errs.mono fun cs hcs => ⟨hcs.1.trans hsub, hcs.2⟩, fun a t ha he => ?_,
    fun post post' s' ht => ?_⟩
  · obtain ⟨hr, ht⟩ := h.moved a t ha he
    exact ⟨hr, ht.trans hsub⟩
  · rcases ht.behind with hp | ht
    · refine .late (h.errs.mono fun cs hcs => hp ▸ hcs.1) fun a t ha he => ?_
      exact hp ▸ (h.moved a t ha he).2
    · exact h.agrees post post' s' ht

theorem localAt_pure (hs : s.Ready i) (a : α) :
    LocalAt i i s (fun _ => False) ((pure a : Parser α) s) (pure a) :=
  ⟨errsAt_of_eq rfl, fun _ _ ha _ => by cases ha; exact ⟨hs, List.suffix_refl _⟩,
    fun _ _ _ ht => .inStep rfl rfl ht⟩

theorem local_pure (i : Place) (a : α) :
    Local i i (pure a) (pure a) (fun s b t => b = a ∧ t = s) fun _ _ => False :=
  ⟨ensures_pure a, ensures_pure a, fun _ hs => localAt_pure hs a⟩

/-- A rule whose result is changed. -/
theorem Local.returns {V : State → List Token → Prop} (h : Local i j p p' R V) (g : α → β) :
    Local i j (p >>= fun a => pure (g a)) (p' >>= fun a => pure (g a))
      (fun s b t => ∃ a, R s a t ∧ b = g a) V := by
  refine (h.bind fun a => local_pure j (g a)).mono ?_ ?_
  · rintro s _ _ - ⟨a, t, hR, -, rfl, rfl⟩
    exact ⟨a, hR, rfl⟩
  · rintro s cs - (hv | ⟨_, _, -, -, hf⟩)
    · exact hv
    · exact hf.elim

/-- An error at the token that is read next. -/
theorem localAt_fail_current (fault : SyntaxFault) (fault' : State → SyntaxFault) :
    LocalAt .before j s (· = s.tokens) ((fail s.current.pos fault : Parser α) s)
      (fun s' => fail s'.current.pos (fault' s') s') := by
  refine ⟨fun e es he => ⟨s.current, s.rest, ?_, List.suffix_refl _, rfl⟩, nofun,
    fun _ _ _ _ => .bad nofun⟩
  have := List.append_cancel_left (he : s.errors ++ [_] = _)
  simp only [List.cons.injEq] at this
  exact congrArg SyntaxError.pos this.1

/-- An error at the token ahead. -/
theorem localAt_fail_peek (hs : s.Ready .behind) (fault : SyntaxFault)
    (fault' : State → SyntaxFault) :
    LocalAt .behind j s (· = s.rest) ((fail s.peek.pos fault : Parser α) s)
      (fun s' => fail s'.peek.pos (fault' s') s') := by
  refine ⟨fun e es he => ⟨s.peek, s.advance.rest, ?_, hs.rest_eq ▸ List.suffix_refl _,
    hs.rest_eq.symm⟩, nofun, fun _ _ _ _ => .bad nofun⟩
  have := List.append_cancel_left (he : s.errors ++ [_] = _)
  simp only [List.cons.injEq] at this
  exact congrArg SyntaxError.pos this.1

/-- The same with rules that go on, which makes no difference. -/
theorem localAt_record_current (fault : SyntaxFault) (fault' : State → SyntaxFault) :
    LocalAt .before j s (· = s.tokens) (record s.current.pos fault s)
      (fun s' => record s'.current.pos (fault' s') s') := by
  refine ⟨(localAt_fail_current (j := j) (α := Unit) fault fault').errs, fun _ _ h he => ?_,
    fun _ _ s' _ => .bad ?_⟩
  · cases h
    simp at he
  · rintro _ _ ⟨⟩
    simp

theorem localAt_record_peek (hs : s.Ready .behind) (fault : SyntaxFault)
    (fault' : State → SyntaxFault) :
    LocalAt .behind j s (· = s.rest) (record s.peek.pos fault s)
      (fun s' => record s'.peek.pos (fault' s') s') := by
  refine ⟨(localAt_fail_peek (j := j) (α := Unit) hs fault fault').errs, fun _ _ h he => ?_,
    fun _ _ s' _ => .bad ?_⟩
  · cases h
    simp at he
  · rintro _ _ ⟨⟩
    simp

/-- A rule that stops without an error. -/
theorem localAt_throw (e : Stop) (q' : Parser α) (hq : ∀ s', ∃ e' t', q' s' = .error e' t') :
    LocalAt i j s (fun _ => False) ((throw e : Parser α) s) q' := by
  refine ⟨errsAt_of_eq rfl, nofun, fun _ _ s' _ => .bad fun a t' ha => ?_⟩
  obtain ⟨e', t'', h⟩ := hq s'
  simp [h] at ha

theorem local_advance : Local .behind .before advance advance
    (fun s _ t => t.current = s.peek ∧ (s.rest ≠ [] → Passes s [t.current] t))
    fun _ _ => False := by
  refine ⟨ensures_advance, ensures_advance, fun s hs => ⟨errsAt_of_eq (advance_errors s), ?_, ?_⟩⟩
  · rintro _ _ ⟨⟩ -
    exact ⟨hs.1.advance.ready, by simp [hs.tokens_advance]⟩
  · exact fun _ _ s' ht => .inStep (advance_errors s) (advance_errors s') (ht.advance hs)

/-- The token ahead is read, which is not the end. -/
theorem localAt_pass (hs : s.Ready .behind) (hk : s.peek.kind ≠ .eof) :
    LocalAt .behind .behind s (fun _ => False) (advance s) advance := by
  have hk' : s.advance.current.kind ≠ .eof := by simpa using hk
  have hsub : s.advance.rest <:+ s.rest := by
    rw [hs.rest_eq]
    exact List.suffix_cons _ _
  refine ⟨errsAt_of_eq (advance_errors s), ?_, fun _ _ s' ht => ?_⟩
  · rintro _ _ ⟨⟩ -
    exact ⟨hs.1.advance.ready_behind hk', hsub⟩
  · rcases (ht.advance hs).behind with hp | hp
    · refine .late (errsAt_of_eq (advance_errors s)) ?_
      rintro _ _ ⟨⟩ -
      exact hp ▸ List.suffix_refl _
    · exact .inStep (advance_errors s) (advance_errors s') hp

theorem local_expect {kind : Kind} (hk : kind ≠ .eof) :
    Local .behind .behind (expect kind) (expect kind)
      (fun s _ t => t.current.kind = kind ∧ Passes s [t.current] t) fun s cs => cs = s.rest := by
  refine ⟨ensures_expect hk, ensures_expect hk, fun s hs => ?_⟩
  rw [expect_apply]
  split
  · next h =>
    refine ((localAt_pass hs (h ▸ hk)).mono fun _ hf => hf.elim).congr fun _ _ s' ht => ?_
    rw [expect_apply, if_pos ((ht.peek_kind).trans h)]
    rfl
  · next h =>
    refine (localAt_fail_peek hs _ fun s' => .expected kind s'.peek).congr fun _ _ s' ht => ?_
    rw [expect_apply, if_neg (fun h' => h ((ht.peek_kind).symm.trans h'))]
    rfl

/-- What is read depends on the token ahead, which is passed over in one of two cases. -/
theorem local_ifPeek {c : Token → Prop} [∀ t, Decidable (c t)] {V V' : State → List Token → Prop}
    {R R' : State → α → State → Prop} (hk : ∀ t, c t → t.kind ≠ .eof)
    (hc : ∀ t t' : Token, t'.face = t.face → (c t' ↔ c t)) (hp : Local .behind j p p' R V)
    (hq : Local .behind j q q' R' V') :
    Local .behind j (peek >>= fun t => if c t then (advance >>= fun _ => p) else q)
      (peek >>= fun t => if c t then (advance >>= fun _ => p') else q')
      (fun s a t => (c s.peek ∧ ∃ s₁, s₁.current = s.peek ∧ Passes s [s₁.current] s₁ ∧ s₁.Good ∧
        R s₁ a t) ∨ ¬ c s.peek ∧ R' s a t)
      fun s cs => (c s.peek ∧ ∃ s₁, s₁.current = s.peek ∧ Passes s [s₁.current] s₁ ∧ s₁.Good ∧
        V s₁ cs) ∨ ¬ c s.peek ∧ V' s cs := by
  have hens {p q : Parser α} (hp : Ensures p R) (hq : Ensures q R') :
      Ensures (peek >>= fun t => if c t then (advance >>= fun _ => p) else q)
        (fun s a t => (c s.peek ∧ ∃ s₁, s₁.current = s.peek ∧ Passes s [s₁.current] s₁ ∧ s₁.Good ∧
          R s₁ a t) ∨ ¬ c s.peek ∧ R' s a t) := by
    intro s
    rw [peek_bind]
    split
    · next h =>
      refine ((ensures_advance.bind fun _ => hp) s).mono ?_
      rintro a t hg ⟨-, s₁, ⟨h₁, p₁⟩, g₁, hR⟩
      exact .inl ⟨h, s₁, h₁, p₁ (hg.rest_ne_nil_of_peek (hk _ h)), g₁, hR⟩
    · next h => exact (hq s).mono fun a t _ hR => .inr ⟨h, hR⟩
  refine ⟨hens hp.ensures hq.ensures, hens hp.ensures' hq.ensures', fun s hs => ?_⟩
  rw [peek_bind]
  split
  · next h =>
    refine (((localAt_pass hs (hk _ h)).bind (ensures_advance s) hs.1 fun _ => hp).mono ?_).congr ?_
    · rintro cs (hf | ⟨-, s₁, ⟨h₁, p₁⟩, g₁, hv⟩)
      · exact hf.elim
      · exact .inl ⟨h, s₁, h₁, p₁ hs.2, g₁, hv⟩
    · intro _ _ s' ht
      rw [peek_bind, if_pos ((hc _ _ ht.peek).mpr h)]
  · next h =>
    refine ((hq.run s hs).mono fun cs hv => .inr ⟨h, hv⟩).congr fun _ _ s' ht => ?_
    rw [peek_bind, if_neg (fun h' => h ((hc _ _ ht.peek).mp h'))]

theorem local_ifPeekKind {kind : Kind} {V V' : State → List Token → Prop}
    {R R' : State → α → State → Prop} (hk : kind ≠ .eof) (hp : Local .behind j p p' R V)
    (hq : Local .behind j q q' R' V') :
    Local .behind j (peek >>= fun t => if t.kind = kind then (advance >>= fun _ => p) else q)
      (peek >>= fun t => if t.kind = kind then (advance >>= fun _ => p') else q')
      (fun s a t => (s.peek.kind = kind ∧ ∃ s₁, s₁.current = s.peek ∧ Passes s [s₁.current] s₁ ∧
        s₁.Good ∧ R s₁ a t) ∨ s.peek.kind ≠ kind ∧ R' s a t)
      fun s cs => (s.peek.kind = kind ∧ ∃ s₁, s₁.current = s.peek ∧ Passes s [s₁.current] s₁ ∧
        s₁.Good ∧ V s₁ cs) ∨ s.peek.kind ≠ kind ∧ V' s cs :=
  local_ifPeek (c := fun t => t.kind = kind) (fun _ h => h ▸ hk)
    (fun _ _ hf => by rw [Token.kind_of_face hf]) hp hq

/-- What is read depends on the text of the token that the reader stands on. -/
theorem local_text {f f' : String → Parser α} {R : String → State → α → State → Prop}
    {V : String → State → List Token → Prop} (hf : ∀ x, Local i j (f x) (f' x) (R x) (V x)) :
    Local i j (current >>= fun t => f t.text) (current >>= fun t => f' t.text)
      (fun s => R s.current.text s) fun s => V s.current.text s := by
  refine ⟨fun s => (hf _).ensures s, fun s => (hf _).ensures' s, fun s hs => ?_⟩
  refine ((hf s.current.text).run s hs).congr fun _ _ s' ht => ?_
  rw [current_bind, ht.text]

/-- Bounds that cut nothing off may differ. -/
theorem local_ahead {f f' : Nat → Parser α} {R : Nat → State → α → State → Prop}
    {V : Nat → State → List Token → Prop} (hf : ∀ n, Local i j (f n) (f' n) (R n) (V n))
    (hs : Fueled f) (hs' : Fueled f') :
    Local i j (ahead >>= f) (ahead >>= f') (fun s => R s.rest.length s)
      fun s => V s.rest.length s := by
  refine ⟨fun s => (hf _).ensures s, fun s => (hf _).ensures' s, fun s hr => ?_⟩
  have hl := (hf s.rest.length).run s hr
  refine ⟨hl.errs, hl.moved, fun post post' s' ht => ?_⟩
  -- both with the larger bound
  have ha := ((hf (max s.rest.length s'.rest.length)).run s hr).agrees post post' s' ht
  rw [ahead_bind, ahead_bind, hs.eq hr.1 (Nat.le_refl _) (Nat.le_max_left _ _),
    hs'.eq ht.good (Nat.le_refl _) (Nat.le_max_right _ _)]
  exact ha

theorem local_skipLineEndsUpTo (n : Nat) :
    Local .behind .behind (skipLineEndsUpTo n) (skipLineEndsUpTo n)
      (fun s _ t => ∃ nl, Dropped nl ∧ Passes s nl t) fun _ _ => False := by
  refine ⟨ensures_skipLineEndsUpTo n, ensures_skipLineEndsUpTo n, ?_⟩
  induction n with
  | zero => exact (local_pure _ ()).run
  | succ n ih =>
    have hn : Local .behind .behind (skipLineEndsUpTo n) (skipLineEndsUpTo n) _ _ :=
      ⟨ensures_skipLineEndsUpTo n, ensures_skipLineEndsUpTo n, ih⟩
    intro s hs
    refine ((local_ifPeek (c := fun t => t.isLineEnd = true) (fun t h he => ?_) (fun t t' hf => ?_)
      hn (local_pure _ ())).run s hs).mono ?_
    · simp [Token.isLineEnd, he] at h
    · simp only [Token.isLineEnd, Token.kind_of_face hf, Token.text_of_face hf]
    · rintro cs (⟨-, _, -, -, -, hf⟩ | ⟨-, hf⟩) <;> exact hf

theorem local_skipLineEnds : Local .behind .behind skipLineEnds skipLineEnds
    (fun s _ t => ∃ nl, Dropped nl ∧ Passes s nl t) fun _ _ => False :=
  local_ahead local_skipLineEndsUpTo fueled_skipLineEndsUpTo fueled_skipLineEndsUpTo

/-- A rule that is attempted fails with an error. -/
theorem Local.attempt {V : State → List Token → Prop} (h : Local i j p p' R V) :
    Local i j (attempt p) (attempt p') (fun s o t => ∃ a, o = some a ∧ R s a t) V := by
  refine ⟨h.ensures.attempt, h.ensures'.attempt, fun s hs => ?_⟩
  have hl := h.run s hs
  have hafter (p : Parser α) (s : State) : after (Parser.attempt p s) = after (p s) := by
    unfold Parser.attempt
    split <;> simp_all [after]
  have hok {p : Parser α} {R : State → α → State → Prop} (he : Ensures p R) {s t : State}
      {o : Option α} (ho : Parser.attempt p s = .ok o t) :
      (∃ a, p s = .ok a t) ∨ s.errors.length < t.errors.length := by
    have := he s
    unfold Parser.attempt at ho
    split at ho
    · next a u hp =>
      cases ho
      exact .inl ⟨a, hp⟩
    · next u hp =>
      cases ho
      rw [hp] at this
      exact .inr this.2
    · cases ho
  refine ⟨by rw [hafter]; exact hl.errs, fun o t ho he => ?_, fun post post' s' ht => ?_⟩
  · rcases hok h.ensures ho with ⟨a, ha⟩ | hlt
    · exact hl.moved a t ha he
    · exact absurd (congrArg List.length he) (Nat.ne_of_gt hlt)
  · have ha := hl.agrees post post' s' ht
    generalize hp : p s = res at ha
    generalize hp' : p' s' = res' at ha
    cases ha with
    | bad hb =>
      refine .bad fun o t' ho => ?_
      rcases hok h.ensures' ho with ⟨a, ha⟩ | hlt
      · exact hb a t' (hp'.symm.trans ha)
      · exact hlt
    | late hlate hm =>
      refine .late (by rw [hafter, hp]; exact hlate) fun o t ho he => ?_
      rcases hok h.ensures ho with ⟨a, ha⟩ | hlt
      · exact hm a t (hp.symm.trans ha) he
      · exact absurd (congrArg List.length he) (Nat.ne_of_gt hlt)
    | inStep hc hc' htw =>
      simp only [Parser.attempt, hp, hp']
      exact .inStep hc hc' htw

end Scriptlet.Parser
