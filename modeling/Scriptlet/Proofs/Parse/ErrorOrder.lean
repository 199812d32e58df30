import Scriptlet.Proofs.Parse.Appending
import Scriptlet.Proofs.Parse.Discipline
import Scriptlet.Proofs.Parse.Online

/-!
Errors are found in the order of the text. An error is recorded at the token that the reader stands on
or at the one ahead, and behind an error ahead nothing is recorded at the token before it: the reader
moves on first, or it rests on a closing brace, where the block around ends.
-/

namespace Scriptlet

open Scriptlet.Parser

/-- A place comes before another one or is the same. -/
instance : LE Position := ⟨fun p q => p.line < q.line ∨ p.line = q.line ∧ p.column ≤ q.column⟩

theorem Position.le_iff {p q : Position} :
    p ≤ q ↔ p.line < q.line ∨ p.line = q.line ∧ p.column ≤ q.column := Iff.rfl

theorem Position.le_refl (p : Position) : p ≤ p := .inr ⟨rfl, Nat.le_refl _⟩

theorem Position.le_trans {p q r : Position} (h : p ≤ q) (h' : q ≤ r) : p ≤ r := by
  rw [le_iff] at *
  omega

theorem Position.Precedes.le {p q : Position} (h : p.Precedes q) : p ≤ q := by
  rw [Position.le_iff]
  simp only [Precedes] at h
  omega

namespace Parser

variable {α β : Type} {s t : State} {i : Place} {p : Parser α} {f : α → Parser β} {r : Rules}
  {P P' Q Q' R : State → Prop}

/-- The place of the next token that is still to be read. -/
def State.upTo (s : State) : Place → Position
  | .before => s.current.pos
  | .behind => s.peek.pos

/-- The errors are in the order of the text, and none of them is behind the next token that is still
to be read. The tokens are in that order too. -/
structure State.Ordered (i : Place) (s : State) : Prop where
  good : s.Good
  tokens : s.tokens.Pairwise fun c d => c.pos.Precedes d.pos
  errors : s.errors.Pairwise fun e e' => e.pos ≤ e'.pos
  bound : ∀ e ∈ s.errors, e.pos ≤ s.upTo i

/-- No error is behind the token that the reader stands on. -/
abbrev UpToCurrent : State → Prop := State.Ordered .before

/-- No error is behind the token ahead. -/
abbrev UpToPeek : State → Prop := State.Ordered .behind

/-- There may be an error ahead only where the reader rests on a closing brace. -/
def Rests (s : State) : Prop := UpToPeek s ∧ (s.current.kind ≠ .rbrace → UpToCurrent s)

theorem State.Ordered.current_le (h : s.Ordered i) {c : Token} (hc : c ∈ s.tokens) :
    s.current.pos ≤ c.pos := by
  rcases List.mem_cons.mp hc with rfl | hc
  · exact Position.le_refl _
  · exact ((List.pairwise_cons.mp h.tokens).1 c hc).le

theorem State.Ordered.toPeek (h : s.Ordered .before) : s.Ordered .behind :=
  ⟨h.good, h.tokens, h.errors, fun e he =>
    Position.le_trans (h.bound e he) (h.current_le s.peek_mem_tokens)⟩

theorem State.Ordered.rests (h : s.Ordered .before) : Rests s := ⟨h.toPeek, fun _ => h⟩

/-- At the end token there is nothing ahead but that token. -/
theorem State.Ordered.of_eof (h : s.Ordered .behind) (hk : s.current.kind = .eof) :
    s.Ordered .before := by
  have hr : s.rest = [] := h.good.rest_eq_nil_iff.mpr hk
  refine ⟨h.good, h.tokens, h.errors, fun e he => ?_⟩
  simpa [State.upTo, State.peek, hr] using h.bound e he

theorem State.Ordered.advance (h : s.Ordered .behind) : s.advance.Ordered .before := by
  refine ⟨h.good.advance, ?_, by simpa using h.errors, ?_⟩
  · exact h.tokens.sublist (steps_advance s).tokens_suffix.sublist
  · simpa [State.upTo] using h.bound

/-- One more error, at the next token. -/
theorem State.Ordered.record (h : s.Ordered i) (fault : SyntaxFault) :
    (s.record (s.upTo i) fault).Ordered i := by
  have hup : (s.record (s.upTo i) fault).upTo i = s.upTo i := by cases i <;> rfl
  refine ⟨h.good, h.tokens, ?_, fun e he => ?_⟩
  · rw [record_errors, List.pairwise_append]
    exact ⟨h.errors, List.pairwise_singleton _ _, by simpa using h.bound⟩
  · rw [hup]
    rcases List.mem_append.mp he with he | he
    · exact h.bound e he
    · obtain rfl := List.mem_singleton.mp he
      exact Position.le_refl _

/-- A reader that has moved on without a new error is further behind the old ones. -/
theorem State.Ordered.steps (h : s.Ordered .before) (hs : Steps s t)
    (he : t.errors = s.errors) : t.Ordered .before := by
  have htokens := hs.tokens_suffix
  refine ⟨hs.good h.good, h.tokens.sublist htokens.sublist, he ▸ h.errors, fun e hm => ?_⟩
  have hcurrent : t.current ∈ s.tokens := htokens.subset (List.mem_cons_self ..)
  exact Position.le_trans (h.bound e (he ▸ hm)) (h.current_le hcurrent)

/-! ### Single steps -/

/-- How a run ends that keeps the errors in order. Where the nesting is too deep an error is still to
come, at the token that the reader stands on. -/
def Tidy (Q : State → Prop) : EStateM.Result Stop State α → Prop
  | .ok _ t => Q t
  | .error .tooDeep t => UpToCurrent t
  | .error _ t => UpToPeek t

/-- A rule keeps the errors in order, from states of one kind to states of another one. -/
def Orderly (P Q : State → Prop) (p : Parser α) : Prop := ∀ s, P s → Tidy Q (p s)

theorem Orderly.mono (h : Orderly P Q p) (hP : ∀ s, P' s → P s) (hQ : ∀ s, Q s → Q' s) :
    Orderly P' Q' p := by
  intro s hs
  have h := h s (hP s hs)
  match p s, h with
  | .ok _ t, h => exact hQ t h
  | .error .tooDeep _, h => exact h
  | .error .failed _, h => exact h
  | .error (.literalTooLong _) _, h => exact h

theorem Orderly.bind (hp : Orderly P Q p) (hf : ∀ a, Orderly Q R (f a)) :
    Orderly P R (p >>= f) := by
  intro s hs
  rw [bind_apply]
  have h := hp s hs
  match p s, h with
  | .ok a t, h => exact hf a t h
  | .error .tooDeep _, h => exact h
  | .error .failed _, h => exact h
  | .error (.literalTooLong _) _, h => exact h

theorem orderly_pure (a : α) : Orderly P P (pure a : Parser α) := fun _ hs => hs

/-- A rule whose result is changed. -/
theorem Orderly.returns (h : Orderly P Q p) (g : α → β) :
    Orderly P Q (p >>= fun a => pure (g a)) := h.bind fun _ => orderly_pure _

theorem orderly_tooDeep : Orderly UpToCurrent Q (throw .tooDeep : Parser α) := fun _ hs => hs

/-! ### Rules -/

/-- How far the errors reach at a stage. -/
def Reach : Stage → State → Prop
  | .start, s => UpToCurrent s
  | .before, s => UpToCurrent s
  | .seeking, s => UpToCurrent s
  | .between, s => Rests s
  | _, s => UpToPeek s

theorem Reach.turn {i j : Stage} (ht : i.Turns s j) (h : Reach i s) : Reach j s := by
  cases ht with
  | start => exact h
  | read | seek => exact State.Ordered.toPeek h
  | between | found => exact State.Ordered.rests h
  | statement hk => exact h.2 hk
  | close => exact h.1
  | resume hk =>
    have h : UpToPeek s := h
    rcases hk with hk | hk | hr
    · exact (h.of_eof hk).rests
    · exact ⟨h, fun hne => absurd hk hne⟩
    · exact (h.of_eof (h.good.rest_eq_nil_iff.mp hr)).rests

/-- How a run ends that keeps the errors in order, if the stage behind it is as given. -/
def Keeping (J : α → Stage) (x : EStateM.Result Stop State α) : Prop :=
  Tidy (fun _ => True) x ∧ ∀ a t, x = .ok a t → Reach (J a) t

theorem keeping_ok {J : α → Stage} {a : α} (h : Reach (J a) t) : Keeping J (.ok a t) := by
  refine ⟨trivial, ?_⟩
  rintro _ _ ⟨⟩
  exact h

theorem tidy_iff_keeping {j : Stage} {x : EStateM.Result Stop State α} :
    Tidy (Reach j) x ↔ Keeping (fun _ => j) x := by
  match x with
  | .ok a t => exact ⟨fun h => keeping_ok h, fun h => h.2 a t rfl⟩
  | .error .tooDeep _ => exact ⟨fun h => ⟨h, nofun⟩, fun h => h.1⟩
  | .error .failed _ => exact ⟨fun h => ⟨h, nofun⟩, fun h => h.1⟩
  | .error (.literalTooLong _) _ => exact ⟨fun h => ⟨h, nofun⟩, fun h => h.1⟩

theorem Keeping.bind {J : α → Stage} {K : β → Stage} (hp : Keeping J (p s))
    (hf : ∀ a t, Reach (J a) t → Keeping K (f a t)) : Keeping K ((p >>= f) s) := by
  rw [bind_apply]
  match p s, hp with
  | .ok a t, h => exact hf a t (h.2 a t rfl)
  | .error .tooDeep _, h => exact ⟨h.1, nofun⟩
  | .error .failed _, h => exact ⟨h.1, nofun⟩
  | .error (.literalTooLong _) _, h => exact ⟨h.1, nofun⟩

theorem Keeping.attempt (h : Keeping (fun _ => .behind) (p s)) :
    Keeping .attempted (attempt p s) := by
  unfold Parser.attempt
  match p s, h with
  | .ok a t, h => exact keeping_ok (h.2 a t rfl)
  | .error .failed _, h => exact keeping_ok h.1
  | .error .tooDeep _, h => exact ⟨h.1, nofun⟩
  | .error (.literalTooLong _) _, h => exact ⟨h.1, nofun⟩

theorem tidy_integer (hs : UpToCurrent s) : Tidy UpToPeek (Rules.integer s.current s) := by
  simp only [Rules.integer]
  split
  · exact hs.toPeek
  · split
    · exact (hs.record (.intTooLarge s.current.text)).toPeek
    · exact hs.toPeek

/-- The errors are kept in order. -/
def ordering : Discipline where
  toCompanion := .same
  Keeps i J s x _ := Reach i s → Keeping J x
  pure _ _ _ hs := keeping_ok hs
  bind hp hf hs := (hp hs).bind hf
  turn ht hx hs := hx (hs.turn ht)
  advance _ hs := keeping_ok (State.Ordered.advance hs)
  pass _ _ hs := keeping_ok (State.Ordered.advance hs).toPeek
  failCurrent _ _ hs := ⟨(State.Ordered.record hs _).toPeek, nofun⟩
  failPeek _ _ hs := ⟨State.Ordered.record hs _, nofun⟩
  integer _ hs := tidy_iff_keeping.mp (tidy_integer hs)
  attempt h hs := (h hs).attempt
  unterminated _ hs := keeping_ok (State.Ordered.record hs _)
  leave _ hs := keeping_ok (State.Ordered.advance hs)
  skip _ hs := keeping_ok (State.Ordered.advance hs)

theorem holds_iff_orderly {i j : Stage} :
    ordering.Holds i (fun _ => j) p p ↔ Orderly (Reach i) (Reach j) p :=
  forall₂_congr fun _ _ => tidy_iff_keeping.symm

namespace Rules

/-- Rules that keep the errors in order. -/
structure Orderly (r : Rules) : Prop where
  sound : r.Sound
  expression (power : Nat) : Parser.Orderly UpToCurrent UpToPeek (r.expression power)
  statement : Parser.Orderly UpToCurrent UpToPeek r.statement

theorem Orderly.governs (hr : r.Orderly) : ordering.Governs r r :=
  ⟨fun power => holds_iff_orderly.mpr (hr.expression power), holds_iff_orderly.mpr hr.statement⟩

/-- A closing brace that closes nothing is an error only where none was found ahead of it. -/
theorem orderly_program (hr : r.Orderly) (n : Nat) (recovering : Bool) :
    Parser.Orderly (fun s => Rests s ∧ (recovering = false → UpToCurrent s)) UpToPeek
      (r.program n recovering) := by
  induction n generalizing recovering with
  | zero => exact (orderly_pure _).mono (fun _ hs => hs.1.1) fun _ => id
  | succ n ih =>
    rintro s ⟨hs, hc⟩
    have hnext {t : State} (ht : UpToPeek t) :
        Tidy UpToPeek ((advance >>= fun _ => r.program n false) t) :=
      ih false t.advance ⟨ht.advance.rests, fun _ => ht.advance⟩
    simp only [program, get_bind]
    generalize hk : s.current.kind = k
    split
    · exact hs.1
    · cases recovering with
      | true => exact hnext hs.1
      | false => exact hnext ((hc rfl).record .strayBrace).toPeek
    · next hb =>
      have hs := hs.2 (hk ▸ hb)
      have hterminated : Tidy Rests (r.terminated s) :=
        holds_iff_orderly.mp (Discipline.holds_terminated hr.governs.statement) s hs
      have hsteps {o : Option Stmt} {t : State} : r.terminated s = .ok o t → Steps s t :=
        (ensures_terminated hr.sound).steps
      rw [bind_apply]
      generalize r.terminated s = res at hterminated hsteps
      cases res with
      | ok o t =>
        refine (ih _).returns (fun ss => o.toList ++ ss) t ⟨hterminated, fun hsame => ?_⟩
        have hlen : ¬ s.errors.length < t.errors.length := by simpa using hsame
        have hst := hsteps rfl
        exact hs.steps hst (hst.errors_prefix.eq_of_length_le (Nat.le_of_not_lt hlen)).symm
      | error halt t => cases halt <;> exact hterminated

end Rules

theorem orderly_rules (n : Nat) : (rules n).Orderly := by
  induction n with
  | zero => exact ⟨sound_rules 0, fun _ => orderly_tooDeep, orderly_tooDeep⟩
  | succ n ih =>
    exact ⟨sound_rules (n + 1),
      fun power => holds_iff_orderly.mp (Discipline.holds_expressionRule ih.governs power),
      holds_iff_orderly.mp (Discipline.holds_statementRule ih.governs fun power =>
        holds_iff_orderly.mpr (ih.expression power))⟩

theorem tidy_run (depth : Nat) (source : String) :
    Tidy UpToPeek (run depth (tokenize source)) := by
  have hl := lexed_tokenize source
  have hs : UpToCurrent (.ofTokens (tokenize source)) := by
    refine ⟨hl.good_ofTokens, hl.tokens_ofTokens.symm ▸ pairwise_tokenize source, ?_, ?_⟩
    all_goals simp [ofTokens_errors]
  exact Rules.orderly_program (orderly_rules depth) _ false _ ⟨hs.rests, fun _ => hs⟩

end Parser

variable {source : String}

/-- The errors that are reported for a text are in the order of their positions, with which their
texts begin. -/
theorem parse_errors_in_order (depth : Nat) (hs : ShortLiterals (tokenize source)) :
    ∃ parsed, parse depth source = .ok parsed ∧
      (∀ e ∈ parsed.errors, ∃ message, e.text = e.pos.text ++ ": " ++ message) ∧
      parsed.errors.Pairwise fun e e' => e.pos ≤ e'.pos := by
  have hrun := tidy_run depth source
  have hshort {n : Nat} {t : State} :
      run depth (tokenize source) ≠ .error (.literalTooLong n) t := fun h =>
    hs.not_longLiteral (longLiteral_of_run (lexed_tokenize source).ne_nil h)
  have hfailed {t : State} : run depth (tokenize source) ≠ .error .failed t :=
    Rules.unfailing_program _ _ _ t
  have htext (e : SyntaxError) : ∃ message, e.text = e.pos.text ++ ": " ++ message := ⟨_, rfl⟩
  unfold parse parseTokens
  generalize run depth (tokenize source) = res at hrun hshort hfailed
  match res, hrun with
  | .ok body t, ht => exact ⟨_, rfl, fun e _ => htext e, ht.errors⟩
  | .error .tooDeep t, ht => exact ⟨_, rfl, fun e _ => htext e, (ht.record .tooDeep).errors⟩
  | .error .failed t, _ => exact absurd rfl hfailed
  | .error (.literalTooLong n) t, _ => exact absurd rfl hshort

/-- A call in a block breaks off behind a brace, so that the block ends there, and one token is found
wrong twice. -/
theorem parse_errors_in_order_around_brace :
    ShortLiterals (tokenize "\x7b f(\x7b\x7d x \x7d\n)") ∧
    ∃ parsed, parse 20 "\x7b f(\x7b\x7d x \x7d\n)" = .ok parsed ∧
      parsed.errors.map (·.pos) = [⟨1, 8⟩, ⟨1, 8⟩, ⟨2, 1⟩] ∧
      parsed.errors.Pairwise fun e e' => e.pos ≤ e'.pos := by
  have hs : ShortLiterals (tokenize "\x7b f(\x7b\x7d x \x7d\n)") := by
    rw [show tokenize "\x7b f(\x7b\x7d x \x7d\n)" = [⟨.lbrace, "\x7b", ⟨1, 1⟩⟩, ⟨.ident, "f", ⟨1, 3⟩⟩,
      ⟨.lparen, "(", ⟨1, 4⟩⟩, ⟨.lbrace, "\x7b", ⟨1, 5⟩⟩, ⟨.rbrace, "\x7d", ⟨1, 6⟩⟩,
      ⟨.ident, "x", ⟨1, 8⟩⟩, ⟨.rbrace, "\x7d", ⟨1, 10⟩⟩, ⟨.semicolon, "\n", ⟨1, 11⟩⟩,
      ⟨.rparen, ")", ⟨2, 1⟩⟩, ⟨.eof, "", ⟨2, 2⟩⟩] by cbv, ShortLiterals]
    decide
  have hpos : (parse 20 "\x7b f(\x7b\x7d x \x7d\n)").map (fun parsed => parsed.errors.map (·.pos)) =
      .ok [⟨1, 8⟩, ⟨1, 8⟩, ⟨2, 1⟩] := by cbv
  obtain ⟨parsed, hp, -, horder⟩ := parse_errors_in_order 20 hs
  rw [hp] at hpos
  exact ⟨hs, parsed, hp, Except.ok.inj hpos, horder⟩

end Scriptlet
