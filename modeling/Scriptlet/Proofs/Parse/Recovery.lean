import Scriptlet.Proofs.Parse.Appending
import Scriptlet.Proofs.Parse.Fence

/-!
Where a reader starts again. Whatever is wrong with a statement, the reader goes on behind the
semicolon that ends it, so that what stands behind is read as if it stood alone.
-/

namespace Scriptlet

open Scriptlet.Parser

namespace Parser

variable {α : Type} {s s' t : State} {F : Fence} {c e : Token} {us ts : List Token}
  {er : List SyntaxError} {d n : Nat} {o : Option Stmt} {r : Rules}

/-- All in front of a semicolon is passed over, and the semicolon. -/
theorem synchronizeWithin_semicolon (hu : ∀ u ∈ us, Plain u) (hc : c.kind = .semicolon)
    (hts : ts ≠ []) (hs : On s (us ++ c :: ts) er) (hn : us.length < n) :
    ∃ t, synchronizeWithin n 0 s = .ok () t ∧ On t ts er := by
  induction us generalizing s n with
  | nil =>
    obtain ⟨n, rfl⟩ : ∃ m, n = m + 1 := ⟨n - 1, by simp at hn; omega⟩
    refine ⟨s.advance, ?_, on_advance hs.ahead hts⟩
    simp only [synchronizeWithin, current_bind, hs.current, hc]
    rfl
  | cons u us ih =>
    obtain ⟨n, rfl⟩ : ∃ m, n = m + 1 := ⟨n - 1, by simp at hn; omega⟩
    rw [List.cons_append] at hs
    obtain ⟨hk, hl, hb⟩ := hu u (by simp)
    -- nothing is opened in front of the semicolon, so that it is the one to stop behind
    have he : u.kind ≠ .eof := by
      intro he
      have hnil : s.rest = [] := hs.good.rest_eq_nil_iff.mpr (hs.current ▸ he)
      simp [hs.ahead.rest] at hnil
    obtain ⟨t, hrun, ht⟩ := ih (s := s.advance) (n := n) (fun v hv => hu v (by simp [hv]))
      (on_advance hs.ahead (by simp)) (by simpa using hn)
    refine ⟨t, ?_, ht⟩
    rw [← hrun]
    simp only [synchronizeWithin, current_bind, hs.current]
    rfl

theorem synchronize_semicolon (hu : ∀ u ∈ us, Plain u) (hc : c.kind = .semicolon) (hts : ts ≠ [])
    (hs : On s (us ++ c :: ts) er) : ∃ t, synchronize s = .ok () t ∧ On t ts er := by
  have hlen : s.rest.length + 1 = us.length + (ts.length + 1) := by
    have h := congrArg List.length hs.tokens
    simpa [State.tokens] using h
  have hpos := List.length_pos_of_ne_nil hts
  exact synchronizeWithin_semicolon (n := s.rest.length) hu hc hts hs (by omega)

/-- How the runs of two readers compare that go on behind the fence: they give the same and have
found the same errors, unless they both stop. -/
inductive Across (F : Fence) :
    EStateM.Result Stop State α → EStateM.Result Stop State α → Prop where
  | ok {a : α} {t t' : State} {er : List SyntaxError} (h : On t F.behind er)
    (h' : On t' F.behind' er) : Across F (.ok a t) (.ok a t')
  | stops {e : Stop} {t t' : State} (he : e ≠ .failed) : Across F (.error e t) (.error e t')

theorem Across.returns {β : Type} {p : Parser α} (h : Across F (p s) (p s')) (b : β) :
    Across F ((p >>= fun _ => pure b) s) ((p >>= fun _ => pure b) s') := by
  rw [bind_apply, bind_apply]
  generalize p s = res at h
  generalize p s' = res' at h
  cases h with
  | ok h h' => exact .ok h h'
  | stops he => exact .stops he

theorem Beside.synchronize (h : Beside F s s') : Across F (synchronize s) (synchronize s') := by
  obtain ⟨us, hu, ht, ht'⟩ := h.tokens
  obtain ⟨t, hrun, hon⟩ := synchronize_semicolon hu F.kind F.ne_nil ⟨ht, rfl, h.good⟩
  obtain ⟨t', hrun', hon'⟩ := synchronize_semicolon hu F.kind F.ne_nil' ⟨ht', h.errors, h.good'⟩
  rw [hrun, hrun']
  exact .ok hon hon'

/-- Both stand on the fence, and step over it. -/
theorem Beside.cross (h : Beside F s s') (hk : s.current.kind = .semicolon) :
    Across F (Parser.advance s) (Parser.advance s') := by
  obtain ⟨us, hu, ht, ht'⟩ := h.tokens
  cases us with
  | nil =>
    exact .ok (on_advance ⟨(List.cons.inj ht).2, rfl, h.good⟩ F.ne_nil)
      (on_advance ⟨(List.cons.inj ht').2, h.errors, h.good'⟩ F.ne_nil')
  | cons u us => exact absurd ((List.cons.inj ht).1 ▸ hk) (hu u (by simp)).1

namespace Rules

/-- Whatever came of a statement, its end takes both readers behind the fence. -/
theorem across_terminate (h : Beside F s s') (hb : o.isSome → Before s) :
    Across F (terminate o s) (terminate o s') := by
  cases o with
  | none => exact h.synchronize.returns _
  | some st =>
    have hadv := h.advance (hb rfl)
    have hk := hadv.current_kind
    have hrec := (h.record s.peek.pos (.unterminated s.peek)).advance (hb rfl)
    have hcross := hadv.cross
    simp only [advance_current] at hk hcross
    simp only [terminate, peek_bind, h.peek (hb rfl)]
    generalize s.peek.kind = k at hk hcross
    split
    · exact (hcross rfl).returns _
    · exact absurd rfl hk.2.1
    · exact absurd rfl hk.2.2
    · exact hrec.synchronize.returns _

theorem across_terminated (h : Beside F s s') (hr : r.Fenced F) :
    Across F (r.terminated s) (r.terminated s') := by
  rw [terminated, current_bind, current_bind, h.current]
  split
  · next hk => exact (h.cross hk).returns _
  · next hk =>
    have hs := hr.statement s s' h hk
    rw [bind_apply, bind_apply]
    unfold attempt
    generalize r.statement s = res at hs
    generalize r.statement s' = res' at hs
    cases hs with
    | ok h hb => exact across_terminate h fun _ => hb
    | failed h => exact across_terminate h (by simp)
    | @stops e t t' he =>
      cases e with
      | failed => exact absurd rfl he
      | tooDeep => exact .stops he
      | literalTooLong n => exact .stops he

/-- Whether the statement before had an error matters only in front of a closing brace. -/
theorem program_recovering (hs : s.current.kind ≠ .rbrace) (n : Nat) (recovering : Bool) :
    r.program n recovering s = r.program n false s := by
  cases n with
  | zero => rfl
  | succ n =>
    simp only [program, get_bind]
    generalize s.current.kind = k at hs
    split
    · rfl
    · exact absurd rfl hs
    · rfl

/-- In front of a statement the program is the statement and the rest. -/
theorem program_succ (hk : ¬ EndsStmts s.current.kind) : r.program (n + 1) false s =
    (r.terminated >>= fun o => get >>= fun t =>
      r.program n (s.errors.length < t.errors.length) >>= fun rest =>
        pure (o.toList ++ rest)) s := by
  simp only [program, get_bind]
  generalize s.current.kind = k at hk
  split
  · exact absurd (.inr rfl) hk
  · exact absurd (.inl rfl) hk
  · rfl

theorem program_eof (hk : s.current.kind = .eof) (n : Nat) (recovering : Bool) :
    r.program n recovering s = .ok [] s := by
  cases n with
  | zero => rfl
  | succ n =>
    simp only [program, get_bind, hk]
    rfl

end Rules

theorem Beside.not_endsStmts (h : Beside F s s') : ¬ Rules.EndsStmts s.current.kind := by
  obtain ⟨-, hb, he⟩ := h.current_kind
  simp [Rules.EndsStmts, hb, he]

/-- A run starts with the first statement. -/
theorem run_eq (hl : Lexed ts) (hk : ¬ Rules.EndsStmts (State.ofTokens ts).current.kind) :
    ∃ n, (State.ofTokens ts).rest.length = n + 1 ∧ run d ts =
      ((rules d).terminated >>= fun o => get >>= fun t =>
        (rules d).program n ((State.ofTokens ts).errors.length < t.errors.length) >>= fun rest =>
          pure (o.toList ++ rest)) (.ofTokens ts) := by
  have hne := hl.good_ofTokens.rest_ne_nil fun he => hk (.inr he)
  obtain ⟨n, hn⟩ := Nat.exists_eq_succ_of_ne_zero (List.length_pos_of_ne_nil hne).ne'
  refine ⟨n, hn, ?_⟩
  rw [← Rules.program_succ hk, ← Nat.succ_eq_add_one, ← hn]
  rfl

/-- Behind the first statement the run is one of the program there. -/
theorem run_cons (hl : Lexed ts) (hk : ¬ Rules.EndsStmts (State.ofTokens ts).current.kind)
    (ht : (rules d).terminated (.ofTokens ts) = .ok o t) (hb : t.current.kind ≠ .rbrace) :
    ∃ n, t.rest.length ≤ n ∧ run d ts =
      ((rules d).program n false >>= fun rest => pure (o.toList ++ rest)) t := by
  obtain ⟨n, hn, hrun⟩ := run_eq (d := d) hl hk
  have hlt : t.rest.length < (State.ofTokens ts).rest.length :=
    Rules.terminated_rest_lt (sound_rules d) hl.good_ofTokens (fun h => hk (.inl h))
      (fun h => hk (.inr h)) ht
  refine ⟨n, by omega, ?_⟩
  rw [hrun, bind_apply, ht]
  simp only [get_bind]
  rw [bind_apply, bind_apply, Rules.program_recovering hb]

/-- Up to a semicolon it is one statement or none, with its errors. What stands behind the semicolon
is read as if it stood alone. -/
theorem run_append_semicolon {place : Position → Position} (hu : ∀ u ∈ us, Plain u)
    (hc : c.kind = .semicolon) (hn : c.isLineEnd = false) (he : e.kind = .eof) (hts : Lexed ts)
    (hb : ∀ t ∈ ts.head?, t.kind ≠ .rbrace) (hl' : Lexed (us ++ [c, e]))
    (hl : Lexed (us ++ c :: ts.map (Token.moved place)))
    (hshort : ShortLiterals (us ++ c :: ts.map (Token.moved place)))
    (hd : ¬ Exhausts d (us ++ c :: ts.map (Token.moved place))) :
    ∃ (ss rest : List Stmt) (t u : State) (m : Move), m.place = place ∧ m.errors = t.errors ∧
      run d (us ++ [c, e]) = .ok ss t ∧ run d ts = .ok rest u ∧
        run d (us ++ c :: ts.map (Token.moved place)) = .ok (ss ++ rest) (u.moved m) := by
  let F : Fence := ⟨c, ts.map (Token.moved place), [e], hc, hn, by simpa using hts.ne_nil, by simp⟩
  have hbeside : Beside F (.ofTokens (us ++ c :: ts.map (Token.moved place)))
      (.ofTokens (us ++ [c, e])) :=
    ⟨hl.good_ofTokens, hl'.good_ofTokens, by simp [ofTokens_errors], us, hu, hl.tokens_ofTokens,
      hl'.tokens_ofTokens⟩
  have hacross := Rules.across_terminated hbeside (fenced_rules F d)
  obtain ⟨body, v, hr⟩ := exists_run_eq_ok hl hshort hd
  generalize hterm : (rules d).terminated (.ofTokens (us ++ c :: _)) = res at hacross
  generalize hterm' : (rules d).terminated (.ofTokens (us ++ [c, e])) = res' at hacross
  cases hacross with
  | stops =>
    obtain ⟨n, -, hrun⟩ := run_eq (d := d) hl hbeside.not_endsStmts
    rw [hrun, bind_apply, hterm] at hr
    cases hr
  | @ok o t t' er h h' =>
    have hkind : t.current.kind ≠ .rbrace := by
      obtain ⟨x, xs, rfl⟩ := List.exists_cons_of_ne_nil hts.ne_nil
      rw [show t.current = x.moved place from h.current]
      exact hb x rfl
    have hkind' : t'.current.kind = .eof := by
      rw [show t'.current = e from h'.current, he]
    obtain ⟨n, hn, hrun⟩ := run_cons hl hbeside.not_endsStmts hterm hkind
    obtain ⟨n', -, hrun'⟩ := run_cons hl' (by rw [hbeside.current]; exact hbeside.not_endsStmts)
      hterm' (by simp [hkind'])
    obtain ⟨rest, u, m, hm, hme, hts, rfl, rfl⟩ := run_of_program_moved hts h hn (hrun ▸ hr)
    refine ⟨o.toList, rest, t', u, m, hm, hme.trans h'.errors.symm, ?_, hts, hr⟩
    rw [hrun', bind_apply, Rules.program_eof hkind']
    simp only [List.append_nil]
    rfl

end Parser

theorem parse_append_semicolon {s₁ s₂ : String} {d : Nat} (hq : s₁.toList.count '"' % 2 = 0)
    (hu : ∀ t ∈ tokenize s₁, Plain t) (hb : ∀ t ∈ (tokenize s₂).head?, t.kind ≠ .rbrace)
    (h₁ : ShortLiterals (tokenize s₁)) (h₂ : ShortLiterals (tokenize s₂))
    (hd : ¬ Exhausts d (tokenize (s₁ ++ ";" ++ "\n" ++ s₂))) :
    ∃ b₁ e₁ b₂ e₂, parse d (s₁ ++ ";") = .ok ⟨b₁, e₁⟩ ∧ parse d s₂ = .ok ⟨b₂, e₂⟩ ∧
      parse d (s₁ ++ ";" ++ "\n" ++ s₂) = .ok ⟨b₁ ++ b₂,
        e₁ ++ e₂.map (SyntaxError.moved (Position.below (s₁.toList.count '\n' + 1)))⟩ := by
  obtain ⟨us, e, pos, e', htok, hone, he', hboth⟩ := tokenize_append_semicolon_line hq s₂
  have hl' := lexed_tokenize (s₁ ++ ";")
  have hl := lexed_tokenize (s₁ ++ ";" ++ "\n" ++ s₂)
  rw [hone] at hl'
  rw [hboth] at hl hd
  have hshort : ShortLiterals (us ++ ⟨.semicolon, ";", pos⟩ :: (tokenize s₂).map
      (Token.moved (Position.below (s₁.toList.count '\n' + 1)))) := by
    intro t ht hk
    simp only [List.mem_append, List.mem_cons, List.mem_map] at ht
    rcases ht with ht | rfl | ⟨u, hu, rfl⟩
    · exact h₁ t (by simp [htok, ht]) hk
    · cases hk
    · exact h₂ u hu hk
  obtain ⟨b₁, b₂, t, u, m, hm, hme, hr₁, hr₂, hr⟩ := run_append_semicolon
    (fun v hv => hu v (by simp [htok, hv])) rfl rfl he' (lexed_tokenize s₂) hb hl' hl hshort hd
  refine ⟨b₁, t.errors, b₂, u.errors, ?_, ?_, ?_⟩
  · simp only [parse, parseTokens, hone, hr₁]
  · simp only [parse, parseTokens, hr₂]
  · simp only [parse, parseTokens, hboth, hr]
    simp [State.moved, hm, hme]

/-- A broken statement does not disturb what is on the lines behind it, if a semicolon ends it and
there are no braces in it. What is behind gives the statements that it gives alone, and its errors
are reported behind those of the broken statement, at their places further down. Only for want of
depth is it otherwise, and no text has more nesting than there is depth for twice its number of
tokens. -/
theorem parse_behind_broken {s₁ s₂ : String} (hq : s₁.toList.count '"' % 2 = 0)
    (hu : ∀ t ∈ tokenize s₁, t.kind ≠ .semicolon ∧ t.kind ≠ .lbrace ∧ t.kind ≠ .rbrace)
    (hb : ∀ t ∈ (tokenize s₂).head?, t.kind ≠ .rbrace)
    (h₁ : ShortLiterals (tokenize s₁)) (h₂ : ShortLiterals (tokenize s₂)) :
    (∀ d, ¬ Exhausts d (tokenize (s₁ ++ ";" ++ "\n" ++ s₂)) →
      ∃ b₁ e₁ b₂ e₂, parse d (s₁ ++ ";") = .ok ⟨b₁, e₁⟩ ∧ parse d s₂ = .ok ⟨b₂, e₂⟩ ∧
        parse d (s₁ ++ ";" ++ "\n" ++ s₂) = .ok ⟨b₁ ++ b₂,
          e₁ ++ e₂.map (SyntaxError.moved (Position.below (s₁.toList.count '\n' + 1)))⟩ ∧
        ∀ e ∈ e₂, (e.moved (Position.below (s₁.toList.count '\n' + 1))).text =
          (e.pos.below (s₁.toList.count '\n' + 1)).text ++ ": " ++ e.fault.message) ∧
    ∀ d, 2 * (tokenize (s₁ ++ ";" ++ "\n" ++ s₂)).length ≤ d →
      ¬ Exhausts d (tokenize (s₁ ++ ";" ++ "\n" ++ s₂)) := by
  refine ⟨fun d hd => ?_, fun d hd => not_exhausts (lexed_tokenize _) hd⟩
  obtain ⟨b₁, e₁, b₂, e₂, hr₁, hr₂, hr⟩ := parse_append_semicolon hq hu hb h₁ h₂ hd
  exact ⟨b₁, e₁, b₂, e₂, hr₁, hr₂, hr, fun e _ => e.text_moved⟩

/-- A bracket that is never closed, and a stray one on the next line. -/
theorem parse_behind_broken_bracket : "x = (1 +".toList.count '"' % 2 = 0 ∧
    (∀ t ∈ tokenize "x = (1 +", t.kind ≠ .semicolon ∧ t.kind ≠ .lbrace ∧ t.kind ≠ .rbrace) ∧
    (∀ t ∈ (tokenize "y )").head?, t.kind ≠ .rbrace) ∧ ShortLiterals (tokenize "x = (1 +") ∧
    ShortLiterals (tokenize "y )") ∧
    parse 18 ("x = (1 +" ++ ";" ++ "\n" ++ "y )") = .ok ⟨[.expr (.ident "y")],
      [⟨⟨1, 9⟩, .noExpression .semicolon⟩, ⟨⟨2, 3⟩, .unterminated ⟨.rparen, ")", ⟨2, 3⟩⟩⟩]⟩ := by
  have ht₁ : tokenize "x = (1 +" = [⟨.ident, "x", ⟨1, 1⟩⟩, ⟨.assign, "=", ⟨1, 3⟩⟩,
      ⟨.lparen, "(", ⟨1, 5⟩⟩, ⟨.int, "1", ⟨1, 6⟩⟩, ⟨.plus, "+", ⟨1, 8⟩⟩, ⟨.eof, "", ⟨1, 9⟩⟩] := by cbv
  have ht₂ : tokenize "y )" = [⟨.ident, "y", ⟨1, 1⟩⟩, ⟨.rparen, ")", ⟨1, 3⟩⟩, ⟨.eof, "", ⟨1, 4⟩⟩] := by
    cbv
  have hu : ∀ t ∈ tokenize "x = (1 +", t.kind ≠ .semicolon ∧ t.kind ≠ .lbrace ∧
      t.kind ≠ .rbrace := by
    rw [ht₁]
    decide
  have hb : ∀ t ∈ (tokenize "y )").head?, t.kind ≠ .rbrace := by
    rw [ht₂]
    decide
  have h₁ : ShortLiterals (tokenize "x = (1 +") := by
    rw [ht₁, ShortLiterals]
    decide
  have h₂ : ShortLiterals (tokenize "y )") := by
    rw [ht₂, ShortLiterals]
    decide
  have hp₁ : parse 18 ("x = (1 +" ++ ";") = .ok ⟨[], [⟨⟨1, 9⟩, .noExpression .semicolon⟩]⟩ := by cbv
  have hp₂ : parse 18 "y )" =
      .ok ⟨[.expr (.ident "y")], [⟨⟨1, 3⟩, .unterminated ⟨.rparen, ")", ⟨1, 3⟩⟩⟩]⟩ := by cbv
  obtain ⟨hr, hd⟩ := parse_behind_broken (by decide) hu hb h₁ h₂
  obtain ⟨b₁, e₁, b₂, e₂, hr₁, hr₂, hboth, -⟩ := hr 18 (hd 18 (by cbv))
  cases hp₁.symm.trans hr₁
  cases hp₂.symm.trans hr₂
  exact ⟨by decide, hu, hb, h₁, h₂, hboth⟩

end Scriptlet
