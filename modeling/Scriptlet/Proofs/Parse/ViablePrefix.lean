import Scriptlet.Proofs.Parse.Acceptance
import Scriptlet.Proofs.Parse.FirstError
import Scriptlet.Proofs.Token.Positions
import Scriptlet.Proofs.Token.Respelling

/-! The first error of a text is at the first token with which no program goes on. -/

namespace Scriptlet

open Scriptlet.Parser

variable {depth depth' : Nat} {source other : String} {body body' : List Stmt} {e : SyntaxError}
  {es : List SyntaxError} {tokens tokens' us ws : List Token} {c : Token}

/-- The tokens of a text begin with ones that look like the given ones. -/
def BeginsWith (source : String) (us : List Token) : Prop :=
  ∃ vs ws, tokenize source = vs ++ ws ∧ Alike vs us

theorem Lexed.tokens_ofTokens (h : Lexed tokens) : (State.ofTokens tokens).tokens = tokens := by
  obtain ⟨c, cs, rfl⟩ := List.exists_cons_of_ne_nil h.ne_nil
  rfl

theorem Lexed.good_ofTokens (h : Lexed tokens) : (State.ofTokens tokens).Good :=
  h.tokens_ofTokens.symm ▸ h

theorem ofTokens_errors (tokens : List Token) : (State.ofTokens tokens).errors = [] := by
  cases tokens <;> rfl

/-- Two runs from the start, with a bound that is large enough for both. -/
theorem localAt_run (depth depth' : Nat) (hl : Lexed tokens) (hl' : Lexed tokens') :
    ∃ q : Parser (List Stmt), q (.ofTokens tokens') = run depth' tokens' ∧
      LocalAt .before .before (.ofTokens tokens) (Rules.ViableStmts (.ofTokens tokens))
        (run depth tokens) q := by
  let n := max (State.ofTokens tokens).rest.length (State.ofTokens tokens').rest.length
  have hrun (depth : Nat) {tokens : List Token} (hl : Lexed tokens)
      (hn : (State.ofTokens tokens).rest.length ≤ n) :
      run depth tokens = (rules depth).program n false (.ofTokens tokens) :=
    (Rules.fueled_program (sound_rules depth) false).eq hl.good_ofTokens (Nat.le_refl _) hn
  refine ⟨(rules depth').program n false, (hrun depth' hl' (Nat.le_max_right _ _)).symm, ?_⟩
  rw [hrun depth hl (Nat.le_max_left _ _)]
  exact (Rules.local_program (online_rules depth depth') n false _ hl.good_ofTokens.ready).mono
    fun cs hv => hv rfl

/-- The first error that is reported is the first one that the reader has found. -/
theorem errors_of_parse (hd : ¬ Exhausts depth (tokenize source))
    (h : parse depth source = .ok ⟨body, e :: es⟩) :
    ∃ fs, (after (run depth (tokenize source))).errors = e :: fs := by
  obtain ⟨c, cs, hc⟩ := List.exists_cons_of_ne_nil (lexed_tokenize source).ne_nil
  have hend := ends_run depth c cs
  simp only [parse, parseTokens] at h
  rw [hc] at h hd ⊢
  generalize hr : run depth (c :: cs) = res at h hend
  cases res with
  | ok body t =>
    simp only [Except.ok.injEq, Parsed.mk.injEq] at h
    exact ⟨es, h.2⟩
  | error stop t =>
    cases stop with
    | failed =>
      obtain ⟨x, xs, hx⟩ := List.exists_cons_of_length_pos (Nat.zero_lt_of_lt hend.2)
      simp only [Except.ok.injEq, Parsed.mk.injEq, record_errors, hx, List.cons_append,
        List.cons.injEq] at h
      exact ⟨xs, by rw [after, hx, h.2.1]⟩
    | tooDeep => exact absurd ⟨t, hr⟩ hd
    | literalTooLong => cases h

/-- Up to the first error the tokens are the start of a program. -/
theorem completes_of_parse (hd : ¬ Exhausts depth (tokenize source))
    (h : parse depth source = .ok ⟨body, e :: es⟩) :
    ∃ us c ws, tokenize source = us ++ c :: ws ∧ c.pos = e.pos ∧ Completes IsStmts us := by
  have hl := lexed_tokenize source
  obtain ⟨fs, hfs⟩ := errors_of_parse hd h
  obtain ⟨q, -, hloc⟩ := localAt_run depth depth hl hl
  obtain ⟨c, ws, hc, -, ⟨us, hus, hv⟩, -⟩ := hloc.errs e fs (by rw [ofTokens_errors, hfs]; rfl)
  exact ⟨us, c, ws, hl.tokens_ofTokens ▸ hus, hc, hv⟩

/-- Up to and with the first error they are not. -/
theorem parse_ne_ok_of_beginsWith (hd : ¬ Exhausts depth (tokenize source))
    (h : parse depth source = .ok ⟨body, e :: es⟩) (hu : tokenize source = us ++ c :: ws)
    (hp : ∀ t ∈ ws, t.pos ≠ e.pos) (ho : BeginsWith other (us ++ [c])) :
    parse depth' other ≠ .ok ⟨body', []⟩ := by
  intro hother
  obtain ⟨t', ht', hnone⟩ := parse_eq_ok_iff.mp hother
  obtain ⟨vs, ws', hvs, ha⟩ := ho
  have hl := lexed_tokenize source
  have hl' := lexed_tokenize other
  obtain ⟨fs, hfs⟩ := errors_of_parse hd h
  obtain ⟨q, hq, hloc⟩ := localAt_run depth depth' hl hl'
  have htwin : Twin .before ws ws' (.ofTokens (tokenize source)) (.ofTokens (tokenize other)) := by
    refine ⟨hl'.good_ofTokens, ?_, us ++ [c], vs, by simp, ha, ?_, ?_⟩
    · obtain ⟨d, ds, hds⟩ := List.exists_cons_of_ne_nil (show us ++ [c] ≠ [] by simp)
      rw [hds] at ha
      obtain ⟨d', ds', rfl, hd', -⟩ := alike_cons.mp ha
      have hu : tokenize source = d :: (ds ++ ws) := by
        rw [← List.cons_append, ← hds]
        simpa using hu
      rw [hu, hvs]
      exact hd'
    · exact hl.tokens_ofTokens.trans (by simpa using hu)
    · exact hl'.tokens_ofTokens.trans hvs
  have hagree := hloc.agrees ws ws' _ htwin
  rw [hq, ht'] at hagree
  generalize run depth (tokenize source) = res at hfs hagree
  cases hagree with
  | bad hb => simpa [hnone] using hb body' t' rfl
  | late he _ =>
    obtain ⟨d, ds, hdp, hds⟩ := he e fs (by rw [ofTokens_errors, hfs]; rfl)
    exact hp d (hds.subset (by simp)) hdp
  | inStep he => simp [after, he, ofTokens_errors] at hfs

/-- The first error that is reported for a text is at exactly one of its tokens. Some text that
begins with the tokens in front of that one is read without errors, and no text that begins with the
tokens up to and with that one is. -/
theorem parse_first_error (hs : ShortLiterals (tokenize source))
    (hd : ¬ Exhausts depth (tokenize source)) (h : parse depth source = .ok ⟨body, e :: es⟩) :
    ∃ us c ws, tokenize source = us ++ c :: ws ∧ c.pos = e.pos ∧ (∀ t ∈ us ++ ws, t.pos ≠ e.pos) ∧
      (∃ other body', BeginsWith other us ∧
        (∀ depth', ¬ Exhausts depth' (tokenize other) → parse depth' other = .ok ⟨body', []⟩) ∧
        ∀ depth', 2 * (tokenize other).length ≤ depth' → ¬ Exhausts depth' (tokenize other)) ∧
      ∀ other depth' body', BeginsWith other (us ++ [c]) →
        parse depth' other ≠ .ok ⟨body', []⟩ := by
  obtain ⟨us, c, ws, hu, hc, hv⟩ := completes_of_parse hd h
  have hpair := pairwise_tokenize source
  rw [hu, List.pairwise_append] at hpair
  obtain ⟨-, hws, hus⟩ := hpair
  have hpus : ∀ t ∈ us, t.pos ≠ e.pos := fun t ht => hc ▸ (hus t ht c (by simp)).ne
  have hpws : ∀ t ∈ ws, t.pos ≠ e.pos :=
    fun t ht => hc ▸ ((List.pairwise_cons.mp hws).1 t ht).ne.symm
  have hshort : ShortLiterals us := fun t ht => hs t (by simp [hu, ht])
  obtain ⟨other, body', hso, hbody, vs, ws', hvs, ha⟩ := hv.exists_source hu hshort
  obtain ⟨hparse, hdepth⟩ := parse_eq_ok_iff_spells other hso body'
  refine ⟨us, c, ws, hu, hc, fun t ht => ?_, ⟨other, body', ⟨vs, ws', hvs, ha⟩, ?_, hdepth⟩, ?_⟩
  · exact (List.mem_append.mp ht).elim (hpus t) (hpws t)
  · exact fun depth' hd' => (hparse depth' hd').mpr hbody
  · exact fun _ _ _ ho => parse_ne_ok_of_beginsWith hd h hu hpws ho

/-- Between the arguments of a call a comma is missing. -/
theorem parse_first_error_missing_comma :
    ShortLiterals (tokenize "f(1 2)") ∧ ¬ Exhausts 14 (tokenize "f(1 2)") ∧
    parse 14 "f(1 2)" = .ok ⟨[], [⟨⟨1, 5⟩, .expected .rparen ⟨.int, "2", ⟨1, 5⟩⟩⟩]⟩ ∧
    ∃ us c ws, tokenize "f(1 2)" = us ++ c :: ws ∧ c.pos = ⟨1, 5⟩ ∧
      (∃ other body, BeginsWith other us ∧
        parse (2 * (tokenize other).length) other = .ok ⟨body, []⟩) ∧
      ∀ other depth body, BeginsWith other (us ++ [c]) → parse depth other ≠ .ok ⟨body, []⟩ := by
  have hs : ShortLiterals (tokenize "f(1 2)") := by
    rw [show tokenize "f(1 2)" = [⟨.ident, "f", ⟨1, 1⟩⟩, ⟨.lparen, "(", ⟨1, 2⟩⟩,
      ⟨.int, "1", ⟨1, 3⟩⟩, ⟨.int, "2", ⟨1, 5⟩⟩, ⟨.rparen, ")", ⟨1, 6⟩⟩, ⟨.eof, "", ⟨1, 7⟩⟩] by cbv]
    simp only [ShortLiterals]
    decide
  have hd : ¬ Exhausts 14 (tokenize "f(1 2)") :=
    not_exhausts (lexed_tokenize _) (by cbv)
  have hp : parse 14 "f(1 2)" =
      .ok ⟨[], [⟨⟨1, 5⟩, .expected .rparen ⟨.int, "2", ⟨1, 5⟩⟩⟩]⟩ := by cbv
  obtain ⟨us, c, ws, hu, hc, -, ⟨other, body, ho, hok, hdepth⟩, hno⟩ := parse_first_error hs hd hp
  exact ⟨hs, hd, hp, us, c, ws, hu, hc, ⟨other, body, ho, hok _ (hdepth _ (Nat.le_refl _))⟩, hno⟩

end Scriptlet
