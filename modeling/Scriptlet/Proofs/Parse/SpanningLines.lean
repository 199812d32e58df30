import Scriptlet.Proofs.Parse.LineBreaks
import Scriptlet.Proofs.Token.Breaking

/-!
What stands in brackets may span lines: a line end in front of a comma or a closing bracket, or behind
a comma or an opening bracket, leaves a program as it is. Only behind the condition of a conditional
and behind a parameter of a function it does not.
-/

namespace Scriptlet

variable {us ts : List Token} {d : Nat} {body : List Stmt} {a b : String}

/-- Tokens that look the same as those of a text. -/
theorem Lexed.alike (h : Lexed ts) (ha : Alike us ts) : Lexed us := by
  induction h generalizing us with
  | eof hk =>
    obtain ⟨c, vs, rfl, hc, hvs⟩ := alike_cons.mp ha
    obtain rfl := alike_nil.mp hvs
    exact .eof (Token.kind_eq_of_face hc hk)
  | cons hk hu _ ih =>
    obtain ⟨c, vs, rfl, hc, hvs⟩ := alike_cons.mp ha
    obtain ⟨e, ws, rfl, he, -⟩ := alike_cons.mp hvs
    refine .cons (Token.kind_of_face hc ▸ hk) (fun hend => ?_) (ih hvs)
    rw [Token.kind_of_face hc]
    exact hu (Token.isLineEnd_of_face he ▸ hend)

theorem places_differ (source : String) : (tokenize source).Pairwise fun t u => t.pos ≠ u.pos :=
  (pairwise_tokenize source).imp fun h => h.ne

/-- The kinds of the characters that end a part of something in brackets. -/
theorem endsPart_of_mem {z : Char} (hz : z ∈ [',', ')', ']', '}']) :
    ∃ k, Kind.ofChar? z = some k ∧ k.endsPart = true ∧ startsPair z = false := by
  simp only [List.mem_cons, List.not_mem_nil, or_false] at hz
  rcases hz with rfl | rfl | rfl | rfl <;> exact ⟨_, rfl, rfl, rfl⟩

/-- The kinds of the characters behind which a part of something in brackets starts. -/
theorem startsPart_of_mem {z : Char} (hz : z ∈ ['(', '[', '{', ',']) :
    ∃ k, Kind.ofChar? z = some k ∧ k.endsStatement = false ∧ startsPair z = false := by
  simp only [List.mem_cons, List.not_mem_nil, or_false] at hz
  rcases hz with rfl | rfl | rfl | rfl <;> exact ⟨_, rfl, rfl, rfl⟩

/-- A line end in front of the end of a part is passed over, or ends the last statement of a
block. -/
theorem run_of_break (hq : Scanner.Paired a.toList)
    (hb : ∃ z ∈ b.toList.head?, z ∈ [',', ')', ']', '}'])
    (hc : ¬ BehindCondition (tokenize a).dropLast) (hp : ¬ BehindParameter (tokenize a).dropLast)
    {t : Parser.State} (h : Parser.run d (tokenize (a ++ b)) = .ok body t) (he : t.errors = []) :
    ∃ u, Parser.run d (tokenize (a ++ "\n" ++ b)) = .ok body u ∧ u.errors = [] := by
  obtain ⟨z, hz, hmem⟩ := hb
  obtain ⟨k, hk, hpart, hpair⟩ := endsPart_of_mem hmem
  obtain ⟨us, e, sep, vs, ws, ha, hone, htwo, halike, ⟨c, hhead, rfl⟩, hsep⟩ :=
    tokenize_break hq hz hk hpair
  rw [ha, List.dropLast_concat] at hc hp
  -- the tokens without the line end, at their places with it
  have hboth : Alike (us ++ ws) (tokenize (a ++ b)) := by
    rw [hone]
    exact alike_append.mpr ⟨us, ws, rfl, .refl _, halike⟩
  obtain ⟨u, hu, hu'⟩ := Parser.run_of_alike (Eq.symm hboth) (places_differ _)
    (lexed_tokenize _).ne_nil h he
  rcases hsep with ⟨hend, m, rfl, hm⟩ | ⟨-, rfl⟩
  · obtain ⟨vs', rfl⟩ := List.head?_eq_some_iff.mp hhead
    obtain ⟨n, ws', rfl, hn, -⟩ := alike_cons.mp halike
    let B : Parser.LineBreak :=
      ⟨us, m, n, ws', hm, Token.kind_of_face hn ▸ hpart, hend, hc, hp⟩
    have hl : Lexed (B.front ++ B.mark :: B.next :: B.behind) := by
      have := lexed_tokenize (a ++ "\n" ++ b)
      rwa [htwo] at this
    rw [htwo]
    exact Parser.run_of_lineBreak (B := B) ((lexed_tokenize _).alike hboth) hl hu hu'
  · rw [htwo]
    exact ⟨u, hu, hu'⟩

/-- A line end next to a comma or a bracket leaves the program as it is, behind an opening one or a
comma everywhere, and in front of a comma or a closing one if no condition and no parameter ends
there. -/
theorem parse_across_lines (hq : Scanner.Paired a.toList)
    (hplace : (∃ z ∈ a.toList.getLast?, z ∈ ['(', '[', '{', ',']) ∨
      (∃ z ∈ b.toList.head?, z ∈ [',', ')', ']', '}']) ∧
        ¬ BehindCondition (tokenize a).dropLast ∧ ¬ BehindParameter (tokenize a).dropLast)
    (h : parse d (a ++ b) = .ok ⟨body, []⟩) : parse d (a ++ "\n" ++ b) = .ok ⟨body, []⟩ := by
  obtain ⟨t, ht, he⟩ := parse_eq_ok_iff.mp h
  rw [parse_eq_ok_iff]
  rcases hplace with ⟨z, hz, hmem⟩ | ⟨hb, hc, hp⟩
  · obtain ⟨k, hk, hend, hpair⟩ := startsPart_of_mem hmem
    exact Parser.run_of_alike (Eq.symm (tokenize_break_behind hq hz hk hpair hend))
      (places_differ _) (lexed_tokenize _).ne_nil ht he
  · exact run_of_break hq hb hc hp ht he

/-- In front of a comma, among the arguments of a call of a function. -/
theorem parse_across_lines_arguments :
    Scanner.Paired "fn(x) { x }(1".toList ∧
    ((∃ z ∈ "fn(x) { x }(1".toList.getLast?, z ∈ ['(', '[', '{', ',']) ∨
      (∃ z ∈ ", [2])".toList.head?, z ∈ [',', ')', ']', '}']) ∧
        ¬ BehindCondition (tokenize "fn(x) { x }(1").dropLast ∧
          ¬ BehindParameter (tokenize "fn(x) { x }(1").dropLast) ∧
    ∃ body, parse 20 ("fn(x) { x }(1" ++ ", [2])") = .ok ⟨body, []⟩ ∧
      parse 20 ("fn(x) { x }(1" ++ "\n" ++ ", [2])") = .ok ⟨body, []⟩ := by
  have hp : parse 20 ("fn(x) { x }(1" ++ ", [2])") = .ok ⟨[.expr (.call
      (.function ["x"] [.expr (.ident "x")]) [.int 1, .array [.int 2]])], []⟩ := by cbv
  have ht : (tokenize "fn(x) { x }(1").dropLast.map Token.kind =
      [.kwFn, .lparen, .ident, .rparen, .lbrace, .ident, .rbrace, .lparen, .int] := by cbv
  have hc : ¬ BehindCondition (tokenize "fn(x) { x }(1").dropLast := by
    rintro ⟨before, i, o, e, ts, h, hi, -⟩
    have hmem := congrArg (Kind.kwIf ∈ ·) (h ▸ ht)
    simp [hi] at hmem
  have hr : ¬ BehindParameter (tokenize "fn(x) { x }(1").dropLast := by
    rintro ⟨before, f, o, ts, t, h, -, -, -, hk⟩
    rw [show before ++ f :: o :: (ts ++ [t]) = (before ++ f :: o :: ts) ++ [t] by simp] at h
    have hlast := congrArg List.getLast? (h ▸ ht)
    rw [List.map_append, List.map_singleton, List.getLast?_concat, hk] at hlast
    cases hlast
  have hplace : (∃ z ∈ "fn(x) { x }(1".toList.getLast?, z ∈ ['(', '[', '{', ',']) ∨
      (∃ z ∈ ", [2])".toList.head?, z ∈ [',', ')', ']', '}']) ∧
        ¬ BehindCondition (tokenize "fn(x) { x }(1").dropLast ∧
          ¬ BehindParameter (tokenize "fn(x) { x }(1").dropLast :=
    .inr ⟨⟨',', rfl, by simp⟩, hc, hr⟩
  have hq : Scanner.Paired "fn(x) { x }(1".toList := rfl
  exact ⟨hq, hplace, _, hp, parse_across_lines hq hplace hp⟩

/-- Behind a parameter of a function and behind a condition a line end is not passed over. -/
theorem parse_broken_parameters_and_condition :
    (∃ body, parse 20 "fn(a, b) { a }" = .ok ⟨body, []⟩ ∧
      parse 20 "fn(a\n, b) { a }" ≠ .ok ⟨body, []⟩) ∧
    ∃ body, parse 20 "if (true) { 1 }" = .ok ⟨body, []⟩ ∧
      parse 20 "if (true\n) { 1 }" ≠ .ok ⟨body, []⟩ := by
  have hfn : parse 20 "fn(a, b) { a }" =
      .ok ⟨[.expr (.function ["a", "b"] [.expr (.ident "a")])], []⟩ := by cbv
  have hif : parse 20 "if (true) { 1 }" =
      .ok ⟨[.expr (.ifThen (.bool true) [.expr (.int 1)] none)], []⟩ := by cbv
  have hfn' : (parse 20 "fn(a\n, b) { a }").map (·.errors.length) = .ok 2 := by cbv
  have hif' : (parse 20 "if (true\n) { 1 }").map (·.errors.length) = .ok 2 := by cbv
  refine ⟨⟨_, hfn, fun h => ?_⟩, _, hif, fun h => ?_⟩
  · rw [h] at hfn'
    cases hfn'
  · rw [h] at hif'
    cases hif'

end Scriptlet
