import Scriptlet.Proofs.Grammar.Tally
import Scriptlet.Proofs.Parse.Appending
import Scriptlet.Proofs.Parse.RoundTrip

/-!
Which programs are read from their own text, where the statements stand one behind the other with
nothing between them. A text that is read as a program with so many statements needs a semicolon
between any two of them, and only assignments and returns are written with one.
-/

namespace Scriptlet

open Scriptlet.Parser

variable {depth : Nat} {source : String} {body ss : List Stmt} {st : Stmt} {ts : List Token}

/-- A program with a semicolon in its text behind each statement but the last, and with no block
that its text writes as a hashmap. -/
structure Legible (body : List Stmt) : Prop where
  closes : ∀ st ∈ body.dropLast, st.closes = true
  noEmptyBlocks : emptyBlocks body = 0

/-! ### The text of a program -/

theorem programText_cons (st : Stmt) (ss : List Stmt) :
    programText (st :: ss) = st.text ++ programText ss := by
  cases ss <;> simp [programText, stmtTexts, joined]

theorem programText_concat (ss : List Stmt) (st : Stmt) :
    programText (ss ++ [st]) = programText ss ++ st.text := by
  induction ss with
  | nil => simp [programText, stmtTexts, joined]
  | cons st' ss ih => simp [programText_cons, ih, String.append_assoc]

theorem enders_text (h : EvenQuotes st.core.toList) : EvenQuotes st.text.toList ∧
    enders false st.text.toList = enders false st.core.toList + if st.closes then 1 else 0 := by
  rw [Stmt.text_eq]
  cases st.closes with
  | true =>
    have hs : EvenQuotes [';'] := evenQuotes_of_no_quote (by decide)
    simp only [if_true, String.toList_append]
    exact ⟨h.append hs, h.enders_append _⟩
  | false => simpa using h

/-- What the semicolons behind the statements are too few, compared to semicolons between them. -/
theorem enders_programText (h : ∀ st ∈ ss, EvenQuotes st.core.toList) :
    EvenQuotes (programText ss).toList ∧
    enders false (programText ss).toList + (ss.length - 1) =
      enders false (joined "; " (ss.map Stmt.core)).toList + ss.countP (·.closes) := by
  induction ss with
  | nil => exact ⟨evenQuotes_of_no_quote (by simp [programText, stmtTexts, joined]), rfl⟩
  | cons st ss ih =>
    obtain ⟨hst, hss⟩ := List.forall_mem_cons.mp h
    obtain ⟨hb, he⟩ := enders_text hst
    obtain ⟨hbs, hes⟩ := ih hss
    rw [programText_cons, String.toList_append]
    refine ⟨hb.append hbs, ?_⟩
    rw [hb.enders_append, he, List.countP_cons]
    cases ss with
    | nil => simp [joined, programText, stmtTexts, enders]
    | cons st' ss =>
      have hj : enders false (joined "; " ((st :: st' :: ss).map Stmt.core)).toList =
          enders false st.core.toList +
            (1 + enders false (joined "; " ((st' :: ss).map Stmt.core)).toList) := by
        have hs : EvenQuotes "; ".toList := evenQuotes_of_no_quote (by decide)
        simp only [List.map_cons, joined, String.toList_append, List.append_assoc]
        rw [hst.enders_append, hs.enders_append]
        rfl
      rw [hj]
      simp only [List.length_cons, Nat.add_sub_cancel] at hes ⊢
      omega

/-! ### What the text is read as -/

theorem Closed.eq_nil (h : Closed ss []) : ss = [] := by
  generalize hts : ([] : List Token) = ts at h
  cases h with
  | nil => rfl
  | skip => cases hts
  | cons => simp at hts

/-- Without the last semicolon, statements that all have their ends are the same. -/
theorem Closed.exists_derives (h : Closed ss ts) (hn : ts ≠ []) :
    ∃ us c, ts = us ++ [c] ∧ c.kind = .semicolon ∧ Derives (.stmts ss) us := by
  induction h with
  | nil => exact absurd rfl hn
  | @skip c ss us hc h ih =>
    by_cases hus : us = []
    · subst hus
      obtain rfl := h.eq_nil
      exact ⟨[], c, rfl, hc, .stmtsNil⟩
    · obtain ⟨us, d, rfl, hd, hs⟩ := ih hus
      exact ⟨c :: us, d, rfl, hd, .stmtsSkip hc hs⟩
  | @cons c st ss us vs hst hc h ih =>
    by_cases hvs : vs = []
    · subst hvs
      obtain rfl := h.eq_nil
      exact ⟨us, c, rfl, hc, .stmtsLast hst⟩
    · obtain ⟨vs, d, rfl, hd, hs⟩ := ih hvs
      exact ⟨us ++ c :: vs, d, by simp, hd, .stmtsCons hst hc hs⟩

/-- Tokens of statements that end in a semicolon have one more than those without it. -/
theorem Derives.tally_concat {c : Token} (h : Derives (.stmts ss) (ts ++ [c]))
    (hc : c.kind = .semicolon) (hp : ∀ t ∈ ts, t.Proper) : (Phrase.stmts ss).Tallied ts := by
  have hclosed : Closed ss (ts ++ [c]) := by
    refine h.closed ?_
    rintro ⟨us, t, he, hk⟩
    obtain ⟨-, he⟩ := List.append_inj' he rfl
    obtain rfl : c = t := by simpa using he
    simp [hc, Kind.endsStatement] at hk
  obtain ⟨us, d, he, -, hd⟩ := hclosed.exists_derives (by simp)
  obtain ⟨rfl, -⟩ := List.append_inj' he rfl
  exact hd.tallied hp

/-- A program that is read from its text is legible. -/
theorem legible_of_spells (h : Spells (tokenize (programText body)) body) : Legible body := by
  obtain ⟨ts, e, htok, hk, hd⟩ := h
  have htiles : Tiles [] (programText body).toList (ts ++ [e]) :=
    htok ▸ tiles_tokenize (programText body)
  have hproper : ∀ t ∈ ts, t.Proper := fun t ht => htiles.proper t (by simp [ht])
  obtain ⟨hcore, htally⟩ := hd.tallied hproper
  obtain ⟨hb, hcount⟩ := enders_programText fun st hst => (hcore st hst).2
  have hle : semicolons ts ≤ enders false (programText body).toList := by
    simpa [hk] using htiles.semicolons_le
  rcases List.eq_nil_or_concat body with rfl | ⟨init, last, rfl⟩
  · exact ⟨by simp, rfl⟩
  rw [List.concat_eq_append] at *
  have hinit : EvenQuotes (programText init).toList :=
    (enders_programText fun st hst => (hcore st (by simp [hst])).2).1
  have hall (hcl : init.length ≤ init.countP (·.closes)) : ∀ st ∈ init, st.closes = true :=
    List.countP_eq_length.mp (Nat.le_antisymm List.countP_le_length hcl)
  have hmax : init.countP (·.closes) ≤ init.length := List.countP_le_length
  simp only [List.countP_append, List.length_append, List.length_singleton, List.countP_singleton,
    Nat.add_sub_cancel] at hcount
  have hmissing := htally.le
  cases hlast : last.closes with
  | false =>
    simp only [hlast, Bool.false_eq_true, if_false] at hcount
    exact ⟨by simpa using hall (by omega), by omega⟩
  | true =>
    -- the last semicolon is one that does not stand between statements
    have hends : (programText (init ++ [last])).toList =
        ((programText init).toList ++ last.core.toList) ++ [';'] := by
      simp [programText_concat, Stmt.text_eq, hlast]
    rw [hends] at htiles
    obtain ⟨us, c, e', he, hc⟩ :=
      htiles.exists_semicolon (hinit.append (hcore last (by simp)).2)
    obtain ⟨rfl, -⟩ : ts = us ++ [c] ∧ e = e' := by
      rw [show us ++ [c, e'] = (us ++ [c]) ++ [e'] by simp] at he
      obtain ⟨hts, he⟩ := List.append_inj' he rfl
      exact ⟨hts, by simpa using he⟩
    have hfewer := (hd.tally_concat hc fun t ht => hproper t (by simp [ht])).2.le
    simp only [semicolons_append, semicolons_cons, semicolons_nil, hc, if_true] at hle
    simp only [hlast, if_true] at hcount
    exact ⟨by simpa using hall (by omega), by omega⟩

theorem legible_of_parse (h : parse depth (programText body) = .ok ⟨body, []⟩) :
    Legible body := by
  obtain ⟨t, ht, hn⟩ := parse_eq_ok_iff.mp h
  exact legible_of_spells (spells_of_run (lexed_tokenize _) ht hn)

/-- What a text is read as can be written, if it has no empty blocks. -/
theorem printable_of_parse (h : parse depth source = .ok ⟨body, []⟩) (he : emptyBlocks body = 0) :
    PrintableStmts body := by
  obtain ⟨t, ht, hn⟩ := parse_eq_ok_iff.mp h
  obtain ⟨ts, e, htok, -, hd⟩ := spells_of_run (lexed_tokenize source) ht hn
  have htiles : Tiles [] source.toList (ts ++ [e]) := htok ▸ tiles_tokenize source
  exact (hd.tallied fun t ht => htiles.proper t (by simp [ht])).2.holds he

theorem Legible.spells (h : Legible body) (hp : PrintableStmts body) :
    ShortLiterals (tokenize (programText body)) ∧ Spells (tokenize (programText body)) body := by
  refine spells_lines hp fun st hst s cs hs => ?_
  obtain ⟨ts, c, t, hd, hk, hl, ht, hts⟩ :=
    scans_closed (hp.mem st (List.mem_of_mem_dropLast hst)) (h.closes st hst) hs
  exact ⟨ts, c, t, hd, hk, hl, ht, fun us u _ hu => by simpa using hts.append hu⟩

/-- A program that a text is read as is read from its own text, at some depth, just if it is
legible: if all its statements but the last are assignments and returns, and no block is empty. Then
it is read at every depth that is enough for its nesting, and twice the number of tokens is always
enough. -/
theorem parse_programText (h : parse depth source = .ok ⟨body, []⟩) :
    ((∃ d, parse d (programText body) = .ok ⟨body, []⟩) ↔ Legible body) ∧
    (Legible body →
      (∀ d, parse d (programText body) = .ok ⟨body, []⟩ ∨ ∃ errors pos,
        parse d (programText body) = .ok ⟨[], errors ++ [⟨pos, .tooDeep⟩]⟩) ∧
      ∀ d, 2 * (tokenize (programText body)).length ≤ d →
        parse d (programText body) = .ok ⟨body, []⟩) := by
  have hread (hl : Legible body) := by
    obtain ⟨hs, hsp⟩ := hl.spells (printable_of_parse h hl.noEmptyBlocks)
    exact parse_of_spells hs hsp
  exact ⟨⟨fun ⟨_, hd⟩ => legible_of_parse hd, fun hl => ⟨_, (hread hl).2 _ (Nat.le_refl _)⟩⟩, hread⟩

/-- An assignment on a line of its own in front of a conditional with a block in a block. -/
theorem parse_programText_nested :
    let source := "f = fn(x) \x7b [x, \"a;\nb\"] \x7d\n" ++
      "if (f(1)) \x7b\x7d else \x7b return 2; \x7b 3 \x7d \x7d"
    let other := [Stmt.ret (.int 2), .block [.expr (.int 3)]]
    let body := [Stmt.assign "f" (.function ["x"] [.expr (.array [.ident "x", .string "a;\nb"])]),
      .expr (.ifThen (.call (.ident "f") [.int 1]) [] (some other))]
    parse 20 source = .ok ⟨body, []⟩ ∧ Legible body ∧
      parse 100 (programText body) = .ok ⟨body, []⟩ := by
  intro source other body
  have hp : parse 20 source = .ok ⟨body, []⟩ := by cbv
  have hl : Legible body := ⟨by simp [body, Stmt.closes], by rfl⟩
  exact ⟨hp, hl, ((parse_programText hp).2 hl).2 100 (by cbv)⟩

/-- Names on two lines become one name, blocks on two lines are not read at all, and a block without
statements becomes a hashmap. -/
theorem parse_programText_lines :
    (parse 20 "a\nb" = .ok ⟨[.expr (.ident "a"), .expr (.ident "b")], []⟩ ∧
      programText [.expr (.ident "a"), .expr (.ident "b")] = "ab" ∧
      parse 20 "ab" = .ok ⟨[.expr (.ident "ab")], []⟩ ∧
      ∀ d, parse d (programText [.expr (.ident "a"), .expr (.ident "b")]) ≠
        .ok ⟨[.expr (.ident "a"), .expr (.ident "b")], []⟩) ∧
    (parse 20 "\x7b a \x7d\n\x7b b \x7d" =
        .ok ⟨[.block [.expr (.ident "a")], .block [.expr (.ident "b")]], []⟩ ∧
      programText [.block [.expr (.ident "a")], .block [.expr (.ident "b")]] =
        "\x7b a \x7d\x7b b \x7d" ∧
      ∀ d, parse d (programText [.block [.expr (.ident "a")], .block [.expr (.ident "b")]]) ≠
        .ok ⟨[.block [.expr (.ident "a")], .block [.expr (.ident "b")]], []⟩) ∧
    parse 20 "\x7b;\x7d" = .ok ⟨[.block []], []⟩ ∧ programText [.block []] = "\x7b \x7d" ∧
    parse 20 "\x7b \x7d" = .ok ⟨[.expr (.hashmap [])], []⟩ := by
  have hopen {st st' : Stmt} (hc : st.closes = false) (d : Nat) :
      parse d (programText [st, st']) ≠ .ok ⟨[st, st'], []⟩ := fun h => by
    have hcl := (legible_of_parse h).closes st (by simp)
    rw [hc] at hcl
    cases hcl
  refine ⟨⟨by cbv, rfl, by cbv, hopen rfl⟩, ⟨by cbv, rfl, hopen rfl⟩, by cbv, rfl, by cbv⟩

end Scriptlet
