import Scriptlet.Proofs.Grammar.Derives
import Scriptlet.Proofs.Syntax.Printable
import Scriptlet.Proofs.Token.Enders

/-!
How many semicolons there are in tokens that spell a program: at least as many as stand between the
statements in its canonical text, and one more for each block without statements. Braces with
nothing between them are a hashmap, so that such a block has a semicolon, which its text has not.
-/

namespace Scriptlet

variable {s t a : String} {k l m n : Nat} {P Q : Prop} {tok : Token} {ts us : List Token} {e : Expr}
  {st : Stmt} {ss : List Stmt} {φ : Phrase}

/-! ### Names and strings of a text -/

/-- Names are words, and strings have no quotes in them. -/
def Token.Proper (t : Token) : Prop :=
  (t.kind = .ident → IsName t.text) ∧ (t.kind = .string → '"' ∉ t.text.toList)

theorem Token.proper_of_ne (h : tok.kind ≠ .ident) (h' : tok.kind ≠ .string) : tok.Proper :=
  ⟨fun hk => absurd hk h, fun hk => absurd hk h'⟩

theorem Lexeme.proper {before after span : List Char} {k : Kind} {text : String} {p : Position}
    (h : Lexeme before after span k text) : Token.Proper ⟨k, text, p⟩ := by
  cases h with
  | lineEnd => exact Token.proper_of_ne (by simp) (by simp)
  | string hq =>
    refine ⟨nofun, fun _ => ?_⟩
    simpa using hq
  | word h =>
    rw [← Kind.ofWord_eq_lookup]
    refine ⟨fun hk => ?_, fun hk => ?_⟩
    · obtain ⟨⟨c, hc, hl⟩, hw⟩ := h.1
      obtain ⟨cs, rfl⟩ := List.head?_eq_some_iff.mp hc
      exact ⟨c, cs, String.toList_ofList, hl, fun d hd => hw d (by simp [hd]), by simpa using hk⟩
    · exact absurd hk (Kind.ofWord_ne_string _)
  | int => exact Token.proper_of_ne (by simp) (by simp)
  | pair h => exact Token.proper_of_ne (Kind.ofPair?_ne_ident h).1 (Kind.ofPair?_ne_ident h).2
  | symbol h => exact Token.proper_of_ne (Kind.ofChar?_ne_ident h).1 (Kind.ofChar?_ne_ident h).2
  | illegal => exact Token.proper_of_ne (by simp) (by simp)

theorem Tiles.proper {before cs : List Char} (h : Tiles before cs ts) : ∀ t ∈ ts, t.Proper := by
  induction h with
  | eof => exact List.forall_mem_singleton.mpr (Token.proper_of_ne (by simp) (by simp))
  | token _ _ _ hl _ ih => exact List.forall_mem_cons.mpr ⟨hl.proper, ih⟩

/-! ### Texts -/

/-- What a text has of a number of semicolons. Its strings are closed, and so many of the semicolons
are missing in it, or more; where none need be missing a property holds. -/
structure Tally (s : String) (missing n : Nat) (P : Prop) : Prop where
  evenQuotes : EvenQuotes s.toList
  le : enders false s.toList + missing ≤ n
  holds : missing = 0 → P

theorem Tally.append (h : Tally s k m P) (h' : Tally t l n Q) :
    Tally (s ++ t) (k + l) (m + n) (P ∧ Q) := by
  refine ⟨?_, ?_, fun hz => ⟨h.holds (by omega), h'.holds (by omega)⟩⟩
  · rw [String.toList_append]
    exact h.evenQuotes.append h'.evenQuotes
  · have hle := h.le
    have hle' := h'.le
    rw [String.toList_append, h.evenQuotes.enders_append]
    omega

theorem Tally.mono (h : Tally s k n P) (hn : n ≤ m) (hP : P → Q) : Tally s k m Q :=
  ⟨h.evenQuotes, Nat.le_trans h.le hn, fun hz => hP (h.holds hz)⟩

theorem tally_plainText (ha : PlainText a.toList) (hP : P) : Tally a 0 n P :=
  ⟨ha.evenQuotes, by simp [ha.enders_eq], fun _ => hP⟩

theorem Tally.before (h : Tally s k n P) (ha : PlainText a.toList) : Tally (a ++ s) k n P := by
  have hs := (tally_plainText (n := 0) ha trivial).append h
  rw [Nat.zero_add, Nat.zero_add] at hs
  exact hs.mono (Nat.le_refl n) And.right

theorem Tally.after (h : Tally s k n P) (ha : PlainText a.toList) : Tally (s ++ a) k n P :=
  (h.append (tally_plainText (n := 0) ha trivial)).mono (Nat.le_refl n) And.left

theorem tally_semicolon : Tally "; " 0 1 True :=
  ⟨evenQuotes_of_no_quote (by decide), by decide, fun _ => trivial⟩

theorem plainText_toString (n : Nat) : PlainText (toString (n : Int)).toList := by
  intro c hc
  rw [toList_toString_natCast] at hc
  have hd := isDigit_of_mem_toDigits hc
  refine ⟨?_, ?_, ?_⟩ <;> rintro rfl <;> exact absurd hd (by decide)

theorem IsName.plainText (h : IsName s) : PlainText s.toList := by
  obtain ⟨c, cs, hs, hc, hcs, -⟩ := h
  have hw : ∀ d ∈ s.toList, isWordChar d = true := by
    rw [hs]
    exact List.forall_mem_cons.mpr ⟨by simp [isWordChar, hc], hcs⟩
  intro d hd
  refine ⟨?_, ?_, ?_⟩ <;> rintro rfl <;> exact absurd (hw _ hd) (by decide)

theorem Infix.known {op : InfixOp} {k : Kind} (h : Infix l k op) :
    op.Known ∧ PlainText op.text.toList := by
  cases h <;> exact ⟨trivial, by decide⟩

/-! ### Phrases -/

/-- The text of a phrase and the semicolons among the tokens that it is read from. Of statements the
semicolons at their ends are not counted, but those between them. -/
def Phrase.Tallied (ts : List Token) : Phrase → Prop
  | expr _ e => (∀ name, e = .ident name → IsName name) ∧
    Tally e.text e.emptyBlocks (semicolons ts) e.Printable
  | list es =>
    Tally (joined ", " (exprTexts es)) (emptyBlocksExprs es) (semicolons ts) (PrintableExprs es)
  | pairs ps =>
    Tally (joined ", " (pairTexts ps)) (emptyBlocksPairs ps) (semicolons ts) (PrintablePairs ps)
  | params names => Tally (joined ", " names) 0 (semicolons ts) (∀ name ∈ names, IsName name)
  | block body =>
    Tally (blockText (stmtTexts body)) (emptyBlocks body) (semicolons ts) (PrintableStmts body)
  | stmt st => EndsPlain st.core ∧ Tally st.core st.emptyBlocks (semicolons ts) st.Printable
  | stmts ss => (∀ st ∈ ss, EndsPlain st.core ∧ EvenQuotes st.core.toList) ∧
    Tally (joined "; " (ss.map Stmt.core)) (emptyBlocks ss) (semicolons ts) (PrintableStmts ss)

theorem tally_block (h : (Phrase.stmts ss).Tallied ts) :
    Tally (blockText (stmtTexts ss)) (emptyBlocks ss) (semicolons ts) (PrintableStmts ss) := by
  by_cases hn : ss = []
  · subst hn
    exact tally_plainText (by decide) trivial
  · rw [blockText_stmtTexts (fun st hst => (h.1 st hst).1) hn]
    exact (h.2.before (by decide)).after (by decide)

theorem tally_string (h : '"' ∉ s.toList) (hP : P) : Tally ("\"" ++ s ++ "\"") 0 n P := by
  have hs : ("\"" ++ s ++ "\"").toList = '"' :: (s.toList ++ ['"']) := by simp
  refine ⟨hs ▸ evenQuotes_string h, ?_, fun _ => hP⟩
  rw [hs, enders_string h]
  exact Nat.zero_le n

/-- The tokens of no statements are semicolons. -/
theorem Derives.semicolons_pos (h : Derives (.stmts []) ts) (hn : ts ≠ []) :
    1 ≤ semicolons ts := by
  cases h with
  | stmtsNil => exact absurd rfl hn
  | stmtsSkip ht => simp [ht]

/-- A block without statements has a semicolon in it that its text has not. -/
theorem Tally.blockStmt
    (h : Tally (blockText (stmtTexts ss)) (emptyBlocks ss) (semicolons ts) (PrintableStmts ss))
    (hd : Derives (.stmts ss) ts) (hn : ts ≠ []) :
    Tally (Stmt.core (.block ss)) (Stmt.emptyBlocks (.block ss)) (semicolons ts)
      (Stmt.Printable (.block ss)) := by
  cases ss with
  | nil => exact ⟨h.evenQuotes, hd.semicolons_pos hn, fun hz => by simp [Stmt.emptyBlocks] at hz⟩
  | cons st ss =>
    have hm : Stmt.emptyBlocks (.block (st :: ss)) = emptyBlocks (st :: ss) := by
      simp [Stmt.emptyBlocks]
    exact hm ▸ h.mono (Nat.le_refl _) fun hs => ⟨by simp, hs⟩

theorem Derives.tallied (h : Derives φ ts) (hp : ∀ t ∈ ts, t.Proper) : φ.Tallied ts := by
  induction h with
  | int ht hn => exact ⟨nofun, tally_plainText (plainText_toString _) ⟨Int.natCast_nonneg _, hn⟩⟩
  | @string t ht =>
    have hq := (hp t (by simp)).2 ht
    exact ⟨nofun, tally_string hq hq⟩
  | true | false => exact ⟨nofun, tally_plainText (by decide) trivial⟩
  | @ident t ht =>
    have hname : IsName t.text := (hp t (by simp)).1 ht
    exact ⟨fun name he => Expr.ident.inj he ▸ hname, tally_plainText hname.plainText hname⟩
  | group _ _ _ _ ih =>
    obtain ⟨hname, he⟩ := ih fun t ht => hp t (by simp [ht])
    exact ⟨hname, he.mono (by simp; omega) id⟩
  | ifThen _ _ _ _ _ ihe iha =>
    have he := (ihe fun t ht => hp t (by simp [ht])).2
    have ha := iha fun t ht => hp t (by simp [ht])
    have hc := ((he.before (a := "if (") (by decide)).after (a := ") ") (by decide)).append ha
    exact ⟨nofun, hc.mono (by simp; omega) id⟩
  | ifThenElse _ _ _ _ _ _ _ ihe iha ihb =>
    have he := (ihe fun t ht => hp t (by simp [ht])).2
    have ha := iha fun t ht => hp t (by simp [ht])
    have hb := ihb fun t ht => hp t (by simp [ht])
    have hc := ((he.before (a := "if (") (by decide)).after (a := ") ") (by decide)).append ha
    refine ⟨nofun, ((hc.after (a := " else ") (by decide)).append hb).mono ?_ and_assoc.mp⟩
    simp; omega
  | function _ _ _ _ _ ihp ihb =>
    have hn := ihp fun t ht => hp t (by simp [ht])
    have hb := ihb fun t ht => hp t (by simp [ht])
    have hf := ((hn.before (a := "fn(") (by decide)).after (a := ") ") (by decide)).append hb
    rw [Nat.zero_add] at hf
    exact ⟨nofun, hf.mono (by simp; omega) id⟩
  | array _ _ _ ih =>
    have he := ih fun t ht => hp t (by simp [ht])
    have ha := (he.before (a := "[") (by decide)).after (a := "]") (by decide)
    exact ⟨nofun, ha.mono (by simp; omega) id⟩
  | hashmap _ _ _ ih =>
    have he := ih fun t ht => hp t (by simp [ht])
    have hh := (he.before (a := "\x7b") (by decide)).after (a := "\x7d") (by decide)
    exact ⟨nofun, hh.mono (by simp; omega) id⟩
  | call _ _ _ _ ihf ihs =>
    have hf := (ihf fun t ht => hp t (by simp [ht])).2
    have hs := ihs fun t ht => hp t (by simp [ht])
    have hc := ((hf.after (a := "(") (by decide)).append hs).after (a := ")") (by decide)
    exact ⟨nofun, hc.mono (by simp; omega) id⟩
  | index _ _ _ _ _ iha ihi =>
    have ha := (iha fun t ht => hp t (by simp [ht])).2
    have hi := (ihi fun t ht => hp t (by simp [ht])).2
    have hl := (ha.before (a := "(") (by decide)).after (a := "[") (by decide)
    exact ⟨nofun, ((hl.append hi).after (a := "])") (by decide)).mono (by simp; omega) id⟩
  | not _ _ ih =>
    have he := (ih fun t ht => hp t (by simp [ht])).2
    have ho := (he.before (a := "(" ++ "!") (by decide)).after (a := ")") (by decide)
    exact ⟨nofun, ho.mono (by simp) fun h => ⟨trivial, h⟩⟩
  | neg _ _ ih =>
    have he := (ih fun t ht => hp t (by simp [ht])).2
    have ho := (he.before (a := "(" ++ "-") (by decide)).after (a := ")") (by decide)
    exact ⟨nofun, ho.mono (by simp) fun h => ⟨trivial, h⟩⟩
  | binary ht _ _ iha ihb =>
    obtain ⟨hknown, hop⟩ := ht.known
    have ha := (iha fun t ht => hp t (by simp [ht])).2
    have hb := (ihb fun t ht => hp t (by simp [ht])).2
    have hl := (ha.before (a := "(") (by decide)).after (a := " ") (by decide)
    have hr := ((hl.after hop).after (a := " ") (by decide)).append hb
    exact ⟨nofun, (hr.after (a := ")") (by decide)).mono (by simp) fun h => ⟨hknown, h⟩⟩
  | tighter _ ih => exact ih hp
  | listNil | pairsNil => exact tally_plainText (by decide) trivial
  | paramsNil => exact tally_plainText (by decide) (by simp)
  | listOne _ _ ih =>
    have he := (ih fun t ht => hp t (by simp [ht])).2
    exact he.mono (by simp) fun h => ⟨h, trivial⟩
  | listCons _ _ _ _ ih ihs =>
    have he := (ih fun t ht => hp t (by simp [ht])).2
    have hs := ihs fun t ht => hp t (by simp [ht])
    exact ((he.after (a := ", ") (by decide)).append hs).mono (by simp; omega) id
  | pairsOne _ _ _ _ ihk ihv =>
    have hk := (ihk fun t ht => hp t (by simp [ht])).2
    have hv := (ihv fun t ht => hp t (by simp [ht])).2
    refine ((hk.after (a := ": ") (by decide)).append hv).mono ?_ fun h => ⟨h.1, h.2, trivial⟩
    simp; omega
  | pairsCons _ _ _ _ _ _ ihk ihv ihs =>
    have hk := (ihk fun t ht => hp t (by simp [ht])).2
    have hv := (ihv fun t ht => hp t (by simp [ht])).2
    have hs := ihs fun t ht => hp t (by simp [ht])
    have he := (hk.after (a := ": ") (by decide)).append hv
    exact ((he.after (a := ", ") (by decide)).append hs).mono (by simp; omega) and_assoc.mp
  | @paramsOne t ht =>
    have hname : IsName t.text := (hp t (by simp)).1 ht
    exact tally_plainText hname.plainText (List.forall_mem_singleton.mpr hname)
  | @paramsCons t _ _ _ _ ht _ _ ih =>
    have hname : IsName t.text := (hp t (by simp)).1 ht
    have hs := ih fun t ht => hp t (by simp [ht])
    have hn := (tally_plainText (n := 0) hname.plainText hname).after (a := ", ") (by decide)
    exact (hn.append hs).mono (by simp; omega) fun h => List.forall_mem_cons.mpr h
  | block _ _ _ ih =>
    have hb := tally_block (ih fun t ht => hp t (by simp [ht]))
    exact hb.mono (by simp; omega) id
  | @assign t _ _ _ ht _ _ ih =>
    have hname : IsName t.text := (hp t (by simp)).1 ht
    obtain ⟨hn, he⟩ := ih fun t ht => hp t (by simp [ht])
    have ht := (tally_plainText (n := 0) hname.plainText hname).after (a := " = ") (by decide)
    have hs := ht.append he
    rw [Nat.zero_add] at hs
    exact ⟨(Expr.endsPlain_of_names hn).append, hs.mono (by simp; omega) id⟩
  | ret _ _ ih =>
    obtain ⟨hn, he⟩ := ih fun t ht => hp t (by simp [ht])
    have hr := he.before (a := "return ") (by decide)
    exact ⟨(Expr.endsPlain_of_names hn).append, hr.mono (by simp) id⟩
  | exprStmt _ ih =>
    obtain ⟨hn, he⟩ := ih hp
    exact ⟨Expr.endsPlain_of_names hn, he⟩
  | @blockStmt _ _ body _ _ hb hs _ ih =>
    have ht := tally_block (ih fun t ht => hp t (by simp [ht]))
    exact ⟨endsPlain_blockText _, (ht.blockStmt hb hs).mono (by simp; omega) id⟩
  | stmtsNil => exact ⟨by simp, tally_plainText (by decide) trivial⟩
  | stmtsSkip _ _ ih =>
    obtain ⟨hss, ht⟩ := ih fun t ht => hp t (by simp [ht])
    exact ⟨hss, ht.mono (by simp) id⟩
  | stmtsLast _ ih =>
    obtain ⟨hst, ht⟩ := ih hp
    exact ⟨by simpa using ⟨hst, ht.evenQuotes⟩, ht.mono (Nat.le_refl _) fun h => ⟨h, trivial⟩⟩
  | @stmtsCons t st ss _ _ _ ht _ ih ihs =>
    obtain ⟨hst, hs⟩ := ih fun t ht => hp t (by simp [ht])
    obtain ⟨hss, hr⟩ := ihs fun t ht => hp t (by simp [ht])
    refine ⟨List.forall_mem_cons.mpr ⟨⟨hst, hs.evenQuotes⟩, hss⟩, ?_⟩
    cases ss with
    | nil => exact hs.mono (by simp) fun h => ⟨h, trivial⟩
    | cons st' ss =>
      refine ((hs.append tally_semicolon).append hr).mono ?_ fun h => ⟨h.1.1, h.2⟩
      simp [ht]; omega

end Scriptlet
