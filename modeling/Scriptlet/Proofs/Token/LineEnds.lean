import Scriptlet.Proofs.Token.Coordinates

/-!
Where line ends are tokens. Between two neighbours among the other tokens of a text there is one
line end if the first of them can end a statement and a line ends between them, and else there is
none. It stands where the first of these lines ends.
-/

namespace Scriptlet

open Scanner

/-- The kinds of tokens that can end a statement. -/
def closers : List Kind :=
  [.ident, .int, .string, .kwTrue, .kwFalse, .rparen, .rbracket, .rbrace]

/-- The line ends between a token of the given kind, with some characters up to its end, and the
next token that is no line end, a gap further on. In front of the first token there are none. -/
def lineEndsIn (last : Option Kind) (before gap : List Char) : List Token :=
  if (∃ k ∈ last, k ∈ closers) ∧ '\n' ∈ gap then
    [⟨.semicolon, "\n", .behind (before ++ gap.takeWhile (· ≠ '\n'))⟩]
  else []

/-- The characters of a text behind its first ones, cut into tokens that are no line ends and the
gaps of white space in front of them, together with these tokens and the line ends that the gaps
stand for. The token in front of all is of the given kind. -/
inductive Gapped : Option Kind → List Char → List Char → List Token → Prop where
  | eof {last : Option Kind} {before gap : List Char} (hg : ∀ c ∈ gap, isBlank c = true) :
    Gapped last before gap
      (lineEndsIn last before gap ++ [⟨.eof, "", .behind (before ++ gap)⟩])
  | token {last : Option Kind} {before gap span after : List Char} {kind : Kind} {text : String}
    {ts : List Token} (hg : ∀ c ∈ gap, isBlank c = true) (hs : span ≠ []) (hk : kind ≠ .eof)
    (hn : ¬ (kind = .semicolon ∧ text = "\n"))
    (hl : Lexeme (before ++ gap) after span kind text)
    (h : Gapped (some kind) (before ++ gap ++ span) after ts) :
    Gapped last before (gap ++ (span ++ after))
      (lineEndsIn last before gap ++ ⟨kind, text, .behind (before ++ gap)⟩ :: ts)

variable {s : Scanner} {before after cs gap span : List Char} {last : Option Kind} {k : Kind}
  {text : String} {ts : List Token}

theorem endsStatement_iff : k.endsStatement = true ↔ k ∈ closers := by
  cases k <;> decide

theorem lineEndsIn_of_not_closer (hk : k ∉ closers) : lineEndsIn (some k) before gap = [] := by
  simp [lineEndsIn, hk]

theorem lineEndsIn_of_not_mem (hn : '\n' ∉ gap) : lineEndsIn last before gap = [] := by
  simp [lineEndsIn, hn]

/-- The first line end of a gap is the one that is told. -/
theorem lineEndsIn_append (hk : k ∈ closers) (hn : '\n' ∉ gap) :
    lineEndsIn (some k) before (gap ++ '\n' :: cs) =
      [⟨.semicolon, "\n", .behind (before ++ gap)⟩] := by
  have hrun : (gap ++ '\n' :: cs).takeWhile (· ≠ '\n') = gap := by
    rw [List.takeWhile_append_of_pos fun c hc => by simpa using ne_of_mem_of_not_mem hc hn]
    simp
  rw [lineEndsIn, if_pos ⟨⟨k, rfl, hk⟩, by simp⟩, hrun]

/-- A line end and the gap behind it are one gap with the line end in it. -/
theorem Gapped.lineEnd (hk : k ∈ closers) (hg : ∀ c ∈ gap, isBlank c = true) (hn : '\n' ∉ gap)
    (h : Gapped (some .semicolon) (before ++ gap ++ ['\n']) cs ts) :
    Gapped (some k) before (gap ++ '\n' :: cs)
      (⟨.semicolon, "\n", .behind (before ++ gap)⟩ :: ts) := by
  have hnone {before gap : List Char} : lineEndsIn (some .semicolon) before gap = [] :=
    lineEndsIn_of_not_closer (by decide)
  have hblank {cs : List Char} (hcs : ∀ c ∈ cs, isBlank c = true) :
      ∀ c ∈ gap ++ '\n' :: cs, isBlank c = true :=
    List.forall_mem_append.mpr ⟨hg, List.forall_mem_cons.mpr ⟨rfl, hcs⟩⟩
  cases h with
  | eof hcs =>
    have h : Gapped (some k) before _ _ := .eof (hblank hcs)
    rw [lineEndsIn_append hk hn] at h
    rw [hnone]
    simpa using h
  | token hcs hs hk' hn' hl h =>
    rw [hnone]
    have h : Gapped (some k) before _ _ :=
      .token (hblank hcs) hs hk' hn' (by simpa using hl) (by simpa using h)
    rw [lineEndsIn_append hk hn] at h
    simpa using h

/-- Only the end of a line is read as a line end. -/
theorem Lexeme.span_lineEnd (h : Lexeme before after span .semicolon "\n") : span = ['\n'] := by
  generalize hk : Kind.semicolon = k at h
  generalize ht : "\n" = text at h
  cases h with
  | lineEnd => rfl
  | word =>
    rw [← Kind.ofWord_eq_lookup] at hk
    exact absurd hk.symm (Kind.ofWord_ne span).2
  | pair hp => exact absurd hk.symm (Kind.ofPair?_ne hp).2
  | @symbol c k hc =>
    have hn : c = '\n' := by simpa using (congrArg String.toList ht).symm
    rw [hn] at hc
    cases hc
  | string | int | illegal => cases hk

/-! ### What comes next -/

namespace Scanner

theorem line_skipBlank_go (cs : List Char) (he : s.atEnd = true) :
    (skipBlank.go cs s).line = s.line := by
  induction cs generalizing s with
  | nil => rfl
  | cons c cs ih =>
    simp only [skipBlank.go, he, Bool.not_true, Bool.and_false]
    split
    · exact ih he
    · rfl

/-- What a scanner keeps of the token in front of it. -/
def LastIs (s : Scanner) (last : Option Kind) : Prop := s.atEnd = true ↔ ∃ k ∈ last, k ∈ closers

theorem lastIs_ofText (source : String) : (ofText source).LastIs none := by simp [LastIs, ofText]

theorem lastIs_next (s : Scanner) : s.next.2.LastIs (some s.next.1.kind) := by
  simp [LastIs, next, endsStatement_iff]

end Scanner

/-- Behind a token that can end a statement nothing is passed over beyond the end of the line. -/
theorem Yields.newline_not_mem (hy : Yields before gap span s) (h : s.Behind before)
    (he : s.atEnd = true) : '\n' ∉ gap := by
  have hline : s.next.1.pos.line = s.line :=
    (congrArg Position.line (scan_pos s.skipBlank)).trans (line_skipBlank_go _ he)
  have hpos : s.line = 1 + before.count '\n' := by
    have hp := congrArg Position.line h.pos
    rwa [Position.behind_eq] at hp
  rw [hy.pos, Position.behind_eq] at hline
  simp only [List.count_append] at hline
  exact List.count_eq_zero.mp (by omega)

/-- The gap in front of the next token stands for no line end: behind a token that can end a
statement it has none, and behind other tokens line ends do not count. -/
theorem Yields.lineEndsIn_eq (hy : Yields before gap span s) (h : s.Behind before)
    (hl : s.LastIs last) : lineEndsIn last before gap = [] := by
  by_cases he : s.atEnd = true
  · exact lineEndsIn_of_not_mem (hy.newline_not_mem h he)
  · rw [lineEndsIn, if_neg fun hc => he (hl.mpr hc.1)]

/-! ### All tokens -/

/-- The line end that comes next is one with the gap in front of it and the gap behind it. -/
theorem Yields.gapped_lineEnd (hy : Yields before gap span s) (h : s.Behind before)
    (hl : s.LastIs last) (hk : s.next.1.kind = .semicolon) (htext : s.next.1.text = "\n")
    (hgapped : Gapped (some .semicolon) (before ++ gap ++ ['\n']) cs ts) :
    Gapped last before (gap ++ '\n' :: cs)
      (⟨.semicolon, "\n", .behind (before ++ gap)⟩ :: ts) := by
  have he : s.atEnd = true := next_isLineEnd (by simp [Token.isLineEnd, hk, htext])
  obtain ⟨k, rfl, hcloser⟩ := hl.mp he
  exact hgapped.lineEnd hcloser hy.blank (hy.newline_not_mem h he)

theorem Yields.gapped_end (hy : Yields before gap span s) (h : s.Behind before)
    (hl : s.LastIs last) (hk : s.next.1.kind = .eof) (n : Nat) :
    Gapped last before s.rest (s.tokens n) := by
  obtain ⟨hrest, htokens⟩ := hy.tokens_end hk n
  have hgapped : Gapped last before _ _ := .eof hy.blank
  rwa [hy.lineEndsIn_eq h hl, List.nil_append, ← htokens, ← hrest] at hgapped

theorem gapped_tokens (n : Nat) (hn : s.rest.length ≤ n) (h : s.Behind before)
    (ha : Apart before s.rest) (hl : s.LastIs last) :
    Gapped last before s.rest (s.tokens n) := by
  induction n generalizing s before last with
  | zero =>
    obtain ⟨gap, span, hy⟩ := exists_yields h ha
    refine hy.gapped_end h hl (by_contra fun hk => ?_) 0
    have hlt := next_length_lt hk
    omega
  | succ n ih =>
    obtain ⟨gap, span, hy⟩ := exists_yields h ha
    obtain ⟨hk, -⟩ | ⟨hk, hne, hlex⟩ := hy.token
    · exact hy.gapped_end h hl hk _
    have hlt := next_length_lt hk
    have htail := ih (s := s.next.2) (by omega) hy.behind hy.apart (lastIs_next s)
    have hnext : s.next.1 = ⟨s.next.1.kind, s.next.1.text, .behind (before ++ gap)⟩ := by
      rw [← hy.pos]
    rw [tokens]
    simp only [hk, if_false]
    rw [hy.rest, hnext]
    by_cases hend : s.next.1.kind = .semicolon ∧ s.next.1.text = "\n"
    · obtain ⟨hsemi, htext⟩ := hend
      rw [hsemi, htext] at hlex ⊢
      rw [hsemi] at htail
      obtain rfl := hlex.span_lineEnd
      exact hy.gapped_lineEnd h hl hsemi htext htail
    · have hgapped : Gapped last before _ _ := .token hy.blank hne hk hend hlex htail
      rwa [hy.lineEndsIn_eq h hl] at hgapped

/-- The line ends among the tokens of a text are the ones that its gaps stand for. -/
theorem gapped_tokenize (source : String) : Gapped none [] source.toList (tokenize source) :=
  gapped_tokens _ (Nat.le_refl _) (behind_ofText source) apart_nil (lastIs_ofText source)

end Scriptlet
