import Mathlib.Data.List.DropRight
import Scriptlet.Proofs.Token.Tiling

/-!
Positions are coordinates of the text. However many tokens have been asked for, the scanner knows
how much it has read, how many line ends were in it, and where the last of them was; and a token has
the line and the column of its first character.
-/

namespace Scriptlet

open Scanner

/-! ### Lines of a text -/

/-- The number of characters up to the last line end, that included; it is the offset at which the
line behind those characters starts. -/
def lineStartOf (before : List Char) : Nat := (before.rdropWhile (· ≠ '\n')).length

/-- The line and the column of the character at an offset. -/
def Position.ofOffset (source : List Char) (offset : Nat) : Position :=
  ⟨1 + (source.take offset).count '\n', offset - lineStartOf (source.take offset) + 1⟩

theorem lineStartOf_le (before : List Char) : lineStartOf before ≤ before.length :=
  (List.rdropWhile_prefix _ _).length_le

theorem lineStartOf_concat (before : List Char) (c : Char) :
    lineStartOf (before ++ [c]) = if c = '\n' then before.length + 1 else lineStartOf before := by
  unfold lineStartOf
  by_cases hc : c = '\n'
  · rw [List.rdropWhile_concat_neg _ _ _ (by simp [hc])]
    simp [hc]
  · rw [List.rdropWhile_concat_pos _ _ _ (by simp [hc]), if_neg hc]

/-- The place behind some characters is counted in their line ends and from the last of these. -/
theorem Position.behind_eq (before : List Char) :
    Position.behind before =
      ⟨1 + before.count '\n', before.length - lineStartOf before + 1⟩ := by
  induction before using List.reverseRecOn with
  | nil => rfl
  | append_singleton before c ih =>
    have hle := lineStartOf_le before
    rw [behind, List.foldl_append, ← behind, ih, lineStartOf_concat]
    by_cases hc : c = '\n'
    · simp [advance, hc, Nat.add_assoc]
    · simp [advance, hc]
      omega

theorem Position.ofOffset_length (before after : List Char) :
    ofOffset (before ++ after) before.length = behind before := by
  rw [behind_eq, ofOffset, List.take_left]

/-! ### How much has been read -/

namespace Scanner

variable {s t : Scanner} {source before cs : List Char}

/-- The number of characters read and to be read. -/
def extent (s : Scanner) : Nat := s.offset + s.rest.length

theorem extent_skipBlank_go (cs : List Char) (hs : s.rest = cs) :
    (skipBlank.go cs s).extent = s.extent := by
  induction cs generalizing s with
  | nil => rfl
  | cons c cs ih =>
    simp only [skipBlank.go]
    split
    · rw [ih rfl]
      simp only [extent, step, hs, List.length_cons]
      omega
    · split
      · rw [ih rfl]
        simp only [extent, newline, hs, List.length_cons]
        omega
      · rfl

theorem extent_readString_go (cs : List Char) (hs : s.rest = cs) :
    (readString.go cs s).2.extent = s.extent := by
  induction cs generalizing s with
  | nil => rfl
  | cons c cs ih =>
    have hr : (s.read c cs).rest = cs ∧ (s.read c cs).extent = s.extent := by
      unfold read
      split <;> simp only [extent, newline, step, hs, List.length_cons, true_and] <;> omega
    simp only [readString.go]
    split
    · simp only [extent, step, hs, List.length_cons]
      omega
    · rw [ih hr.1, hr.2]

theorem extent_readRun (p : Char → Bool) (s : Scanner) : (s.readRun p).2.extent = s.extent := by
  have h := congrArg List.length (readRun_rest p s)
  simp only [List.length_append] at h
  simp only [extent, readRun, skip] at h ⊢
  omega

theorem extent_scan (s : Scanner) : s.scan.2.extent = s.extent := by
  cases hs : s.rest with
  | nil => simp [scan, hs]
  | cons c cs =>
    have hstep : (s.step cs).extent = s.extent := by
      simp only [extent, step, hs, List.length_cons]
      omega
    simp only [scan, hs]
    split
    · exact hstep
    · split
      · exact (extent_readString_go cs rfl).trans hstep
      · split
        · exact extent_readRun _ s
        · split
          · exact extent_readRun _ s
          · split
            · next k hk =>
              obtain ⟨d, hd, -⟩ := Option.bind_eq_some_iff.mp hk
              obtain ⟨ds, rfl⟩ := List.head?_eq_some_iff.mp hd
              simp only [extent, skip, hs, List.length_cons, List.drop_one, List.tail_cons]
              omega
            · exact hstep

theorem extent_next (s : Scanner) : s.next.2.extent = s.extent :=
  (extent_scan _).trans (extent_skipBlank_go _ rfl)

/-- The scanner has read the first characters of a text, and no token is cut where it is. -/
structure In (source before : List Char) (s : Scanner) : Prop where
  source_eq : source = before ++ s.rest
  behind : s.Behind before
  apart : Apart before s.rest
  extent : s.extent = source.length

/-- What the scanner keeps is true of the text that it reads. -/
structure OnCourse (source : List Char) (s : Scanner) : Prop where
  offset : s.offset ≤ source.length
  rest : s.rest = source.drop s.offset
  line : s.line = 1 + (source.take s.offset).count '\n'
  lineStart : s.lineStart = lineStartOf (source.take s.offset)

theorem in_ofText (source : String) : (ofText source).In source.toList [] :=
  ⟨rfl, behind_ofText source, apart_nil, Nat.zero_add _⟩

theorem In.offset_eq (h : s.In source before) : s.offset = before.length := by
  have he := h.extent
  rw [h.source_eq, List.length_append, Scanner.extent] at he
  omega

theorem In.onCourse (h : s.In source before) : s.OnCourse source := by
  have ho := h.offset_eq
  have htake : source.take s.offset = before := by rw [h.source_eq, ho, List.take_left]
  have hpos := h.behind.pos
  have hsane : s.lineStart ≤ s.offset := h.behind.sane
  have hle := lineStartOf_le before
  rw [Position.behind_eq, Scanner.pos, Position.mk.injEq] at hpos
  refine ⟨?_, ?_, htake ▸ hpos.1, htake ▸ ?_⟩
  · rw [h.source_eq, ho, List.length_append]
    exact Nat.le_add_right _ _
  · rw [h.source_eq, ho, List.drop_left]
  · omega

end Scanner

/-- A token that starts at an offset of a text and ends in front of another one, with the position of
its first character. The end token starts at the end of the text. -/
structure Token.StandsAt (source : List Char) (start stop : Nat) (token : Token) : Prop where
  pos : token.pos = .ofOffset source start
  chars : token.kind = .eof ∧ start = source.length ∧ stop = source.length ∨
    token.kind ≠ .eof ∧ start < stop ∧
      Lexeme (source.take start) (source.drop stop) ((source.take stop).drop start) token.kind
        token.text

variable {s : Scanner} {source before gap span : List Char}

theorem Scanner.In.next (h : s.In source before) (hy : Yields before gap span s) :
    s.next.2.In source (before ++ gap ++ span) :=
  ⟨by rw [h.source_eq, hy.rest]; simp, hy.behind, hy.apart, (extent_next s).trans h.extent⟩

theorem Scanner.In.standsAt (h : s.In source before) (hy : Yields before gap span s) :
    s.next.1.StandsAt source (before ++ gap).length s.next.2.offset := by
  have ho := (h.next hy).offset_eq
  have hsource : source = before ++ gap ++ (span ++ s.next.2.rest) := by
    rw [h.source_eq, hy.rest, List.append_assoc]
  refine ⟨?_, ?_⟩
  · rw [hsource, Position.ofOffset_length, hy.pos]
  rw [ho]
  obtain ⟨hk, -, rfl, hrest⟩ | ⟨hk, hne, hl⟩ := hy.token
  · exact .inl ⟨hk, by simp [hsource, hrest], by simp [hsource, hrest]⟩
  · refine .inr ⟨hk, ?_, ?_⟩
    · have hpos := List.length_pos_iff.mpr hne
      have hlen : (before ++ gap ++ span).length = (before ++ gap).length + span.length :=
        List.length_append
      omega
    · have htake : source.take (before ++ gap ++ span).length = before ++ gap ++ span := by
        rw [hsource, ← List.append_assoc (before ++ gap), List.take_left]
      have hdrop : source.drop (before ++ gap ++ span).length = s.next.2.rest := by
        rw [hsource, ← List.append_assoc (before ++ gap), List.drop_left]
      rw [htake, hdrop, List.drop_left]
      rwa [hsource, List.take_left]

/-! ### After any number of tokens -/

/-- The scanner after some tokens of a text. -/
def Scanner.placeAfter (source : String) : Nat → Scanner
  | 0 => .ofText source
  | n + 1 => (placeAfter source n).next.2

/-- The token that comes after some others. Behind the end token come end tokens only. -/
def tokenAfter (source : String) (n : Nat) : Token := (Scanner.placeAfter source n).next.1

theorem Scanner.exists_in_placeAfter (source : String) (n : Nat) :
    ∃ before, (placeAfter source n).In source.toList before := by
  induction n with
  | zero => exact ⟨[], in_ofText source⟩
  | succ n ih =>
    obtain ⟨before, h⟩ := ih
    obtain ⟨gap, span, hy⟩ := exists_yields h.behind h.apart
    exact ⟨_, h.next hy⟩

theorem Scanner.Behind.precedes (h : s.Behind before) (hk : s.next.1.kind ≠ .eof) :
    s.next.1.pos.Precedes s.next.2.next.1.pos := by
  have hb : s.skipBlank.Sane := (follows_skipBlank_go _ _).sane h.sane
  have hpos : s.next.1.pos = s.skipBlank.pos := scan_pos _
  have hnext : Holds s.next.2 s.next.2.next.1 := ⟨_, follows_skipBlank_go _ _, scan_pos _⟩
  exact hpos ▸ hnext.precedes (follows_next s) ((follows_scan _).2 hk) hb

/-- After any number of tokens the scanner is on course, and the next token stands behind white space,
with the line and the column of its first character. Up to the end token, each one precedes the
next. -/
theorem token_coordinates (source : String) (n : Nat) :
    (Scanner.placeAfter source n).OnCourse source.toList ∧
    (∃ start, (Scanner.placeAfter source n).offset ≤ start ∧
      (∀ c ∈ (source.toList.take start).drop (Scanner.placeAfter source n).offset,
        isBlank c = true) ∧
      (tokenAfter source n).StandsAt source.toList start
        (Scanner.placeAfter source (n + 1)).offset) ∧
    ((tokenAfter source n).kind ≠ .eof →
      (tokenAfter source n).pos.Precedes (tokenAfter source (n + 1)).pos) := by
  obtain ⟨before, h⟩ := Scanner.exists_in_placeAfter source n
  obtain ⟨gap, span, hy⟩ := exists_yields h.behind h.apart
  have ho := h.offset_eq
  have hstands := h.standsAt hy
  refine ⟨h.onCourse, ⟨(before ++ gap).length, ?_, fun c hc => hy.blank c ?_, hstands⟩,
    h.behind.precedes⟩
  · rw [ho, List.length_append]
    exact Nat.le_add_right _ _
  · rwa [h.source_eq, hy.rest, ← List.append_assoc before, List.take_left, ho, List.drop_left] at hc

end Scriptlet
